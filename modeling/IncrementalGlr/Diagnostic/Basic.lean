import IncrementalGlr.Language
import IncrementalGlr.Text.Length

/-!
# Diagnostics
-/

namespace IncrementalGlr

inductive DiagnosticKind where
  | unrecognizedText
  | unexpectedText
  | missingToken
  | unloadableTable
  deriving DecidableEq, Repr, Inhabited

namespace DiagnosticKind

def code : DiagnosticKind → String
  | unrecognizedText => "E0001"
  | unexpectedText => "E1001"
  | missingToken => "E1002"
  | unloadableTable => "E9001"

def isLexical : DiagnosticKind → Bool
  | unrecognizedText => true
  | _ => false

def isSyntactic : DiagnosticKind → Bool
  | unexpectedText | missingToken => true
  | _ => false

end DiagnosticKind

structure Diagnostic where
  kind : DiagnosticKind
  message : String
  span : Option Span
  notes : List String
  deriving DecidableEq, Repr, Inhabited

namespace Diagnostic

def title (diagnostic : Diagnostic) : String :=
  "error[" ++ diagnostic.kind.code ++ "]: " ++ diagnostic.message

def noteLine (note : String) : String := "  = note: " ++ note

def display (diagnostic : Diagnostic) : String :=
  "\n".intercalate (diagnostic.title :: diagnostic.notes.map noteLine)

def ofLoadError (error : LoadError) : Diagnostic :=
  ⟨.unloadableTable, "cannot load grammar: " ++ error.message, none, []⟩

end Diagnostic

end IncrementalGlr
