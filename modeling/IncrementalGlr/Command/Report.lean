import IncrementalGlr.Command.Arguments
import IncrementalGlr.Parse.Parser
import IncrementalGlr.Diagnostic.OfTree
import IncrementalGlr.Diagnostic.Report

/-!
# What commands find out about a text
-/

namespace IncrementalGlr

def parseReport (language : Language) (options : ParserOptions) (text : String) : String :=
  (parse language options text none).tree.expression

structure CheckReport where
  errorCount : Nat
  rendered : String
  deriving DecidableEq, Repr, Inhabited

namespace CheckReport

def hasErrors (report : CheckReport) : Bool := report.errorCount > 0

def ofText (language : Language) (options : ParserOptions) (name text : String) : CheckReport :=
  let source := Source.ofText text
  let diagnostics := Diagnostic.ofTree (parse language options text none).tree source
  ⟨diagnostics.length, Diagnostic.report name source diagnostics⟩

end CheckReport

structure EditReport where
  text : String
  expression : String
  stats : ReuseStats
  /-- The tree is not the one that a parse without the old tree gives. -/
  diverged : Bool

namespace EditReport

def applyEdits (text : String) (tree : Tree) :
    List EditArgument → Except CommandError (String × Tree)
  | [] => .ok (text, tree)
  | change :: rest => do
    change.validate text
    let (next, edit) := Edit.apply text change.start change.stop change.inserted
    applyEdits next (tree.edit edit) rest

def ofEdits (language : Language) (options : ParserOptions) (text : String)
    (edits : List EditArgument) : Except CommandError EditReport := do
  let (text, old) ← applyEdits text (parse language options text none).tree edits
  let parsed := parse language options text (some old)
  let fresh := parse language options text none
  return ⟨text, parsed.tree.expression, parsed.stats, !parsed.tree.structurallyEq fresh.tree⟩

end EditReport

end IncrementalGlr
