import IncrementalGlr.Script.Grammar
import IncrementalGlr.Grammar.Compilation
import IncrementalGlr.Language

/-!
# The sam language, compiled
-/

namespace IncrementalGlr.Script

inductive BundleError where
  | compile (error : GrammarError)
  | load (error : LoadError)
  deriving DecidableEq, Repr

def BundleError.message : BundleError → String
  | compile error => s!"cannot generate the sam tables: {error.message}"
  | load error => s!"cannot load the sam tables: {error.message}"

def compiled : Except GrammarError Compiled := grammar.compile

def tableBytes : Except GrammarError (List UInt8) :=
  compiled.map fun compiled => compiled.table.toBytes

def stamp : Nat := 0

def language : Except BundleError Language :=
  match compiled with
  | .error error => .error (.compile error)
  | .ok compiled =>
    match Language.ofTable compiled.table none stamp with
    | .error error => .error (.load error)
    | .ok language => .ok language

end IncrementalGlr.Script
