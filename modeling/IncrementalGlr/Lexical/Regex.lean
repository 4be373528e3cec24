import IncrementalGlr.Lexical.CharSet
import IncrementalGlr.Grammar.Basic

/-!
# Regular expressions
-/

namespace IncrementalGlr

inductive Regex where
  | empty
  | set (chars : CharSet)
  | seq (items : List Regex)
  | alt (alternatives : List Regex)
  /-- At least `min` times, and at most `max` times if there is a bound. -/
  | repetition (inner : Regex) (min : Nat) (max : Option Nat)
  deriving Repr, Inhabited

namespace Regex

def literal (text : String) : Regex :=
  seq (text.toList.map fun c => set (CharSet.single c))

end Regex

end IncrementalGlr
