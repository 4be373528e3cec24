import IncrementalGlr.Grammar.Basic

/-!
# The ranking of precedences

Integers compare as numbers, and having no precedence is zero. Named levels compare by their places
in the same list. All other pairs count as equal.
-/

namespace IncrementalGlr

/-- The list of a named level, and its place in it; the first mention counts. -/
def placeOfLevel? (lists : List (List PrecedenceEntry)) (level : String) : Option (Nat × Nat) :=
  (lists.zipIdx.findSome? fun (entries, list) =>
    (entries.findIdx? fun entry => entry.level == level).map fun place => (list, place))

def Precedence.number : Precedence → Int
  | integer value => value
  | _ => 0

/-- Compares two precedences; places nearer the front of a list are greater. -/
def comparePrecedence (lists : List (List PrecedenceEntry)) (a b : Precedence) : Ordering :=
  match a, b with
  | .name a, .name b =>
    match placeOfLevel? lists a, placeOfLevel? lists b with
    | some (listA, placeA), some (listB, placeB) =>
      if listA = listB then compare placeB placeA else .eq
    | _, _ => .eq
  | .name _, _ => .eq
  | _, .name _ => .eq
  | a, b => compare a.number b.number

end IncrementalGlr
