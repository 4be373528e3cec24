/-!
# Sets of characters

A set of code points as inclusive ranges in ascending order. Ranges come from patterns, where an
escape can name a number beyond the last code point; such a number stands for no character, and the
ranges keep their order around it.
-/

namespace IncrementalGlr

def lastCodePoint : Nat := 0x10FFFF

structure CharSet where
  ranges : List (Nat × Nat)
  deriving DecidableEq, Repr, Inhabited

namespace CharSet

def rangeLe (a b : Nat × Nat) : Bool :=
  a.1 < b.1 || (a.1 == b.1 && a.2 ≤ b.2)

def joinRange (joined : List (Nat × Nat)) (range : Nat × Nat) : List (Nat × Nat) :=
  match joined with
  | [] => [range]
  | last :: rest =>
    if range.1 ≤ last.2 + 1 then (last.1, max last.2 range.2) :: rest
    else range :: last :: rest

def normalize (ranges : List (Nat × Nat)) : List (Nat × Nat) :=
  ((ranges.mergeSort rangeLe).foldl joinRange []).reverse

def empty : CharSet := ⟨[]⟩

def single (c : Char) : CharSet := ⟨[(c.toNat, c.toNat)]⟩

def addRange (set : CharSet) (low high : Nat) : CharSet :=
  if low > high then set else ⟨normalize (set.ranges ++ [(low, min high lastCodePoint)])⟩

def range (low high : Nat) : CharSet := empty.addRange low high

def addChar (set : CharSet) (c : Char) : CharSet := set.addRange c.toNat c.toNat

def addSet (set other : CharSet) : CharSet := ⟨normalize (set.ranges ++ other.ranges)⟩

def gaps (next : Nat) : List (Nat × Nat) → List (Nat × Nat)
  | [] => if next ≤ lastCodePoint then [(next, lastCodePoint)] else []
  | (low, high) :: rest =>
    if low > next then (next, low - 1) :: gaps (high + 1) rest else gaps (high + 1) rest

def negated (set : CharSet) : CharSet := ⟨gaps 0 set.ranges⟩

def contains (set : CharSet) (c : Nat) : Bool :=
  match set.ranges.find? fun range => c ≤ range.2 with
  | some range => range.1 ≤ c
  | none => false

def onlyMember? (set : CharSet) : Option Nat :=
  match set.ranges with
  | [(low, high)] => if low = high then some low else none
  | _ => none

def digits : CharSet := range '0'.toNat '9'.toNat

def word : CharSet :=
  (((digits.addRange 'A'.toNat 'Z'.toNat).addRange 'a'.toNat 'z'.toNat).addChar '_')

def whitespace : CharSet :=
  ([0x20, 0xA0, 0x1680, 0x2028, 0x2029, 0x202F, 0x205F, 0x3000, 0xFEFF].foldl
    (fun set c => set.addRange c c) (range 0x09 0x0D)).addRange 0x2000 0x200A

end CharSet

end IncrementalGlr
