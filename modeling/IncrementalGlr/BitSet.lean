/-!
# Sets of small numbers

A set of natural numbers as the bits of one number.
-/

namespace IncrementalGlr

structure BitSet where
  bits : Nat
  deriving DecidableEq, Hashable, Repr, Inhabited

namespace BitSet

def empty : BitSet := ⟨0⟩

def singleton (n : Nat) : BitSet := ⟨1 <<< n⟩

def contains (set : BitSet) (n : Nat) : Bool := set.bits.testBit n

def union (set other : BitSet) : BitSet := ⟨set.bits ||| other.bits⟩

def insert (set : BitSet) (n : Nat) : BitSet := set.union (singleton n)

def ofList (ns : List Nat) : BitSet := ns.foldl insert empty

def toList (set : BitSet) : List Nat :=
  go set.bits 0
where
  go (bits n : Nat) : List Nat :=
    if _h : bits = 0 then []
    else if bits % 2 = 1 then n :: go (bits / 2) (n + 1)
    else go (bits / 2) (n + 1)
  termination_by bits

@[simp] theorem contains_empty (n : Nat) : empty.contains n = false := by
  simp [empty, contains]

@[simp] theorem contains_union (set other : BitSet) (n : Nat) :
    (set.union other).contains n = (set.contains n || other.contains n) := by
  simp [union, contains]

@[simp] theorem contains_singleton (m n : Nat) :
    (singleton m).contains n = decide (m = n) := by
  simp [singleton, contains, Nat.one_shiftLeft, Nat.testBit_two_pow]

@[simp] theorem contains_insert (set : BitSet) (m n : Nat) :
    (set.insert m).contains n = (set.contains n || decide (m = n)) := by
  simp [insert]

end BitSet

end IncrementalGlr
