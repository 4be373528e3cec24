import IncrementalGlr.Proofs.Lexical.Classes
import Mathlib.Order.Interval.Set.Basic

/-!
# What operations on sets denote

A set is put together from nothing, from single characters and from ranges between any two words, by
unions and complements. Whatever the steps are, the ranges that end before a code point are the
first ones of the list, so that bisection finds the range to look at, and the code point is in that
range exactly when it is in the union or complement that the steps ask for.
-/

namespace IncrementalGlr

namespace CharSet

/-- The ranges that end before `c` come before the ranges that do not. -/
def SplitsAt (set : CharSet) (c : Nat) : Prop :=
  set.ranges.Pairwise fun a b => b.2 < c → a.2 < c

theorem Ordered.splitsAt {set : CharSet} (h : set.Ordered) {c : Nat} (valid : c ≤ lastCodePoint) :
    set.SplitsAt c := by
  refine h.apart.imp_of_mem fun {a b} _ member apart ended => ?_
  have := h.filled b member
  omega

inductive Construction where
  | empty
  | single (c : Char)
  | range (low high : UInt32)
  | addChar (set : Construction) (c : Char)
  | addRange (set : Construction) (low high : UInt32)
  | addSet (set other : Construction)
  | negated (set : Construction)

namespace Construction

def build : Construction → CharSet
  | empty => CharSet.empty
  | single c => CharSet.single c
  | range low high => CharSet.range low.toNat high.toNat
  | addChar set c => set.build.addChar c
  | addRange set low high => set.build.addRange low.toNat high.toNat
  | addSet set other => set.build.addSet other.build
  | negated set => set.build.negated

def span (low high : UInt32) : Set Nat :=
  Set.Icc low.toNat high.toNat ∩ Set.Iic lastCodePoint

def members : Construction → Set Nat
  | empty => ∅
  | single c => {c.toNat}
  | range low high => span low high
  | addChar set c => set.members ∪ {c.toNat}
  | addRange set low high => set.members ∪ span low high
  | addSet set other => set.members ∪ other.members
  | negated set => Set.Iic lastCodePoint \ set.members

variable {c : Nat}

theorem made_build (steps : Construction) : steps.build.Made := by
  induction steps with
  | empty => exact .empty
  | single c => exact .single c
  | range low high => exact made_range low.toNat_lt high.toNat
  | addChar set c made => exact .addRange made c.val.toNat_lt _
  | addRange set low high made => exact .addRange made low.toNat_lt _
  | addSet set other made made' => exact .addSet made made'
  | negated set made => exact .negated made

theorem mem_span {low high : UInt32} (valid : c ≤ lastCodePoint) :
    c ∈ span low high ↔ low.toNat ≤ c ∧ c ≤ high.toNat := by
  simp [span, valid]

theorem has_build (steps : Construction) (valid : c ≤ lastCodePoint) :
    steps.build.Has c ↔ c ∈ steps.members := by
  induction steps with
  | empty => simp [build, members, has_empty]
  | single a => simp [build, members, Has, CharSet.single, Nat.le_antisymm_iff, and_comm]
  | range low high =>
    rw [build, members, CharSet.range, has_addRange valid, mem_span valid]
    simp [has_empty]
  | addChar set a ih =>
    rw [build, members, CharSet.addChar, has_addRange valid, ih, Set.mem_union,
      Set.mem_singleton_iff, Nat.le_antisymm_iff, and_comm]
  | addRange set low high ih =>
    rw [build, members, has_addRange valid, ih, Set.mem_union, mem_span valid]
  | addSet set other ih ih' => rw [build, members, has_addSet, ih, ih', Set.mem_union]
  | negated set ih =>
    rw [build, members, set.made_build.ordered.has_negated valid, ih]
    simp [valid]

theorem contains_build (steps : Construction) (valid : c ≤ lastCodePoint) :
    steps.build.contains c = true ↔ c ∈ steps.members := by
  rw [steps.made_build.ordered.contains_iff valid, steps.has_build valid]

/-- Membership is what the steps ask for, and a complement of a complement has the members of the
set it was made of. All bounds and their successors are words. -/
theorem contains_exactly (steps : Construction) (valid : c ≤ lastCodePoint) :
    steps.build.Fits ∧ steps.build.SplitsAt c ∧
      (steps.build.contains c = true ↔ c ∈ steps.members) ∧
      steps.build.negated.negated.contains c = steps.build.contains c := by
  refine ⟨steps.made_build.fits, steps.made_build.ordered.splitsAt valid, steps.contains_build valid,
    ?_⟩
  have twice := contains_build (.negated (.negated steps)) valid
  rw [Bool.eq_iff_iff, steps.contains_build valid]
  simpa [members, build, valid] using twice

def farRange : Construction :=
  .negated (.negated (.addSet (.addRange (.single 'a') 0x10FFFE 0xFFFFFFFF)
    (.addRange (.range 0x200000 0xFFFFFFFF) 0x61 0x63)))

theorem contains_exactly_farRange :
    0x10FFFF ≤ lastCodePoint ∧ farRange.build.Fits ∧ farRange.build.SplitsAt 0x10FFFF ∧
      (farRange.build.contains 0x10FFFF = true ↔ 0x10FFFF ∈ farRange.members) ∧
      farRange.build.negated.negated.contains 0x10FFFF = farRange.build.contains 0x10FFFF :=
  ⟨by decide, contains_exactly farRange (by decide)⟩

end Construction

end CharSet

end IncrementalGlr
