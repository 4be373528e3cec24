import Mathlib.Data.Finset.Prod
import IncrementalGlr.BitSet
import IncrementalGlr.Proofs.Fixpoint

/-!
# Members of bit sets
-/

namespace IncrementalGlr

namespace BitSet

variable {set other : BitSet} {n : Nat}

theorem ext_contains (h : ∀ n, set.contains n = other.contains n) : set = other := by
  cases set
  cases other
  exact congrArg BitSet.mk (Nat.eq_of_testBit_eq h)

theorem mem_go {bits start : Nat} :
    n ∈ toList.go bits start ↔ ∃ k, n = start + k ∧ bits.testBit k = true := by
  fun_induction toList.go bits start with
  | case1 start => simp
  | case2 bits start nonzero odd ih =>
    rw [List.mem_cons, ih, ← Nat.or_exists_add_one (p := fun k => n = start + k ∧ _)]
    simp [odd, Nat.testBit_succ, Nat.add_comm, Nat.add_left_comm]
  | case3 bits start nonzero even ih =>
    rw [ih, ← Nat.or_exists_add_one (p := fun k => n = start + k ∧ _)]
    simp [even, Nat.testBit_succ, Nat.add_comm, Nat.add_left_comm]

@[simp] theorem mem_toList : n ∈ set.toList ↔ set.contains n = true := by
  simp [toList, contains, mem_go]

theorem nodup_toList (set : BitSet) : set.toList.Nodup := by
  have distinct : ∀ bits start, (toList.go bits start).Nodup := by
    intro bits start
    fun_induction toList.go bits start with
    | case1 => exact List.nodup_nil
    | case2 bits start nonzero odd ih =>
      refine List.nodup_cons.2 ⟨fun member => ?_, ih⟩
      obtain ⟨k, later, _⟩ := mem_go.1 member
      omega
    | case3 bits start nonzero even ih => exact ih
  exact distinct set.bits 0

def Within (bound : Nat) (set : BitSet) : Prop := ∀ n, set.contains n = true → n < bound

theorem within_empty (bound : Nat) : Within bound empty := by simp [Within]

theorem within_singleton {bound : Nat} (h : n < bound) : Within bound (singleton n) := by
  intro m member
  simp only [contains_singleton, decide_eq_true_eq] at member
  omega

theorem Within.union {bound : Nat} (h : set.Within bound) (h' : other.Within bound) :
    (set.union other).Within bound := by
  intro n member
  rw [contains_union, Bool.or_eq_true] at member
  exact member.elim (h n) (h' n)

def below (bound : Nat) : Members BitSet Nat where
  valid set := set.Within bound
  mem set n := set.contains n
  all := Finset.range bound
  ext := by
    intro set other within within' same
    refine ext_contains fun n => ?_
    by_cases inside : n < bound
    · exact same n (Finset.mem_range.2 inside)
    · have no := mt (within n) inside
      have no' := mt (within' n) inside
      rw [Bool.not_eq_true] at no no'
      rw [no, no']

end BitSet

def BitSet.inArray (size bound : Nat) : Members (Array BitSet) (Nat × Nat) where
  valid sets := sets.size = size ∧ ∀ i, (sets.getD i BitSet.empty).Within bound
  mem sets place := (sets.getD place.1 BitSet.empty).contains place.2
  all := Finset.range size ×ˢ Finset.range bound
  ext := by
    rintro xs ys ⟨sizeX, withinX⟩ ⟨sizeY, withinY⟩ same
    apply Array.ext (sizeX.trans sizeY.symm)
    intro i inX inY
    have atX : xs.getD i BitSet.empty = xs[i] := by simp [Array.getD_eq_getD_getElem?, inX]
    have atY : ys.getD i BitSet.empty = ys[i] := by simp [Array.getD_eq_getD_getElem?, inY]
    refine (BitSet.below bound).ext (atX ▸ withinX i) (atY ▸ withinY i) fun n inside => ?_
    simpa [BitSet.below, atX, atY] using
      same (i, n) (Finset.mem_product.2 ⟨Finset.mem_range.2 (sizeX ▸ inX), inside⟩)

end IncrementalGlr
