import IncrementalGlr.Lexer.LongestMatch
import IncrementalGlr.Proofs.Lexical.Subsets
import IncrementalGlr.Proofs.Table.Lookups

/-!
# The deterministic automaton runs like the sets of states

A state of the deterministic automaton stands for a set of states. Its transitions are found by
bisection, and following them along a text is carrying the set along the text; where no transition
goes on, nothing is left of the set.
-/

namespace IncrementalGlr

namespace LexState

variable {state : LexState} {count : Nat}

theorem Whole.high_lt_low (whole : state.Whole count) {i j : Nat} {a b : LexTransition}
    (less : i < j) (hi : state.transitions[i]? = some a) (hj : state.transitions[j]? = some b) :
    a.high < b.low := by
  obtain ⟨insideI, rfl⟩ := Array.getElem?_eq_some_iff.1 hi
  obtain ⟨insideJ, rfl⟩ := Array.getElem?_eq_some_iff.1 hj
  have apart := List.pairwise_iff_getElem.1 whole.apart i j insideI insideJ less
  rwa [Array.getElem_toList, Array.getElem_toList] at apart

theorem Whole.ends_before (whole : state.Whole count) {c : Char} {i j : Nat} {a b : LexTransition}
    (le : i ≤ j) (hi : state.transitions[i]? = some a) (hj : state.transitions[j]? = some b)
    (below : b.high < c.val) : a.high < c.val := by
  rcases Nat.lt_or_eq_of_le le with less | rfl
  · have filled := whole.ranges b (Array.mem_of_getElem? hj)
    exact UInt32.lt_trans (UInt32.lt_of_lt_of_le (whole.high_lt_low less hi hj) filled) below
  · cases hi.symm.trans hj
    exact below

theorem Whole.next?_eq_some_iff (whole : state.Whole count) {c : Char} {target : UInt32} :
    state.next? c = some target ↔
      ∃ t ∈ state.transitions, t.low ≤ c.val ∧ c.val ≤ t.high ∧ t.target = target := by
  have place := @partitionPoint_spec _ state.transitions (fun t => t.high < c.val)
    fun i j a b le hi hj below =>
      decide_eq_true (whole.ends_before le hi hj (of_decide_eq_true below))
  rw [LexState.next?]
  constructor
  · intro h
    split at h
    · next t found =>
      split at h
      · next starts =>
        refine ⟨t, Array.mem_of_getElem? found, starts, ?_, Option.some.inj h⟩
        have not := mt (place found).1 (Nat.lt_irrefl _)
        rw [decide_eq_true_eq] at not
        exact UInt32.not_lt.1 not
      · contradiction
    · contradiction
  · rintro ⟨t, member, starts, ends, rfl⟩
    obtain ⟨i, found⟩ := Array.getElem?_of_mem member
    have beyond : partitionPoint state.transitions (fun t => t.high < c.val) ≤ i := by
      refine Nat.le_of_not_lt fun less => ?_
      exact UInt32.not_lt.2 ends (of_decide_eq_true ((place found).2 less))
    -- an earlier transition that does not end before the character would end before this one
    have same : partitionPoint state.transitions (fun t => t.high < c.val) = i := by
      refine Nat.le_antisymm beyond (Nat.le_of_not_lt fun less => ?_)
      have inside := Nat.lt_trans less (Array.getElem?_eq_some_iff.1 found).1
      have there := Array.getElem?_eq_getElem inside
      have short := UInt32.lt_of_lt_of_le (whole.high_lt_low less there found) starts
      exact Nat.lt_irrefl _ ((place there).1 (decide_eq_true short))
    rw [same, found]
    simp only [starts, if_true]

end LexState

namespace ClosedNfa

variable {nfa : Nfa} {closed : ClosedNfa} {sets : Array BitSet} {set : BitSet} {state : LexState}
  {c : Char} {target : UInt32} {count : Nat}

theorem Follows.next_some (h : closed.Follows set sets state) (whole : state.Whole count)
    (goes : state.next? c = some target) :
    sets[target.toNat]? = some (closed.step set c.toNat) := by
  obtain ⟨t, member, starts, ends, rfl⟩ := whole.next?_eq_some_iff.1 goes
  have leads : Leads state.transitions.toList.reverse c.toNat t.target.toNat :=
    ⟨t, by simpa using member, UInt32.le_iff_toNat_le.1 starts, UInt32.le_iff_toNat_le.1 ends, rfl⟩
  have valid := Char.toNat_le_lastCodePoint c
  exact (h.sound c.toNat (Nat.lt_succ_of_le valid) valid _ leads).2

theorem Follows.next_none (h : closed.Follows set sets state) (whole : state.Whole count)
    (stuck : state.next? c = none) : closed.step set c.toNat = BitSet.empty := by
  have valid := Char.toNat_le_lastCodePoint c
  have none : closed.targetsAt set c.toNat = [] := by
    by_contra some
    obtain ⟨_, t, member, starts, ends, _⟩ :=
      h.total c.toNat (Nat.lt_succ_of_le valid) valid some
    have goes := whole.next?_eq_some_iff.2 ⟨t, by simpa using member,
      UInt32.le_iff_toNat_le.2 starts, UInt32.le_iff_toNat_le.2 ends, rfl⟩
    exact nomatch stuck.symm.trans goes
  rw [step_eq, none]
  rfl

theorem foldl_step_empty (text : List Char) :
    text.foldl (fun set c => closed.step set c.toNat) BitSet.empty = BitSet.empty := by
  induction text with
  | nil => rfl
  | cons c text ih =>
    have none : closed.step BitSet.empty c.toNat = BitSet.empty := by
      rw [step_eq, targetsAt, moves, BitSet.toList, BitSet.toList.go]
      rfl
    rw [List.foldl_cons, none, ih]

theorem Exploring.foldlM_next {accepts : BitSet → List SymbolId} {states : Array LexState}
    (exploring : Exploring closed accepts sets states) (size : sets.size = states.size)
    (few : states.size ≤ UInt32.size) (text : List Char) {start : UInt32}
    (found : sets[start.toNat]? = some set) :
    match text.foldlM (fun (state : UInt32) c => (states.getD state.toNat default).next? c) start with
    | some last => sets[last.toNat]? = some (text.foldl (fun set c => closed.step set c.toNat) set)
    | none => text.foldl (fun set c => closed.step set c.toNat) set = BitSet.empty := by
  induction text generalizing start set with
  | nil => exact found
  | cons c text ih =>
    have inside : start.toNat < states.size := size ▸ (Array.getElem?_eq_some_iff.1 found).1
    obtain ⟨whole, own, there, _, follows⟩ :=
      exploring.states _ _ (Array.getElem?_eq_getElem inside)
    cases found.symm.trans there
    have follows := follows (size ▸ few)
    rw [List.foldlM_cons, List.foldl_cons, Array.getD_eq_getD_getElem?,
      Array.getElem?_eq_getElem inside, Option.getD_some]
    cases goes : states[start.toNat].next? c with
    | none =>
      rw [follows.next_none whole goes]
      exact foldl_step_empty text
    | some target => exact ih (follows.next_some whole goes)

end ClosedNfa

end IncrementalGlr
