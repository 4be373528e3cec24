import Mathlib.Data.Finset.Card
import IncrementalGlr.Lexical.Automaton
import IncrementalGlr.Proofs.BitSet
import IncrementalGlr.Proofs.Interning
import IncrementalGlr.Proofs.Lexical.Ranges

/-!
# The lexical automaton is complete

A set of states is a number below a power of two, so the exploration reaches its end: every
transition leads to a state of the automaton. The transitions of a state are in order and apart, and
it accepts terminals that the nondeterministic automaton was made for.
-/

namespace IncrementalGlr

/-! ## Nondeterministic automata -/

/-- The state reads a set that operations make, or accepts one of the terminals. -/
def NfaState.Fits (terminals : Nat) : NfaState → Prop
  | advance chars _ => chars.Made
  | split _ => True
  | accept terminal => terminal < terminals

theorem NfaState.fits_split {terminals : Nat} (targets : List Nat) :
    (split targets).Fits terminals := trivial

namespace Nfa

variable {terminals : Nat} {nfa : Nfa}

def Fits (terminals : Nat) (nfa : Nfa) : Prop := ∀ state ∈ nfa.states, state.Fits terminals

theorem fits_empty : empty.Fits terminals := by simp [Fits, empty]

theorem Fits.push (h : nfa.Fits terminals) {state : NfaState} (new : state.Fits terminals) :
    (nfa.push state).2.Fits terminals := by
  intro other member
  rcases Array.mem_push.1 member with member | rfl
  · exact h other member
  · exact new

theorem Fits.pushTimes {piece : Nat → Nfa → Nat × Nfa}
    (keeps : ∀ next nfa, nfa.Fits terminals → (piece next nfa).2.Fits terminals)
    (h : nfa.Fits terminals) (count next : Nat) :
    (pushTimes piece count next nfa).2.Fits terminals := by
  induction count generalizing next nfa with
  | zero => exact h
  | succ count ih => exact ih (keeps next nfa h) _

theorem Fits.pushOptional {piece : Nat → Nfa → Nat × Nfa} {next : Nat}
    (keeps : ∀ next nfa, nfa.Fits terminals → (piece next nfa).2.Fits terminals)
    (h : nfa.Fits terminals) (count entry : Nat) :
    (pushOptional piece next count entry nfa).2.Fits terminals := by
  induction count generalizing entry nfa with
  | zero => exact h
  | succ count ih =>
    exact ih ((keeps entry nfa h).push (NfaState.fits_split _)) _

theorem Fits.setIfInBounds (h : nfa.Fits terminals) (place : Nat) {state : NfaState}
    (new : state.Fits terminals) : Fits terminals ⟨nfa.states.setIfInBounds place state⟩ := by
  intro other member
  rcases Array.mem_or_eq_of_mem_setIfInBounds member with member | rfl
  · exact h other member
  · exact new

mutual

theorem fits_addRegex (regex : Regex) {nfa : Nfa} (made : regex.Made) (h : nfa.Fits terminals)
    (next : Nat) : (addRegex regex next nfa).2.Fits terminals := by
  match regex with
  | .empty => exact h
  | .set chars =>
    cases made with
    | set made => exact h.push made
  | .seq items =>
    cases made with
    | seq made => exact fits_addSeq items made h next
  | .alt alternatives =>
    cases made with
    | alt made => exact (fits_addAlternatives alternatives made h next).push (NfaState.fits_split _)
  | .repetition inner low none =>
    cases made with
    | repetition made =>
      have keeps := fun next nfa (h : Fits terminals nfa) => fits_addRegex inner made h next
      have body := keeps nfa.states.size _ (h.push (NfaState.fits_split []))
      exact (body.setIfInBounds _ (NfaState.fits_split _)).pushTimes keeps low _
  | .repetition inner low (some high) =>
    cases made with
    | repetition made =>
      have keeps := fun next nfa (h : Fits terminals nfa) => fits_addRegex inner made h next
      exact (h.pushOptional keeps (high - low) next).pushTimes keeps low _

theorem fits_addSeq (items : List Regex) {nfa : Nfa} (made : ∀ item ∈ items, item.Made)
    (h : nfa.Fits terminals) (next : Nat) : (addSeq items next nfa).2.Fits terminals := by
  match items with
  | [] => exact h
  | item :: rest =>
    rw [List.forall_mem_cons] at made
    exact fits_addRegex item made.1 (fits_addSeq rest made.2 h next) _

theorem fits_addAlternatives (alternatives : List Regex) {nfa : Nfa}
    (made : ∀ alternative ∈ alternatives, alternative.Made) (h : nfa.Fits terminals)
    (next : Nat) : (addAlternatives alternatives next nfa).2.Fits terminals := by
  match alternatives with
  | [] => exact h
  | alternative :: rest =>
    rw [List.forall_mem_cons] at made
    exact fits_addAlternatives rest made.2 (fits_addRegex alternative made.1 h next) next

end

theorem within_getD {sets : Array BitSet} {bound : Nat} (h : ∀ set ∈ sets, set.Within bound)
    (i : Nat) : (sets.getD i BitSet.empty).Within bound := by
  rw [Array.getD_eq_getD_getElem?]
  cases found : sets[i]? with
  | none => exact BitSet.within_empty bound
  | some set => exact h set (Array.mem_of_getElem? found)

theorem within_foldl_union {sets : Array BitSet} {bound : Nat}
    (h : ∀ set ∈ sets, set.Within bound) (ids : List Nat) {set : BitSet}
    (start : set.Within bound) :
    (ids.foldl (fun (set : BitSet) id => set.union (sets.getD id BitSet.empty)) set).Within
      bound := by
  induction ids generalizing set with
  | nil => exact start
  | cons id ids ih => exact ih (start.union (within_getD h id))

theorem within_reachable (nfa : Nfa) : ∀ set ∈ nfa.reachable, set.Within nfa.states.size := by
  have grows : ∀ sets : Array BitSet, (∀ set ∈ sets, set.Within nfa.states.size) →
      ∀ set ∈ nfa.extendReachable sets, set.Within nfa.states.size := by
    intro sets known
    rw [extendReachable]
    generalize List.range nfa.states.size = ids
    induction ids generalizing sets with
    | nil => exact known
    | cons id ids ih =>
      refine ih _ fun set member => ?_
      rcases Array.mem_or_eq_of_mem_setIfInBounds member with member | rfl
      · exact known set member
      · exact within_foldl_union known _ (within_getD known id)
  refine stabilize_keeps grows fun set member => ?_
  obtain ⟨id, rfl⟩ := Array.mem_ofFn.1 member
  exact BitSet.within_singleton id.isLt

end Nfa

/-! ## Sorted lists -/

theorem mem_of_mem_dedupSorted {α : Type} [BEq α] {xs : List α} {x : α}
    (h : x ∈ dedupSorted xs) : x ∈ xs := by
  fun_induction dedupSorted xs with
  | case1 => exact h
  | case2 => exact h
  | case3 y z rest same ih => exact List.mem_cons_of_mem _ (ih h)
  | case4 y z rest other ih =>
    rcases List.mem_cons.1 h with rfl | h
    · exact List.mem_cons_self ..
    · exact List.mem_cons_of_mem _ (ih h)

theorem mem_dedupSorted {α : Type} [BEq α] [LawfulBEq α] {xs : List α} {x : α} :
    x ∈ dedupSorted xs ↔ x ∈ xs := by
  refine ⟨mem_of_mem_dedupSorted, fun h => ?_⟩
  fun_induction dedupSorted xs with
  | case1 => exact h
  | case2 => exact h
  | case3 y z rest same ih =>
    rw [List.mem_cons, eq_of_beq same] at h
    exact ih (h.elim (fun same => same ▸ List.mem_cons_self ..) id)
  | case4 y z rest other ih =>
    rw [List.mem_cons] at h ⊢
    exact h.imp_right ih

theorem pairwise_dedupSorted {α : Type} [BEq α] [LawfulBEq α] {rank : α → Nat} {xs : List α}
    (apart : ∀ x ∈ xs, ∀ y ∈ xs, rank x = rank y → x = y)
    (sorted : xs.Pairwise fun x y => rank x ≤ rank y) :
    (dedupSorted xs).Pairwise fun x y => rank x < rank y := by
  fun_induction dedupSorted xs with
  | case1 => exact .nil
  | case2 x => exact List.pairwise_singleton ..
  | case3 x y rest same ih =>
    exact ih (fun a inside b inside' => apart a (List.mem_cons_of_mem _ inside) b
      (List.mem_cons_of_mem _ inside')) (List.pairwise_cons.1 sorted).2
  | case4 x y rest other ih =>
    have later := fun a inside b inside' => apart a (List.mem_cons_of_mem _ inside) b
      (List.mem_cons_of_mem _ inside')
    rw [List.pairwise_cons] at sorted
    refine List.pairwise_cons.2 ⟨fun z member => ?_, ih later sorted.2⟩
    have next : y ∈ y :: rest := List.mem_cons_self ..
    have first : rank x < rank y := Nat.lt_of_le_of_ne (sorted.1 y next) fun same =>
      other (beq_iff_eq.2 (apart x (List.mem_cons_self ..) y (List.mem_cons_of_mem _ next) same))
    rcases List.mem_cons.1 (mem_of_mem_dedupSorted member) with rfl | member
    · exact first
    · exact Nat.lt_of_lt_of_le first ((List.pairwise_cons.1 sorted.2).1 z member)

theorem pairwise_mergeSort_le {α : Type} (rank : α → Nat) (xs : List α) :
    (xs.mergeSort fun a b => rank a ≤ rank b).Pairwise fun a b => rank a ≤ rank b := by
  have sorted : (xs.mergeSort fun a b => decide (rank a ≤ rank b)).Pairwise
      fun a b => decide (rank a ≤ rank b) = true := by
    refine List.pairwise_mergeSort (fun a b c first second => ?_) (fun a b => ?_) xs
    · simp only [decide_eq_true_eq] at *
      exact Nat.le_trans first second
    · simp only [Bool.or_eq_true, decide_eq_true_eq]
      exact Nat.le_total _ _
  simpa only [decide_eq_true_eq] using sorted

theorem ascending_cutPoints (moves : List (CharSet × Nat)) :
    (cutPoints moves).Pairwise (· < ·) :=
  pairwise_dedupSorted (fun _ _ _ _ same => same) (pairwise_mergeSort_le id _)

theorem cutPoints_lt {moves : List (CharSet × Nat)} (fits : ∀ move ∈ moves, move.1.Fits) :
    ∀ point ∈ cutPoints moves, point < UInt32.size := by
  intro point member
  have member := List.mem_mergeSort.1 (mem_of_mem_dedupSorted member)
  obtain ⟨move, listed, member⟩ := List.mem_flatMap.1 member
  obtain ⟨range, inside, member⟩ := List.mem_flatMap.1 member
  obtain ⟨low, high⟩ := fits move listed range inside
  simp only [List.mem_cons, List.not_mem_nil, or_false] at member
  rcases member with rfl | rfl
  · exact low
  · exact high

theorem mem_cutPoints {moves : List (CharSet × Nat)} {point : Nat} : point ∈ cutPoints moves ↔
    ∃ move ∈ moves, ∃ range ∈ move.1.ranges, point = range.1 ∨ point = range.2 + 1 := by
  simp [cutPoints, mem_dedupSorted, List.mem_flatMap]

theorem CharSet.Ordered.contains_eq {moves : List (CharSet × Nat)} {move : CharSet × Nat}
    (h : move.1.Ordered) (listed : move ∈ moves) {low c : Nat}
    (between : ∀ point ∈ cutPoints moves, point ≤ low ∨ c < point) (le : low ≤ c)
    (valid : c ≤ lastCodePoint) : move.1.contains c = move.1.contains low := by
  rw [Bool.eq_iff_iff, h.contains_iff valid, h.contains_iff (Nat.le_trans le valid)]
  refine exists_congr fun range => and_congr_right fun member => ?_
  have starts := between range.1 (mem_cutPoints.2 ⟨move, listed, range, member, .inl rfl⟩)
  have ends := between (range.2 + 1) (mem_cutPoints.2 ⟨move, listed, range, member, .inr rfl⟩)
  omega

/-! ## Transitions -/

/-- One of the transitions leads to the state number on the code point. -/
def Leads (transitions : List LexTransition) (c target : Nat) : Prop :=
  ∃ transition ∈ transitions, transition.low.toNat ≤ c ∧ c ≤ transition.high.toNat ∧
    transition.target.toNat = target

/-- The transitions, the last of them first, have ranges in order and apart that end before `bound`,
and lead to the first `count` states. -/
structure Listed (transitions : List LexTransition) (bound count : Nat) : Prop where
  ranges : ∀ transition ∈ transitions, transition.low ≤ transition.high
  apart : transitions.Pairwise fun later earlier => earlier.high < later.low
  before : ∀ transition ∈ transitions, transition.high.toNat < bound
  targets : ∀ transition ∈ transitions, transition.target.toNat < count

variable {transitions : List LexTransition} {bound count : Nat}

theorem Listed.mono (h : Listed transitions bound count) {bound' count' : Nat}
    (later : bound ≤ bound') (more : count ≤ count') : Listed transitions bound' count' where
  ranges := h.ranges
  apart := h.apart
  before transition member := Nat.lt_of_lt_of_le (h.before transition member) later
  targets transition member := Nat.lt_of_lt_of_le (h.targets transition member) more

theorem Listed.push {low high target : Nat} (h : Listed transitions low count)
    (range : low ≤ high) (small : high < UInt32.size) (inside : target < count) :
    Listed (pushTransition transitions low high target) (high + 1) count := by
  have lowest : (UInt32.ofNat low).toNat = low := UInt32.toNat_ofNat_of_lt' (by omega)
  have highest : (UInt32.ofNat high).toNat = high := UInt32.toNat_ofNat_of_lt' small
  have leads : (UInt32.ofNat target).toNat < count :=
    Nat.lt_of_le_of_lt (UInt32.toNat_ofNat ▸ Nat.mod_le ..) inside
  have ordered : UInt32.ofNat low ≤ UInt32.ofNat high := by
    rw [UInt32.le_iff_toNat_le, lowest, highest]
    exact range
  have behind : ∀ transition ∈ transitions, transition.high < UInt32.ofNat low := by
    intro transition member
    rw [UInt32.lt_iff_toNat_lt, lowest]
    exact h.before transition member
  have mono := h.mono (Nat.le_succ_of_le range) (Nat.le_refl count)
  have next : Listed (⟨UInt32.ofNat low, UInt32.ofNat high, UInt32.ofNat target⟩ :: transitions)
      (high + 1) count :=
    ⟨List.forall_mem_cons.2 ⟨ordered, mono.ranges⟩, List.pairwise_cons.2 ⟨behind, mono.apart⟩,
      List.forall_mem_cons.2 ⟨by simp only [highest]; omega, mono.before⟩,
      List.forall_mem_cons.2 ⟨leads, mono.targets⟩⟩
  unfold pushTransition
  dsimp only
  split
  · exact next
  · next last rest =>
    split
    -- the last transition goes on
    · have longer : last.low ≤ UInt32.ofNat high := by
        have := behind last (List.mem_cons_self ..)
        exact UInt32.le_trans (UInt32.le_of_lt (UInt32.lt_of_le_of_lt
          (h.ranges last (List.mem_cons_self ..)) this)) ordered
      exact ⟨List.forall_mem_cons.2 ⟨longer, (List.forall_mem_cons.1 mono.ranges).2⟩,
        List.pairwise_cons.2 (List.pairwise_cons.1 mono.apart),
        List.forall_mem_cons.2
          ⟨by simp only [highest]; omega, (List.forall_mem_cons.1 mono.before).2⟩,
        List.forall_mem_cons.2 (List.forall_mem_cons.1 mono.targets)⟩
    · exact next

theorem Listed.lt_of_leads (h : Listed transitions bound count) {c target : Nat}
    (leads : Leads transitions c target) : c < bound := by
  obtain ⟨transition, member, _, le, _⟩ := leads
  exact Nat.lt_of_le_of_lt le (h.before transition member)

theorem Listed.leads_push {low high target : Nat} (h : Listed transitions low count)
    (range : low ≤ high) (small : high < UInt32.size) (few : target < UInt32.size) {c number : Nat} :
    Leads (pushTransition transitions low high target) c number ↔
      Leads transitions c number ∨ low ≤ c ∧ c ≤ high ∧ target = number := by
  have lowest : (UInt32.ofNat low).toNat = low := UInt32.toNat_ofNat_of_lt' (by omega)
  have highest : (UInt32.ofNat high).toNat = high := UInt32.toNat_ofNat_of_lt' small
  have goal : (UInt32.ofNat target).toNat = target := UInt32.toNat_ofNat_of_lt' few
  have next : Leads (⟨UInt32.ofNat low, UInt32.ofNat high, UInt32.ofNat target⟩ :: transitions) c number
      ↔ Leads transitions c number ∨ low ≤ c ∧ c ≤ high ∧ target = number := by
    simp only [Leads, List.mem_cons, exists_eq_or_imp, lowest, highest, goal]
    exact or_comm
  unfold pushTransition
  dsimp only
  split
  · exact next
  · next last rest =>
    split
    · next goesOn =>
      rw [Bool.and_eq_true, beq_iff_eq, beq_iff_eq] at goesOn
      have ordered := UInt32.le_iff_toNat_le.1 (h.ranges last (List.mem_cons_self ..))
      simp only [Leads, List.mem_cons, exists_eq_or_imp, highest, goesOn.1]
      -- the two ranges touch
      have joined : last.low.toNat ≤ c ∧ c ≤ high ∧ target = number ↔
          (last.low.toNat ≤ c ∧ c ≤ last.high.toNat ∧ target = number) ∨
            low ≤ c ∧ c ≤ high ∧ target = number := by
        omega
      rw [joined, or_right_comm]
    · exact next

structure DistinctSets (size : Nat) (sets : Array BitSet) : Prop where
  nodup : sets.toList.Nodup
  within : ∀ set ∈ sets, set.Within size

theorem DistinctSets.size_le {size : Nat} {sets : Array BitSet} (h : DistinctSets size sets) :
    sets.size ≤ 1 <<< size := by
  have distinct : (sets.toList.map BitSet.bits).Nodup :=
    h.nodup.map_on fun a _ b _ same => congrArg BitSet.mk same
  have small : (sets.toList.map BitSet.bits).toFinset ⊆ Finset.range (1 <<< size) := by
    intro bits member
    obtain ⟨set, inside, rfl⟩ := List.mem_map.1 (List.mem_toFinset.1 member)
    rw [Finset.mem_range, Nat.one_shiftLeft]
    refine Nat.lt_pow_two_of_testBit _ fun i beyond => ?_
    have within := h.within set (Array.mem_toList_iff.1 inside) i
    rw [← Bool.not_eq_true]
    exact fun member => absurd (within member) (Nat.not_lt.2 beyond)
  calc sets.size = (sets.toList.map BitSet.bits).toFinset.card := by
        rw [List.toFinset_card_of_nodup distinct, List.length_map, Array.length_toList]
    _ ≤ (Finset.range (1 <<< size)).card := Finset.card_le_card small
    _ = 1 <<< size := Finset.card_range _

theorem interned_numberOf (sets : Array BitSet) (set : BitSet) :
    Interned sets set (numberOf sets set) :=
  interned_findIdx? sets set

theorem DistinctSets.numberOf {size : Nat} {sets : Array BitSet} {set : BitSet}
    (h : DistinctSets size sets) (within : set.Within size) :
    DistinctSets size (numberOf sets set).2 := by
  have interned := interned_numberOf sets set
  refine ⟨interned.nodup h.nodup, fun other member => ?_⟩
  rcases interned.mem other member with member | rfl
  · exact h.within other member
  · exact within

structure LexState.Whole (state : LexState) (count : Nat) : Prop where
  ranges : ∀ transition ∈ state.transitions, transition.low ≤ transition.high
  apart : state.transitions.toList.Pairwise fun a b => a.high < b.low
  targets : ∀ transition ∈ state.transitions, transition.target.toNat < count

namespace ClosedNfa

variable {closed : ClosedNfa} {terminals : Nat} {sets : Array BitSet} {set : BitSet}

structure Fits (closed : ClosedNfa) (terminals : Nat) : Prop where
  states : closed.nfa.Fits terminals
  within : ∀ set ∈ closed.reachable, set.Within closed.nfa.states.size

theorem fits_ofNfa {nfa : Nfa} (h : nfa.Fits terminals) : (ofNfa nfa).Fits terminals :=
  ⟨h, nfa.within_reachable⟩

theorem Fits.closure (h : closed.Fits terminals) (states : List Nat) :
    (closed.closure states).Within closed.nfa.states.size :=
  Nfa.within_foldl_union h.within states (BitSet.within_empty _)

theorem Fits.state (h : closed.Fits terminals) {id : Nat} :
    (closed.nfa.state id).Fits terminals := by
  rw [Nfa.state, Array.getD_eq_getD_getElem?]
  cases found : closed.nfa.states[id]? with
  | none => exact CharSet.Made.empty
  | some state => exact h.states state (Array.mem_of_getElem? found)

theorem Fits.moves (h : closed.Fits terminals) (set : BitSet) :
    ∀ move ∈ closed.moves set, move.1.Made := by
  intro move member
  obtain ⟨id, _, found⟩ := List.mem_filterMap.1 member
  have fits : (closed.nfa.state id).Fits terminals := h.state
  split at found
  · next state =>
    cases found
    rw [state] at fits
    exact fits
  · contradiction

theorem Fits.accepted (h : closed.Fits terminals) (set : BitSet) :
    ∀ terminal ∈ closed.accepted set, terminal < terminals := by
  intro terminal member
  obtain ⟨id, _, found⟩ := List.mem_filterMap.1 member
  have fits : (closed.nfa.state id).Fits terminals := h.state
  split at found
  · next state =>
    cases found
    rw [state] at fits
    exact fits
  · contradiction

def targetsAt (closed : ClosedNfa) (set : BitSet) (c : Nat) : List Nat :=
  ((closed.moves set).filter fun move => move.1.contains c).map (·.2)

theorem step_eq (closed : ClosedNfa) (set : BitSet) (c : Nat) :
    closed.step set c = closed.closure (closed.targetsAt set c) := rfl

theorem Fits.targetsAt_eq (h : closed.Fits terminals) {low c : Nat}
    (between : ∀ point ∈ cutPoints (closed.moves set), point ≤ low ∨ c < point) (le : low ≤ c)
    (valid : c ≤ lastCodePoint) : closed.targetsAt set c = closed.targetsAt set low := by
  refine congrArg (List.map Prod.snd) (List.filter_congr fun move listed => ?_)
  exact (h.moves set move listed).ordered.contains_eq listed between le valid

theorem Fits.targetsAt_outside (h : closed.Fits terminals) {c : Nat}
    (outside : (∀ point ∈ cutPoints (closed.moves set), c < point) ∨
      ∀ point ∈ cutPoints (closed.moves set), point ≤ c)
    (valid : c ≤ lastCodePoint) : closed.targetsAt set c = [] := by
  rw [targetsAt, List.map_eq_nil_iff, List.filter_eq_nil_iff]
  intro move listed contains
  obtain ⟨range, member, starts, ends⟩ :=
    ((h.moves set move listed).ordered.contains_iff valid).1 contains
  have first := mem_cutPoints.2 ⟨move, listed, range, member, .inl rfl⟩
  have behind := mem_cutPoints.2 ⟨move, listed, range, member, .inr rfl⟩
  rcases outside with outside | outside
  · exact absurd (outside _ first) (Nat.not_lt.2 starts)
  · exact absurd (outside _ behind) (Nat.not_le.2 (Nat.lt_succ_of_le ends))

structure Exact (closed : ClosedNfa) (set : BitSet) (sets : Array BitSet) (bound : Nat)
    (transitions : List LexTransition) : Prop where
  sound : ∀ c < bound, c ≤ lastCodePoint → ∀ target, Leads transitions c target →
    closed.targetsAt set c ≠ [] ∧ sets[target]? = some (closed.step set c)
  total : ∀ c < bound, c ≤ lastCodePoint → closed.targetsAt set c ≠ [] →
    ∃ target, Leads transitions c target

theorem Exact.mono {more : Array BitSet} {bound : Nat} {transitions : List LexTransition}
    (h : Exact closed set sets bound transitions)
    (kept : ∀ (i : Nat) (other : BitSet), sets[i]? = some other → more[i]? = some other) :
    Exact closed set more bound transitions where
  sound c below valid target leads := (h.sound c below valid target leads).imp_right (kept _ _)
  total := h.total

def addWindow (closed : ClosedNfa) (set : BitSet) (found : List LexTransition × Array BitSet)
    (window : Nat × Nat) : List LexTransition × Array BitSet :=
  if (closed.targetsAt set window.1).isEmpty then found
  else
    let numbered := numberOf found.2 (closed.step set window.1)
    (pushTransition found.1 window.1 (window.2 - 1) numbered.1, numbered.2)

/-- What was found of the transitions of a set, up to the cut point `bound`. Numbers of sets are
stored exactly as long as there are not too many. -/
structure Found (closed : ClosedNfa) (sets : Array BitSet) (set : BitSet) (bound : Nat)
    (found : List LexTransition × Array BitSet) : Prop where
  distinct : DistinctSets closed.nfa.states.size found.2
  kept : ∀ (i : Nat) (other : BitSet), sets[i]? = some other → found.2[i]? = some other
  listed : Listed found.1 bound found.2.size
  exact : found.2.size ≤ UInt32.size → Exact closed set found.2 bound found.1

def Uniform (closed : ClosedNfa) (set : BitSet) (first point : Nat) : Prop :=
  ∀ c, first ≤ c → c < point → c ≤ lastCodePoint →
    closed.targetsAt set c = closed.targetsAt set first

theorem Exact.skip {first point bound : Nat} {transitions : List LexTransition}
    (h : Exact closed set sets first transitions) (listed : Listed transitions first bound)
    (uniform : closed.Uniform set first point) (none : closed.targetsAt set first = []) :
    Exact closed set sets point transitions where
  sound c _ valid target leads := h.sound c (listed.lt_of_leads leads) valid target leads
  total c below valid some := by
    refine h.total c (Nat.lt_of_not_le fun le => some ?_) valid some
    rw [uniform c le below valid, none]

theorem Exact.push {first point bound number : Nat} {transitions longer : List LexTransition}
    (h : Exact closed set sets first transitions) (listed : Listed transitions first bound)
    (uniform : closed.Uniform set first point) (some : closed.targetsAt set first ≠ [])
    (numbered : sets[number]? = .some (closed.step set first))
    (leads : ∀ c target, Leads longer c target ↔
      Leads transitions c target ∨ first ≤ c ∧ c < point ∧ number = target) :
    Exact closed set sets point longer := by
  constructor
  · intro c below valid target covered
    rcases (leads c target).1 covered with covered | ⟨le, _, rfl⟩
    · exact h.sound c (listed.lt_of_leads covered) valid target covered
    · rw [step_eq, uniform c le below valid]
      exact ⟨some, numbered⟩
  · intro c below valid targets
    by_cases le : first ≤ c
    · exact ⟨number, (leads c number).2 (.inr ⟨le, below, rfl⟩)⟩
    · obtain ⟨target, covered⟩ := h.total c (Nat.lt_of_not_le le) valid targets
      exact ⟨target, (leads c target).2 (.inl covered)⟩

theorem Found.addWindow (h : closed.Fits terminals) {found : List LexTransition × Array BitSet}
    {first point : Nat} (before : Found closed sets set first found) (below : first < point)
    (small : point < UInt32.size) (uniform : closed.Uniform set first point) :
    Found closed sets set point (closed.addWindow set found (first, point)) := by
  unfold ClosedNfa.addWindow
  dsimp only
  split
  · next none =>
    have none := List.isEmpty_iff.1 none
    exact ⟨before.distinct, before.kept, before.listed.mono (Nat.le_of_lt below) (Nat.le_refl _),
      fun few => (before.exact few).skip before.listed uniform none⟩
  · next some =>
    have some := mt List.isEmpty_iff.2 some
    have interned := interned_numberOf found.2 (closed.step set first)
    have listed := before.listed.mono (Nat.le_refl _) interned.size_le
    have range := Nat.le_sub_one_of_lt below
    have least := Nat.lt_of_le_of_lt (Nat.sub_le point 1) small
    refine ⟨before.distinct.numberOf (h.closure _),
      fun i other there => interned.kept i other (before.kept i other there), ?_, fun few => ?_⟩
    · have pushed := listed.push range least interned.lt_size
      rwa [Nat.sub_add_cancel (by omega)] at pushed
    · have known := (before.exact (Nat.le_trans interned.size_le few)).mono interned.kept
      refine known.push listed uniform some interned.here fun c target => ?_
      rw [listed.leads_push range least (Nat.lt_of_lt_of_le interned.lt_size few),
        Nat.le_sub_one_iff_lt (by omega)]

theorem Found.foldl (h : closed.Fits terminals) {found : List LexTransition × Array BitSet}
    {first : Nat} {points : List Nat} (before : Found closed sets set first found)
    (ascending : (first :: points).Pairwise (· < ·))
    (small : ∀ point ∈ first :: points, point < UInt32.size)
    (all : ∀ point ∈ cutPoints (closed.moves set), point ≤ first ∨ point ∈ points) :
    ∃ bound, (∀ point ∈ cutPoints (closed.moves set), point ≤ bound) ∧
      Found closed sets set bound
        (((first :: points).zip points).foldl (closed.addWindow set) found) := by
  induction points generalizing first found with
  | nil => exact ⟨first, fun point member => (all point member).resolve_right List.not_mem_nil, before⟩
  | cons point points ih =>
    rw [List.pairwise_cons] at ascending
    rw [List.forall_mem_cons] at small
    have below := ascending.1 point (List.mem_cons_self ..)
    have behind : ∀ other ∈ points, point < other := (List.pairwise_cons.1 ascending.2).1
    have later (other : Nat) (member : other ∈ cutPoints (closed.moves set)) :
        other ≤ first ∨ other = point ∨ other ∈ points :=
      (all other member).imp_right List.mem_cons.1
    have uniform : closed.Uniform set first point := by
      intro c le less valid
      refine h.targetsAt_eq (fun other member => (later other member).imp_right ?_) le valid
      rintro (rfl | member)
      · exact less
      · exact Nat.lt_trans less (behind other member)
    refine ih (before.addWindow h below (small.2 point (List.mem_cons_self ..)) uniform)
      ascending.2 small.2 fun other member => ?_
    rcases later other member with le | rfl | member
    · exact .inl (Nat.le_of_lt (Nat.lt_of_le_of_lt le below))
    · exact .inl (Nat.le_refl _)
    · exact .inr member

theorem Fits.transitions_spec (h : closed.Fits terminals)
    (distinct : DistinctSets closed.nfa.states.size sets) (set : BitSet) :
    ∃ bound, (∀ point ∈ cutPoints (closed.moves set), point ≤ bound) ∧
      Found closed sets set bound
        ((closed.transitions sets set).1.toList.reverse, (closed.transitions sets set).2) := by
  have start : ∀ bound, (∀ point ∈ cutPoints (closed.moves set), bound ≤ point) →
      Found closed sets set bound ([], sets) := by
    refine fun bound least =>
      ⟨distinct, fun _ _ there => there, ⟨by simp, .nil, by simp, by simp⟩, fun _ => ⟨?_, ?_⟩⟩
    · simp [Leads]
    · intro c below valid some
      refine absurd (h.targetsAt_outside (.inl fun point member => ?_) valid) some
      exact Nat.lt_of_lt_of_le below (least point member)
  have whole : ∃ bound, (∀ point ∈ cutPoints (closed.moves set), point ≤ bound) ∧
      Found closed sets set bound
        (((cutPoints (closed.moves set)).zip (cutPoints (closed.moves set)).tail).foldl
          (closed.addWindow set) ([], sets)) := by
    have ascending := ascending_cutPoints (closed.moves set)
    have small := cutPoints_lt fun move member => (h.moves set move member).fits
    cases points : cutPoints (closed.moves set) with
    | nil => exact ⟨0, by simp, start 0 (by simp [points])⟩
    | cons first rest =>
      have all : ∀ point, point ∈ cutPoints (closed.moves set) ↔ point = first ∨ point ∈ rest := by
        simp [points]
      rw [points] at ascending small
      have least : ∀ point ∈ cutPoints (closed.moves set), first ≤ point := by
        intro point member
        rcases (all point).1 member with rfl | member
        · exact Nat.le_refl _
        · exact Nat.le_of_lt ((List.pairwise_cons.1 ascending).1 point member)
      obtain ⟨bound, last, found⟩ := (start first least).foldl h ascending small
        fun point member => ((all point).1 member).imp_left Nat.le_of_eq
      exact ⟨bound, points ▸ last, found⟩
  have same : closed.transitions sets set =
      (let found := ((cutPoints (closed.moves set)).zip (cutPoints (closed.moves set)).tail).foldl
        (closed.addWindow set) ([], sets)
      (found.1.reverse.toArray, found.2)) := rfl
  rw [same]
  simpa only [List.toList_toArray, List.reverse_reverse] using whole

/-! ## Exploration -/

theorem Found.whole {transitions : Array LexTransition} {accepts : List SymbolId}
    {grown : Array BitSet} (h : Found closed sets set bound (transitions.toList.reverse, grown)) :
    LexState.Whole ⟨transitions, accepts⟩ grown.size where
  ranges transition member := h.listed.ranges transition (by simpa using member)
  apart := List.pairwise_reverse.1 h.listed.apart
  targets transition member := h.listed.targets transition (by simpa using member)

/-- The transitions lead where the set leads, on every code point. -/
def Follows (closed : ClosedNfa) (set : BitSet) (sets : Array BitSet) (state : LexState) : Prop :=
  Exact closed set sets (lastCodePoint + 1) state.transitions.toList.reverse

theorem Found.follows (h : closed.Fits terminals) {transitions : Array LexTransition}
    {accepts : List SymbolId} {grown : Array BitSet}
    (found : Found closed sets set bound (transitions.toList.reverse, grown))
    (last : ∀ point ∈ cutPoints (closed.moves set), point ≤ bound)
    (few : grown.size ≤ UInt32.size) : closed.Follows set grown ⟨transitions, accepts⟩ where
  sound c _ valid target leads :=
    (found.exact few).sound c (found.listed.lt_of_leads leads) valid target leads
  total c _ valid some := by
    refine (found.exact few).total c (Nat.lt_of_not_le fun beyond => some ?_) valid some
    exact h.targetsAt_outside (.inr fun point member => Nat.le_trans (last point member) beyond)
      valid

structure Exploring (closed : ClosedNfa) (accepts : BitSet → List SymbolId)
    (sets : Array BitSet) (states : Array LexState) : Prop where
  distinct : DistinctSets closed.nfa.states.size sets
  ahead : states.size ≤ sets.size
  states : ∀ (i : Nat) (state : LexState), states[i]? = some state →
    state.Whole sets.size ∧ ∃ set, sets[i]? = some set ∧ state.accepts = accepts set ∧
      (sets.size ≤ UInt32.size → closed.Follows set sets state)

theorem Exploring.step (h : closed.Fits terminals) {accepts : BitSet → List SymbolId}
    {states : Array LexState} (exploring : Exploring closed accepts sets states)
    (found : sets[states.size]? = some set) :
    Exploring closed accepts (closed.transitions sets set).2
      (states.push ⟨(closed.transitions sets set).1, accepts set⟩) := by
  obtain ⟨bound, last, spec⟩ := h.transitions_spec exploring.distinct set
  have here := spec.kept _ _ found
  refine ⟨spec.distinct, ?_, fun i state there => ?_⟩
  · rw [Array.size_push]
    exact (Array.getElem?_eq_some_iff.1 here).1
  · rw [Array.getElem?_push] at there
    split at there
    · next place =>
      cases there
      exact ⟨spec.whole, set, place ▸ here, rfl, spec.follows h last⟩
    · obtain ⟨whole, own, known, accept, follows⟩ := exploring.states i state there
      have size_le : sets.size ≤ (closed.transitions sets set).2.size := by
        refine Nat.le_of_not_lt fun less => ?_
        have := spec.kept _ _ (Array.getElem?_eq_getElem less)
        exact Nat.lt_irrefl _ (Array.getElem?_eq_some_iff.1 this).1
      exact ⟨⟨whole.ranges, whole.apart, fun transition member =>
          Nat.lt_of_lt_of_le (whole.targets transition member) size_le⟩, own,
        spec.kept i own known, accept, fun few => (follows (Nat.le_trans size_le few)).mono spec.kept⟩

theorem Exploring.explore (h : closed.Fits terminals) {accepts : BitSet → List SymbolId}
    {states : Array LexState} {fuel : Nat} (exploring : Exploring closed accepts sets states)
    (enough : 1 <<< closed.nfa.states.size ≤ states.size + fuel) :
    ∃ all, Exploring closed accepts all (closed.explore accepts fuel states.size sets states) ∧
      (∀ (i : Nat) (other : BitSet), sets[i]? = some other → all[i]? = some other) ∧
      all.size = (closed.explore accepts fuel states.size sets states).size := by
  induction fuel generalizing sets states with
  | zero =>
    have few := exploring.distinct.size_le
    exact ⟨sets, exploring, fun _ _ there => there,
      Nat.le_antisymm (by simp only [ClosedNfa.explore]; omega) exploring.ahead⟩
  | succ fuel ih =>
    rw [ClosedNfa.explore]
    split
    · next none =>
      exact ⟨sets, exploring, fun _ _ there => there,
        Nat.le_antisymm (Array.getElem?_eq_none_iff.1 none) exploring.ahead⟩
    · next set found =>
      obtain ⟨_, _, spec⟩ := h.transitions_spec exploring.distinct set
      obtain ⟨all, explored, kept, size⟩ :=
        ih (exploring.step h found) (by rw [Array.size_push]; omega)
      rw [Array.size_push] at explored size
      exact ⟨all, explored, fun i other there => kept i other (spec.kept i other there), size⟩

def acceptsOf (closed : ClosedNfa) (symbol : Nat → SymbolId) (rank : Nat → Nat) (set : BitSet) :
    List SymbolId :=
  (dedupSorted ((closed.accepted set).mergeSort fun a b => rank a ≤ rank b)).map symbol

theorem Fits.exploring_determinize (h : closed.Fits terminals) (entry : Nat)
    (symbol : Nat → SymbolId) (rank : Nat → Nat) :
    ∃ all, Exploring closed (closed.acceptsOf symbol rank) all
        (closed.determinize entry symbol rank) ∧
      all[0]? = some (closed.closure [entry]) ∧
      all.size = (closed.determinize entry symbol rank).size := by
  have start : Exploring closed (closed.acceptsOf symbol rank) #[closed.closure [entry]] #[] :=
    ⟨⟨by simp, fun set member => by rw [Array.mem_singleton.1 member]; exact h.closure _⟩,
      Nat.zero_le _, by simp⟩
  obtain ⟨all, explored, kept, size⟩ := start.explore h (Nat.le_add_left _ _)
  exact ⟨all, explored, kept 0 _ rfl, size⟩

theorem Fits.determinize (h : closed.Fits terminals) (entry : Nat) (symbol : Nat → SymbolId)
    (rank : Nat → Nat) :
    0 < (closed.determinize entry symbol rank).size ∧
      ∀ state ∈ closed.determinize entry symbol rank,
        state.Whole (closed.determinize entry symbol rank).size ∧
          ∀ accepted ∈ state.accepts, ∃ terminal < terminals, accepted = symbol terminal := by
  obtain ⟨all, explored, first, size⟩ := h.exploring_determinize entry symbol rank
  rw [← size]
  refine ⟨(Array.getElem?_eq_some_iff.1 first).1, fun state member => ?_⟩
  obtain ⟨i, found⟩ := Array.getElem?_of_mem member
  obtain ⟨whole, set, _, same, _⟩ := explored.states i state found
  refine ⟨whole, fun accepted there => ?_⟩
  rw [same] at there
  obtain ⟨terminal, listed, rfl⟩ := List.mem_map.1 there
  have accepted := List.mem_mergeSort.1 (mem_of_mem_dedupSorted listed)
  exact ⟨terminal, h.accepted set terminal accepted, rfl⟩

end ClosedNfa

end IncrementalGlr
