import Mathlib.Data.List.Chain
import Mathlib.Logic.Function.Iterate
import IncrementalGlr.Proofs.Lexical.Automaton
import IncrementalGlr.Proofs.Lexical.Runs

/-!
# Sets of states

What a state reaches without reading is found in as many rounds as there are states, because a
shortest way meets no state twice. The set of all states that are reached by a text is then carried
along the text, and it tells which runs there are.
-/

namespace IncrementalGlr

theorem stabilize_eq_iterate {α : Type} [BEq α] [LawfulBEq α] (f : α → α) (fuel : Nat) (x : α) :
    stabilize f fuel x = f^[fuel] x := by
  induction fuel generalizing x with
  | zero => rfl
  | succ fuel ih =>
    rw [stabilize]
    split
    · next same => exact (Function.iterate_fixed (eq_of_beq same) _).symm
    · rw [ih, Function.iterate_succ_apply]

theorem exists_nodup_chain {α : Type} {r : α → α → Prop} {a b : α}
    (h : Relation.ReflTransGen r a b) : ∃ l : List α, List.IsChain r (a :: l) ∧
      (a :: l).getLast (List.cons_ne_nil a l) = b ∧ (a :: l).Nodup := by
  classical
  induction h using Relation.ReflTransGen.head_induction_on with
  | refl => exact ⟨[], .singleton b, rfl, List.nodup_singleton b⟩
  | @head a c first _ ih =>
    obtain ⟨l, chain, last, nodup⟩ := ih
    by_cases seen : a ∈ c :: l
    -- what lies before the other visit is left out
    · obtain ⟨front, back, whole⟩ := List.append_of_mem seen
      rw [whole] at chain nodup
      simp only [whole, List.getLast_append_of_ne_nil _ (List.cons_ne_nil a back)] at last
      exact ⟨back, (List.isChain_append.1 chain).2.1, last, nodup.of_append_right⟩
    · exact ⟨c :: l, .cons_cons first chain, by rwa [List.getLast_cons (List.cons_ne_nil c l)],
        List.nodup_cons.2 ⟨seen, nodup⟩⟩

theorem contains_foldl_union {sets : Array BitSet} {ids : List Nat} {set : BitSet} {n : Nat} :
    (ids.foldl (fun (set : BitSet) id => set.union (sets.getD id BitSet.empty)) set).contains n
        = true ↔
      set.contains n = true ∨ ∃ id ∈ ids, (sets.getD id BitSet.empty).contains n = true := by
  induction ids generalizing set with
  | nil => simp only [List.foldl_nil, List.not_mem_nil, false_and, exists_false, or_false]
  | cons id ids ih =>
    simp only [List.foldl_cons, ih, BitSet.contains_union, Bool.or_eq_true, List.mem_cons,
      exists_eq_or_imp, or_assoc]

namespace Nfa

variable {nfa : Nfa} {id target n final : Nat}

def Goes (nfa : Nfa) (id target : Nat) : Prop := target ∈ nfa.targets id

theorem goes_iff : nfa.Goes id target ↔
    ∃ targets, nfa.states[id]? = some (.split targets) ∧ target ∈ targets := by
  rw [Goes, targets, state, Array.getD_eq_getD_getElem?]
  cases found : nfa.states[id]? with
  | none => simp [default, instInhabitedNfaState.default]
  | some state => cases state <;> simp

theorem Goes.lt (h : nfa.Goes id target) : id < nfa.states.size := by
  obtain ⟨targets, found, _⟩ := goes_iff.1 h
  exact (Array.getElem?_eq_some_iff.1 found).1

def Reaches (nfa : Nfa) : Nat → Nat → Prop := Relation.ReflTransGen nfa.Goes

def extendAt (nfa : Nfa) (sets : Array BitSet) (id : Nat) : Array BitSet :=
  sets.setIfInBounds id ((nfa.targets id).foldl
    (fun (set : BitSet) target => set.union (sets.getD target BitSet.empty))
    (sets.getD id BitSet.empty))

theorem extendReachable_eq (sets : Array BitSet) :
    nfa.extendReachable sets = (List.range nfa.states.size).foldl nfa.extendAt sets := rfl

@[simp] theorem size_extendAt (sets : Array BitSet) (source : Nat) :
    (nfa.extendAt sets source).size = sets.size := Array.size_setIfInBounds

theorem contains_extendAt {sets : Array BitSet} {source : Nat} :
    ((nfa.extendAt sets source).getD id BitSet.empty).contains n = true ↔
      (sets.getD id BitSet.empty).contains n = true ∨
        id = source ∧ id < sets.size ∧
          ∃ target, nfa.Goes id target ∧ (sets.getD target BitSet.empty).contains n = true := by
  rw [extendAt, Array.getD_eq_getD_getElem?, Array.getElem?_setIfInBounds]
  by_cases here : source = id
  · subst here
    by_cases inside : source < sets.size
    · rw [if_pos rfl, if_pos inside, Option.getD_some, contains_foldl_union]
      simp only [Goes, inside, true_and]
    · rw [if_pos rfl, if_neg inside, Option.getD_none, Array.getD_eq_getD_getElem?,
        Array.getElem?_eq_none (Nat.le_of_not_lt inside)]
      simp only [inside, false_and, and_false, or_false, Option.getD_none]
  · rw [if_neg here, ← Array.getD_eq_getD_getElem?]
    simp only [Ne.symm here, false_and, or_false]

/-- What is known of the sets of reachable states in every round. -/
structure Sound (nfa : Nfa) (sets : Array BitSet) : Prop where
  size : sets.size = nfa.states.size
  reaches : ∀ id n, (sets.getD id BitSet.empty).contains n = true → nfa.Reaches id n

def Above (sets more : Array BitSet) : Prop :=
  ∀ id n, (sets.getD id BitSet.empty).contains n = true →
    (more.getD id BitSet.empty).contains n = true

theorem Sound.extendAt {sets : Array BitSet} (h : nfa.Sound sets) (source : Nat) :
    nfa.Sound (nfa.extendAt sets source) := by
  refine ⟨(size_extendAt sets source).trans h.size, fun id n member => ?_⟩
  rcases contains_extendAt.1 member with member | ⟨_, _, target, goes, member⟩
  · exact h.reaches id n member
  · exact .head goes (h.reaches target n member)

theorem above_foldl_extendAt (sets : Array BitSet) (ids : List Nat) :
    Above sets (ids.foldl nfa.extendAt sets) := by
  induction ids generalizing sets with
  | nil => exact fun _ _ member => member
  | cons source ids ih =>
    exact fun id n member => ih _ id n (contains_extendAt.2 (.inl member))

theorem Sound.extendReachable {sets : Array BitSet} (h : nfa.Sound sets) :
    nfa.Sound (nfa.extendReachable sets) :=
  List.foldlRecOn _ _ h fun _ sound source _ => sound.extendAt source

theorem Sound.contains_extendReachable {sets : Array BitSet} (h : nfa.Sound sets)
    (goes : nfa.Goes id target) (member : (sets.getD target BitSet.empty).contains n = true) :
    ((nfa.extendReachable sets).getD id BitSet.empty).contains n = true := by
  obtain ⟨before, after, whole⟩ := List.append_of_mem (List.mem_range.2 goes.lt)
  rw [extendReachable_eq, whole, List.foldl_append, List.foldl_cons]
  have sound : nfa.Sound (before.foldl nfa.extendAt sets) :=
    List.foldlRecOn _ _ h fun _ sound source _ => sound.extendAt source
  refine above_foldl_extendAt _ _ id n (contains_extendAt.2 (.inr ⟨rfl, ?_, target, goes, ?_⟩))
  · rw [sound.size]
    exact goes.lt
  · exact above_foldl_extendAt _ _ target n member

def ownSets (nfa : Nfa) : Array BitSet :=
  Array.ofFn fun (id : Fin nfa.states.size) => BitSet.singleton id.val

theorem contains_ownSets : (nfa.ownSets.getD id BitSet.empty).contains n = true ↔
    id < nfa.states.size ∧ n = id := by
  rw [ownSets, Array.getD_eq_getD_getElem?, Array.getElem?_ofFn]
  split
  · next inside =>
    rw [Option.getD_some, BitSet.contains_singleton, decide_eq_true_eq]
    exact ⟨fun same => ⟨inside, same.symm⟩, fun same => same.2.symm⟩
  · next outside =>
    simp [outside]

theorem sound_ownSets : nfa.Sound nfa.ownSets := by
  refine ⟨Array.size_ofFn, fun id n member => ?_⟩
  rw [(contains_ownSets.1 member).2]
  exact .refl

theorem contains_iterate (inside : n < nfa.states.size) {way : List Nat} {rounds : Nat}
    (chain : List.IsChain nfa.Goes (id :: way))
    (last : (id :: way).getLast (List.cons_ne_nil id way) = n) (enough : way.length ≤ rounds) :
    ((nfa.extendReachable^[rounds] nfa.ownSets).getD id BitSet.empty).contains n = true := by
  induction rounds generalizing id way with
  | zero =>
    obtain rfl := List.eq_nil_of_length_eq_zero (Nat.le_zero.1 enough)
    cases last
    exact contains_ownSets.2 ⟨inside, rfl⟩
  | succ rounds ih =>
    rw [Function.iterate_succ_apply']
    have sound : nfa.Sound (nfa.extendReachable^[rounds] nfa.ownSets) :=
      Function.Iterate.rec nfa.Sound sound_ownSets (fun _ h => h.extendReachable) rounds
    cases way with
    | nil =>
      rw [extendReachable_eq]
      exact above_foldl_extendAt _ _ id n (ih chain last (Nat.zero_le _))
    | cons next way =>
      rw [List.isChain_cons_cons] at chain
      rw [List.getLast_cons (List.cons_ne_nil next way)] at last
      exact sound.contains_extendReachable chain.1
        (ih chain.2 last (Nat.le_of_succ_le_succ enough))

theorem length_lt_of_nodup (inside : n < nfa.states.size) {way : List Nat}
    (chain : List.IsChain nfa.Goes (id :: way))
    (last : (id :: way).getLast (List.cons_ne_nil id way) = n) (nodup : (id :: way).Nodup) :
    way.length < nfa.states.size := by
  have within : ∀ m ∈ id :: way, m < nfa.states.size := by
    clear nodup
    induction way generalizing id with
    | nil =>
      cases last
      simpa using inside
    | cons next way ih =>
      rw [List.isChain_cons_cons] at chain
      rw [List.getLast_cons (List.cons_ne_nil next way)] at last
      exact List.forall_mem_cons.2 ⟨chain.1.lt, ih chain.2 last⟩
  have covered : (id :: way).toFinset ⊆ Finset.range nfa.states.size :=
    fun m member => Finset.mem_range.2 (within m (List.mem_toFinset.1 member))
  calc way.length < (id :: way).length := Nat.lt_succ_self _
    _ = (id :: way).toFinset.card := (List.toFinset_card_of_nodup nodup).symm
    _ ≤ (Finset.range nfa.states.size).card := Finset.card_le_card covered
    _ = nfa.states.size := Finset.card_range _

theorem contains_reachable : (nfa.reachable.getD id BitSet.empty).contains n = true ↔
    n < nfa.states.size ∧ nfa.Reaches id n := by
  constructor
  · intro member
    refine ⟨within_getD nfa.within_reachable id n member, ?_⟩
    have sound : nfa.Sound nfa.reachable :=
      stabilize_keeps (fun _ => Sound.extendReachable) sound_ownSets
    exact sound.reaches id n member
  · rintro ⟨inside, reaches⟩
    obtain ⟨way, chain, last, nodup⟩ := exists_nodup_chain reaches
    have short := length_lt_of_nodup inside chain last nodup
    rw [reachable, stabilize_eq_iterate]
    exact contains_iterate inside chain last (by omega)

theorem mem_reads_of_reaches {text : List Char} (h : nfa.Reaches id target)
    (read : text ∈ nfa.reads final target) : text ∈ nfa.reads final id := by
  induction h using Relation.ReflTransGen.head_induction_on with
  | refl => exact read
  | head goes _ ih =>
    obtain ⟨targets, found, listed⟩ := goes_iff.1 goes
    exact reads_le_of_split found listed ih

theorem nil_mem_reads : [] ∈ nfa.reads final id ↔ nfa.Reaches id final := by
  constructor
  · rintro ⟨steps, run⟩
    generalize empty : ([] : List Char) = text at run
    induction run with
    | stop => exact .refl
    | split found listed _ ih => exact .head (goes_iff.2 ⟨_, found, listed⟩) (ih empty)
    | advance => cases empty
  · exact fun h => mem_reads_of_reaches h ⟨0, .stop⟩

theorem cons_mem_reads {c : Char} {text : List Char} : c :: text ∈ nfa.reads final id ↔
    ∃ mid chars next, nfa.Reaches id mid ∧ nfa.states[mid]? = some (.advance chars next) ∧
      chars.Has c.toNat ∧ text ∈ nfa.reads final next := by
  constructor
  · rintro ⟨steps, run⟩
    generalize whole : c :: text = all at run
    induction run with
    | stop => cases whole
    | split found listed _ ih =>
      obtain ⟨mid, chars, next, reaches, rest⟩ := ih whole
      exact ⟨mid, chars, next, .head (goes_iff.2 ⟨_, found, listed⟩) reaches, rest⟩
    | advance found has run =>
      cases whole
      exact ⟨_, _, _, .refl, found, has, _, run⟩
  · rintro ⟨mid, chars, next, reaches, found, has, read⟩
    exact mem_reads_of_reaches reaches
      (mul_reads_le_of_advance found (Language.append_mem_mul (a := [c]) ⟨c, has, rfl⟩ read))

end Nfa

namespace ClosedNfa

variable {nfa : Nfa} {ids : List Nat} {n final terminals : Nat} {text : List Char}

theorem contains_closure : ((ofNfa nfa).closure ids).contains n = true ↔
    ∃ id ∈ ids, n < nfa.states.size ∧ nfa.Reaches id n := by
  rw [closure, contains_foldl_union]
  simp only [BitSet.contains_empty, Bool.false_eq_true, false_or]
  exact exists_congr fun id => and_congr_right fun _ => Nfa.contains_reachable

theorem mem_moves {closed : ClosedNfa} {set : BitSet} {chars : CharSet} {next : Nat} :
    (chars, next) ∈ closed.moves set ↔
      ∃ id, set.contains id = true ∧ closed.nfa.state id = .advance chars next := by
  simp only [moves, List.mem_filterMap, BitSet.mem_toList]
  refine exists_congr fun id => and_congr_right fun _ => ?_
  cases closed.nfa.state id <;> simp

theorem mem_targetsAt {set : BitSet} {c next : Nat} (within : set.Within nfa.states.size) :
    next ∈ (ofNfa nfa).targetsAt set c ↔ ∃ id chars, set.contains id = true ∧
      nfa.states[id]? = some (.advance chars next) ∧ chars.contains c = true := by
  simp only [targetsAt, List.mem_map, List.mem_filter, Prod.exists, exists_eq_right]
  constructor
  · rintro ⟨chars, listed, contains⟩
    obtain ⟨id, member, found⟩ := mem_moves.1 listed
    refine ⟨id, chars, member, ?_, contains⟩
    rw [Array.getElem?_eq_getElem (within id member), ← found]
    exact congrArg some (by simp [ofNfa, Nfa.state, Array.getD_eq_getD_getElem?, within id member])
  · rintro ⟨id, chars, member, found, contains⟩
    refine ⟨chars, mem_moves.2 ⟨id, member, ?_⟩, contains⟩
    simp [ofNfa, Nfa.state, Array.getD_eq_getD_getElem?, found]

theorem contains_foldl_step (fits : nfa.Fits terminals) {accepted : Nat}
    (accepts : nfa.states[final]? = some (.accept accepted)) :
    (text.foldl (fun set c => (ofNfa nfa).step set c.toNat)
      ((ofNfa nfa).closure ids)).contains final = true ↔ ∃ id ∈ ids, text ∈ nfa.reads final id := by
  induction text generalizing ids with
  | nil =>
    have inside := (Array.getElem?_eq_some_iff.1 accepts).1
    simp only [List.foldl_nil, contains_closure, Nfa.nil_mem_reads, inside, true_and]
  | cons c text ih =>
    have targets (next : Nat) : next ∈ (ofNfa nfa).targetsAt ((ofNfa nfa).closure ids) c.toNat ↔
        ∃ id chars, ((ofNfa nfa).closure ids).contains id = true ∧
          nfa.states[id]? = some (.advance chars next) ∧ chars.contains c.toNat = true :=
      mem_targetsAt ((fits_ofNfa fits).closure ids)
    rw [List.foldl_cons, step_eq, ih]
    simp only [Nfa.cons_mem_reads, targets, contains_closure]
    constructor
    · rintro ⟨next, ⟨mid, chars, ⟨id, listed, _, reaches⟩, found, contains⟩, read⟩
      have made : chars.Made := fits _ (Array.mem_of_getElem? found)
      exact ⟨id, listed, mid, chars, next, reaches, found,
        (made.ordered.contains_iff (Char.toNat_le_lastCodePoint c)).1 contains, read⟩
    · rintro ⟨id, listed, mid, chars, next, reaches, found, has, read⟩
      have made : chars.Made := fits _ (Array.mem_of_getElem? found)
      exact ⟨next, ⟨mid, chars, ⟨id, listed, (Array.getElem?_eq_some_iff.1 found).1, reaches⟩,
        found, (made.ordered.contains_iff (Char.toNat_le_lastCodePoint c)).2 has⟩, read⟩

end ClosedNfa

theorem Regex.matches_iff {regex : Regex} (made : regex.Made) {text : String} :
    regex.matches text = true ↔ text.toList ∈ regex.language := by
  let start := Nfa.empty.push (.accept 0)
  let added := Nfa.addRegex regex start.1 start.2
  have first : (NfaState.accept 0).Fits 1 := Nat.one_pos
  have fits : added.2.Fits 1 := Nfa.fits_addRegex regex made (Nfa.fits_empty.push first) _
  have accepts : added.2.states[start.1]? = some (.accept 0) :=
    Nfa.extends_addRegex made start.1 start.2 _ _ Array.getElem?_push_size
  have reads := Nfa.reads_addRegex accepts made fun _ _ _ found => found
  calc regex.matches text = true
    _ ↔ ∃ id ∈ [added.1], text.toList ∈ added.2.reads start.1 id :=
      ClosedNfa.contains_foldl_step fits accepts
    _ ↔ text.toList ∈ regex.language := by
      simp only [List.mem_singleton, exists_eq_left]
      exact iff_of_eq (congrArg (text.toList ∈ ·) reads)

end IncrementalGlr
