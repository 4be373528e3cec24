import IncrementalGlr.Proofs.Lalr.Lookahead

/-!
# Lookaheads are least

What is closed under the ways in which a terminal comes to follow an item holds all lookaheads.
-/

namespace IncrementalGlr

namespace LrGrammar

variable {lr : LrGrammar} {allowed : Nat → Item → Nat → Prop} {item : Item} {lookahead : BitSet}
  {states : Array LrState} {lookaheads : Lookaheads} {id : Nat} {state : LrState}

structure Upper (lr : LrGrammar) (states : Array LrState) (allowed : Nat → Item → Nat → Prop) :
    Prop where
  start : allowed 0 ⟨lr.augmented, 0⟩ 0
  begins : ∀ {id : Nat} {state : LrState} {item : Item} {step : Step} {rest : List Step}
    {nonterminal production : Nat} {flat : FlatProduction} {terminal : Nat},
    states[id]? = some state → item ∈ lr.items state.kernel → lr.rest item = step :: rest →
    step.symbol = .nonterminal nonterminal →
    lr.productions[production]? = some (nonterminal, flat) →
    (lr.first.ofSteps rest).1.contains terminal = true → allowed id ⟨production, 0⟩ terminal
  ends : ∀ {id : Nat} {state : LrState} {item : Item} {step : Step} {rest : List Step}
    {nonterminal production : Nat} {flat : FlatProduction} {terminal : Nat},
    states[id]? = some state → item ∈ lr.items state.kernel → lr.rest item = step :: rest →
    step.symbol = .nonterminal nonterminal →
    lr.productions[production]? = some (nonterminal, flat) →
    (lr.first.ofSteps rest).2 = true → allowed id item terminal →
    allowed id ⟨production, 0⟩ terminal
  passes : ∀ {id target : Nat} {state : LrState} {item : Item} {symbol : Sym} {terminal : Nat},
    states[id]? = some state → item ∈ lr.items state.kernel →
    lr.symbolAt? item = some symbol → (symbol, target) ∈ state.transitions →
    allowed id item terminal → allowed target item.next terminal

def Bounds (allowed : Nat → Item → Nat → Prop) (id : Nat) (item : Item) (lookahead : BitSet) :
    Prop :=
  ∀ terminal, lookahead.contains terminal = true → allowed id item terminal

theorem bounds_empty : Bounds allowed id item BitSet.empty := by simp [Bounds]

theorem Bounds.union {other : BitSet} (h : Bounds allowed id item lookahead)
    (h' : Bounds allowed id item other) : Bounds allowed id item (lookahead.union other) := by
  intro terminal member
  rw [BitSet.contains_union, Bool.or_eq_true] at member
  exact member.elim (h terminal) (h' terminal)

def AllBound (lr : LrGrammar) (allowed : Nat → Item → Nat → Prop) (id : Nat)
    (follows : Array BitSet) : Prop :=
  ∀ nonterminal production flat, lr.productions[production]? = some (nonterminal, flat) →
    Bounds allowed id ⟨production, 0⟩ (follows.getD nonterminal BitSet.empty)

theorem Upper.follow (upper : lr.Upper states allowed) (found : states[id]? = some state)
    (there : item ∈ lr.items state.kernel) (bounds : Bounds allowed id item lookahead)
    {nonterminal production : Nat} {set : BitSet} {flat : FlatProduction}
    (h : lr.follow item lookahead = some (nonterminal, set))
    (numbered : lr.productions[production]? = some (nonterminal, flat)) :
    Bounds allowed id ⟨production, 0⟩ set := by
  rw [LrGrammar.follow] at h
  split at h
  · contradiction
  · next step rest here =>
    split at h
    · contradiction
    · next called symbol =>
      cases h
      have own : Bounds allowed id ⟨production, 0⟩ (lr.first.ofSteps rest).1 :=
        fun _ => upper.begins found there here symbol numbered
      split
      · next nullable =>
        exact own.union fun terminal member =>
          upper.ends found there here symbol numbered nullable (bounds terminal member)
      · exact own

theorem Upper.addFollows (upper : lr.Upper states allowed) (found : states[id]? = some state)
    {items : List (Item × BitSet)} (inside : ∀ entry ∈ items, entry.1 ∈ lr.items state.kernel)
    (bounds : ∀ entry ∈ items, Bounds allowed id entry.1 entry.2) {follows : Array BitSet}
    (bound : lr.AllBound allowed id follows) :
    lr.AllBound allowed id (lr.addFollows follows items) := by
  refine List.foldlRecOn (motive := lr.AllBound allowed id) _ _ bound
    fun follows bound entry there => ?_
  dsimp only
  split
  · next nonterminal set passed =>
    intro n production flat numbered
    rw [getD_modify_union]
    split
    · next same =>
      obtain ⟨rfl, _⟩ := same
      exact (bound _ production flat numbered).union
        (upper.follow found (inside entry there) (bounds entry there) passed numbered)
    · exact bound n production flat numbered
  · exact bound

theorem Upper.startLookaheads (upper : lr.Upper states allowed) (numbered : lr.Numbered)
    (found : states[id]? = some state) {kernel : List (Item × BitSet)}
    (inside : ∀ entry ∈ kernel, entry.1 ∈ lr.items state.kernel)
    (bounds : ∀ entry ∈ kernel, Bounds allowed id entry.1 entry.2) :
    lr.AllBound allowed id (lr.startLookaheads kernel (lr.called state.kernel).toList) := by
  refine stabilize_keeps (fun follows bound => ?_) (upper.addFollows found inside bounds ?_)
  · refine List.foldlRecOn (motive := lr.AllBound allowed id) _ _ bound
      fun follows bound caller called => ?_
    refine upper.addFollows found (fun entry member => ?_) (fun entry member => ?_) bound
    all_goals obtain ⟨item, start, rfl⟩ := List.mem_map.1 member
    · exact mem_items.2 (.inr ⟨caller, BitSet.mem_toList.1 called, start⟩)
    · obtain ⟨production, dot⟩ := item
      obtain ⟨rfl, flat, numbered⟩ := numbered.mem_startItems.1 start
      exact bound caller production flat numbered
  · intro n production flat _ terminal member
    rw [Array.getD_eq_getD_getElem?, Array.getElem?_replicate] at member
    split at member <;> simp at member

def KernelsBound (allowed : Nat → Item → Nat → Prop) (states : Array LrState)
    (lookaheads : Lookaheads) : Prop :=
  ∀ {id place : Nat} {state : LrState} {item : Item}, states[id]? = some state →
    state.kernel[place]? = some item → Bounds allowed id item (lookaheadAt lookaheads id place)

theorem Upper.lookaheadIn (upper : lr.Upper states allowed) (numbered : lr.Numbered)
    (bound : KernelsBound allowed states lookaheads)
    (suit : Suit states (lr.grammar.terminals.size + 1) lookaheads)
    (found : states[id]? = some state) (there : item ∈ lr.items state.kernel) :
    Bounds allowed id item (lr.lookaheadIn lookaheads id state item) := by
  have kernel : ∀ entry ∈ kernelWith state (lookaheads.getD id []),
      entry.1 ∈ state.kernel ∧ Bounds allowed id entry.1 entry.2 := by
    intro entry member
    obtain ⟨place, here⟩ := List.mem_iff_getElem?.1 member
    obtain ⟨key, value⟩ := List.getElem?_zip_eq_some.1 here
    have := bound found key
    rw [lookaheadAt, List.getD_eq_getElem?_getD, value, Option.getD_some] at this
    exact ⟨List.mem_of_getElem? key, this⟩
  rw [LrGrammar.lookaheadIn, lookaheadOf]
  split
  · next known =>
    obtain ⟨front, back, whole, _⟩ := List.lookup_eq_some_iff.1 known
    exact (kernel (item, _) (whole ▸ by simp)).2
  · next absent =>
    rcases mem_items.1 there with old | ⟨nonterminal, _, start⟩
    · -- an item of the kernel has an entry
      have keys : (kernelWith state (lookaheads.getD id [])).map (·.1) = state.kernel :=
        List.map_fst_zip (Nat.le_of_eq (suit.length found).symm)
      rw [← keys] at old
      obtain ⟨entry, member, rfl⟩ := List.mem_map.1 old
      have other := List.lookup_eq_none_iff.1 absent entry member
      simp at other
    · obtain ⟨production, dot⟩ := item
      obtain ⟨rfl, flat, here⟩ := numbered.mem_startItems.1 start
      dsimp only
      rw [here]
      exact upper.startLookaheads numbered found
        (fun entry member => mem_items.2 (.inl (kernel entry member).1))
        (fun entry member => (kernel entry member).2) nonterminal production flat here

theorem KernelsBound.passTo (suit : Suit states (lr.grammar.terminals.size + 1) lookaheads)
    (bound : KernelsBound allowed states lookaheads) {given : Item → BitSet} {target : Nat}
    (bounds : ∀ {next : LrState}, states[target]? = some next → ∀ item ∈ next.kernel,
      Bounds allowed target item (given item)) :
    KernelsBound allowed states (passTo states given lookaheads target) := by
  intro id place state item found here
  rw [lookaheadAt_passTo suit]
  split
  · next other there =>
    split
    · next same =>
      subst same
      rw [found, Option.bind_some, here] at there
      cases there
      exact (bound found here).union (bounds found item (List.mem_of_getElem? here))
    · exact bound found here
  · exact bound found here

theorem Upper.bounds_lookaheads (upper : lr.Upper states allowed) (closed : lr.Closed)
    (automaton : lr.Automaton states) (found : states[id]? = some state)
    (there : item ∈ lr.items state.kernel) :
    Bounds allowed id item (lr.lookaheadIn (lr.lookaheads states) id state item) := by
  let kept (lookaheads : Lookaheads) : Prop :=
    Suit states (lr.grammar.terminals.size + 1) lookaheads ∧
      KernelsBound allowed states lookaheads
  suffices kept (lr.lookaheads states) from
    upper.lookaheadIn closed.numbered this.2 this.1 found there
  refine stabilize_keeps (p := kept) (fun lookaheads start => ?_)
    ⟨suit_initialLookaheads states (Nat.succ_pos _), fun {id place state item} found here => ?_⟩
  · refine List.foldlRecOn (motive := kept) _ _ start fun lookaheads ⟨suit, bound⟩ id _ => ?_
    cases found : states[id]? with
    | none =>
      rw [propagate, found]
      exact ⟨suit, bound⟩
    | some state =>
      rw [propagate_eq found (by simp [Array.getD_eq_getD_getElem?, found])]
      have given := fun item (there : item ∈ lr.items state.kernel) =>
        upper.lookaheadIn closed.numbered bound suit found there
      have within := fun item : Item => closed.within_lookaheadIn suit id state
        ⟨item.production, item.dot - 1⟩
      refine List.foldlRecOn (motive := kept) _ _ ⟨suit, bound⟩
        fun lookaheads ⟨suit, bound⟩ target leads => ?_
      refine ⟨(grows_passTo within target lookaheads suit).1, bound.passTo suit ?_⟩
      intro next known item member
      obtain ⟨⟨symbol, _⟩, transition, rfl⟩ := List.mem_map.1 leads
      obtain ⟨_, known', kernel⟩ := automaton.target found transition
      cases known.symm.trans known'
      rw [kernel] at member
      obtain ⟨before, inside, at_, rfl⟩ := mem_goto.1 member
      exact fun terminal follows =>
        upper.passes found inside at_ transition (given before inside terminal follows)
  · obtain ⟨start, first, kernel⟩ := automaton.start
    have here' : lookaheadAt (initialLookaheads states) id place
        = if id = 0 then BitSet.singleton 0 else BitSet.empty := by
      have inside := (List.getElem?_eq_some_iff.1 here).1
      simp [lookaheadAt, initialLookaheads, Array.getD_eq_getD_getElem?, found, inside]
    rw [here']
    split
    · next zero =>
      subst zero
      cases found.symm.trans first
      rw [kernel] at here
      rw [List.mem_singleton.1 (List.mem_of_getElem? here)]
      intro terminal member
      rw [← (by simpa using member : 0 = terminal)]
      exact upper.start
    · exact bounds_empty

end LrGrammar

end IncrementalGlr
