import IncrementalGlr.Lalr.Lookahead
import IncrementalGlr.Proofs.Lalr.States

/-!
# Lookaheads are complete

The lookaheads are closed under all ways in which a terminal comes to follow an item: from an item
to the productions of the nonterminal at its place, and along the transitions.
-/

namespace IncrementalGlr

namespace LrGrammar

variable {lr : LrGrammar} {item : Item} {kernel : List (Item × BitSet)}

theorem getD_modify_union {follows : Array BitSet} {set : BitSet} {i j : Nat} :
    (follows.modify i fun old => old.union set).getD j BitSet.empty =
      if i = j ∧ j < follows.size then (follows.getD j BitSet.empty).union set
      else follows.getD j BitSet.empty := by
  rw [Array.getD_eq_getD_getElem?, Array.getElem?_modify, Array.getD_eq_getD_getElem?]
  by_cases inside : j < follows.size <;> by_cases same : i = j <;> simp [inside, same]

theorem grows_modify_union {size bound : Nat} {set : BitSet} (within : set.Within bound)
    (i : Nat) : (BitSet.inArray size bound).Grows fun follows =>
      follows.modify i fun old => old.union set := by
  rintro follows ⟨sized, fits⟩
  refine ⟨⟨by rw [Array.size_modify, sized], fun j => ?_⟩, fun place member => ?_⟩
  · rw [getD_modify_union]
    split
    · exact (fits j).union within
    · exact fits j
  · simp only [BitSet.inArray] at member ⊢
    rw [getD_modify_union]
    split
    · rw [BitSet.contains_union, member, Bool.true_or]
    · exact member

theorem addFollows_single (follows : Array BitSet) (lookahead : BitSet) :
    lr.addFollows follows [(item, lookahead)] = match lr.follow item lookahead with
      | some (index, set) => follows.modify index fun old => old.union set
      | none => follows := rfl

abbrev inFollows (lr : LrGrammar) : Members (Array BitSet) (Nat × Nat) :=
  BitSet.inArray lr.grammar.nonterminals.size (lr.grammar.terminals.size + 1)

theorem Closed.within_ofSteps_rest (closed : lr.Closed) {step : Step} {rest : List Step}
    (here : lr.rest item = step :: rest) :
    (lr.first.ofSteps rest).1.Within (lr.grammar.terminals.size + 1) :=
  FirstSets.within_ofSteps closed.fits fun other member =>
    closed.has_step item.production (List.mem_of_mem_drop
      (here ▸ List.mem_cons_of_mem _ member : other ∈ lr.rest item))

theorem Closed.within_follow (closed : lr.Closed) {lookahead set : BitSet} {index : Nat}
    (within : lookahead.Within (lr.grammar.terminals.size + 1))
    (h : lr.follow item lookahead = some (index, set)) :
    set.Within (lr.grammar.terminals.size + 1) := by
  rw [follow] at h
  split at h
  · contradiction
  · next step rest here =>
    split at h
    · contradiction
    · have first := closed.within_ofSteps_rest here
      cases h
      split
      · exact first.union within
      · exact first

theorem Closed.grows_addFollows (closed : lr.Closed) {items : List (Item × BitSet)}
    (within : ∀ entry ∈ items, entry.2.Within (lr.grammar.terminals.size + 1)) :
    ∀ entry ∈ items, lr.inFollows.Grows fun follows => lr.addFollows follows [entry] := by
  rintro ⟨item, lookahead⟩ member
  cases found : lr.follow item lookahead with
  | none =>
    simp only [addFollows_single, found]
    exact fun follows valid => ⟨valid, Members.Le.refl _⟩
  | some pair =>
    simp only [addFollows_single, found]
    exact grows_modify_union (closed.within_follow (within _ member) found) _

theorem Closed.contains_addFollows (closed : lr.Closed) {items : List (Item × BitSet)}
    (within : ∀ entry ∈ items, entry.2.Within (lr.grammar.terminals.size + 1))
    {follows : Array BitSet} (valid : lr.inFollows.valid follows) {lookahead set : BitSet}
    {index terminal : Nat} (there : (item, lookahead) ∈ items)
    (found : lr.follow item lookahead = some (index, set)) (inside : index < follows.size)
    (member : set.contains terminal = true) :
    ((lr.addFollows follows items).getD index BitSet.empty).contains terminal = true := by
  induction items generalizing follows with
  | nil => contradiction
  | cons entry items ih =>
    have grows := closed.grows_addFollows within
    have rest := fun other member => within other (List.mem_cons_of_mem entry member)
    obtain ⟨next, _⟩ := grows entry (List.mem_cons_self ..) follows valid
    change ((lr.addFollows (lr.addFollows follows [entry]) items).getD index _).contains _ = true
    rcases List.mem_cons.1 there with rfl | there
    · refine (Members.Grows.foldl (closed.grows_addFollows rest) _ next).2 (index, terminal) ?_
      simp only [addFollows_single, found, BitSet.inArray]
      rw [getD_modify_union, if_pos ⟨rfl, inside⟩, BitSet.contains_union, member, Bool.or_true]
    · exact ih rest next there (next.1.symm ▸ valid.1 ▸ inside)

theorem follow_inside (closed : lr.Closed) {lookahead set : BitSet} {index : Nat}
    (found : lr.follow item lookahead = some (index, set)) :
    index < lr.grammar.nonterminals.size := by
  rw [follow] at found
  split at found
  · contradiction
  · next step rest here =>
    split at found
    · contradiction
    · next symbol =>
      cases found
      have here' : lr.symbolAt? item = some (.nonterminal index) := by
        rw [symbolAt?, here, List.head?_cons, Option.map_some, symbol]
      exact closed.has_symbolAt? here'

theorem Closed.startLookaheads_spec (closed : lr.Closed) (called : List Nat)
    (within : ∀ entry ∈ kernel, entry.2.Within (lr.grammar.terminals.size + 1)) :
    lr.inFollows.valid (lr.startLookaheads kernel called) ∧
      (∀ item lookahead, (item, lookahead) ∈ kernel → ∀ index set,
        lr.follow item lookahead = some (index, set) → ∀ terminal, set.contains terminal = true →
        ((lr.startLookaheads kernel called).getD index BitSet.empty).contains terminal = true) ∧
      ∀ caller ∈ called, ∀ start ∈ lr.startItems caller, ∀ index set,
        lr.follow start ((lr.startLookaheads kernel called).getD caller BitSet.empty)
          = some (index, set) → ∀ terminal, set.contains terminal = true →
        ((lr.startLookaheads kernel called).getD index BitSet.empty).contains terminal = true := by
  have none : lr.inFollows.valid
      (Array.replicate lr.grammar.nonterminals.size BitSet.empty) := by
    refine ⟨by simp, fun i => ?_⟩
    rw [Array.getD_eq_getD_getElem?, Array.getElem?_replicate]
    split <;> exact BitSet.within_empty _
  have start := (Members.Grows.foldl (closed.grows_addFollows within) _ none).1
  have entries : ∀ (follows : Array BitSet) (index : Nat), lr.inFollows.valid follows →
      ∀ entry ∈ (lr.startItems index).map fun item => (item, follows.getD index BitSet.empty),
        entry.2.Within (lr.grammar.terminals.size + 1) := by
    rintro follows index ⟨_, fits⟩ entry member
    obtain ⟨item, _, rfl⟩ := List.mem_map.1 member
    exact fits index
  have steps : ∀ index ∈ called, lr.inFollows.Grows fun follows => lr.addFollows follows
      ((lr.startItems index).map fun item => (item, follows.getD index BitSet.empty)) :=
    fun index _ follows valid =>
      Members.Grows.foldl (closed.grows_addFollows (entries follows index valid)) follows valid
  obtain ⟨valid, fixed, above⟩ := (Members.Grows.foldl steps).stabilize
    (lr.grammar.nonterminals.size * (lr.grammar.terminals.size + 1) + 1)
    (by simp [BitSet.inArray]) start
  change lr.inFollows.valid (lr.startLookaheads kernel called) at valid
  refine ⟨valid, fun item lookahead there index set found terminal member => ?_,
    fun caller inside start member index set found terminal member' => ?_⟩
  · have := closed.contains_addFollows within none there found
      (by simpa using follow_inside closed found) member
    exact above (index, terminal) this
  · have here := Members.foldl_fixed steps valid fixed caller inside
    have := closed.contains_addFollows (entries _ caller valid) valid
      (List.mem_map.2 ⟨start, member, rfl⟩) found
      (valid.1.symm ▸ follow_inside closed found) member'
    rwa [here] at this

variable {states : Array LrState} {lookaheads : Lookaheads} {bound : Nat}

def lookaheadAt (lookaheads : Lookaheads) (id place : Nat) : BitSet :=
  (lookaheads.getD id []).getD place BitSet.empty

structure Suit (states : Array LrState) (bound : Nat) (lookaheads : Lookaheads) : Prop where
  size : lookaheads.size = states.size
  length : ∀ {id : Nat} {state : LrState}, states[id]? = some state →
    (lookaheads.getD id []).length = state.kernel.length
  within : ∀ id place, (lookaheadAt lookaheads id place).Within bound

def places (states : Array LrState) : List (Nat × Nat) :=
  (List.range states.size).flatMap fun id =>
    (List.range ((states[id]?).elim 0 (·.kernel.length))).map (id, ·)

theorem mem_places {id place : Nat} : (id, place) ∈ places states ↔
    ∃ state, states[id]? = some state ∧ place < state.kernel.length := by
  simp only [places, List.mem_flatMap, List.mem_range, List.mem_map, Prod.mk.injEq]
  constructor
  · rintro ⟨_, inside, _, below, rfl, rfl⟩
    exact ⟨states[_], Array.getElem?_eq_getElem inside, by simpa [inside] using below⟩
  · rintro ⟨state, found, below⟩
    exact ⟨id, (Array.getElem?_eq_some_iff.1 found).1, place, by simpa [found] using below, rfl,
      rfl⟩

theorem length_places (states : Array LrState) :
    (places states).length = states.foldl (fun count state => count + state.kernel.length) 0 := by
  have total : ∀ (list : List LrState) (start : Nat),
      list.foldl (fun count state => count + state.kernel.length) start
        = start + (list.map fun state => state.kernel.length).sum := by
    intro list
    induction list with
    | nil => simp
    | cons state list ih =>
      intro start
      rw [List.foldl_cons, ih, List.map_cons, List.sum_cons, Nat.add_assoc]
  rw [← Array.foldl_toList, total, places, List.length_flatMap, Nat.zero_add]
  congr 1
  refine List.ext_getElem (by simp) fun id inside _ => ?_
  have known : id < states.size := by simpa using inside
  simp [known]

def inKernels (states : Array LrState) (bound : Nat) :
    Members Lookaheads ((Nat × Nat) × Nat) where
  valid lookaheads := Suit states bound lookaheads
  mem lookaheads entry := (lookaheadAt lookaheads entry.1.1 entry.1.2).contains entry.2
  all := (places states).toFinset ×ˢ Finset.range bound
  ext := by
    intro xs ys suitX suitY same
    refine Array.ext (suitX.size.trans suitY.size.symm) fun id inX inY => ?_
    have known : id < states.size := suitX.size ▸ inX
    have found := Array.getElem?_eq_getElem known
    have atX : xs.getD id [] = xs[id] := by simp [Array.getD_eq_getD_getElem?, inX]
    have atY : ys.getD id [] = ys[id] := by simp [Array.getD_eq_getD_getElem?, inY]
    have lengthX := suitX.length found
    have lengthY := suitY.length found
    rw [atX] at lengthX
    rw [atY] at lengthY
    refine List.ext_getElem (lengthX.trans lengthY.symm) fun place belowX belowY => ?_
    have hereX : lookaheadAt xs id place = xs[id][place] := by simp [lookaheadAt, atX, belowX]
    have hereY : lookaheadAt ys id place = ys[id][place] := by simp [lookaheadAt, atY, belowY]
    rw [← hereX, ← hereY]
    exact (BitSet.below bound).ext (suitX.within id place) (suitY.within id place)
      fun terminal inside => same ((id, place), terminal) (Finset.mem_product.2
        ⟨List.mem_toFinset.2 (mem_places.2 ⟨_, found, lengthX ▸ belowX⟩), inside⟩)

def passTo (states : Array LrState) (given : Item → BitSet) (lookaheads : Lookaheads)
    (target : Nat) : Lookaheads :=
  match states[target]? with
  | none => lookaheads
  | some next => lookaheads.modify target fun old =>
      List.zipWith BitSet.union old (next.kernel.map given)

theorem getD_modify {old : List BitSet → List BitSet} {target id : Nat} :
    (lookaheads.modify target old).getD id [] =
      if target = id ∧ id < lookaheads.size then old (lookaheads.getD id [])
      else lookaheads.getD id [] := by
  rw [Array.getD_eq_getD_getElem?, Array.getElem?_modify, Array.getD_eq_getD_getElem?]
  by_cases inside : id < lookaheads.size <;> by_cases same : target = id <;> simp [inside, same]

theorem lookaheadAt_passTo {given : Item → BitSet} {target id place : Nat}
    (suit : Suit states bound lookaheads) :
    lookaheadAt (passTo states given lookaheads target) id place =
      match states[target]?.bind (·.kernel[place]?) with
      | some item =>
        if target = id then (lookaheadAt lookaheads id place).union (given item)
        else lookaheadAt lookaheads id place
      | none => lookaheadAt lookaheads id place := by
  cases found : states[target]? with
  | none => simp [passTo, found]
  | some next =>
    have inside := suit.size ▸ (Array.getElem?_eq_some_iff.1 found).1
    have length := suit.length found
    simp only [passTo, found, Option.bind_some]
    rw [lookaheadAt, getD_modify]
    by_cases same : target = id
    · subst same
      rw [if_pos ⟨rfl, inside⟩, List.getD_eq_getElem?_getD, List.getElem?_zipWith,
        List.getElem?_map, lookaheadAt, List.getD_eq_getElem?_getD]
      generalize lookaheads.getD target [] = row at length
      cases here : next.kernel[place]? with
      | none =>
        rw [List.getElem?_eq_none_iff, ← length, ← List.getElem?_eq_none_iff] at here
        simp [here]
      | some item =>
        have below : place < row.length :=
          length ▸ (List.getElem?_eq_some_iff.1 here).1
        simp [List.getElem?_eq_getElem below]
    · rw [if_neg fun both => same both.1, lookaheadAt]
      split <;> simp [same]

theorem grows_passTo {given : Item → BitSet} (within : ∀ item, (given item).Within bound)
    (target : Nat) : (inKernels states bound).Grows fun lookaheads =>
      passTo states given lookaheads target := by
  intro lookaheads suit
  refine ⟨⟨?_, fun {id state} known => ?_, fun id place => ?_⟩, ?_⟩
  · simp only [passTo]
    split
    · exact suit.size
    · rw [Array.size_modify, suit.size]
  · simp only [passTo]
    split
    · exact suit.length known
    · next next found =>
      rw [getD_modify]
      split
      · next here =>
        rw [here.1] at found
        cases known.symm.trans found
        rw [List.length_zipWith, suit.length known, List.length_map, Nat.min_self]
      · exact suit.length known
  · rw [lookaheadAt_passTo suit]
    split
    · split
      · exact (suit.within id place).union (within _)
      · exact suit.within id place
    · exact suit.within id place
  · rintro ⟨⟨id, place⟩, terminal⟩ member
    simp only [inKernels] at member ⊢
    rw [lookaheadAt_passTo suit]
    split
    · split
      · rw [BitSet.contains_union, member, Bool.true_or]
      · exact member
    · exact member

def lookaheadIn (lr : LrGrammar) (lookaheads : Lookaheads) (id : Nat) (state : LrState)
    (item : Item) : BitSet :=
  let kernel := kernelWith state (lookaheads.getD id [])
  lr.lookaheadOf kernel (lr.startLookaheads kernel (lr.called state.kernel).toList) item

theorem within_kernelWith (suit : Suit states bound lookaheads) (id : Nat) (state : LrState) :
    ∀ entry ∈ kernelWith state (lookaheads.getD id []), entry.2.Within bound := by
  intro entry member
  obtain ⟨place, below, here⟩ := List.mem_iff_getElem.1 (List.of_mem_zip member).2
  have := suit.within id place
  rwa [lookaheadAt, List.getD_eq_getElem?_getD, List.getElem?_eq_getElem below, Option.getD_some,
    here] at this

theorem Closed.within_lookaheadIn (closed : lr.Closed)
    (suit : Suit states (lr.grammar.terminals.size + 1) lookaheads) (id : Nat) (state : LrState)
    (item : Item) :
    (lr.lookaheadIn lookaheads id state item).Within (lr.grammar.terminals.size + 1) := by
  have within := within_kernelWith suit id state
  rw [lookaheadIn, lookaheadOf]
  split
  · next found =>
    obtain ⟨front, back, whole, _⟩ := List.lookup_eq_some_iff.1 found
    exact within (item, _) (whole ▸ by simp)
  · split
    · exact (closed.startLookaheads_spec _ within).1.2 _
    · exact BitSet.within_empty _

theorem propagate_eq {called : Array (List Nat)} {id : Nat} {state : LrState}
    (found : states[id]? = some state)
    (same : called.getD id [] = (lr.called state.kernel).toList) :
    lr.propagate states called lookaheads id = (state.transitions.map (·.2)).foldl
      (passTo states fun item => lr.lookaheadIn lookaheads id state ⟨item.production, item.dot - 1⟩)
      lookaheads := by
  rw [propagate, found, List.foldl_map, same]
  rfl

theorem Closed.grows_propagate (closed : lr.Closed) (states : Array LrState) (id : Nat) :
    (inKernels states (lr.grammar.terminals.size + 1)).Grows fun lookaheads =>
      lr.propagate states (states.map fun state => (lr.called state.kernel).toList)
        lookaheads id := by
  intro lookaheads suit
  cases found : states[id]? with
  | none =>
    simp only [propagate, found]
    exact ⟨suit, Members.Le.refl _⟩
  | some state =>
    dsimp only
    rw [propagate_eq found (by simp [Array.getD_eq_getD_getElem?, found])]
    exact Members.Grows.foldl (fun target _ => grows_passTo
      (fun item => closed.within_lookaheadIn suit id state _) target) lookaheads suit

theorem suit_initialLookaheads (states : Array LrState) {bound : Nat} (positive : 0 < bound) :
    Suit states bound (initialLookaheads states) where
  size := by simp [initialLookaheads]
  length found := by simp [initialLookaheads, Array.getD_eq_getD_getElem?, found]
  within id place := by
    rw [lookaheadAt, List.getD_eq_getElem?_getD, Array.getD_eq_getD_getElem?, initialLookaheads,
      Array.getElem?_mapIdx]
    cases states[id]? with
    | none => exact BitSet.within_empty _
    | some state =>
      simp only [Option.map_some, Option.getD_some, List.getElem?_map]
      cases state.kernel[place]? with
      | none => exact BitSet.within_empty _
      | some item =>
        simp only [Option.map_some, Option.getD_some]
        split
        · exact BitSet.within_singleton positive
        · exact BitSet.within_empty _

structure Complete (lr : LrGrammar) (states : Array LrState) (lookaheads : Lookaheads) : Prop where
  suit : Suit states (lr.grammar.terminals.size + 1) lookaheads
  start : ∀ {state : LrState}, states[0]? = some state → state.kernel = lr.startKernel →
    (lookaheadAt lookaheads 0 0).contains 0 = true
  passed : ∀ {id target place : Nat} {state next : LrState} {symbol : Sym} {item : Item},
    states[id]? = some state → (symbol, target) ∈ state.transitions →
    states[target]? = some next → next.kernel[place]? = some item → ∀ terminal,
      (lr.lookaheadIn lookaheads id state ⟨item.production, item.dot - 1⟩).contains terminal = true →
      (lookaheadAt lookaheads target place).contains terminal = true

theorem Closed.complete (closed : lr.Closed) (states : Array LrState) :
    lr.Complete states (lr.lookaheads states) := by
  have steps := fun id (_ : id ∈ List.range states.size) =>
    closed.grows_propagate states id
  have enough : (inKernels states (lr.grammar.terminals.size + 1)).all.card <
      states.foldl (fun count state => count + state.kernel.length) 0
        * (lr.grammar.terminals.size + 1) + 1 := by
    simp only [inKernels, Finset.card_product, Finset.card_range, ← length_places]
    exact Nat.lt_succ_of_le (Nat.mul_le_mul_right _ (List.toFinset_card_le _))
  obtain ⟨suit, fixed, above⟩ := (Members.Grows.foldl steps).stabilize _ enough
    (suit_initialLookaheads states (Nat.succ_pos _))
  change Suit _ _ (lr.lookaheads states) at suit
  refine ⟨suit, fun {state} found startKernel => above ((0, 0), 0) ?_,
    fun {id target place state next symbol item} found transition known here terminal member => ?_⟩
  · simp [inKernels, lookaheadAt, initialLookaheads, found, startKernel, LrGrammar.startKernel]
  · have inside := List.mem_range.2 (Array.getElem?_eq_some_iff.1 found).1
    have still := Members.foldl_fixed steps suit fixed id inside
    change lr.propagate states _ (lr.lookaheads states) id = lr.lookaheads states at still
    rw [propagate_eq found (by simp [Array.getD_eq_getD_getElem?, found])] at still
    have one := Members.foldl_fixed (fun target _ => grows_passTo
      (fun item => closed.within_lookaheadIn suit id state _) target) suit still target
      (List.mem_map.2 ⟨_, transition, rfl⟩)
    rw [← one, lookaheadAt_passTo suit, known, Option.bind_some, here]
    simp [member]

variable {id target : Nat} {state next : LrState} {symbol : Sym}

theorem lookup_zip {keys : List Item} {values : List BitSet} {place : Nat} {value : BitSet}
    (nodup : keys.Nodup) (key : keys[place]? = some item) (here : values[place]? = some value) :
    (keys.zip values).lookup item = some value := by
  induction keys generalizing values place with
  | nil => simp at key
  | cons first keys ih =>
    cases values with
    | nil => simp at here
    | cons other values =>
      rw [List.zip_cons_cons, List.lookup_cons]
      cases place with
      | zero =>
        cases key
        cases here
        simp
      | succ place =>
        have later : item ∈ keys := List.mem_of_getElem? key
        have different : item ≠ first := fun same =>
          (List.nodup_cons.1 nodup).1 (same ▸ later)
        rw [beq_false_of_ne different]
        exact ih (List.nodup_cons.1 nodup).2 key here

theorem lookaheadIn_kernel (suit : Suit states bound lookaheads) (found : states[id]? = some state)
    (proper : lr.Proper state.kernel) {place : Nat} (here : state.kernel[place]? = some item) :
    lr.lookaheadIn lookaheads id state item = lookaheadAt lookaheads id place := by
  have below : place < (lookaheads.getD id []).length := by
    rw [suit.length found]
    exact (List.getElem?_eq_some_iff.1 here).1
  rw [lookaheadIn, lookaheadOf, kernelWith,
    lookup_zip proper.nodup here (List.getElem?_eq_getElem below), lookaheadAt,
    List.getD_eq_getElem?_getD, List.getElem?_eq_getElem below, Option.getD_some]

theorem lookaheadIn_start (lookaheads : Lookaheads) (id : Nat)
    (proper : lr.Proper state.kernel) {nonterminal production : Nat} {flat : FlatProduction}
    (found : lr.productions[production]? = some (nonterminal, flat)) :
    lr.lookaheadIn lookaheads id state ⟨production, 0⟩
      = (lr.startLookaheads (kernelWith state (lookaheads.getD id []))
          (lr.called state.kernel).toList).getD nonterminal BitSet.empty := by
  have absent : (kernelWith state (lookaheads.getD id [])).lookup ⟨production, 0⟩ = none := by
    refine List.lookup_eq_none_iff.2 fun entry member => ?_
    have own := (List.of_mem_zip member).1
    rw [bne_iff_ne]
    intro same
    rw [← same] at own
    exact proper.not_mem_start (Array.getElem?_eq_some_iff.1 found).1 own
  rw [lookaheadIn, lookaheadOf, absent, found]

theorem Complete.at_start (complete : lr.Complete states lookaheads)
    (found : states[0]? = some state) (start : state.kernel = lr.startKernel) :
    (lr.lookaheadIn lookaheads 0 state ⟨lr.augmented, 0⟩).contains 0 = true := by
  have here : state.kernel[0]? = some ⟨lr.augmented, 0⟩ := by
    rw [start]
    rfl
  rw [lookaheadIn_kernel complete.suit found (start ▸ lr.proper_startKernel) here]
  exact complete.start found start

/-- What follows an item follows the productions of the nonterminal at its place, if nothing has to
stand between; if something has to, its first terminals do. -/
theorem Complete.calls (complete : lr.Complete states lookaheads) (closed : lr.Closed)
    (automaton : lr.Automaton states) (found : states[id]? = some state)
    (member : item ∈ lr.items state.kernel) {step : Step} {rest : List Step}
    {nonterminal production : Nat} {flat : FlatProduction} (here : lr.rest item = step :: rest)
    (called : step.symbol = .nonterminal nonterminal)
    (numbered : lr.productions[production]? = some (nonterminal, flat)) {terminal : Nat}
    (follows : (lr.first.ofSteps rest).1.contains terminal = true ∨
      (lr.first.ofSteps rest).2 = true ∧
        (lr.lookaheadIn lookaheads id state item).contains terminal = true) :
    (lr.lookaheadIn lookaheads id state ⟨production, 0⟩).contains terminal = true := by
  have proper := automaton.proper found
  obtain ⟨_, fromKernel, fromCalled⟩ := closed.startLookaheads_spec
    (lr.called state.kernel).toList (within_kernelWith complete.suit id state)
  have follow : ∀ lookahead, lr.follow item lookahead = some (nonterminal,
      if (lr.first.ofSteps rest).2 = true then (lr.first.ofSteps rest).1.union lookahead
      else (lr.first.ofSteps rest).1) := by
    intro lookahead
    simp only [LrGrammar.follow, here, called]
  have inside : (if (lr.first.ofSteps rest).2 = true then
      (lr.first.ofSteps rest).1.union (lr.lookaheadIn lookaheads id state item)
      else (lr.first.ofSteps rest).1).contains terminal = true := by
    rcases follows with first | ⟨nullable, own⟩
    · split <;> simp [first]
    · simp [nullable, own]
  rw [lookaheadIn_start _ _ proper numbered]
  rcases mem_items.1 member with old | ⟨caller, contained, start⟩
  · obtain ⟨place, here⟩ := List.mem_iff_getElem?.1 old
    refine fromKernel item _ ?_ nonterminal _ (follow _) terminal inside
    have row : place < (lookaheads.getD id []).length := by
      rw [complete.suit.length found]
      exact (List.getElem?_eq_some_iff.1 here).1
    refine List.mem_iff_getElem?.2 ⟨place, List.getElem?_zip_eq_some.2 ⟨here, ?_⟩⟩
    dsimp only
    rw [lookaheadIn_kernel complete.suit found proper here, lookaheadAt,
      List.getD_eq_getElem?_getD, List.getElem?_eq_getElem row, Option.getD_some]
  · obtain ⟨zero, other, foundItem⟩ := closed.numbered.mem_startItems.1 start
    have own := lookaheadIn_start lookaheads id proper foundItem
    rw [← zero] at own
    rw [show lr.lookaheadIn lookaheads id state item = _ from own] at inside
    exact fromCalled caller (BitSet.mem_toList.2 contained) item start nonterminal _ (follow _)
      terminal inside

theorem Complete.passes (complete : lr.Complete states lookaheads)
    (automaton : lr.Automaton states) (found : states[id]? = some state)
    (member : item ∈ lr.items state.kernel) (at_ : lr.symbolAt? item = some symbol)
    (transition : (symbol, target) ∈ state.transitions) (known : states[target]? = some next)
    {terminal : Nat}
    (follows : (lr.lookaheadIn lookaheads id state item).contains terminal = true) :
    (lr.lookaheadIn lookaheads target next item.next).contains terminal = true := by
  obtain ⟨other, known', kernel⟩ := automaton.target found transition
  cases known.symm.trans known'
  have there : item.next ∈ next.kernel := kernel ▸ mem_goto.2 ⟨item, member, at_, rfl⟩
  obtain ⟨place, here⟩ := List.mem_iff_getElem?.1 there
  rw [lookaheadIn_kernel complete.suit known (automaton.proper known) here]
  exact complete.passed found transition known here terminal follows

end LrGrammar

end IncrementalGlr
