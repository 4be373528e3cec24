import Mathlib.Data.List.Nodup
import IncrementalGlr.Lalr.Items
import IncrementalGlr.Proofs.Lalr.First

/-!
# Items of a state

Productions are numbered nonterminal by nonterminal. With its kernel, a state holds the start items
of all nonterminals that stand at the place of one of its items.
-/

namespace IncrementalGlr

theorem nodup_eraseDups {α : Type} [BEq α] [LawfulBEq α] (xs : List α) : xs.eraseDups.Nodup := by
  match xs with
  | [] => simp
  | x :: xs =>
    rw [List.eraseDups_cons, List.nodup_cons]
    refine ⟨?_, nodup_eraseDups _⟩
    simp [List.mem_eraseDups]
termination_by xs.length
decreasing_by exact Nat.lt_succ_of_le (List.length_filter_le ..)

namespace LrGrammar

structure Numbered (lr : LrGrammar) : Prop where
  mem_byNonterminal : ∀ nonterminal production, production ∈ lr.byNonterminal.getD nonterminal [] ↔
    ∃ flat, lr.productions[production]? = some (nonterminal, flat)
  nodup : ∀ nonterminal, (lr.byNonterminal.getD nonterminal []).Nodup
  mem_productionsOf : ∀ nonterminal flat, flat ∈ lr.grammar.productionsOf nonterminal ↔
    ∃ production : Nat, lr.productions[production]? = some (nonterminal, flat)

def withNonterminals (nonterminals : List Nonterminal) (first : Nat) :
    List (Nat × FlatProduction) :=
  (nonterminals.zipIdx first).flatMap fun (nonterminal, index) =>
    nonterminal.productions.map fun production => (index, production)

theorem mem_numberProductions {nonterminals : List Nonterminal} {count n p : Nat} (first : Nat) :
    p ∈ ((numberProductions count nonterminals)[n]?).getD [] ↔ count ≤ p ∧
      ∃ flat, (withNonterminals nonterminals first)[p - count]? = some (first + n, flat) := by
  induction nonterminals generalizing count first n with
  | nil => simp [numberProductions, withNonterminals]
  | cons nonterminal nonterminals ih =>
    have split : withNonterminals (nonterminal :: nonterminals) first
        = nonterminal.productions.map (first, ·) ++ withNonterminals nonterminals (first + 1) := by
      simp [withNonterminals, List.zipIdx_cons]
    have later : ∀ (k : Nat) (flat : FlatProduction),
        (withNonterminals nonterminals (first + 1))[k]? ≠ some (first, flat) := by
      intro k flat found
      have member := List.mem_of_getElem? found
      simp only [withNonterminals, List.mem_flatMap, List.mem_map, Prod.exists, Prod.mk.injEq]
        at member
      obtain ⟨_, index, numbered, _, _, rfl, _⟩ := member
      have := List.le_snd_of_mem_zipIdx numbered
      omega
    rw [numberProductions, split]
    by_cases own : p - count < nonterminal.productions.length
    · rw [List.getElem?_append_left (by simpa using own)]
      cases n with
      | zero =>
        simp only [List.getElem?_cons_zero, Option.getD_some, List.mem_range'_1]
        simp [own]
        omega
      | succ n =>
        rw [List.getElem?_cons_succ, ih (first + 1)]
        constructor
        · rintro ⟨_, _, _⟩
          omega
        · rintro ⟨_, flat, found⟩
          simp only [List.getElem?_map, Option.map_eq_some_iff, Prod.mk.injEq] at found
          obtain ⟨_, _, same, _⟩ := found
          omega
    · rw [List.getElem?_append_right (by simpa using own)]
      cases n with
      | zero =>
        simp only [List.getElem?_cons_zero, Option.getD_some, List.mem_range'_1]
        constructor
        · omega
        · rintro ⟨_, flat, found⟩
          exact absurd found (later _ _)
      | succ n =>
        rw [List.getElem?_cons_succ, ih (first + 1), List.length_map,
          show first + 1 + n = first + (n + 1) by omega,
          show p - (count + nonterminal.productions.length)
            = p - count - nonterminal.productions.length by omega]
        refine and_congr_left fun _ => ?_
        omega

theorem nodup_numberProductions {nonterminals : List Nonterminal} {count n : Nat} :
    (((numberProductions count nonterminals)[n]?).getD []).Nodup := by
  induction nonterminals generalizing count n with
  | nil => simp [numberProductions]
  | cons nonterminal nonterminals ih =>
    cases n with
    | zero => simpa [numberProductions] using List.nodup_range' ..
    | succ n => simpa [numberProductions] using ih

theorem numbered_ofGrammar (grammar : PreparedGrammar) : (ofGrammar grammar).Numbered := by
  have whole : (ofGrammar grammar).productions
      = (withNonterminals grammar.nonterminals.toList 0).toArray := rfl
  have lists : ∀ n, (ofGrammar grammar).byNonterminal.getD n []
      = ((numberProductions 0 grammar.nonterminals.toList)[n]?).getD [] := by
    simp [ofGrammar, Array.getD_eq_getD_getElem?]
  refine ⟨fun n p => ?_, fun n => ?_, fun n flat => ?_⟩
  · rw [lists, mem_numberProductions 0, whole]
    simp
  · rw [lists]
    exact nodup_numberProductions
  · rw [whole]
    simp only [List.getElem?_toArray, ← List.mem_iff_getElem?, withNonterminals, List.mem_flatMap,
      List.mem_map, Prod.exists, Prod.mk.injEq, List.mem_zipIdx_iff_getElem?, Array.getElem?_toList]
    show flat ∈ grammar.productionsOf n ↔ _
    cases found : grammar.nonterminals[n]? with
    | none => simp [PreparedGrammar.productionsOf, found]
    | some nonterminal => simp [PreparedGrammar.productionsOf, found]

variable {lr : LrGrammar} {item : Item} {items kernel : List Item} {symbol : Sym}

theorem rest_of_symbolAt? (h : lr.symbolAt? item = some symbol) :
    ∃ step, step.symbol = symbol ∧ lr.rest item = step :: lr.rest item.next := by
  simp only [symbolAt?, Option.map_eq_some_iff, List.head?_eq_some_iff] at h
  obtain ⟨step, ⟨rest, here⟩, rfl⟩ := h
  refine ⟨step, rfl, ?_⟩
  have next : lr.rest item.next = (lr.rest item).drop 1 := by
    simp [LrGrammar.rest, Item.next]
  rw [next, here, List.drop_one, List.tail_cons]

def call (lr : LrGrammar) (set : BitSet) (item : Item) : BitSet :=
  match lr.symbolAt? item with
  | some (.nonterminal index) => set.insert index
  | _ => set

theorem contains_calledBy {index : Nat} : (lr.calledBy items).contains index = true ↔
    ∃ item ∈ items, lr.symbolAt? item = some (.nonterminal index) := by
  suffices collected : ∀ set : BitSet,
      (items.foldl lr.call set).contains index = true ↔ set.contains index = true ∨
          ∃ item ∈ items, lr.symbolAt? item = some (.nonterminal index) by
    exact (collected BitSet.empty).trans (by simp)
  induction items with
  | nil => simp
  | cons item items ih =>
    intro set
    rw [List.foldl_cons, ih, call]
    split
    · next other found => simp [found, or_assoc]
    · next none =>
      have own : lr.symbolAt? item ≠ some (.nonterminal index) := fun found => none index found
      simp [own]

/-- The productions use symbols of the grammar only, and the first sets are complete. -/
structure Closed (lr : LrGrammar) : Prop where
  numbered : lr.Numbered
  wellFormed : lr.grammar.WellFormed
  fits : lr.first.Fits lr.grammar
  first : lr.first.Closed lr.grammar

theorem closed_ofGrammar {grammar : PreparedGrammar} (wellFormed : grammar.WellFormed) :
    (ofGrammar grammar).Closed :=
  ⟨numbered_ofGrammar grammar, wellFormed, (FirstSets.ofGrammar_spec wellFormed).1,
    (FirstSets.ofGrammar_spec wellFormed).2⟩

theorem Closed.has_step (closed : lr.Closed) (production : Nat) {step : Step}
    (member : step ∈ lr.stepsOf production) : lr.grammar.Has step.symbol := by
  rw [stepsOf] at member
  split at member
  · next nonterminal flat found =>
    exact closed.wellFormed.steps flat
      ((closed.numbered.mem_productionsOf nonterminal flat).2 ⟨production, found⟩) step member
  · rw [List.mem_singleton.1 member]
    exact closed.wellFormed.start

theorem Closed.has_symbolAt? (closed : lr.Closed) (h : lr.symbolAt? item = some symbol) :
    lr.grammar.Has symbol := by
  obtain ⟨step, rfl, here⟩ := rest_of_symbolAt? h
  have member : step ∈ lr.rest item := here ▸ List.mem_cons_self ..
  exact closed.has_step _ (List.mem_of_mem_drop member)

theorem Closed.within_calledBy (closed : lr.Closed) (items : List Item) :
    (lr.calledBy items).Within lr.grammar.nonterminals.size := by
  intro index member
  obtain ⟨item, _, found⟩ := contains_calledBy.1 member
  exact closed.has_symbolAt? found

theorem Closed.called_spec (closed : lr.Closed) (kernel : List Item) :
    (lr.called kernel).Within lr.grammar.nonterminals.size ∧
      (lr.called kernel).union
        (lr.calledBy ((lr.called kernel).toList.flatMap lr.startItems)) = lr.called kernel ∧
      ∀ index, (lr.calledBy kernel).contains index = true →
        (lr.called kernel).contains index = true := by
  have grows : (BitSet.below lr.grammar.nonterminals.size).Grows fun set =>
      set.union (lr.calledBy (set.toList.flatMap lr.startItems)) :=
    fun set valid => ⟨valid.union (closed.within_calledBy _), fun index member => by
      simp_all [BitSet.below]⟩
  exact grows.stabilize _ (by simp [BitSet.below]) (closed.within_calledBy kernel)

theorem Numbered.mem_startItems (numbered : lr.Numbered) {nonterminal : Nat} :
    item ∈ lr.startItems nonterminal ↔ item.dot = 0 ∧
      ∃ flat, lr.productions[item.production]? = some (nonterminal, flat) := by
  rw [← numbered.mem_byNonterminal, startItems, List.mem_map]
  constructor
  · rintro ⟨production, member, rfl⟩
    exact ⟨rfl, member⟩
  · rintro ⟨start, member⟩
    exact ⟨item.production, member, by rw [← start]⟩

theorem Numbered.called_le (numbered : lr.Numbered) {p : Nat → Prop}
    (first : ∀ item ∈ kernel, ∀ n, lr.symbolAt? item = some (.nonterminal n) → p n)
    (later : ∀ n production flat, p n → lr.productions[production]? = some (n, flat) →
      ∀ m, lr.symbolAt? ⟨production, 0⟩ = some (.nonterminal m) → p m) :
    ∀ n, (lr.called kernel).contains n = true → p n := by
  have calls : ∀ {items : List Item}, (∀ item ∈ items, ∀ n,
      lr.symbolAt? item = some (.nonterminal n) → p n) →
      ∀ n, (lr.calledBy items).contains n = true → p n := by
    intro items own n member
    obtain ⟨item, there, found⟩ := contains_calledBy.1 member
    exact own item there n found
  refine stabilize_keeps (p := fun set : BitSet => ∀ n, set.contains n = true → p n)
    (fun set known n member => ?_) (calls first)
  rw [BitSet.contains_union, Bool.or_eq_true] at member
  refine member.elim (known n) (calls (fun item there m found => ?_) n)
  obtain ⟨caller, called, start⟩ := List.mem_flatMap.1 there
  obtain ⟨zero, flat, numbered⟩ := numbered.mem_startItems.1 start
  refine later caller item.production flat (known caller (BitSet.mem_toList.1 called)) numbered m ?_
  rw [← found]
  exact congrArg lr.symbolAt? (by rw [← zero])

theorem mem_items : item ∈ lr.items kernel ↔ item ∈ kernel ∨
    ∃ nonterminal, (lr.called kernel).contains nonterminal = true ∧
      item ∈ lr.startItems nonterminal := by
  simp [LrGrammar.items]

theorem Closed.called_of_symbolAt? (closed : lr.Closed) {nonterminal : Nat}
    (member : item ∈ lr.items kernel)
    (found : lr.symbolAt? item = some (.nonterminal nonterminal)) :
    (lr.called kernel).contains nonterminal = true := by
  obtain ⟨_, fixed, above⟩ := closed.called_spec kernel
  rcases mem_items.1 member with old | ⟨caller, called, start⟩
  · exact above nonterminal (contains_calledBy.2 ⟨item, old, found⟩)
  · rw [← fixed, BitSet.contains_union, Bool.or_eq_true]
    refine .inr (contains_calledBy.2 ⟨item, List.mem_flatMap.2 ⟨caller, ?_, start⟩, found⟩)
    exact BitSet.mem_toList.2 called

theorem Closed.mem_items_start (closed : lr.Closed) {nonterminal production : Nat}
    {flat : FlatProduction} (member : item ∈ lr.items kernel)
    (found : lr.symbolAt? item = some (.nonterminal nonterminal))
    (numbered : lr.productions[production]? = some (nonterminal, flat)) :
    ⟨production, 0⟩ ∈ lr.items kernel :=
  mem_items.2 (.inr ⟨nonterminal, closed.called_of_symbolAt? member found,
    closed.numbered.mem_startItems.2 ⟨rfl, flat, numbered⟩⟩)

theorem mem_symbolsAt : symbol ∈ lr.symbolsAt items ↔
    ∃ item ∈ items, lr.symbolAt? item = some symbol := by
  simp [symbolsAt, List.mem_eraseDups]

theorem nodup_symbolsAt : (lr.symbolsAt items).Nodup := by
  rw [symbolsAt, (List.mergeSort_perm _ _).nodup_iff]
  exact nodup_eraseDups _

theorem mem_goto : item ∈ lr.goto items symbol ↔
    ∃ before ∈ items, lr.symbolAt? before = some symbol ∧ before.next = item := by
  simp [goto, and_assoc]

end LrGrammar

end IncrementalGlr
