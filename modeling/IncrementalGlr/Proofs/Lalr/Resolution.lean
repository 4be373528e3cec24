import IncrementalGlr.Lalr.Resolution
import IncrementalGlr.Proofs.Lalr.Lookahead

/-!
# What is in a cell

A cell never holds more than its state can do: it shifts along a transition, reduces a complete
item and accepts behind the start rule. Without precedences and associativities it holds all of it.
-/

namespace IncrementalGlr

namespace LrGrammar

variable {lr : LrGrammar} {id terminal : Nat} {state : LrState} {row : List BitSet}

theorem lookup_eq_some_iff_mem {α β : Type} [BEq α] [LawfulBEq α] {entries : List (α × β)}
    (nodup : (entries.map (·.1)).Nodup) {key : α} {value : β} :
    entries.lookup key = some value ↔ (key, value) ∈ entries := by
  induction entries with
  | nil => simp
  | cons entry entries ih =>
    rw [List.map_cons, List.nodup_cons] at nodup
    rw [List.lookup_cons]
    split
    · next same =>
      rw [eq_of_beq same]
      constructor
      · rintro ⟨⟩
        exact List.mem_cons_self ..
      · intro member
        rcases List.mem_cons.1 member with here | member
        · rw [← here]
        · exact absurd (List.mem_map_of_mem (f := fun x => x.1) member) nodup.1
    · next other =>
      rw [ih nodup.2, List.mem_cons, or_iff_right]
      rintro rfl
      simp at other

def reductions (lr : LrGrammar) (state : LrState) (row : List BitSet) (terminal : Nat) :
    List Nat :=
  ((lr.completeItems (kernelWith state row) (lr.called state.kernel).toList).filter
    fun (_, lookahead) => lookahead.contains terminal).map (·.1)

def shift? (state : LrState) (terminal : Nat) : Option Nat :=
  if terminal == 0 then none else state.transitions.lookup (.terminal (terminal - 1))

def cell (lr : LrGrammar) (state : LrState) (row : List BitSet) (terminal : Nat) :
    List LrAction :=
  (if terminal == 0 && state.kernel.contains ⟨lr.augmented, 1⟩ then [.accept] else []) ++
    lr.resolve state.kernel terminal (shift? state terminal) (lr.reductions state row terminal)

theorem actions_stateActions : (lr.stateActions id state row).actions =
    ((List.range (lr.grammar.terminals.size + 1)).map fun terminal =>
      (terminal, lr.cell state row terminal)).filter fun (_, actions) => !actions.isEmpty := by
  rw [stateActions]
  dsimp only
  rw [List.map_map]
  rfl

theorem conflicts_eq_nil (few : ∀ terminal, (lr.cell state row terminal).length ≤ 1) :
    (lr.stateActions id state row).conflicts = [] := by
  rw [stateActions]
  refine List.map_eq_nil_iff.2 (List.filter_eq_nil_iff.2 fun entry member => ?_)
  obtain ⟨terminal, _, rfl⟩ := List.mem_map.1 member
  have part := few terminal
  rw [cell, List.length_append] at part
  rw [decide_eq_true_iff]
  exact Nat.not_lt.2 ((Nat.le_add_left ..).trans part)

theorem lookup_cells (cells : List Nat) (f : Nat → List LrAction) (terminal : Nat) :
    (((cells.map fun terminal => (terminal, f terminal)).filter
      fun (_, actions) => !actions.isEmpty).lookup terminal).getD []
        = if terminal ∈ cells then f terminal else [] := by
  induction cells with
  | nil => simp
  | cons first cells ih =>
    rw [List.map_cons]
    by_cases same : terminal = first
    · subst same
      by_cases empty : f terminal = []
      · rw [List.filter_cons_of_neg (by simp [empty]), ih]
        simp [empty]
      · rw [List.filter_cons_of_pos (by simp [empty]), List.lookup_cons_self]
        simp
    · have other : (terminal == first) = false := beq_false_of_ne same
      by_cases empty : f first = []
      · rw [List.filter_cons_of_neg (by simp [empty]), ih]
        simp [same]
      · rw [List.filter_cons_of_pos (by simp [empty]), List.lookup_cons, other, ih]
        simp [same]

theorem lookup_actions : ((lr.stateActions id state row).actions.lookup terminal).getD []
    = if terminal < lr.grammar.terminals.size + 1 then lr.cell state row terminal else [] := by
  rw [actions_stateActions, lookup_cells]
  simp only [List.mem_range]

theorem nodup_actions : ((lr.stateActions id state row).actions.map (·.1)).Nodup := by
  rw [actions_stateActions]
  refine List.Nodup.sublist (List.filter_sublist.map _) ?_
  rw [List.map_map]
  exact (List.map_id _).symm ▸ List.nodup_range

theorem mem_reductions (length : row.length = state.kernel.length) {production : Nat} :
    production ∈ lr.reductions state row terminal ↔ production ≠ lr.augmented ∧
      ∃ item ∈ lr.items state.kernel, item.production = production ∧ lr.isComplete item = true ∧
        (lr.lookaheadOf (kernelWith state row)
          (lr.startLookaheads (kernelWith state row) (lr.called state.kernel).toList)
          item).contains terminal = true := by
  have kernel : (kernelWith state row).map (·.1) = state.kernel :=
    List.map_fst_zip (Nat.le_of_eq length.symm)
  simp only [reductions, completeItems, kernel, List.mem_map, List.mem_filter, List.mem_mergeSort,
    Prod.exists, Bool.and_eq_true, bne_iff_ne]
  constructor
  · rintro ⟨_, _, ⟨⟨item, ⟨there, complete, other⟩, same⟩, follows⟩, rfl⟩
    cases same
    exact ⟨other, item, there, rfl, complete, follows⟩
  · rintro ⟨other, item, there, rfl, complete, follows⟩
    exact ⟨_, _, ⟨⟨item, ⟨there, complete, other⟩, rfl⟩, follows⟩, rfl⟩

theorem length_reductions_le (length : row.length = state.kernel.length) :
    (lr.reductions state row terminal).length ≤ ((lr.items state.kernel).filter fun item =>
      lr.isComplete item && item.production != lr.augmented).length := by
  have kernel : (kernelWith state row).map (·.1) = state.kernel :=
    List.map_fst_zip (Nat.le_of_eq length.symm)
  rw [reductions, List.length_map]
  refine (List.length_filter_le ..).trans (Nat.le_of_eq ?_)
  rw [completeItems, List.length_mergeSort, List.length_map, kernel]
  rfl

theorem mem_of_mem_strongest {reduces : List Nat} {production : Nat}
    (member : production ∈ lr.strongest reduces) : production ∈ reduces :=
  (List.mem_filter.1 member).1

theorem of_mem_resolve {kernel : List Item} {shift : Option Nat} {reduces : List Nat}
    {action : LrAction} (member : action ∈ lr.resolve kernel terminal shift reduces) :
    (∃ target, shift = some target ∧ action = .shift target) ∨
      ∃ production ∈ reduces, action = .reduce production := by
  cases shift with
  | none =>
    obtain ⟨production, there, rfl⟩ := List.mem_map.1 member
    exact .inr ⟨production, mem_of_mem_strongest there, rfl⟩
  | some target =>
    simp only [resolve] at member
    rcases List.mem_append.1 member with member | member
    · split at member
      · contradiction
      · exact .inl ⟨target, rfl, List.mem_singleton.1 member⟩
    · obtain ⟨production, there, rfl⟩ := List.mem_map.1 member
      exact .inr ⟨production, mem_of_mem_strongest (List.mem_filter.1 there).1, rfl⟩

def shiftPrecedence? (lr : LrGrammar) (terminal : Nat) (item : Item) : Option Precedence :=
  match (lr.stepsOf item.production)[item.dot]? with
  | some next =>
    if item.dot > 0 && lr.first.startsWith next.symbol terminal then
      ((lr.stepsOf item.production)[item.dot - 1]?).map (·.precedence)
    else none
  | none => none

theorem shiftPrecedences_eq {kernel : List Item} {item : Item} {precedence : Precedence}
    (member : item ∈ kernel) (own : lr.shiftPrecedence? terminal item = some precedence) :
    lr.shiftPrecedences kernel terminal = kernel.filterMap (lr.shiftPrecedence? terminal) := by
  have whole : lr.shiftPrecedences kernel terminal
      = if (kernel.filterMap (lr.shiftPrecedence? terminal)).isEmpty then [.none]
        else kernel.filterMap (lr.shiftPrecedence? terminal) := rfl
  rw [whole, if_neg]
  rw [List.isEmpty_iff]
  exact List.ne_nil_of_mem (List.mem_filterMap.2 ⟨item, member, own⟩)

theorem compare_self (lr : LrGrammar) (precedence : Precedence) :
    lr.compare precedence precedence = .eq := by
  cases precedence with
  | none => rfl
  | integer value => exact Std.compare_eq_iff_eq.2 rfl
  | name level =>
    simp only [LrGrammar.compare, comparePrecedence]
    cases placeOfLevel? lr.grammar.precedences level with
    | none => rfl
    | some place => simp

theorem strongest_singleton (lr : LrGrammar) (production : Nat) :
    lr.strongest [production] = [production] := by
  simp [strongest, compare_self]

theorem resolve_nil (lr : LrGrammar) (kernel : List Item) (terminal : Nat) (shift : Option Nat) :
    lr.resolve kernel terminal shift [] = (shift.map LrAction.shift).toList := by
  cases shift <;> rfl

def Unranked (lr : LrGrammar) : Prop :=
  ∀ production, ∀ step ∈ lr.stepsOf production,
    step.precedence = .none ∧ step.associativity = none

theorem Closed.unranked (closed : lr.Closed) (unranked : lr.grammar.Unranked) : lr.Unranked := by
  intro production step member
  rw [stepsOf] at member
  split at member
  · next nonterminal flat found =>
    exact unranked.steps flat
      ((closed.numbered.mem_productionsOf nonterminal flat).2 ⟨production, found⟩) step member
  · rw [List.mem_singleton.1 member]
    exact ⟨rfl, rfl⟩

theorem compare_none (lr : LrGrammar) : lr.compare .none .none = .eq := rfl

theorem Unranked.reducePrecedence (unranked : lr.Unranked) (production : Nat) :
    lr.reducePrecedence production = (.none, none) := by
  rw [LrGrammar.reducePrecedence]
  split
  · next step last =>
    obtain ⟨precedence, associativity⟩ := unranked production step (List.mem_of_getLast? last)
    rw [precedence, associativity]
  · rfl

theorem Unranked.strongest (unranked : lr.Unranked) (reduces : List Nat) :
    lr.strongest reduces = reduces := by
  simp [LrGrammar.strongest, unranked.reducePrecedence, compare_none]

theorem Unranked.shiftPrecedences (unranked : lr.Unranked) (kernel : List Item)
    (terminal : Nat) :
    lr.shiftPrecedences kernel terminal ≠ [] ∧
      ∀ precedence ∈ lr.shiftPrecedences kernel terminal, precedence = .none := by
  rw [LrGrammar.shiftPrecedences]
  dsimp only
  split
  · simp
  · next found =>
    refine ⟨by simpa using found, fun precedence member => ?_⟩
    obtain ⟨item, _, here⟩ := List.mem_filterMap.1 member
    split at here
    · split at here
      · obtain ⟨step, before, rfl⟩ := Option.map_eq_some_iff.1 here
        exact (unranked _ step (List.mem_of_getElem? before)).1
      · contradiction
    · contradiction

theorem Unranked.verdict (unranked : lr.Unranked) (kernel : List Item) (production : Nat) :
    lr.verdict (lr.shiftPrecedences kernel terminal) production = .both := by
  obtain ⟨some, plain⟩ := unranked.shiftPrecedences kernel terminal
  have orders : ∀ order ∈ (lr.shiftPrecedences kernel terminal).map
      fun shift => lr.compare shift .none, order = .eq := by
    intro order member
    obtain ⟨precedence, there, rfl⟩ := List.mem_map.1 member
    rw [plain precedence there, compare_none]
  have some : (lr.shiftPrecedences kernel terminal).map
      (fun shift => lr.compare shift .none) ≠ [] := by simpa using some
  rw [LrGrammar.verdict, unranked.reducePrecedence]
  dsimp only
  generalize (lr.shiftPrecedences kernel terminal).map _ = found at orders some
  obtain ⟨first, found, rfl⟩ := List.exists_cons_of_ne_nil some
  have here := orders first (List.mem_cons_self ..)
  subst here
  simp

theorem Unranked.resolve (unranked : lr.Unranked) (kernel : List Item) (shift : Option Nat)
    (reduces : List Nat) : lr.resolve kernel terminal shift reduces
      = (shift.map LrAction.shift).toList ++ reduces.map .reduce := by
  have kept : (Verdict.both != Verdict.shiftOnly) = true := rfl
  cases shift <;> simp [LrGrammar.resolve, unranked.strongest, unranked.verdict, kept]

variable {states : Array LrState} {lookaheads : Lookaheads} {target production : Nat}

theorem isComplete_iff {item : Item} : lr.isComplete item = true ↔
    (lr.stepsOf item.production).length ≤ item.dot := by
  rw [isComplete, LrGrammar.rest, List.isEmpty_iff, List.drop_eq_nil_iff]

theorem Proper.dot_of_isComplete (proper : lr.Proper state.kernel) (numbered : lr.Numbered)
    {item : Item} (member : item ∈ lr.items state.kernel) (complete : lr.isComplete item = true) :
    item = ⟨item.production, (lr.stepsOf item.production).length⟩ := by
  have below := (LrGrammar.mem_allItems.1 (proper.mem_allItems numbered member)).2
  have above := isComplete_iff.1 complete
  cases item
  simp only [Item.mk.injEq, true_and]
  dsimp only at above below
  omega

theorem shift?_eq_some (nodup : (state.transitions.map (·.1)).Nodup) :
    shift? state terminal = some target ↔
      ∃ index, terminal = index + 1 ∧ (.terminal index, target) ∈ state.transitions := by
  cases terminal with
  | zero => simp [shift?]
  | succ index =>
    have inside : shift? state (index + 1) = state.transitions.lookup (.terminal index) := rfl
    rw [inside, lookup_eq_some_iff_mem nodup]
    simp

inductive Justified (lr : LrGrammar) (state : LrState) (terminal : Nat) : LrAction → Prop
  | shift {index target : Nat} (number : terminal = index + 1)
      (transition : (.terminal index, target) ∈ state.transitions) :
      Justified lr state terminal (.shift target)
  | reduce {production : Nat} (known : production < lr.productions.size)
      (complete : ⟨production, (lr.stepsOf production).length⟩ ∈ lr.items state.kernel) :
      Justified lr state terminal (.reduce production)
  | accept (atEnd : terminal = 0) (start : ⟨lr.augmented, 1⟩ ∈ state.kernel) :
      Justified lr state terminal .accept

theorem justified_of_mem_cell (numbered : lr.Numbered) (proper : lr.Proper state.kernel)
    (length : row.length = state.kernel.length) (nodup : (state.transitions.map (·.1)).Nodup)
    {action : LrAction} (member : action ∈ lr.cell state row terminal) :
    lr.Justified state terminal action := by
  rcases List.mem_append.1 member with member | member
  · split at member
    · next here =>
      rw [List.mem_singleton.1 member]
      simp only [Bool.and_eq_true, beq_iff_eq, List.contains_iff_mem] at here
      exact .accept here.1 here.2
    · contradiction
  · rcases of_mem_resolve member with ⟨target, here, rfl⟩ | ⟨production, there, rfl⟩
    · obtain ⟨index, number, transition⟩ := (shift?_eq_some nodup).1 here
      exact .shift number transition
    · obtain ⟨other, item, inside, rfl, complete, _⟩ := (mem_reductions length).1 there
      have known := (LrGrammar.mem_allItems.1 (proper.mem_allItems numbered inside)).1
      refine .reduce (Nat.lt_of_le_of_ne known other) ?_
      rw [← proper.dot_of_isComplete numbered inside complete]
      exact inside

theorem Unranked.shift_mem_cell (unranked : lr.Unranked)
    (nodup : (state.transitions.map (·.1)).Nodup) {index : Nat}
    (transition : (.terminal index, target) ∈ state.transitions) :
    .shift target ∈ lr.cell state row (index + 1) := by
  refine List.mem_append_right _ ?_
  rw [unranked.resolve, (shift?_eq_some nodup).2 ⟨index, rfl, transition⟩]
  simp

theorem Unranked.reduce_mem_cell (unranked : lr.Unranked)
    (length : row.length = state.kernel.length)
    (known : production < lr.productions.size)
    (complete : ⟨production, (lr.stepsOf production).length⟩ ∈ lr.items state.kernel)
    (follows : (lr.lookaheadOf (kernelWith state row)
      (lr.startLookaheads (kernelWith state row) (lr.called state.kernel).toList)
      ⟨production, (lr.stepsOf production).length⟩).contains terminal = true) :
    .reduce production ∈ lr.cell state row terminal := by
  refine List.mem_append_right _ ?_
  rw [unranked.resolve]
  refine List.mem_append_right _ (List.mem_map.2 ⟨production, ?_, rfl⟩)
  exact (mem_reductions length).2 ⟨Nat.ne_of_lt known, _, complete, rfl,
    isComplete_iff.2 (Nat.le_refl _), follows⟩

theorem accept_mem_cell (start : ⟨lr.augmented, 1⟩ ∈ state.kernel) :
    .accept ∈ lr.cell state row 0 := by
  refine List.mem_append_left _ ?_
  simp [start]

end LrGrammar

end IncrementalGlr
