import IncrementalGlr.Proofs.Table.Bounds
import IncrementalGlr.Tree.Subtree
import IncrementalGlr.Lexer.Basic

/-!
# Look-ups stay inside

Each function that follows numbers of a table without testing them is written here a second time, so
that it gives up with `none` where a look-up falls outside. In a table that passed its checks none
of them gives up, whatever it is asked for. Where a function tests a number before it follows it,
both forms do.
-/

namespace IncrementalGlr

def partitionPointInside? {α : Type} (xs : Array α) (p : α → Bool) : Option Nat :=
  go 0 xs.size
where
  go (low high : Nat) : Option Nat :=
    if _h : low < high then
      let middle := (low + high) / 2
      match xs[middle]? with
      | some x => if p x then go (middle + 1) high else go low middle
      | none => none
    else some low
  termination_by high - low

section Bisection

variable {α : Type} {xs : Array α} {p : α → Bool}

theorem partitionPoint_go_inside {low high : Nat} (inside : high ≤ xs.size) :
    partitionPointInside?.go xs p low high = some (partitionPoint.go xs p low high) := by
  fun_induction partitionPoint.go xs p low high with
  | case1 low high less middle x found holds ih =>
    rw [partitionPointInside?.go]
    simp only [less, dite_true, middle] at found ih ⊢
    simpa only [found, holds, if_true] using ih inside
  | case2 low high less middle x found fails ih =>
    have same := ih (by omega)
    rw [partitionPointInside?.go]
    simp only [less, dite_true, middle] at found same ⊢
    simp only [found, fails]
    exact same
  | case3 low high less middle missing =>
    have outside := Array.getElem?_eq_none_iff.1 missing
    omega
  | case4 low high done =>
    rw [partitionPointInside?.go]
    simp only [done, dite_false]

theorem partitionPointInside?_eq : partitionPointInside? xs p = some (partitionPoint xs p) :=
  partitionPoint_go_inside (Nat.le_refl _)

theorem partitionPoint_spec
    (first : ∀ (i j : Nat) (x y : α), i ≤ j → xs[i]? = some x → xs[j]? = some y → p y = true →
      p x = true) {i : Nat} {x : α} (found : xs[i]? = some x) :
    p x = true ↔ i < partitionPoint xs p := by
  have bisects : ∀ low high, high ≤ xs.size →
      (∀ (j : Nat) (y : α), xs[j]? = some y → j < low → p y = true) →
      (∀ (j : Nat) (y : α), xs[j]? = some y → high ≤ j → ¬p y = true) →
      (p x = true ↔ i < partitionPoint.go xs p low high) := by
    intro low high inside before behind
    fun_induction partitionPoint.go xs p low high with
    | case1 low high less middle y here holds ih =>
      refine ih inside (fun j z there below => ?_) behind
      exact first j middle z y (Nat.le_of_lt_succ below) there here holds
    | case2 low high less middle y here fails ih =>
      refine ih (by omega) before fun j z there beyond holds => fails ?_
      exact first middle j y z beyond here there holds
    | case3 low high less middle missing =>
      have outside := Array.getElem?_eq_none_iff.1 missing
      omega
    | case4 low high done =>
      refine ⟨fun holds => Nat.lt_of_not_le fun le => ?_, before i x found⟩
      exact behind i x found (Nat.le_trans (Nat.le_of_not_lt done) le) holds
  refine bisects 0 xs.size (Nat.le_refl _) (fun _ _ _ below => absurd below (Nat.not_lt_zero _)) ?_
  exact fun j y there beyond => absurd (Array.getElem?_eq_some_iff.1 there).1 (Nat.not_lt.2 beyond)

end Bisection

/-- `LexState.next?`, giving up outside of the transitions. The place that bisection finds may be
the end of the transitions and is tested. -/
def LexState.nextInside? (state : LexState) (c : Char) : Option (Option UInt32) :=
  (partitionPointInside? state.transitions fun t => t.high < c.val).map fun place =>
    match state.transitions[place]? with
    | some t => if t.low ≤ c.val then some t.target else none
    | none => none

theorem LexState.nextInside?_eq (state : LexState) (c : Char) :
    state.nextInside? c = some (state.next? c) := by
  rw [nextInside?, partitionPointInside?_eq]
  rfl

theorem LexState.mem_of_next? {state : LexState} {c : Char} {target : UInt32}
    (h : state.next? c = some target) : ∃ t ∈ state.transitions, t.target = target := by
  unfold next? at h
  split at h
  · next t found =>
      split at h
      · exact ⟨t, Array.mem_of_getElem? found, Option.some.inj h⟩
      · contradiction
  · contradiction

namespace Table

variable {table : Table}

theorem cell_lt {row column rows columns : Nat} (inRows : row < rows)
    (inColumns : column < columns) : row * columns + column < rows * columns := by
  have below : (row + 1) * columns ≤ rows * columns := Nat.mul_le_mul_right _ inRows
  rw [Nat.succ_mul] at below
  omega

def actionsInside? (table : Table) (state : StateId) (terminal : SymbolId) :
    Option (List Action) :=
  if table.isTerminal terminal && state.index < table.stateCount.toNat then do
    let cell := state.index * table.terminalCount.toNat + terminal.index
    let list ← table.actionIndex[cell]?
    table.actionLists[list.toNat]?
  else some []

def gotoInside? (table : Table) (state : StateId) (rule : SymbolId) : Option (Option StateId) :=
  if table.isRule rule && state.index < table.stateCount.toNat then
    let cell := state.index * table.ruleCount.toNat + (rule.index - table.terminalCount.toNat)
    table.gotos[cell]?.map fun target => if target.isNone then none else some target
  else some none

namespace Bounded

variable {state : StateId} {symbol : SymbolId}

theorem actions_eq (h : table.Bounded)
    (inside : (table.isTerminal symbol && state.index < table.stateCount.toNat) = true) :
    ∃ list actions,
      table.actionIndex[state.index * table.terminalCount.toNat + symbol.index]? = some list ∧
        table.actionLists[list.toNat]? = some actions ∧ table.actions state symbol = actions := by
  obtain ⟨column, row⟩ := Bool.and_eq_true_iff.1 inside
  have cell : state.index * table.terminalCount.toNat + symbol.index < table.actionIndex.size := by
    rw [h.actionCells]
    exact cell_lt (of_decide_eq_true row) (of_decide_eq_true column)
  have known := h.lists _ (Array.getElem_mem cell)
  refine ⟨_, _, Array.getElem?_eq_getElem cell, Array.getElem?_eq_getElem known, ?_⟩
  rw [actions, if_pos inside]
  simp [Array.getD_eq_getD_getElem?, cell, known]

theorem actionsInside?_eq (h : table.Bounded) :
    table.actionsInside? state symbol = some (table.actions state symbol) := by
  unfold actionsInside?
  split
  · next inside =>
      obtain ⟨list, actions, found, known, same⟩ := h.actions_eq inside
      rw [same]
      simp [found, known]
  · next outside => rw [actions, if_neg outside]

theorem checked_of_mem (h : table.Bounded) {action : Action}
    (member : action ∈ table.actions state symbol) :
    ∃ list, table.checkAction list action = .ok () := by
  by_cases inside : (table.isTerminal symbol && state.index < table.stateCount.toNat) = true
  · obtain ⟨_, actions, _, known, same⟩ := h.actions_eq inside
    rw [same] at member
    exact h.checked actions (Array.mem_of_getElem? known) action member
  · rw [Table.actions, if_neg inside] at member
    contradiction

theorem shift_lt (h : table.Bounded) {next : StateId}
    (member : .shift next ∈ table.actions state symbol) :
    next.index < table.stateCount.toNat := by
  obtain ⟨_, checked⟩ := h.checked_of_mem member
  exact of_decide_eq_true (ensure_ok checked)

theorem production_of_reduce (h : table.Bounded) {rule : SymbolId} {childCount : UInt16}
    {precedence : Int16} {production : ProductionId}
    (member : .reduce rule childCount precedence production ∈ table.actions state symbol) :
    ∃ p, table.productions[production.index]? = some p ∧ p.lhs = rule ∧
      p.steps.length = childCount.toNat := by
  obtain ⟨_, checked⟩ := h.checked_of_mem member
  have fits := ensure_ok checked
  split at fits
  · next p found =>
      obtain ⟨lhs, length⟩ := Bool.and_eq_true_iff.1 fits
      exact ⟨p, found, eq_of_beq lhs, eq_of_beq length⟩
  · contradiction

theorem goto_eq (h : table.Bounded)
    (inside : (table.isRule symbol && state.index < table.stateCount.toNat) = true) :
    ∃ target,
      table.gotos[state.index * table.ruleCount.toNat
        + (symbol.index - table.terminalCount.toNat)]? = some target ∧
      table.goto? state symbol = if target.isNone then none else some target := by
  obtain ⟨rule, row⟩ := Bool.and_eq_true_iff.1 inside
  have column : symbol.index - table.terminalCount.toNat < table.ruleCount.toNat := by
    simp only [isRule, isTerminal, Bool.and_eq_true, Bool.not_eq_true', decide_eq_false_iff_not,
      decide_eq_true_eq] at rule
    omega
  have cell : state.index * table.ruleCount.toNat + (symbol.index - table.terminalCount.toNat)
      < table.gotos.size := by
    rw [h.gotoCells]
    exact cell_lt (of_decide_eq_true row) column
  refine ⟨_, Array.getElem?_eq_getElem cell, ?_⟩
  rw [goto?, if_pos inside]
  simp [Array.getD_eq_getD_getElem?, cell]

theorem gotoInside?_eq (h : table.Bounded) :
    table.gotoInside? state symbol = some (table.goto? state symbol) := by
  unfold gotoInside?
  split
  · next inside =>
      obtain ⟨target, found, same⟩ := h.goto_eq inside
      rw [same]
      simp only [found, Option.map_some]
  · next outside => rw [goto?, if_neg outside]

theorem goto_lt (h : table.Bounded) {next : StateId} (found : table.goto? state symbol = some next) :
    next.index < table.stateCount.toNat := by
  by_cases inside : (table.isRule symbol && state.index < table.stateCount.toNat) = true
  · obtain ⟨target, there, same⟩ := h.goto_eq inside
    rw [same] at found
    split at found
    · contradiction
    · next present =>
        cases found
        exact (h.targets next (Array.mem_of_getElem? there)).resolve_left present
  · rw [goto?, if_neg inside] at found
    contradiction

theorem step_lt (h : table.Bounded) {production : ProductionId} {step : ProductionStep}
    (member : step ∈ table.stepsOf symbol production) :
    (∀ name ∈ step.aliasSymbol, name.index < table.symbols.size) ∧
      ∀ field ∈ step.field, field.index < table.fieldNames.size := by
  unfold stepsOf at member
  split at member
  · next p found =>
      split at member
      · exact h.steps p (Array.mem_of_getElem? found) step member
      · contradiction
  · contradiction

end Bounded

def walkInside? (table : Table) (wanted : SymbolId → Bool) (state : UInt32) (cursor : Cursor)
    (best : Option Match) : Option (Option Match × Nat) :=
  match h : cursor.lookahead with
  | none => some (best, cursor.offset + 1)
  | some c => do
    let here ← table.lexStates[state.toNat]?
    match ← here.nextInside? c with
    | none => some (best, cursor.offset + 1)
    | some next =>
      let there ← table.lexStates[next.toNat]?
      let best := match there.accepts.find? wanted with
        | some symbol => some ⟨symbol, cursor.advance.position⟩
        | none => best
      table.walkInside? wanted next cursor.advance best
termination_by cursor.source.size - cursor.offset
decreasing_by exact Cursor.remaining_advance_lt (Cursor.offset_lt_size_of_lookahead h)

def longestMatchInside? (table : Table) (wanted : SymbolId → Bool) (cursor : Cursor) :
    Option (Option Match × Nat) :=
  table.walkInside? wanted table.lexStart cursor none

theorem lexState_eq {id : UInt32} (inside : id.toNat < table.lexStates.size) :
    table.lexStates[id.toNat]? = some (table.lexState id) := by
  simp [lexState, Array.getD_eq_getD_getElem?, inside]

theorem Bounded.next_lt (h : table.Bounded) {state next : UInt32} {c : Char}
    (inside : state.toNat < table.lexStates.size)
    (goes : (table.lexState state).next? c = some next) : next.toNat < table.lexStates.size := by
  obtain ⟨transition, member, rfl⟩ := LexState.mem_of_next? goes
  exact h.lexTargets _ (Array.mem_of_getElem? (lexState_eq inside)) transition member

theorem Bounded.walkInside?_eq (h : table.Bounded) {wanted : SymbolId → Bool} {state : UInt32}
    {cursor : Cursor} {best : Option Match} (inside : state.toNat < table.lexStates.size) :
    table.walkInside? wanted state cursor best = some (table.walk wanted state cursor best) := by
  fun_induction table.walk wanted state cursor best with
  | case1 state cursor best atEnd =>
    unfold walkInside?
    split
    · rfl
    · next found => cases atEnd.symm.trans found
  | case2 state cursor best c here stops =>
    unfold walkInside?
    split
    · next atEnd => cases here.symm.trans atEnd
    · next found =>
        cases here.symm.trans found
        simp [lexState_eq inside, LexState.nextInside?_eq, stops]
  | case3 state cursor best c here next goes best' ih =>
    have known := h.next_lt inside goes
    unfold walkInside?
    split
    · next atEnd => cases here.symm.trans atEnd
    · next found =>
        cases here.symm.trans found
        rw [lexState_eq inside]
        simp only [Option.bind_eq_bind, Option.bind_some, LexState.nextInside?_eq, goes,
          lexState_eq known]
        exact ih known

theorem Bounded.longestMatchInside?_eq (h : table.Bounded) {wanted : SymbolId → Bool}
    {cursor : Cursor} :
    table.longestMatchInside? wanted cursor = some (table.longestMatch wanted cursor) :=
  h.walkInside?_eq h.lexStart

end Table

end IncrementalGlr
