import IncrementalGlr.Proofs.Table.Consistency

/-!
# Bounds of checked tables

A parser and a lexer look things up in a table without asking whether they are there. The checks of
a table are enough for that: the matrices have the sizes that their cells are computed for, and
what stands in them is the number of something.
-/

namespace IncrementalGlr

structure Table.Bounded (table : Table) : Prop where
  terminals : 1 ≤ table.terminalCount.toNat
  symbols : table.terminalCount.toNat + table.ruleCount.toNat ≤ table.symbols.size
  extras : ∀ symbol ∈ table.extras, table.isToken symbol = true
  externals : ∀ symbol ∈ table.externalTokens, table.isToken symbol = true
  steps : ∀ production ∈ table.productions, ∀ step ∈ production.steps,
    (∀ symbol ∈ step.aliasSymbol, symbol.index < table.symbols.size) ∧
      ∀ field ∈ step.field, field.index < table.fieldNames.size
  states : 1 ≤ table.stateCount.toNat
  actionCells : table.actionIndex.size = table.stateCount.toNat * table.terminalCount.toNat
  gotoCells : table.gotos.size = table.stateCount.toNat * table.ruleCount.toNat
  extrasFlags : table.allowsExtras.size = table.stateCount.toNat
  lists : ∀ list ∈ table.actionIndex, list.toNat < table.actionLists.size
  checked : ∀ actions ∈ table.actionLists, ∀ action ∈ actions, ∃ list,
    table.checkAction list action = .ok ()
  targets : ∀ target ∈ table.gotos,
    target.isNone = true ∨ target.index < table.stateCount.toNat
  lexStart : table.lexStart.toNat < table.lexStates.size
  lexTargets : ∀ state ∈ table.lexStates, ∀ transition ∈ state.transitions,
    transition.target.toNat < table.lexStates.size

namespace Table

variable {table : Table}

theorem mem_zipIdx_of_mem {α : Type} {xs : Array α} {x : α} (member : x ∈ xs) :
    ∃ id, (x, id) ∈ xs.toList.zipIdx := by
  obtain ⟨id, found⟩ := Array.getElem?_of_mem member
  exact ⟨id, by simpa [List.mem_zipIdx_iff_getElem?] using found⟩

theorem symbols_of_check (h : table.checkSymbols = .ok ()) :
    table.terminalCount.toNat + table.ruleCount.toNat ≤ table.symbols.size ∧
      ∀ symbol ∈ table.extras, table.isToken symbol = true := by
  unfold checkSymbols at h
  obtain ⟨_, _, h⟩ := bind_ok h
  obtain ⟨_, _, h⟩ := bind_ok h
  obtain ⟨_, counted, h⟩ := bind_ok h
  obtain ⟨_, _, h⟩ := bind_ok h
  obtain ⟨_, _, h⟩ := bind_ok h
  dsimp only at h
  split at h
  · contradiction
  · split at h
    · contradiction
    · obtain ⟨_, extras, _⟩ := bind_ok h
      exact ⟨of_decide_eq_true (ensure_ok counted),
        fun symbol member => ensure_ok (each_ok _ extras symbol member)⟩

theorem steps_of_check (h : table.checkProductions = .ok ()) :
    ∀ production ∈ table.productions, ∀ step ∈ production.steps,
      (∀ symbol ∈ step.aliasSymbol, symbol.index < table.symbols.size) ∧
        ∀ field ∈ step.field, field.index < table.fieldNames.size := by
  unfold checkProductions at h
  obtain ⟨_, _, h⟩ := bind_ok h
  intro production member step inside
  obtain ⟨id, numbered⟩ := mem_zipIdx_of_mem member
  obtain ⟨_, productions, _⟩ := bind_ok h
  obtain ⟨_, _, passed⟩ := bind_ok (each_ok
    (fun (x : Production × Nat) => do
      ensure (table.isRule x.1.lhs) (.productionOfNonRule x.2 x.1.lhs)
      for step in x.1.steps do
        for symbol in step.aliasSymbol.toList do
          ensure (symbol.index < table.symbols.size && symbol != SymbolId.endOfInput)
            (.unknownAlias x.2 symbol)
        for field in step.field.toList do
          ensure (field.index < table.fieldNames.size) (.unknownField x.2 field))
    (by simpa only [bind_assoc, pure_bind] using productions) _ numbered)
  obtain ⟨_, steps, _⟩ := bind_ok passed
  obtain ⟨_, aliases, fields⟩ := bind_ok (each_ok
    (fun (step : ProductionStep) => do
      for symbol in step.aliasSymbol.toList do
        ensure (symbol.index < table.symbols.size && symbol != SymbolId.endOfInput)
          (.unknownAlias id symbol)
      for field in step.field.toList do
        ensure (field.index < table.fieldNames.size) (.unknownField id field))
    (by simpa only [bind_assoc, pure_bind] using steps) _ inside)
  obtain ⟨_, fields, _⟩ := bind_ok fields
  refine ⟨fun symbol here => ?_, fun field here => ?_⟩
  · have known := ensure_ok (each_ok _ aliases symbol (Option.mem_toList.2 here))
    exact of_decide_eq_true (Bool.and_eq_true_iff.1 known).1
  · exact of_decide_eq_true (ensure_ok (each_ok _ fields field (Option.mem_toList.2 here)))

theorem matrices_of_check (h : table.checkParseTable = .ok ()) :
    1 ≤ table.stateCount.toNat ∧
      table.actionIndex.size = table.stateCount.toNat * table.terminalCount.toNat ∧
      table.gotos.size = table.stateCount.toNat * table.ruleCount.toNat ∧
      table.allowsExtras.size = table.stateCount.toNat ∧
      (∀ list ∈ table.actionIndex, list.toNat < table.actionLists.size) ∧
      (∀ actions ∈ table.actionLists, ∀ action ∈ actions, ∃ list,
        table.checkAction list action = .ok ()) ∧
      ∀ target ∈ table.gotos, target.isNone = true ∨ target.index < table.stateCount.toNat := by
  unfold checkParseTable at h
  obtain ⟨_, states, h⟩ := bind_ok h
  obtain ⟨_, _, h⟩ := bind_ok h
  obtain ⟨_, actionCells, h⟩ := bind_ok h
  obtain ⟨_, gotoCells, h⟩ := bind_ok h
  obtain ⟨_, flags, h⟩ := bind_ok h
  obtain ⟨_, _, h⟩ := bind_ok h
  obtain ⟨_, cells, h⟩ := bind_ok h
  obtain ⟨_, lists, h⟩ := bind_ok h
  obtain ⟨_, _, h⟩ := bind_ok h
  obtain ⟨_, gotos, _⟩ := bind_ok h
  refine ⟨of_decide_eq_true (ensure_ok states), eq_of_beq (ensure_ok actionCells),
    eq_of_beq (ensure_ok gotoCells), eq_of_beq (ensure_ok flags), ?_, ?_, ?_⟩
  · intro list member
    obtain ⟨cell, numbered⟩ := mem_zipIdx_of_mem member
    obtain ⟨_, known, _⟩ := bind_ok (each_ok
      (fun (x : UInt16 × Nat) => do
        ensure (x.1.toNat < table.actionLists.size)
          (.missingActionList (x.2 / table.terminalCount.toNat) (x.2 % table.terminalCount.toNat)
            x.1.toNat)
        ensure (x.2 % table.terminalCount.toNat == 0
            || !(table.actionLists.getD x.1.toNat []).any (·.isAccept))
          (.misplacedAccept (x.2 / table.terminalCount.toNat)))
      (by simpa only [bind_assoc] using cells) _ numbered)
    exact of_decide_eq_true (ensure_ok known)
  · intro actions member action inside
    obtain ⟨list, numbered⟩ := mem_zipIdx_of_mem member
    have passed := each_ok
      (fun (x : List Action × Nat) => do
        for action in x.1 do
          table.checkAction x.2 action)
      (by simpa only [bind_assoc, pure_bind] using lists) _ numbered
    obtain ⟨_, each, _⟩ := bind_ok passed
    exact ⟨list, each_ok _ each action inside⟩
  · intro target member
    obtain ⟨cell, numbered⟩ := mem_zipIdx_of_mem member
    have known := ensure_ok (each_ok
      (fun (x : StateId × Nat) =>
        ensure (x.1.isNone || x.1.index < table.stateCount.toNat)
          (.gotoTarget (x.2 / max table.ruleCount.toNat 1) x.1))
      (by simpa only [bind_assoc] using gotos) _ numbered)
    simpa using known

theorem target_of_checkTransitions {id : Nat} {transitions : List LexTransition}
    {previous : Option UInt32} (h : table.checkTransitions id transitions previous = .ok ()) :
    ∀ transition ∈ transitions, transition.target.toNat < table.lexStates.size := by
  induction transitions generalizing previous with
  | nil => simp
  | cons first rest ih =>
    obtain ⟨_, _, h⟩ := bind_ok h
    obtain ⟨_, _, h⟩ := bind_ok h
    obtain ⟨_, known, h⟩ := bind_ok h
    intro transition member
    rcases List.mem_cons.1 member with rfl | member
    · exact of_decide_eq_true (ensure_ok known)
    · exact ih h transition member

theorem lexTargets_of_check (h : table.checkLexTable = .ok ()) :
    table.lexStart.toNat < table.lexStates.size ∧
      ∀ state ∈ table.lexStates, ∀ transition ∈ state.transitions,
        transition.target.toNat < table.lexStates.size := by
  unfold checkLexTable at h
  obtain ⟨_, start, h⟩ := bind_ok h
  obtain ⟨_, states, _⟩ := bind_ok h
  refine ⟨of_decide_eq_true (ensure_ok start), fun state member transition inside => ?_⟩
  obtain ⟨id, numbered⟩ := mem_zipIdx_of_mem member
  obtain ⟨_, passed, _⟩ := bind_ok (each_ok
    (fun (x : LexState × Nat) => do
      table.checkTransitions x.2 x.1.transitions.toList none
      for symbol in x.1.accepts do
        ensure (table.isToken symbol) (.lexAccept x.2 symbol))
    (by simpa only [bind_assoc, pure_bind] using states) _ numbered)
  exact target_of_checkTransitions passed transition (Array.mem_toList_iff.2 inside)

theorem bounded_of_check (h : table.check = .ok ()) : table.Bounded := by
  have consistent := consistent_of_check h
  unfold check at h
  obtain ⟨_, symbols, h⟩ := bind_ok h
  obtain ⟨_, productions, h⟩ := bind_ok h
  obtain ⟨_, parse, lex⟩ := bind_ok h
  obtain ⟨symbols, extras⟩ := symbols_of_check symbols
  obtain ⟨states, actionCells, gotoCells, flags, lists, actions, targets⟩ := matrices_of_check parse
  obtain ⟨lexStart, lexTargets⟩ := lexTargets_of_check lex
  exact ⟨consistent.terminals, symbols, extras, consistent.externals, steps_of_check productions,
    states, actionCells, gotoCells, flags, lists, actions, targets, lexStart, lexTargets⟩

end Table

end IncrementalGlr
