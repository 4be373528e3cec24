import IncrementalGlr.Grammar.Compilation
import IncrementalGlr.Proofs.Lalr.Resolution
import IncrementalGlr.Proofs.Table.Consistency

/-!
# Tables of automata

The matrices of a compiled table hold what the automaton does: in a cell the actions of the state on
the terminal, and behind a nonterminal the state that follows.
-/

namespace IncrementalGlr

theorem mapM_ok {ε α β : Type} {f : α → Except ε β} {xs : List α} {ys : List β}
    (h : xs.mapM f = .ok ys) : xs.length = ys.length ∧
      ∀ (i : Nat) (x : α), xs[i]? = some x → ∃ y, ys[i]? = some y ∧ f x = .ok y := by
  induction xs generalizing ys with
  | nil =>
    cases h
    simp
  | cons x xs ih =>
    rw [List.mapM_cons] at h
    obtain ⟨y, first, h⟩ := bind_ok h
    obtain ⟨others, rest, h⟩ := bind_ok h
    cases h
    obtain ⟨length, each⟩ := ih rest
    refine ⟨by simp [length], fun i found there => ?_⟩
    cases i with
    | zero =>
      cases there
      exact ⟨y, rfl, first⟩
    | succ i => exact each i found there

theorem checkSize_ok {part : TablePart} {count : Nat} {size : UInt16}
    (h : checkSize part count = .ok size) : count < 0xFFFF ∧ size = UInt16.ofNat count := by
  unfold checkSize at h
  split at h
  · cases h
    exact ⟨‹_›, rfl⟩
  · contradiction

theorem toNat_ofNat {n : Nat} (h : n < 0xFFFF) : (UInt16.ofNat n).toNat = n :=
  UInt16.toNat_ofNat_of_lt' (Nat.lt_of_lt_of_le h (by decide))

def LrAction.lower (productions : Array Production) : LrAction → Action
  | shift target => .shift (StateId.ofNat target)
  | reduce id =>
    .reduce (productions.getD id default).lhs
      (UInt16.ofNat (productions.getD id default).steps.length)
      (productions.getD id default).dynamicPrecedence (ProductionId.ofNat id)
  | accept => .accept

def LrAction.Fits (productions : Array Production) : LrAction → Prop
  | shift target => target < 0xFFFF
  | reduce id => id < 0xFFFF ∧ (productions.getD id default).steps.length < 0xFFFF
  | accept => True

namespace PreparedGrammar

variable {grammar : PreparedGrammar} {productions : Array Production}

theorem tableAction_ok {action : LrAction} {lowered : Action}
    (h : tableAction productions action = .ok lowered) :
    lowered = action.lower productions ∧ action.Fits productions := by
  cases action with
  | shift target =>
    obtain ⟨size, checked, h⟩ := bind_ok h
    obtain ⟨bound, rfl⟩ := checkSize_ok checked
    cases h
    exact ⟨rfl, bound⟩
  | reduce id =>
    obtain ⟨count, checked, h⟩ := bind_ok h
    obtain ⟨bound, rfl⟩ := checkSize_ok checked
    obtain ⟨number, checked, h⟩ := bind_ok h
    obtain ⟨bound', rfl⟩ := checkSize_ok checked
    cases h
    exact ⟨rfl, bound', bound⟩
  | accept =>
    cases h
    exact ⟨rfl, trivial⟩

theorem tableActions_ok {actions : List LrAction} {lowered : List Action}
    (h : actions.mapM (tableAction productions) = .ok lowered) :
    lowered = actions.map (LrAction.lower productions) ∧
      ∀ action ∈ actions, action.Fits productions := by
  obtain ⟨length, each⟩ := mapM_ok h
  constructor
  · refine List.ext_getElem? fun i => ?_
    rw [List.getElem?_map]
    cases found : actions[i]? with
    | none =>
      rw [List.getElem?_eq_none_iff, length] at found
      rw [List.getElem?_eq_none_iff.2 found]
      rfl
    | some action =>
      obtain ⟨y, there, ran⟩ := each i action found
      rw [there, (tableAction_ok ran).1]
      rfl
  · intro action member
    obtain ⟨i, found⟩ := List.mem_iff_getElem?.1 member
    obtain ⟨y, _, ran⟩ := each i action found
    exact (tableAction_ok ran).2

structure Lists (lists : Array (List Action)) : Prop where
  first : lists[0]? = some []
  size : lists.size ≤ 0xFFFF

def Kept (lists next : Array (List Action)) : Prop :=
  ∀ (i : Nat) (list : List Action), lists[i]? = some list → next[i]? = some list

theorem Kept.trans {lists next last : Array (List Action)} (h : Kept lists next)
    (h' : Kept next last) : Kept lists last := fun i list there => h' i list (h i list there)

theorem numberOfList_ok {lists next : Array (List Action)} {list : List Action} {id : UInt16}
    (valid : Lists lists) (h : numberOfList lists list = .ok (id, next)) :
    Lists next ∧ Kept lists next ∧ next[id.toNat]? = some list := by
  unfold numberOfList at h
  split at h
  · next place found =>
    cases h
    obtain ⟨inside, same, _⟩ := Array.findIdx?_eq_some_iff_getElem.1 found
    refine ⟨valid, fun _ _ there => there, ?_⟩
    rw [toNat_ofNat (Nat.lt_of_lt_of_le inside valid.size), Array.getElem?_eq_getElem inside,
      eq_of_beq same]
  · obtain ⟨size, checked, h⟩ := bind_ok h
    obtain ⟨bound, rfl⟩ := checkSize_ok checked
    cases h
    have kept : Kept lists (lists.push list) := fun _ _ => getElem?_push_of_eq_some
    refine ⟨⟨kept 0 [] valid.first, by rw [Array.size_push]; omega⟩, kept, ?_⟩
    rw [toNat_ofNat bound, Array.getElem?_push_size]

structure RowFor (productions : Array Production) (entries : List (Nat × List LrAction))
    (row : Array UInt16) (lists : Array (List Action)) : Prop where
  valid : Lists lists
  cells : ∀ terminal < row.size, ∃ id, row[terminal]? = some id ∧ lists[id.toNat]?
    = some (((entries.lookup terminal).getD []).map (LrAction.lower productions))
  fits : ∀ entry ∈ entries, ∀ action ∈ entry.2, action.Fits productions

theorem RowFor.push {entries : List (Nat × List LrAction)} {row : Array UInt16}
    {lists next : Array (List Action)} {terminal : Nat} {actions : List LrAction}
    {lowered : List Action} {id : UInt16}
    (filled : RowFor productions entries row lists) (new : entries.lookup terminal = none)
    (ran : actions.mapM (tableAction productions) = .ok lowered)
    (numbered : numberOfList lists lowered = .ok (id, next)) :
    RowFor productions (entries ++ [(terminal, actions)]) (row.setIfInBounds terminal id) next := by
  obtain ⟨rfl, fits⟩ := tableActions_ok ran
  obtain ⟨valid, kept, here⟩ := numberOfList_ok filled.valid numbered
  refine ⟨valid, fun other inside => ?_, fun entry member => ?_⟩
  · rw [Array.size_setIfInBounds] at inside
    rw [List.lookup_append]
    by_cases same : terminal = other
    · subst same
      refine ⟨id, by simp [inside], ?_⟩
      rw [here, new]
      simp
    · obtain ⟨old, there, list⟩ := filled.cells other inside
      refine ⟨old, by rw [Array.getElem?_setIfInBounds_ne same, there], ?_⟩
      rw [kept _ _ list]
      have different : (other == terminal) = false := beq_false_of_ne (Ne.symm same)
      cases entries.lookup other <;> simp [List.lookup_cons, different]
  · rcases List.mem_append.1 member with member | member
    · exact filled.fits entry member
    · rw [List.mem_singleton.1 member]
      exact fits

theorem actionRow_ok {lists next : Array (List Action)} {state : LrGrammar.StateActions}
    {row : Array UInt16} (valid : Lists lists) (nodup : (state.actions.map (·.1)).Nodup)
    (h : grammar.actionRow productions lists state = .ok (row, next)) :
    row.size = grammar.terminalCount ∧ Kept lists next ∧
      RowFor productions state.actions row next := by
  have filled : ∀ (rest done : List (Nat × List LrAction)) (row row' : Array UInt16)
      (lists lists' : Array (List Action)),
      ((done ++ rest).map (·.1)).Nodup → RowFor productions done row lists →
      rest.foldlM (fun state entry => do
        let numbered ← numberOfList state.2 (← entry.2.mapM (tableAction productions))
        return (state.1.setIfInBounds entry.1 numbered.1, numbered.2)) (row, lists)
          = .ok (row', lists') →
      row'.size = row.size ∧ Kept lists lists' ∧
        RowFor productions (done ++ rest) row' lists' := by
    intro rest
    induction rest with
    | nil =>
      intro done row row' lists lists' _ filled ran
      cases ran
      exact ⟨rfl, fun _ _ there => there, by rwa [List.append_nil]⟩
    | cons entry rest ih =>
      obtain ⟨terminal, actions⟩ := entry
      intro done row row' lists lists' nodup filled ran
      rw [List.foldlM_cons] at ran
      obtain ⟨⟨middle, between⟩, ran, later⟩ := bind_ok ran
      obtain ⟨lowered, mapped, ran⟩ := bind_ok ran
      obtain ⟨⟨id, between⟩, numbered, ran⟩ := bind_ok ran
      cases ran
      have new : done.lookup terminal = none := by
        refine List.lookup_eq_none_iff.2 fun other member => ?_
        rw [List.map_append, List.nodup_append] at nodup
        rw [bne_iff_ne]
        exact Ne.symm (nodup.2.2 _ (List.mem_map_of_mem member) _ (by simp))
      obtain ⟨size, kept, filled'⟩ := ih (done ++ [(terminal, actions)]) _ row' _ lists'
        (by simpa using nodup) (filled.push new mapped numbered) later
      refine ⟨by rw [size, Array.size_setIfInBounds], ?_, by simpa using filled'⟩
      exact (numberOfList_ok filled.valid numbered).2.1.trans kept
  have start : RowFor productions [] (Array.replicate grammar.terminalCount 0) lists := by
    refine ⟨valid, fun terminal inside => ⟨0, ?_, ?_⟩, by simp⟩
    · rw [Array.size_replicate] at inside
      simp [inside]
    · exact valid.first
  have := filled state.actions [] _ row lists next nodup start h
  rwa [Array.size_replicate] at this

theorem gotoRow_ok {state : LrGrammar.StateActions} {row : Array StateId}
    (nodup : (state.gotos.map (·.1)).Nodup) (h : grammar.gotoRow state = .ok row) :
    row.size = grammar.nonterminals.size ∧
      (∀ entry ∈ state.gotos, entry.2 < 0xFFFF) ∧
      ∀ nonterminal < row.size, row[nonterminal]? =
        some (((state.gotos.lookup nonterminal).map StateId.ofNat).getD StateId.none) := by
  have filled : ∀ (rest done : List (Nat × Nat)) (row row' : Array StateId),
      ((done ++ rest).map (·.1)).Nodup →
      (∀ entry ∈ done, entry.2 < 0xFFFF) →
      (∀ nonterminal < row.size, row[nonterminal]? =
        some (((done.lookup nonterminal).map StateId.ofNat).getD StateId.none)) →
      rest.foldlM (fun row entry => do
        return row.setIfInBounds entry.1 ⟨← checkSize .parseStates entry.2⟩) row = .ok row' →
      row'.size = row.size ∧ (∀ entry ∈ done ++ rest, entry.2 < 0xFFFF) ∧
        ∀ nonterminal < row.size, row'[nonterminal]? =
          some ((((done ++ rest).lookup nonterminal).map StateId.ofNat).getD StateId.none) := by
    intro rest
    induction rest with
    | nil =>
      intro done row row' _ bounds cells ran
      cases ran
      rw [List.append_nil]
      exact ⟨rfl, bounds, cells⟩
    | cons entry rest ih =>
      obtain ⟨nonterminal, target⟩ := entry
      intro done row row' nodup bounds cells ran
      rw [List.foldlM_cons] at ran
      obtain ⟨middle, ran, later⟩ := bind_ok ran
      obtain ⟨size, checked, ran⟩ := bind_ok ran
      obtain ⟨bound, rfl⟩ := checkSize_ok checked
      cases ran
      have new : done.lookup nonterminal = none := by
        refine List.lookup_eq_none_iff.2 fun other member => ?_
        rw [List.map_append, List.nodup_append] at nodup
        rw [bne_iff_ne]
        exact Ne.symm (nodup.2.2 _ (List.mem_map_of_mem member) _ (by simp))
      obtain ⟨size, bounds', cells'⟩ := ih (done ++ [(nonterminal, target)]) _ row'
        (by simpa using nodup)
        (fun other member => by
          rcases List.mem_append.1 member with member | member
          · exact bounds other member
          · rw [List.mem_singleton.1 member]
            exact bound)
        (fun other inside => by
          rw [Array.size_setIfInBounds] at inside
          rw [List.lookup_append]
          by_cases same : nonterminal = other
          · subst same
            simp [inside, new]
            rfl
          · have different : (other == nonterminal) = false := beq_false_of_ne (Ne.symm same)
            rw [Array.getElem?_setIfInBounds_ne same, cells other inside]
            cases done.lookup other <;> simp [List.lookup_cons, different]) later
      rw [Array.size_setIfInBounds] at size cells'
      exact ⟨size, by simpa using bounds', by simpa using cells'⟩
  have := filled state.gotos [] (Array.replicate grammar.nonterminals.size StateId.none) row nodup
    (by simp) (fun nonterminal inside => by simp at inside; simp [inside]) h
  obtain ⟨size, bounds, cells⟩ := this
  rw [← size] at cells
  rw [Array.size_replicate] at size
  exact ⟨size, bounds, cells⟩

structure Matrices (grammar : PreparedGrammar) (productions : Array Production)
    (states : List LrGrammar.StateActions) (index : Array UInt16) (lists : Array (List Action))
    (gotos : Array StateId) : Prop where
  valid : Lists lists
  indexSize : index.size = states.length * grammar.terminalCount
  gotoSize : gotos.size = states.length * grammar.nonterminals.size
  cells : ∀ {i : Nat} {state : LrGrammar.StateActions}, states[i]? = some state →
    ∀ terminal < grammar.terminalCount, ∃ id,
      index[i * grammar.terminalCount + terminal]? = some id ∧ lists[id.toNat]?
        = some (((state.actions.lookup terminal).getD []).map (LrAction.lower productions))
  follows : ∀ {i : Nat} {state : LrGrammar.StateActions}, states[i]? = some state →
    ∀ nonterminal < grammar.nonterminals.size,
      gotos[i * grammar.nonterminals.size + nonterminal]? =
        some (((state.gotos.lookup nonterminal).map StateId.ofNat).getD StateId.none)
  fits : ∀ state ∈ states, ∀ entry ∈ state.actions, ∀ action ∈ entry.2, action.Fits productions
  bounds : ∀ state ∈ states, ∀ entry ∈ state.gotos, entry.2 < 0xFFFF

theorem Matrices.push {states : List LrGrammar.StateActions} {index row : Array UInt16}
    {lists next : Array (List Action)} {gotos gotoRow : Array StateId}
    {state : LrGrammar.StateActions}
    (filled : Matrices grammar productions states index lists gotos)
    (nodup : (state.actions.map (·.1)).Nodup) (nodup' : (state.gotos.map (·.1)).Nodup)
    (ran : grammar.actionRow productions lists state = .ok (row, next))
    (ran' : grammar.gotoRow state = .ok gotoRow) :
    Matrices grammar productions (states ++ [state]) (index ++ row) next (gotos ++ gotoRow) := by
  obtain ⟨size, kept, cells⟩ := actionRow_ok filled.valid nodup ran
  obtain ⟨size', bounds, follows⟩ := gotoRow_ok nodup' ran'
  have place : ∀ {i : Nat} {other : LrGrammar.StateActions},
      (states ++ [state])[i]? = some other →
      i < states.length ∧ states[i]? = some other ∨ i = states.length ∧ other = state := by
    intro i other there
    rcases Nat.lt_trichotomy i states.length with below | rfl | above
    · exact .inl ⟨below, by rwa [List.getElem?_append_left below] at there⟩
    · exact .inr ⟨rfl, by simpa using there.symm⟩
    · rw [List.getElem?_eq_none_iff.2 (by simp; omega)] at there
      contradiction
  refine ⟨cells.valid, ?_, ?_, fun {i other} there terminal inside => ?_,
    fun {i other} there nonterminal inside => ?_, fun other member => ?_, fun other member => ?_⟩
  · rw [Array.size_append, filled.indexSize, size, List.length_append, Nat.add_mul]
    simp
  · rw [Array.size_append, filled.gotoSize, size', List.length_append, Nat.add_mul]
    simp
  · rcases place there with ⟨below, there⟩ | ⟨rfl, rfl⟩
    · obtain ⟨id, found, list⟩ := filled.cells there terminal inside
      refine ⟨id, ?_, kept _ _ list⟩
      rw [Array.getElem?_append_left (Array.getElem?_eq_some_iff.1 found).1, found]
    · obtain ⟨id, found, list⟩ := cells.cells terminal (size ▸ inside)
      refine ⟨id, ?_, list⟩
      rw [← filled.indexSize, Array.getElem?_append_right (Nat.le_add_right ..),
        Nat.add_sub_cancel_left, found]
  · rcases place there with ⟨below, there⟩ | ⟨rfl, rfl⟩
    · have found := filled.follows there nonterminal inside
      rw [Array.getElem?_append_left (Array.getElem?_eq_some_iff.1 found).1, found]
    · rw [← filled.gotoSize, Array.getElem?_append_right (Nat.le_add_right ..),
        Nat.add_sub_cancel_left, follows nonterminal (size' ▸ inside)]
  · rcases List.mem_append.1 member with member | member
    · exact filled.fits other member
    · rw [List.mem_singleton.1 member]
      exact cells.fits
  · rcases List.mem_append.1 member with member | member
    · exact filled.bounds other member
    · rw [List.mem_singleton.1 member]
      exact bounds

theorem matrices_ok {automaton : Array LrGrammar.StateActions} {index : Array UInt16}
    {lists : Array (List Action)} {gotos : Array StateId}
    (nodup : ∀ state ∈ automaton, (state.actions.map (·.1)).Nodup ∧
      (state.gotos.map (·.1)).Nodup)
    (h : automaton.foldlM (fun (index, lists, gotos) state => do
        let (row, lists) ← grammar.actionRow productions lists state
        return (index ++ row, lists, gotos ++ (← grammar.gotoRow state)))
      ((#[], #[[]], #[]) : Array UInt16 × Array (List Action) × Array StateId)
        = .ok (index, lists, gotos)) :
    Matrices grammar productions automaton.toList index lists gotos := by
  have filled : ∀ (rest done : List LrGrammar.StateActions)
      (start : Array UInt16 × Array (List Action) × Array StateId),
      (∀ state ∈ rest, (state.actions.map (·.1)).Nodup ∧ (state.gotos.map (·.1)).Nodup) →
      Matrices grammar productions done start.1 start.2.1 start.2.2 →
      rest.foldlM (fun (index, lists, gotos) state => do
        let (row, lists) ← grammar.actionRow productions lists state
        return (index ++ row, lists, gotos ++ (← grammar.gotoRow state))) start
          = .ok (index, lists, gotos) →
      Matrices grammar productions (done ++ rest) index lists gotos := by
    intro rest
    induction rest with
    | nil =>
      intro done start _ filled ran
      cases ran
      rwa [List.append_nil]
    | cons state rest ih =>
      intro done start nodup filled ran
      rw [List.foldlM_cons] at ran
      obtain ⟨middle, ran, later⟩ := bind_ok ran
      obtain ⟨⟨row, next⟩, actions, ran⟩ := bind_ok ran
      obtain ⟨gotoRow, gotos, ran⟩ := bind_ok ran
      cases ran
      obtain ⟨own, own'⟩ := nodup state (List.mem_cons_self ..)
      have := ih (done ++ [state]) _ (fun other member => nodup other (.tail _ member))
        (filled.push own own' actions gotos) later
      simpa using this
  rw [← Array.foldlM_toList] at h
  exact filled automaton.toList [] _
    (fun state member => nodup state (Array.mem_toList_iff.1 member))
    ⟨⟨rfl, by decide⟩, by simp, by simp, by simp, by simp, by simp, by simp⟩ h

theorem size_symbols {symbols : Array SymbolInfo} (h : grammar.symbols = .ok symbols) :
    grammar.terminalCount + grammar.nonterminals.size ≤ symbols.size := by
  refine foldlM_keeps (p := fun infos => _ ≤ infos.size) (fun infos shown _ next few ran => ?_)
    (Nat.le_of_eq ?_) h
  · unfold addAlias at ran
    split at ran
    · obtain ⟨_, _, ran⟩ := bind_ok ran
      cases ran
      exact few
    · obtain ⟨_, _, ran⟩ := bind_ok ran
      cases ran
      rw [Array.size_push]
      exact Nat.le_succ_of_le few
  · simp [ownSymbols, terminalCount]
    omega

structure Lowers (grammar : PreparedGrammar) (lr : LrGrammar)
    (automaton : Array LrGrammar.StateActions) (table : Table) : Prop where
  terminals : table.terminalCount.toNat = grammar.terminals.size + 1
  rules : table.ruleCount.toNat = grammar.nonterminals.size
  states : table.stateCount.toNat = automaton.size
  symbols : grammar.terminals.size + 1 + grammar.nonterminals.size < 0xFFFF
  stateBound : automaton.size < 0xFFFF
  start : table.startSymbol = grammar.symbolId (.nonterminal 0)
  productions : table.productions.size = lr.productions.size ∧
    ∀ {id nonterminal : Nat} {flat : FlatProduction},
      lr.productions[id]? = some (nonterminal, flat) → ∃ production,
        table.productions[id]? = some production ∧
        production.lhs = grammar.symbolId (.nonterminal nonterminal) ∧
        production.steps.length = flat.steps.length
  matrices : Matrices grammar table.productions automaton.toList table.actionIndex
    table.actionLists table.gotos

structure LaidOut (grammar : PreparedGrammar) (lr : LrGrammar)
    (automaton : Array LrGrammar.StateActions) (table : Table) : Prop where
  terminals : grammar.terminalCount < 0xFFFF ∧
    table.terminalCount = UInt16.ofNat grammar.terminalCount
  rules : grammar.nonterminals.size < 0xFFFF ∧
    table.ruleCount = UInt16.ofNat grammar.nonterminals.size
  states : automaton.size < 0xFFFF ∧ table.stateCount = UInt16.ofNat automaton.size
  symbols : grammar.symbols = .ok table.symbols ∧ table.symbols.size < 0xFFFF
  fields : grammar.fieldNames.length < 0xFFFF ∧ table.fieldNames = grammar.fieldNames.toArray
  productions : lr.productions.size < 0xFFFF ∧
    table.productions = lr.productions.map fun (nonterminal, production) =>
      grammar.tableProduction table.symbols grammar.fieldNames nonterminal production
  matrices : automaton.foldlM (fun (index, lists, gotos) state => do
      let (row, lists) ← grammar.actionRow table.productions lists state
      return (index ++ row, lists, gotos ++ (← grammar.gotoRow state)))
    ((#[], #[[]], #[]) : Array UInt16 × Array (List Action) × Array StateId)
      = .ok (table.actionIndex, table.actionLists, table.gotos)
  allowsExtras : table.allowsExtras = automaton.map grammar.allowsExtras
  start : table.startSymbol = grammar.symbolId (.nonterminal 0)
  extras : table.extras = grammar.extras.map fun index => grammar.symbolId (.terminal index)
  externals : table.externalTokens = (grammar.externals.map fun index =>
    grammar.symbolId (.terminal index)).toArray
  word : table.wordToken = grammar.word.map fun index => grammar.symbolId (.terminal index)
  keywords : table.keywords = grammar.keywords
  lexStates : grammar.lexStates = .ok table.lexStates
  lexStart : table.lexStart = 0

variable {lr : LrGrammar} {automaton : Array LrGrammar.StateActions} {table : Table}

theorem laidOut_of_table (h : grammar.table lr automaton = .ok table) :
    LaidOut grammar lr automaton table := by
  unfold PreparedGrammar.table at h
  obtain ⟨terminalCount, checked, h⟩ := bind_ok h
  obtain ⟨fewTerminals, rfl⟩ := checkSize_ok checked
  obtain ⟨symbols, named, h⟩ := bind_ok h
  obtain ⟨ruleCount, checked, h⟩ := bind_ok h
  obtain ⟨fewRules, rfl⟩ := checkSize_ok checked
  obtain ⟨stateCount, checked, h⟩ := bind_ok h
  obtain ⟨fewStates, rfl⟩ := checkSize_ok checked
  obtain ⟨_, symbolsChecked, h⟩ := bind_ok h
  obtain ⟨_, fieldsChecked, h⟩ := bind_ok h
  obtain ⟨_, productionsChecked, h⟩ := bind_ok h
  obtain ⟨⟨index, lists, gotos⟩, filled, h⟩ := bind_ok h
  obtain ⟨lexStates, lexed, h⟩ := bind_ok h
  cases h
  exact {
    terminals := ⟨fewTerminals, rfl⟩
    rules := ⟨fewRules, rfl⟩
    states := ⟨fewStates, rfl⟩
    symbols := ⟨named, (checkSize_ok symbolsChecked).1⟩
    fields := ⟨(checkSize_ok fieldsChecked).1, rfl⟩
    productions := ⟨(checkSize_ok productionsChecked).1, rfl⟩
    matrices := filled
    allowsExtras := rfl
    start := rfl
    extras := rfl
    externals := rfl
    word := rfl
    keywords := rfl
    lexStates := lexed
    lexStart := rfl }

theorem LaidOut.lowers (laidOut : LaidOut grammar lr automaton table)
    (nodup : ∀ state ∈ automaton, (state.actions.map (·.1)).Nodup ∧
      (state.gotos.map (·.1)).Nodup) : Lowers grammar lr automaton table where
  terminals := laidOut.terminals.2 ▸ toNat_ofNat laidOut.terminals.1
  rules := laidOut.rules.2 ▸ toNat_ofNat laidOut.rules.1
  states := laidOut.states.2 ▸ toNat_ofNat laidOut.states.1
  symbols := Nat.lt_of_le_of_lt (size_symbols laidOut.symbols.1) laidOut.symbols.2
  stateBound := laidOut.states.1
  start := laidOut.start
  productions := by
    rw [laidOut.productions.2]
    refine ⟨by simp, fun {id nonterminal flat} found =>
      ⟨grammar.tableProduction table.symbols grammar.fieldNames nonterminal flat, ?_, rfl, ?_⟩⟩
    · simp [found]
    · simp [tableProduction]
  matrices := matrices_ok nodup laidOut.matrices

end PreparedGrammar

end IncrementalGlr
