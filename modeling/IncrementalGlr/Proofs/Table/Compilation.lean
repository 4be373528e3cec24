import Mathlib
import IncrementalGlr.Proofs.Lexical.Tokens
import IncrementalGlr.Proofs.Table.Automaton
import IncrementalGlr.Proofs.Table.Loading
import IncrementalGlr.Proofs.Table.Symbols

/-!
# Compiled tables can be loaded

The checks of a table and the compilation of a grammar are two descriptions of one format. They
agree but for one case: a compiled table passes all checks, unless the grammar declares a string
external more than once. Then two symbols have the name of that string, and that is all that the
checks can find.
-/

namespace IncrementalGlr

namespace Generated

variable {grammar : PreparedGrammar} {table : Table}

theorem isToken_terminal (generated : Generated grammar table) {t : Nat}
    (inside : t < grammar.terminals.size) :
    table.isToken (grammar.symbolId (.terminal t)) = true := by
  rw [Table.isToken, Bool.and_eq_true, bne_iff_ne]
  refine ⟨fun same => ?_, generated.isTerminal_terminal inside⟩
  have first := generated.index_terminal inside
  rw [same] at first
  exact Nat.succ_ne_zero t first.symm

end Generated

theorem Table.checkTransitions_eq {table : Table} {id : Nat} {transitions : List LexTransition}
    {previous : Option UInt32}
    (ranges : ∀ transition ∈ transitions, transition.low ≤ transition.high)
    (apart : transitions.Pairwise fun a b => a.high < b.low)
    (behind : ∀ high ∈ previous, ∀ transition ∈ transitions, high < transition.low)
    (targets : ∀ transition ∈ transitions, transition.target.toNat < table.lexStates.size) :
    table.checkTransitions id transitions previous = .ok () := by
  induction transitions generalizing previous with
  | nil => rfl
  | cons first rest ih =>
    rw [List.forall_mem_cons] at ranges targets
    rw [List.pairwise_cons] at apart
    refine bind_of_ok (ensure_of (decide_eq_true ranges.1)) ?_
    refine bind_of_ok (ensure_of ?_) ?_
    · rw [Option.all_eq_true]
      exact fun high last => decide_eq_true (behind high last first (List.mem_cons_self ..))
    refine bind_of_ok (ensure_of (decide_eq_true targets.1)) ?_
    refine ih ranges.2 apart.2 (fun high last => ?_) targets.2
    cases last
    exact apart.1

namespace PreparedGrammar

variable {grammar : PreparedGrammar} {table : Table} {twice : String → Prop}

theorem mem_of_numberOfList {lists next : Array (List Action)} {list other : List Action}
    {id : UInt16} (h : numberOfList lists list = .ok (id, next)) (member : other ∈ next) :
    other ∈ lists ∨ other = list := by
  unfold numberOfList at h
  split at h
  · cases h
    exact .inl member
  · obtain ⟨_, _, h⟩ := bind_ok h
    cases h
    exact Array.mem_push.1 member

def Stems (productions : Array Production) (automaton : Array LrGrammar.StateActions)
    (list : List Action) : Prop :=
  list = [] ∨ ∃ state ∈ automaton, ∃ entry ∈ state.actions,
    list = entry.2.map (LrAction.lower productions)

theorem stems_of_mem {productions : Array Production} {automaton : Array LrGrammar.StateActions}
    {index : Array UInt16} {lists : Array (List Action)} {gotos : Array StateId}
    (h : automaton.foldlM (fun (index, lists, gotos) state => do
        let (row, lists) ← grammar.actionRow productions lists state
        return (index ++ row, lists, gotos ++ (← grammar.gotoRow state)))
      ((#[], #[[]], #[]) : Array UInt16 × Array (List Action) × Array StateId)
        = .ok (index, lists, gotos)) :
    ∀ list ∈ lists, Stems productions automaton list := by
  rw [← Array.foldlM_toList] at h
  refine foldlM_keeps (p := fun laid : Array UInt16 × Array (List Action) × Array StateId =>
    ∀ list ∈ laid.2.1, Stems productions automaton list) ?_ ?_ h
  · rintro ⟨index, lists, gotos⟩ state there next stems ran
    obtain ⟨⟨row, between⟩, laid, ran⟩ := bind_ok ran
    obtain ⟨gotoRow, _, ran⟩ := bind_ok ran
    cases ran
    refine foldlM_keeps (p := fun laid : Array UInt16 × Array (List Action) =>
      ∀ list ∈ laid.2, Stems productions automaton list) ?_ stems laid
    rintro ⟨row, lists⟩ ⟨terminal, actions⟩ listed next stems ran list member
    obtain ⟨lowered, mapped, ran⟩ := bind_ok ran
    obtain ⟨⟨id, between⟩, numbered, ran⟩ := bind_ok ran
    cases ran
    rcases mem_of_numberOfList numbered member with old | rfl
    · exact stems list old
    · exact .inr ⟨state, Array.mem_toList_iff.1 there, _, listed, (tableActions_ok mapped).1⟩
  · intro list member
    exact .inl (by simpa using member)

structure Compiles (grammar : PreparedGrammar) (twice : String → Prop) (table : Table) : Prop where
  named : grammar.Named twice
  generated : Generated grammar table
  laidOut : grammar.LaidOut (LrGrammar.ofGrammar grammar) (LrGrammar.ofGrammar grammar).automaton
    table

namespace Compiles

open Generated (At row)

theorem isToken_of_mem (h : Compiles grammar twice table) {places : List Nat}
    (inside : ∀ place ∈ places, place < grammar.terminals.size) :
    ∀ symbol ∈ places.map (fun place => grammar.symbolId (.terminal place)),
      table.isToken symbol = true := by
  intro symbol member
  obtain ⟨place, there, rfl⟩ := List.mem_map.1 member
  exact h.generated.isToken_terminal (inside place there)

theorem checkSymbols_eq (h : Compiles grammar twice table) :
    table.checkSymbols = match firstRepeat? (((table.symbols.toList.drop 1).filter (·.visible)).map
        fun info => (info.name, info.named)) with
      | some (name, _) => .error (.duplicateSymbol name)
      | none => .ok () := by
  have terminals := h.generated.lowers.terminals
  have rules := h.generated.lowers.rules
  have start := h.generated.wellFormed.start
  have counted := size_symbols h.laidOut.symbols.1
  rw [terminalCount] at counted
  unfold Table.checkSymbols
  refine bind_of_ok (ensure_of (decide_eq_true ?_)) ?_
  · omega
  refine bind_of_ok (ensure_of (decide_eq_true ?_)) ?_
  · omega
  refine bind_of_ok (ensure_of (decide_eq_true ?_)) ?_
  · omega
  refine bind_of_ok (ensure_of (decide_eq_true h.laidOut.symbols.2)) ?_
  refine bind_of_ok (ensure_of ?_) ?_
  · rw [h.laidOut.start]
    exact h.generated.isRule_nonterminal start
  dsimp only
  generalize firstRepeat? (((table.symbols.toList.drop 1).filter (·.visible)).map
    fun info => (info.name, info.named)) = again
  rcases again with _ | key
  case some => rfl
  rw [h.laidOut.fields.2, List.toList_toArray, firstRepeat?_fieldNames]
  refine bind_of_ok (loop_of fun symbol member => bind_of_ok (ensure_of ?_) rfl) ?_
  · rw [h.laidOut.extras] at member
    exact h.isToken_of_mem h.named.extras symbol member
  rw [← Array.forIn_toList]
  refine bind_of_ok (loop_of fun symbol member => bind_of_ok (ensure_of ?_) rfl) ?_
  · rw [h.laidOut.externals, List.toList_toArray] at member
    exact h.isToken_of_mem h.named.externals symbol member
  refine bind_of_ok (loop_of fun symbol member => bind_of_ok (ensure_of ?_) rfl) ?_
  · rw [h.laidOut.word, Option.mem_toList] at member
    obtain ⟨place, there, rfl⟩ := Option.map_eq_some_iff.1 member
    exact h.generated.isToken_terminal (h.named.word place there)
  refine bind_of_ok (loop_of fun keyword member => bind_of_ok (ensure_of ?_) rfl) rfl
  rw [h.laidOut.keywords] at member
  obtain ⟨place, inside, same⟩ := mem_keywords member
  rw [same]
  exact h.generated.isToken_terminal inside

theorem lhs_of_mem (h : Compiles grammar twice table) {production : Production}
    (member : production ∈ table.productions) : ∃ nonterminal flat,
      nonterminal < grammar.nonterminals.size ∧
        production = grammar.tableProduction table.symbols grammar.fieldNames nonterminal flat := by
  rw [h.laidOut.productions.2] at member
  obtain ⟨⟨nonterminal, flat⟩, there, rfl⟩ := Array.mem_map.1 member
  obtain ⟨id, found⟩ := Array.getElem?_of_mem there
  exact ⟨nonterminal, flat, (h.generated.of_numbered found).2.1, rfl⟩

theorem visible_of_aliasSymbol (h : Compiles grammar twice table) {production : Production}
    (member : production ∈ table.productions) {step : ProductionStep}
    (inside : step ∈ production.steps) {symbol : SymbolId}
    (named : step.aliasSymbol = some symbol) :
    ∃ info, table.symbols[symbol.index]? = some info ∧ info.visible = true := by
  obtain ⟨nonterminal, flat, _, rfl⟩ := h.lhs_of_mem member
  obtain ⟨own, _, rfl⟩ := List.mem_map.1 inside
  obtain ⟨_, _, shown⟩ := Option.bind_eq_some_iff.1 named
  obtain ⟨place, found, rfl⟩ := Option.map_eq_some_iff.1 shown
  rw [SymbolId.index_ofNat (Nat.lt_trans (aliasPlace?_spec found).2 h.laidOut.symbols.2)]
  exact visible_of_aliasPlace? found

theorem checkProductions_eq (h : Compiles grammar twice table) :
    table.checkProductions = .ok () := by
  have fewSymbols := h.laidOut.symbols.2
  have fewFields := h.laidOut.fields.1
  unfold Table.checkProductions
  refine bind_of_ok (ensure_of (decide_eq_true ?_)) (bind_of_ok (loop_of ?_) rfl)
  · rw [h.laidOut.productions.2, Array.size_map]
    exact h.laidOut.productions.1
  rintro ⟨production, id⟩ numbered
  obtain ⟨nonterminal, flat, inside, rfl⟩ := h.lhs_of_mem
    (Array.mem_toList_iff.1 (List.fst_mem_of_mem_zipIdx numbered))
  refine bind_of_ok (ensure_of (h.generated.isRule_nonterminal inside))
    (bind_of_ok (loop_of fun step there => ?_) rfl)
  obtain ⟨own, _, rfl⟩ := List.mem_map.1 there
  refine bind_of_ok (loop_of fun symbol shown => bind_of_ok (ensure_of ?_) rfl)
    (bind_of_ok (loop_of fun field given => bind_of_ok (ensure_of (decide_eq_true ?_)) rfl) rfl)
  · obtain ⟨_, _, shown⟩ := Option.bind_eq_some_iff.1 (Option.mem_toList.1 shown)
    obtain ⟨place, found, rfl⟩ := Option.map_eq_some_iff.1 shown
    obtain ⟨behind, known⟩ := aliasPlace?_spec found
    have index := SymbolId.index_ofNat (Nat.lt_trans known fewSymbols)
    rw [Bool.and_eq_true, decide_eq_true_iff, bne_iff_ne, index]
    refine ⟨known, fun same => ?_⟩
    rw [same] at index
    exact Nat.ne_of_lt behind index
  · obtain ⟨_, _, given⟩ := Option.bind_eq_some_iff.1 (Option.mem_toList.1 given)
    obtain ⟨place, found, rfl⟩ := Option.map_eq_some_iff.1 given
    have known := (List.findIdx?_eq_some_iff_findIdx_eq.1 found).1
    rw [h.laidOut.fields.2, List.size_toArray]
    rwa [FieldId.index_ofNat (Nat.lt_trans known fewFields)]

theorem cell_eq {cell rows columns : Nat} (inside : cell < rows * columns) :
    cell / columns < rows ∧ cell % columns < columns ∧
      cell / columns * columns + cell % columns = cell := by
  have some : 0 < columns := Nat.pos_of_ne_zero fun none => by simp [none] at inside
  rw [Nat.mul_comm] at inside
  exact ⟨Nat.div_lt_of_lt_mul inside, Nat.mod_lt cell some, Nat.div_add_mod' cell columns⟩

theorem exists_row (h : Compiles grammar twice table) {id : Nat}
    (inside : id < (LrGrammar.ofGrammar grammar).automaton.size) :
    ∃ s state, At grammar s state ∧ s.index = id := by
  have index := StateId.index_ofNat (Nat.lt_trans inside h.generated.lowers.stateBound)
  obtain ⟨state, found⟩ := h.generated.exists_at (s := StateId.ofNat id)
    (by rwa [index, h.generated.lowers.states])
  exact ⟨_, state, found, index⟩

theorem exists_of_mem_actionLists (h : Compiles grammar twice table) {actions : List Action}
    (member : actions ∈ table.actionLists) {action : Action} (inside : action ∈ actions) :
    ∃ s state terminal lrAction, At grammar s state ∧ terminal < grammar.terminals.size + 1 ∧
      lrAction ∈ (LrGrammar.ofGrammar grammar).cell state (row grammar s) terminal ∧
      action = lrAction.lower table.productions := by
  obtain ⟨laid, there, entry, listed, rfl⟩ :=
    (stems_of_mem h.laidOut.matrices actions member).resolve_left (List.ne_nil_of_mem inside)
  obtain ⟨lrAction, own, rfl⟩ := List.mem_map.1 inside
  obtain ⟨id, known⟩ := Array.getElem?_of_mem there
  obtain ⟨s, state, found, index⟩ := h.exists_row (Array.getElem?_eq_some_iff.1 known).1
  have same := Generated.automaton_eq found
  rw [index, Array.getElem?_toList, known, Option.some_inj] at same
  rw [same, LrGrammar.actions_stateActions] at listed
  obtain ⟨terminal, column, rfl⟩ := List.mem_map.1 (List.mem_of_mem_filter listed)
  exact ⟨_, state, terminal, lrAction, found, List.mem_range.1 column, own, rfl⟩

theorem checkAction_eq (h : Compiles grammar twice table) {actions : List Action}
    (member : actions ∈ table.actionLists) {action : Action} (inside : action ∈ actions)
    (list : Nat) : table.checkAction list action = .ok () := by
  obtain ⟨s, state, terminal, lrAction, found, below, own, rfl⟩ :=
    h.exists_of_mem_actionLists member inside
  have fits := h.generated.fits_of_mem_cell found below own
  cases LrGrammar.justified_of_mem_cell h.generated.closed.numbered
      (h.generated.isAutomaton.proper found) (h.generated.length_row found)
      (h.generated.nodup_transitions found) own with
  | shift number transition =>
    obtain ⟨_, next, found', _⟩ := h.generated.at_target found transition
    exact ensure_of (decide_eq_true (h.generated.lt_stateCount found'))
  | @reduce id known complete =>
    obtain ⟨⟨nonterminal, flat⟩, numbered⟩ :
        ∃ entry, (LrGrammar.ofGrammar grammar).productions[id]? = some entry :=
      ⟨_, Array.getElem?_eq_getElem known⟩
    obtain ⟨precedence, lower, few, short⟩ := h.generated.lower_reduce numbered fits
    obtain ⟨production, there, lhs, steps⟩ := h.generated.lowers.productions.2 numbered
    rw [lower]
    refine ensure_of ?_
    rw [ProductionId.index_ofNat few, there]
    simp [lhs, steps, toNat_ofNat short]
  | accept => rfl

theorem column_of_accept (h : Compiles grammar twice table) {s : StateId} {state : LrState}
    {terminal : Nat} (found : At grammar s state)
    (accepts : ((((LrGrammar.ofGrammar grammar).cell state (row grammar s) terminal).map
      (LrAction.lower table.productions)).any fun action => action.isAccept) = true) :
    terminal = 0 := by
  obtain ⟨action, member, isAccept⟩ := List.any_eq_true.1 accepts
  obtain ⟨lrAction, own, rfl⟩ := List.mem_map.1 member
  cases LrGrammar.justified_of_mem_cell h.generated.closed.numbered
      (h.generated.isAutomaton.proper found) (h.generated.length_row found)
      (h.generated.nodup_transitions found) own with
  | shift => contradiction
  | reduce => contradiction
  | accept atEnd _ => exact atEnd

theorem exists_accept (h : Compiles grammar twice table) :
    ∃ actions ∈ table.actionLists, (actions.any fun action => action.isAccept) = true := by
  obtain ⟨start, found, kernel⟩ := h.generated.isAutomaton.start
  have found : At grammar ⟨0⟩ start := found
  have first : (⟨(LrGrammar.ofGrammar grammar).augmented, 0⟩ : Item) ∈
      (LrGrammar.ofGrammar grammar).items start.kernel := by
    refine LrGrammar.mem_items.2 (.inl ?_)
    rw [kernel]
    exact List.mem_singleton_self _
  have here : (LrGrammar.ofGrammar grammar).symbolAt?
      ⟨(LrGrammar.ofGrammar grammar).augmented, 0⟩ = some (.nonterminal 0) := by
    simp [LrGrammar.symbolAt?, LrGrammar.rest, LrGrammar.stepsOf, LrGrammar.augmented, Step.plain]
  obtain ⟨target, transition⟩ := h.generated.exists_transition found first here
  obtain ⟨_, last, found', behind⟩ := h.generated.at_target found transition
  have complete : ⟨(LrGrammar.ofGrammar grammar).augmented, 1⟩ ∈ last.kernel := by
    rw [behind]
    exact LrGrammar.mem_goto.2 ⟨_, first, here, rfl⟩
  obtain ⟨list, _, actions⟩ := h.generated.exists_list found' (Nat.succ_pos _)
  refine ⟨_, Array.mem_of_getElem? actions, List.any_eq_true.2 ⟨.accept, ?_, rfl⟩⟩
  exact List.mem_map.2 ⟨.accept, LrGrammar.accept_mem_cell complete, rfl⟩

theorem exists_of_cell (h : Compiles grammar twice table) {cell : Nat} {list : UInt16}
    (there : table.actionIndex[cell]? = some list) : ∃ s state, At grammar s state ∧
      table.actionLists[list.toNat]? = some (((LrGrammar.ofGrammar grammar).cell state
        (row grammar s) (cell % table.terminalCount.toNat)).map
          (LrAction.lower table.productions)) := by
  have inside := (Array.getElem?_eq_some_iff.1 there).1
  rw [h.generated.lowers.matrices.indexSize, Array.length_toList, terminalCount] at inside
  obtain ⟨below, column, same⟩ := cell_eq inside
  obtain ⟨s, state, found, index⟩ := h.exists_row below
  obtain ⟨other, known, actions⟩ := h.generated.exists_list found column
  rw [index, same, there] at known
  cases known
  rw [h.generated.lowers.terminals]
  exact ⟨s, state, found, actions⟩

theorem goto_inside (h : Compiles grammar twice table) {cell : Nat} {target : StateId}
    (there : table.gotos[cell]? = some target) :
    (target.isNone || decide (target.index < table.stateCount.toNat)) = true := by
  have inside := (Array.getElem?_eq_some_iff.1 there).1
  rw [h.generated.lowers.matrices.gotoSize, Array.length_toList] at inside
  obtain ⟨below, column, same⟩ := cell_eq inside
  obtain ⟨s, state, found, index⟩ := h.exists_row below
  have known := h.generated.lowers.matrices.follows (Generated.automaton_eq found) _ column
  rw [index, same, there, Option.some_inj, ← index] at known
  subst known
  cases goes : ((LrGrammar.ofGrammar grammar).stateActions s.index state
      (row grammar s)).gotos.lookup (cell % grammar.nonterminals.size) with
  | none => rfl
  | some next =>
    have listed := (LrGrammar.lookup_eq_some_iff_mem
      (Generated.nodup_gotos (h.generated.nodup_transitions found))).1 goes
    obtain ⟨_, after, found', _⟩ :=
      h.generated.at_target found (Generated.mem_gotos.1 listed)
    exact Bool.or_eq_true_iff.2 (.inr (decide_eq_true (h.generated.lt_stateCount found')))

theorem checkParseTable_eq (h : Compiles grammar twice table) : table.checkParseTable = .ok () := by
  have states := h.generated.lowers.states
  have terminals := h.generated.lowers.terminals
  have rules := h.generated.lowers.rules
  unfold Table.checkParseTable
  refine bind_of_ok (ensure_of (decide_eq_true ?_)) ?_
  · obtain ⟨state, found, _⟩ := h.generated.isAutomaton.start
    rw [states, Generated.size_automaton]
    exact (Array.getElem?_eq_some_iff.1 found).1
  refine bind_of_ok (ensure_of (decide_eq_true ?_)) ?_
  · rw [states]
    exact h.generated.lowers.stateBound
  refine bind_of_ok (ensure_of (beq_iff_eq.2 ?_)) ?_
  · rw [h.generated.lowers.matrices.indexSize, states, terminals, Array.length_toList,
      terminalCount]
  refine bind_of_ok (ensure_of (beq_iff_eq.2 ?_)) ?_
  · rw [h.generated.lowers.matrices.gotoSize, states, rules, Array.length_toList]
  refine bind_of_ok (ensure_of (beq_iff_eq.2 ?_)) ?_
  · rw [h.laidOut.allowsExtras, Array.size_map, states]
  refine bind_of_ok (ensure_of (beq_iff_eq.2 h.generated.lowers.matrices.valid.first)) ?_
  refine bind_of_ok (loop_of fun entry numbered => ?_) ?_
  · obtain ⟨list, cell⟩ := entry
    rw [List.mem_zipIdx_iff_getElem?, Array.getElem?_toList] at numbered
    obtain ⟨s, state, found, actions⟩ := h.exists_of_cell numbered
    refine bind_of_ok (ensure_of (decide_eq_true ?_)) (bind_of_ok (ensure_of ?_) rfl)
    · exact (Array.getElem?_eq_some_iff.1 actions).1
    · rw [Array.getD_eq_getD_getElem?, actions, Option.getD_some, Bool.or_eq_true, beq_iff_eq,
        Bool.not_eq_true', ← Bool.not_eq_true]
      exact or_iff_not_imp_right.2 fun accepts =>
        h.column_of_accept found (Decidable.of_not_not accepts)
  refine bind_of_ok (loop_of fun entry numbered => ?_) ?_
  · obtain ⟨actions, list⟩ := entry
    have member := Array.mem_toList_iff.1 (List.fst_mem_of_mem_zipIdx numbered)
    exact bind_of_ok (loop_of fun action inside =>
      bind_of_ok (h.checkAction_eq member inside list) rfl) rfl
  refine bind_of_ok (ensure_of (Array.any_eq_true'.2 h.exists_accept)) ?_
  refine bind_of_ok (loop_of fun entry numbered => bind_of_ok (ensure_of ?_) rfl) rfl
  obtain ⟨target, cell⟩ := entry
  rw [List.mem_zipIdx_iff_getElem?, Array.getElem?_toList] at numbered
  exact h.goto_inside numbered

theorem checkLexTable_eq (h : Compiles grammar twice table) : table.checkLexTable = .ok () := by
  obtain ⟨nonempty, states⟩ := lexStates_spec h.named h.laidOut.lexStates
  unfold Table.checkLexTable
  refine bind_of_ok (ensure_of (decide_eq_true ?_)) ?_
  · rw [h.laidOut.lexStart]
    exact nonempty
  refine bind_of_ok (loop_of fun entry numbered => ?_) rfl
  obtain ⟨state, id⟩ := entry
  obtain ⟨whole, accepts⟩ :=
    states state (Array.mem_toList_iff.1 (List.fst_mem_of_mem_zipIdx numbered))
  refine bind_of_ok (Table.checkTransitions_eq ?_ whole.apart (by simp) ?_) ?_
  · exact fun transition member => whole.ranges transition (Array.mem_toList_iff.1 member)
  · exact fun transition member => whole.targets transition (Array.mem_toList_iff.1 member)
  refine bind_of_ok (loop_of fun symbol member => bind_of_ok (ensure_of ?_) rfl) rfl
  obtain ⟨terminal, inside, rfl⟩ := accepts symbol member
  exact h.generated.isToken_terminal inside

theorem check_cases (h : Compiles grammar twice table) : table.check = .ok () ∨
    ∃ text, twice text ∧ table.check = .error (.duplicateSymbol text) := by
  unfold Table.check
  rw [h.checkSymbols_eq]
  split
  · next text named found =>
    exact .inr ⟨text, (distinctNames_symbols h.named h.laidOut.symbols.1).redeclared found, rfl⟩
  · exact .inl (bind_of_ok rfl (bind_of_ok h.checkProductions_eq
      (bind_of_ok h.checkParseTable_eq h.checkLexTable_eq)))

end Compiles

end PreparedGrammar

variable {grammar : Grammar} {compiled : Compiled}

theorem compiles_of_compile (h : grammar.compile = .ok compiled) : ∃ prepared : PreparedGrammar,
    prepared.Compiles grammar.Redeclares compiled.table := by
  obtain ⟨prepared, prepare, laidOut⟩ := laidOut_of_compile h
  exact ⟨prepared, Grammar.prepare_named prepare,
    laidOut.generated (Grammar.prepare_sound prepare).1, laidOut⟩

/-- A compiled table passes its checks, unless a string is declared external more than once. Each
declaration makes a token of its own then, and the checks refuse two tokens of one name. -/
theorem check_of_compile (h : grammar.compile = .ok compiled) : compiled.table.check = .ok () ∨
    ∃ text, grammar.Redeclares text ∧
      compiled.table.check = .error (.duplicateSymbol text) := by
  obtain ⟨prepared, prepare, laidOut⟩ := laidOut_of_compile h
  have wellFormed := (Grammar.prepare_sound prepare).1
  exact PreparedGrammar.Compiles.check_cases
    ⟨Grammar.prepare_named prepare, laidOut.generated wellFormed, laidOut⟩

/-- A compiled table is loaded from its written form, with a scanner if the grammar has external
tokens. -/
theorem load_of_compile {scanner : Option Scanner} {stamp : Nat}
    (h : grammar.compile = .ok compiled) (once : ∀ text, ¬ grammar.Redeclares text)
    (scans : grammar.externals ≠ [] → scanner.isSome = true)
    (short : compiled.table.toBytes.length < UInt64.size) :
    ∃ language, Language.load compiled.table.toBytes scanner stamp = .ok language ∧
      language.version = Table.formatVersion ∧ language.table = compiled.table := by
  have checked : compiled.table.check = .ok () :=
    (check_of_compile h).resolve_right fun ⟨text, again, _⟩ => once text again
  rw [Table.length_toBytes] at short
  rw [Language.load_toBytes (Nat.lt_of_le_of_lt (Nat.le_add_left ..) short)]
  refine Language.exists_build checked fun declares => scans fun none => ?_
  rw [externalTokens_of_compile none h] at declares
  contradiction

def echoGrammar : Grammar where
  name := "echo"
  rules := [("source", .repeat1 (.string "a"))]
  extras := []
  externals := [.string "a", .string "a"]
  word := none
  supertypes := []
  reserved := []
  precedences := []

set_option maxRecDepth 4000 in
/-- The table of a string that is declared external again is refused, whatever the scanner. -/
theorem load_repeated_external : ∃ compiled, echoGrammar.compile = .ok compiled ∧
    echoGrammar.Redeclares "a" ∧ ∀ scanner stamp, Language.load compiled.table.toBytes scanner stamp
      = .error (.inconsistent (.duplicateSymbol "a")) := by
  have runs : (echoGrammar.compile.toOption.map fun compiled =>
      (compiled.table.check, Nat.blt compiled.table.payload.length UInt64.size)) =
        some (.error (.duplicateSymbol "a"), true) := by cbv
  obtain ⟨compiled, compile, same⟩ := Option.map_eq_some_iff.1 runs
  obtain ⟨checked, short⟩ := Prod.mk.inj same
  have again : echoGrammar.Redeclares "a" := Nat.le_of_ble_eq_true rfl
  refine ⟨compiled, ok_of_toOption compile, again, fun scanner stamp => ?_⟩
  rw [Language.load_toBytes (Nat.le_of_ble_eq_true short), Language.build, checked]
  rfl

end IncrementalGlr
