import IncrementalGlr.Proofs.Table.Lowering

/-!
# Compiled tables as automata

What the actions and gotos of a compiled table say about the states, items and transitions of the
automaton that it was laid out from.
-/

namespace IncrementalGlr

theorem StateId.index_ofNat {n : Nat} (h : n < 0xFFFF) : (StateId.ofNat n).index = n :=
  toNat_ofNat h

theorem StateId.ofNat_index (state : StateId) : StateId.ofNat state.index = state := by
  simp [StateId.ofNat, StateId.index]

theorem StateId.ext_index {state other : StateId} (h : state.index = other.index) :
    state = other := by
  rw [← StateId.ofNat_index state, h, StateId.ofNat_index]

theorem SymbolId.index_ofNat {n : Nat} (h : n < 0xFFFF) : (SymbolId.ofNat n).index = n :=
  toNat_ofNat h

theorem SymbolId.ext_index {symbol other : SymbolId} (h : symbol.index = other.index) :
    symbol = other := by
  cases symbol
  cases other
  exact congrArg SymbolId.mk (UInt16.toNat_inj.1 h)

theorem FieldId.index_ofNat {n : Nat} (h : n < 0xFFFF) : (FieldId.ofNat n).index = n :=
  toNat_ofNat h

theorem ProductionId.index_ofNat {n : Nat} (h : n < 0xFFFF) : (ProductionId.ofNat n).index = n :=
  toNat_ofNat h

structure Generated (grammar : PreparedGrammar) (table : Table) : Prop where
  wellFormed : grammar.WellFormed
  lowers : grammar.Lowers (LrGrammar.ofGrammar grammar)
    (LrGrammar.ofGrammar grammar).automaton table

namespace Generated

variable {grammar : PreparedGrammar} {table : Table} {s next : StateId} {x : SymbolId}
  {state : LrState}

theorem closed (generated : Generated grammar table) : (LrGrammar.ofGrammar grammar).Closed :=
  LrGrammar.closed_ofGrammar generated.wellFormed

theorem index_terminal (generated : Generated grammar table) {t : Nat}
    (inside : t < grammar.terminals.size) : (grammar.symbolId (.terminal t)).index = t + 1 := by
  have := generated.lowers.symbols
  exact SymbolId.index_ofNat (by omega)

theorem index_nonterminal (generated : Generated grammar table) {n : Nat}
    (inside : n < grammar.nonterminals.size) :
    (grammar.symbolId (.nonterminal n)).index = grammar.terminals.size + 1 + n := by
  have := generated.lowers.symbols
  exact SymbolId.index_ofNat (by simp only [PreparedGrammar.terminalCount]; omega)

theorem symbolId_injective (generated : Generated grammar table) (symbol other : Sym)
    (has : grammar.Has symbol) (has' : grammar.Has other)
    (same : grammar.symbolId symbol = grammar.symbolId other) : symbol = other := by
  have same := congrArg SymbolId.index same
  cases symbol with
  | terminal t =>
    rw [generated.index_terminal has] at same
    cases other with
    | terminal t' =>
      rw [generated.index_terminal has'] at same
      exact congrArg Sym.terminal (by omega)
    | nonterminal n' =>
      rw [generated.index_nonterminal has'] at same
      simp only [PreparedGrammar.Has] at has
      omega
  | nonterminal n =>
    rw [generated.index_nonterminal has] at same
    cases other with
    | terminal t' =>
      rw [generated.index_terminal has'] at same
      simp only [PreparedGrammar.Has] at has'
      omega
    | nonterminal n' =>
      rw [generated.index_nonterminal has'] at same
      exact congrArg Sym.nonterminal (by omega)

theorem isTerminal_iff (generated : Generated grammar table) :
    table.isTerminal x = true ↔ x.index < grammar.terminals.size + 1 := by
  rw [Table.isTerminal, decide_eq_true_iff, generated.lowers.terminals]

theorem isTerminal_terminal (generated : Generated grammar table) {t : Nat}
    (inside : t < grammar.terminals.size) :
    table.isTerminal (grammar.symbolId (.terminal t)) = true := by
  rw [generated.isTerminal_iff, generated.index_terminal inside]
  omega

theorem isRule_nonterminal (generated : Generated grammar table) {n : Nat}
    (inside : n < grammar.nonterminals.size) :
    table.isRule (grammar.symbolId (.nonterminal n)) = true := by
  rw [Table.isRule, Bool.and_eq_true, Bool.not_eq_true', ← Bool.not_eq_true,
    generated.isTerminal_iff, decide_eq_true_iff, generated.lowers.terminals,
    generated.lowers.rules, generated.index_nonterminal inside]
  omega

theorem exists_nonterminal (generated : Generated grammar table) (rule : table.isRule x = true) :
    ∃ n < grammar.nonterminals.size, x = grammar.symbolId (.nonterminal n) := by
  rw [Table.isRule, Bool.and_eq_true, Bool.not_eq_true', ← Bool.not_eq_true,
    generated.isTerminal_iff, decide_eq_true_iff, generated.lowers.terminals,
    generated.lowers.rules] at rule
  refine ⟨x.index - (grammar.terminals.size + 1), by omega, SymbolId.ext_index ?_⟩
  rw [generated.index_nonterminal (by omega)]
  omega

theorem of_numbered (generated : Generated grammar table) {production nonterminal : Nat}
    {flat : FlatProduction}
    (numbered : (LrGrammar.ofGrammar grammar).productions[production]? = some (nonterminal, flat)) :
    flat ∈ grammar.productionsOf nonterminal ∧ nonterminal < grammar.nonterminals.size ∧
      ∀ symbol ∈ flat.symbols, grammar.Has symbol := by
  have member : flat ∈ grammar.productionsOf nonterminal :=
    (generated.closed.numbered.mem_productionsOf nonterminal flat).2 ⟨production, numbered⟩
  refine ⟨member, ?_, fun symbol listed => ?_⟩
  · rw [PreparedGrammar.productionsOf] at member
    cases known : grammar.nonterminals[nonterminal]? with
    | none => simp [known] at member
    | some _ => exact (Array.getElem?_eq_some_iff.1 known).1
  · obtain ⟨step, there, rfl⟩ := List.mem_map.1 listed
    exact generated.wellFormed.steps flat member step there

def At (grammar : PreparedGrammar) (s : StateId) (state : LrState) : Prop :=
  (LrGrammar.ofGrammar grammar).states[s.index]? = some state

def follows (grammar : PreparedGrammar) (s : StateId) (state : LrState) (item : Item) : BitSet :=
  let lr := LrGrammar.ofGrammar grammar
  lr.lookaheadIn (lr.lookaheads lr.states) s.index state item

def row (grammar : PreparedGrammar) (s : StateId) : List BitSet :=
  let lr := LrGrammar.ofGrammar grammar
  (lr.lookaheads lr.states).getD s.index []

theorem automaton_eq (found : At grammar s state) :
    (LrGrammar.ofGrammar grammar).automaton.toList[s.index]? =
      some ((LrGrammar.ofGrammar grammar).stateActions s.index state (row grammar s)) := by
  simp only [LrGrammar.automaton, Array.getElem?_toList, Array.getElem?_mapIdx]
  rw [show (LrGrammar.ofGrammar grammar).states[s.index]? = some state from found]
  rfl

theorem size_automaton (grammar : PreparedGrammar) :
    (LrGrammar.ofGrammar grammar).automaton.size = (LrGrammar.ofGrammar grammar).states.size := by
  simp [LrGrammar.automaton]

theorem exists_at (generated : Generated grammar table)
    (inside : s.index < table.stateCount.toNat) : ∃ state, At grammar s state := by
  rw [generated.lowers.states, size_automaton] at inside
  exact ⟨_, Array.getElem?_eq_getElem inside⟩

theorem lt_stateCount (generated : Generated grammar table) (found : At grammar s state) :
    s.index < table.stateCount.toNat := by
  rw [generated.lowers.states, size_automaton]
  exact (Array.getElem?_eq_some_iff.1 found).1

theorem isAutomaton (generated : Generated grammar table) :
    (LrGrammar.ofGrammar grammar).Automaton (LrGrammar.ofGrammar grammar).states :=
  generated.closed.numbered.automaton

theorem nodup_transitions (generated : Generated grammar table) (found : At grammar s state) :
    (state.transitions.map (·.1)).Nodup := by
  rw [generated.isAutomaton.symbols found]
  exact LrGrammar.nodup_symbolsAt

theorem at_target (generated : Generated grammar table) (found : At grammar s state) {symbol : Sym}
    {target : Nat} (transition : (symbol, target) ∈ state.transitions) :
    target < 0xFFFF ∧ ∃ next, At grammar (StateId.ofNat target) next ∧
      next.kernel = (LrGrammar.ofGrammar grammar).goto
        ((LrGrammar.ofGrammar grammar).items state.kernel) symbol := by
  obtain ⟨next, known, kernel⟩ := generated.isAutomaton.target found transition
  have bound : target < 0xFFFF := by
    refine Nat.lt_trans ?_ generated.lowers.stateBound
    rw [size_automaton]
    exact (Array.getElem?_eq_some_iff.1 known).1
  refine ⟨bound, next, ?_, kernel⟩
  rw [At, StateId.index_ofNat bound]
  exact known

theorem exists_transition (generated : Generated grammar table) (found : At grammar s state)
    {item : Item} (member : item ∈ (LrGrammar.ofGrammar grammar).items state.kernel) {symbol : Sym}
    (here : (LrGrammar.ofGrammar grammar).symbolAt? item = some symbol) :
    ∃ target, (symbol, target) ∈ state.transitions := by
  have listed := LrGrammar.mem_symbolsAt.2 ⟨item, member, here⟩
  rw [← generated.isAutomaton.symbols found] at listed
  obtain ⟨⟨symbol, target⟩, there, rfl⟩ := List.mem_map.1 listed
  exact ⟨target, there⟩

theorem length_row (generated : Generated grammar table) (found : At grammar s state) :
    (row grammar s).length = state.kernel.length :=
  (generated.closed.complete _).suit.length found

theorem exists_list (generated : Generated grammar table) (found : At grammar s state)
    {terminal : Nat} (inside : terminal < grammar.terminals.size + 1) : ∃ list,
      table.actionIndex[s.index * (grammar.terminals.size + 1) + terminal]? = some list ∧
      table.actionLists[list.toNat]? = some (((LrGrammar.ofGrammar grammar).cell state
        (row grammar s) terminal).map (LrAction.lower table.productions)) := by
  obtain ⟨list, cell, actions⟩ :=
    generated.lowers.matrices.cells (automaton_eq found) terminal inside
  rw [LrGrammar.lookup_actions] at actions
  rw [show (LrGrammar.ofGrammar grammar).grammar = grammar from rfl, if_pos inside] at actions
  exact ⟨list, cell, actions⟩

theorem actions_eq (generated : Generated grammar table) (found : At grammar s state)
    (inside : x.index < grammar.terminals.size + 1) :
    table.actions s x = ((LrGrammar.ofGrammar grammar).cell state (row grammar s) x.index).map
      (LrAction.lower table.productions) := by
  obtain ⟨list, cell, actions⟩ := generated.exists_list found inside
  have guard : (table.isTerminal x && decide (s.index < table.stateCount.toNat)) = true := by
    rw [Bool.and_eq_true, decide_eq_true_iff, generated.isTerminal_iff]
    exact ⟨inside, generated.lt_stateCount found⟩
  rw [Table.actions, if_pos guard, generated.lowers.terminals]
  rw [Array.getD_eq_getD_getElem?, Array.getD_eq_getD_getElem?, cell, Option.getD_some, actions,
    Option.getD_some]

theorem actions_outside (generated : Generated grammar table)
    (h : table.actions s x ≠ []) : ∃ state, At grammar s state ∧
      x.index < grammar.terminals.size + 1 := by
  unfold Table.actions at h
  split at h
  · next inside =>
    rw [Bool.and_eq_true, decide_eq_true_iff, generated.isTerminal_iff] at inside
    obtain ⟨state, found⟩ := generated.exists_at inside.2
    exact ⟨state, found, inside.1⟩
  · exact absurd rfl h

theorem fits_of_mem_cell (generated : Generated grammar table) (found : At grammar s state)
    {terminal : Nat} (inside : terminal < grammar.terminals.size + 1) {action : LrAction}
    (member : action ∈ (LrGrammar.ofGrammar grammar).cell state (row grammar s) terminal) :
    action.Fits table.productions := by
  have entry : (terminal, (LrGrammar.ofGrammar grammar).cell state (row grammar s) terminal) ∈
      ((LrGrammar.ofGrammar grammar).stateActions s.index state (row grammar s)).actions := by
    rw [LrGrammar.actions_stateActions]
    refine List.mem_filter.2 ⟨List.mem_map.2 ⟨terminal, List.mem_range.2 inside, rfl⟩, ?_⟩
    simpa using List.ne_nil_of_mem member
  exact generated.lowers.matrices.fits _ (List.mem_of_getElem? (automaton_eq found)) _ entry _
    member

theorem exists_of_mem_actions (generated : Generated grammar table) {action : Action}
    (member : action ∈ table.actions s x) :
    ∃ state lrAction, At grammar s state ∧ x.index < grammar.terminals.size + 1 ∧
      action = lrAction.lower table.productions ∧ lrAction.Fits table.productions ∧
      (LrGrammar.ofGrammar grammar).Justified state x.index lrAction := by
  obtain ⟨state, found, inside⟩ := generated.actions_outside (List.ne_nil_of_mem member)
  rw [generated.actions_eq found inside] at member
  obtain ⟨lrAction, there, rfl⟩ := List.mem_map.1 member
  exact ⟨state, lrAction, found, inside, rfl, generated.fits_of_mem_cell found inside there,
    LrGrammar.justified_of_mem_cell generated.closed.numbered (generated.isAutomaton.proper found)
      (generated.length_row found) (generated.nodup_transitions found) there⟩

theorem lower_reduce (generated : Generated grammar table) {production nonterminal : Nat}
    {flat : FlatProduction}
    (numbered : (LrGrammar.ofGrammar grammar).productions[production]? = some (nonterminal, flat))
    (fits : (LrAction.reduce production).Fits table.productions) :
    ∃ dynamicPrecedence, (LrAction.reduce production).lower table.productions
        = .reduce (grammar.symbolId (.nonterminal nonterminal)) (UInt16.ofNat flat.steps.length)
            dynamicPrecedence (ProductionId.ofNat production) ∧
      production < 0xFFFF ∧ flat.steps.length < 0xFFFF := by
  obtain ⟨lowered, inTable, lhs, steps⟩ := generated.lowers.productions.2 numbered
  simp only [LrAction.Fits, Array.getD_eq_getD_getElem?, inTable, Option.getD_some] at fits
  refine ⟨lowered.dynamicPrecedence, ?_, fits.1, steps ▸ fits.2⟩
  simp only [LrAction.lower, Array.getD_eq_getD_getElem?, inTable, Option.getD_some, lhs, steps]

theorem of_shift_mem (generated : Generated grammar table)
    (member : .shift next ∈ table.actions s x) :
    ∃ state t, At grammar s state ∧ t < grammar.terminals.size ∧
      x = grammar.symbolId (.terminal t) ∧ (.terminal t, next.index) ∈ state.transitions := by
  obtain ⟨state, lrAction, found, inside, same, fits, justified⟩ :=
    generated.exists_of_mem_actions member
  cases justified with
  | @shift t target number transition =>
    cases same
    have below : t < grammar.terminals.size := by omega
    refine ⟨state, t, found, below, SymbolId.ext_index ?_, ?_⟩
    · rw [number, generated.index_terminal below]
    · rwa [StateId.index_ofNat fits]
  | reduce => cases same
  | accept => cases same

theorem of_reduce_mem (generated : Generated grammar table) {symbol : SymbolId} {count : UInt16}
    {dynamicPrecedence : Int16} {production : ProductionId}
    (member : .reduce symbol count dynamicPrecedence production ∈ table.actions s x) :
    ∃ state nonterminal flat, At grammar s state ∧
      (LrGrammar.ofGrammar grammar).productions[production.index]? = some (nonterminal, flat) ∧
      symbol = grammar.symbolId (.nonterminal nonterminal) ∧
      count.toNat = flat.steps.length ∧
      ⟨production.index, flat.steps.length⟩ ∈
        (LrGrammar.ofGrammar grammar).items state.kernel := by
  obtain ⟨state, lrAction, found, inside, same, fits, justified⟩ :=
    generated.exists_of_mem_actions member
  cases justified with
  | shift => cases same
  | @reduce id known complete =>
    obtain ⟨⟨nonterminal, flat⟩, there⟩ :
        ∃ entry, (LrGrammar.ofGrammar grammar).productions[id]? = some entry :=
      ⟨_, Array.getElem?_eq_getElem known⟩
    obtain ⟨_, lower, few, short⟩ := generated.lower_reduce there fits
    cases same.trans lower
    rw [ProductionId.index_ofNat few, toNat_ofNat short]
    refine ⟨state, nonterminal, flat, found, there, rfl, rfl, ?_⟩
    simpa [LrGrammar.stepsOf, there] using complete
  | accept => cases same

theorem of_accept_mem (generated : Generated grammar table) (member : .accept ∈ table.actions s x) :
    ∃ state, At grammar s state ∧ x = SymbolId.endOfInput ∧
      ⟨(LrGrammar.ofGrammar grammar).augmented, 1⟩ ∈ state.kernel := by
  obtain ⟨state, lrAction, found, inside, same, _, justified⟩ :=
    generated.exists_of_mem_actions member
  cases justified with
  | shift => cases same
  | reduce => cases same
  | accept atEnd start => exact ⟨state, found, SymbolId.ext_index atEnd, start⟩

theorem gotos_eq (lr : LrGrammar) (id : Nat) (state : LrState) (row : List BitSet) :
    (lr.stateActions id state row).gotos = state.transitions.filterMap fun entry =>
      match entry.1 with
      | .terminal _ => none
      | .nonterminal index => some (index, entry.2) := rfl

theorem mem_gotos {lr : LrGrammar} {id nonterminal target : Nat} {row : List BitSet} :
    (nonterminal, target) ∈ (lr.stateActions id state row).gotos ↔
      (.nonterminal nonterminal, target) ∈ state.transitions := by
  rw [gotos_eq, List.mem_filterMap]
  constructor
  · rintro ⟨⟨symbol, other⟩, there, same⟩
    cases symbol with
    | terminal t => contradiction
    | nonterminal n =>
      cases same
      exact there
  · exact fun there => ⟨_, there, rfl⟩

theorem nodup_gotos {lr : LrGrammar} {id : Nat} {row : List BitSet}
    (nodup : (state.transitions.map (·.1)).Nodup) :
    ((lr.stateActions id state row).gotos.map (·.1)).Nodup := by
  rw [gotos_eq]
  generalize state.transitions = transitions at nodup
  induction transitions with
  | nil => simp
  | cons entry transitions ih =>
    obtain ⟨symbol, target⟩ := entry
    rw [List.map_cons, List.nodup_cons] at nodup
    cases symbol with
    | terminal t => exact ih nodup.2
    | nonterminal n =>
      change (List.map (·.1) ((n, target) :: List.filterMap _ transitions)).Nodup
      rw [List.map_cons, List.nodup_cons]
      refine ⟨fun member => nodup.1 ?_, ih nodup.2⟩
      obtain ⟨⟨_, other⟩, listed, rfl⟩ := List.mem_map.1 member
      obtain ⟨⟨symbol, _⟩, there, same⟩ := List.mem_filterMap.1 listed
      cases symbol with
      | terminal t => contradiction
      | nonterminal n =>
        cases same
        exact List.mem_map.2 ⟨_, there, rfl⟩

theorem goto?_eq (generated : Generated grammar table) (found : At grammar s state)
    {nonterminal : Nat} (inside : nonterminal < grammar.nonterminals.size) :
    table.goto? s (grammar.symbolId (.nonterminal nonterminal)) =
      (((LrGrammar.ofGrammar grammar).stateActions s.index state (row grammar s)).gotos.lookup
        nonterminal).map StateId.ofNat := by
  have cell := generated.lowers.matrices.follows (automaton_eq found) nonterminal inside
  have guard : (table.isRule (grammar.symbolId (.nonterminal nonterminal)) &&
      decide (s.index < table.stateCount.toNat)) = true := by
    rw [Bool.and_eq_true, decide_eq_true_iff]
    exact ⟨generated.isRule_nonterminal inside, generated.lt_stateCount found⟩
  rw [Table.goto?, if_pos guard, generated.lowers.terminals, generated.lowers.rules,
    generated.index_nonterminal inside, Nat.add_sub_cancel_left]
  dsimp only
  rw [Array.getD_eq_getD_getElem?, cell, Option.getD_some]
  cases there : ((LrGrammar.ofGrammar grammar).stateActions s.index state
      (row grammar s)).gotos.lookup nonterminal with
  | none => rfl
  | some target =>
    have bound : target < 0xFFFF := generated.lowers.matrices.bounds _
      (List.mem_of_getElem? (automaton_eq found)) _ ((LrGrammar.lookup_eq_some_iff_mem
        (nodup_gotos (generated.nodup_transitions found))).1 there)
    have other : (StateId.ofNat target).isNone = false := by
      refine beq_false_of_ne fun same => ?_
      have := congrArg StateId.index same
      rw [StateId.index_ofNat bound] at this
      exact Nat.ne_of_lt bound this
    simp [other]

theorem goto?_of_transition (generated : Generated grammar table) (found : At grammar s state)
    {nonterminal target : Nat} (transition : (.nonterminal nonterminal, target) ∈ state.transitions)
    (inside : nonterminal < grammar.nonterminals.size) :
    table.goto? s (grammar.symbolId (.nonterminal nonterminal)) = some (StateId.ofNat target) := by
  rw [generated.goto?_eq found inside, (LrGrammar.lookup_eq_some_iff_mem
    (nodup_gotos (generated.nodup_transitions found))).2 (mem_gotos.2 transition), Option.map_some]

theorem of_goto?_eq_some (generated : Generated grammar table)
    (h : table.goto? s x = some next) : ∃ state nonterminal, At grammar s state ∧
      nonterminal < grammar.nonterminals.size ∧ x = grammar.symbolId (.nonterminal nonterminal) ∧
      (.nonterminal nonterminal, next.index) ∈ state.transitions := by
  have guard : table.isRule x = true ∧ s.index < table.stateCount.toNat := by
    unfold Table.goto? at h
    split at h
    · next guard => simpa using guard
    · contradiction
  obtain ⟨state, found⟩ := generated.exists_at guard.2
  obtain ⟨nonterminal, inside, rfl⟩ := generated.exists_nonterminal guard.1
  rw [generated.goto?_eq found inside, Option.map_eq_some_iff] at h
  obtain ⟨target, there, rfl⟩ := h
  have transition := mem_gotos.1 ((LrGrammar.lookup_eq_some_iff_mem
    (nodup_gotos (generated.nodup_transitions found))).1 there)
  refine ⟨state, nonterminal, found, inside, rfl, ?_⟩
  rwa [StateId.index_ofNat (generated.at_target found transition).1]

end Generated

theorem laidOut_of_compile {grammar : Grammar} {compiled : Compiled}
    (h : grammar.compile = .ok compiled) : ∃ prepared, grammar.prepare = .ok prepared ∧
      prepared.LaidOut (LrGrammar.ofGrammar prepared) (LrGrammar.ofGrammar prepared).automaton
        compiled.table := by
  unfold Grammar.compile at h
  obtain ⟨prepared, prepare, h⟩ := bind_ok h
  obtain ⟨table, laidOut, h⟩ := bind_ok h
  cases h
  exact ⟨prepared, prepare, PreparedGrammar.laidOut_of_table laidOut⟩

theorem conflicts_of_compile {grammar : Grammar} {compiled : Compiled} {prepared : PreparedGrammar}
    (prepare : grammar.prepare = .ok prepared) (h : grammar.compile = .ok compiled) :
    compiled.conflicts
      = (LrGrammar.ofGrammar prepared).automaton.toList.flatMap (·.conflicts) := by
  unfold Grammar.compile at h
  obtain ⟨_, prepare', h⟩ := bind_ok h
  cases prepare.symm.trans prepare'
  obtain ⟨_, _, h⟩ := bind_ok h
  cases h
  rfl

theorem PreparedGrammar.LaidOut.generated {grammar : PreparedGrammar} {table : Table}
    (laidOut : grammar.LaidOut (LrGrammar.ofGrammar grammar)
      (LrGrammar.ofGrammar grammar).automaton table) (wellFormed : grammar.WellFormed) :
    Generated grammar table := by
  refine ⟨wellFormed, laidOut.lowers fun state member => ?_⟩
  obtain ⟨id, inside, rfl⟩ := Array.mem_iff_getElem.1 member
  simp only [LrGrammar.automaton, Array.getElem_mapIdx]
  refine ⟨LrGrammar.nodup_actions, Generated.nodup_gotos ?_⟩
  have found := Array.getElem?_eq_getElem
    (show id < (LrGrammar.ofGrammar grammar).states.size from
      Generated.size_automaton grammar ▸ inside)
  rw [(LrGrammar.numbered_ofGrammar grammar).automaton.symbols found]
  exact LrGrammar.nodup_symbolsAt

theorem generated_of_compile {grammar : Grammar} {compiled : Compiled}
    (h : grammar.compile = .ok compiled) : ∃ prepared, grammar.prepare = .ok prepared ∧
      Generated prepared compiled.table := by
  obtain ⟨prepared, prepare, laidOut⟩ := laidOut_of_compile h
  exact ⟨prepared, prepare, laidOut.generated (Grammar.prepare_sound prepare).1⟩

theorem externalTokens_of_compile {grammar : Grammar} {compiled : Compiled}
    (none : grammar.externals = []) (h : grammar.compile = .ok compiled) :
    compiled.table.externalTokens = #[] := by
  obtain ⟨prepared, prepare, laidOut⟩ := laidOut_of_compile h
  rw [laidOut.externals, Grammar.externals_of_prepare none prepare]
  rfl

end IncrementalGlr
