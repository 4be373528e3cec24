import Mathlib
import IncrementalGlr.Proofs.Table.Path

/-!
# The automaton recognizes the grammar

A table is run as a machine on the states of a stack, which does any one of the actions that it
finds. Whatever the machine accepts is derived by the grammar, because its stack is a path of the
automaton. If nothing in the grammar has a precedence or an associativity, it accepts all that is
derived, because lookaheads are complete.
-/

namespace IncrementalGlr

def nextSymbol (word : List SymbolId) : SymbolId := word.head?.getD SymbolId.endOfInput

inductive Table.Move (table : Table) :
    StateTrace × List SymbolId → StateTrace × List SymbolId → Prop
  | shift {trace : StateTrace} {terminal : SymbolId} {word : List SymbolId} {next : StateId}
      (chosen : .shift next ∈ table.actions trace.state terminal) :
      Table.Move table (trace, terminal :: word) (next :: trace, word)
  | reduce {trace : StateTrace} {word : List SymbolId} {symbol : SymbolId} {count : UInt16}
      {dynamicPrecedence : Int16} {production : ProductionId} {next : StateId}
      (chosen : .reduce symbol count dynamicPrecedence production
        ∈ table.actions trace.state (nextSymbol word))
      (enough : count.toNat ≤ trace.length)
      (goes : table.goto? (StateTrace.state (trace.drop count.toNat)) symbol = some next) :
      Table.Move table (trace, word) (next :: trace.drop count.toNat, word)

def Table.Accepts (table : Table) (word : List SymbolId) : Prop :=
  ∃ trace, Relation.ReflTransGen table.Move ([], word) (trace, []) ∧
    .accept ∈ table.actions (StateTrace.state trace) SymbolId.endOfInput

namespace Generated

variable {grammar : PreparedGrammar} {table : Table} {trace : StateTrace} {symbols : List Sym}
  {state : LrState} {item : Item}

def Reads (grammar : PreparedGrammar) (word : List SymbolId)
    (configuration : StateTrace × List SymbolId) : Prop :=
  ∃ symbols own, Path grammar configuration.1 symbols ∧
    grammar.Yields symbols.reverse own ∧ (∀ t ∈ own, t < grammar.terminals.size) ∧
    own.map (fun t => grammar.symbolId (.terminal t)) ++ configuration.2 = word

theorem Reads.move (generated : Generated grammar table) {word : List SymbolId}
    {before after : StateTrace × List SymbolId} (reads : Reads grammar word before)
    (move : table.Move before after) : Reads grammar word after := by
  obtain ⟨symbols, own, path, yields, known, rfl⟩ := reads
  cases move with
  | @shift trace terminal rest next chosen =>
    obtain ⟨state, t, found, inside, rfl, transition⟩ := generated.of_shift_mem chosen
    refine ⟨.terminal t :: symbols, own ++ [t], .cons path found transition, ?_, ?_, by simp⟩
    · rw [List.reverse_cons]
      exact yields.append (.terminal t .nil)
    · intro other member
      rcases List.mem_append.1 member with member | member
      · exact known other member
      · exact List.mem_singleton.1 member ▸ inside
  | @reduce trace rest symbol count dynamicPrecedence production next chosen enough goes =>
    obtain ⟨nonterminal, flat, member, _, _, read, path'⟩ := path.reduced generated chosen goes
    refine ⟨_, own, path', ?_, known, rfl⟩
    rw [← List.take_append_drop count.toNat symbols, List.reverse_append, read] at yields
    obtain ⟨front, back, rfl, yields, inner⟩ := yields.split
    rw [List.reverse_cons]
    exact yields.append (by simpa using PreparedGrammar.Yields.nonterminal member inner .nil)

theorem index_terminals (generated : Generated grammar table) {own : List Nat}
    (known : ∀ t ∈ own, t < grammar.terminals.size) :
    (own.map fun t => grammar.symbolId (.terminal t)).map (fun symbol => symbol.index - 1)
      = own := by
  rw [List.map_map]
  refine (List.map_congr_left fun t member => ?_).trans (List.map_id own)
  rw [Function.comp_apply, generated.index_terminal (known t member), Nat.add_sub_cancel, id]

theorem exists_of_accepts (generated : Generated grammar table) {word : List SymbolId}
    (accepts : table.Accepts word) : ∃ own ∈ grammar.cfg.language,
      (∀ t ∈ own, t < grammar.terminals.size) ∧
      own.map (fun t => grammar.symbolId (.terminal t)) = word := by
  obtain ⟨trace, run, accept⟩ := accepts
  have reads : Reads grammar word (trace, []) := by
    refine Relation.ReflTransGen.head_induction_on (motive := fun before _ =>
      Reads grammar word before → Reads grammar word (trace, [])) run id
      (fun move _ ih reads => ih (reads.move generated move)) ?_
    exact ⟨[], [], .nil, .nil, by simp, rfl⟩
  obtain ⟨symbols, own, path, yields, known, same⟩ := reads
  cases path.accepted generated accept
  refine ⟨own, PreparedGrammar.mem_language_iff_yields.2 yields, known, ?_⟩
  simpa using same

theorem exists_shift (generated : Generated grammar table) (unranked : grammar.Unranked)
    (found : At grammar trace.state state)
    (member : item ∈ (LrGrammar.ofGrammar grammar).items state.kernel) {t : Nat}
    (here : (LrGrammar.ofGrammar grammar).symbolAt? item = some (.terminal t))
    (word : List SymbolId) :
    ∃ next after, table.Move (trace, grammar.symbolId (.terminal t) :: word) (next :: trace, word) ∧
      At grammar next after ∧ (.terminal t, next.index) ∈ state.transitions ∧
      item.next ∈ (LrGrammar.ofGrammar grammar).items after.kernel := by
  obtain ⟨target, transition⟩ := generated.exists_transition found member here
  obtain ⟨bound, after, found', kernel⟩ := generated.at_target found transition
  have inside : t < grammar.terminals.size := generated.closed.has_symbolAt? here
  refine ⟨StateId.ofNat target, after, .shift ?_, found', ?_, LrGrammar.mem_items.2 (.inl ?_)⟩
  · rw [generated.actions_eq found (by rw [generated.index_terminal inside]; omega),
      generated.index_terminal inside]
    exact List.mem_map.2 ⟨.shift target, (generated.closed.unranked unranked).shift_mem_cell
      (generated.nodup_transitions found) transition, rfl⟩
  · rwa [StateId.index_ofNat bound]
  · rw [kernel]
    exact LrGrammar.mem_goto.2 ⟨item, member, here, rfl⟩

theorem exists_goto (generated : Generated grammar table) (found : At grammar trace.state state)
    (member : item ∈ (LrGrammar.ofGrammar grammar).items state.kernel) {nonterminal : Nat}
    (here : (LrGrammar.ofGrammar grammar).symbolAt? item = some (.nonterminal nonterminal)) :
    ∃ next after,
      table.goto? trace.state (grammar.symbolId (.nonterminal nonterminal)) = some next ∧
      At grammar next after ∧ (.nonterminal nonterminal, next.index) ∈ state.transitions ∧
      item.next ∈ (LrGrammar.ofGrammar grammar).items after.kernel := by
  obtain ⟨target, transition⟩ := generated.exists_transition found member here
  obtain ⟨bound, after, found', kernel⟩ := generated.at_target found transition
  refine ⟨StateId.ofNat target, after, generated.goto?_of_transition found transition
    (generated.closed.has_symbolAt? here), found', ?_, LrGrammar.mem_items.2 (.inl ?_)⟩
  · rwa [StateId.index_ofNat bound]
  · rw [kernel]
    exact LrGrammar.mem_goto.2 ⟨item, member, here, rfl⟩

theorem reduce_mem (generated : Generated grammar table) (unranked : grammar.Unranked)
    (found : At grammar trace.state state) {production nonterminal : Nat} {flat : FlatProduction}
    (numbered : (LrGrammar.ofGrammar grammar).productions[production]? = some (nonterminal, flat))
    (complete : ⟨production, flat.steps.length⟩ ∈ (LrGrammar.ofGrammar grammar).items state.kernel)
    {x : SymbolId} (followed : (follows grammar trace.state state
      ⟨production, flat.steps.length⟩).contains x.index = true) :
    ∃ count dynamicPrecedence id, count.toNat = flat.steps.length ∧
      .reduce (grammar.symbolId (.nonterminal nonterminal)) count dynamicPrecedence id ∈
        table.actions trace.state x := by
  have inside := generated.closed.within_lookaheadIn (generated.closed.complete _).suit
    trace.state.index state _ _ followed
  have steps : (LrGrammar.ofGrammar grammar).stepsOf production = flat.steps := by
    simp [LrGrammar.stepsOf, numbered]
  have member : .reduce production ∈
      (LrGrammar.ofGrammar grammar).cell state (row grammar trace.state) x.index :=
    (generated.closed.unranked unranked).reduce_mem_cell (generated.length_row found)
      (Array.getElem?_eq_some_iff.1 numbered).1 (steps ▸ complete) (steps ▸ followed)
  obtain ⟨dynamicPrecedence, lower, _, short⟩ :=
    generated.lower_reduce numbered (generated.fits_of_mem_cell found inside member)
  refine ⟨_, dynamicPrecedence, ProductionId.ofNat production, toNat_ofNat short, ?_⟩
  rw [generated.actions_eq found inside, ← lower]
  exact List.mem_map_of_mem member

def Followed (grammar : PreparedGrammar) (trace : StateTrace) (item : Item)
    (word : List SymbolId) : Prop :=
  ∃ state, At grammar trace.state state ∧
    item ∈ (LrGrammar.ofGrammar grammar).items state.kernel ∧
    (follows grammar trace.state state item).contains (nextSymbol word).index = true

theorem Followed.next (generated : Generated grammar table) {word : List SymbolId} {symbol : Sym}
    {next : StateId} {after : LrState} (found : At grammar trace.state state)
    (member : item ∈ (LrGrammar.ofGrammar grammar).items state.kernel)
    (here : (LrGrammar.ofGrammar grammar).symbolAt? item = some symbol)
    (transition : (symbol, next.index) ∈ state.transitions) (found' : At grammar next after)
    (member' : item.next ∈ (LrGrammar.ofGrammar grammar).items after.kernel)
    (followed : (follows grammar trace.state state item).contains (nextSymbol word).index = true) :
    Followed grammar (next :: trace) item.next word :=
  ⟨after, found', member', (generated.closed.complete _).passes generated.isAutomaton found member
    here transition found' followed⟩

theorem Followed.start (generated : Generated grammar table) {word : List SymbolId}
    (followed : Followed grammar trace item word) {step : Step} {rest : List Step}
    {nonterminal production : Nat} {flat : FlatProduction} {more : List Nat}
    (here : (LrGrammar.ofGrammar grammar).rest item = step :: rest)
    (called : step.symbol = .nonterminal nonterminal)
    (numbered : (LrGrammar.ofGrammar grammar).productions[production]? = some (nonterminal, flat))
    (yields : grammar.Yields (rest.map (·.symbol)) more) :
    Followed grammar trace ⟨production, 0⟩
      (more.map (fun t => grammar.symbolId (.terminal t)) ++ word) := by
  obtain ⟨state, found, member, follows⟩ := followed
  have complete := generated.closed.complete (LrGrammar.ofGrammar grammar).states
  obtain ⟨nullable, first⟩ := generated.closed.first.of_yields yields rfl
  have symbol : (LrGrammar.ofGrammar grammar).symbolAt? item = some (.nonterminal nonterminal) := by
    rw [LrGrammar.symbolAt?, here, List.head?_cons, Option.map_some, called]
  refine ⟨state, found, generated.closed.mem_items_start member symbol numbered,
    complete.calls generated.closed generated.isAutomaton found member here called numbered ?_⟩
  cases more with
  | nil => exact .inr ⟨nullable rfl, follows⟩
  | cons t more =>
    have begins := first t rfl
    have inside : t < grammar.terminals.size :=
      Nat.lt_of_succ_lt_succ (generated.closed.within_ofSteps_rest here _ begins)
    refine .inl ?_
    rw [List.map_cons, List.cons_append, nextSymbol, List.head?_cons, Option.getD_some,
      generated.index_terminal inside]
    exact begins

theorem exists_run (generated : Generated grammar table) (unranked : grammar.Unranked)
    {symbols : List Sym} {own : List Nat} (yields : grammar.Yields symbols own) {item : Item}
    (rest : ((LrGrammar.ofGrammar grammar).rest item).map (·.symbol) = symbols)
    {trace : StateTrace} {word : List SymbolId} (followed : Followed grammar trace item word) :
    ∃ pushed : StateTrace, pushed.length = symbols.length ∧
      Relation.ReflTransGen table.Move
        (trace, own.map (fun t => grammar.symbolId (.terminal t)) ++ word) (pushed ++ trace, word) ∧
      Followed grammar (pushed ++ trace) ⟨item.production, item.dot + symbols.length⟩ word := by
  induction yields generalizing item trace word with
  | nil => exact ⟨[], rfl, .refl, followed⟩
  | @terminal t symbols own _ ih =>
    obtain ⟨step, steps, whole, terminal, same⟩ := List.map_eq_cons_iff.1 rest
    have here : (LrGrammar.ofGrammar grammar).symbolAt? item = some (.terminal t) := by
      rw [LrGrammar.symbolAt?, whole, List.head?_cons, Option.map_some, terminal]
    obtain ⟨_, _, whole'⟩ := LrGrammar.rest_of_symbolAt? here
    obtain ⟨state, found, member, follows⟩ := followed
    obtain ⟨next, after, move, found', transition, member'⟩ := generated.exists_shift unranked
      found member here (own.map (fun t => grammar.symbolId (.terminal t)) ++ word)
    obtain ⟨pushed, length, run, followed⟩ := ih
      (by rw [← same, ← (List.cons.inj (whole.symm.trans whole')).2])
      (Followed.next generated found member here transition found' member' follows)
    refine ⟨pushed ++ [next], by simp [length], ?_, ?_⟩
    · rw [List.append_assoc]
      exact .head move run
    · rw [List.append_assoc, List.length_cons, Nat.add_comm symbols.length, ← Nat.add_assoc]
      exact followed
  | @nonterminal n production symbols own more member yields _ inner later =>
    obtain ⟨step, steps, whole, nonterminal, rfl⟩ := List.map_eq_cons_iff.1 rest
    have here : (LrGrammar.ofGrammar grammar).symbolAt? item = some (.nonterminal n) := by
      rw [LrGrammar.symbolAt?, whole, List.head?_cons, Option.map_some, nonterminal]
    obtain ⟨_, _, whole'⟩ := LrGrammar.rest_of_symbolAt? here
    obtain ⟨number, numbered⟩ :=
      (generated.closed.numbered.mem_productionsOf n production).1 member
    -- first the production itself
    have whole'' : ((LrGrammar.ofGrammar grammar).rest ⟨number, 0⟩).map (·.symbol)
        = production.symbols := by
      simp [LrGrammar.rest, LrGrammar.stepsOf, numbered, FlatProduction.symbols]
    obtain ⟨pushed, length, run, complete⟩ := inner whole''
      (followed.start generated whole nonterminal numbered ‹_›)
    rw [Nat.zero_add, show production.symbols.length = production.steps.length by
      simp [FlatProduction.symbols]] at complete
    rw [show production.symbols.length = production.steps.length by
      simp [FlatProduction.symbols]] at length
    obtain ⟨last, foundLast, complete, follows⟩ := complete
    obtain ⟨count, dynamicPrecedence, id, counted, chosen⟩ :=
      generated.reduce_mem unranked foundLast numbered complete follows
    -- then its reduction
    obtain ⟨state, found, member', follows⟩ := followed
    obtain ⟨next, after, goes, found', transition, behind⟩ :=
      generated.exists_goto found member' here
    have below : (pushed ++ trace).drop count.toNat = trace := by
      rw [counted, ← length, List.drop_left]
    have move : table.Move
        (pushed ++ trace, more.map (fun t => grammar.symbolId (.terminal t)) ++ word)
        (next :: trace, more.map (fun t => grammar.symbolId (.terminal t)) ++ word) := by
      rw [← below] at goes
      have move := Table.Move.reduce chosen (by rw [counted, ← length]; simp) goes
      rwa [below] at move
    -- and what comes behind it
    obtain ⟨pushed', length', run', followed⟩ := later
      (by rw [← (List.cons.inj (whole.symm.trans whole')).2])
      (Followed.next generated found member' here transition found' behind follows)
    refine ⟨pushed' ++ [next], by simp [length'], ?_, ?_⟩
    · rw [List.map_append, List.append_assoc, List.append_assoc]
      exact run.trans (.head move run')
    · rw [List.append_assoc, List.length_cons, Nat.add_comm (steps.map _).length, ← Nat.add_assoc]
      exact followed

theorem accepts_of_mem_language (generated : Generated grammar table)
    (unranked : grammar.Unranked) {word : List Nat} (member : word ∈ grammar.cfg.language) :
    table.Accepts (word.map fun t => grammar.symbolId (.terminal t)) := by
  obtain ⟨state, found, kernel⟩ := generated.isAutomaton.start
  have start : Followed grammar [] ⟨(LrGrammar.ofGrammar grammar).augmented, 0⟩ [] := by
    refine ⟨state, found, LrGrammar.mem_items.2 (.inl ?_), ?_⟩
    · rw [kernel]
      exact List.mem_singleton_self _
    · exact (generated.closed.complete _).at_start found kernel
  obtain ⟨pushed, _, run, state, found, complete, _⟩ := generated.exists_run unranked
    (PreparedGrammar.mem_language_iff_yields.1 member)
    (by simp [LrGrammar.rest, LrGrammar.stepsOf, LrGrammar.augmented, Step.plain]) start
  rw [List.append_nil] at run found
  refine ⟨pushed, by simpa using run, ?_⟩
  have first : SymbolId.endOfInput.index < grammar.terminals.size + 1 := Nat.succ_pos _
  rw [generated.actions_eq found first]
  exact List.mem_map.2 ⟨.accept,
    LrGrammar.accept_mem_cell (generated.mem_kernel_of_dot complete (Nat.succ_pos _)), rfl⟩

end Generated

/-- The automaton of a grammar without ranks recognizes exactly the grammar. -/
theorem accepts_iff_mem_language {grammar : Grammar} {compiled : Compiled}
    {prepared : PreparedGrammar} (compile : grammar.compile = .ok compiled)
    (prepare : grammar.prepare = .ok prepared) (unranked : grammar.isUnranked = true)
    {word : List Nat} (terminals : ∀ t ∈ word, t < prepared.terminals.size) :
    compiled.table.Accepts (word.map fun t => prepared.symbolId (.terminal t)) ↔
      word ∈ prepared.cfg.language := by
  obtain ⟨other, prepare', generated⟩ := generated_of_compile compile
  cases prepare.symm.trans prepare'
  constructor
  · intro accepts
    obtain ⟨own, member, known, same⟩ := generated.exists_of_accepts accepts
    rw [← generated.index_terminals terminals, ← same, generated.index_terminals known]
    exact member
  · exact generated.accepts_of_mem_language ((Grammar.prepare_sound prepare).2 unranked)

def letterGrammar : Grammar where
  name := "letters"
  rules := [("s", .choice [.seq [.symbol "s", .string "a"], .blank])]
  extras := []
  externals := []
  word := none
  supertypes := []
  reserved := []
  precedences := []

theorem exists_ok_of_isSome {ε α : Type} {x : Except ε α} (h : x.toOption.isSome = true) :
    ∃ a, x = .ok a :=
  (Option.isSome_iff_exists.1 h).imp fun _ => ok_of_toOption

theorem accepts_iff_mem_language_letters : ∃ compiled prepared,
    letterGrammar.compile = .ok compiled ∧ letterGrammar.prepare = .ok prepared ∧
      (compiled.table.Accepts ([0, 0].map fun t => prepared.symbolId (.terminal t)) ↔
        [0, 0] ∈ prepared.cfg.language) := by
  obtain ⟨compiled, compile⟩ : ∃ compiled, letterGrammar.compile = .ok compiled :=
    exists_ok_of_isSome (by cbv)
  obtain ⟨prepared, prepare⟩ : ∃ prepared, letterGrammar.prepare = .ok prepared :=
    exists_ok_of_isSome (by decide +kernel)
  have terminals : (letterGrammar.prepare.toOption.any fun prepared =>
      prepared.terminals.size == 1) = true := by decide +kernel
  rw [prepare] at terminals
  have size : prepared.terminals.size = 1 := by simpa [Except.toOption] using terminals
  exact ⟨compiled, prepared, compile, prepare,
    accepts_iff_mem_language compile prepare (by decide +kernel) (by simp [size])⟩

end IncrementalGlr
