import IncrementalGlr.Parse.Recovery
import IncrementalGlr.Proofs.Table.Automaton

/-!
# Paths of the automaton

The states of a stack are reached one after the other along the symbols that were pushed. What
stands before the place of an item of the last state was read last, so that a reduction finds its
production on the path.
-/

namespace IncrementalGlr

namespace Generated

variable {grammar : PreparedGrammar} {table : Table} {trace : StateTrace} {symbols : List Sym}
  {state : LrState} {item : Item}

inductive Path (grammar : PreparedGrammar) : StateTrace → List Sym → Prop
  | nil : Path grammar [] []
  | cons {trace : StateTrace} {symbols : List Sym} {state : LrState} {symbol : Sym}
      {next : StateId} (below : Path grammar trace symbols) (found : At grammar trace.state state)
      (transition : (symbol, next.index) ∈ state.transitions) :
      Path grammar (next :: trace) (symbol :: symbols)

theorem Path.length (path : Path grammar trace symbols) : trace.length = symbols.length := by
  induction path with
  | nil => rfl
  | cons _ _ _ ih => rw [List.length_cons, List.length_cons, ih]

theorem Path.drop (path : Path grammar trace symbols) (n : Nat) :
    Path grammar (trace.drop n) (symbols.drop n) := by
  induction path generalizing n with
  | nil => simpa using Path.nil
  | cons below found transition ih =>
    cases n with
    | zero => exact .cons below found transition
    | succ n => exact ih n

theorem at_start (generated : Generated grammar table)
    (found : At grammar (StateTrace.state []) state) :
    state.kernel = (LrGrammar.ofGrammar grammar).startKernel := by
  obtain ⟨start, there, kernel⟩ := generated.isAutomaton.start
  cases found.symm.trans there
  exact kernel

theorem kernel_of_transition (generated : Generated grammar table) {s next : StateId}
    {after : LrState} {symbol : Sym} (found : At grammar s state)
    (transition : (symbol, next.index) ∈ state.transitions) (found' : At grammar next after) :
    after.kernel = (LrGrammar.ofGrammar grammar).goto
      ((LrGrammar.ofGrammar grammar).items state.kernel) symbol := by
  obtain ⟨_, other, there, kernel⟩ := generated.at_target found transition
  rw [StateId.ofNat_index] at there
  cases found'.symm.trans there
  exact kernel

theorem mem_kernel_of_dot (generated : Generated grammar table)
    (member : item ∈ (LrGrammar.ofGrammar grammar).items state.kernel) (dot : 0 < item.dot) :
    item ∈ state.kernel := by
  rcases LrGrammar.mem_items.1 member with old | ⟨_, _, start⟩
  · exact old
  · have := (generated.closed.numbered.mem_startItems.1 start).1
    omega

theorem Path.viable (generated : Generated grammar table) (path : Path grammar trace symbols)
    (found : At grammar trace.state state)
    (member : item ∈ (LrGrammar.ofGrammar grammar).items state.kernel) :
    item.dot ≤ symbols.length ∧
      (symbols.take item.dot).reverse =
        (((LrGrammar.ofGrammar grammar).stepsOf item.production).take item.dot).map (·.symbol) ∧
      ∃ below, At grammar (StateTrace.state (trace.drop item.dot)) below ∧
        ⟨item.production, 0⟩ ∈ (LrGrammar.ofGrammar grammar).items below.kernel := by
  induction path generalizing state item with
  | nil =>
    have start : item.dot = 0 := by
      rcases Nat.eq_zero_or_pos item.dot with zero | positive
      · exact zero
      · have old := generated.mem_kernel_of_dot member positive
        rw [generated.at_start found] at old
        rw [List.mem_singleton.1 old] at positive
        exact absurd positive (Nat.lt_irrefl 0)
    obtain ⟨production, dot⟩ := item
    cases start
    exact ⟨Nat.le_refl _, rfl, state, found, member⟩
  | @cons trace symbols before symbol next below found' transition ih =>
    obtain ⟨production, dot⟩ := item
    cases dot with
    | zero => exact ⟨Nat.zero_le _, rfl, state, found, member⟩
    | succ dot =>
      have old := generated.mem_kernel_of_dot member (Nat.succ_pos _)
      rw [generated.kernel_of_transition found' transition found] at old
      obtain ⟨item, there, here, same⟩ := LrGrammar.mem_goto.1 old
      obtain rfl : item = ⟨production, dot⟩ := by
        cases item
        simpa [Item.next] using same
      obtain ⟨length, read, start⟩ := ih found' there
      obtain ⟨step, rfl, rest⟩ := LrGrammar.rest_of_symbolAt? here
      refine ⟨Nat.succ_le_succ length, ?_, start⟩
      have at_ : ((LrGrammar.ofGrammar grammar).stepsOf production)[dot]? = some step := by
        rw [← List.head?_drop]
        exact congrArg List.head? rest
      dsimp only at read ⊢
      rw [List.take_succ_cons, List.reverse_cons, read, List.take_add_one, at_]
      simp

theorem Path.eq_nil (generated : Generated grammar table) (path : Path grammar trace symbols)
    (found : At grammar trace.state state)
    (member : ⟨(LrGrammar.ofGrammar grammar).augmented, 0⟩ ∈
      (LrGrammar.ofGrammar grammar).items state.kernel) : trace = [] := by
  cases path with
  | nil => rfl
  | cons below found' transition =>
    rcases LrGrammar.mem_items.1 member with old | ⟨_, _, start⟩
    · rw [generated.kernel_of_transition found' transition found] at old
      obtain ⟨before, _, _, same⟩ := LrGrammar.mem_goto.1 old
      exact absurd (congrArg Item.dot same) (Nat.succ_ne_zero _)
    · have := (generated.closed.numbered.lt_of_mem_startItems start).2
      exact absurd this (Nat.lt_irrefl _)

theorem Path.accepted (generated : Generated grammar table) (path : Path grammar trace symbols)
    {x : SymbolId} (accepts : .accept ∈ table.actions trace.state x) :
    symbols = [.nonterminal 0] := by
  obtain ⟨state, found, _, complete⟩ := generated.of_accept_mem accepts
  obtain ⟨length, read, below, found', start⟩ :=
    path.viable generated found (LrGrammar.mem_items.2 (.inl complete))
  have bottom := (path.drop 1).eq_nil generated found' start
  have one : symbols.length = 1 := by
    have := congrArg List.length bottom
    rw [List.length_drop, path.length, List.length_nil] at this
    dsimp only at length
    omega
  obtain ⟨symbol, rfl⟩ := List.length_eq_one_iff.1 one
  simpa [LrGrammar.stepsOf, LrGrammar.augmented, Step.plain] using read

theorem Path.reduced (generated : Generated grammar table) (path : Path grammar trace symbols)
    {x symbol : SymbolId} {count : UInt16} {dynamicPrecedence : Int16} {production : ProductionId}
    {next : StateId}
    (chosen : .reduce symbol count dynamicPrecedence production ∈ table.actions trace.state x)
    (goes : table.goto? (StateTrace.state (trace.drop count.toNat)) symbol = some next) :
    ∃ nonterminal flat, flat ∈ grammar.productionsOf nonterminal ∧
      (LrGrammar.ofGrammar grammar).productions[production.index]? = some (nonterminal, flat) ∧
      symbol = grammar.symbolId (.nonterminal nonterminal) ∧
      (symbols.take count.toNat).reverse = flat.symbols ∧
      Path grammar (next :: trace.drop count.toNat)
        (.nonterminal nonterminal :: symbols.drop count.toNat) := by
  obtain ⟨state, nonterminal, flat, found, there, rfl, length, complete⟩ :=
    generated.of_reduce_mem chosen
  obtain ⟨below, other, found', inside, same, transition⟩ := generated.of_goto?_eq_some goes
  obtain ⟨member, known, _⟩ := generated.of_numbered there
  cases generated.symbolId_injective (.nonterminal nonterminal) (.nonterminal other) known inside
    same
  refine ⟨nonterminal, flat, member, there, rfl, ?_, .cons (path.drop _) found' transition⟩
  have read := (path.viable generated found complete).2.1
  dsimp only at read
  rw [length, read]
  simp [LrGrammar.stepsOf, there, FlatProduction.symbols]

end Generated

end IncrementalGlr
