import IncrementalGlr.Proofs.Table.Path
import IncrementalGlr.Proofs.Tree.Derivation
import IncrementalGlr.Proofs.Parse.StackStates
import IncrementalGlr.Parse.Version

/-!
# Stacks are paths

The engine never looks at a right-hand side. That a reduction finds its production's symbols on the
stack follows from where the states come from: without the extras, a stack is a path of the
automaton.
-/

namespace IncrementalGlr

open Generated

namespace Stack

/-- Without the extras, the subtrees lead from the start state along a path of the automaton, whose
symbols are given from the top. -/
inductive Runs (grammar : PreparedGrammar) (table : Table) : Stack → List Sym → Prop
  | nil : Runs grammar table [] []
  | extra {entry : StackEntry} {below : Stack} {symbols : List Sym}
      (lower : Runs grammar table below symbols) (outside : entry.subtree.isExtra = true)
      (stays : entry.state = Stack.state below) (derived : entry.subtree.Derived grammar table) :
      Runs grammar table (entry :: below) symbols
  | symbol {entry : StackEntry} {below : Stack} {symbols : List Sym} {symbol : Sym}
      {state : LrState} (lower : Runs grammar table below symbols)
      (counted : entry.subtree.isExtra = false) (found : At grammar (Stack.state below) state)
      (transition : (symbol, entry.state.index) ∈ state.transitions)
      (same : entry.subtree.symbol = grammar.symbolId symbol)
      (derived : entry.subtree.Derived grammar table) :
      Runs grammar table (entry :: below) (symbol :: symbols)

variable {grammar : PreparedGrammar} {table : Table} {stack upper lower : Stack}
  {symbols : List Sym}

theorem Runs.steady (runs : stack.Runs grammar table symbols) : stack.Steady := by
  induction runs with
  | nil => trivial
  | extra lower _ stays _ ih => exact ⟨fun _ => stays, ih⟩
  | symbol lower counted _ _ _ _ ih => exact ⟨fun outside => by simp [counted] at outside, ih⟩

theorem Runs.state (runs : stack.Runs grammar table symbols) :
    StateTrace.state stack.states = stack.state := runs.steady.state

theorem Runs.path (runs : stack.Runs grammar table symbols) :
    Path grammar stack.states symbols := by
  induction runs with
  | nil => exact .nil
  | extra lower outside _ _ ih =>
    rw [states, List.filter_cons_of_neg (by simp [outside])]
    exact ih
  | symbol lower counted found transition _ _ ih =>
    rw [states, List.filter_cons_of_pos (by simp [counted])]
    exact .cons ih (lower.state.symm ▸ found) transition

theorem Runs.split (runs : Runs grammar table (upper ++ lower) symbols) :
    ∃ own rest, symbols = own ++ rest ∧ lower.Runs grammar table rest ∧
      upper.states.length = own.length ∧
      (upper.subtrees.filter fun tree => !tree.isExtra).map (·.symbol)
        = own.reverse.map grammar.symbolId ∧
      ∀ tree ∈ upper.subtrees, tree.Derived grammar table := by
  induction upper generalizing symbols with
  | nil => exact ⟨[], symbols, rfl, runs, rfl, rfl, fun _ absent => absurd absent List.not_mem_nil⟩
  | cons entry upper ih =>
    have inside (derived : ∀ tree ∈ subtrees upper, tree.Derived grammar table)
        (here : entry.subtree.Derived grammar table) :
        ∀ tree ∈ subtrees (entry :: upper), tree.Derived grammar table := by
      intro tree member
      rw [subtrees_cons] at member
      rcases List.mem_append.1 member with member | member
      · exact derived tree member
      · rwa [List.mem_singleton.1 member]
    cases runs with
    | extra below outside _ here =>
      obtain ⟨own, rest, rfl, bottom, length, read, derived⟩ := ih below
      refine ⟨own, rest, rfl, bottom, ?_, ?_, inside derived here⟩
      · rwa [states, List.filter_cons_of_neg (by simp [outside])]
      · rw [subtrees_cons, List.filter_append, List.filter_singleton, outside]
        simpa using read
    | @symbol _ _ _ symbol _ below counted _ _ same here =>
      obtain ⟨own, rest, rfl, bottom, length, read, derived⟩ := ih below
      refine ⟨symbol :: own, rest, rfl, bottom, ?_, ?_, inside derived here⟩
      · rw [states, List.filter_cons_of_pos (by simp [counted]), List.map_cons, List.length_cons,
          List.length_cons]
        exact congrArg _ length
      · rw [subtrees_cons, List.filter_append, List.filter_singleton, counted, List.map_append,
          read, List.reverse_cons, List.map_append]
        simp [same]

theorem Runs.derived (runs : stack.Runs grammar table symbols) :
    ∀ tree ∈ stack.subtrees, tree.Derived grammar table := by
  rw [← List.append_nil stack] at runs
  obtain ⟨_, _, _, _, _, _, derived⟩ := runs.split
  exact derived

theorem Runs.top {symbol : Sym} (runs : stack.Runs grammar table [symbol]) :
    ∃ top below, stack.dropWhile (fun entry => entry.subtree.isExtra) = top :: below ∧
      top.subtree.symbol = grammar.symbolId symbol ∧ top.subtree.Derived grammar table ∧
      Runs grammar table below [] := by
  generalize one : [symbol] = symbols at runs
  induction runs with
  | nil => contradiction
  | extra lower outside _ _ ih =>
    rw [List.dropWhile_cons_of_pos (by simpa using outside)]
    exact ih one
  | @symbol entry below _ _ _ lower counted _ _ same derived _ =>
    cases one
    rw [List.dropWhile_cons_of_neg (by simp [counted])]
    exact ⟨entry, below, rfl, same, derived, lower⟩

theorem Runs.pushExtras (runs : stack.Runs grammar table symbols) {extras : List Subtree}
    (outside : ∀ tree ∈ extras, tree.isExtra = true)
    (derived : ∀ tree ∈ extras, tree.Derived grammar table) {state : StateId}
    (stays : state = stack.state) :
    Runs grammar table (extras.foldl (fun stack tree => stack.push tree state) stack) symbols := by
  induction extras generalizing stack with
  | nil => exact runs
  | cons tree extras ih =>
    refine ih ?_ (fun other member => outside other (List.mem_cons_of_mem _ member))
      (fun other member => derived other (List.mem_cons_of_mem _ member)) rfl
    exact .extra runs (outside tree (List.mem_cons_self ..)) stays
      (derived tree (List.mem_cons_self ..))

end Stack

theorem Generated.symbolId_ne_error {grammar : PreparedGrammar} {table : Table}
    (generated : Generated grammar table) (symbol : Sym) (has : grammar.Has symbol) :
    grammar.symbolId symbol ≠ SymbolId.error := by
  intro isError
  have few := generated.lowers.symbols
  have index := congrArg SymbolId.index isError
  rw [show SymbolId.error.index = 0xFFFF from rfl] at index
  cases symbol with
  | terminal t =>
    rw [generated.index_terminal has] at index
    have : t < grammar.terminals.size := has
    omega
  | nonterminal n =>
    rw [generated.index_nonterminal has] at index
    have : n < grammar.nonterminals.size := has
    omega

theorem Generated.isRule_terminal {grammar : PreparedGrammar} {table : Table}
    (generated : Generated grammar table) {t : Nat} (inside : t < grammar.terminals.size) :
    table.isRule (grammar.symbolId (.terminal t)) = false :=
  Table.isRule_of_isTerminal (generated.isTerminal_terminal inside)

namespace ParseInput

variable {grammar : PreparedGrammar} {input : ParseInput} {stack reduced : Stack}
  {symbols : List Sym}

theorem runs_reduce (generated : Generated grammar input.language.table) {x symbol : SymbolId}
    {childCount : UInt16} {dynamicPrecedence : Int16} {production : ProductionId} {reach : Nat}
    {isFragile : Bool} (runs : stack.Runs grammar input.language.table symbols)
    (chosen : .reduce symbol childCount dynamicPrecedence production ∈
      input.language.actions stack.state x)
    (done : input.reduce stack reach isFragile symbol childCount production = some reduced) :
    ∃ symbols, reduced.Runs grammar input.language.table symbols := by
  obtain ⟨popped, next, _, took, goes, rfl, rfl⟩ := reduce_eq_some done
  obtain ⟨upper, rfl, parts⟩ := Stack.pop_eq_some took
  obtain ⟨length, outside⟩ := Stack.pop_spec took
  have path := runs.path
  rw [← runs.state] at chosen
  obtain ⟨own, rest, rfl, below, height, read, derived⟩ := runs.split
  rw [parts] at read derived
  have none : popped.trailing.filter (fun tree => !tree.isExtra) = [] :=
    List.filter_eq_nil_iff.2 fun tree member => by simp [outside tree member]
  rw [List.filter_append, none, List.append_nil] at read
  have count : own.length = childCount.toNat := by
    have := congrArg List.length read
    rw [List.length_map, List.length_map, List.length_reverse, length] at this
    exact this.symm
  have drop : (Stack.states (upper ++ popped.below)).drop childCount.toNat =
      popped.below.states := by
    rw [Stack.states_append, ← count, ← height, List.drop_left]
  obtain ⟨nonterminal, flat, _, numbered, rfl, taken, path⟩ :=
    path.reduced generated chosen (by rwa [drop, below.state])
  rw [← count, List.take_left] at taken
  rw [drop, ← count, List.drop_left] at path
  obtain ⟨_, found, transition⟩ : ∃ state, At grammar popped.below.state state ∧
      (.nonterminal nonterminal, next.index) ∈ state.transitions := by
    cases path with
    | cons _ found transition => exact ⟨_, below.state ▸ found, transition⟩
  have built : (Subtree.ofProduction input.language (grammar.symbolId (.nonterminal nonterminal))
      production popped.children).Derived grammar input.language.table :=
    Subtree.derived_ofProduction input.language
      ⟨nonterminal, flat, numbered, rfl, taken ▸ read⟩
      fun tree member => derived tree (List.mem_append_left _ member)
  refine ⟨.nonterminal nonterminal :: rest, Stack.Runs.pushExtras ?_ outside
    (fun tree member => derived tree (List.mem_append_right _ member)) rfl⟩
  refine .symbol below ?_ found transition ?_ ?_
  · split <;> rfl
  · split <;> rfl
  · split
    · exact (built.withReach _).withFragile
    · exact built.withReach _

end ParseInput

structure Subtree.IsRoot (root : Subtree) (grammar : PreparedGrammar) (language : Language) :
    Prop where
  derived : root.DerivedBelow grammar language
  symbol : root.symbol = language.table.startSymbol
  counted : root.isExtra = false

namespace ParseInput

variable {grammar : PreparedGrammar} {input : ParseInput} {stack : Stack} {symbols : List Sym}

theorem isRoot_errorRoot
    (derived : ∀ tree ∈ stack.subtrees, tree.Derived grammar input.language.table) :
    (input.errorRoot stack).IsRoot grammar input.language := by
  have error := Subtree.derived_errorNode input.language derived
  refine ⟨.inr ⟨⟨rfl, rfl, ⟨_, rfl, rfl, rfl⟩⟩, fun child member => ?_⟩, rfl, rfl⟩
  rw [List.mem_singleton.1 member]
  exact error

theorem root_of_accept (generated : Generated grammar input.language.table) {x : SymbolId}
    (runs : stack.Runs grammar input.language.table symbols)
    (accepts : .accept ∈ input.language.actions stack.state x) :
    ∃ top below, stack.dropWhile (fun entry => entry.subtree.isExtra) = top :: below ∧
      top.subtree.symbol = input.language.table.startSymbol ∧
      top.subtree.Derived grammar input.language.table ∧
      Stack.Runs grammar input.language.table below [] ∧
      input.root stack = Subtree.ofProduction input.language top.subtree.symbol
        top.subtree.production (Stack.subtrees below ++ top.subtree.children
          ++ Stack.subtrees (stack.takeWhile fun entry => entry.subtree.isExtra)) := by
  rw [← runs.state] at accepts
  obtain rfl := runs.path.accepted generated accepts
  obtain ⟨top, below, found, same, derived, lower⟩ := runs.top
  rw [← generated.lowers.start] at same
  refine ⟨top, below, found, same, derived, lower, ?_⟩
  unfold root
  simp only [found, same, beq_self_eq_true, if_true]

theorem isRoot_root (generated : Generated grammar input.language.table) {x : SymbolId}
    (runs : stack.Runs grammar input.language.table symbols)
    (accepts : .accept ∈ input.language.actions stack.state x) :
    (input.root stack).IsRoot grammar input.language := by
  obtain ⟨top, below, _, same, derived, lower, root⟩ := root_of_accept generated runs accepts
  rw [root]
  have known : grammar.Has (.nonterminal 0) := generated.wellFormed.start
  have symbol := same.trans generated.lowers.start
  have built : Subtree.IsBuilt grammar top.subtree.info top.subtree.children := by
    cases derived.here.origin with
    | error isError =>
      exact absurd (symbol.symm.trans isError) (generated.symbolId_ne_error _ known)
    | token _ noRule =>
      rw [show top.subtree.info.symbol = _ from symbol,
        generated.isRule_nonterminal known] at noRule
      contradiction
    | built built => exact built
  obtain ⟨nonterminal, flat, numbered, owner, right⟩ := built
  have under : (Stack.subtrees below).filter (fun tree => !tree.isExtra) = [] := by
    rw [← List.append_nil below] at lower
    obtain ⟨own, _, none, _, _, read, _⟩ := lower.split
    obtain ⟨rfl, _⟩ := List.append_eq_nil_iff.1 none.symm
    simpa using read
  have above : (Stack.subtrees (stack.takeWhile fun entry => entry.subtree.isExtra)).filter
      (fun tree => !tree.isExtra) = [] := by
    refine List.filter_eq_nil_iff.2 fun tree member => ?_
    obtain ⟨entry, there, rfl⟩ := Stack.mem_subtrees.1 member
    have outside := List.mem_takeWhile_imp there
    simp [outside]
  refine ⟨.inl (Subtree.derived_ofProduction input.language
    ⟨nonterminal, flat, numbered, owner, ?_⟩ ?_), same, rfl⟩
  · rw [List.filter_append, List.filter_append, under, above, List.nil_append, List.append_nil]
    exact right
  · intro tree member
    rcases List.mem_append.1 member with member | member
    · rcases List.mem_append.1 member with member | member
      · exact lower.derived tree member
      · exact derived.child member
    · obtain ⟨entry, there, rfl⟩ := Stack.mem_subtrees.1 member
      exact runs.derived _ (Stack.mem_subtrees.2 ⟨entry, (List.takeWhile_subset _) there, rfl⟩)

end ParseInput

end IncrementalGlr
