import IncrementalGlr.Proofs.Lalr.Operators
import IncrementalGlr.Proofs.Lexical.Subsets
import IncrementalGlr.Proofs.Table.Sizes
import IncrementalGlr.Proofs.Table.Trees

/-!
# Operators come out as declared

The table of a grammar of operators has no conflicts, and the tree that it builds for an alternating
sequence of numbers and operators groups it as the levels and associativities say.
-/

namespace IncrementalGlr

namespace Operator

open Generated (At)

variable {operators : List Operator} {table : Table} {trace : StateTrace}
  {place behind : Place operators.length}

/-!
## Symbols

The end of input is followed by the number, the operators, the start rule and the expression.
-/

def numberSymbol : SymbolId := SymbolId.ofNat 1

def operatorSymbol {count : Nat} (i : Fin count) : SymbolId := SymbolId.ofNat (i + 2)

def sourceSymbol (count : Nat) : SymbolId := SymbolId.ofNat (count + 2)

def exprSymbol (count : Nat) : SymbolId := SymbolId.ofNat (count + 3)

theorem size_terminals (operators : List Operator) :
    (prepared operators).terminals.size = operators.length + 1 := by
  simp [prepared]

theorem size_nonterminals (operators : List Operator) :
    (prepared operators).nonterminals.size = 2 := by
  simp [prepared]

theorem symbolId_source (operators : List Operator) :
    (prepared operators).symbolId (.nonterminal 0) = sourceSymbol operators.length := by
  rw [PreparedGrammar.symbolId, PreparedGrammar.terminalCount, size_terminals]
  rfl

theorem symbolId_expr (operators : List Operator) :
    (prepared operators).symbolId (.nonterminal 1) = exprSymbol operators.length := by
  rw [PreparedGrammar.symbolId, PreparedGrammar.terminalCount, size_terminals]
  rfl

def Reached (operators : List Operator) (trace : StateTrace) (place : Place operators.length) :
    Prop :=
  ∃ state, At (prepared operators) trace.state state ∧ IsAt operators place state.kernel ∧
    ∀ item ∈ (lr operators).items state.kernel, ∀ terminal,
      Needs operators.length item.production terminal →
        (followsIn operators trace.state.index state item).contains terminal = true

theorem reached_start (operators : List Operator) : Reached operators [] .start := by
  have closed := closed_lr operators
  obtain ⟨state, found, kernel⟩ := closed.numbered.automaton.start
  have isAt : IsAt operators .start state.kernel := kernel ▸ isAt_startKernel operators
  refine ⟨state, found, isAt, follows_of_kernel found isAt fun item member terminal needs => ?_⟩
  rw [kernel] at member
  rw [List.mem_singleton.1 member] at needs ⊢
  rcases needs with rfl | ⟨_, below, _⟩
  · exact (closed.complete _).at_start found kernel
  · rw [augmented_lr] at below
    exact absurd below (Nat.not_succ_le_self _)

theorem Reached.reads (generated : Generated (prepared operators) table)
    (reached : Reached operators trace place) {symbol : Sym}
    (leads : place.next? symbol = some behind) :
    ∃ state target, At (prepared operators) trace.state state ∧
      IsAt operators place state.kernel ∧ (symbol, target) ∈ state.transitions ∧
      Reached operators (StateId.ofNat target :: trace) behind := by
  obtain ⟨state, found, isAt, follows⟩ := reached
  obtain ⟨item, member, here⟩ := isAt.exists_item leads
  obtain ⟨target, transition⟩ := generated.exists_transition found member here
  obtain ⟨bound, after, found', kernel⟩ := generated.at_target found transition
  have isAt' : IsAt operators behind after.kernel := kernel ▸ isAt.goto leads
  refine ⟨state, target, found, isAt, transition, after, found', isAt',
    follows_of_kernel found' isAt' fun item member terminal needs => ?_⟩
  rw [kernel] at member
  obtain ⟨before, there, here, rfl⟩ := LrGrammar.mem_goto.1 member
  have transition : (symbol, (StateId.ofNat target).index) ∈ state.transitions := by
    rwa [StateId.index_ofNat bound]
  exact (generated.closed.complete _).passes generated.isAutomaton found there here transition
    found' (follows before there terminal needs)

theorem Reached.shifts (generated : Generated (prepared operators) table) {stack : TreeStack}
    (reached : Reached operators stack.trace place) {index : Nat}
    (leads : place.next? (.terminal index) = some behind)
    (takes : ∀ i k : Fin operators.length, place = .operand i → index = k + 1 →
      (operators.get i).MayBeRight (operators.get k)) (word : List SymbolId) :
    ∃ state, table.Builds (stack, SymbolId.ofNat (index + 1) :: word)
        ((state, .leaf (SymbolId.ofNat (index + 1))) :: stack, word) ∧
      Reached operators (state :: stack.trace) behind := by
  obtain ⟨state, target, found, isAt, transition, reached⟩ := reached.reads generated leads
  refine ⟨_, .shift ?_, reached⟩
  have inside : index < (prepared operators).terminals.size :=
    generated.closed.has_symbolAt? (isAt.exists_item leads).choose_spec.2
  have known : (SymbolId.ofNat (index + 1)).index = index + 1 := generated.index_terminal inside
  have bound : (SymbolId.ofNat (index + 1)).index < (prepared operators).terminals.size + 1 := by
    rw [known]
    exact Nat.succ_lt_succ inside
  rw [generated.actions_eq found bound, known]
  exact List.mem_map.2 ⟨_, shift_mem_cell found isAt transition takes, rfl⟩

theorem Reached.reduces (generated : Generated (prepared operators) table)
    (popped below : TreeStack) (word : List SymbolId)
    (reached : Reached operators (TreeStack.trace (popped ++ below)) place) {p nonterminal : Nat}
    {flat : FlatProduction} (complete : place.complete? = some p)
    (numbered : (lr operators).productions[p]? = some (nonterminal, flat))
    (length : popped.length = flat.steps.length)
    (needed : Needs operators.length p (nextSymbol word).index)
    (closes : ∀ index, (nextSymbol word).index = index + 1 →
      place.next? (.terminal index) = none ∨ ∃ i k : Fin operators.length,
        place = .operand i ∧ index = k + 1 ∧ ¬ (operators.get i).MayBeRight (operators.get k))
    {base : Place operators.length} (start : Reached operators below.trace base)
    (leads : base.next? (.nonterminal nonterminal) = some behind) :
    ∃ state, table.Builds (popped ++ below, word)
        ((state, .node ((prepared operators).symbolId (.nonterminal nonterminal))
          (ProductionId.ofNat p) popped.trees) :: below, word) ∧
      Reached operators (state :: below.trace) behind := by
  obtain ⟨state, found, isAt, follows⟩ := reached
  obtain ⟨state', target, found', _, transition, reached'⟩ := start.reads generated leads
  have inside : (nextSymbol word).index < (prepared operators).terminals.size + 1 := by
    rw [size_terminals]
    rcases needed with zero | ⟨_, _, k, below, same⟩ <;> omega
  have follow : (followsComplete operators (TreeStack.trace (popped ++ below)).state.index state
      p).contains (nextSymbol word).index = true :=
    follows _ (isAt.complete?.2 ⟨complete, rfl⟩).1 _ needed
  have member := reduce_mem_cell found isAt complete follow closes
  obtain ⟨dynamicPrecedence, lower, _, short⟩ :=
    generated.lower_reduce numbered (generated.fits_of_mem_cell found inside member)
  have counted : (UInt16.ofNat flat.steps.length).toNat = popped.length :=
    (toNat_ofNat short).trans length.symm
  have chosen : .reduce ((prepared operators).symbolId (.nonterminal nonterminal))
      (UInt16.ofNat flat.steps.length) dynamicPrecedence (ProductionId.ofNat p) ∈
        table.actions (TreeStack.trace (popped ++ below)).state (nextSymbol word) := by
    rw [generated.actions_eq found inside, ← lower]
    exact List.mem_map_of_mem member
  have goes := generated.goto?_of_transition found' transition (generated.of_numbered numbered).2.1
  refine ⟨_, ?_, reached'⟩
  have built := Table.Builds.reduce chosen (by rw [counted]; simp)
    (by rw [counted, List.drop_left]; exact goes)
  rwa [counted, List.drop_left, List.take_left] at built

def numberTree (count : Nat) : SyntaxTree :=
  .node (exprSymbol count) (ProductionId.ofNat (count + 1)) [.leaf numberSymbol]

end Operator

def Expression.tree {count : Nat} : Expression (Fin count) → SyntaxTree
  | number => Operator.numberTree count
  | operation i left right => .node (Operator.exprSymbol count) (ProductionId.ofNat (i + 1))
      [left.tree, .leaf (Operator.operatorSymbol i), right.tree]

namespace Operator

open Generated (At)

variable {operators : List Operator} {table : Table} {stack : TreeStack} {s : StateId}
  {operand : Expression (Fin operators.length)} {next : Fin operators.length}
  {waiting : List (Expression (Fin operators.length) × Fin operators.length)}

def tail {count : Nat} (rest : List (Fin count)) : List SymbolId :=
  rest.flatMap fun i => [operatorSymbol i, numberSymbol]

/-- The symbols of the sequence of numbers with these operators between them. -/
def sequence {count : Nat} (rest : List (Fin count)) : List SymbolId := numberSymbol :: tail rest

def ahead {count : Nat} : List (Expression (Fin count) × Fin count) → Place count
  | [] => .start
  | (_, i) :: _ => .operator i

def behind {count : Nat} : List (Expression (Fin count) × Fin count) → Place count
  | [] => .whole
  | (_, i) :: _ => .operand i

theorem ahead_expr {count : Nat} (waiting : List (Expression (Fin count) × Fin count)) :
    (ahead waiting).next? (.nonterminal 1) = some (behind waiting) := by
  cases waiting <;> rfl

theorem ahead_number {count : Nat} (waiting : List (Expression (Fin count) × Fin count)) :
    (ahead waiting).next? (.terminal 0) = some .number := by
  cases waiting <;> rfl

theorem behind_operator {count : Nat} (waiting : List (Expression (Fin count) × Fin count))
    (k : Fin count) : (behind waiting).next? (.terminal (k + 1)) = some (.operator k) := by
  cases waiting <;> exact dif_pos k.isLt

theorem index_next (generated : Generated (prepared operators) table)
    (next : Fin operators.length) (rest : List (Fin operators.length)) :
    (nextSymbol (tail (next :: rest))).index = next + 2 := by
  refine generated.index_terminal (t := next + 1) ?_
  rw [size_terminals]
  exact Nat.succ_lt_succ next.isLt

theorem needs_tail (generated : Generated (prepared operators) table)
    (rest : List (Fin operators.length)) {p : Nat} (positive : 1 ≤ p)
    (inside : p ≤ operators.length + 1) :
    Needs operators.length p (nextSymbol (tail rest)).index := by
  cases rest with
  | nil => exact .inl rfl
  | cons next rest =>
    rw [index_next generated]
    exact .inr ⟨positive, inside, next, next.isLt, rfl⟩

inductive Stacked (operators : List Operator) :
    List (Expression (Fin operators.length) × Fin operators.length) → TreeStack → Prop
  | nil : Stacked operators [] []
  | cons {left : Expression (Fin operators.length)} {i : Fin operators.length}
      {waiting : List (Expression (Fin operators.length) × Fin operators.length)}
      {stack : TreeStack} {s t : StateId} (below : Stacked operators waiting stack)
      (reached : Reached operators (t :: s :: stack.trace) (.operator i)) :
      Stacked operators ((left, i) :: waiting)
        ((t, .leaf (operatorSymbol i)) :: (s, left.tree) :: stack)

theorem Stacked.reached (stacked : Stacked operators waiting stack) :
    Reached operators stack.trace (ahead waiting) := by
  cases stacked with
  | nil => exact reached_start operators
  | cons _ reached => exact reached

theorem Stacked.builds_number (generated : Generated (prepared operators) table)
    (stacked : Stacked operators waiting stack) (rest : List (Fin operators.length)) :
    ∃ s, Relation.ReflTransGen table.Builds (stack, sequence rest)
        ((s, numberTree operators.length) :: stack, tail rest) ∧
      Reached operators (s :: stack.trace) (behind waiting) := by
  -- the terminal is shifted, and reduced at once
  obtain ⟨t, shifts, number⟩ := stacked.reached.shifts generated (ahead_number waiting)
    (fun i k same => by cases waiting <;> contradiction) (tail rest)
  obtain ⟨s, reduces, operand⟩ := Reached.reduces generated [(t, .leaf numberSymbol)] stack
    (tail rest) number rfl (production_number operators) rfl
    (needs_tail generated rest (Nat.succ_pos _) (Nat.le_refl _)) (fun _ _ => .inl rfl)
    stacked.reached (ahead_expr waiting)
  rw [symbolId_expr] at reduces
  exact ⟨s, .tail (.single shifts) reduces, operand⟩

theorem Stacked.builds_next (generated : Generated (prepared operators) table)
    (stacked : Stacked operators waiting stack)
    (reached : Reached operators (s :: stack.trace) (behind waiting))
    (takes : ∀ outer ∈ waiting.head?, (operators.get outer.2).MayBeRight (operators.get next))
    (rest : List (Fin operators.length)) :
    ∃ (t : StateId) (stack' : TreeStack), Relation.ReflTransGen table.Builds
        ((s, operand.tree) :: stack, tail (next :: rest))
        ((t, numberTree operators.length) :: stack', tail rest) ∧
      Stacked operators ((operand, next) :: waiting) stack' ∧
      Reached operators (t :: stack'.trace) (.operand next) := by
  have top : Reached operators (TreeStack.trace ((s, operand.tree) :: stack)) (behind waiting) :=
    reached
  have allowed : ∀ i k : Fin operators.length, behind waiting = .operand i → next.val + 1 = k + 1 →
      (operators.get i).MayBeRight (operators.get k) := by
    intro i k place same
    obtain rfl : next = k := Fin.ext (Nat.succ.inj same)
    cases waiting with
    | nil => contradiction
    | cons outer waiting =>
      cases place
      exact takes outer rfl
  obtain ⟨t, shifts, operator⟩ :=
    top.shifts generated (behind_operator waiting next) allowed (sequence rest)
  have stacked' : Stacked operators ((operand, next) :: waiting) _ := .cons stacked operator
  obtain ⟨t', run, reached⟩ := stacked'.builds_number generated rest
  exact ⟨t', _, .head shifts run, stacked', reached⟩

theorem Stacked.builds_operation (generated : Generated (prepared operators) table)
    {left : Expression (Fin operators.length)} {i : Fin operators.length}
    (stacked : Stacked operators ((left, i) :: waiting) stack)
    (reached : Reached operators (s :: stack.trace) (.operand i))
    (rest : List (Fin operators.length))
    (closes : ∀ next ∈ rest.head?, ¬ (operators.get i).MayBeRight (operators.get next)) :
    ∃ (t : StateId) (stack' : TreeStack), table.Builds ((s, operand.tree) :: stack, tail rest)
        ((t, (Expression.operation i left operand).tree) :: stack', tail rest) ∧
      Stacked operators waiting stack' ∧
      Reached operators (t :: stack'.trace) (behind waiting) := by
  have leaves : ∀ index, (nextSymbol (tail rest)).index = index + 1 →
      (Place.operand i).next? (.terminal index) = none ∨ ∃ j k : Fin operators.length,
        .operand i = Place.operand j ∧ index = k + 1 ∧
          ¬ (operators.get j).MayBeRight (operators.get k) := by
    intro index same
    cases rest with
    | nil => contradiction
    | cons next rest =>
      rw [index_next generated] at same
      exact .inr ⟨i, next, rfl, (Nat.succ.inj same).symm, closes next rfl⟩
  cases stacked with
  | @cons _ _ _ stack first second below _ =>
    obtain ⟨t, reduces, whole⟩ := Reached.reduces generated [(s, operand.tree),
        (second, .leaf (operatorSymbol i)), (first, left.tree)] stack (tail rest) reached rfl
      (production_operator i) rfl (needs_tail generated rest (Nat.succ_pos _) (by omega)) leaves
      below.reached (ahead_expr waiting)
    rw [symbolId_expr] at reduces
    exact ⟨t, stack, reduces, below, whole⟩

theorem Stacked.builds_group (generated : Generated (prepared operators) table)
    (stacked : Stacked operators waiting stack)
    (reached : Reached operators (s :: stack.trace) (behind waiting))
    (operand : Expression (Fin operators.length)) (rest : List (Fin operators.length)) :
    ∃ t, Relation.ReflTransGen table.Builds ((s, operand.tree) :: stack, tail rest)
        ([(t, (Expression.group operators.get waiting operand rest).tree)], []) ∧
      Reached operators [t] .whole := by
  -- each case of the grouping is one stretch of the run, in front of that of the induction hypothesis
  fun_induction Expression.group operators.get waiting operand rest generalizing s stack with
  | case1 operand =>
    cases stacked
    exact ⟨s, .refl, reached⟩
  | case2 operand next rest ih =>
    obtain ⟨t, stack', run, stacked', reached'⟩ :=
      stacked.builds_next generated reached (by simp) rest
    obtain ⟨t', run', whole⟩ := ih stacked' reached'
    exact ⟨t', run.trans run', whole⟩
  | case3 left operator waiting operand ih =>
    obtain ⟨t, stack', builds, stacked', reached'⟩ :=
      stacked.builds_operation generated reached [] (by simp)
    obtain ⟨t', run', whole⟩ := ih stacked' reached'
    exact ⟨t', .head builds run', whole⟩
  | case4 left operator waiting operand next rest takes ih =>
    obtain ⟨t, stack', run, stacked', reached'⟩ :=
      stacked.builds_next generated reached (by simpa using takes) rest
    obtain ⟨t', run', whole⟩ := ih stacked' reached'
    exact ⟨t', run.trans run', whole⟩
  | case5 left operator waiting operand next rest closes ih =>
    obtain ⟨t, stack', builds, stacked', reached'⟩ :=
      stacked.builds_operation generated reached (next :: rest) (by simpa using closes)
    obtain ⟨t', run', whole⟩ := ih stacked' reached'
    exact ⟨t', .head builds run', whole⟩

def rootTree {count : Nat} (expression : Expression (Fin count)) : SyntaxTree :=
  .node (sourceSymbol count) (ProductionId.ofNat 0) [expression.tree]

theorem parses_sequence (generated : Generated (prepared operators) table)
    (rest : List (Fin operators.length)) :
    table.Parses (sequence rest) (rootTree (Expression.group operators.get [] .number rest)) := by
  obtain ⟨s, run, reached⟩ := Stacked.nil.builds_number generated rest
  obtain ⟨t, run', whole⟩ := Stacked.nil.builds_group generated reached .number rest
  obtain ⟨last, reduces, accept⟩ := Reached.reduces generated [(t, _)] [] [] whole rfl
    (production_source operators) rfl (.inl rfl) nofun (reached_start operators) rfl
  rw [symbolId_source] at reduces
  refine ⟨last, .tail (run.trans run') reduces, ?_⟩
  obtain ⟨state, (found : At (prepared operators) last state), isAt, _⟩ := accept
  have first : SymbolId.endOfInput.index < (prepared operators).terminals.size + 1 :=
    Nat.succ_pos _
  have start := (accepts_iff isAt).2 rfl
  rw [generated.actions_eq found first]
  exact List.mem_map.2 ⟨.accept, LrGrammar.accept_mem_cell (List.contains_iff_mem.1 start), rfl⟩

theorem deterministic (generated : Generated (prepared operators) table) :
    table.Deterministic := by
  intro s x
  by_cases nothing : table.actions s x = []
  · rw [nothing]
    exact Nat.zero_le _
  · obtain ⟨state, found, inside⟩ := generated.actions_outside nothing
    have few : ((lr operators).cell state (row operators s.index) x.index).length ≤ 1 :=
      length_cell_le found
    rwa [generated.actions_eq found inside, List.length_map]

theorem parses_iff (generated : Generated (prepared operators) table)
    {rest : List (Fin operators.length)} {tree : SyntaxTree} : table.Parses (sequence rest) tree ↔
      tree = rootTree (Expression.group operators.get [] .number rest) := by
  have parses := parses_sequence generated rest
  refine ⟨fun other => (deterministic generated).unique other parses, ?_⟩
  rintro rfl
  exact parses

theorem respects_group_number (rest : List (Fin operators.length)) :
    (Expression.group operators.get [] .number rest).Respects operators.get :=
  Expression.respects_group .nil trivial (by simp [Expression.root?]) (by simp [Expression.root?])

theorem operators_group_number (rest : List (Fin operators.length)) :
    (Expression.group operators.get [] .number rest).operators = rest :=
  Expression.operators_group operators.get [] .number rest

theorem parses_iff_respects (generated : Generated (prepared operators) table)
    {rest : List (Fin operators.length)} {tree : SyntaxTree} : table.Parses (sequence rest) tree ↔
      ∃ expression : Expression (Fin operators.length), tree = rootTree expression ∧
        expression.operators = rest ∧ expression.Respects operators.get := by
  rw [parses_iff generated]
  constructor
  · rintro rfl
    exact ⟨_, rfl, operators_group_number rest, respects_group_number rest⟩
  · rintro ⟨expression, rfl, rfl, respects⟩
    rw [← Expression.eq_group respects]

theorem conflicts_automaton (operators : List Operator) :
    (lr operators).automaton.toList.flatMap (·.conflicts) = [] := by
  refine List.flatMap_eq_nil_iff.2 fun actions member => ?_
  obtain ⟨id, inside, rfl⟩ := List.mem_iff_getElem.1 member
  rw [Array.length_toList, Generated.size_automaton] at inside
  simp only [LrGrammar.automaton, Array.getElem_toList, Array.getElem_mapIdx]
  exact LrGrammar.conflicts_eq_nil fun terminal => length_cell_le (Array.getElem?_eq_getElem inside)

structure Named (operators : List Operator) (table : Table) : Prop where
  number : table.symbols[numberSymbol.index]? = some ⟨"number", true, true, false⟩
  operator (i : Fin operators.length) :
    table.symbols[(operatorSymbol i).index]? = some ⟨(operators.get i).text, true, false, false⟩
  source :
    table.symbols[(sourceSymbol operators.length).index]? = some ⟨"source", true, true, false⟩
  expr : table.symbols[(exprSymbol operators.length).index]? = some ⟨"expr", true, true, false⟩

def infos (operators : List Operator) : List SymbolInfo :=
  SymbolInfo.ofHidden "end" :: ⟨"number", true, true, false⟩ ::
    (operators.map (fun operator => ⟨operator.text, true, false, false⟩)
      ++ [⟨"source", true, true, false⟩, ⟨"expr", true, true, false⟩])

theorem plain_of_mem_allSteps {step : Step} (member : step ∈ (prepared operators).allSteps) :
    step.shownAs = none ∧ step.field = none := by
  simp only [PreparedGrammar.allSteps, prepared, List.flatMap_cons, List.flatMap_nil,
    List.append_nil, List.flatMap_append, List.mem_append, List.mem_flatMap, productions,
    List.mem_map] at member
  rcases member with member | ⟨_, ⟨⟨operator, terminal⟩, _, rfl⟩, member⟩ | member
  · cases List.mem_singleton.1 member
    exact ⟨rfl, rfl⟩
  · simp only [production, List.mem_cons, List.not_mem_nil, or_false] at member
    rcases member with rfl | rfl | rfl <;> exact ⟨rfl, rfl⟩
  · cases List.mem_singleton.1 member
    exact ⟨rfl, rfl⟩

theorem symbols_prepared (operators : List Operator) :
    (prepared operators).symbols = .ok (infos operators).toArray := by
  have unnamed : (prepared operators).allSteps.filterMap (·.shownAs) = [] :=
    List.filterMap_eq_nil_iff.2 fun _ member => (plain_of_mem_allSteps member).1
  rw [PreparedGrammar.symbols, unnamed]
  refine congrArg Except.ok (Array.toList_inj.1 ?_)
  simp [PreparedGrammar.ownSymbols, prepared, infos, number, terminal, Function.comp_def]

theorem named_of_symbols (generated : Generated (prepared operators) table)
    (symbols : (prepared operators).symbols = .ok table.symbols) : Named operators table := by
  have few := generated.lowers.symbols
  rw [size_terminals, size_nonterminals] at few
  rw [symbols_prepared, Except.ok.injEq] at symbols
  refine ⟨?_, fun i => ?_, ?_, ?_⟩
  · rw [← symbols]
    rfl
  · have index : (operatorSymbol i).index = i + 2 := SymbolId.index_ofNat (by omega)
    rw [← symbols, index]
    simp [infos, List.getElem?_append_left]
  · have index : (sourceSymbol operators.length).index = operators.length + 2 :=
      SymbolId.index_ofNat (by omega)
    rw [← symbols, index]
    simp [infos]
  · have index : (exprSymbol operators.length).index = operators.length + 3 :=
      SymbolId.index_ofNat (by omega)
    rw [← symbols, index]
    simp [infos]

theorem checkNonEmpty_number : PreparedGrammar.checkNonEmpty number = .ok () := by
  have silent : number.regex.any (·.matches "") = false := by decide +kernel
  rw [PreparedGrammar.checkNonEmpty, silent]
  rfl

theorem checkNonEmpty_prepared (nonEmpty : ∀ operator ∈ operators, operator.text ≠ "") :
    ∀ terminal ∈ (prepared operators).terminals,
      PreparedGrammar.checkNonEmpty terminal = .ok () := by
  intro entry member
  rw [prepared, List.mem_toArray, List.mem_cons, List.mem_map] at member
  rcases member with rfl | ⟨operator, there, rfl⟩
  · exact checkNonEmpty_number
  · refine if_neg fun silent => nonEmpty operator there ?_
    have silent : (Regex.literal operator.text).matches "" = true := silent
    rw [Regex.matches_iff (Regex.made_literal _), Regex.mem_language_literal] at silent
    exact (String.toList_inj.1 silent).symm

theorem moderate_prepared (few : operators.length + 4 < 0xFFFF)
    (cells : (lr operators).states.size * (operators.length + 2) < 0xFFFF)
    (lexer : 1 <<< (prepared operators).lexNfa.2.states.size < 0xFFFF) :
    (prepared operators).Moderate where
  symbols := ⟨_, symbols_prepared operators, by simpa [infos] using few⟩
  fields := by
    have unnamed : (prepared operators).allSteps.filterMap (·.field) = [] :=
      List.filterMap_eq_nil_iff.2 fun _ member => (plain_of_mem_allSteps member).2
    rw [PreparedGrammar.fieldNames, unnamed]
    simp
  productions := by
    rw [show (lr operators).productions.size = operators.length + 2 from augmented_lr operators]
    omega
  steps {id nonterminal flat} found := by
    rw [← stepsOf_of_production found, length_stepsOf]
    split <;> omega
  cells := by rwa [PreparedGrammar.terminalCount, size_terminals]
  lexer := lexer

/-- Operators come out as declared: the grammar has a table without conflicts, which builds exactly
one tree for the numbers with any operators between them, and this tree respects all levels and
associativities. -/
theorem exists_respectful_tree (distinct : (operators.map text).Nodup)
    (nonEmpty : ∀ operator ∈ operators, operator.text ≠ "")
    (fits : ∀ part count, (grammar operators).compile ≠ .error (.tooLarge part count)) :
    ∃ compiled, (grammar operators).compile = .ok compiled ∧ compiled.conflicts = [] ∧
      Named operators compiled.table ∧ ∀ rest : List (Fin operators.length),
        ∃ expression : Expression (Fin operators.length),
          (∀ tree, compiled.table.Parses (sequence rest) tree ↔ tree = rootTree expression) ∧
          (rootTree expression).yield = sequence rest ∧ expression.operators = rest ∧
          expression.Respects operators.get := by
  have prepare := prepare_grammar distinct
  have bySize := Grammar.failsBySize_compile prepare (checkNonEmpty_prepared nonEmpty)
  cases compile : (grammar operators).compile with
  | error cause =>
    obtain ⟨part, count, rfl⟩ := bySize.tooLarge compile
    exact absurd compile (fits part count)
  | ok compiled =>
    obtain ⟨other, prepare', laidOut⟩ := laidOut_of_compile compile
    cases prepare.symm.trans prepare'
    have generated := laidOut.generated (wellFormed_prepared operators)
    have conflicts : compiled.conflicts = [] := by
      rw [conflicts_of_compile prepare compile, conflicts_automaton]
    refine ⟨compiled, rfl, conflicts, named_of_symbols generated laidOut.symbols.1, fun rest => ?_⟩
    exact ⟨Expression.group operators.get [] .number rest, fun tree => parses_iff generated,
      (parses_sequence generated rest).yield, operators_group_number rest,
      respects_group_number rest⟩

/-- Sums and differences, products, and powers that group to the right. -/
def arithmetic : List Operator :=
  [⟨"+", 1, .left⟩, ⟨"-", 1, .left⟩, ⟨"*", 2, .left⟩, ⟨"^", 3, .right⟩]

theorem exists_compile_arithmetic : ∃ compiled, (grammar arithmetic).compile = .ok compiled := by
  have states : (lr arithmetic).states.size = 12 := by cbv
  have lexer : (prepared arithmetic).lexNfa.2.states.size = 13 := by decide +kernel
  refine Grammar.exists_compile (prepare_grammar (by decide +kernel))
    (checkNonEmpty_prepared (by decide +kernel)) (moderate_prepared (by decide) ?_ ?_)
  · rw [states]
    decide
  · rw [lexer]
    decide

theorem exists_respectful_tree_arithmetic :
    ∃ compiled, (grammar arithmetic).compile = .ok compiled ∧ compiled.conflicts = [] ∧
      Named arithmetic compiled.table ∧ ∀ rest : List (Fin arithmetic.length),
        ∃ expression : Expression (Fin arithmetic.length),
          (∀ tree, compiled.table.Parses (sequence rest) tree ↔ tree = rootTree expression) ∧
          (rootTree expression).yield = sequence rest ∧ expression.operators = rest ∧
          expression.Respects arithmetic.get := by
  obtain ⟨compiled, compile⟩ := exists_compile_arithmetic
  exact exists_respectful_tree (by decide +kernel) (by decide +kernel)
    fun part count failed => nomatch compile.symm.trans failed

end Operator

end IncrementalGlr
