import IncrementalGlr.Proofs.Table.Recognition

/-!
# Trees of a table

The machine of a table builds a tree when it keeps what it read next to the states of its stack: a
shifted terminal is a leaf, and a reduction puts the trees of its production under one node. The
leaves of the tree are the word. Where no cell holds more than one action, a word has one tree.
-/

namespace IncrementalGlr

inductive SyntaxTree where
  | leaf (symbol : SymbolId)
  | node (symbol : SymbolId) (production : ProductionId) (children : List SyntaxTree)

namespace SyntaxTree

mutual

def yield : SyntaxTree → List SymbolId
  | leaf symbol => [symbol]
  | node _ _ children => yieldAll children

def yieldAll : List SyntaxTree → List SymbolId
  | [] => []
  | tree :: rest => tree.yield ++ yieldAll rest

end

theorem yieldAll_append (trees others : List SyntaxTree) :
    yieldAll (trees ++ others) = yieldAll trees ++ yieldAll others := by
  induction trees with
  | nil => rfl
  | cons tree trees ih => rw [List.cons_append, yieldAll, yieldAll, ih, List.append_assoc]

end SyntaxTree

abbrev TreeStack := List (StateId × SyntaxTree)

namespace TreeStack

def trace (stack : TreeStack) : StateTrace := stack.map (·.1)

def trees (stack : TreeStack) : List SyntaxTree := (stack.map (·.2)).reverse

end TreeStack

inductive Table.Builds (table : Table) :
    TreeStack × List SymbolId → TreeStack × List SymbolId → Prop
  | shift {stack : TreeStack} {terminal : SymbolId} {word : List SymbolId} {next : StateId}
      (chosen : .shift next ∈ table.actions stack.trace.state terminal) :
      Table.Builds table (stack, terminal :: word) ((next, .leaf terminal) :: stack, word)
  | reduce {stack : TreeStack} {word : List SymbolId} {symbol : SymbolId} {count : UInt16}
      {dynamicPrecedence : Int16} {production : ProductionId} {next : StateId}
      (chosen : .reduce symbol count dynamicPrecedence production
        ∈ table.actions stack.trace.state (nextSymbol word))
      (enough : count.toNat ≤ stack.length)
      (goes : table.goto? (TreeStack.trace (stack.drop count.toNat)).state symbol = some next) :
      Table.Builds table (stack, word)
        ((next, .node symbol production (TreeStack.trees (stack.take count.toNat)))
          :: stack.drop count.toNat, word)

/-- The machine reads the word to its end, and accepts with the tree on its stack. -/
def Table.Parses (table : Table) (word : List SymbolId) (tree : SyntaxTree) : Prop :=
  ∃ state, Relation.ReflTransGen table.Builds ([], word) ([(state, tree)], []) ∧
    .accept ∈ table.actions state SymbolId.endOfInput

namespace Table

variable {table : Table} {before after other : TreeStack × List SymbolId} {word : List SymbolId}
  {tree : SyntaxTree}

theorem Builds.move (builds : table.Builds before after) :
    table.Move (before.1.trace, before.2) (after.1.trace, after.2) := by
  cases builds with
  | shift chosen => exact .shift chosen
  | @reduce stack word symbol count dynamicPrecedence production next chosen enough goes =>
    have below : TreeStack.trace (stack.drop count.toNat) = stack.trace.drop count.toNat :=
      List.map_drop ..
    change table.Move _ (next :: TreeStack.trace (stack.drop count.toNat), word)
    rw [below] at goes ⊢
    exact .reduce chosen (by rwa [TreeStack.trace, List.length_map]) goes

theorem Parses.accepts (parses : table.Parses word tree) : table.Accepts word := by
  obtain ⟨state, run, accept⟩ := parses
  refine ⟨[state], ?_, accept⟩
  exact run.lift (fun before => (before.1.trace, before.2)) fun _ _ => Builds.move

theorem Builds.yield (builds : table.Builds before after) :
    SyntaxTree.yieldAll after.1.trees ++ after.2
      = SyntaxTree.yieldAll before.1.trees ++ before.2 := by
  cases builds with
  | shift chosen => simp [TreeStack.trees, SyntaxTree.yieldAll_append, SyntaxTree.yieldAll,
      SyntaxTree.yield]
  | @reduce stack word symbol count dynamicPrecedence production next chosen enough goes =>
    have parts : stack.trees = TreeStack.trees (stack.drop count.toNat)
        ++ TreeStack.trees (stack.take count.toNat) := by
      rw [TreeStack.trees, TreeStack.trees, TreeStack.trees, ← List.reverse_append,
        ← List.map_append, List.take_append_drop]
    dsimp only
    rw [parts, SyntaxTree.yieldAll_append, TreeStack.trees, List.map_cons, List.reverse_cons,
      SyntaxTree.yieldAll_append, SyntaxTree.yieldAll, SyntaxTree.yieldAll, SyntaxTree.yield,
      List.append_nil]
    rfl

theorem Parses.yield (parses : table.Parses word tree) : tree.yield = word := by
  obtain ⟨state, run, _⟩ := parses
  have kept : SyntaxTree.yieldAll (TreeStack.trees [(state, tree)]) ++ [] = word := by
    refine Relation.ReflTransGen.head_induction_on (motive := fun before _ =>
      SyntaxTree.yieldAll (TreeStack.trees [(state, tree)]) ++ []
        = SyntaxTree.yieldAll before.1.trees ++ before.2) run rfl fun builds _ ih => ?_
    rw [ih, builds.yield]
  simpa [TreeStack.trees, SyntaxTree.yieldAll] using kept

def Deterministic (table : Table) : Prop :=
  ∀ state symbol, (table.actions state symbol).length ≤ 1

theorem Deterministic.eq_of_mem (deterministic : table.Deterministic) {state : StateId}
    {symbol : SymbolId} {action action' : Action} (h : action ∈ table.actions state symbol)
    (h' : action' ∈ table.actions state symbol) : action = action' := by
  have few := deterministic state symbol
  match table.actions state symbol, h, h', few with
  | [_], h, h', _ => rw [List.mem_singleton.1 h, List.mem_singleton.1 h']
  | _ :: _ :: _, _, _, few => exact absurd few (by simp)

theorem Deterministic.rightUnique (deterministic : table.Deterministic) :
    Relator.RightUnique table.Builds := by
  rintro before after other (chosen | ⟨chosen, enough, goes⟩) builds
  · cases builds with
    | shift chosen' =>
      cases deterministic.eq_of_mem chosen chosen'
      rfl
    | reduce chosen' _ _ => cases deterministic.eq_of_mem chosen chosen'
  · cases builds with
    | shift chosen' => cases deterministic.eq_of_mem chosen chosen'
    | reduce chosen' _ goes' =>
      cases deterministic.eq_of_mem chosen chosen'
      cases goes.symm.trans goes'
      rfl

theorem Deterministic.eq_of_run (deterministic : table.Deterministic) {state : StateId}
    (accept : .accept ∈ table.actions state SymbolId.endOfInput)
    (run : Relation.ReflTransGen table.Builds ([(state, tree)], []) after) :
    after = ([(state, tree)], []) := by
  rcases run.cases_head with same | ⟨next, builds, _⟩
  · exact same.symm
  · cases builds with
    | reduce chosen _ _ => cases deterministic.eq_of_mem accept chosen

theorem Deterministic.unique (deterministic : table.Deterministic) {other : SyntaxTree}
    (parses : table.Parses word tree) (parses' : table.Parses word other) : tree = other := by
  obtain ⟨state, run, accept⟩ := parses
  obtain ⟨state', run', accept'⟩ := parses'
  rcases Relation.ReflTransGen.total_of_right_unique deterministic.rightUnique run run' with on | on
  · cases deterministic.eq_of_run accept on
    rfl
  · cases deterministic.eq_of_run accept' on
    rfl

end Table

end IncrementalGlr
