import IncrementalGlr.Proofs.Tree.Leaves

/-!
# Where the last scanner state is found

A node is marked if an external token is in it, and the last state is looked up along the marks. On
a tree that is marked in this way the look-up gives the state on the last leaf that has one.
-/

namespace IncrementalGlr

def stateBehind (leaves : List (Subtree × Length)) : Option ScannerState :=
  leaves.reverse.findSome? fun entry => entry.1.info.scannerState

@[simp] theorem stateBehind_nil : stateBehind [] = none := rfl

theorem stateBehind_append (xs ys : List (Subtree × Length)) :
    stateBehind (xs ++ ys) = (stateBehind ys).or (stateBehind xs) := by
  simp [stateBehind, List.findSome?_append]

theorem stateBehind_singleton (leaf : Subtree) (start : Length) :
    stateBehind [(leaf, start)] = leaf.info.scannerState := by
  cases found : leaf.info.scannerState <;> simp [stateBehind, found]

theorem stateBehind_carriers (leaves : List (Subtree × Length)) :
    stateBehind (carriers leaves) = stateBehind leaves := by
  induction leaves with
  | nil => rfl
  | cons entry leaves ih =>
    rw [← List.singleton_append, carriers_append, stateBehind_append, stateBehind_append, ih]
    obtain ⟨leaf, start⟩ := entry
    cases found : leaf.info.scannerState <;> simp [carriers, stateBehind, found]

theorem Rearranges.stateBehind_eq {before after : List (Subtree × Length)}
    (h : Rearranges before after) : stateBehind after = stateBehind before := by
  rw [← stateBehind_carriers after, ← h.carriers, stateBehind_carriers]

def lastState (leaves : List Subtree) : Option ScannerState :=
  leaves.reverse.findSome? fun leaf => leaf.info.scannerState

theorem lastState_append (xs ys : List Subtree) :
    lastState (xs ++ ys) = (lastState ys).or (lastState xs) := by
  simp [lastState, List.findSome?_append]

theorem stateBehind_eq_lastState (leaves : List (Subtree × Length)) :
    stateBehind leaves = lastState (leaves.map (·.1)) := by
  rw [lastState, ← List.map_reverse, List.findSome?_map]
  rfl

namespace Subtree

def ScanMark (info : SubtreeInfo) (children : List Subtree) : Prop :=
  info.hasExternals =
    if children.isEmpty then info.scannerState.isSome else children.any (·.hasExternals)

def IsScanMarked (tree : Subtree) : Prop := tree.Every ScanMark

variable {tree : Subtree} {children : List Subtree}

theorem isScanMarked_leaf (language : Language) (token : Token) (state : StateId)
    (isExtra : Bool) : (leaf language token state isExtra).IsScanMarked :=
  ⟨rfl, trivial⟩

theorem isScanMarked_missing (language : Language) (symbol : SymbolId) (state : StateId) :
    (missing language symbol state).IsScanMarked :=
  ⟨rfl, trivial⟩

theorem isScanMarked_node {info : SubtreeInfo}
    (marked : info.hasExternals = children.any (·.hasExternals)) (none : info.scannerState = none)
    (h : ∀ child ∈ children, child.IsScanMarked) : (node info children).IsScanMarked := by
  refine every_node.2 ⟨?_, h⟩
  cases children with
  | nil => simp [ScanMark, marked, none]
  | cons child rest => simp [ScanMark, marked]

mutual

theorem lastScannerState_eq : ∀ {tree : Subtree} (start : Length), tree.IsScanMarked →
    tree.lastScannerState = stateBehind (tree.leavesAt start) ∧
      tree.hasExternals = (stateBehind (tree.leavesAt start)).isSome
  | node info [], start, h => by
    rw [lastScannerState, leavesAt, stateBehind_singleton]
    exact ⟨rfl, h.1⟩
  | node info (child :: rest), start, h => by
    obtain ⟨found, marks⟩ := @lastScannerStateOf_eq (child :: rest) start h.2
    rw [lastScannerState, leavesAt, found]
    refine ⟨by cases stateBehind (leavesAtList start (child :: rest)) <;> rfl, ?_⟩
    rw [← marks]
    exact h.1

theorem lastScannerStateOf_eq : ∀ {trees : List Subtree} (start : Length), EveryIn ScanMark trees →
    lastScannerStateOf trees = (stateBehind (leavesAtList start trees)).map some ∧
      trees.any (·.hasExternals) = (stateBehind (leavesAtList start trees)).isSome
  | [], _, _ => ⟨rfl, rfl⟩
  | tree :: rest, start, h => by
    obtain ⟨found, marks⟩ := lastScannerState_eq start h.1
    obtain ⟨others, marked⟩ := @lastScannerStateOf_eq rest (start + tree.size) h.2
    rw [lastScannerStateOf, leavesAtList, stateBehind_append, others, found, List.any_cons, marked,
      marks]
    cases stateBehind (leavesAtList (start + tree.size) rest) <;>
      cases stateBehind (tree.leavesAt start) <;> simp

end

mutual

theorem map_leavesAt : ∀ (tree : Subtree) (start : Length),
    (tree.leavesAt start).map (·.1) = tree.leaves
  | node _ [], _ => rfl
  | node _ (child :: rest), start => map_leavesAtList (child :: rest) start

theorem map_leavesAtList : ∀ (trees : List Subtree) (start : Length),
    (leavesAtList start trees).map (·.1) = leavesOf trees
  | [], _ => rfl
  | tree :: rest, start => by
    rw [leavesAtList, leavesOf, List.map_append, map_leavesAt tree start,
      map_leavesAtList rest (start + tree.size)]

end

theorem stateBehind_leavesAt (tree : Subtree) (start start' : Length) :
    stateBehind (tree.leavesAt start) = stateBehind (placed start' tree.leaves) := by
  rw [stateBehind_eq_lastState, stateBehind_eq_lastState, map_leavesAt, map_placed]

theorem lastScannerState_eq_lastState (marked : tree.IsScanMarked) :
    tree.lastScannerState = lastState tree.leaves ∧
      tree.hasExternals = (lastState tree.leaves).isSome := by
  rw [← map_leavesAt tree Length.zero, ← stateBehind_eq_lastState]
  exact lastScannerState_eq Length.zero marked

end Subtree

namespace Stack

def IsScanMarked (stack : Stack) : Prop := ∀ tree ∈ stack.subtrees, tree.IsScanMarked

variable {stack reduced upper lower : Stack} {tree : Subtree}

theorem IsScanMarked.push (h : stack.IsScanMarked) (marked : tree.IsScanMarked)
    (state : StateId) : (stack.push tree state).IsScanMarked :=
  forall_push h marked state

theorem isScanMarked_append :
    IsScanMarked (upper ++ lower) ↔ upper.IsScanMarked ∧ lower.IsScanMarked := by
  simp only [IsScanMarked, subtrees_append, List.forall_mem_append]
  exact and_comm

theorem lastScannerState_eq (h : stack.IsScanMarked) :
    stack.lastScannerState = stateBehind stack.leaves := by
  induction stack with
  | nil => rfl
  | cons entry below ih =>
    have marked := h entry.subtree (mem_subtrees.2 ⟨entry, List.mem_cons_self .., rfl⟩)
    have lower : IsScanMarked below := fun tree member => by
      obtain ⟨other, there, rfl⟩ := mem_subtrees.1 member
      exact h _ (mem_subtrees.2 ⟨other, List.mem_cons_of_mem _ there, rfl⟩)
    have whole : Stack.leaves (entry :: below) = Stack.leaves below ++ Subtree.placed
        (Length.concat ((Subtree.leavesOf (subtrees below)).map (·.size))) entry.subtree.leaves :=
      leaves_push entry.subtree entry.state
    obtain ⟨found, marks⟩ := Subtree.lastScannerState_eq Length.zero marked
    rw [whole, stateBehind_append, ← ih lower, ← Subtree.stateBehind_leavesAt _ Length.zero]
    unfold lastScannerState
    rw [List.find?_cons, marks]
    cases state : stateBehind (entry.subtree.leavesAt Length.zero)
    · rfl
    · simpa using found.trans state

end Stack

end IncrementalGlr
