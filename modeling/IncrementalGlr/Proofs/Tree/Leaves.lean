import IncrementalGlr.Proofs.Tree.Tiling
import IncrementalGlr.Proofs.Parse.Stack

/-!
# Leaves keep their places

What moves subtrees into a node or out of it leaves the leaves where they are. Only leaves that
stand for no token come and go. In a tree that spells a short text, the leaves stand where their
sizes put them.
-/

namespace IncrementalGlr

structure Subtree.IsVoid (leaf : Subtree) : Prop where
  size : leaf.size = Length.zero
  scannerState : leaf.info.scannerState = none

def KeepsLeaves (before after : List (Subtree × Length)) : Prop :=
  ∀ entry ∈ after, entry ∈ before ∨ entry.1.IsVoid

def carriers (leaves : List (Subtree × Length)) : List (Subtree × Length) :=
  leaves.filter fun entry => entry.1.info.scannerState.isSome

@[simp] theorem carriers_append (xs ys : List (Subtree × Length)) :
    carriers (xs ++ ys) = carriers xs ++ carriers ys := List.filter_append ..

structure Rearranges (before after : List (Subtree × Length)) : Prop where
  keeps : KeepsLeaves before after
  carriers : carriers before = carriers after

namespace Rearranges

variable {xs ys zs xs' ys' : List (Subtree × Length)}

theorem refl (xs : List (Subtree × Length)) : Rearranges xs xs := ⟨fun _ => .inl, rfl⟩

theorem trans (first : Rearranges xs ys) (second : Rearranges ys zs) : Rearranges xs zs :=
  ⟨fun entry member => (second.keeps entry member).elim (first.keeps entry) .inr,
    first.carriers.trans second.carriers⟩

theorem append (left : Rearranges xs ys) (right : Rearranges xs' ys') :
    Rearranges (xs ++ xs') (ys ++ ys') := by
  refine ⟨fun entry member => ?_, by rw [carriers_append, carriers_append, left.carriers,
    right.carriers]⟩
  rcases List.mem_append.1 member with member | member
  · exact (left.keeps entry member).imp_left (List.mem_append_left _)
  · exact (right.keeps entry member).imp_left (List.mem_append_right _)

theorem append_void {leaf : Subtree} (void : leaf.IsVoid) (start : Length) :
    Rearranges xs (xs ++ [(leaf, start)]) := by
  refine ⟨fun entry member => ?_, by simp [IncrementalGlr.carriers, void.scannerState]⟩
  rcases List.mem_append.1 member with old | new
  · exact .inl old
  · rw [List.mem_singleton.1 new]
    exact .inr void

end Rearranges

namespace Subtree

def placed : Length → List Subtree → List (Subtree × Length)
  | _, [] => []
  | start, leaf :: rest => (leaf, start) :: placed (start ++ leaf.size) rest

variable {tree : Subtree} {children xs ys : List Subtree}

theorem placed_append (start : Length) (xs ys : List Subtree) : placed start (xs ++ ys)
    = placed start xs ++ placed (start ++ Length.concat (xs.map (·.size))) ys := by
  induction xs generalizing start with
  | nil => simp [placed]
  | cons leaf xs ih =>
    simp only [List.cons_append, placed, ih, List.map_cons, Length.concat_cons,
      Length.append_assoc]

theorem map_placed (start : Length) (xs : List Subtree) : (placed start xs).map (·.1) = xs := by
  induction xs generalizing start with
  | nil => rfl
  | cons leaf xs ih => rw [placed, List.map_cons, ih]

theorem leavesOf_append (xs ys : List Subtree) :
    leavesOf (xs ++ ys) = leavesOf xs ++ leavesOf ys := by
  induction xs with
  | nil => rfl
  | cons tree xs ih => rw [List.cons_append, leavesOf, leavesOf, ih, List.append_assoc]

theorem leavesOf_singleton (tree : Subtree) : leavesOf [tree] = tree.leaves := by
  rw [leavesOf, leavesOf, List.append_nil]

theorem leaves_of_children (interior : tree.children ≠ []) :
    tree.leaves = leavesOf tree.children := by
  obtain ⟨info, children⟩ := tree
  cases children with
  | nil => exact absurd rfl interior
  | cons child rest => rfl

theorem leaves_childless (leaf : tree.children = []) : tree.leaves = [tree] := by
  obtain ⟨info, children⟩ := tree
  cases leaf
  rfl

mutual

theorem concat_leaves : ∀ {tree : Subtree} {piece post : List Char}, tree.Spells piece post →
    Length.concat (tree.leaves.map (·.size)) = Length.ofChars piece
  | node _ [], _, _, h => (Length.append_zero _).trans h.1
  | node _ (_ :: _), _, _, h => concat_leavesOf h.2

theorem concat_leavesOf : ∀ {trees : List Subtree} {piece post : List Char},
    SpellAll trees piece post →
      Length.concat ((leavesOf trees).map (·.size)) = Length.ofChars piece
  | [], _, _, h => by
    cases h
    rfl
  | _ :: _, _, _, ⟨own, others, whole, spells, all⟩ => by
    rw [leavesOf, List.map_append, Length.concat_append, concat_leaves spells, concat_leavesOf all,
      ← Length.ofChars_append, whole]

end

mutual

theorem leavesAt_eq_placed : ∀ {tree : Subtree} {pre piece post : List Char},
    IsShort (pre ++ piece) → tree.Spells piece post →
      tree.leavesAt (Length.ofChars pre) = placed (Length.ofChars pre) tree.leaves
  | node _ [], _, _, _, _, _ => rfl
  | node _ (_ :: _), _, _, _, short, h => leavesAtList_eq_placed short h.2

theorem leavesAtList_eq_placed : ∀ {trees : List Subtree} {pre piece post : List Char},
    IsShort (pre ++ piece) → SpellAll trees piece post →
      leavesAtList (Length.ofChars pre) trees = placed (Length.ofChars pre) (leavesOf trees)
  | [], _, _, _, _, _ => rfl
  | tree :: rest, pre, _, _, short, ⟨own, others, whole, spells, all⟩ => by
    subst whole
    rw [← List.append_assoc] at short
    rw [leavesAtList, leavesOf, placed_append, concat_leaves spells, ← Length.ofChars_append,
      leavesAt_eq_placed short.left spells, spells.size, short.left.add,
      leavesAtList_eq_placed short all]

end

theorem rearranges_enclose (same : tree.children = children)
    (empty : children = [] → tree.size = Length.zero) (noState : tree.info.scannerState = none)
    (start : Length) (left right : List Subtree) :
    Rearranges (placed start (leavesOf (left ++ (children ++ right))))
      (placed start (leavesOf (left ++ tree :: right))) := by
  simp only [leavesOf_append, leavesOf, placed_append]
  refine .append (.refl _) ?_
  cases children with
  | nil =>
    have void : tree.IsVoid := ⟨empty rfl, noState⟩
    simp only [leaves_childless same, leavesOf, placed, List.map_cons, List.map_nil,
      Length.concat_cons, Length.concat_nil, void.size, Length.append_zero]
    exact .append (.append_void void _) (.refl _)
  | cons child rest =>
    rw [leaves_of_children (same ▸ List.cons_ne_nil _ _), same]
    exact .refl _

theorem rearranges_disclose (empty : tree.children = [] → tree.size = Length.zero)
    (noState : tree.children = [] → tree.info.scannerState = none) (start : Length)
    (left right : List Subtree) :
    Rearranges (placed start (leavesOf (left ++ tree :: right)))
      (placed start (leavesOf (left ++ (tree.children ++ right)))) := by
  simp only [leavesOf_append, leavesOf, placed_append]
  refine .append (.refl _) ?_
  by_cases leaf : tree.children = []
  · simp only [leaves_childless leaf, leaf, leavesOf, placed, List.map_cons, List.map_nil,
      Length.concat_cons, Length.concat_nil, empty leaf, Length.append_zero]
    refine .append ⟨fun _ absent => absurd absent List.not_mem_nil, ?_⟩ (.refl _)
    simp [carriers, noState leaf]
  · rw [leaves_of_children leaf]
    exact .refl _

theorem size_ofProduction_nil (language : Language) (symbol : SymbolId)
    (production : ProductionId) (bare : children = []) :
    (ofProduction language symbol production children).size = Length.zero := by
  rw [bare]
  rfl

theorem size_errorNode_nil (language : Language) (bare : children = []) :
    (errorNode language children).size = Length.zero := by
  rw [bare]
  rfl

end Subtree

namespace Stack

variable {stack : Stack} {table : Table} {pre post : List Char}

def leaves (stack : Stack) : List (Subtree × Length) :=
  Subtree.placed Length.zero (Subtree.leavesOf stack.subtrees)

theorem leaves_push (tree : Subtree) (state : StateId) : (stack.push tree state).leaves
    = stack.leaves ++ Subtree.placed
      (Length.concat ((Subtree.leavesOf stack.subtrees).map (·.size))) tree.leaves := by
  rw [leaves, subtrees_push, Subtree.leavesOf_append, Subtree.placed_append, Length.zero_append,
    Subtree.leavesOf_singleton]
  rfl

theorem Spells.concat_leaves (h : stack.Spells table pre post) :
    Length.concat ((Subtree.leavesOf stack.subtrees).map (·.size)) = stack.position := by
  rw [Subtree.concat_leavesOf h.all.1, h.position]

end Stack

namespace ParseInput

variable {input : ParseInput} {stack reduced : Stack}

theorem rearranges_reduce {reach : Nat} {isFragile : Bool} {symbol : SymbolId}
    {childCount : UInt16} {production : ProductionId}
    (done : input.reduce stack reach isFragile symbol childCount production = some reduced) :
    Rearranges stack.leaves reduced.leaves := by
  obtain ⟨popped, next, _, took, found, rfl, rfl⟩ := reduce_eq_some done
  obtain ⟨upper, whole, parts⟩ := Stack.pop_eq_some took
  rw [Stack.leaves, Stack.leaves, Stack.subtrees_pushAll, Stack.subtrees_push, whole,
    Stack.subtrees_append, parts, List.append_assoc, List.singleton_append]
  refine Subtree.rearranges_enclose ?_ (fun none => ?_) ?_ _ _ _
  · split <;> rfl
  · rw [none]
    split <;> rfl
  · split <;> rfl

end ParseInput

end IncrementalGlr
