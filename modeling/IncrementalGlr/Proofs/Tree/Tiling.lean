import IncrementalGlr.Proofs.Tree.Spelling

/-!
# Trees that tile a text

What a reader may rely on in a tree of a text: the leaves stand one after the other from the start
of the text to its end, each as long as the characters in its place, and a node is as long as its
children together.
-/

namespace IncrementalGlr

/-- The text falls into pieces of whole characters, one for each leaf: the leaf starts behind the
pieces before it and has the size of its own. -/
def Tiles (leaves : List (Subtree × Length)) (text : List Char) : Prop :=
  ∃ pieces : List (List Char), pieces.flatten = text ∧ pieces.length = leaves.length ∧
    ∀ i leaf start piece, leaves[i]? = some (leaf, start) → pieces[i]? = some piece →
      start = Length.ofChars (pieces.take i).flatten ∧ leaf.size = Length.ofChars piece

structure Tree.Covers (tree : Tree) (text : String) : Prop where
  leaves : Tiles tree.leaves text.toList
  nodes : tree.root.Every fun info children =>
    children ≠ [] → info.size = Length.concat (children.map (·.size))
  root : tree.root.size = Length.ofText text

def TilesBehind : List Char → List (Subtree × Length) → List Char → Prop
  | _, [], text => text = []
  | pre, (leaf, start) :: rest, text =>
    start = Length.ofChars pre ∧ ∃ own others, text = own ++ others ∧
      leaf.size = Length.ofChars own ∧ TilesBehind (pre ++ own) rest others

theorem tilesBehind_append {pre text text' : List Char} {xs ys : List (Subtree × Length)}
    (left : TilesBehind pre xs text) (right : TilesBehind (pre ++ text) ys text') :
    TilesBehind pre (xs ++ ys) (text ++ text') := by
  induction xs generalizing pre text with
  | nil =>
    cases left
    simpa using right
  | cons x xs ih =>
    obtain ⟨leaf, start⟩ := x
    obtain ⟨place, own, others, rfl, size, rest⟩ := left
    refine ⟨place, own, others ++ text', by simp, size, ih rest ?_⟩
    simpa using right

namespace Subtree

mutual

theorem tilesBehind_leavesAt : ∀ {tree : Subtree} {pre piece post : List Char},
    IsShort (pre ++ piece) → tree.Spells piece post →
      TilesBehind pre (tree.leavesAt (Length.ofChars pre)) piece
  | node _ [], _, piece, _, _, h => ⟨rfl, piece, [], by simp, h.1, rfl⟩
  | node _ (_ :: _), _, _, _, short, h => tilesBehind_leavesAtList short h.2

theorem tilesBehind_leavesAtList : ∀ {trees : List Subtree} {pre piece post : List Char},
    IsShort (pre ++ piece) → SpellAll trees piece post →
      TilesBehind pre (leavesAtList (Length.ofChars pre) trees) piece
  | [], _, _, _, _, h => h
  | tree :: rest, pre, _, _, short, ⟨own, others, whole, spells, all⟩ => by
    subst whole
    rw [← List.append_assoc] at short
    refine tilesBehind_append (tilesBehind_leavesAt short.left spells) ?_
    rw [spells.size, short.left.add]
    exact tilesBehind_leavesAtList short all

end

mutual

theorem every_size_eq_concat : ∀ {tree : Subtree} {piece post : List Char},
    tree.Spells piece post → tree.Every fun info children =>
      children ≠ [] → info.size = Length.concat (children.map (·.size))
  | node _ [], _, _, _ => ⟨fun interior => absurd rfl interior, trivial⟩
  | node _ (_ :: _), _, _, h =>
    ⟨fun _ => h.1.trans (concat_of_spellAll h.2).symm, everyIn_size_eq_concat h.2⟩

theorem everyIn_size_eq_concat : ∀ {trees : List Subtree} {piece post : List Char},
    SpellAll trees piece post → EveryIn (fun info children =>
      children ≠ [] → info.size = Length.concat (children.map (·.size))) trees
  | [], _, _, _ => trivial
  | _ :: _, _, _, ⟨_, _, _, spells, all⟩ =>
    ⟨every_size_eq_concat spells, everyIn_size_eq_concat all⟩

end

end Subtree

end IncrementalGlr
