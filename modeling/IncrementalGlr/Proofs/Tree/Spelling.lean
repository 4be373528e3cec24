import IncrementalGlr.Proofs.Tree.Marks
import IncrementalGlr.Proofs.Lexer.Token

/-!
# Trees spell text

A tree spells a piece of text when its leaves cover the piece one after the other and every node has
the size of its children. What stands behind the piece is kept in view because a leaf for the end of
input has its place at the end of the text only.
-/

namespace IncrementalGlr

namespace Subtree

mutual

def Spells : Subtree → List Char → List Char → Prop
  | node info [], piece, post =>
    info.size = Length.ofChars piece ∧
      (info.symbol = SymbolId.endOfInput → info.isChanged = false → piece = [] ∧ post = [])
  | node info (child :: rest), piece, post =>
    info.size = Length.ofChars piece ∧ SpellAll (child :: rest) piece post

def SpellAll : List Subtree → List Char → List Char → Prop
  | [], piece, _ => piece = []
  | tree :: rest, piece, post =>
    ∃ own others, piece = own ++ others ∧ tree.Spells own (others ++ post)
      ∧ SpellAll rest others post

end

variable {info : SubtreeInfo} {tree : Subtree} {trees : List Subtree}
  {piece post : List Char}

theorem Spells.size (h : tree.Spells piece post) : tree.size = Length.ofChars piece := by
  obtain ⟨info, children⟩ := tree
  cases children with
  | nil => exact h.1
  | cons child rest => exact h.1

theorem Spells.children (h : tree.Spells piece post) (interior : tree.children ≠ []) :
    SpellAll tree.children piece post := by
  obtain ⟨info, children⟩ := tree
  cases children with
  | nil => exact absurd rfl interior
  | cons child rest => exact h.2

theorem spells_node (size : info.size = Length.ofChars piece) (all : SpellAll trees piece post)
    (last : info.symbol = SymbolId.endOfInput → post = []) :
    (node info trees).Spells piece post := by
  cases trees with
  | nil => exact ⟨size, fun isEnd _ => ⟨all, last isEnd⟩⟩
  | cons child rest => exact ⟨size, all⟩

theorem spellAll_singleton : SpellAll [tree] piece post ↔ tree.Spells piece post := by
  constructor
  · rintro ⟨own, others, rfl, spells, rfl⟩
    simpa using spells
  · intro spells
    exact ⟨piece, [], by simp, by simpa using spells, rfl⟩

theorem spellAll_append {xs ys : List Subtree} : SpellAll (xs ++ ys) piece post ↔
    ∃ first second, piece = first ++ second ∧ SpellAll xs first (second ++ post)
      ∧ SpellAll ys second post := by
  induction xs generalizing piece with
  | nil =>
    constructor
    · intro all
      exact ⟨[], piece, rfl, rfl, all⟩
    · rintro ⟨first, second, rfl, rfl, all⟩
      exact all
  | cons tree xs ih =>
    constructor
    · rintro ⟨own, others, rfl, spells, all⟩
      obtain ⟨first, second, rfl, left, right⟩ := ih.1 all
      exact ⟨own ++ first, second, by simp, ⟨own, first, rfl, by simpa using spells, left⟩, right⟩
    · rintro ⟨first, second, rfl, ⟨own, others, rfl, spells, left⟩, right⟩
      exact ⟨own, others ++ second, by simp, by simpa using spells,
        ih.2 ⟨others, second, rfl, left, right⟩⟩

theorem concat_of_spellAll (h : SpellAll trees piece post) :
    Length.concat (trees.map (·.size)) = Length.ofChars piece := by
  induction trees generalizing piece with
  | nil =>
    cases h
    rfl
  | cons tree trees ih =>
    obtain ⟨own, others, rfl, spells, all⟩ := h
    rw [List.map_cons, Length.concat_cons, spells.size, ih all, Length.ofChars_append]

theorem sum_of_spellAll (short : IsShort piece) (h : SpellAll trees piece post) :
    Length.sum (trees.map (·.size)) = Length.ofChars piece := by
  rw [Length.sum_eq_wrapped, concat_of_spellAll h, short.isWord.wrapped]

mutual

theorem Spells.behind : ∀ {tree : Subtree} {piece post post' : List Char},
    (post = [] → post' = []) → tree.Spells piece post → tree.Spells piece post'
  | node _ [], _, _, _, same, h => ⟨h.1, fun isEnd unchanged =>
      ⟨(h.2 isEnd unchanged).1, same (h.2 isEnd unchanged).2⟩⟩
  | node _ (_ :: _), _, _, _, same, h => ⟨h.1, SpellAll.behind same h.2⟩

theorem SpellAll.behind : ∀ {trees : List Subtree} {piece post post' : List Char},
    (post = [] → post' = []) → SpellAll trees piece post → SpellAll trees piece post'
  | [], _, _, _, _, h => h
  | _ :: _, _, _, _, same, ⟨own, others, whole, spells, all⟩ => by
      refine ⟨own, others, whole, Spells.behind ?_ spells, SpellAll.behind same all⟩
      intro none
      rw [List.append_eq_nil_iff] at none ⊢
      exact ⟨none.1, same none.2⟩

end

theorem Spells.eq_nil_of_firstLeaf (h : tree.Spells piece post)
    (unchanged : tree.firstLeaf.isChanged = false)
    (isEnd : tree.firstLeaf.symbol = SymbolId.endOfInput) : piece = [] ∧ post = [] := by
  fun_induction firstLeaf tree generalizing piece post with
  | case1 info => exact h.2 isEnd unchanged
  | case2 info child rest ih =>
    obtain ⟨own, others, rfl, spells, all⟩ := h.2
    obtain ⟨rfl, none⟩ := ih spells unchanged isEnd
    rw [List.append_eq_nil_iff] at none
    exact ⟨by simpa using none.1, none.2⟩

theorem SpellAll.getElem? {i : Nat} {child : Subtree} (h : SpellAll trees piece post)
    (here : trees[i]? = some child) : ∃ before own after, piece = before ++ (own ++ after) ∧
      Length.concat ((trees.take i).map (·.size)) = Length.ofChars before ∧
      child.Spells own (after ++ post) := by
  induction trees generalizing i piece with
  | nil => simp at here
  | cons tree trees ih =>
    obtain ⟨own, others, rfl, spells, all⟩ := h
    cases i with
    | zero =>
      cases here
      exact ⟨[], own, others, rfl, rfl, spells⟩
    | succ i =>
      obtain ⟨before, inner, after, rfl, sum, found⟩ := ih all (by simpa using here)
      refine ⟨own ++ before, inner, after, by simp, ?_, found⟩
      rw [List.take_succ_cons, List.map_cons, Length.concat_cons, sum, spells.size,
        Length.ofChars_append]

theorem Spells.at? {path : List Nat} {offset : Length} {found : Subtree}
    (h : tree.Spells piece post) (there : tree.at? path = some (offset, found)) :
    ∃ before own after, piece = before ++ (own ++ after) ∧ offset = Length.ofChars before
      ∧ found.Spells own (after ++ post) := by
  induction path generalizing tree piece post offset with
  | nil =>
    cases there
    exact ⟨[], piece, [], by simp, rfl, h⟩
  | cons i path ih =>
    obtain ⟨child, inner, here, below, rfl⟩ := at?_cons.1 there
    have interior : tree.children ≠ [] := by
      intro none
      simp [none] at here
    obtain ⟨before, own, after, rfl, sum, spells⟩ := (h.children interior).getElem? here
    obtain ⟨before', own', after', rfl, rfl, found⟩ := ih spells below
    refine ⟨before ++ before', own', after' ++ after, by simp, ?_, by simpa using found⟩
    rw [sum, Length.ofChars_append]

theorem spells_leaf (language : Language) {token : Token} {table : Table}
    (covers : token.Covers table post) (state : StateId) (isExtra : Bool) :
    ∃ piece rest, post = piece ++ rest ∧
      token.size = Length.ofChars piece ∧
      (leaf language token state isExtra).Spells piece rest := by
  obtain ⟨piece, rest, rfl, size⟩ := covers.size
  refine ⟨piece, rest, rfl, size, size, ?_⟩
  intro isEnd _
  have none := covers.last (beq_iff_eq.2 isEnd)
  rwa [List.append_eq_nil_iff] at none

theorem spells_missing (language : Language) {symbol : SymbolId} (state : StateId)
    (text : symbol ≠ SymbolId.endOfInput) : (missing language symbol state).Spells [] post :=
  ⟨rfl, fun isEnd => absurd isEnd text⟩

theorem spells_ofProduction (language : Language) {symbol : SymbolId} (production : ProductionId)
    (short : IsShort piece) (all : SpellAll trees piece post)
    (last : symbol = SymbolId.endOfInput → post = []) :
    (ofProduction language symbol production trees).Spells piece post :=
  spells_node (sum_of_spellAll short all) all last

theorem spells_errorNode (language : Language) (short : IsShort piece)
    (all : SpellAll trees piece post) : (errorNode language trees).Spells piece post :=
  spells_node (sum_of_spellAll short all) all fun isEnd => nomatch (isEnd : SymbolId.error = _)

theorem Spells.modify (h : tree.Spells piece post) {f : SubtreeInfo → SubtreeInfo}
    (symbol : (f tree.info).symbol = tree.info.symbol)
    (size : (f tree.info).size = tree.info.size)
    (changed : (f tree.info).isChanged = tree.info.isChanged) :
    (tree.modify f).Spells piece post := by
  obtain ⟨info, children⟩ := tree
  cases children with
  | nil =>
    refine ⟨size.trans h.1, ?_⟩
    intro isEnd unchanged
    exact h.2 (symbol.symm.trans isEnd) (changed.symm.trans unchanged)
  | cons child rest => exact ⟨size.trans h.1, h.2⟩

end Subtree

end IncrementalGlr
