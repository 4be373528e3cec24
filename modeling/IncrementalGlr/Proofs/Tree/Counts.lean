import Mathlib.Data.Nat.ModEq
import IncrementalGlr.Proofs.Tree.Places

/-!
# Counts of children

A node stores how many children a reader sees in it, counted from its children when it was built.
Edits change sizes and marks alone, so that the counts stay the numbers of nodes that a walk over
the children comes to, as far as words can tell them.
-/

namespace IncrementalGlr

namespace Subtree

variable {language : Language} {tree child next : Subtree} {children others : List Subtree}

structure Tallied (language : Language) (info : SubtreeInfo) (children : List Subtree) :
    Prop where
  visible : info.visibleChildCount =
    (assignSteps (language.table.stepsOf info.symbol info.production) children).foldr
      (shownCount language · + ·) 0 % UInt32.size
  named : info.namedChildCount =
    (assignSteps (language.table.stepsOf info.symbol info.production) children).foldr
      (shownNamedCount language · + ·) 0 % UInt32.size
  size : children ≠ [] → info.size = Length.sum (children.map (·.size))

theorem Constructed.tallied (h : tree.Constructed language) : tree.Every (Tallied language) := by
  induction h with
  | leaf token state isExtra => exact every_node.2 ⟨⟨rfl, rfl, absurd rfl⟩, by simp⟩
  | missing symbol state => exact every_node.2 ⟨⟨rfl, rfl, absurd rfl⟩, by simp⟩
  | ofProduction symbol production _ ih => exact every_node.2 ⟨⟨rfl, rfl, fun _ => rfl⟩, ih⟩
  | errorNode _ ih => exact every_node.2 ⟨⟨rfl, rfl, fun _ => rfl⟩, ih⟩

theorem Keeps.isShown (kept : child.Keeps next) (step : Option ProductionStep) :
    isShown language next step = isShown language child step := by
  unfold IncrementalGlr.isShown
  rw [kept.isVisible]

theorem Keeps.isShownNamed (kept : child.Keeps next) (step : Option ProductionStep) :
    isShownNamed language next step = isShownNamed language child step := by
  unfold IncrementalGlr.isShownNamed
  rw [kept.isNamed]

theorem Keeps.shownCount (kept : child.Keeps next) (step : Option ProductionStep) :
    shownCount language (next, step) = shownCount language (child, step) := by
  simp only [Subtree.shownCount, kept.isShown, kept.visibleChildCount]

theorem Keeps.shownNamedCount (kept : child.Keeps next) (step : Option ProductionStep) :
    shownNamedCount language (next, step) = shownNamedCount language (child, step) := by
  simp only [Subtree.shownNamedCount, kept.isShown, kept.isShownNamed, kept.namedChildCount]

theorem foldr_assignSteps_congr {count : Subtree × Option ProductionStep → Nat}
    (same : ∀ {child next : Subtree}, child.Keeps next →
      ∀ step, count (next, step) = count (child, step))
    (kept : List.Forall₂ Keeps children others) (steps : List ProductionStep) :
    (assignSteps steps others).foldr (count · + ·) 0 =
      (assignSteps steps children).foldr (count · + ·) 0 := by
  induction kept generalizing steps with
  | nil => rfl
  | cons kept _ ih =>
    rw [assignSteps, assignSteps, kept.isExtra]
    split
    · rw [List.foldr_cons, List.foldr_cons, same kept, ih]
    · rw [List.foldr_cons, List.foldr_cons, same kept, ih]

theorem Every.tallied_edited (h : tree.Every (Tallied language)) (edit : Edit) (start : Length)
    (last : Bool) : (tree.edited edit start last).Every (Tallied language) := by
  induction tree generalizing start last with
  | node info children ih =>
    by_cases touched : edit.touches start.bytes (start + info.size).bytes info.lookahead = true
    · cases children with
      | nil =>
        rw [edited, if_pos touched]
        exact every_node.2 ⟨⟨h.here.visible, h.here.named, absurd rfl⟩, by simp⟩
      | cons child rest =>
        rw [edited_of_touches touched]
        have kept := keeps_editedList edit start last (child :: rest)
        refine every_node.2 ⟨⟨?_, ?_, fun _ => rfl⟩, fun tree member => ?_⟩
        · rw [foldr_assignSteps_congr Keeps.shownCount kept]
          exact h.here.visible
        · rw [foldr_assignSteps_congr Keeps.shownNamedCount kept]
          exact h.here.named
        · obtain ⟨old, there, start, last, rfl⟩ := mem_editedList member
          exact ih old there (h.child there) start last
    · rwa [edited_of_not_touches touched]

end Subtree

namespace Tree

variable {tree : Tree} {language : Language}

theorem language_edits (edits : List Edit) : (edits.foldl Tree.edit tree).language =
    tree.language := by
  induction edits generalizing tree with
  | nil => rfl
  | cons edit edits ih => exact ih

theorem tallied_edits (h : tree.root.Every (Subtree.Tallied language)) (edits : List Edit) :
    (edits.foldl Tree.edit tree).root.Every (Subtree.Tallied language) := by
  induction edits generalizing tree with
  | nil => exact h
  | cons edit edits ih => exact ih (h.tallied_edited edit Length.zero true)

end Tree

namespace Node

variable {tree : Tree}

structure Number (nodes : List Node) (count named : Nat) : Prop where
  all : nodes.length ≡ count [MOD UInt32.size]
  named : (nodes.filter (·.isNamed)).length ≡ named [MOD UInt32.size]

theorem Number.append {nodes others : List Node} {count named count' named' : Nat}
    (left : Number nodes count named) (right : Number others count' named') :
    Number (nodes ++ others) (count + count') (named + named') := by
  refine ⟨?_, ?_⟩
  · rw [List.length_append]
    exact left.all.add right.all
  · rw [List.filter_append, List.length_append]
    exact left.named.add right.named

theorem isNamed_eq_isShownNamed (child : Subtree) (start : Length) (step : Option ProductionStep)
    (field : Option FieldId) (path : List Nat) :
    Node.isNamed ⟨tree, child, start, aliasOf step, field, path⟩ =
      isShownNamed tree.language child step := by
  unfold Node.isNamed isShownNamed
  cases aliasOf step <;> rfl

theorem number_ofChild (path : List Nat) (start : Length) (field : Option FieldId)
    (step : Option ProductionStep) {child : Subtree}
    (hidden : Number (below tree path start field child) child.visibleChildCount
      child.namedChildCount) :
    Number (ofChild tree path start field step child)
      (Subtree.shownCount tree.language (child, step))
      (Subtree.shownNamedCount tree.language (child, step)) := by
  unfold ofChild Subtree.shownCount Subtree.shownNamedCount
  split
  · refine ⟨rfl, ?_⟩
    rw [List.filter_singleton, isNamed_eq_isShownNamed]
    cases isShownNamed tree.language child step <;> exact Nat.ModEq.refl _
  · exact hidden

mutual

theorem number_below : ∀ {subtree : Subtree} (path : List Nat) (start : Length)
    (inherited : Option FieldId), subtree.Every (Subtree.Tallied tree.language) →
    Number (below tree path start inherited subtree) subtree.visibleChildCount
      subtree.namedChildCount
  | .node info children, path, start, inherited, h => by
    rw [below, show Subtree.visibleChildCount (.node info children) = _ from h.here.visible,
      show Subtree.namedChildCount (.node info children) = _ from h.here.named]
    have number := number_among path start inherited
      (tree.language.table.stepsOf info.symbol info.production) 0
      (Subtree.everyIn_iff.2 fun _ => h.child)
    exact ⟨number.all.trans (Nat.mod_modEq _ _).symm, number.named.trans (Nat.mod_modEq _ _).symm⟩

theorem number_among : ∀ {trees : List Subtree} (path : List Nat) (start : Length)
    (inherited : Option FieldId) (steps : List ProductionStep) (index : Nat),
    Subtree.EveryIn (Subtree.Tallied tree.language) trees →
    Number (among tree path start inherited steps index trees)
      ((assignSteps steps trees).foldr (Subtree.shownCount tree.language · + ·) 0)
      ((assignSteps steps trees).foldr (Subtree.shownNamedCount tree.language · + ·) 0)
  | [], path, start, inherited, steps, index, _ => by
    rw [among]
    exact ⟨rfl, rfl⟩
  | child :: rest, path, start, inherited, steps, index, ⟨here, others⟩ => by
    obtain ⟨step, field, steps', _, _, assigned, parts⟩ :=
      among_cons path start inherited steps index child rest
    rw [parts, assigned, List.foldr_cons, List.foldr_cons]
    exact (number_ofChild _ start field step (number_below _ start field here)).append
      (number_among path (start + child.size) inherited steps' _ others)

end

/-- The counts of a node are those of the walk over its children, as words. -/
structure CountsChildren (node : Node) : Prop where
  childCount : node.childCount = node.children.length % UInt32.size
  namedChildCount : node.namedChildCount = node.namedChildren.length % UInt32.size

/-- The children of a node follow one another from its start to its end. -/
structure OrdersChildren (scale : Scale) (node : Node) : Prop where
  children : InOrder scale node.start node.stop node.children
  namedChildren : InOrder scale node.start node.stop node.namedChildren

theorem IsAt.countsChildren {node : Node} {path : List Nat} (here : node.IsAt tree path)
    (h : tree.root.Every (Subtree.Tallied tree.language)) : node.CountsChildren := by
  obtain ⟨offset, there, _⟩ := here.place
  have own : node.subtree.Every (Subtree.Tallied tree.language) := h.at? there
  have number := number_below node.path node.start none own
  rw [← here.whole] at number
  have visible := own.here.visible
  have named := own.here.named
  refine ⟨?_, ?_⟩
  · rw [children, number.all, childCount, Subtree.visibleChildCount, visible, Nat.mod_mod]
  · rw [namedChildren, children, number.named, namedChildCount, Subtree.namedChildCount, named,
      Nat.mod_mod]

theorem IsAt.ordersChildren {node : Node} {path : List Nat} {scale : Scale}
    (here : node.IsAt tree path) (solid : tree.root.IsSolid) (within : tree.root.IsWithin scale) :
    node.OrdersChildren scale :=
  ⟨here.inOrder solid within, (here.inOrder solid within).filter _⟩

/-- At every place of a tree that was put together and edited, the counts are those of the nodes
that the walk yields, as words. These follow one another by their bytes, and by their rows and
columns as well, if nothing in the tree ends at a place out of reach of words. -/
theorem countsChildren_of_constructed {language : Language} {root : Subtree}
    (built : root.Constructed language) (edits : List Edit) {node : Node} {path : List Nat}
    (here : node.IsAt (edits.foldl Tree.edit (Tree.ofRoot root language)) path) :
    node.CountsChildren ∧ ∀ scale : Scale,
      (edits.foldl Tree.edit (Tree.ofRoot root language)).root.IsWithin scale →
        node.OrdersChildren scale := by
  refine ⟨here.countsChildren ?_, fun scale => here.ordersChildren ?_⟩
  · rw [Tree.language_edits]
    exact Tree.tallied_edits built.tallied edits
  · exact (Tree.tallied_edits built.tallied edits).mono fun _ _ tallied => tallied.size

end Node

/-- A grammar of lists of `x`, in which the first of two is seen by another name. -/
def pairsLanguage : Language :=
  { (default : Language) with
    table := { (default : Table) with
      symbols := #[⟨"end", false, true, false⟩, ⟨"x", true, false, false⟩,
        ⟨"pairs", true, true, false⟩, ⟨"pair", false, true, false⟩, ⟨"name", true, true, false⟩]
      productions := #[⟨⟨2⟩, 0, [⟨none, none⟩, ⟨none, none⟩]⟩,
        ⟨⟨3⟩, 0, [⟨some ⟨4⟩, none⟩, ⟨none, none⟩]⟩] } }

def pairsTree : Subtree :=
  let x := Subtree.leaf pairsLanguage ⟨⟨1⟩, Length.zero, Length.ofText "x", 0, 0, none⟩ ⟨0⟩ false
  let pair := Subtree.ofProduction pairsLanguage ⟨3⟩ ⟨1⟩ [x, x]
  Subtree.ofProduction pairsLanguage ⟨2⟩ ⟨0⟩ [pair, Subtree.errorNode pairsLanguage [x], pair]

theorem constructed_pairsTree : pairsTree.Constructed pairsLanguage := by
  apply Subtree.Constructed.ofProduction
  have x : Subtree.Constructed pairsLanguage (.leaf pairsLanguage
      ⟨⟨1⟩, Length.zero, Length.ofText "x", 0, 0, none⟩ ⟨0⟩ false) := .leaf _ _ _
  have pair : Subtree.Constructed pairsLanguage (.ofProduction pairsLanguage ⟨3⟩ ⟨1⟩ [_, _]) :=
    .ofProduction _ _ (List.forall_mem_cons.2 ⟨x, List.forall_mem_singleton.2 x⟩)
  simp only [List.mem_cons, List.not_mem_nil, or_false, forall_eq_or_imp, forall_eq]
  exact ⟨pair, .errorNode (List.forall_mem_singleton.2 x), pair⟩

theorem spells_pairsTree : pairsTree.Spells "xxxxx".toList [] := by
  have x : ∀ post, Subtree.Spells (.leaf pairsLanguage
      ⟨⟨1⟩, Length.zero, Length.ofText "x", 0, 0, none⟩ ⟨0⟩ false) ['x'] post := fun post =>
    ⟨by decide, fun isEnd => absurd isEnd (by decide)⟩
  have pair : ∀ post, Subtree.Spells (.ofProduction pairsLanguage ⟨3⟩ ⟨1⟩ [_, _]) ['x', 'x'] post :=
    fun post => Subtree.spells_ofProduction _ _ (by decide)
      ⟨['x'], ['x'], rfl, x _, Subtree.spellAll_singleton.2 (x post)⟩ fun isEnd => nomatch isEnd
  refine Subtree.spells_ofProduction _ _ (by decide)
    ⟨['x', 'x'], ['x', 'x', 'x'], rfl, pair _, ['x'], ['x', 'x'], rfl, ?_,
      Subtree.spellAll_singleton.2 (pair _)⟩ (by decide)
  exact Subtree.spells_errorNode _ (by decide) (Subtree.spellAll_singleton.2 (x _))

theorem isWithin_pairsTree (scale : Scale) :
    ((Tree.ofRoot pairsTree pairsLanguage).edit (Edit.insert "xxxxx" 1 "x")).root.IsWithin
      scale := by
  have short : IsShort (Edit.apply "xxxxx" 1 1 "x").1.toList := by decide +kernel
  obtain ⟨r, old, edit, new⟩ := Replacement.exists_of_apply (by decide +kernel) short
  have spells : (Tree.ofRoot pairsTree pairsLanguage).root.Spells r.old [] := old ▸ spells_pairsTree
  rw [new] at short
  rw [show Edit.insert "xxxxx" 1 "x" = r.edit from edit]
  exact (Tree.spells_edit spells).isWithin short scale

/-- A letter is put into the second `x` of the text. -/
theorem countsChildren_pairsTree :
    let tree := [Edit.insert "xxxxx" 1 "x"].foldl Tree.edit (Tree.ofRoot pairsTree pairsLanguage)
    tree.rootNode.children.map (·.kind) = ["name", "x", "ERROR", "name", "x"] ∧
      tree.rootNode.CountsChildren ∧ tree.rootNode.OrdersChildren .points := by
  obtain ⟨counts, orders⟩ := Node.countsChildren_of_constructed constructed_pairsTree
    [Edit.insert "xxxxx" 1 "x"] (Node.isAt_rootNode _)
  exact ⟨by decide +kernel, counts, orders .points (isWithin_pairsTree .points)⟩

section Overflow

def doubledTree : Nat → Subtree
  | 0 => Subtree.missing pairsLanguage ⟨1⟩ ⟨0⟩
  | n + 1 => Subtree.ofProduction pairsLanguage ⟨3⟩ ⟨0⟩ [doubledTree n, doubledTree n]

/-- The token `2 ^ n` times below a node that is not hidden itself. -/
def crowdedTree (n : Nat) : Subtree :=
  Subtree.ofProduction pairsLanguage ⟨2⟩ ⟨1⟩ [doubledTree n]

def wideTree (sizes : List Nat) : Subtree :=
  Subtree.ofProduction pairsLanguage ⟨2⟩ ⟨0⟩ (sizes.map fun bytes => Subtree.leaf pairsLanguage
    ⟨⟨1⟩, Length.zero, ⟨bytes, ⟨0, bytes⟩⟩, 0, 0, none⟩ ⟨0⟩ false)

theorem constructed_crowdedTree (n : Nat) : (crowdedTree n).Constructed pairsLanguage := by
  have doubled : (doubledTree n).Constructed pairsLanguage := by
    induction n with
    | zero => exact .missing _ _
    | succ n ih =>
      exact .ofProduction _ _ (List.forall_mem_cons.2 ⟨ih, List.forall_mem_singleton.2 ih⟩)
  exact .ofProduction _ _ (List.forall_mem_singleton.2 doubled)

theorem constructed_wideTree (sizes : List Nat) : (wideTree sizes).Constructed pairsLanguage :=
  .ofProduction _ _ (List.forall_mem_map.2 fun _ _ => .leaf _ _ _)

variable {tree : Tree} {inherited : Option FieldId} {path : List Nat}

theorem among_cons_of_no_steps (start : Length) (index : Nat) (child : Subtree)
    (rest : List Subtree) : ∃ field, Node.among tree path start inherited [] index (child :: rest) =
      Node.ofChild tree (index :: path) start field none child
        ++ Node.among tree path (start + child.size) inherited [] (index + 1) rest := by
  obtain ⟨step, field, others, own, fewer, -, parts⟩ :=
    @Node.among_cons tree path start inherited [] index child rest
  obtain rfl := Option.eq_none_iff_forall_ne_some.2 fun step same =>
    absurd (own step same) List.not_mem_nil
  obtain rfl := List.subset_nil.1 fewer
  exact ⟨field, parts⟩

theorem length_ofChild_doubledTree (language : tree.language = pairsLanguage) (start : Length)
    (n : Nat) :
    (Node.ofChild tree path start inherited none (doubledTree n)).length = 2 ^ n := by
  induction n generalizing path start inherited with
  | zero => rfl
  | succ n ih =>
    have hidden : ¬isShown tree.language (doubledTree (n + 1)) none = true := Bool.false_ne_true
    have below : Node.below tree path start inherited (doubledTree (n + 1)) =
        Node.among tree path start inherited [] 0 [doubledTree n, doubledTree n] := by
      rw [doubledTree, Subtree.ofProduction, Node.below, language]
      rfl
    obtain ⟨first, left⟩ := @among_cons_of_no_steps tree inherited path start 0
      (doubledTree n) [doubledTree n]
    obtain ⟨second, right⟩ := @among_cons_of_no_steps tree inherited path
      (start + (doubledTree n).size) 1 (doubledTree n) []
    rw [Node.ofChild, if_neg hidden, below, left, right, Node.among, List.append_nil,
      List.length_append, ih, ih, pow_succ, Nat.mul_two]

theorem length_children_crowdedTree (n : Nat) :
    (Tree.ofRoot (crowdedTree n) pairsLanguage).rootNode.children.length = 2 ^ n := by
  have below : (Tree.ofRoot (crowdedTree n) pairsLanguage).rootNode.children = Node.among
      (Tree.ofRoot (crowdedTree n) pairsLanguage) [] Length.zero none [] 0 [doubledTree n] := by
    rw [Node.children]
    rfl
  obtain ⟨field, parts⟩ := @among_cons_of_no_steps
    (Tree.ofRoot (crowdedTree n) pairsLanguage) none [] Length.zero 0 (doubledTree n) []
  rw [below, parts, Node.among, List.append_nil, length_ofChild_doubledTree rfl]

/-- A node with 2³² children counts none, and a node with two of 2³¹ bytes and more ends in the
first one of them. -/
theorem not_countsChildren_of_overflow :
    ((crowdedTree 32).Constructed pairsLanguage ∧
      (Tree.ofRoot (crowdedTree 32) pairsLanguage).rootNode.childCount = 0 ∧
      (Tree.ofRoot (crowdedTree 32) pairsLanguage).rootNode.children.length = 2 ^ 32) ∧
    (wideTree [2 ^ 31, 2 ^ 31 + 5]).Constructed pairsLanguage ∧
      ¬(Tree.ofRoot (wideTree [2 ^ 31, 2 ^ 31 + 5]) pairsLanguage).rootNode.OrdersChildren
        .bytes := by
  let node := (Tree.ofRoot (wideTree [2 ^ 31, 2 ^ 31 + 5]) pairsLanguage).rootNode
  have crowded : (crowdedTree 32).Constructed pairsLanguage := constructed_crowdedTree 32
  have length := length_children_crowdedTree 32
  have counts := (Node.countsChildren_of_constructed crowded [] (Node.isAt_rootNode _)).1.childCount
  refine ⟨⟨crowded, ?_, length⟩, constructed_wideTree _, fun orders => ?_⟩
  · exact counts.trans (by rw [List.foldl_nil, length]; rfl)
  · have inside : ∀ child ∈ node.children, child.stopByte ≤ node.stopByte := fun child there =>
      (orders.children.inside child there).2
    exact absurd inside (by decide +kernel)

end Overflow

end IncrementalGlr
