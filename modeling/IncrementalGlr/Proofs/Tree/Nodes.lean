import IncrementalGlr.Proofs.Text.Scale
import IncrementalGlr.Proofs.Tree.Faults
import IncrementalGlr.Proofs.Tree.Tiling
import IncrementalGlr.Tree.Node

/-!
# Where nodes are

The children of a node are subtrees of it, at the places where the walk over the tree finds them.
They leave out what is hidden, but the nodes in a hidden subtree take its place, so that every fault
is at or below one of the children.
-/

namespace IncrementalGlr

namespace Subtree

variable {tree : Subtree} {children : List Subtree}

theorem at?_append {path more : List Nat} {offset : Length} {found : Subtree} :
    tree.at? (path ++ more) = some (offset, found) ↔
      ∃ above middle inner, tree.at? path = some (above, middle) ∧
        middle.at? more = some (inner, found) ∧ offset = above ++ inner := by
  induction path generalizing tree offset with
  | nil =>
    constructor
    · intro there
      exact ⟨Length.zero, tree, offset, rfl, there, (Length.zero_append offset).symm⟩
    · rintro ⟨above, middle, inner, same, there, rfl⟩
      cases same
      rwa [List.nil_append, Length.zero_append]
  | cons i path ih =>
    rw [List.cons_append, at?_cons]
    constructor
    · rintro ⟨child, behind, here, there, rfl⟩
      obtain ⟨above, middle, inner, upper, lower, rfl⟩ := ih.1 there
      exact ⟨_, middle, inner, at?_cons.2 ⟨child, above, here, upper, rfl⟩, lower,
        (Length.append_assoc ..).symm⟩
    · rintro ⟨_, middle, inner, upper, lower, rfl⟩
      obtain ⟨child, above, here, there, rfl⟩ := at?_cons.1 upper
      exact ⟨child, above ++ inner, here, ih.2 ⟨above, middle, inner, there, lower, rfl⟩,
        Length.append_assoc ..⟩

theorem height_pos (tree : Subtree) : 0 < tree.height := by
  cases tree
  exact Nat.succ_pos _

theorem height_le_heights (member : tree ∈ children) : tree.height ≤ heights children := by
  induction children with
  | nil => contradiction
  | cons first rest ih =>
    rw [heights]
    rcases List.mem_cons.1 member with rfl | member
    · exact Nat.le_max_left ..
    · exact Nat.le_trans (ih member) (Nat.le_max_right ..)

theorem height_child_lt {child : Subtree} (member : child ∈ tree.children) :
    child.height < tree.height := by
  cases tree
  rw [height]
  exact Nat.lt_succ_of_le (height_le_heights member)

theorem height_at?_le {path : List Nat} {offset : Length} {found : Subtree}
    (there : tree.at? path = some (offset, found)) : found.height + path.length ≤ tree.height := by
  induction path generalizing tree offset with
  | nil =>
    cases there
    exact Nat.le_refl _
  | cons i path ih =>
    obtain ⟨child, _, here, below, _⟩ := at?_cons.1 there
    have lower := height_child_lt (List.mem_of_getElem? here)
    have inside := ih below
    rw [List.length_cons]
    omega

end Subtree

def Language.ShowsAliases (language : Language) : Prop :=
  ∀ production ∈ language.table.productions, ∀ step ∈ production.steps,
    ∀ symbol, step.aliasSymbol = some symbol → language.isVisible symbol = true

namespace Node

/-- The node is the subtree at the end of a path of child numbers, at its place in the text as far
as words can tell. -/
structure IsAt (node : Node) (tree : Tree) (path : List Nat) : Prop where
  whole : node.tree = tree
  way : node.path = path.reverse
  place : ∃ offset, tree.root.at? path = some (offset, node.subtree) ∧ node.start = offset.wrapped

theorem isAt_rootNode (tree : Tree) : tree.rootNode.IsAt tree [] := ⟨rfl, rfl, Length.zero, rfl, rfl⟩

def ofChild (tree : Tree) (path : List Nat) (start : Length) (field : Option FieldId)
    (step : Option ProductionStep) (child : Subtree) : List Node :=
  if isShown tree.language child step then [⟨tree, child, start, aliasOf step, field, path⟩]
  else below tree path start field child

variable {tree : Tree}

theorem among_cons (path : List Nat) (start : Length) (inherited : Option FieldId)
    (steps : List ProductionStep) (index : Nat) (child : Subtree) (rest : List Subtree) :
    ∃ step field others, (∀ own, step = some own → own ∈ steps) ∧ others ⊆ steps ∧
      assignSteps steps (child :: rest) = (child, step) :: assignSteps others rest ∧
      among tree path start inherited steps index (child :: rest)
        = ofChild tree (index :: path) start field step child
          ++ among tree path (start + child.size) inherited others (index + 1) rest := by
  rw [among, assignSteps]
  cases child.isExtra with
  | true => exact ⟨none, _, steps, fun own none => (by cases none), fun _ => id, rfl, rfl⟩
  | false => exact ⟨steps.head?, _, steps.tail, fun own first => List.mem_of_head? first,
      List.tail_subset steps, rfl, rfl⟩

mutual

theorem isAt_of_mem_below : ∀ {subtree : Subtree} {path : List Nat} {offset : Length}
    {inherited : Option FieldId} {node : Node}, tree.root.at? path = some (offset, subtree) →
    node ∈ below tree path.reverse offset.wrapped inherited subtree →
      ∃ i more, node.IsAt tree (path ++ i :: more)
  | .node info children, path, offset, inherited, node, here, member => by
    rw [below] at member
    exact isAt_of_mem_among [] here rfl (Length.append_zero offset) member

theorem isAt_of_mem_among : ∀ {trees : List Subtree} (done : List Subtree) {info : SubtreeInfo}
    {path : List Nat} {offset start : Length} {inherited : Option FieldId}
    {steps : List ProductionStep}
    {index : Nat} {node : Node},
    tree.root.at? path = some (offset, .node info (done ++ trees)) → done.length = index →
    offset ++ Length.concat (done.map (·.size)) = start →
    node ∈ among tree path.reverse start.wrapped inherited steps index trees →
      ∃ i more, node.IsAt tree (path ++ i :: more)
  | [], _, _, _, _, _, _, _, _, _, _, _, _, member => by
    rw [among] at member
    contradiction
  | child :: rest, done, info, path, offset, start, inherited, steps, index, node, here, numbered,
      place, member => by
    have there : tree.root.at? (path ++ [index]) = some (start, child) := by
      rw [← place]
      refine Subtree.at?_append.2 ⟨offset, _, _, here,
        Subtree.at?_cons.2 ⟨child, Length.zero, ?_, rfl, ?_⟩, rfl⟩
      · simp [Subtree.children, ← numbered]
      · simp [Subtree.children, ← numbered]
    obtain ⟨step, field, others, _, _, _, parts⟩ :=
      among_cons path.reverse start.wrapped inherited steps index child rest
    rw [parts, List.mem_append] at member
    rcases member with own | other
    · unfold ofChild at own
      split at own
      · rw [List.mem_singleton.1 own]
        exact ⟨index, [], rfl, by simp, start, there, rfl⟩
      · rw [← List.reverse_concat] at own
        obtain ⟨i, more, found⟩ := isAt_of_mem_below there own
        exact ⟨index, i :: more, by simpa using found⟩
    · rw [Length.add_def, Length.wrapped_append] at other
      refine isAt_of_mem_among (done ++ [child]) (by simpa using here) (by simp [numbered]) ?_ other
      rw [← place, List.map_append, Length.concat_append, Length.append_assoc]
      simp

end

theorem IsAt.child {node child : Node} {path : List Nat} (h : node.IsAt tree path)
    (member : child ∈ node.children) : ∃ i more offset, child.IsAt tree (path ++ i :: more) ∧
      node.subtree.at? (i :: more) = some (offset, child.subtree) := by
  obtain ⟨start, here, place⟩ := h.place
  rw [children, h.whole, h.way, place] at member
  obtain ⟨i, more, there⟩ := isAt_of_mem_below here member
  obtain ⟨_, found, _⟩ := there.place
  obtain ⟨_, middle, inner, upper, below, _⟩ := Subtree.at?_append.1 found
  cases here.symm.trans upper
  exact ⟨i, more, inner, there, below⟩

theorem IsAt.height_child_lt {node child : Node} {path : List Nat} (here : node.IsAt tree path)
    (member : child ∈ node.children) : child.subtree.height < node.subtree.height := by
  obtain ⟨i, more, _, _, there⟩ := here.child member
  have lower := Subtree.height_at?_le there
  rw [List.length_cons] at lower
  omega

theorem exists_ofChild_subset (tree : Tree) (steps : List ProductionStep) {trees : List Subtree}
    {i : Nat} {child : Subtree} (here : trees[i]? = some child) (path : List Nat) (start : Length)
    (inherited : Option FieldId) (index : Nat) :
    ∃ step start' field, (∀ own, step = some own → own ∈ steps) ∧
      ofChild tree ((index + i) :: path) start' field step child
        ⊆ among tree path start inherited steps index trees := by
  induction trees generalizing i start steps index with
  | nil => simp at here
  | cons first rest ih =>
    obtain ⟨step, field, others, own, fewer, _, parts⟩ :=
      among_cons path start inherited steps index first rest
    rw [parts]
    cases i with
    | zero =>
      cases here
      exact ⟨step, start, field, own, List.subset_append_left ..⟩
    | succ i =>
      obtain ⟨step, start', field, own, inside⟩ :=
        ih others (by simpa using here) (start + first.size) (index + 1)
      rw [Nat.add_right_comm, Nat.add_assoc] at inside
      exact ⟨step, start', field, fun other same => fewer (own other same),
        List.Subset.trans inside (List.subset_append_right ..)⟩

theorem isShown_of_isVisible (shows : tree.language.ShowsAliases) {child : Subtree}
    (visible : child.isVisible = true) {symbol : SymbolId} {production : ProductionId}
    {step : Option ProductionStep}
    (known : ∀ own, step = some own → own ∈ tree.language.table.stepsOf symbol production) :
    isShown tree.language child step = true := by
  unfold isShown
  split
  · next shown renamed =>
      obtain ⟨own, same, renamed⟩ := Option.bind_eq_some_iff.1 renamed
      have member := known own same
      unfold Table.stepsOf at member
      split at member
      · next p found =>
          split at member
          · exact shows p (Array.mem_of_getElem? found) own member shown renamed
          · contradiction
      · contradiction
  · exact visible

theorem exists_mem_below (shows : tree.language.ShowsAliases) {subtree : Subtree} {i : Nat}
    {more : List Nat} {offset : Length} {found : Subtree}
    (there : subtree.at? (i :: more) = some (offset, found)) (visible : found.isVisible = true)
    (path : List Nat) (start : Length) (inherited : Option FieldId) :
    ∃ node ∈ below tree path start inherited subtree, ∃ upper lower offset',
      i :: more = upper ++ lower ∧ node.path = upper.reverse ++ path ∧
        node.subtree.at? lower = some (offset', found) := by
  induction more generalizing subtree i offset path start inherited with
  | nil =>
    obtain ⟨info, children⟩ := subtree
    obtain ⟨child, _, here, same, _⟩ := Subtree.at?_cons.1 there
    cases same
    obtain ⟨step, start', field, known, inside⟩ := exists_ofChild_subset tree
      (tree.language.table.stepsOf info.symbol info.production) here path start inherited 0
    rw [ofChild, if_pos (isShown_of_isVisible shows visible known), Nat.zero_add] at inside
    rw [below]
    exact ⟨_, inside (List.mem_singleton_self _), [i], [], _, rfl, rfl, rfl⟩
  | cons j more ih =>
    obtain ⟨info, children⟩ := subtree
    obtain ⟨child, _, here, down, _⟩ := Subtree.at?_cons.1 there
    obtain ⟨step, start', field, known, inside⟩ := exists_ofChild_subset tree
      (tree.language.table.stepsOf info.symbol info.production) here path start inherited 0
    rw [ofChild, Nat.zero_add] at inside
    rw [below]
    split at inside
    · exact ⟨_, inside (List.mem_singleton_self _), [i], j :: more, _, rfl, rfl, down⟩
    · obtain ⟨node, member, upper, lower, offset', whole, way, last⟩ :=
        ih down (i :: path) start' field
      exact ⟨node, inside member, i :: upper, lower, offset', by rw [whole, List.cons_append],
        by simpa using way, last⟩

structure InOrder (scale : Scale) (low high : Length) (nodes : List Node) : Prop where
  inside : ∀ node ∈ nodes, scale.Le low node.start ∧ scale.Le node.stop high
  apart : nodes.Pairwise fun node next => scale.Le node.stop next.start

variable {scale : Scale} {low high : Length} {nodes : List Node}

theorem inOrder_nil (scale : Scale) (low high : Length) : InOrder scale low high [] :=
  ⟨fun _ absent => absurd absent List.not_mem_nil, .nil⟩

theorem inOrder_singleton (scale : Scale) (node : Node) :
    InOrder scale node.start node.stop [node] :=
  ⟨List.forall_mem_singleton.2 ⟨scale.refl _, scale.refl _⟩, List.pairwise_singleton ..⟩

theorem InOrder.flatMap (h : InOrder scale low high nodes) {f : Node → List Node}
    (within : ∀ node ∈ nodes, InOrder scale node.start node.stop (f node)) :
    InOrder scale low high (nodes.flatMap f) := by
  refine ⟨fun other member => ?_, List.pairwise_flatMap.2 ⟨fun node member =>
    (within node member).apart, h.apart.imp_of_mem fun {node next} here there apart => ?_⟩⟩
  · obtain ⟨node, there, member⟩ := List.mem_flatMap.1 member
    have around := h.inside node there
    have inner := (within node there).inside other member
    exact ⟨scale.trans around.1 inner.1, scale.trans inner.2 around.2⟩
  · intro first inFirst second inSecond
    exact scale.trans ((within node here).inside first inFirst).2
      (scale.trans apart ((within next there).inside second inSecond).1)

theorem InOrder.filter (h : InOrder scale low high nodes) (p : Node → Bool) :
    InOrder scale low high (nodes.filter p) :=
  ⟨fun node member => h.inside node (List.mem_filter.1 member).1, h.apart.filter p⟩

end Node

end IncrementalGlr
