import Mathlib.Data.List.TakeWhile
import Mathlib.Logic.Relation
import IncrementalGlr.Proofs.Tree.Counts

/-!
# Ways between nodes

From a node one can go down to its children, back up to its parent, and over to its siblings. A node
keeps its place in the tree, and of two children of a node the places lie apart, even where nothing
of the text does. So the search for a parent ends where the node was found, and the search for a
stretch of text ends at the smallest node around it.
-/

namespace IncrementalGlr

theorem eq_of_pairwise {α : Type*} {p : α → Prop} {items : List α} {a b : α}
    (apart : items.Pairwise fun a b => p a → ¬p b) (inA : a ∈ items) (inB : b ∈ items)
    (atA : p a) (atB : p b) : a = b := by
  induction apart with
  | nil => contradiction
  | cons first _ ih =>
    rw [List.mem_cons] at inA inB
    rcases inA with rfl | inA <;> rcases inB with rfl | inB
    · rfl
    · exact absurd atB (first b inB atA)
    · exact absurd atA (first a inA atB)
    · exact ih inA inB

namespace Node

def Reaches : Node → Node → Prop :=
  Relation.ReflTransGen fun node child => child ∈ node.children

def Spans (node : Node) (start stop : Nat) : Prop :=
  node.startByte ≤ start ∧ stop ≤ node.stopByte

variable {tree : Tree} {node child other : Node} {nodes others : List Node} {path : List Nat}

theorem length_path_lt (member : child ∈ node.children) : node.path.length < child.path.length := by
  obtain ⟨i, more, way, _⟩ := (areSpread_children node).inside child member
  have := congrArg List.length way
  simp only [List.length_reverse, List.length_append, List.length_cons] at this
  omega

theorem eq_of_isPrefix {inner : List Nat} (here : child ∈ node.children)
    (there : other ∈ node.children) (own : child.path.reverse <+: inner)
    (same : other.path.reverse <+: inner) : child = other :=
  eq_of_pairwise (p := fun node => node.path.reverse <+: inner)
    ((areSpread_children node).apart.imp fun before own same => before.apart own same)
    here there own same

theorem isSamePlace_iff (here : child ∈ node.children) (there : other ∈ node.children) :
    child.isSamePlace other = true ↔ child = other := by
  unfold isSamePlace
  rw [Bool.and_eq_true, beq_iff_eq, beq_iff_eq]
  constructor
  · rintro ⟨way, _⟩
    exact eq_of_isPrefix here there (way ▸ List.prefix_rfl) List.prefix_rfl
  · rintro rfl
    exact ⟨rfl, rfl⟩

theorem Reaches.isPrefix (below : node.Reaches other) :
    node.path.reverse <+: other.path.reverse := by
  induction below with
  | refl => exact List.prefix_rfl
  | @tail middle last _ step ih =>
    obtain ⟨i, more, way, _⟩ := (areSpread_children middle).inside last step
    exact ih.trans ⟨_, way.symm⟩

theorem Reaches.isAt (below : node.Reaches other) (here : node.IsAt tree path) :
    ∃ more, other.IsAt tree (path ++ more) := by
  induction below with
  | refl => exact ⟨[], by rwa [List.append_nil]⟩
  | tail _ step ih =>
    obtain ⟨more, there⟩ := ih
    obtain ⟨i, last, _, found, _⟩ := there.child step
    exact ⟨more ++ i :: last, by rwa [← List.append_assoc]⟩

theorem Reaches.inside (below : node.Reaches other) (here : node.IsAt tree path)
    (solid : tree.root.IsSolid) (within : tree.root.IsWithin .bytes) :
    node.startByte ≤ other.startByte ∧ other.stopByte ≤ node.stopByte := by
  obtain ⟨more, there⟩ := below.isAt here
  exact here.inside there solid within

theorem Reaches.spans {start stop : Nat} (below : node.Reaches other) (here : node.IsAt tree path)
    (solid : tree.root.IsSolid) (within : tree.root.IsWithin .bytes)
    (spans : other.Spans start stop) : node.Spans start stop := by
  have inside := below.inside here solid within
  exact ⟨inside.1.trans spans.1, spans.2.trans inside.2⟩

theorem IsAt.startByte_le (here : node.IsAt tree path) (within : tree.root.IsWithin .bytes) :
    node.startByte ≤ node.stopByte := by
  obtain ⟨offset, _, stands⟩ := here.exists_standsAt within
  have grows := Scale.bytes.le_append offset node.subtree.size
  exact stands.start_le.trans (Nat.le_trans grows stands.le_stop)

theorem IsAt.not_isLeaf (here : node.IsAt tree path) (member : child ∈ node.children) :
    node.subtree.isLeaf = false := by
  obtain ⟨i, more, _, _, there⟩ := here.child member
  obtain ⟨below, _, first, _, _⟩ := Subtree.at?_cons.1 there
  exact List.isEmpty_eq_false_iff.2 (List.ne_nil_of_mem (List.mem_of_getElem? first))

theorem Reaches.not_isLeaf (below : node.Reaches other) (here : node.IsAt tree path)
    (member : child ∈ other.children) : node.subtree.isLeaf = false := by
  rcases below.cases_head with rfl | ⟨next, step, _⟩
  · exact here.not_isLeaf member
  · exact here.not_isLeaf step

theorem path_eq_of_isSamePlace (same : child.isSamePlace other = true) :
    child.path = other.path := by
  unfold isSamePlace at same
  exact beq_iff_eq.1 (Bool.and_eq_true_iff.1 same).1

theorem reaches_of_parentWithin {fuel : Nat} {candidate found : Node}
    (result : parentWithin fuel candidate node = some found) : candidate.Reaches found ∧
      ∃ child ∈ found.children, child.isSamePlace node = true := by
  induction fuel generalizing candidate with
  | zero => contradiction
  | succ fuel ih =>
    rw [parentWithin] at result
    split at result
    · next here =>
      cases result
      exact ⟨.refl, List.any_eq_true.1 here⟩
    · obtain ⟨next, member, result⟩ := List.exists_of_findSome?_eq_some result
      obtain ⟨below, there⟩ := ih result
      exact ⟨.head (List.mem_reverse.1 (List.mem_filter.1 member).1) below, there⟩

theorem isPrefix_of_parentWithin {fuel : Nat} {candidate found : Node}
    (result : parentWithin fuel candidate node = some found) :
    candidate.path.reverse <+: node.path.reverse := by
  obtain ⟨below, child, member, same⟩ := reaches_of_parentWithin result
  rw [← path_eq_of_isSamePlace same]
  exact Reaches.isPrefix (below.tail member)

theorem parentWithin_eq {candidate : Node} (here : candidate.IsAt tree path)
    (solid : tree.root.IsSolid) (within : tree.root.IsWithin .bytes) (below : candidate.Reaches node)
    (member : child ∈ node.children) {fuel : Nat} (enough : candidate.subtree.height ≤ fuel) :
    parentWithin fuel candidate child = some node := by
  induction below using Relation.ReflTransGen.head_induction_on generalizing fuel path with
  | refl =>
    obtain ⟨fuel, rfl⟩ := Nat.exists_eq_add_one.2 (node.subtree.height_pos.trans_le enough)
    have own : node.children.any (·.isSamePlace child) = true :=
      List.any_eq_true.2 ⟨child, member, (isSamePlace_iff member member).2 rfl⟩
    rw [parentWithin, if_pos own]
  | @head candidate next step below ih =>
    obtain ⟨fuel, rfl⟩ := Nat.exists_eq_add_one.2 (candidate.subtree.height_pos.trans_le enough)
    have below : next.Reaches node := below
    have reaches : next.Reaches child := below.tail member
    -- Only the child that the way leads through is around the place.
    have only : ∀ other ∈ candidate.children, other.path.reverse <+: child.path.reverse →
        other = next := fun other there around => eq_of_isPrefix there step around reaches.isPrefix
    have deeper : ¬candidate.children.any (·.isSamePlace child) = true := by
      intro found
      obtain ⟨other, there, same⟩ := List.any_eq_true.1 found
      have way := path_eq_of_isSamePlace same
      rw [only other there (way ▸ List.prefix_rfl)] at way
      have upper := below.isPrefix.length_le
      have lower := length_path_lt member
      rw [List.length_reverse, List.length_reverse, way] at upper
      omega
    obtain ⟨i, more, _, there, _⟩ := here.child step
    have lower := here.height_child_lt step
    have result : parentWithin fuel next child = some node := ih there (by omega)
    have entered : next ∈ candidate.children.reverse.filter fun other =>
        other.startByte ≤ child.startByte && child.stopByte ≤ other.stopByte
          && !other.subtree.isLeaf :=
      List.mem_filter.2 ⟨List.mem_reverse.2 step,
        by simp [reaches.inside there solid within, below.not_isLeaf there member]⟩
    obtain ⟨found, search⟩ := Option.isSome_iff_exists.1
      (List.findSome?_isSome_iff (f := fun other => parentWithin fuel other child).2
        ⟨next, entered, Option.isSome_iff_exists.2 ⟨node, result⟩⟩)
    obtain ⟨other, chosen, own⟩ := List.exists_of_findSome?_eq_some search
    cases only other (List.mem_reverse.1 (List.mem_filter.1 chosen).1)
      (isPrefix_of_parentWithin own)
    rw [parentWithin, if_neg deeper, search, ← own, result]

theorem parent?_eq (solid : tree.root.IsSolid) (within : tree.root.IsWithin .bytes)
    (below : tree.rootNode.Reaches node) (member : child ∈ node.children) :
    child.parent? = some node := by
  have whole : child.tree = tree := by
    obtain ⟨more, there⟩ := Reaches.isAt (below.tail member) (isAt_rootNode tree)
    exact there.whole
  rw [parent?, whole]
  exact parentWithin_eq (isAt_rootNode tree) solid within below member (Nat.le_refl _)

theorem path_ne_of_reaches (below : child.Reaches node) (member : other ∈ node.children) :
    child.path ≠ other.path := by
  intro same
  have upper := below.isPrefix.length_le
  have lower := length_path_lt member
  rw [List.length_reverse, List.length_reverse, same] at upper
  omega

theorem eq_of_path_eq {top next : Node} (left : top.Reaches node) (right : top.Reaches next)
    (here : child ∈ node.children) (there : other ∈ next.children)
    (same : child.path = other.path) : node = next := by
  induction left using Relation.ReflTransGen.head_induction_on with
  | refl =>
    rcases right.cases_head with rfl | ⟨first, step, below⟩
    · rfl
    · have around : first.path.reverse <+: child.path.reverse :=
        same ▸ Reaches.isPrefix (below.tail there)
      cases eq_of_isPrefix step here around List.prefix_rfl
      exact absurd same (path_ne_of_reaches below there)
  | @head top first step below ih =>
    have around : first.path.reverse <+: child.path.reverse := Reaches.isPrefix (below.tail here)
    rcases right.cases_head with rfl | ⟨second, step', below'⟩
    · cases eq_of_isPrefix step there around (same ▸ List.prefix_rfl)
      exact absurd same.symm (path_ne_of_reaches below here)
    · have around' : second.path.reverse <+: child.path.reverse :=
        same ▸ Reaches.isPrefix (below'.tail there)
      cases eq_of_isPrefix step step' around around'
      exact ih below'

theorem eq_of_parent?_eq (below : tree.rootNode.Reaches node) (member : child ∈ node.children)
    (found : child.parent? = some other) : other = node := by
  have whole : child.tree = tree := by
    obtain ⟨more, there⟩ := Reaches.isAt (below.tail member) (isAt_rootNode tree)
    exact there.whole
  rw [parent?, whole] at found
  obtain ⟨below', _, member', same⟩ := reaches_of_parentWithin found
  exact eq_of_path_eq below' below member' member (path_eq_of_isSamePlace same)

theorem parent?_rootNode (tree : Tree) : tree.rootNode.parent? = none := by
  by_contra found
  obtain ⟨parent, found⟩ := Option.ne_none_iff_exists'.1 found
  obtain ⟨_, child, member, same⟩ := reaches_of_parentWithin found
  have longer := length_path_lt member
  rw [path_eq_of_isSamePlace same] at longer
  exact absurd longer (Nat.not_lt_zero _)

/-- From a child, one finds its parent, what is before it and what is behind it. -/
structure FindsBack (node child : Node) (index : Nat) : Prop where
  parent : child.parent? = some node
  next : child.nextSibling? = node.child? (index + 1)
  prev : child.prevSibling? = if index = 0 then none else node.child? (index - 1)

theorem passes_before {before after : List Node}
    (parts : node.children = before ++ child :: after) :
    (node.children.dropWhile fun other => !other.isSamePlace child) = child :: after ∧
      (node.children.takeWhile fun other => !other.isSamePlace child) = before := by
  have member : child ∈ node.children := parts ▸ List.mem_append_right before List.mem_cons_self
  have stops : ¬(!child.isSamePlace child) = true := by
    simp [(isSamePlace_iff member member).2 rfl]
  have passed : ∀ other ∈ before, (!other.isSamePlace child) = true := by
    intro other there
    have apart := (areSpread_children node).apart
    rw [parts] at apart
    have before := (List.pairwise_append.1 apart).2.2 other there child List.mem_cons_self
    rw [Bool.not_eq_true', Bool.eq_false_iff]
    intro same
    rw [path_eq_of_isSamePlace same] at before
    exact before.apart List.prefix_rfl List.prefix_rfl
  rw [parts, List.dropWhile_append_of_pos passed, List.takeWhile_append_of_pos passed,
    List.dropWhile_cons, if_neg stops, List.takeWhile_cons, if_neg stops, List.append_nil]
  exact ⟨rfl, rfl⟩

theorem findsBack_of_parent (parent : child.parent? = some node) {index : Nat}
    (found : node.child? index = some child) : node.FindsBack child index := by
  obtain ⟨before, after, parts, rfl⟩ := exists_split found
  obtain ⟨behind, passed⟩ := passes_before parts
  refine ⟨parent, ?_, ?_⟩
  · rw [nextSibling?, parent]
    simp only [Option.bind_eq_bind, Option.bind_some, behind]
    rw [child?, parts, List.getElem?_append_right (Nat.le_add_right _ 1), Nat.add_sub_cancel_left,
      List.drop_one, List.tail_cons, List.getElem?_cons_succ, List.head?_eq_getElem?]
  · rw [prevSibling?, parent]
    simp only [Option.bind_eq_bind, Option.bind_some, passed]
    rw [if_pos (by simp [parts])]
    split
    · next none => rw [List.length_eq_zero_iff.1 none, List.getLast?_nil]
    · next some =>
      rw [List.getLast?_eq_getElem?, child?, parts,
        List.getElem?_append_left (Nat.sub_lt (Nat.pos_of_ne_zero some) Nat.one_pos)]

/-- In a tree that came about in any way, with any edits, nothing leads up from the root. A node
leads down to its children, and each of them leads back or nowhere at all. It does lead back if no
byte in the tree is out of reach of words. -/
theorem navigation_of_assembled (built : tree.root.Assembled) : tree.rootNode.parent? = none ∧
    ∀ node, tree.rootNode.Reaches node → ∀ index child, node.child? index = some child →
      (child.parent? = none ∨ node.FindsBack child index) ∧
        (tree.root.IsWithin .bytes → node.FindsBack child index) := by
  refine ⟨parent?_rootNode tree, fun node below index child found => ⟨?_, fun within => ?_⟩⟩
  · rcases parent : child.parent? with _ | other
    · exact .inl rfl
    · cases eq_of_parent?_eq below (List.mem_of_getElem? found) parent
      exact .inr (findsBack_of_parent parent found)
  · exact findsBack_of_parent
      (parent?_eq built.isSolid within below (List.mem_of_getElem? found)) found

/-- The `x` of the skipped text, at the place behind a letter that was put in. -/
theorem findsBack_pairsTree :
    let tree := (Tree.ofRoot pairsTree pairsLanguage).edit (Edit.insert "xxxxx" 1 "x")
    ∃ error child, tree.rootNode.child? 2 = some error ∧ error.child? 0 = some child ∧
      child.kind = "x" ∧ child.startByte = 3 ∧ tree.rootNode.parent? = none ∧
        error.FindsBack child 0 := by
  intro tree
  have built : tree.root.Assembled :=
    constructed_pairsTree.assembled.edited (Edit.insert "xxxxx" 1 "x") Length.zero true
  obtain ⟨top, inverts⟩ := navigation_of_assembled built
  refine ⟨_, _, rfl, rfl, by decide +kernel, by decide +kernel, top, ?_⟩
  exact (inverts _ (.single (List.mem_of_getElem? (i := 2) rfl)) 0 _ rfl).2
    (isWithin_pairsTree .bytes)

/-- The sizes of two tokens sum up to five bytes as a word. The node over them does not cover the
first one, and the search for its parent does not come there. -/
theorem not_findsBack_of_overflow :
    let tree := Tree.ofRoot (Subtree.ofProduction pairsLanguage ⟨2⟩ ⟨0⟩
      [wideTree [2 ^ 31, 2 ^ 31 + 5]]) pairsLanguage
    tree.root.Assembled ∧ ∃ node child, tree.rootNode.Reaches node ∧ node.child? 0 = some child ∧
      child.parent? = none := by
  intro tree
  have built : tree.root.Constructed pairsLanguage :=
    .ofProduction _ _ (List.forall_mem_singleton.2 (constructed_wideTree _))
  refine ⟨built.assembled, _, _, .single (List.mem_of_getElem? (i := 0) rfl), rfl, ?_⟩
  exact Option.isNone_iff_eq_none.1 (by decide +kernel)

section Stretches

variable {start stop : Nat}

theorem eq_of_spans (inOrder : InOrder .bytes node.start node.stop node.children)
    (some : start < stop)
    (here : child ∈ node.children) (there : other ∈ node.children) (own : child.Spans start stop)
    (same : other.Spans start stop) : child = other := by
  refine eq_of_pairwise (p := fun node => node.Spans start stop)
    (inOrder.apart.imp fun {first second} apart own same => ?_) here there own same
  have before : first.stopByte ≤ second.startByte := apart
  have left := own.2
  have right := same.1
  omega

theorem descendWithin_of_spans (here : node.IsAt tree path) (solid : tree.root.IsSolid)
    (within : tree.root.IsWithin .bytes) (some : start < stop) (member : child ∈ node.children)
    (spans : child.Spans start stop) (fuel : Nat) :
    descendWithin (fuel + 1) start stop node = descendWithin fuel start stop child := by
  obtain ⟨before, after, parts⟩ := List.append_of_mem member
  have apart := (here.inOrder solid within).apart
  rw [parts] at apart
  have early : ∀ other ∈ before, other.stopByte ≤ start := fun other there =>
    Nat.le_trans ((List.pairwise_append.1 apart).2.2 other there child List.mem_cons_self) spans.1
  have passed : ∀ other ∈ before, decide (other.startByte ≤ start) = true := fun other there => by
    obtain ⟨_, _, _, found, _⟩ := here.child (parts ▸ List.mem_append_left _ there)
    exact decide_eq_true ((found.startByte_le within).trans (early other there))
  have chosen : (stop ≤ child.stopByte &&
      (start < child.stopByte || child.startByte == child.stopByte)) = true := by
    have enough := spans.2
    simp only [Bool.and_eq_true, decide_eq_true_eq, Bool.or_eq_true]
    exact ⟨enough, .inl (Nat.lt_of_lt_of_le some enough)⟩
  have inside : ((node.children.takeWhile fun child => child.startByte ≤ start).find? fun child =>
      stop ≤ child.stopByte && (start < child.stopByte || child.startByte == child.stopByte))
        = child := by
    rw [parts, List.takeWhile_append_of_pos passed, List.takeWhile_cons,
      if_pos (decide_eq_true spans.1), List.find?_append, List.find?_eq_none.2, Option.none_or,
      List.find?_cons, chosen]
    intro other there
    have := early other there
    simp only [Bool.and_eq_true, decide_eq_true_eq]
    omega
  rw [descendWithin, inside]

theorem descendWithin_of_not_spans (around : ∀ child ∈ node.children, ¬child.Spans start stop)
    (fuel : Nat) : descendWithin fuel start stop node = node := by
  cases fuel with
  | zero => rfl
  | succ fuel =>
    have inside : ((node.children.takeWhile fun child => child.startByte ≤ start).find? fun child =>
        stop ≤ child.stopByte && (start < child.stopByte || child.startByte == child.stopByte))
          = none := by
      refine List.find?_eq_none.2 fun child member chosen => ?_
      have early := List.mem_takeWhile_imp member
      simp only [Bool.and_eq_true, decide_eq_true_eq] at chosen early
      exact around child ((List.takeWhile_prefix _).mem member) ⟨early, chosen.1⟩
    rw [descendWithin, inside]

theorem reaches_descendWithin (fuel : Nat) (spans : node.Spans start stop) :
    node.Reaches (descendWithin fuel start stop node) ∧
      (descendWithin fuel start stop node).Spans start stop := by
  induction fuel generalizing node with
  | zero => exact ⟨.refl, spans⟩
  | succ fuel ih =>
    rw [descendWithin]
    split
    · next child chosen =>
      have passed := List.mem_of_find?_eq_some chosen
      have starts := List.mem_takeWhile_imp passed
      have stops := List.find?_some chosen
      simp only [decide_eq_true_eq, Bool.and_eq_true] at starts stops
      obtain ⟨below, inside⟩ := ih (show child.Spans start stop from ⟨starts, stops.1⟩)
      exact ⟨.head ((List.takeWhile_prefix _).mem passed) below, inside⟩
    · exact ⟨.refl, spans⟩

/-- What was found is the smallest node below the other one that contains a stretch: all others that
contain it are around this one. -/
structure IsSmallest (node found : Node) (start stop : Nat) : Prop where
  below : node.Reaches found
  spans : found.Spans start stop
  around : ∀ other, node.Reaches other → other.Spans start stop → other.Reaches found

theorem isSmallest_descendWithin (here : node.IsAt tree path) (solid : tree.root.IsSolid)
    (within : tree.root.IsWithin .bytes) (some : start < stop) (spans : node.Spans start stop)
    {fuel : Nat} (enough : node.subtree.height ≤ fuel) :
    node.IsSmallest (descendWithin fuel start stop node) start stop := by
  induction fuel generalizing node path with
  | zero => exact absurd node.subtree.height_pos (Nat.not_lt.2 enough)
  | succ fuel ih =>
    have inOrder := here.inOrder solid within
    -- A node below that contains the stretch is the node itself, or below a child that contains it.
    have through : ∀ other, node.Reaches other → other.Spans start stop → node = other ∨
        ∃ child ∈ node.children, child.Spans start stop ∧ child.Reaches other := by
      intro other below own
      rcases below.cases_head with same | ⟨child, member, below⟩
      · exact .inl same
      · obtain ⟨i, more, _, there, _⟩ := here.child member
        exact .inr ⟨child, member, Reaches.spans below there solid within own, below⟩
    by_cases further : ∃ child ∈ node.children, child.Spans start stop
    · obtain ⟨child, member, own⟩ := further
      obtain ⟨i, more, _, there, _⟩ := here.child member
      have lower := here.height_child_lt member
      have smallest := ih there own (by omega)
      rw [descendWithin_of_spans here solid within some member own]
      refine ⟨.head member smallest.below, smallest.spans, fun other below same => ?_⟩
      rcases through other below same with rfl | ⟨next, among, around, below⟩
      · exact .head member smallest.below
      · cases eq_of_spans inOrder some member among own around
        exact smallest.around other below same
    · rw [descendWithin_of_not_spans (by simpa using further)]
      refine ⟨.refl, spans, fun other below own => ?_⟩
      rcases through other below own with rfl | ⟨child, member, own, _⟩
      · exact .refl
      · exact absurd ⟨child, member, own⟩ further

/-- In a tree that came about in any way, with any edits, the search for a stretch of text finds
none only if the node does not contain it, and a node that contains it otherwise. This is the
smallest one if no byte in the tree is out of reach of words. -/
theorem isSmallest_of_assembled (built : tree.root.Assembled) (here : node.IsAt tree path)
    (some : start < stop) : (node.descendant? start stop = none ↔ ¬node.Spans start stop) ∧
      ∀ found, node.descendant? start stop = .some found →
        node.Reaches found ∧ found.Spans start stop ∧
          (tree.root.IsWithin .bytes → node.IsSmallest found start stop) := by
  unfold descendant?
  split
  · next outside =>
    simp only [Bool.or_eq_true, decide_eq_true_eq] at outside
    refine ⟨iff_of_true rfl fun spans => ?_, fun found absent => by contradiction⟩
    have left := spans.1
    have right := spans.2
    omega
  · next inside =>
    simp only [Bool.or_eq_true, decide_eq_true_eq, not_or, Nat.not_lt] at inside
    refine ⟨iff_of_false (Option.some_ne_none _) (not_not_intro inside), fun found same => ?_⟩
    cases same
    obtain ⟨below, spans⟩ := reaches_descendWithin node.subtree.height inside
    exact ⟨below, spans, fun within =>
      isSmallest_descendWithin here built.isSolid within some inside (Nat.le_refl _)⟩

/-- The same `x` again, found by its text. -/
theorem isSmallest_pairsTree :
    let tree := (Tree.ofRoot pairsTree pairsLanguage).edit (Edit.insert "xxxxx" 1 "x")
    ∃ found, tree.rootNode.descendant? 3 4 = some found ∧ found.path = [0, 1] ∧
      tree.rootNode.IsSmallest found 3 4 := by
  intro tree
  have built : tree.root.Assembled :=
    constructed_pairsTree.assembled.edited (Edit.insert "xxxxx" 1 "x") Length.zero true
  have finds := isSmallest_of_assembled built (Node.isAt_rootNode tree) (show 3 < 4 by decide)
  obtain ⟨_, _, smallest⟩ := finds.2 _ rfl
  exact ⟨_, rfl, by decide +kernel, smallest (isWithin_pairsTree .bytes)⟩

/-- As words, the last of three tokens starts before the second one, where the search does not look
for it. -/
theorem not_isSmallest_of_overflow :
    let tree := Tree.ofRoot (wideTree [5, 2 ^ 32 - 4, 10]) pairsLanguage
    tree.root.Assembled ∧ ∃ found, tree.rootNode.descendant? 4 8 = some found ∧
      ¬tree.rootNode.IsSmallest found 4 8 := by
  intro tree
  have built : tree.root.Constructed pairsLanguage := constructed_wideTree _
  refine ⟨built.assembled, _, rfl, fun smallest => ?_⟩
  have last : ∃ third ∈ tree.rootNode.children,
      third.startByte ≤ 4 ∧ 8 ≤ third.stopByte ∧ third.path = [2] := by decide +kernel
  obtain ⟨third, member, start, stop, path⟩ := last
  have around := (smallest.around third (.single member) ⟨start, stop⟩).isPrefix
  rw [path] at around
  exact absurd around (by decide +kernel)

end Stretches

end Node

end IncrementalGlr
