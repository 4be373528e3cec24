import IncrementalGlr.Proofs.Tree.Assembly
import IncrementalGlr.Proofs.Tree.Nodes

/-!
# The order of places

A place in a tree is a path of child numbers from the root. Of two different places one lies in the
other, or one comes before the other. What comes before ends where the other one starts or earlier,
as long as all that is in the tree ends within the places that words can tell.
-/

namespace IncrementalGlr

def Precedes (place other : List Nat) : Prop :=
  ∃ common i j less more, place = common ++ i :: less ∧ other = common ++ j :: more ∧ i < j

namespace Precedes

variable {place other : List Nat}

theorem of_lt {i j : Nat} (path less more : List Nat) (before : i < j) :
    Precedes (path ++ i :: less) (path ++ j :: more) :=
  ⟨path, i, j, less, more, rfl, rfl, before⟩

theorem append (h : Precedes place other) (less more : List Nat) :
    Precedes (place ++ less) (other ++ more) := by
  obtain ⟨common, i, j, less', more', rfl, rfl, before⟩ := h
  rw [List.append_assoc, List.append_assoc]
  exact of_lt common (less' ++ less) (more' ++ more) before

theorem apart (h : Precedes place other) {inner : List Nat} (first : place <+: inner)
    (second : other <+: inner) : False := by
  obtain ⟨common, i, j, less, more, rfl, rfl, before⟩ := h
  obtain ⟨left, rfl⟩ := first
  obtain ⟨right, same⟩ := second
  rw [List.append_assoc, List.append_assoc, List.append_cancel_left_eq, List.cons_append,
    List.cons_append, List.cons.injEq] at same
  omega

theorem of_append_singleton {i : Nat} (h : Precedes (place ++ [i]) other) :
    Precedes place other ∨ ∃ j more, other = place ++ j :: more ∧ i < j := by
  obtain ⟨common, i', j, less, more, same, rfl, before⟩ := h
  rcases List.eq_nil_or_concat less with rfl | ⟨less, last, rfl⟩
  · obtain ⟨rfl, last⟩ := List.append_inj' same rfl
    obtain rfl := List.singleton_inj.1 last
    exact .inr ⟨j, more, rfl, before⟩
  · have longer : place ++ [i] = (common ++ i' :: less) ++ [last] := by simpa using same
    obtain ⟨rfl, _⟩ := List.append_inj' longer rfl
    exact .inl (of_lt common less more before)

end Precedes

theorem exists_split {α : Type*} {items : List α} {i : Nat} {item : α}
    (here : items[i]? = some item) :
    ∃ left right, items = left ++ item :: right ∧ left.length = i := by
  obtain ⟨inside, rfl⟩ := List.getElem?_eq_some_iff.1 here
  refine ⟨items.take i, items.drop (i + 1), ?_, List.length_take_of_le (Nat.le_of_lt inside)⟩
  rw [← List.drop_eq_getElem_cons inside, List.take_append_drop]

namespace Subtree

variable {tree found : Subtree} {place other : List Nat} {offset : Length}

theorem at?_child {parent child : Subtree} {left right : List Subtree}
    (there : tree.at? place = some (offset, parent))
    (parts : parent.children = left ++ child :: right) :
    tree.at? (place ++ [left.length]) =
      some (offset ++ Length.concat (left.map (·.size)), child) := by
  refine at?_append.2 ⟨offset, parent, _, there, at?_cons.2 ⟨child, _, ?_, rfl, ?_⟩, rfl⟩
  · rw [parts, List.getElem?_append_right (Nat.le_refl _), Nat.sub_self, List.getElem?_cons_zero]
  · rw [parts, List.take_left, Length.append_zero]

def IsWithin (scale : Scale) (tree : Subtree) : Prop :=
  ∀ place offset found, tree.at? place = some (offset, found) → scale.Fits (offset ++ found.size)

def Encloses (scale : Scale) (tree : Subtree) : Prop :=
  tree.Every fun info children => scale.Le (Length.concat (children.map (·.size))) info.size

variable {scale : Scale}

theorem Spells.isWithin {piece post : List Char} (h : tree.Spells piece post)
    (short : IsShort piece) (scale : Scale) : tree.IsWithin scale := by
  intro place offset found there
  obtain ⟨before, own, after, rfl, rfl, spells⟩ := h.at? there
  rw [spells.size, ← Length.ofChars_append]
  rw [← List.append_assoc] at short
  exact scale.fits_of_isWord short.left.isWord

theorem IsSolid.encloses (solid : tree.IsSolid) (within : tree.IsWithin scale) :
    tree.Encloses scale := by
  refine every_of_at? fun place offset found there => ?_
  rcases List.eq_nil_or_concat found.children with none | ⟨left, last, parts⟩
  · have least := scale.le_append Length.zero found.size
    rw [Length.zero_append] at least
    rw [none]
    exact least
  · have size : found.size = Length.sum (found.children.map (·.size)) :=
      (Every.at? solid there).here (by simp [parts])
    rw [List.concat_eq_append] at parts
    have fits := within _ _ _ (at?_child there parts)
    have whole : Length.concat (found.children.map (·.size)) =
        Length.concat (left.map (·.size)) ++ last.size := by
      rw [parts, List.map_append, Length.concat_append]
      simp
    rw [Length.append_assoc, ← whole] at fits
    rw [show found.info.size = _ from size, Length.sum_eq_wrapped]
    exact scale.le_wrapped (scale.fits_of_append fits)

theorem IsWithin.fits (within : tree.IsWithin scale)
    (there : tree.at? place = some (offset, found)) : scale.Fits offset := by
  induction place using List.reverseRecOn generalizing offset found with
  | nil =>
    cases there
    exact scale.fits_of_isWord ⟨by decide, by decide, by decide⟩
  | append_singleton place i ih =>
    obtain ⟨above, parent, inner, upper, lower, rfl⟩ := at?_append.1 there
    obtain ⟨child, _, here, same, rfl⟩ := at?_cons.1 lower
    cases same
    rw [Length.append_zero]
    cases i with
    | zero =>
      rw [List.take_zero, List.map_nil, Length.concat_nil, Length.append_zero]
      exact ih upper
    | succ i =>
      -- It starts where the child before it ends.
      obtain ⟨left, right, parts, size⟩ := exists_split here
      obtain ⟨left, last, rfl⟩ := (List.eq_nil_or_concat left).resolve_left (by
        rintro rfl
        contradiction)
      rw [List.concat_eq_append] at parts size
      have ends := within _ _ _ (at?_child upper (parts.trans (List.append_assoc ..)))
      rw [parts, ← size, List.take_left, List.map_append, Length.concat_append]
      simpa [Length.append_assoc] using ends

theorem concat_take_le (scale : Scale) {trees : List Subtree} {i j : Nat} {child : Subtree}
    (here : trees[i]? = some child) (before : i < j) :
    scale.Le (Length.concat ((trees.take i).map (·.size)) ++ child.size)
      (Length.concat ((trees.take j).map (·.size))) := by
  have upTo : (trees.take j).take (i + 1) = trees.take i ++ [child] := by
    rw [List.take_take, Nat.min_eq_left before, List.take_add_one, here, Option.toList_some]
  rw [← List.take_append_drop (i + 1) (trees.take j), upTo, List.map_append, List.map_append,
    Length.concat_append, Length.concat_append, List.map_singleton, Length.concat_cons,
    Length.concat_nil, Length.append_zero]
  exact scale.le_append _ _

theorem Encloses.stop_le (encloses : tree.Encloses scale)
    (there : tree.at? place = some (offset, found)) :
    scale.Le (offset ++ found.size) tree.size := by
  induction place generalizing tree offset with
  | nil =>
    cases there
    rw [Length.zero_append]
    exact scale.refl _
  | cons i place ih =>
    obtain ⟨child, inner, here, below, rfl⟩ := at?_cons.1 there
    have inside := ih (encloses.child (List.mem_of_getElem? here)) below
    have upTo := concat_take_le scale here (List.getElem?_eq_some_iff.1 here).1
    rw [List.take_length] at upTo
    rw [Length.append_assoc]
    exact scale.trans (scale.append_le _ inside) (scale.trans upTo encloses.here)

theorem Encloses.inside (encloses : tree.Encloses scale)
    (there : tree.at? place = some (offset, found)) {more : List Nat} {start : Length}
    {inner : Subtree} (below : tree.at? (place ++ more) = some (start, inner)) :
    scale.Le offset start ∧ scale.Le (start ++ inner.size) (offset ++ found.size) := by
  obtain ⟨_, _, behind, upper, lower, rfl⟩ := at?_append.1 below
  cases there.symm.trans upper
  have stop := Encloses.stop_le (Every.at? encloses there) lower
  rw [Length.append_assoc]
  exact ⟨scale.le_append _ _, scale.append_le _ stop⟩

theorem Encloses.stop_le_start (encloses : tree.Encloses scale) (before : Precedes place other)
    (there : tree.at? place = some (offset, found)) {start : Length} {next : Subtree}
    (behind : tree.at? other = some (start, next)) : scale.Le (offset ++ found.size) start := by
  obtain ⟨common, i, j, less, more, rfl, rfl, before⟩ := before
  obtain ⟨above, middle, _, upper, first, rfl⟩ := at?_append.1 there
  obtain ⟨_, _, _, again, second, rfl⟩ := at?_append.1 behind
  cases upper.symm.trans again
  obtain ⟨child, inner, here, below, rfl⟩ := at?_cons.1 first
  obtain ⟨_, _, _, _, rfl⟩ := at?_cons.1 second
  have own : middle.Encloses scale := Every.at? encloses upper
  have inside := Encloses.stop_le (own.child (List.mem_of_getElem? here)) below
  have upTo := concat_take_le scale here before
  rw [Length.append_assoc, Length.append_assoc]
  exact scale.append_le above (scale.trans (scale.append_le _ inside)
    (scale.trans upTo (scale.le_append _ _)))

def leavesBefore : List Nat → Subtree → List Subtree
  | [], _ => []
  | i :: place, tree =>
    leavesOf (tree.children.take i) ++ tree.children[i]?.elim [] (leavesBefore place)

theorem leavesBefore_append (there : tree.at? place = some (offset, found)) (more : List Nat) :
    tree.leavesBefore (place ++ more) = tree.leavesBefore place ++ found.leavesBefore more := by
  induction place generalizing tree offset with
  | nil =>
    cases there
    rfl
  | cons i place ih =>
    obtain ⟨child, inner, here, below, rfl⟩ := at?_cons.1 there
    simp only [List.cons_append, leavesBefore, here, Option.elim_some, ih below,
      List.append_assoc]

theorem leavesBefore_child {parent child : Subtree} {left right : List Subtree}
    (parts : parent.children = left ++ child :: right) :
    parent.leavesBefore [left.length] = leavesOf left := by
  simp [leavesBefore, parts]

/-- In the order of the text, what `leavesBefore` gives comes first, and the subtree at the place comes
next. -/
theorem exists_leaves_eq (there : tree.at? place = some (offset, found)) :
    ∃ behind, tree.leaves = tree.leavesBefore place ++ found.leaves ++ behind := by
  induction place generalizing tree offset with
  | nil =>
    cases there
    exact ⟨[], (List.append_nil _).symm⟩
  | cons i place ih =>
    obtain ⟨child, inner, here, below, rfl⟩ := at?_cons.1 there
    obtain ⟨left, right, parts, rfl⟩ := exists_split here
    have before : tree.children.take left.length = left := by rw [parts, List.take_left]
    obtain ⟨behind, whole⟩ := ih below
    refine ⟨behind ++ leavesOf right, ?_⟩
    rw [leaves_of_children (by simp [parts]), leavesBefore, before, here, parts, leavesOf_append,
      leavesOf, whole]
    simp only [Option.elim_some, List.append_assoc]

end Subtree

namespace Node

variable {tree : Tree} {node : Node} {nodes others : List Node} {path : List Nat} {scale : Scale}

structure AreSpread (path : List Nat) (low : Nat) (nodes : List Node) : Prop where
  inside : ∀ node ∈ nodes, ∃ i more, node.path.reverse = path.reverse ++ i :: more ∧ low ≤ i
  apart : nodes.Pairwise fun node next => Precedes node.path.reverse next.path.reverse

theorem areSpread_singleton {index : Nat} (way : node.path = index :: path) :
    AreSpread path index [node] :=
  ⟨List.forall_mem_singleton.2 ⟨index, [], by rw [way, List.reverse_cons], Nat.le_refl _⟩,
    List.pairwise_singleton ..⟩

theorem AreSpread.append {index : Nat} (left : AreSpread path index nodes)
    (first : ∀ node ∈ nodes, ∃ more, node.path.reverse = path.reverse ++ index :: more)
    (right : AreSpread path (index + 1) others) : AreSpread path index (nodes ++ others) := by
  refine ⟨List.forall_mem_append.2 ⟨left.inside, fun other there => ?_⟩,
    List.pairwise_append.2 ⟨left.apart, right.apart, fun node here other there => ?_⟩⟩
  · obtain ⟨i, more, way, later⟩ := right.inside other there
    exact ⟨i, more, way, Nat.le_of_lt later⟩
  · obtain ⟨less, way⟩ := first node here
    obtain ⟨i, more, behind, later⟩ := right.inside other there
    rw [way, behind]
    exact .of_lt _ less more later

theorem AreSpread.up {index low : Nat} (h : AreSpread (index :: path) low nodes) :
    AreSpread path index nodes ∧
      ∀ node ∈ nodes, ∃ more, node.path.reverse = path.reverse ++ index :: more := by
  have inside : ∀ node ∈ nodes, ∃ more, node.path.reverse = path.reverse ++ index :: more := by
    intro node here
    obtain ⟨i, more, way, _⟩ := h.inside node here
    exact ⟨i :: more, by rw [way, List.reverse_cons, List.append_assoc, List.singleton_append]⟩
  refine ⟨⟨fun node here => ?_, h.apart⟩, inside⟩
  obtain ⟨more, way⟩ := inside node here
  exact ⟨index, more, way, Nat.le_refl _⟩

mutual

theorem areSpread_below : ∀ {subtree : Subtree} (path : List Nat) (start : Length)
    (inherited : Option FieldId), AreSpread path 0 (below tree path start inherited subtree)
  | .node info children, path, start, inherited => by
    rw [below]
    exact areSpread_among path start inherited _ 0

theorem areSpread_among : ∀ {trees : List Subtree} (path : List Nat) (start : Length)
    (inherited : Option FieldId) (steps : List ProductionStep) (index : Nat),
    AreSpread path index (among tree path start inherited steps index trees)
  | [], path, start, inherited, steps, index => by
    rw [among]
    exact ⟨fun _ absent => absurd absent List.not_mem_nil, .nil⟩
  | child :: rest, path, start, inherited, steps, index => by
    obtain ⟨step, field, steps', _, _, _, parts⟩ :=
      among_cons path start inherited steps index child rest
    rw [parts]
    have behind : AreSpread path (index + 1)
        (among tree path (start + child.size) inherited steps' (index + 1) rest) :=
      areSpread_among path _ inherited steps' _
    unfold ofChild
    split
    · refine (areSpread_singleton rfl).append (List.forall_mem_singleton.2 ⟨[], ?_⟩) behind
      exact List.reverse_cons
    · have own : AreSpread (index :: path) 0 (below tree (index :: path) start field child) :=
        areSpread_below (index :: path) start field
      exact own.up.1.append own.up.2 behind

end

theorem areSpread_children (node : Node) : AreSpread node.path 0 node.children :=
  areSpread_below node.path node.start none

theorem IsAt.reverse_path (here : node.IsAt tree path) : node.path.reverse = path := by
  rw [here.way, List.reverse_reverse]

structure StandsAt (node : Node) (scale : Scale) (offset : Length) : Prop where
  le_start : scale.Le offset node.start
  start_le : scale.Le node.start offset
  le_stop : scale.Le (offset ++ node.subtree.size) node.stop
  stop_le : scale.Le node.stop (offset ++ node.subtree.size)

theorem IsAt.exists_standsAt (here : node.IsAt tree path) (within : tree.root.IsWithin scale) :
    ∃ offset, tree.root.at? path = some (offset, node.subtree) ∧ node.StandsAt scale offset := by
  obtain ⟨offset, there, start⟩ := here.place
  have stop : node.stop = (offset ++ node.subtree.size).wrapped := by
    rw [Node.stop, start, Length.add_def, Length.wrapped_append]
  have starts := within.fits there
  have stops := within _ _ _ there
  refine ⟨offset, there, ?_, ?_, ?_, ?_⟩
  · exact start ▸ scale.le_wrapped starts
  · exact start ▸ scale.wrapped_le starts
  · exact stop ▸ scale.le_wrapped stops
  · exact stop ▸ scale.wrapped_le stops

theorem IsAt.inside (here : node.IsAt tree path) {inner : Node} {more : List Nat}
    (there : inner.IsAt tree (path ++ more)) (solid : tree.root.IsSolid)
    (within : tree.root.IsWithin scale) :
    scale.Le node.start inner.start ∧ scale.Le inner.stop node.stop := by
  obtain ⟨offset, found, stands⟩ := here.exists_standsAt within
  obtain ⟨start, below, stands'⟩ := there.exists_standsAt within
  obtain ⟨first, last⟩ := (solid.encloses within).inside found below
  exact ⟨scale.trans stands.start_le (scale.trans first stands'.le_start),
    scale.trans stands'.stop_le (scale.trans last stands.le_stop)⟩

theorem IsAt.stop_le_start (here : node.IsAt tree path) {other : Node} {place : List Nat}
    (there : other.IsAt tree place) (before : Precedes path place) (solid : tree.root.IsSolid)
    (within : tree.root.IsWithin scale) : scale.Le node.stop other.start := by
  obtain ⟨offset, found, stands⟩ := here.exists_standsAt within
  obtain ⟨start, behind, stands'⟩ := there.exists_standsAt within
  have apart := (solid.encloses within).stop_le_start before found behind
  exact scale.trans stands.stop_le (scale.trans apart stands'.le_start)

theorem IsAt.inOrder (here : node.IsAt tree path) (solid : tree.root.IsSolid)
    (within : tree.root.IsWithin scale) : InOrder scale node.start node.stop node.children := by
  refine ⟨fun child member => ?_, (areSpread_children node).apart.imp_of_mem ?_⟩
  · obtain ⟨i, more, _, there, _⟩ := here.child member
    exact here.inside there solid within
  · intro child next member member' before
    obtain ⟨_, _, _, there, _⟩ := here.child member
    obtain ⟨_, _, _, there', _⟩ := here.child member'
    rw [there.reverse_path, there'.reverse_path] at before
    exact there.stop_le_start there' before solid within

theorem IsAt.at?_eq (here : node.IsAt tree path) (within : tree.root.IsWithin .points) :
    tree.root.at? path = some (node.start, node.subtree) := by
  obtain ⟨offset, there, start⟩ := here.place
  have word : offset.IsWord := within.fits there
  rw [there, start, word.wrapped]

end Node

end IncrementalGlr
