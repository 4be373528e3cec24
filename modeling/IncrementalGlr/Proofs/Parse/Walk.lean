import IncrementalGlr.Proofs.Parse.Construction
import IncrementalGlr.Proofs.Tree.Counts

/-!
# The walk over an old tree

A cursor stands at a place of the old tree and goes on to later places only. Whatever moves its user
makes, its frames lead to that place and it knows the scanner's state there. As long as words can
tell the bytes of the tree, what it leaves out on its own is of no use at the positions that are
still to come: what it offers at a position is the largest subtree there that the user has not
passed, and if it offers nothing, there is none.
-/

namespace IncrementalGlr

open Subtree (leavesOf)

namespace ReuseCursor

def pathOf : List ReuseFrame → List Nat
  | frame :: parent :: parents =>
    pathOf (parent :: parents) ++ [parent.subtree.children.length - (frame.siblings.length + 1)]
  | _ => []

/-- The place of the current subtree; behind the end of the tree there is none. -/
def place? (cursor : ReuseCursor) : Option (List Nat) :=
  if cursor.frames.isEmpty then none else some (pathOf cursor.frames)

/-- Every frame is a child of the next one, with what is to its right, up to the root. -/
inductive Leads (root : Subtree) : List ReuseFrame → List Nat → Prop
  | top : Leads root [⟨root, Length.zero, []⟩] []
  | child {parent : ReuseFrame} {parents : List ReuseFrame} {path : List Nat}
    (above : Leads root (parent :: parents) path) {left right : List Subtree} {child : Subtree}
    (parts : parent.subtree.children = left ++ child :: right) :
    Leads root
      (⟨child, (parent.start ++ Length.concat (left.map (·.size))).wrapped, right⟩
        :: parent :: parents)
      (path ++ [left.length])

variable {root : Subtree} {frames parents : List ReuseFrame} {frame : ReuseFrame}
  {path other : List Nat} {cursor next : ReuseCursor}

theorem Leads.pathOf_eq (leads : Leads root frames path) : pathOf frames = path := by
  induction leads with
  | top => rfl
  | @child parent parents path above left right child parts ih =>
    have last : parent.subtree.children.length - (right.length + 1) = left.length := by
      simp [parts]
    rw [pathOf, ih, last]

theorem Leads.at? (leads : Leads root (frame :: parents) path) :
    ∃ offset, root.at? path = some (offset, frame.subtree) ∧ frame.start = offset.wrapped := by
  generalize whole : frame :: parents = frames at leads
  induction leads generalizing frame parents with
  | top =>
    cases whole
    exact ⟨Length.zero, rfl, rfl⟩
  | @child parent _ _ _ left _ _ parts ih =>
    cases whole
    obtain ⟨offset, there, start⟩ := ih rfl
    refine ⟨_, Subtree.at?_child there parts, ?_⟩
    rw [start, Length.wrapped_append]

theorem Leads.wrapped_start (leads : Leads root (frame :: parents) path) :
    frame.start.wrapped = frame.start := by
  obtain ⟨offset, _, start⟩ := leads.at?
  rw [start]
  exact (Length.isWord_wrapped offset).wrapped

inductive Stands (root : Subtree) : ReuseCursor → Prop
  | inside {frame : ReuseFrame} {parents : List ReuseFrame} {path : List Nat}
    (leads : Leads root (frame :: parents) path) :
    Stands root ⟨frame :: parents, lastState (root.leavesBefore path)⟩
  | ended : Stands root ⟨[], lastState root.leaves⟩

theorem place?_of_leads {state : Option ScannerState}
    (leads : Leads root (frame :: parents) path) :
    place? ⟨frame :: parents, state⟩ = some path :=
  congrArg some leads.pathOf_eq

def IsAhead (cursor : ReuseCursor) (path : List Nat) : Prop :=
  ∃ place, cursor.place? = some place ∧ (place <+: path ∨ Precedes place path)

/-! ## Moves -/

theorem state_past {tree : Subtree} (marked : tree.IsScanMarked) (state : Option ScannerState) :
    (if tree.hasExternals then tree.lastScannerState else state) =
      (lastState tree.leaves).or state := by
  obtain ⟨last, marks⟩ := Subtree.lastScannerState_eq_lastState marked
  rw [last, marks]
  cases lastState tree.leaves <;> rfl

theorem leavesBefore_past (above : Leads root (frame :: parents) path)
    {left right : List Subtree} {child : Subtree}
    (parts : frame.subtree.children = left ++ child :: right) :
    root.leavesBefore (path ++ [left.length]) ++ child.leaves =
      root.leavesBefore path ++ leavesOf (left ++ [child]) := by
  obtain ⟨offset, there, _⟩ := above.at?
  rw [Subtree.leavesBefore_append there, Subtree.leavesBefore_child parts, List.append_assoc,
    Subtree.leavesOf_append, Subtree.leavesOf_singleton]

theorem Leads.sibling (above : Leads root (frame :: parents) path) {left right : List Subtree}
    {child sibling : Subtree} (parts : frame.subtree.children = left ++ child :: sibling :: right) :
    Leads root
      (⟨sibling, (frame.start ++ Length.concat (left.map (·.size))).wrapped + child.size, right⟩
        :: frame :: parents) (path ++ [left.length + 1]) := by
  have onward := Leads.child above
    (show frame.subtree.children = (left ++ [child]) ++ sibling :: right by simp [parts])
  rw [List.map_append, Length.concat_append, List.length_append, ← Length.append_assoc] at onward
  rw [Length.add_def, Length.wrapped_append]
  simpa [Length.concat_cons] using onward

theorem leavesBefore_sibling (above : Leads root (frame :: parents) path)
    {left right : List Subtree} {child sibling : Subtree}
    (parts : frame.subtree.children = left ++ child :: sibling :: right) :
    root.leavesBefore (path ++ [left.length + 1]) =
      root.leavesBefore path ++ leavesOf (left ++ [child]) := by
  obtain ⟨offset, there, _⟩ := above.at?
  have behind := Subtree.leavesBefore_child
    (show frame.subtree.children = (left ++ [child]) ++ sibling :: right by simp [parts])
  rw [List.length_append, List.length_singleton] at behind
  rw [Subtree.leavesBefore_append there, behind]

theorem prefix_or_precedes_of_sibling {i : Nat} (behind : Precedes (path ++ [i]) other) :
    path ++ [i + 1] <+: other ∨ Precedes (path ++ [i + 1]) other := by
  rcases behind.of_append_singleton with behind | ⟨j, more, rfl, later⟩
  · exact .inr (List.append_nil other ▸ behind.append [i + 1] [])
  · rcases Nat.eq_or_lt_of_le later with rfl | later
    · exact .inl ⟨more, by simp⟩
    · exact .inr (.of_lt path [] more later)

theorem precedes_of_last (above : Leads root (frame :: parents) path) {left : List Subtree}
    {child : Subtree} (parts : frame.subtree.children = left ++ [child])
    (inside : (root.at? other).isSome) (behind : Precedes (path ++ [left.length]) other) :
    Precedes path other := by
  rcases behind.of_append_singleton with behind | ⟨j, more, rfl, later⟩
  · exact behind
  · obtain ⟨⟨offset, found⟩, there⟩ := Option.isSome_iff_exists.1 inside
    obtain ⟨_, _, _, upper, lower, _⟩ := Subtree.at?_append.1 there
    obtain ⟨_, here, _⟩ := above.at?
    cases here.symm.trans upper
    obtain ⟨_, _, beyond, _⟩ := Subtree.at?_cons.1 lower
    have := (List.getElem?_eq_some_iff.1 beyond).1
    rw [parts, List.length_append, List.length_singleton] at this
    omega

theorem stands_advanceFrames (marked : root.IsScanMarked)
    (leads : Leads root (frame :: parents) path) {state : Option ScannerState}
    (known : (lastState frame.subtree.leaves).or state =
      lastState (root.leavesBefore path ++ frame.subtree.leaves)) :
    Stands root (advanceFrames (frame :: parents) state) ∧
      ∀ other, (root.at? other).isSome → Precedes path other →
        (advanceFrames (frame :: parents) state).IsAhead other := by
  generalize whole : frame :: parents = frames at leads
  -- The state is known only behind the subtree, so that a last child can hand it up to its parent,
  -- whose own leaves are behind it as well by then.
  induction leads generalizing frame parents state with
  | top =>
    cases whole
    rw [show advanceFrames [⟨root, Length.zero, []⟩] state = ⟨[], _⟩ from rfl, state_past marked,
      known]
    refine ⟨.ended, fun other _ behind => ?_⟩
    exact absurd List.nil_prefix fun first => behind.apart first List.prefix_rfl
  | @child parent parents path above left right child parts ih =>
    cases whole
    obtain ⟨_, there, _⟩ := (Leads.child above parts).at?
    have here : child.IsScanMarked := Subtree.Every.at? marked there
    dsimp only at known
    rw [leavesBefore_past above parts] at known
    cases right with
    | cons sibling right =>
      have onward := above.sibling parts
      rw [show advanceFrames (⟨child, _, sibling :: right⟩ :: parent :: parents) state =
        ⟨⟨sibling, _, right⟩ :: parent :: parents, _⟩ from rfl, state_past here, known,
        ← leavesBefore_sibling above parts]
      exact ⟨.inside onward, fun other _ behind =>
        ⟨_, place?_of_leads onward, prefix_or_precedes_of_sibling behind⟩⟩
    | nil =>
      have interior : parent.subtree.children ≠ [] := by simp [parts]
      rw [← parts, ← Subtree.leaves_of_children interior] at known
      have past : (lastState parent.subtree.leaves).or
          (if child.hasExternals then child.lastScannerState else state) =
            lastState (root.leavesBefore path ++ parent.subtree.leaves) := by
        rw [state_past here, known, lastState_append]
        cases lastState parent.subtree.leaves <;> rfl
      obtain ⟨stands, ahead⟩ := ih past rfl
      exact ⟨stands, fun other inside behind =>
        ahead other inside (precedes_of_last above parts inside behind)⟩

theorem Stands.leads (stands : Stands root cursor) (way : cursor.frames = frame :: parents) :
    ∃ path, Leads root (frame :: parents) path ∧ cursor.place? = some path ∧
      cursor.scannerState = lastState (root.leavesBefore path) := by
  cases stands with
  | inside leads =>
    cases way
    exact ⟨_, leads, place?_of_leads leads, rfl⟩
  | ended => cases way

theorem not_isAhead_of_ended (way : cursor.frames = []) : ¬ cursor.IsAhead path := by
  rintro ⟨place, here, _⟩
  simp [place?, way] at here

theorem Stands.advance (marked : root.IsScanMarked) (stands : Stands root cursor) :
    Stands root cursor.advance ∧ ∀ other, (root.at? other).isSome → cursor.IsAhead other →
      (∃ place, cursor.place? = some place ∧ place <+: other) ∨ cursor.advance.IsAhead other := by
  cases stands with
  | inside leads =>
    obtain ⟨stands, ahead⟩ := stands_advanceFrames marked leads (lastState_append ..).symm
    refine ⟨stands, ?_⟩
    rintro other inside ⟨place, here, within | behind⟩
    · exact .inl ⟨place, here, within⟩
    · cases (place?_of_leads leads).symm.trans here
      exact .inr (ahead other inside behind)
  | ended => exact ⟨.ended, fun other _ ahead => absurd ahead (not_isAhead_of_ended rfl)⟩

theorem Stands.descend? (stands : Stands root cursor) (down : cursor.descend? = some next) :
    Stands root next ∧ ∀ other, cursor.IsAhead other →
      cursor.place? = some other ∨ next.IsAhead other := by
  cases stands with
  | ended => cases down
  | @inside frame parents path leads =>
    cases parts : frame.subtree.children with
    | nil => simp [ReuseCursor.descend?, parts] at down
    | cons child siblings =>
      have first := Leads.child leads (show frame.subtree.children = [] ++ child :: siblings
        from parts)
      rw [List.map_nil, Length.concat_nil, Length.append_zero, leads.wrapped_start] at first
      have leaves : root.leavesBefore (path ++ [0]) = root.leavesBefore path := by
        obtain ⟨_, there, _⟩ := leads.at?
        rw [Subtree.leavesBefore_append there]
        simp [Subtree.leavesBefore, leavesOf, parts]
      simp only [ReuseCursor.descend?, parts, Option.some.injEq] at down
      subst down
      rw [← leaves]
      refine ⟨.inside first, ?_⟩
      rintro other ⟨place, here, ahead⟩
      cases (place?_of_leads leads).symm.trans here
      rcases ahead with ⟨more, rfl⟩ | behind
      · cases more with
        | nil => exact .inl (by rw [List.append_nil]; exact here)
        | cons j more =>
          refine .inr ⟨_, place?_of_leads first, ?_⟩
          rcases Nat.eq_zero_or_pos j with rfl | later
          · exact .inl ⟨more, by simp⟩
          · exact .inr (.of_lt path [] more later)
      · exact .inr ⟨_, place?_of_leads first, .inr (List.append_nil other ▸ behind.append [0] [])⟩

/-! ## Looking for a candidate -/

def HasAt (root : Subtree) (path : List Nat) (position : Nat) : Prop :=
  ∃ start subtree, root.at? path = some (start, subtree) ∧ start.bytes = position ∧
    0 < subtree.size.bytes

theorem HasAt.isSome {position : Nat} (h : HasAt root path position) :
    (root.at? path).isSome := by
  obtain ⟨_, _, there, _⟩ := h
  exact Option.isSome_iff_exists.2 ⟨_, there⟩

theorem Leads.exists_bytes (leads : Leads root (frame :: parents) path)
    (within : root.IsWithin .bytes) : ∃ offset, root.at? path = some (offset, frame.subtree) ∧
      frame.start.bytes = offset.bytes ∧
      (frame.start + frame.subtree.size).bytes = (offset ++ frame.subtree.size).bytes := by
  obtain ⟨offset, there, start⟩ := leads.at?
  refine ⟨offset, there, ?_, ?_⟩
  · rw [start]
    exact Nat.mod_eq_of_lt (within.fits there)
  · rw [start, Length.add_def, Length.wrapped_append]
    exact Nat.mod_eq_of_lt (within _ _ _ there)

theorem HasAt.start_eq {position : Nat} (has : HasAt root path position)
    (leads : Leads root (frame :: parents) path) (within : root.IsWithin .bytes) :
    frame.start.bytes = position := by
  obtain ⟨_, _, there, rfl, _⟩ := has
  obtain ⟨_, found, starts, _⟩ := leads.exists_bytes within
  cases found.symm.trans there
  exact starts

theorem HasAt.lies_inside {position : Nat} (has : HasAt root other position)
    (leads : Leads root (frame :: parents) path) (solid : root.IsSolid)
    (within : root.IsWithin .bytes) (inside : path <+: other) : frame.start.bytes ≤ position ∧
      position < (frame.start + frame.subtree.size).bytes := by
  obtain ⟨more, rfl⟩ := inside
  obtain ⟨_, subtree, there, rfl, some⟩ := has
  obtain ⟨_, found, starts, ends⟩ := leads.exists_bytes within
  obtain ⟨first, last⟩ := (solid.encloses within).inside found there
  rw [starts, ends]
  refine ⟨first, Nat.lt_of_lt_of_le ?_ last⟩
  exact (Length.bytes_append ..).symm ▸ Nat.lt_add_of_pos_right some

theorem eq_of_prefix_of_leaf (leads : Leads root (frame :: parents) path)
    (leaf : frame.subtree.children = []) (there : (root.at? other).isSome)
    (inside : path <+: other) : path = other := by
  obtain ⟨more, rfl⟩ := inside
  cases more with
  | nil => rw [List.append_nil]
  | cons i more =>
    obtain ⟨_, found, _⟩ := leads.at?
    obtain ⟨_, there⟩ := Option.isSome_iff_exists.1 there
    obtain ⟨_, _, _, upper, lower, _⟩ := Subtree.at?_append.1 there
    cases found.symm.trans upper
    obtain ⟨_, _, child, _⟩ := Subtree.at?_cons.1 lower
    simp [leaf] at child

theorem children_eq_nil_of_descend? (way : cursor.frames = frame :: parents)
    (down : cursor.descend? = none) : frame.subtree.children = [] := by
  cases parts : frame.subtree.children with
  | nil => rfl
  | cons child siblings => simp [ReuseCursor.descend?, way, parts] at down

theorem Stands.candidate (solid : root.IsSolid) (marked : root.IsScanMarked)
    (stands : Stands root cursor) (position : Nat) :
    Stands root (cursor.candidate position).2 ∧ (root.IsWithin .bytes → ∀ other later,
      position ≤ later → HasAt root other later → cursor.IsAhead other →
        (cursor.candidate position).2.IsAhead other) := by
  fun_induction ReuseCursor.candidate cursor position with
  | case1 | case2 | case6 => exact ⟨stands, fun _ _ _ _ _ ahead => ahead⟩
  | case3 cursor frame parents way start stop _ ends ih =>
    obtain ⟨path, leads, here, _⟩ := stands.leads way
    obtain ⟨moved, ahead⟩ := stands.advance marked
    obtain ⟨last, kept⟩ := ih moved
    refine ⟨last, fun within other later soon has before =>
      kept within other later soon has ?_⟩
    refine (ahead other has.isSome before).resolve_left ?_
    rintro ⟨place, same, inside⟩
    cases here.symm.trans same
    have starts := (has.lies_inside leads solid within inside).2
    omega
  | case4 cursor frame parents way start stop _ _ early next down ih =>
    obtain ⟨path, leads, here, _⟩ := stands.leads way
    obtain ⟨moved, ahead⟩ := stands.descend? down
    obtain ⟨last, kept⟩ := ih moved
    refine ⟨last, fun within other later soon has before =>
      kept within other later soon has ?_⟩
    refine (ahead other before).resolve_left fun same => ?_
    cases here.symm.trans same
    have starts := has.start_eq leads within
    omega
  | case5 cursor frame parents way start stop _ _ early down ih =>
    obtain ⟨path, leads, here, _⟩ := stands.leads way
    obtain ⟨moved, ahead⟩ := stands.advance marked
    obtain ⟨last, kept⟩ := ih moved
    refine ⟨last, fun within other later soon has before =>
      kept within other later soon has ?_⟩
    refine (ahead other has.isSome before).resolve_left ?_
    rintro ⟨place, same, inside⟩
    cases here.symm.trans same
    -- A leaf around the position: nothing is in it but itself, and that starts too early.
    have leaf := children_eq_nil_of_descend? way down
    cases eq_of_prefix_of_leaf leads leaf has.isSome inside
    have starts := has.start_eq leads within
    omega

/-- What a user may have done with a cursor: asked for candidates, at positions up to `last`, gone
to a first child, and moved on. It has `passed` the subtrees that it left in one of the two ways. -/
inductive Visits (tree : Tree) : Nat → (List Nat → Prop) → ReuseCursor → Prop
  | begins : Visits tree 0 (fun _ => False) (ofTree tree)
  | asks {last : Nat} {passed : List Nat → Prop} {cursor : ReuseCursor}
    (before : Visits tree last passed cursor) {position : Nat} (later : last ≤ position) :
    Visits tree position passed (cursor.candidate position).2
  | descends {last : Nat} {passed : List Nat → Prop} {cursor next : ReuseCursor}
    (before : Visits tree last passed cursor) (down : cursor.descend? = some next) :
    Visits tree last (fun path => passed path ∨ cursor.place? = some path) next
  | advances {last : Nat} {passed : List Nat → Prop} {cursor : ReuseCursor}
    (before : Visits tree last passed cursor) :
    Visits tree last
      (fun path => passed path ∨ ∃ place, cursor.place? = some place ∧ place <+: path)
      cursor.advance

variable {tree : Tree} {passed : List Nat → Prop} {last position : Nat}

theorem Visits.search (visited : Visits tree last passed cursor) (later : last ≤ position)
    (fits : Subtree → Option ScannerState → Bool) :
    ∃ passed, Visits tree position passed (cursor.search position fits).2 := by
  fun_induction ReuseCursor.search cursor position fits generalizing last passed with
  | case1 _ _ found | case2 _ _ _ found _ | case4 _ _ _ found _ _ =>
    exact ⟨passed, by simpa [found] using visited.asks later⟩
  | case3 cursor subtree next found misfit child down ih =>
    have asked := visited.asks later
    rw [found] at asked
    exact ih (asked.descends down) (Nat.le_refl _)

theorem Visits.stands (solid : tree.root.IsSolid) (marked : tree.root.IsScanMarked)
    (visited : Visits tree last passed cursor) : Stands tree.root cursor ∧
      (tree.root.IsWithin .bytes → ∀ other later, last ≤ later → HasAt tree.root other later →
        ¬ passed other → cursor.IsAhead other) := by
  induction visited with
  | begins =>
    exact ⟨.inside .top, fun _ other _ _ _ _ => ⟨[], rfl, .inl List.nil_prefix⟩⟩
  | @asks last passed cursor before position later ih =>
    obtain ⟨stands, left⟩ := ih
    obtain ⟨next, ahead⟩ := stands.candidate solid marked position
    refine ⟨next, fun within other byte soon has unpassed => ?_⟩
    exact ahead within other byte soon has
      (left within other byte (Nat.le_trans later soon) has unpassed)
  | descends before down ih =>
    obtain ⟨stands, left⟩ := ih
    obtain ⟨next, ahead⟩ := stands.descend? down
    refine ⟨next, fun within other byte soon has unpassed => ?_⟩
    rw [not_or] at unpassed
    exact (ahead other (left within other byte soon has unpassed.1)).resolve_left unpassed.2
  | advances before ih =>
    obtain ⟨stands, left⟩ := ih
    obtain ⟨next, ahead⟩ := stands.advance marked
    refine ⟨next, fun within other byte soon has unpassed => ?_⟩
    rw [not_or] at unpassed
    exact (ahead other has.isSome (left within other byte soon has unpassed.1)).resolve_left
      unpassed.2

end ReuseCursor

end IncrementalGlr
