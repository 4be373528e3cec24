import IncrementalGlr.Tree.Basic
import IncrementalGlr.Text.Fixed

/-!
# Reuse of an old tree

A cursor walks an edited tree in step with the parser and offers the largest subtree at the parser's
position. The parser takes the offer if it would build the same subtree; if not, it asks for the
first child. Every move leaves fewer nodes to visit.
-/

namespace IncrementalGlr

structure ReuseStats where
  nodes : Nat
  bytes : Nat
  totalBytes : Nat
  fallback : Bool
  deriving DecidableEq, Repr, Inhabited

namespace ReuseStats

def empty : ReuseStats := ⟨0, 0, 0, false⟩

def record (stats : ReuseStats) (subtree : Subtree) : ReuseStats :=
  { stats with
    nodes := (stats.nodes + 1) % UInt32.size
    bytes := (stats.bytes + subtree.size.bytes) % UInt32.size }

def rate (stats : ReuseStats) : Float :=
  if stats.totalBytes = 0 then 0.0
  else stats.bytes.toFloat / stats.totalBytes.toFloat * 100.0

def rateText (stats : ReuseStats) (places : Nat) : String := fixedPoint places stats.rate

end ReuseStats

namespace Subtree

mutual

def count : Subtree → Nat
  | node _ children => countList children + 1

def countList : List Subtree → Nat
  | [] => 0
  | tree :: rest => tree.count + countList rest

end

theorem count_pos (tree : Subtree) : 0 < tree.count := by
  cases tree
  simp [count]

end Subtree

structure ReuseFrame where
  subtree : Subtree
  start : Length
  siblings : List Subtree

structure ReuseCursor where
  frames : List ReuseFrame
  /-- The scanner's state behind everything before the current subtree. -/
  scannerState : Option ScannerState

namespace ReuseCursor

def ofTree (tree : Tree) : ReuseCursor := ⟨[⟨tree.root, Length.zero, []⟩], none⟩

def advanceFrames : List ReuseFrame → Option ScannerState → ReuseCursor
  | [], scannerState => ⟨[], scannerState⟩
  | frame :: parents, scannerState =>
    let scannerState :=
      if frame.subtree.hasExternals then frame.subtree.lastScannerState else scannerState
    match frame.siblings, parents with
    | sibling :: siblings, _ :: _ =>
      ⟨⟨sibling, frame.start + frame.subtree.size, siblings⟩ :: parents, scannerState⟩
    | _, parents => advanceFrames parents scannerState

def advance (cursor : ReuseCursor) : ReuseCursor :=
  advanceFrames cursor.frames cursor.scannerState

def descend? (cursor : ReuseCursor) : Option ReuseCursor :=
  match cursor.frames with
  | [] => none
  | frame :: _ =>
    match frame.subtree.children with
    | [] => none
    | child :: siblings =>
      some { cursor with frames := ⟨child, frame.start, siblings⟩ :: cursor.frames }

def beside : List ReuseFrame → Nat
  | [] => 0
  | frame :: parents => Subtree.countList frame.siblings + beside parents

def remaining (cursor : ReuseCursor) : Nat :=
  (cursor.frames.head?.map fun frame => frame.subtree.count).getD 0
    + beside cursor.frames

theorem remaining_advanceFrames_le (frames : List ReuseFrame) (state : Option ScannerState) :
    (advanceFrames frames state).remaining ≤ beside frames := by
  induction frames generalizing state with
  | nil => simp [advanceFrames, remaining, beside]
  | cons frame parents ih =>
    unfold advanceFrames
    dsimp only
    split
    · rename_i siblings _ _ eq
      simp [remaining, beside, eq, Subtree.countList]
      omega
    · exact Nat.le_trans (ih _) (Nat.le_add_left _ _)

theorem remaining_advance_lt {cursor : ReuseCursor} {frame : ReuseFrame}
    {parents : List ReuseFrame} (h : cursor.frames = frame :: parents) :
    cursor.advance.remaining < cursor.remaining := by
  have le := remaining_advanceFrames_le cursor.frames cursor.scannerState
  have := frame.subtree.count_pos
  simp only [advance]
  refine Nat.lt_of_le_of_lt le ?_
  simp [remaining, beside, h]
  omega

theorem remaining_descend?_lt {cursor next : ReuseCursor} (h : cursor.descend? = some next) :
    next.remaining < cursor.remaining := by
  unfold descend? at h
  split at h
  · cases h
  · rename_i frame parents eq
    split at h
    · cases h
    · rename_i child siblings children
      cases h
      have : frame.subtree.count = child.count + Subtree.countList siblings + 1 := by
        obtain ⟨subtree, _, _⟩ := frame
        cases subtree
        simp only [Subtree.children] at children
        subst children
        simp [Subtree.count, Subtree.countList]
      simp [remaining, beside, eq, this]
      omega

/-- Goes to the largest subtree that starts at `position` and is not empty, if there is one. What
ends at or before `position` is left behind for good. -/
def candidate (cursor : ReuseCursor) (position : Nat) : Option Subtree × ReuseCursor :=
  match _h : cursor.frames with
  | [] => (none, cursor)
  | frame :: _ =>
    let start := frame.start.bytes
    let stop := (frame.start + frame.subtree.size).bytes
    if start > position then (none, cursor)
    else if stop ≤ position then candidate cursor.advance position
    else if start < position then
      match _descended : cursor.descend? with
      | some next => candidate next position
      | none => candidate cursor.advance position
    else (some frame.subtree, cursor)
termination_by cursor.remaining
decreasing_by
  · exact remaining_advance_lt _h
  · exact remaining_descend?_lt _descended
  · exact remaining_advance_lt _h

theorem remaining_candidate_le (cursor : ReuseCursor) (position : Nat) :
    (cursor.candidate position).2.remaining ≤ cursor.remaining := by
  fun_induction candidate cursor position with
  | case1 => exact Nat.le_refl _
  | case2 => exact Nat.le_refl _
  | case3 cursor frame _ h _ _ _ _ ih =>
    exact Nat.le_trans ih (Nat.le_of_lt (remaining_advance_lt h))
  | case4 cursor _ _ _ _ _ _ _ _ _ descended ih =>
    exact Nat.le_trans ih (Nat.le_of_lt (remaining_descend?_lt descended))
  | case5 cursor frame _ h _ _ _ _ _ _ ih =>
    exact Nat.le_trans ih (Nat.le_of_lt (remaining_advance_lt h))
  | case6 => exact Nat.le_refl _

/-- The first candidate at `position` that fits, going down from one that does not. The test sees
the scanner's state before the candidate too. -/
def search (cursor : ReuseCursor) (position : Nat)
    (fits : Subtree → Option ScannerState → Bool) : Option Subtree × ReuseCursor :=
  match _found : cursor.candidate position with
  | (none, next) => (none, next)
  | (some subtree, next) =>
    if fits subtree next.scannerState then (some subtree, next)
    else match _descended : next.descend? with
      | some child => search child position fits
      | none => (none, next)
termination_by cursor.remaining
decreasing_by
  have le := remaining_candidate_le cursor position
  rw [_found] at le
  exact Nat.lt_of_lt_of_le (remaining_descend?_lt _descended) le

end ReuseCursor

end IncrementalGlr
