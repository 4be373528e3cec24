import IncrementalGlr.Proofs.Tree.Spelling
import IncrementalGlr.Parse.Reuse

/-!
# Offers of an old tree

A cursor on a tree that spells the text offers only subtrees that spell the text at the place where
they are offered.
-/

namespace IncrementalGlr

/-- The frame's subtree and its siblings cover the text from the frame's start on. -/
def ReuseFrame.Fits (frame : ReuseFrame) (table : Table) (text : List Char) : Prop :=
  IsShort text ∧ ∃ pre own post, text = pre ++ (own ++ post) ∧ frame.start = Length.ofChars pre
    ∧ Subtree.SpellAll (frame.subtree :: frame.siblings) own post
    ∧ ∀ tree ∈ frame.subtree :: frame.siblings, tree.Sound table

def Subtree.StandsAt (tree : Subtree) (start : Length) (table : Table)
    (text : List Char) : Prop :=
  ∃ pre own post, text = pre ++ (own ++ post) ∧ start = Length.ofChars pre
    ∧ tree.Spells own post ∧ tree.Sound table

theorem ReuseFrame.Fits.standsAt {frame : ReuseFrame} {table : Table} {text : List Char}
    (h : frame.Fits table text) : frame.subtree.StandsAt frame.start table text := by
  obtain ⟨_, pre, own, post, rfl, place, ⟨first, others, rfl, spells, _⟩, sound⟩ := h
  exact ⟨pre, first, others ++ post, by simp, place, spells,
    sound frame.subtree (List.mem_cons_self ..)⟩

namespace ReuseCursor

def Fits (cursor : ReuseCursor) (table : Table) (text : List Char) : Prop :=
  ∀ frame ∈ cursor.frames, frame.Fits table text

variable {cursor next : ReuseCursor} {table : Table} {text : List Char}

theorem fits_advanceFrames {frames : List ReuseFrame} {state : Option ScannerState}
    (h : ∀ frame ∈ frames, frame.Fits table text) :
    (advanceFrames frames state).Fits table text := by
  induction frames generalizing state with
  | nil => exact fun frame member => absurd member List.not_mem_nil
  | cons frame parents ih =>
    have above : ∀ frame ∈ parents, frame.Fits table text :=
      fun other member => h other (List.mem_cons_of_mem _ member)
    unfold advanceFrames
    dsimp only
    split
    · next sibling siblings parent parents beside =>
        intro other member
        rcases List.mem_cons.1 member with rfl | member
        · obtain ⟨short, pre, own, post, rfl, place, ⟨first, others, rfl, spells, all⟩, sound⟩ :=
            h frame (List.mem_cons_self ..)
          rw [beside] at all sound
          refine ⟨short, pre ++ first, others, post, by simp, ?_, all, ?_⟩
          · rw [List.append_assoc, ← List.append_assoc] at short
            rw [place, spells.size, short.left.add]
          · exact fun tree member => sound tree (List.mem_cons_of_mem _ member)
        · exact above other member
    · exact ih above

theorem fits_advance (h : cursor.Fits table text) : cursor.advance.Fits table text :=
  fits_advanceFrames h

theorem fits_descend? (h : cursor.Fits table text) (down : cursor.descend? = some next) :
    next.Fits table text := by
  unfold descend? at down
  split at down
  · contradiction
  · next frame parents way =>
      split at down
      · contradiction
      · next child siblings inside =>
          cases down
          intro other member
          rcases List.mem_cons.1 member with rfl | member
          · obtain ⟨short, pre, own, post, rfl, place, ⟨first, others, rfl, spells, _⟩, sound⟩ :=
              h frame (by rw [way]; exact List.mem_cons_self ..)
            have marks := sound frame.subtree (List.mem_cons_self ..)
            refine ⟨short, pre, first, others ++ post, by simp, place, ?_, ?_⟩
            · rw [← inside]
              exact spells.children (by rw [inside]; exact List.cons_ne_nil _ _)
            · intro tree member
              rw [← inside] at member
              exact marks.child member
          · exact h other member

theorem candidate_spec (h : cursor.Fits table text) (position : Nat) :
    (cursor.candidate position).2.Fits table text ∧
      ∀ tree ∈ (cursor.candidate position).1,
        ∃ start, start.bytes = position ∧ tree.StandsAt start table text := by
  fun_induction candidate cursor position with
  | case1 cursor way => exact ⟨h, fun tree found => by cases found⟩
  | case2 cursor => exact ⟨h, fun tree found => by cases found⟩
  | case3 cursor frame parents way start stop _ _ ih => exact ih (fits_advance h)
  | case4 cursor frame parents way start stop _ _ _ next down ih =>
    exact ih (fits_descend? h down)
  | case5 cursor frame parents way start stop _ _ _ _ ih => exact ih (fits_advance h)
  | case6 cursor frame parents way start stop notBehind _ notBefore =>
    refine ⟨h, ?_⟩
    intro tree found
    cases found
    refine ⟨frame.start, ?_, (h frame (by rw [way]; exact List.mem_cons_self ..)).standsAt⟩
    exact Nat.le_antisymm (Nat.le_of_not_lt notBehind) (Nat.le_of_not_lt notBefore)

theorem search_spec (h : cursor.Fits table text) (position : Nat)
    (test : Subtree → Option ScannerState → Bool) :
    (cursor.search position test).2.Fits table text ∧
      ∀ tree ∈ (cursor.search position test).1,
        test tree (cursor.search position test).2.scannerState = true ∧
          ∃ start, start.bytes = position ∧ tree.StandsAt start table text := by
  fun_induction search cursor position test with
  | case1 cursor next found =>
    have spec := candidate_spec h position
    rw [found] at spec
    exact ⟨spec.1, fun tree found => by cases found⟩
  | case2 cursor tree next found fits =>
    have spec := candidate_spec h position
    rw [found] at spec
    refine ⟨spec.1, ?_⟩
    intro other found
    cases found
    exact ⟨fits, spec.2 tree rfl⟩
  | case3 cursor tree next found misfit child down ih =>
    have spec := candidate_spec h position
    rw [found] at spec
    exact ih (fits_descend? spec.1 down)
  | case4 cursor tree next found misfit down =>
    have spec := candidate_spec h position
    rw [found] at spec
    exact ⟨spec.1, fun tree found => by cases found⟩

theorem fits_ofTree {tree : Tree} (short : IsShort text) (spells : tree.root.Spells text [])
    (sound : tree.root.Sound table) : (ofTree tree).Fits table text := by
  intro frame member
  rw [List.mem_singleton.1 member]
  refine ⟨short, [], text, [], by simp, rfl, Subtree.spellAll_singleton.2 spells, ?_⟩
  intro other member
  rw [List.mem_singleton.1 member]
  exact sound

end ReuseCursor

end IncrementalGlr
