import IncrementalGlr.Proofs.Tree.Spelling
import IncrementalGlr.Proofs.Text.Replacement
import IncrementalGlr.Proofs.Text.Agreement

/-!
# Edits of trees

An edited tree spells the new text, and what it does not mark as changed stands in front of text
that is the same as before, as far as it was examined.
-/

namespace IncrementalGlr

namespace Subtree

variable {r : Replacement} {tree : Subtree} {trees : List Subtree} {pre own post : List Char}
  {last : Bool}

theorem spells_untouched (text : r.old = pre ++ (own ++ post)) (atEnd : last = true → post = [])
    (h : tree.Spells own post) (alone : r.LeavesAlone pre (tree.size.bytes + tree.lookahead)) :
    ∃ post', r.new = r.carry pre ++ (own ++ post')
      ∧ r.carryEnd last (pre ++ own) = r.carry pre ++ own ∧ tree.Spells own post' := by
  rw [h.size] at alone
  have carried := (alone.mono (Nat.le_add_right _ _)).carry_append text
  rw [← List.append_assoc] at text
  obtain ⟨post', new, _, ends⟩ := (alone.append own).agree text
  rw [carried, List.append_assoc] at new
  refine ⟨post', new, ?_, h.behind ends⟩
  cases last with
  | false => exact carried
  | true =>
    rw [ends (atEnd rfl), List.append_nil] at new
    exact new

def FollowsEdit (tree : Subtree) (r : Replacement) : Prop :=
  ∀ (pre own post : List Char) (last : Bool), r.old = pre ++ (own ++ post) →
    (last = true → post = []) → tree.Spells own post →
    ∃ own' post', r.new = r.carry pre ++ (own' ++ post')
      ∧ r.carryEnd last (pre ++ own) = r.carry pre ++ own'
      ∧ (tree.edited r.edit (Length.ofChars pre) last).Spells own' post'

theorem spells_editedList (each : ∀ tree ∈ trees, tree.FollowsEdit r) (some : trees ≠ [])
    (text : r.old = pre ++ (own ++ post)) (atEnd : last = true → post = [])
    (h : SpellAll trees own post) :
    ∃ own' post', r.new = r.carry pre ++ (own' ++ post')
      ∧ r.carryEnd last (pre ++ own) = r.carry pre ++ own'
      ∧ SpellAll (editedList r.edit (Length.ofChars pre) last trees) own' post' := by
  induction trees generalizing pre own with
  | nil => exact absurd rfl some
  | cons first rest ih =>
    have follows := each first (List.mem_cons_self ..)
    cases rest with
    | nil =>
      obtain ⟨own', post', new, carried, spells⟩ :=
        follows pre own post last text atEnd (spellAll_singleton.1 h)
      refine ⟨own', post', new, carried, ?_⟩
      simpa [editedList, spellAll_singleton] using spells
    | cons second rest =>
      obtain ⟨front, back, rfl, spells, all⟩ := h
      rw [List.append_assoc] at text
      have place := Replacement.add_old text
      obtain ⟨front', rest', new, carried, spells'⟩ :=
        follows pre front (back ++ post) false text (by simp) spells
      rw [← List.append_assoc] at text
      obtain ⟨back', post', new', carried', all'⟩ :=
        ih (fun tree member => each tree (List.mem_cons_of_mem _ member))
          (List.cons_ne_nil _ _) text all
      have cut : r.carry (pre ++ front) = r.carry pre ++ front' := carried
      rw [cut, List.append_assoc, new] at new'
      have remaining := List.append_cancel_left (List.append_cancel_left new')
      subst remaining
      rw [List.append_assoc, cut, List.append_assoc] at carried'
      refine ⟨front' ++ back', post', by simpa using new, carried', front', back', rfl, ?_, ?_⟩
      · simpa using spells'
      · rw [spells.size, place]
        exact all'

theorem edited_of_not_touches {edit : Edit} {start : Length}
    (untouched : ¬ edit.touches start.bytes (start + tree.size).bytes tree.lookahead = true) :
    tree.edited edit start last = tree := by
  obtain ⟨info, children⟩ := tree
  unfold edited
  exact if_neg untouched

theorem edited_of_touches {edit : Edit} {start : Length} {info : SubtreeInfo} {child : Subtree}
    {rest : List Subtree}
    (touched : edit.touches start.bytes (start + info.size).bytes info.lookahead = true) :
    (node info (child :: rest)).edited edit start last =
      node { info with
        size := Length.sum ((editedList edit start last (child :: rest)).map (·.size))
        isChanged := true } (editedList edit start last (child :: rest)) := by
  unfold edited
  exact if_pos touched

theorem spells_edited (tree : Subtree) : tree.FollowsEdit r := by
  induction tree with
  | node info children ih =>
    intro pre own post last text atEnd h
    by_cases touched : r.edit.touches (Length.ofChars pre).bytes
        (Length.ofChars pre + info.size).bytes info.lookahead = true
    · cases children with
      | nil =>
        obtain ⟨own', post', new, carried⟩ := Replacement.exists_carried last text
        have place := Replacement.add_old text
        rw [← List.append_assoc] at text
        refine ⟨own', post', new, carried, ?_⟩
        rw [edited, if_pos touched]
        refine ⟨?_, fun _ changed => nomatch changed⟩
        rw [show info.size = Length.ofChars own from h.1, place,
          Replacement.carryEnd_position last text atEnd, carried,
          Replacement.mapPosition_ofChars (by rw [text, List.append_assoc]),
          Length.ofChars_append_sub]
      | cons child rest =>
        obtain ⟨own', post', new, carried, all⟩ :=
          spells_editedList ih (List.cons_ne_nil _ _) text atEnd h.2
        refine ⟨own', post', new, carried, ?_⟩
        rw [edited_of_touches touched]
        have short : IsShort r.new := r.new_short
        rw [new] at short
        exact ⟨sum_of_spellAll short.right.left all, all⟩
    · rw [edited_of_not_touches touched]
      obtain ⟨post', new, carried, spells⟩ := spells_untouched text atEnd h
        (Replacement.leavesAlone_of_not_touches text h.size touched)
      exact ⟨own, post', new, carried, spells⟩

theorem isChanged_edited {edit : Edit} {start : Length} {info : SubtreeInfo}
    (touched : edit.touches start.bytes (start + info.size).bytes info.lookahead = true) :
    ((node info trees).edited edit start last).isChanged = true := by
  cases trees with
  | nil =>
    rw [edited, if_pos touched]
    rfl
  | cons child rest =>
    rw [edited_of_touches touched]
    rfl

def KeepsIn (tree edited : Subtree) (r : Replacement) (pre : List Char) : Prop :=
  ∀ path offset found, edited.at? path = some (offset, found) → found.isChanged = false →
    ∃ before behind, r.old = pre ++ (before ++ behind) ∧
      tree.at? path = some (Length.ofChars before, found) ∧
      Length.ofChars (r.carry pre) ++ offset = Length.ofChars (r.carry (pre ++ before)) ∧
      r.LeavesAlone (pre ++ before) (found.size.bytes + found.lookahead)

theorem keepsIn_untouched (text : r.old = pre ++ (own ++ post)) (h : tree.Spells own post)
    (bounded : tree.Bounded) (alone : r.LeavesAlone pre (tree.size.bytes + tree.lookahead)) :
    tree.KeepsIn tree r pre := by
  intro path offset found there unchanged
  obtain ⟨before, inner, after, rfl, rfl, spells⟩ := h.at? there
  have inside := bounded.includes path _ found there unchanged
  rw [List.append_assoc] at text
  refine ⟨before, _, text, there, ?_, (alone.mono ?_).append before⟩
  · rw [← Length.ofChars_append, (alone.mono ?_).carry_append text]
    omega
  · omega

def KeptByEdit (tree : Subtree) (r : Replacement) : Prop :=
  ∀ (pre own post : List Char) (last : Bool), r.old = pre ++ (own ++ post) →
    (last = true → post = []) → tree.Spells own post → tree.Bounded →
    tree.KeepsIn (tree.edited r.edit (Length.ofChars pre) last) r pre

/-- An edited child is the edit of the child at the same index, which spells its part of the text and
stands where the edit moves what is before it. -/
theorem exists_of_editedList (text : r.old = pre ++ (own ++ post))
    (atEnd : last = true → post = []) (h : SpellAll trees own post) {i : Nat} {child' : Subtree}
    (here : (editedList r.edit (Length.ofChars pre) last trees)[i]? = some child') :
    ∃ child front piece behind last', trees[i]? = some child ∧
      r.old = pre ++ front ++ (piece ++ behind) ∧ (last' = true → behind = []) ∧
      child.Spells piece behind ∧
      child' = child.edited r.edit (Length.ofChars (pre ++ front)) last' ∧
      Length.concat ((trees.take i).map (·.size)) = Length.ofChars front ∧
      Length.ofChars (r.carry pre) ++ Length.concat
        (((editedList r.edit (Length.ofChars pre) last trees).take i).map (·.size)) =
          Length.ofChars (r.carry (pre ++ front)) := by
  induction trees generalizing pre own i with
  | nil => simp [editedList] at here
  | cons first rest ih =>
    obtain ⟨piece, back, rfl, spells, all⟩ := h
    rw [List.append_assoc] at text
    cases i with
    | zero =>
      cases here
      refine ⟨first, [], piece, back ++ post, _, rfl, by rwa [List.append_nil], ?_, spells,
        by rw [List.append_nil], rfl, by simp⟩
      intro isLast
      obtain ⟨isLast, alone⟩ := Bool.and_eq_true_iff.1 isLast
      rw [List.isEmpty_iff.1 alone] at all
      rw [show back = [] from all, atEnd isLast]
      rfl
    | succ i =>
      have more : rest ≠ [] := by
        rintro rfl
        simp [editedList] at here
      have notLast : (last && rest.isEmpty) = false := by simp [more]
      obtain ⟨piece', _, _, carried, spells'⟩ :=
        spells_edited first pre piece (back ++ post) false text (by simp) spells
      have place : Length.ofChars pre + first.size = Length.ofChars (pre ++ piece) := by
        rw [spells.size, Replacement.add_old text]
      have moved : r.carry (pre ++ piece) = r.carry pre ++ piece' := carried
      rw [← List.append_assoc] at text
      rw [editedList, place, List.getElem?_cons_succ] at here
      obtain ⟨child, front, own', behind, last', found, cut, ends, below, same, before, before'⟩ :=
        ih text all here
      rw [List.append_assoc pre] at cut same before'
      refine ⟨child, piece ++ front, own', behind, last', by simpa using found, cut, ends, below,
        same, ?_, ?_⟩
      · rw [List.take_succ_cons, List.map_cons, Length.concat_cons, before, spells.size,
          Length.ofChars_append]
      · rw [← before', moved, Length.ofChars_append, editedList, place, List.take_succ_cons,
          List.map_cons, Length.concat_cons, notLast, spells'.size, Length.append_assoc]

theorem keepsIn_edited (tree : Subtree) : tree.KeptByEdit r := by
  induction tree with
  | node info children ih =>
    intro pre own post last text atEnd h bounded
    by_cases touched : r.edit.touches (Length.ofChars pre).bytes
        (Length.ofChars pre + info.size).bytes info.lookahead = true
    · intro path offset found there unchanged
      cases path with
      | nil =>
        cases there
        rw [isChanged_edited touched] at unchanged
        contradiction
      | cons i path =>
        cases children with
        | nil =>
          rw [edited, if_pos touched] at there
          obtain ⟨child, _, here, _⟩ := at?_cons.1 there
          simp [Subtree.children] at here
        | cons child rest =>
          rw [edited_of_touches touched] at there
          obtain ⟨child', inner', here, below, rfl⟩ := at?_cons.1 there
          obtain ⟨child, front, piece, rear, last', there, cut, ends, spells, rfl, place, place'⟩ :=
            exists_of_editedList text atEnd h.2 here
          have member := List.mem_of_getElem? there
          obtain ⟨before, behind, cut, below, carried, alone⟩ :=
            ih child member (pre ++ front) piece rear last' cut ends spells (bounded.child member)
              path inner' found below unchanged
          refine ⟨front ++ before, behind, ?_, at?_cons.2 ⟨child, _, there, below, ?_⟩, ?_, ?_⟩
          · simpa using cut
          · rw [Subtree.children, place, Length.ofChars_append]
          · rw [← Length.append_assoc, Subtree.children, place', carried, List.append_assoc]
          · rwa [← List.append_assoc]
    · rw [edited_of_not_touches touched]
      exact keepsIn_untouched text h bounded (Replacement.leavesAlone_of_not_touches text h.size touched)

theorem lookahead_edited (edit : Edit) (start : Length) (last : Bool) (tree : Subtree) :
    (tree.edited edit start last).lookahead = tree.lookahead := by
  obtain ⟨info, children⟩ := tree
  cases children <;> (unfold edited; dsimp only; split <;> rfl)

theorem includes_edited (text : r.old = pre ++ (own ++ post)) (atEnd : last = true → post = [])
    (h : tree.Spells own post) (bounded : tree.Bounded) :
    (tree.edited r.edit (Length.ofChars pre) last).Includes := by
  intro path offset found there unchanged
  obtain ⟨before, behind, cut, below, place, alone⟩ :=
    keepsIn_edited tree pre own post last text atEnd h bounded path offset found there unchanged
  have inside := bounded.includes path _ found below unchanged
  have within : (Length.ofChars before).bytes ≤ (Length.ofChars own).bytes := by
    obtain ⟨_, _, _, whole, distance, _⟩ := h.at? below
    rw [whole, distance, Length.bytes_ofChars_append]
    exact Nat.le_add_right _ _
  obtain ⟨own', _, _, carried, spells⟩ := spells_edited tree pre own post last text atEnd h
  rw [← List.append_assoc] at text cut
  have atCut := Replacement.bytes_carry cut
  have atStop := Replacement.bytes_carry text
  have stop := Replacement.bytes_carry_le_carryEnd last text
  have position := congrArg (·.bytes) place
  rw [h.size] at inside
  rw [spells.size, lookahead_edited]
  rw [carried] at stop
  unfold Replacement.LeavesAlone at alone
  have order := r.start_le_oldEnd
  have order' := r.start_le_newEnd
  simp only [Length.bytes_ofChars_append, Length.bytes_append] at *
  split at atCut <;> split at atStop <;> omega

theorem sound_edited {table : Table} (tree : Subtree) :
    ∀ (pre own post : List Char) (last : Bool), r.old = pre ++ (own ++ post) →
      (last = true → post = []) → tree.Spells own post → tree.Sound table →
      (tree.edited r.edit (Length.ofChars pre) last).Sound table := by
  induction tree with
  | node info children ih =>
    intro pre own post last text atEnd h sound
    by_cases touched : r.edit.touches (Length.ofChars pre).bytes
        (Length.ofChars pre + info.size).bytes info.lookahead = true
    · have includes := includes_edited text atEnd h sound.bounded
      cases children with
      | nil =>
        rw [edited, if_pos touched] at includes ⊢
        exact ⟨every_node.2 ⟨by simp, by simp⟩, every_node.2 ⟨includes, by simp⟩,
          every_node.2 ⟨fun changed => (nomatch changed), by simp⟩⟩
      | cons child rest =>
        rw [edited_of_touches touched] at includes ⊢
        have below : ∀ child' ∈ editedList r.edit (Length.ofChars pre) last (child :: rest),
            child'.Sound table := by
          intro child' member
          obtain ⟨i, here⟩ := List.mem_iff_getElem?.1 member
          obtain ⟨child, front, piece, behind, last', there, text', atEnd', spells, rfl, _⟩ :=
            exists_of_editedList text atEnd h.2 here
          have there := List.mem_of_getElem? there
          exact ih child there (pre ++ front) piece behind last' text' atEnd' spells
            (sound.child there)
        exact ⟨every_node.2 ⟨fun _ _ _ => rfl, fun child member => (below child member).marked⟩,
          every_node.2 ⟨includes, fun child member => (below child member).bounded⟩,
          every_node.2 ⟨fun changed => (nomatch changed),
            fun child member => (below child member).hollow⟩⟩
    · rwa [edited_of_not_touches touched]

end Subtree

namespace Tree

variable {r : Replacement} {tree : Tree} {table : Table}

theorem spells_edit (h : tree.root.Spells r.old []) :
    (tree.edit r.edit).root.Spells r.new [] := by
  obtain ⟨own', post', new, carried, spells⟩ :=
    Subtree.spells_edited tree.root [] r.old [] true (r := r) (by simp) (fun _ => rfl) h
  have whole : r.new = own' := by simpa [Replacement.carryEnd] using carried
  rw [Replacement.carry_nil, List.nil_append, ← whole] at new
  have none : post' = [] := List.append_right_eq_self.1 new.symm
  rw [none, ← whole] at spells
  exact spells

theorem sound_edit (h : tree.root.Spells r.old []) (sound : tree.root.Sound table) :
    (tree.edit r.edit).root.Sound table :=
  Subtree.sound_edited tree.root [] r.old [] true (by simp) (fun _ => rfl) h sound

end Tree

end IncrementalGlr
