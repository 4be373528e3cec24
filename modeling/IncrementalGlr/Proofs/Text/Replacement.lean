import IncrementalGlr.Proofs.Text.Agreement

/-!
# Replacements

Every edit that is made of offsets is one of whole characters: a part of the text between two others
is replaced. A cut of the old text is carried to a cut of the new one, as `Edit.mapPosition` says in
numbers.
-/

namespace IncrementalGlr

structure Replacement where
  before : List Char
  removed : List Char
  inserted : List Char
  after : List Char
  old_short : IsShort (before ++ (removed ++ after))
  new_short : IsShort (before ++ (inserted ++ after))

namespace Replacement

def old (r : Replacement) : List Char := r.before ++ (r.removed ++ r.after)

def new (r : Replacement) : List Char := r.before ++ (r.inserted ++ r.after)

def edit (r : Replacement) : Edit :=
  ⟨Length.ofChars r.before, Length.ofChars (r.before ++ r.removed),
    Length.ofChars (r.before ++ r.inserted)⟩

theorem add_old {r : Replacement} {pre own post : List Char} (text : r.old = pre ++ (own ++ post)) :
    Length.ofChars pre + Length.ofChars own = Length.ofChars (pre ++ own) := by
  have short : IsShort r.old := r.old_short
  rw [text, ← List.append_assoc] at short
  exact short.left.add

theorem start_le_oldEnd (r : Replacement) : r.edit.start.bytes ≤ r.edit.oldEnd.bytes := by
  simp only [edit, Length.bytes_ofChars_append]
  exact Nat.le_add_right _ _

theorem start_le_newEnd (r : Replacement) : r.edit.start.bytes ≤ r.edit.newEnd.bytes := by
  simp only [edit, Length.bytes_ofChars_append]
  exact Nat.le_add_right _ _

theorem exists_of_apply {text : String} (short : IsShort text.toList) {start oldEnd : Nat}
    {inserted : String} (short' : IsShort (Edit.apply text start oldEnd inserted).1.toList) :
    ∃ r : Replacement, text.toList = r.old ∧ (Edit.apply text start oldEnd inserted).2 = r.edit ∧
      (Edit.apply text start oldEnd inserted).1.toList = r.new := by
  have order : min start (min oldEnd text.utf8ByteSize) ≤ min oldEnd text.utf8ByteSize :=
    Nat.min_le_right _ _
  obtain ⟨removed, upTo⟩ := takeBytes_prefix order text.toList
  have whole := takeBytes_append_dropBytes (min oldEnd text.utf8ByteSize) text.toList
  generalize cutA : takeBytes (min start (min oldEnd text.utf8ByteSize)) text.toList = before at *
  generalize cutB : dropBytes (min oldEnd text.utf8ByteSize) text.toList = after at *
  rw [upTo, List.append_assoc] at whole
  have cut : IsShort (before ++ removed ++ after) := by
    rw [List.append_assoc, whole]
    exact short
  have new : (Edit.apply text start oldEnd inserted).1.toList =
      before ++ (inserted.toList ++ after) := by
    have front := takeBytes_append before (removed ++ after)
    have back := dropBytes_append (before ++ removed) after
    rw [List.append_assoc] at back
    simp only [Edit.apply, Edit.replace, cutA, upTo, String.toList_ofList,
      cut.left.isWord.saturated, cut.left.left.isWord.saturated]
    rw [← whole, front, back, List.append_assoc]
  rw [new] at short'
  refine ⟨⟨before, removed, inserted.toList, after, whole ▸ short, short'⟩, whole.symm, ?_, new⟩
  have inside := short'
  rw [← List.append_assoc] at inside
  simp only [Edit.apply, Edit.replace, edit, cutA, upTo, cut.left.isWord.saturated,
    cut.left.left.isWord.saturated, inside.left.right.ofText, inside.left.add]

def carry (r : Replacement) (pre : List Char) : List Char :=
  if (Length.ofChars pre).bytes ≤ (Length.ofChars r.before).bytes then pre
  else r.before ++ (r.inserted ++ pre.drop (r.before ++ r.removed).length)

def carryEnd (r : Replacement) (last : Bool) (pre : List Char) : List Char :=
  if last then r.new else r.carry pre

variable {r : Replacement} {pre own post : List Char}

theorem carry_before {x : List Char} (h : r.before = pre ++ x) : r.carry pre = pre := by
  rw [carry, if_pos]
  rw [h, Length.bytes_ofChars_append]
  omega

@[simp] theorem carry_nil (r : Replacement) : r.carry [] = [] :=
  carry_before (List.nil_append _).symm

theorem carry_inside {d : List Char} (inside : d ≠ []) {e : List Char}
    (removed : r.removed = d ++ e) : r.carry (r.before ++ d) = r.before ++ r.inserted := by
  have positive : 0 < (Length.ofChars d).bytes :=
    Nat.pos_of_ne_zero fun zero => inside (Length.eq_nil_of_bytes_ofChars zero)
  rw [carry, if_neg (by rw [Length.bytes_ofChars_append]; omega), List.drop_eq_nil_of_le,
    List.append_nil]
  rw [removed]
  simp

theorem carry_behind {b : List Char} (behind : r.removed ++ b ≠ []) :
    r.carry (r.before ++ (r.removed ++ b)) = r.before ++ (r.inserted ++ b) := by
  have positive : 0 < (Length.ofChars (r.removed ++ b)).bytes :=
    Nat.pos_of_ne_zero fun zero => behind (Length.eq_nil_of_bytes_ofChars zero)
  have whole : r.before ++ (r.removed ++ b) = r.before ++ r.removed ++ b := by simp
  rw [carry, if_neg (by rw [Length.bytes_ofChars_append]; omega), whole, List.drop_left]

theorem cut_cases (text : r.old = pre ++ post) :
    (∃ x, r.before = pre ++ x ∧ post = x ++ (r.removed ++ r.after)) ∨
    (∃ d e, d ≠ [] ∧ r.removed = d ++ e ∧ pre = r.before ++ d ∧ post = e ++ r.after) ∨
    (∃ b, r.removed ++ b ≠ [] ∧ pre = r.before ++ (r.removed ++ b) ∧ r.after = b ++ post) := by
  rcases List.append_eq_append_iff.1 text with ⟨d, rfl, rest⟩ | ⟨x, left, right⟩
  · by_cases none : d = []
    · subst none
      exact .inl ⟨[], by simp, by simpa using rest.symm⟩
    · rcases List.append_eq_append_iff.1 rest with ⟨b, rfl, after⟩ | ⟨e, removed, post⟩
      · exact .inr (.inr ⟨b, none, rfl, after⟩)
      · exact .inr (.inl ⟨d, e, none, removed, rfl, post⟩)
  · exact .inl ⟨x, left, right⟩

theorem newEnd_add {b c : List Char} (after : r.after = b ++ c) :
    r.edit.newEnd + Length.ofChars b = Length.ofChars (r.before ++ (r.inserted ++ b)) := by
  have short := r.new_short
  rw [after, ← List.append_assoc, ← List.append_assoc] at short
  rw [edit, short.left.add, List.append_assoc]

theorem mapPosition_ofChars (text : r.old = pre ++ post) :
    r.edit.mapPosition (Length.ofChars pre) = Length.ofChars (r.carry pre) := by
  rcases cut_cases text with ⟨x, before, _⟩ | ⟨d, e, some, removed, rfl, _⟩ |
    ⟨b, some, rfl, after⟩
  · rw [carry_before before, Edit.mapPosition, if_pos]
    simp only [edit, before, Length.bytes_ofChars_append]
    omega
  · have positive : 0 < (Length.ofChars d).bytes :=
      Nat.pos_of_ne_zero fun zero => some (Length.eq_nil_of_bytes_ofChars zero)
    rw [carry_inside some removed, Edit.mapPosition, if_neg]
    · split
      · next reached =>
          have none : e = [] := by
            apply Length.eq_nil_of_bytes_ofChars
            simp only [edit, removed, Length.bytes_ofChars_append] at reached
            omega
          subst none
          rw [List.append_nil] at removed
          have nothing : Length.ofChars (r.before ++ d) - r.edit.oldEnd = Length.ofChars [] := by
            rw [edit, removed]
            simpa using Length.ofChars_append_sub (r.before ++ d) []
          rw [nothing, newEnd_add (List.nil_append _).symm, List.append_nil]
      · rfl
    · simp only [edit, Length.bytes_ofChars_append]
      omega
  · have positive : 0 < (Length.ofChars (r.removed ++ b)).bytes :=
      Nat.pos_of_ne_zero fun zero => some (Length.eq_nil_of_bytes_ofChars zero)
    rw [carry_behind some, Edit.mapPosition, if_neg, if_pos]
    · have further : Length.ofChars (r.before ++ (r.removed ++ b)) - r.edit.oldEnd =
          Length.ofChars b := by
        rw [edit, ← List.append_assoc, Length.ofChars_append_sub]
      rw [further, newEnd_add after]
    · simp only [edit, Length.bytes_ofChars_append]
      omega
    · simp only [edit, Length.bytes_ofChars_append] at positive ⊢
      omega

theorem carryEnd_position (last : Bool) (text : r.old = pre ++ post)
    (atEnd : last = true → post = []) :
    (if last then r.edit.newEnd + (Length.ofChars pre - r.edit.oldEnd)
      else r.edit.mapPosition (Length.ofChars pre)) = Length.ofChars (r.carryEnd last pre) := by
  cases last with
  | false => exact mapPosition_ofChars text
  | true =>
    rw [atEnd rfl, List.append_nil] at text
    have rest : Length.ofChars pre - r.edit.oldEnd = Length.ofChars r.after := by
      rw [← text, old, edit, ← List.append_assoc, Length.ofChars_append_sub]
    rw [if_pos rfl, carryEnd, if_pos rfl, rest, newEnd_add (List.append_nil _).symm, new]

theorem bytes_carry (text : r.old = pre ++ post) :
    (Length.ofChars (r.carry pre)).bytes =
      if (Length.ofChars pre).bytes ≤ r.edit.start.bytes then (Length.ofChars pre).bytes
      else r.edit.newEnd.bytes + ((Length.ofChars pre).bytes - r.edit.oldEnd.bytes) := by
  rcases cut_cases text with ⟨x, before, _⟩ | ⟨d, e, some, removed, rfl, _⟩ | ⟨b, some, rfl, _⟩
  · rw [carry_before before, if_pos]
    simp only [edit, before, Length.bytes_ofChars_append]
    omega
  · have positive : 0 < (Length.ofChars d).bytes :=
      Nat.pos_of_ne_zero fun zero => some (Length.eq_nil_of_bytes_ofChars zero)
    rw [carry_inside some removed, if_neg] <;>
      simp only [edit, removed, Length.bytes_ofChars_append] <;> omega
  · have positive : 0 < (Length.ofChars (r.removed ++ b)).bytes :=
      Nat.pos_of_ne_zero fun zero => some (Length.eq_nil_of_bytes_ofChars zero)
    rw [carry_behind some, if_neg] <;>
      simp only [edit, Length.bytes_ofChars_append] at positive ⊢ <;> omega

theorem exists_rest (text : r.old = pre ++ post) : ∃ rest, r.new = r.carry pre ++ rest := by
  rcases cut_cases text with ⟨x, before, _⟩ | ⟨d, e, some, removed, rfl, _⟩ | ⟨b, some, rfl, after⟩
  · exact ⟨x ++ (r.inserted ++ r.after), by rw [carry_before before, new, before]; simp⟩
  · exact ⟨r.after, by rw [carry_inside some removed, new]; simp⟩
  · exact ⟨post, by rw [carry_behind some, new, after]; simp⟩

theorem bytes_carry_le_carryEnd (last : Bool) (text : r.old = pre ++ post) :
    (Length.ofChars (r.carry pre)).bytes ≤ (Length.ofChars (r.carryEnd last pre)).bytes := by
  cases last with
  | false => exact Nat.le_refl _
  | true =>
    obtain ⟨rest, new⟩ := exists_rest text
    rw [carryEnd, if_pos rfl, new, Length.bytes_ofChars_append]
    exact Nat.le_add_right _ _

theorem exists_carried (last : Bool) (text : r.old = pre ++ (own ++ post)) :
    ∃ own' post', r.new = r.carry pre ++ (own' ++ post')
      ∧ r.carryEnd last (pre ++ own) = r.carry pre ++ own' := by
  obtain ⟨rest, new⟩ := exists_rest text
  cases last with
  | true => exact ⟨rest, [], by simpa using new, new⟩
  | false =>
    rw [← List.append_assoc] at text
    obtain ⟨rest', new'⟩ := exists_rest text
    have order : (Length.ofChars (r.carry pre)).bytes ≤
        (Length.ofChars (r.carry (pre ++ own))).bytes := by
      rw [bytes_carry text, bytes_carry (by rw [text, List.append_assoc]),
        Length.bytes_ofChars_append]
      have := r.start_le_newEnd
      split <;> split <;> omega
    obtain ⟨own', carried, remaining⟩ := exists_between_cuts (new.symm.trans new') order
    exact ⟨own', rest', by rw [new, remaining], carried⟩

def LeavesAlone (r : Replacement) (pre : List Char) (reach : Nat) : Prop :=
  (Length.ofChars pre).bytes + reach < r.edit.start.bytes
    ∨ r.edit.oldEnd.bytes < (Length.ofChars pre).bytes

theorem leavesAlone_of_not_touches {size : Length} {lookahead : Nat}
    (text : r.old = pre ++ (own ++ post)) (covers : size = Length.ofChars own)
    (h : ¬ r.edit.touches (Length.ofChars pre).bytes (Length.ofChars pre + size).bytes lookahead
      = true) : r.LeavesAlone pre (size.bytes + lookahead) := by
  rw [covers, add_old text, Length.bytes_ofChars_append, ← covers] at h
  simp only [Edit.touches, Bool.and_eq_true, decide_eq_true_eq] at h
  unfold LeavesAlone
  omega

theorem LeavesAlone.append {reach : Nat} (own : List Char)
    (h : r.LeavesAlone pre ((Length.ofChars own).bytes + reach)) :
    r.LeavesAlone (pre ++ own) reach := by
  unfold LeavesAlone at h ⊢
  rw [Length.bytes_ofChars_append]
  omega

theorem LeavesAlone.mono {reach less : Nat} (h : r.LeavesAlone pre reach) (le : less ≤ reach) :
    r.LeavesAlone pre less := by
  unfold LeavesAlone at h ⊢
  omega

theorem in_front {reach : Nat} (text : r.old = pre ++ post)
    (front : (Length.ofChars pre).bytes + reach < r.edit.start.bytes) :
    ∃ x, r.before = pre ++ x ∧ post = x ++ (r.removed ++ r.after)
      ∧ reach < (Length.ofChars x).bytes := by
  obtain ⟨x, before, rest⟩ := exists_between_cuts text.symm (Nat.le_of_lt
    (Nat.lt_of_le_of_lt (Nat.le_add_right _ reach) front))
  refine ⟨x, before, rest, ?_⟩
  simp only [edit, before, Length.bytes_ofChars_append] at front
  omega

theorem behind (text : r.old = pre ++ post)
    (back : r.edit.oldEnd.bytes < (Length.ofChars pre).bytes) :
    ∃ b, b ≠ [] ∧ pre = r.before ++ (r.removed ++ b) ∧ r.after = b ++ post := by
  rw [old, ← List.append_assoc] at text
  obtain ⟨b, cut, after⟩ := exists_between_cuts text (Nat.le_of_lt back)
  have some : b ≠ [] := by
    rintro rfl
    rw [cut, List.append_nil] at back
    exact Nat.lt_irrefl _ back
  rw [List.append_assoc] at cut
  exact ⟨b, some, cut, after⟩

theorem LeavesAlone.carry_append (h : r.LeavesAlone pre (Length.ofChars own).bytes)
    (text : r.old = pre ++ (own ++ post)) : r.carry (pre ++ own) = r.carry pre ++ own := by
  rcases h with front | back
  · obtain ⟨x, before, rest, further⟩ := in_front text front
    obtain ⟨y, cut, _⟩ := exists_between_cuts rest (Nat.le_of_lt further)
    rw [carry_before before]
    exact carry_before (by rw [before, cut, List.append_assoc])
  · obtain ⟨b, some, rfl, _⟩ := behind text back
    have further : r.carry (r.before ++ (r.removed ++ (b ++ own))) =
        r.before ++ (r.inserted ++ (b ++ own)) := carry_behind (by simp [some])
    rw [carry_behind (by simp [some])]
    simpa using further

theorem LeavesAlone.agree {reach : Nat} (h : r.LeavesAlone pre reach)
    (text : r.old = pre ++ post) : ∃ post', r.new = r.carry pre ++ post' ∧
      Agree reach post post' ∧ (post = [] → post' = []) := by
  rcases h with front | back
  · obtain ⟨x, before, rfl, further⟩ := in_front text front
    refine ⟨x ++ (r.inserted ++ r.after), ?_, agree_append (Nat.le_of_lt further) _ _, ?_⟩
    · rw [carry_before before, new, before]
      simp
    · intro none
      have empty : x = [] := (List.append_eq_nil_iff.1 none).1
      subst empty
      simp at further
  · obtain ⟨b, some, rfl, after⟩ := behind text back
    refine ⟨post, ?_, Agree.refl reach post, id⟩
    rw [carry_behind (by simp [some]), new, after]
    simp

end Replacement

end IncrementalGlr
