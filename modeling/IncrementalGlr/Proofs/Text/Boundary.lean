import IncrementalGlr.Text.Edit

/-!
# Character boundaries

A place in a text is a way to cut its characters in two. The laws below say that the byte offset of
a cut determines it, and that positions, sizes and the cells of a source follow the cut.
-/

namespace IncrementalGlr

theorem toWord_of_lt {n : Nat} (word : n < UInt32.size) : toWord n = n :=
  Nat.min_eq_left (Nat.le_sub_one_of_lt word)

namespace Length

variable {a b : Length} {lengths others : List Length}

theorem append_sub_cancel_left (a b : Length) : a ++ b - a = b := by
  obtain ⟨bytesA, rowA, columnA⟩ := a
  obtain ⟨bytesB, rowB, columnB⟩ := b
  simp only [append_def, sub_def, append, sub]
  rcases Nat.eq_zero_or_pos rowB with rfl | positive
  · simp
  · simp [positive]

@[simp] theorem bytes_zero : zero.bytes = 0 := rfl

@[simp] theorem bytes_ofChar (c : Char) : (ofChar c).bytes = c.utf8Size := by
  unfold ofChar
  split
  · next h => rw [h]; rfl
  · rfl

theorem ofChars_append_sub (a b : List Char) : ofChars (a ++ b) - ofChars a = ofChars b := by
  rw [ofChars_append, append_sub_cancel_left]

theorem bytes_ofChars_append (a b : List Char) :
    (ofChars (a ++ b)).bytes = (ofChars a).bytes + (ofChars b).bytes := by
  rw [ofChars_append, bytes_append]

theorem eq_nil_of_bytes_ofChars {cs : List Char} (h : (ofChars cs).bytes = 0) : cs = [] := by
  cases cs with
  | nil => rfl
  | cons c cs =>
    have := c.utf8Size_pos
    simp at h
    omega

@[simp] theorem concat_nil : concat [] = zero := rfl

@[simp] theorem concat_cons (a : Length) (lengths : List Length) :
    concat (a :: lengths) = a ++ concat lengths := rfl

theorem concat_append (lengths others : List Length) :
    concat (lengths ++ others) = concat lengths ++ concat others := by
  induction lengths with
  | nil => simp
  | cons a lengths ih => simp [ih, append_assoc]

structure IsWord (a : Length) : Prop where
  bytes : a.bytes < UInt32.size
  row : a.extent.row < UInt32.size
  column : a.extent.column < UInt32.size

theorem IsWord.wrapped (h : a.IsWord) : a.wrapped = a := by
  rw [Length.wrapped, Nat.mod_eq_of_lt h.bytes, Nat.mod_eq_of_lt h.row, Nat.mod_eq_of_lt h.column]

theorem IsWord.saturated (h : a.IsWord) : a.saturated = a := by
  rw [Length.saturated, toWord_of_lt h.bytes, toWord_of_lt h.row, toWord_of_lt h.column]

theorem isWord_wrapped (a : Length) : a.wrapped.IsWord :=
  ⟨Nat.mod_lt _ (by decide), Nat.mod_lt _ (by decide), Nat.mod_lt _ (by decide)⟩

theorem add_eq_append (h : (a ++ b).IsWord) : a + b = a ++ b := h.wrapped

theorem wrapped_append (a b : Length) : (a.wrapped ++ b).wrapped = (a ++ b).wrapped := by
  simp only [append_def, append, wrapped]
  split <;> simp

theorem foldl_add (lengths : List Length) (a : Length) :
    (lengths.foldl (· + ·) a).wrapped = (a ++ concat lengths).wrapped := by
  induction lengths generalizing a with
  | nil => simp
  | cons b lengths ih =>
    rw [List.foldl_cons, ih, concat_cons, ← append_assoc, add_def, wrapped_append]

theorem sum_eq_wrapped (lengths : List Length) : sum lengths = (concat lengths).wrapped := by
  have words : (sum lengths).IsWord := by
    rw [sum]
    refine List.foldlRecOn (motive := IsWord) lengths _ ?_ fun _ _ _ _ => isWord_wrapped _
    exact ⟨by decide, by decide, by decide⟩
  rw [← words.wrapped, sum, foldl_add, zero_append]

theorem row_ofChars_le (cs : List Char) : (ofChars cs).extent.row ≤ (ofChars cs).bytes := by
  induction cs with
  | nil => exact Nat.le_refl _
  | cons c cs ih =>
    have own : (ofChar c).extent.row ≤ c.utf8Size := by
      unfold ofChar
      split
      · exact c.utf8Size_pos
      · exact Nat.zero_le _
    simp only [ofChars_cons, append_def, append, bytes_ofChar]
    split <;> simp only <;> omega

theorem column_ofChars_le (cs : List Char) : (ofChars cs).extent.column ≤ (ofChars cs).bytes := by
  induction cs with
  | nil => exact Nat.le_refl _
  | cons c cs ih =>
    have own : (ofChar c).extent.column ≤ c.utf8Size := by
      unfold ofChar
      split <;> simp
    simp only [ofChars_cons, append_def, append, bytes_ofChar]
    split <;> simp only <;> omega

end Length

def IsShort (cs : List Char) : Prop := (Length.ofChars cs).bytes < UInt32.size

instance (cs : List Char) : Decidable (IsShort cs) :=
  inferInstanceAs (Decidable (_ < UInt32.size))

namespace IsShort

variable {front back : List Char}

theorem left (h : IsShort (front ++ back)) : IsShort front := by
  rw [IsShort, Length.bytes_ofChars_append] at h
  exact Nat.lt_of_le_of_lt (Nat.le_add_right _ _) h

theorem right (h : IsShort (front ++ back)) : IsShort back := by
  rw [IsShort, Length.bytes_ofChars_append] at h
  exact Nat.lt_of_le_of_lt (Nat.le_add_left _ _) h

theorem isWord {cs : List Char} (h : IsShort cs) : (Length.ofChars cs).IsWord :=
  ⟨h, Nat.lt_of_le_of_lt (Length.row_ofChars_le cs) h,
    Nat.lt_of_le_of_lt (Length.column_ofChars_le cs) h⟩

theorem add (h : IsShort (front ++ back)) :
    Length.ofChars front + Length.ofChars back = Length.ofChars (front ++ back) := by
  rw [Length.ofChars_append]
  refine Length.add_eq_append ?_
  rw [← Length.ofChars_append]
  exact h.isWord

theorem ofText {text : String} (h : IsShort text.toList) :
    Length.ofText text = Length.ofChars text.toList := h.isWord.saturated

end IsShort

section Cuts

variable {a b c d : List Char}

theorem exists_between_cuts (text : a ++ b = c ++ d)
    (le : (Length.ofChars a).bytes ≤ (Length.ofChars c).bytes) :
    ∃ between, c = a ++ between ∧ b = between ++ d := by
  rcases List.append_eq_append_iff.1 text with ⟨between, left, right⟩ | ⟨between, left, right⟩
  · exact ⟨between, left, right⟩
  · have none : between = [] := by
      apply Length.eq_nil_of_bytes_ofChars
      rw [left, Length.bytes_ofChars_append] at le
      omega
    subst none
    exact ⟨[], by simpa using left.symm, by simpa using right.symm⟩

theorem cut_unique (text : a ++ b = c ++ d)
    (same : (Length.ofChars a).bytes = (Length.ofChars c).bytes) : a = c ∧ b = d := by
  obtain ⟨between, left, right⟩ := exists_between_cuts text (Nat.le_of_eq same)
  have none : between = [] := by
    apply Length.eq_nil_of_bytes_ofChars
    rw [left, Length.bytes_ofChars_append] at same
    omega
  subst none
  exact ⟨by simpa using left.symm, by simpa using right⟩

end Cuts

theorem takeBytes_append (a b : List Char) :
    takeBytes (Length.ofChars a).bytes (a ++ b) = a := by
  induction a with
  | nil =>
    cases b with
    | nil => rfl
    | cons c b =>
      have := c.utf8Size_pos
      simp only [List.nil_append, Length.ofChars_nil, Length.bytes_zero, takeBytes]
      rw [if_neg (by omega)]
  | cons c a ih =>
    simp only [List.cons_append, takeBytes, Length.ofChars_cons, Length.bytes_append,
      Length.bytes_ofChar, Nat.le_add_right, if_true, Nat.add_sub_cancel_left, ih]

theorem dropBytes_append (a b : List Char) :
    dropBytes (Length.ofChars a).bytes (a ++ b) = b := by
  have whole := takeBytes_append_dropBytes (Length.ofChars a).bytes (a ++ b)
  rw [takeBytes_append] at whole
  exact List.append_cancel_left whole

theorem takeBytes_prefix {few many : Nat} (le : few ≤ many) (cs : List Char) :
    ∃ between, takeBytes many cs = takeBytes few cs ++ between := by
  induction cs generalizing few many with
  | nil => exact ⟨[], rfl⟩
  | cons c cs ih =>
    by_cases fits : c.utf8Size ≤ few
    · obtain ⟨between, eq⟩ := ih (Nat.sub_le_sub_right le c.utf8Size)
      refine ⟨between, ?_⟩
      simp only [takeBytes, if_pos fits, if_pos (Nat.le_trans fits le), eq, List.cons_append]
    · refine ⟨takeBytes many (c :: cs), ?_⟩
      simp only [takeBytes, if_neg fits, List.nil_append]

theorem layout_append (a b : List Char) : layout (a ++ b) = layout a ++ layout b :=
  List.flatMap_append

theorem length_layout (cs : List Char) : (layout cs).length = (Length.ofChars cs).bytes := by
  induction cs with
  | nil => rfl
  | cons c cs ih =>
    have := c.utf8Size_pos
    simp only [layout] at ih
    simp [layout, cellsOfChar, ih]
    omega

namespace Source

theorem size_eq (source : Source) : source.size = (Length.ofChars source.text.toList).bytes := by
  rw [size, source.cells_eq, List.size_toArray, length_layout]

theorem isShort_iff {source : Source} :
    IsShort source.text.toList ↔ source.size < UInt32.size := by
  rw [IsShort, size_eq]

theorem charAt?_cut {source : Source} {a b : List Char} (text : source.text.toList = a ++ b) :
    source.charAt? (Length.ofChars a).bytes = b.head? := by
  rw [charAt?, source.cells_eq, text, layout_append, ← length_layout]
  cases b with
  | nil => simp [layout]
  | cons c b => simp [layout, cellsOfChar]

end Source

end IncrementalGlr
