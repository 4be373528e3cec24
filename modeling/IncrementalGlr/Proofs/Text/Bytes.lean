import Mathlib.Data.List.TakeWhile
import IncrementalGlr.Proofs.Text.Cursor

/-!
# Positions by byte

Texts measured and walked through byte by byte: rows as the line breaks among the bytes, columns as
the bytes behind the last of them, and characters decoded from as many bytes as the first one asks
for. On boundaries of characters this comes to the same as to count characters, as long as the sizes
are words.
-/

namespace IncrementalGlr

def newline : UInt8 := 0x0A

def lastRow (bytes : List UInt8) : Nat := (bytes.reverse.takeWhile (· != newline)).length

def Length.ofBytes (bytes : List UInt8) : Length :=
  ⟨toWord bytes.length,
    if newline ∈ bytes then ⟨toWord (bytes.count newline), toWord (lastRow bytes)⟩
    else ⟨0, toWord bytes.length⟩⟩

def Length.past (position : Length) (bytes : List UInt8) : Length :=
  ⟨position.bytes + bytes.length,
    if newline ∈ bytes then
      ⟨position.extent.row + toWord (bytes.count newline), toWord (lastRow bytes)⟩
    else ⟨position.extent.row, position.extent.column + bytes.length⟩⟩

def Source.bytes (source : Source) : List UInt8 := source.text.toUTF8.data.toList

namespace Cursor

def decoded (cursor : Cursor) : Option Char :=
  if cursor.isAtEnd then none
  else if cursor.currentByte < 0x80 then some (Char.ofNat cursor.currentByte.toNat)
  else
    let stop := min (cursor.offset + utf8Width cursor.currentByte) cursor.source.size
    (String.fromUTF8? (cursor.source.text.toUTF8.extract cursor.offset stop)).bind fun text =>
      text.toList.head?

def behindWidth (cursor : Cursor) : Length :=
  if cursor.isAtEnd then cursor.position
  else
    let width := min (utf8Width cursor.currentByte) (cursor.source.size - cursor.offset)
    ⟨cursor.position.bytes + width,
      if cursor.currentByte = newline then ⟨cursor.position.extent.row + 1, 0⟩
      else ⟨cursor.position.extent.row, cursor.position.extent.column + width⟩⟩

def behindBytes (cursor : Cursor) (target : Nat) : Length :=
  let target := min target cursor.source.size
  if target ≤ cursor.offset then cursor.position
  else cursor.position.past
    ((cursor.source.bytes.drop cursor.offset).take (target - cursor.offset))

end Cursor

theorem utf8Width_ofNat {n : Nat} (byte : n < 256) : utf8Width (UInt8.ofNat n) =
    if n < 0xC0 then 1 else if n < 0xE0 then 2 else if n < 0xF0 then 3 else if n < 0xF8 then 4
    else 1 := by
  have value : (UInt8.ofNat n).toNat = n := by
    rw [UInt8.toNat_ofNat', Nat.mod_eq_of_lt byte]
  simp only [utf8Width, UInt8.le_iff_toNat_le, value, Bool.and_eq_true, decide_eq_true_eq,
    UInt8.reduceToNat]
  repeat' split
  all_goals omega

theorem ofNat_eq_newline {n : Nat} (byte : n < 256) : UInt8.ofNat n = newline ↔ n = 10 := by
  rw [← UInt8.toNat_inj, UInt8.toNat_ofNat', Nat.mod_eq_of_lt byte]
  rfl

theorem ofNat_lt_ascii {n : Nat} (byte : n < 256) : UInt8.ofNat n < 0x80 ↔ n < 0x80 := by
  rw [UInt8.lt_iff_toNat_lt, UInt8.toNat_ofNat', Nat.mod_eq_of_lt byte]
  rfl

structure Encodes (c : Char) (first : UInt8) (rest : List UInt8) : Prop where
  bytes : String.utf8EncodeChar c = first :: rest
  width : utf8Width first = c.utf8Size
  ascii : first < 0x80 → Char.ofNat first.toNat = c
  newline_iff : first = newline ↔ c = '\n'
  plain : newline ∉ rest

theorem encodes_of_ascii {c : Char} (small : c.val.toNat ≤ 0x7F) :
    Encodes c (UInt8.ofNat c.val.toNat) [] := by
  have byte : c.val.toNat < 256 := by omega
  have bytes : String.utf8EncodeChar c = [UInt8.ofNat c.val.toNat] := by
    rw [String.utf8EncodeChar, if_pos small]
  refine ⟨bytes, ?_, ?_, ?_, List.not_mem_nil⟩
  · rw [utf8Width_ofNat byte, if_pos (by omega), ← String.length_utf8EncodeChar, bytes]
    rfl
  · intro _
    rw [UInt8.toNat_ofNat', Nat.mod_eq_of_lt byte]
    exact Char.ofNat_toNat c
  · rw [ofNat_eq_newline byte, ← Char.toNat_inj]
    rfl

theorem exists_encodes (c : Char) : ∃ first rest, Encodes c first rest := by
  by_cases small : c.val.toNat ≤ 0x7F
  · exact ⟨_, _, encodes_of_ascii small⟩
  have last : c.val.toNat ≤ 0x10FFFF := by
    rcases c.valid with below | ⟨_, below⟩ <;> omega
  have other : c ≠ '\n' := by
    rintro rfl
    exact small (by decide)
  have continues (n : Nat) : newline ≠ UInt8.ofNat (n % 0x40 + 0x80) := by
    rw [ne_comm, Ne, ofNat_eq_newline (by omega)]
    omega
  obtain ⟨n, rest, bytes, byte, above, width, plain⟩ : ∃ n rest,
      String.utf8EncodeChar c = UInt8.ofNat n :: rest ∧ n < 256 ∧ 0xC0 ≤ n ∧
        utf8Width (UInt8.ofNat n) = rest.length + 1 ∧ newline ∉ rest := by
    rw [String.utf8EncodeChar]
    simp only [if_neg small]
    -- two, three or four bytes
    split
    · refine ⟨_, _, rfl, by omega, by omega, ?_, by simp only [List.mem_cons, continues]; simp⟩
      rw [utf8Width_ofNat (by omega), if_neg (by omega), if_pos (by omega)]
      rfl
    split
    · refine ⟨_, _, rfl, by omega, by omega, ?_, by simp only [List.mem_cons, continues]; simp⟩
      rw [utf8Width_ofNat (by omega), if_neg (by omega), if_neg (by omega), if_pos (by omega)]
      rfl
    · refine ⟨_, _, rfl, by omega, by omega, ?_, by simp only [List.mem_cons, continues]; simp⟩
      rw [utf8Width_ofNat (by omega), if_neg (by omega), if_neg (by omega), if_neg (by omega),
        if_pos (by omega)]
      rfl
  refine ⟨_, _, bytes, ?_, ?_, ?_, plain⟩
  · rw [width, ← String.length_utf8EncodeChar, bytes, List.length_cons]
  · rw [ofNat_lt_ascii byte]
    omega
  · rw [ofNat_eq_newline byte]
    exact ⟨by omega, fun same => absurd same other⟩

def encoded (cs : List Char) : List UInt8 := cs.flatMap String.utf8EncodeChar

@[simp] theorem encoded_append (a b : List Char) : encoded (a ++ b) = encoded a ++ encoded b :=
  List.flatMap_append

theorem toByteArray_encoded (text : String) : (encoded text.toList).toByteArray = text.toUTF8 :=
  String.utf8Encode_toList

theorem Source.bytes_eq (source : Source) : source.bytes = encoded source.text.toList := by
  rw [bytes, ← toByteArray_encoded, List.toList_data_toByteArray]

def Length.measured (bytes : List UInt8) : Length :=
  ⟨bytes.length, bytes.count newline, lastRow bytes⟩

theorem lastRow_append (a b : List UInt8) :
    lastRow (a ++ b) = if newline ∈ b then lastRow b else lastRow a + b.length := by
  rw [lastRow, List.reverse_append]
  split
  · next found =>
    rw [List.takeWhile_append, if_neg, lastRow]
    intro same
    have whole := (List.takeWhile_prefix _).eq_of_length same
    rw [← List.mem_reverse, ← whole] at found
    simpa using List.mem_takeWhile_imp found
  · next none =>
    rw [List.takeWhile_append_of_pos, List.length_append, List.length_reverse, Nat.add_comm,
      lastRow]
    intro byte member
    simpa using fun same : byte = newline => none (same ▸ List.mem_reverse.1 member)

theorem lastRow_of_not_mem {bytes : List UInt8} (none : newline ∉ bytes) :
    lastRow bytes = bytes.length := by
  have alone := lastRow_append [] bytes
  rw [if_neg none, List.nil_append] at alone
  rw [alone]
  exact Nat.zero_add _

theorem lastRow_le (bytes : List UInt8) : lastRow bytes ≤ bytes.length := by
  rw [lastRow, ← @List.length_reverse _ bytes]
  exact (List.takeWhile_prefix _).length_le

namespace Length

theorem measured_append (a b : List UInt8) : measured (a ++ b) = measured a ++ measured b := by
  simp only [measured, append_def, append, List.length_append, List.count_append, lastRow_append,
    gt_iff_lt, List.count_pos_iff]
  split
  · rfl
  · next none => rw [List.count_eq_zero.2 none, lastRow_of_not_mem none]; rfl

theorem measured_utf8EncodeChar (c : Char) : measured (String.utf8EncodeChar c) = ofChar c := by
  obtain ⟨first, rest, encodes⟩ := exists_encodes c
  have size := String.length_utf8EncodeChar c
  by_cases same : c = '\n'
  · subst same
    rfl
  · have none : newline ∉ String.utf8EncodeChar c := by
      rw [encodes.bytes, List.mem_cons, not_or]
      exact ⟨fun first => same (encodes.newline_iff.1 first.symm), encodes.plain⟩
    rw [measured, List.count_eq_zero.2 none, lastRow_of_not_mem none, size, ofChar, if_neg same]

theorem measured_encoded (cs : List Char) : measured (encoded cs) = ofChars cs := by
  induction cs with
  | nil => rfl
  | cons c cs ih =>
    rw [encoded, List.flatMap_cons, measured_append, measured_utf8EncodeChar, ofChars_cons, ← ih]
    rfl

theorem length_encoded (cs : List Char) : (encoded cs).length = (ofChars cs).bytes := by
  rw [← measured_encoded, measured]

variable {bytes : List UInt8}

theorem ofBytes_eq_measured (words : bytes.length < UInt32.size) :
    ofBytes bytes = measured bytes := by
  have rows : bytes.count newline ≤ bytes.length := List.count_le_length
  have column := lastRow_le bytes
  rw [ofBytes, measured, toWord_of_lt words]
  split
  · rw [toWord_of_lt (by omega), toWord_of_lt (by omega)]
  · next none => rw [List.count_eq_zero.2 none, lastRow_of_not_mem none]

theorem past_eq_append (position : Length) (words : bytes.length < UInt32.size) :
    position.past bytes = position ++ measured bytes := by
  have rows : bytes.count newline ≤ bytes.length := List.count_le_length
  have column := lastRow_le bytes
  rw [past, measured, append_def, append]
  simp only [gt_iff_lt, List.count_pos_iff]
  split
  · rw [toWord_of_lt (by omega), toWord_of_lt (by omega)]
  · next none => rw [lastRow_of_not_mem none]

end Length

theorem Length.foldl_ofCell (cs : List Char) (position : Length) :
    (layout cs).foldl (fun position cell => position ++ ofCell cell) position =
      position ++ ofChars cs := by
  have inside : ∀ (count : Nat) (position : Length),
      (List.replicate count none).foldl (fun position cell => position ++ ofCell cell) position =
        position ++ ⟨count, 0, count⟩ := by
    intro count
    induction count with
    | zero => exact fun position => (append_zero position).symm
    | succ count ih =>
      intro position
      rw [List.replicate_succ, List.foldl_cons, ih, append_assoc]
      simp [ofCell, append_def, append, Nat.add_comm]
  induction cs generalizing position with
  | nil => exact (append_zero position).symm
  | cons c cs ih =>
    have own : ofCell (some c) ++ ⟨c.utf8Size - 1, 0, c.utf8Size - 1⟩ = ofChar c := by
      unfold ofCell ofChar
      split
      · next same => cases same; rfl
      · next other =>
        rw [if_neg (by simpa using other)]
        simp [append_def, append, Nat.add_sub_cancel' c.utf8Size_pos]
    rw [layout, List.flatMap_cons, List.foldl_append, cellsOfChar, List.foldl_cons, inside,
      append_assoc position, own, ofChars_cons, ← append_assoc]
    exact ih _

namespace Cursor.Between

variable {cursor : Cursor} {pre post : List Char} {c : Char}

theorem bytes (h : cursor.Between pre post) :
    cursor.source.bytes = encoded pre ++ encoded post := by
  rw [Source.bytes_eq, h.text, encoded_append]

theorem offset_eq_length (h : cursor.Between pre post) : cursor.offset = (encoded pre).length := by
  rw [h.offset, Length.length_encoded]

theorem encodes (h : cursor.Between pre (c :: post)) :
    ∃ rest, Encodes c cursor.currentByte rest := by
  have bytes := h.bytes
  have offset := h.offset_eq_length
  obtain ⟨first, rest, encodes⟩ := exists_encodes c
  have seen : cursor.currentByte = first := by
    rw [Cursor.currentByte, Source.byteAt, ← Array.getElem?_toList]
    change (cursor.source.bytes[cursor.offset]?).getD 0 = first
    rw [bytes, offset, List.getElem?_append_right (Nat.le_refl _)]
    simp [encoded, encodes.bytes]
  exact ⟨rest, seen ▸ encodes⟩

theorem not_isAtEnd (h : cursor.Between pre (c :: post)) : ¬ cursor.isAtEnd = true :=
  fun atEnd => List.cons_ne_nil _ _ (h.isAtEnd.1 atEnd)

theorem size_cons (h : cursor.Between pre (c :: post)) :
    cursor.offset + c.utf8Size ≤ cursor.source.size := by
  rw [h.size, Length.ofChars_cons, Length.bytes_append, Length.bytes_ofChar]
  omega

theorem decoded (h : cursor.Between pre post) : cursor.decoded = cursor.lookahead := by
  rw [h.lookahead]
  cases post with
  | nil => rw [Cursor.decoded, if_pos (h.isAtEnd.2 rfl), List.head?_nil]
  | cons c post =>
    obtain ⟨rest, encodes⟩ := h.encodes
    rw [Cursor.decoded, if_neg h.not_isAtEnd]
    split
    · next ascii => rw [encodes.ascii ascii, List.head?_cons]
    · have stop : min (cursor.offset + utf8Width cursor.currentByte) cursor.source.size =
          cursor.offset + c.utf8Size := by
        rw [encodes.width, Nat.min_eq_left h.size_cons]
      have spelled : cursor.source.text.toUTF8.extract cursor.offset (cursor.offset + c.utf8Size) =
          (String.ofList [c]).toUTF8 := by
        refine ByteArray.ext (Array.toList_inj.1 ?_)
        rw [ByteArray.data_extract, Array.toList_extract, List.extract, Nat.add_sub_cancel_left]
        change (cursor.source.bytes.drop _).take _ = (Source.ofText (String.ofList [c])).bytes
        rw [h.bytes, h.offset_eq_length, List.drop_left, Source.bytes_eq, Source.ofText,
          String.toList_ofList]
        simp [encoded]
      have valid : (String.ofList [c]).toUTF8.IsValidUTF8 := (String.ofList [c]).isValidUTF8
      simp only [stop, spelled, String.fromUTF8?, dif_pos valid]
      change (String.ofList [c]).toList.head? = _
      rw [String.toList_ofList, List.head?_cons, List.head?_cons]

theorem behindWidth (h : cursor.Between pre post) :
    cursor.behindWidth = cursor.advance.position := by
  cases post with
  | nil => rw [h.advance_end, Cursor.behindWidth, if_pos (h.isAtEnd.2 rfl)]
  | cons c post =>
    obtain ⟨rest, encodes⟩ := h.encodes
    have inside := h.size_cons
    have width : min (utf8Width cursor.currentByte) (cursor.source.size - cursor.offset) =
        c.utf8Size := by
      rw [encodes.width]
      omega
    have lookahead : cursor.lookahead = some c := h.lookahead
    rw [Cursor.behindWidth, if_neg h.not_isAtEnd, width, Cursor.advance, if_neg h.not_isAtEnd,
      lookahead]
    simp only [encodes.newline_iff, Length.ofChar]
    split
    · next same => subst same; rfl
    · rfl

theorem advanceTo {middle : List Char} (h : cursor.Between pre (middle ++ post)) :
    (cursor.advanceTo (Length.ofChars (pre ++ middle)).bytes).Between (pre ++ middle) post := by
  have target : min (Length.ofChars (pre ++ middle)).bytes cursor.source.size =
      cursor.offset + (Length.ofChars middle).bytes := by
    rw [h.size, Length.bytes_ofChars_append, Length.bytes_ofChars_append, ← h.offset]
    omega
  have skipped : (cursor.source.cells.extract cursor.offset
      (cursor.offset + (Length.ofChars middle).bytes)).toList = layout middle := by
    rw [cursor.source.cells_eq, Array.toList_extract, List.extract, Nat.add_sub_cancel_left, h.text,
      h.offset, layout_append, layout_append, ← length_layout, ← length_layout, List.drop_left,
      List.take_left]
  refine ⟨by rw [List.append_assoc]; exact h.text, ?_⟩
  simp only [Cursor.advanceTo, target]
  rw [← Array.foldl_toList, skipped, Length.foldl_ofCell, h.position, Length.ofChars_append]

theorem behindBytes {middle : List Char} (h : cursor.Between pre (middle ++ post))
    (words : (encoded middle).length < UInt32.size) :
    cursor.behindBytes (Length.ofChars (pre ++ middle)).bytes = Length.ofChars (pre ++ middle) := by
  have size := h.size
  rw [Length.bytes_ofChars_append] at size
  have target : min (Length.ofChars (pre ++ middle)).bytes cursor.source.size =
      cursor.offset + (encoded middle).length := by
    rw [Length.bytes_ofChars_append, ← h.offset, Length.length_encoded]
    omega
  rw [Cursor.behindBytes, target]
  split
  · next none =>
    have empty : middle = [] := by
      apply Length.eq_nil_of_bytes_ofChars
      rw [← Length.length_encoded]
      omega
    rw [empty, List.append_nil, h.position]
  · have skipped : (cursor.source.bytes.drop cursor.offset).take
        (cursor.offset + (encoded middle).length - cursor.offset) = encoded middle := by
      rw [h.bytes, h.offset_eq_length, List.drop_left, encoded_append, Nat.add_sub_cancel_left,
        List.take_left]
    rw [skipped, Length.past_eq_append _ words, Length.measured_encoded, h.position,
      Length.ofChars_append]

end Cursor.Between

end IncrementalGlr
