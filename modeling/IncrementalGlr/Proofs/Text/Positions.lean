import Mathlib.Logic.Function.Iterate
import IncrementalGlr.Proofs.Text.Bytes

/-!
# Positions agree

Positions in a text come about in three ways: a cursor walks there, the text in front is measured,
or the sizes of pieces are added and subtracted. All three agree at every boundary of characters,
and with what a walk over the bytes finds.
-/

namespace IncrementalGlr

def Cursor.IsBehind (cursor : Cursor) (text front : String) : Prop :=
  cursor.source = Source.ofText text ∧ cursor.position = Length.ofText front

structure Tracks (text : String) : Prop where
  shows : ∀ n, (Cursor.advance^[n] (Cursor.ofSource (Source.ofText text))).lookahead =
    text.toList[n]?
  ends : ∀ n, (Cursor.advance^[n] (Cursor.ofSource (Source.ofText text))).isAtEnd = true ↔
    text.toList.length ≤ n
  steps : ∀ front back, text = front ++ back →
    (Cursor.advance^[front.toList.length] (Cursor.ofSource (Source.ofText text))).IsBehind text
      front
  jumps : ∀ front middle back, text = front ++ middle ++ back → ∀ cursor : Cursor,
    cursor.IsBehind text front →
      (cursor.advanceTo (front ++ middle).utf8ByteSize).IsBehind text (front ++ middle)
  joins : ∀ front middle back, text = front ++ middle ++ back →
    Length.ofText (front ++ middle) = Length.ofText front + Length.ofText middle
  differs : ∀ front middle back, text = front ++ middle ++ back →
    Length.ofText (front ++ middle) - Length.ofText front = Length.ofText middle
  restores : ∀ front middle back, text = front ++ middle ++ back →
    Length.ofText front + (Length.ofText (front ++ middle) - Length.ofText front) =
      Length.ofText (front ++ middle)
  measures : ∀ front middle back, text = front ++ middle ++ back →
    Length.ofText middle = Length.ofBytes middle.toUTF8.data.toList ∧
      (Length.ofText middle).bytes = middle.utf8ByteSize
  words : ∀ front middle back, text = front ++ middle ++ back →
    (Length.ofText middle).bytes < UInt32.size ∧
      (Length.ofText middle).extent.row < UInt32.size ∧
      (Length.ofText middle).extent.column < UInt32.size
  /-- A walk over the bytes sees the same characters and comes to the same positions. -/
  decodes : ∀ front back, text = front ++ back → ∀ cursor : Cursor, cursor.IsBehind text front →
    cursor.decoded = cursor.lookahead ∧ cursor.behindWidth = cursor.advance.position
  searches : ∀ front middle back, text = front ++ middle ++ back → ∀ cursor : Cursor,
    cursor.IsBehind text front →
      cursor.behindBytes (front ++ middle).utf8ByteSize =
        (cursor.advanceTo (front ++ middle).utf8ByteSize).position

variable {cursor : Cursor} {pre post : List Char} {text front middle back : String}

theorem Length.bytes_ofChars_toList (text : String) :
    (ofChars text.toList).bytes = text.utf8ByteSize := by
  rw [← length_encoded, ← List.size_toByteArray, toByteArray_encoded]
  rfl

theorem isShort_toList {text : String} : IsShort text.toList ↔ text.utf8ByteSize < UInt32.size := by
  rw [IsShort, Length.bytes_ofChars_toList]

@[simp] theorem Source.text_ofText (text : String) : (ofText text).text = text := rfl

theorem Source.clipped_of_short {text : String} (short : text.utf8ByteSize < UInt32.size) :
    clipped text = ofText text := by
  have small : (ofText text).size < UInt32.size := isShort_iff.1 (isShort_toList.2 short)
  rw [clipped]
  exact if_pos small

theorem IsShort.pieces (short : IsShort text.toList) (whole : text = front ++ middle ++ back) :
    IsShort (front.toList ++ middle.toList) := by
  rw [whole, String.toList_append, String.toList_append] at short
  exact short.left

theorem IsShort.ofText_append (short : IsShort (front.toList ++ middle.toList)) :
    Length.ofText (front ++ middle) = Length.ofText front + Length.ofText middle := by
  have whole : IsShort (front ++ middle).toList := by rwa [String.toList_append]
  rw [whole.ofText, short.left.ofText, short.right.ofText, short.add, String.toList_append]

theorem Cursor.IsBehind.between (h : cursor.IsBehind text front) (short : IsShort text.toList)
    (whole : text = front ++ back) : cursor.Between front.toList back.toList := by
  refine ⟨?_, ?_⟩
  · rw [h.1, Source.ofText, whole, String.toList_append]
  · rw [whole, String.toList_append] at short
    rw [h.2, short.left.ofText]

theorem Cursor.IsBehind.reaches (h : cursor.IsBehind text front) (short : IsShort text.toList)
    (whole : text = front ++ middle ++ back) :
    cursor.Between front.toList (middle.toList ++ back.toList) := by
  rw [← String.toList_append]
  exact h.between short (by rw [whole, String.append_assoc])

theorem Length.bytes_pieces (front middle : String) :
    (ofChars (front.toList ++ middle.toList)).bytes = (front ++ middle).utf8ByteSize := by
  rw [← String.toList_append]
  exact bytes_ofChars_toList (front ++ middle)

theorem Cursor.source_iterate (cursor : Cursor) (n : Nat) :
    (Cursor.advance^[n] cursor).source = cursor.source := by
  induction n with
  | zero => rfl
  | succ n ih => rw [Function.iterate_succ_apply', source_advance, ih]

theorem Cursor.Between.walk {between : List Char} (h : cursor.Between pre (between ++ post)) :
    (Cursor.advance^[between.length] cursor).Between (pre ++ between) post := by
  induction between generalizing cursor pre with
  | nil => simpa using h
  | cons c between ih =>
    have rest := ih h.advance
    rwa [List.append_assoc, List.singleton_append] at rest

theorem Cursor.Between.iterate (h : cursor.Between pre post) (n : Nat) :
    (Cursor.advance^[n] cursor).Between (pre ++ post.take n) (post.drop n) := by
  rcases Nat.le_total n post.length with inside | beyond
  · rw [← List.take_append_drop n post] at h
    have walked := h.walk
    rwa [List.length_take_of_le inside] at walked
  · rw [List.take_of_length_le beyond, List.drop_of_length_le beyond]
    rw [← List.append_nil post] at h
    obtain ⟨more, rfl⟩ := Nat.exists_eq_add_of_le' beyond
    rw [Function.iterate_add_apply, Function.iterate_fixed h.walk.advance_end]
    exact h.walk

theorem tracks {text : String} (words : text.utf8ByteSize < UInt32.size) : Tracks text := by
  have start : (Cursor.ofSource (Source.ofText text)).Between [] text.toList := ⟨rfl, rfl⟩
  have short : IsShort text.toList := isShort_toList.2 words
  have small {front middle back : String} (whole : text = front ++ middle ++ back) :
      (encoded middle.toList).length < UInt32.size := by
    rw [Length.length_encoded]
    exact (short.pieces whole).right
  refine
    { shows := fun n => ?_
      ends := fun n => ?_
      steps := fun front back whole => ⟨Cursor.source_iterate .., ?_⟩
      jumps := fun front middle back whole cursor here => ⟨here.1, ?_⟩
      joins := fun front middle back whole => (short.pieces whole).ofText_append
      differs := fun front middle back whole => ?_
      restores := fun front middle back whole => ?_
      measures := fun front middle back whole => ⟨?_, ?_⟩
      words := fun front middle back whole => ?_
      decodes := fun front back whole cursor here => ?_
      searches := fun front middle back whole cursor here => ?_ }
  · rw [(start.iterate n).lookahead, List.head?_drop]
  · rw [(start.iterate n).isAtEnd, List.drop_eq_nil_iff]
  · have cut : (Cursor.ofSource (Source.ofText text)).Between []
        (front.toList ++ back.toList) := by
      rwa [← String.toList_append, ← whole]
    have here : IsShort front.toList := by
      rw [whole, String.toList_append] at short
      exact short.left
    exact cut.walk.position.trans here.ofText.symm
  · have jumped := (here.reaches short whole).advanceTo.position
    have there : IsShort (front ++ middle).toList := by
      rw [String.toList_append]
      exact short.pieces whole
    rw [Length.bytes_pieces, ← String.toList_append] at jumped
    exact jumped.trans there.ofText.symm
  · have pieces := short.pieces whole
    rw [pieces.ofText_append, pieces.left.ofText, pieces.right.ofText, pieces.add,
      Length.ofChars_append_sub]
  · have pieces := short.pieces whole
    rw [pieces.ofText_append, pieces.left.ofText, pieces.right.ofText, pieces.add,
      Length.ofChars_append_sub, pieces.add]
  · have bytes : middle.toUTF8.data.toList = encoded middle.toList :=
      (Source.ofText middle).bytes_eq
    rw [bytes, Length.ofBytes_eq_measured (small whole), Length.measured_encoded,
      (short.pieces whole).right.ofText]
  · rw [(short.pieces whole).right.ofText, Length.bytes_ofChars_toList]
  · have word := (short.pieces whole).right.isWord
    rw [(short.pieces whole).right.ofText]
    exact ⟨word.bytes, word.row, word.column⟩
  · exact ⟨(here.between short whole).decoded, (here.between short whole).behindWidth⟩
  · have between := here.reaches short whole
    rw [← Length.bytes_pieces, between.behindBytes (small whole), between.advanceTo.position]

/-- Line breaks on both ends, a null character, and characters of up to four bytes. -/
theorem tracks_mixed : "\na\x00é\n漢😀\n".utf8ByteSize < UInt32.size ∧ Tracks "\na\x00é\n漢😀\n" :=
  ⟨by decide, tracks (by decide)⟩

end IncrementalGlr
