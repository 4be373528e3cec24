import IncrementalGlr.Proofs.Text.Boundary
import IncrementalGlr.Lexer.LongestMatch

/-!
# Cursors between characters

A cursor that starts between two characters only ever stands between two characters.
-/

namespace IncrementalGlr

/-- The cursor stands behind the characters `pre` of its text and in front of `post`. -/
structure Cursor.Between (cursor : Cursor) (pre post : List Char) : Prop where
  text : cursor.source.text.toList = pre ++ post
  position : cursor.position = Length.ofChars pre

namespace Cursor.Between

variable {cursor : Cursor} {pre post : List Char} {c : Char}

theorem offset (h : cursor.Between pre post) : cursor.offset = (Length.ofChars pre).bytes := by
  rw [Cursor.offset, h.position]

theorem size (h : cursor.Between pre post) :
    cursor.source.size = cursor.offset + (Length.ofChars post).bytes := by
  rw [Source.size_eq, h.text, Length.bytes_ofChars_append, h.offset]

theorem lookahead (h : cursor.Between pre post) : cursor.lookahead = post.head? := by
  rw [Cursor.lookahead, h.offset, Source.charAt?_cut h.text]

theorem isAtEnd (h : cursor.Between pre post) : cursor.isAtEnd = true ↔ post = [] := by
  rw [Cursor.isAtEnd, decide_eq_true_iff, h.size]
  constructor
  · intro le
    exact Length.eq_nil_of_bytes_ofChars (by omega)
  · intro none
    simp [none]

theorem advance (h : cursor.Between pre (c :: post)) :
    cursor.advance.Between (pre ++ [c]) post := by
  have notEnd : cursor.isAtEnd = false := by
    rw [Bool.eq_false_iff]
    intro atEnd
    exact absurd (h.isAtEnd.1 atEnd) (List.cons_ne_nil c post)
  have seen : cursor.lookahead = some c := h.lookahead
  refine ⟨?_, ?_⟩
  · rw [source_advance, h.text, List.append_assoc, List.singleton_append]
  · simp [Cursor.advance, notEnd, seen, h.position, Length.ofChars_append]

theorem advance_end (h : cursor.Between pre []) : cursor.advance = cursor := by
  rw [Cursor.advance, if_pos (h.isAtEnd.2 rfl)]

theorem ofLookahead (h : cursor.Between pre post) (seen : cursor.lookahead = some c) :
    ∃ rest, post = c :: rest := by
  rw [h.lookahead] at seen
  cases post with
  | nil => contradiction
  | cons d rest => exact ⟨rest, by rw [show d = c from Option.some.inj seen]⟩

end Cursor.Between

end IncrementalGlr
