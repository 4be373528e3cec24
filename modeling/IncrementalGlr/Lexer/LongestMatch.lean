import IncrementalGlr.Text.Cursor
import IncrementalGlr.Table.Basic

/-!
# Longest matches

A walk along the lexical automaton from a cursor, which remembers the last state that accepts a
wanted terminal. It ends because every step passes a character of the source.
-/

namespace IncrementalGlr

namespace Cursor

theorem offset_lt_size_of_lookahead {cursor : Cursor} {c : Char}
    (h : cursor.lookahead = some c) : cursor.offset < cursor.source.size := by
  apply Nat.lt_of_not_le
  intro le
  simp only [lookahead, Source.charAt?, Source.size] at h le
  simp [Nat.not_lt.2 le] at h

theorem offset_lt_offset_advance {cursor : Cursor} (h : cursor.offset < cursor.source.size) :
    cursor.offset < cursor.advance.offset := by
  have notEnd : ¬ cursor.source.size ≤ cursor.offset := Nat.not_le.2 h
  simp only [advance, isAtEnd, notEnd, decide_false, Bool.false_eq_true, if_false]
  split
  · rename_i c _
    simp only [offset, Length.bytes_append, Length.ofChar]
    have := c.utf8Size_pos
    split <;> simp_all
  · simp [offset, Length.ofCell]

@[simp] theorem source_advance (cursor : Cursor) : cursor.advance.source = cursor.source := by
  unfold advance
  split
  · rfl
  · split <;> rfl

theorem remaining_advance_lt {cursor : Cursor} (h : cursor.offset < cursor.source.size) :
    cursor.advance.source.size - cursor.advance.offset < cursor.source.size - cursor.offset := by
  have := offset_lt_offset_advance h
  rw [source_advance]
  omega

end Cursor

structure Match where
  symbol : SymbolId
  stop : Length
  deriving DecidableEq, Repr

namespace Table

def lexState (table : Table) (id : UInt32) : LexState :=
  table.lexStates.getD id.toNat default

def walk (table : Table) (wanted : SymbolId → Bool) (state : UInt32) (cursor : Cursor)
    (best : Option Match) : Option Match × Nat :=
  match h : cursor.lookahead with
  | none => (best, cursor.offset + 1)
  | some c =>
    match (table.lexState state).next? c with
    | none => (best, cursor.offset + 1)
    | some next =>
      let best := match (table.lexState next).accepts.find? wanted with
        | some symbol => some ⟨symbol, cursor.advance.position⟩
        | none => best
      table.walk wanted next cursor.advance best
termination_by cursor.source.size - cursor.offset
decreasing_by exact Cursor.remaining_advance_lt (Cursor.offset_lt_size_of_lookahead h)

/-- The longest non-empty token at the cursor whose symbol is wanted, with the end of the bytes that
were examined to find it. To meet the end of the text is to examine one byte more. -/
def longestMatch (table : Table) (wanted : SymbolId → Bool) (cursor : Cursor) :
    Option Match × Nat :=
  table.walk wanted table.lexStart cursor none

end Table

end IncrementalGlr
