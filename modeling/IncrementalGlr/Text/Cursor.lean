import IncrementalGlr.Text.Source

/-!
# Cursors

A cursor stands at a position of a source and moves forward one character at a time, keeping its
row and column in step with its byte offset. Columns count bytes. A cursor that was put inside a
character sees nothing there and moves by single bytes until the next character.
-/

namespace IncrementalGlr

structure Cursor where
  source : Source
  position : Length

namespace Cursor

def ofSource (source : Source) : Cursor := ⟨source, Length.zero⟩

def offset (cursor : Cursor) : Nat := cursor.position.bytes

def isAtEnd (cursor : Cursor) : Bool :=
  cursor.source.size ≤ cursor.offset

def lookahead (cursor : Cursor) : Option Char :=
  cursor.source.charAt? cursor.offset

def currentByte (cursor : Cursor) : UInt8 :=
  cursor.source.byteAt cursor.offset

def peekByte (cursor : Cursor) : UInt8 :=
  cursor.source.byteAt (cursor.offset + 1)

def advance (cursor : Cursor) : Cursor :=
  if cursor.isAtEnd then cursor
  else match cursor.lookahead with
    | some c => { cursor with position := cursor.position ++ Length.ofChar c }
    | none => { cursor with position := cursor.position ++ Length.ofCell none }

def advanceTo (cursor : Cursor) (target : Nat) : Cursor :=
  let target := min target cursor.source.size
  { cursor with
    position := (cursor.source.cells.extract cursor.offset target).foldl
      (fun position cell => position ++ Length.ofCell cell) cursor.position }

def reset (cursor : Cursor) (position : Length) : Cursor :=
  { cursor with position }

def slice (cursor : Cursor) (start stop : Nat) : String :=
  cursor.source.slice start stop

def sliceFrom (cursor : Cursor) (start : Nat) : String :=
  cursor.source.slice start cursor.offset

end Cursor

/-- The number of bytes of the character whose first byte is `byte`; a byte that starts no
character counts alone. -/
def utf8Width (byte : UInt8) : Nat :=
  if 0xC0 ≤ byte && byte ≤ 0xDF then 2
  else if 0xE0 ≤ byte && byte ≤ 0xEF then 3
  else if 0xF0 ≤ byte && byte ≤ 0xF7 then 4
  else 1

end IncrementalGlr
