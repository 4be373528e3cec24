import IncrementalGlr.Text.Length

/-!
# Source text by byte

A `Source` is a text laid out in cells, one for each byte of its encoding: the first byte of a
character holds the character, the other bytes hold nothing. A byte offset is a character boundary
exactly where a cell holds a character or the text ends.
-/

namespace IncrementalGlr

def cellsOfChar (c : Char) : List (Option Char) :=
  some c :: List.replicate (c.utf8Size - 1) none

def layout (cs : List Char) : List (Option Char) :=
  cs.flatMap cellsOfChar

def takeBytes : Nat → List Char → List Char
  | _, [] => []
  | count, c :: cs =>
    if c.utf8Size ≤ count then c :: takeBytes (count - c.utf8Size) cs else []

def dropBytes : Nat → List Char → List Char
  | _, [] => []
  | count, c :: cs =>
    if c.utf8Size ≤ count then dropBytes (count - c.utf8Size) cs else c :: cs

theorem takeBytes_append_dropBytes (count : Nat) (cs : List Char) :
    takeBytes count cs ++ dropBytes count cs = cs := by
  induction cs generalizing count with
  | nil => simp [takeBytes, dropBytes]
  | cons c cs ih =>
    simp only [takeBytes, dropBytes]
    split <;> simp [ih]

theorem length_layout_takeBytes (count : Nat) (cs : List Char) :
    (layout (takeBytes count cs)).length ≤ count := by
  induction cs generalizing count with
  | nil => exact Nat.zero_le count
  | cons c cs ih =>
    rw [takeBytes]
    split
    · next fits =>
        have rest := ih (count - c.utf8Size)
        have := c.utf8Size_pos
        simp only [layout, List.flatMap_cons, List.length_append, cellsOfChar, List.length_cons,
          List.length_replicate] at rest ⊢
        omega
    · exact Nat.zero_le count

def Length.ofCell (cell : Option Char) : Length :=
  if cell = some '\n' then ⟨1, 1, 0⟩ else ⟨1, 0, 1⟩

structure Source where
  text : String
  cells : Array (Option Char)
  cells_eq : cells = (layout text.toList).toArray

namespace Source

def ofText (text : String) : Source :=
  ⟨text, (layout text.toList).toArray, rfl⟩

instance : Inhabited Source := ⟨ofText ""⟩

def size (source : Source) : Nat := source.cells.size

/-- The text as far as 32-bit offsets go: of a text of 2^32 bytes or more, what does not fit is left
out. -/
def clipped (text : String) : Source :=
  let source := ofText text
  if source.size < UInt32.size then source
  else ofText (String.ofList (takeBytes (UInt32.size - 1) text.toList))

def charAt? (source : Source) (offset : Nat) : Option Char :=
  source.cells.getD offset none

def isBoundary (source : Source) (offset : Nat) : Bool :=
  offset == source.size || (source.charAt? offset).isSome

def byteAt (source : Source) (offset : Nat) : UInt8 :=
  (source.text.toUTF8.data[offset]?).getD 0

/-- The size of the text followed by zero bytes, at least one, that fill it up to whole blocks of
64 bytes. -/
def paddedSize (source : Source) : Nat :=
  (source.size / 64 + 1) * 64

/-- The characters between two offsets, clamped to the text; empty when an end of the stretch
divides a character. -/
def slice (source : Source) (start stop : Nat) : String :=
  let stop := min stop source.size
  let start := min start stop
  if source.isBoundary start && source.isBoundary stop then
    String.ofList ((source.cells.extract start stop).toList.filterMap id)
  else ""

theorem size_clipped (text : String) : (clipped text).size < UInt32.size := by
  unfold clipped
  dsimp only
  split
  · assumption
  · have taken := length_layout_takeBytes (UInt32.size - 1) text.toList
    rw [size, ofText, List.size_toArray, String.toList_ofList]
    exact Nat.lt_of_le_of_lt taken (Nat.sub_lt (by decide) (by decide))

end Source

end IncrementalGlr
