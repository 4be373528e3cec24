import IncrementalGlr.Text.Source

/-!
# Edits of text

An `Edit` describes one replacement: the text between `start` and `oldEnd` becomes the text between
`start` and `newEnd`. It carries positions and not the inserted text, which is all that moving a
tree needs.
-/

namespace IncrementalGlr

structure Edit where
  start : Length
  oldEnd : Length
  newEnd : Length
  deriving DecidableEq, Repr, Inhabited

namespace Edit

/-- Replacing the bytes of `text` from `start` to `oldEnd` by `inserted`. Offsets are clamped to the
text and stand at character boundaries. -/
def replace (text : String) (start oldEnd : Nat) (inserted : String) : Edit :=
  let cs := text.toList
  let oldEnd := min oldEnd text.utf8ByteSize
  let start := min start oldEnd
  let before := (Length.ofChars (takeBytes start cs)).saturated
  ⟨before, (Length.ofChars (takeBytes oldEnd cs)).saturated, before + Length.ofText inserted⟩

def insert (text : String) (offset : Nat) (inserted : String) : Edit :=
  replace text offset offset inserted

def delete (text : String) (start oldEnd : Nat) : Edit :=
  replace text start oldEnd ""

/-- An edit that changes no text and still touches what was read around `offset`. -/
def noop (text : String) (offset : Nat) : Edit :=
  replace text offset offset ""

def apply (text : String) (start oldEnd : Nat) (inserted : String) : String × Edit :=
  let edit := replace text start oldEnd inserted
  let cs := text.toList
  (String.ofList (takeBytes edit.start.bytes cs ++ inserted.toList
    ++ dropBytes edit.oldEnd.bytes cs), edit)

def delta (edit : Edit) : Int :=
  (edit.newEnd.bytes : Int) - edit.oldEnd.bytes

def oldSize (edit : Edit) : Nat :=
  (edit.oldEnd.bytes + UInt32.size - edit.start.bytes) % UInt32.size

/-- The end of the inserted text may have wrapped around. -/
def newSize (edit : Edit) : Nat :=
  (edit.newEnd.bytes + UInt32.size - edit.start.bytes) % UInt32.size

/-- Whether the edit affects a node from `start` to `stop` whose lexer read `lookahead` bytes more.
A node that ends where the edit starts counts: it may absorb what is inserted there. -/
def touches (edit : Edit) (start stop lookahead : Nat) : Bool :=
  edit.start.bytes ≤ stop + lookahead && start ≤ edit.oldEnd.bytes

/-- Where a position of the old text is in the new text. What lay inside the removed text moves to
the end of the inserted text. -/
def mapPosition (edit : Edit) (position : Length) : Length :=
  if position.bytes ≤ edit.start.bytes then position
  else if position.bytes ≥ edit.oldEnd.bytes then edit.newEnd + (position - edit.oldEnd)
  else edit.newEnd

end Edit

end IncrementalGlr
