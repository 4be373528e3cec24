/-!
# Lengths of text

A `Length` measures a piece of text in bytes and in rows and columns. It is used both for sizes
and for absolute positions, which are lengths measured from the start of the text. Lengths add up
along the text (`Length.ofChars_append`), so a tree that stores sizes only can be moved in the text
without touching its parts.

The numbers of a length are 32-bit words. The measure of a text stops at the greatest word, and a
sum wraps around: `a + b` is the length `a ++ b` of the two pieces together only where that is a
length of words.
-/

namespace IncrementalGlr

structure Point where
  row : Nat
  column : Nat
  deriving DecidableEq, Repr, Inhabited

namespace Point

def before (p q : Point) : Bool :=
  p.row < q.row || (p.row == q.row && p.column < q.column)

def display (p : Point) : String :=
  s!"{p.row + 1}:{p.column + 1}"

def describe (p : Point) : String :=
  s!"({p.row}, {p.column})"

end Point

/-- The number as a word, or the greatest word. -/
def toWord (n : Nat) : Nat := min n (UInt32.size - 1)

structure Length where
  bytes : Nat
  extent : Point
  deriving DecidableEq, Repr, Inhabited

namespace Length

def zero : Length := ⟨0, 0, 0⟩

/-- The length of two pieces together. A second piece with a line break decides the column
alone. -/
def append (a b : Length) : Length :=
  ⟨a.bytes + b.bytes,
    if b.extent.row > 0 then ⟨a.extent.row + b.extent.row, b.extent.column⟩
    else ⟨a.extent.row, a.extent.column + b.extent.column⟩⟩

instance : Append Length := ⟨append⟩

/-- What is left of the numbers in words. -/
def wrapped (a : Length) : Length :=
  ⟨a.bytes % UInt32.size, a.extent.row % UInt32.size, a.extent.column % UInt32.size⟩

/-- The nearest length of words. -/
def saturated (a : Length) : Length :=
  ⟨toWord a.bytes, toWord a.extent.row, toWord a.extent.column⟩

def add (a b : Length) : Length := (a ++ b).wrapped

def sub (a b : Length) : Length :=
  ⟨a.bytes - b.bytes,
    if a.extent.row > b.extent.row then ⟨a.extent.row - b.extent.row, a.extent.column⟩
    else ⟨0, a.extent.column - b.extent.column⟩⟩

instance : Add Length := ⟨add⟩
instance : Sub Length := ⟨sub⟩

def isZero (a : Length) : Bool := a.bytes == 0

def ofChar (c : Char) : Length :=
  if c = '\n' then ⟨1, 1, 0⟩ else ⟨c.utf8Size, 0, c.utf8Size⟩

def ofChars (cs : List Char) : Length :=
  cs.foldl (fun length c => length ++ ofChar c) zero

def ofText (text : String) : Length :=
  (ofChars text.toList).saturated

/-- The sum of the sizes of consecutive pieces. -/
def sum (lengths : List Length) : Length :=
  lengths.foldl (· + ·) zero

/-- The exact size of consecutive pieces. -/
def concat (lengths : List Length) : Length :=
  lengths.foldr (· ++ ·) zero

def describe (a : Length) : String :=
  s!"{a.bytes}b{a.extent.describe}"

theorem append_def (a b : Length) : a ++ b = append a b := rfl

theorem add_def (a b : Length) : a + b = (a ++ b).wrapped := rfl

theorem sub_def (a b : Length) : a - b = sub a b := rfl

@[simp] theorem bytes_append (a b : Length) : (a ++ b).bytes = a.bytes + b.bytes := rfl

@[simp] theorem bytes_sub (a b : Length) : (a - b).bytes = a.bytes - b.bytes := rfl

@[simp] theorem zero_append (a : Length) : zero ++ a = a := by
  obtain ⟨bytes, row, column⟩ := a
  simp only [append_def, append, zero, Nat.zero_add]
  split <;> simp_all

@[simp] theorem append_zero (a : Length) : a ++ zero = a := by
  simp [append_def, append, zero]

theorem append_assoc (a b c : Length) : a ++ b ++ c = a ++ (b ++ c) := by
  obtain ⟨_, _, _⟩ := a
  obtain ⟨_, rowB, _⟩ := b
  obtain ⟨_, rowC, _⟩ := c
  simp only [append_def, append]
  rcases Nat.eq_zero_or_pos rowC with rfl | hc
  · by_cases hb : 0 < rowB <;> simp [hb, Nat.add_assoc]
  · have hbc : 0 < rowB + rowC := Nat.add_pos_right rowB hc
    by_cases hb : 0 < rowB <;> simp_all [Nat.add_assoc]

theorem foldl_append (cs : List Char) (a : Length) :
    cs.foldl (fun length c => length ++ ofChar c) a = a ++ ofChars cs := by
  induction cs generalizing a with
  | nil => simp [ofChars]
  | cons c cs ih =>
    rw [ofChars, List.foldl_cons, List.foldl_cons, ih, ih (zero ++ ofChar c), zero_append,
      append_assoc]

@[simp] theorem ofChars_nil : ofChars [] = zero := rfl

@[simp] theorem ofChars_cons (c : Char) (cs : List Char) :
    ofChars (c :: cs) = ofChar c ++ ofChars cs := by
  rw [ofChars, List.foldl_cons, foldl_append, zero_append]

theorem ofChars_append (a b : List Char) : ofChars (a ++ b) = ofChars a ++ ofChars b := by
  induction a with
  | nil => simp
  | cons c a ih => simp [ih, append_assoc]

end Length

structure Span where
  start : Length
  stop : Length
  deriving DecidableEq, Repr, Inhabited

end IncrementalGlr
