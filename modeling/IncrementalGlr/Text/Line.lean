import IncrementalGlr.Text.Source

/-!
# Lines

The lines of a text as they are shown to a reader, and places counted as a reader counts them.
-/

namespace IncrementalGlr

/-- The lines of a text, without the breaks that end them. A line ends in a line feed, which may
follow a carriage return. -/
def linesOf : List Char → List (List Char)
  | [] => []
  | '\n' :: rest => [] :: linesOf rest
  | '\r' :: '\n' :: rest => [] :: linesOf rest
  | c :: rest =>
    match linesOf rest with
    | [] => [[c]]
    | line :: lines => (c :: line) :: lines

def firstLine (text : String) : List Char := (linesOf text.toList).headD []

def isBlank (c : Char) : Bool :=
  [(0x09, 0x0D), (0x20, 0x20), (0x85, 0x85), (0xA0, 0xA0), (0x1680, 0x1680), (0x2000, 0x200A),
    (0x2028, 0x2029), (0x202F, 0x202F), (0x205F, 0x205F), (0x3000, 0x3000)].any
    fun (low, high) => low ≤ c.toNat && c.toNat ≤ high

def trimmed (text : String) : String :=
  String.ofList (((text.toList.dropWhile isBlank).reverse.dropWhile isBlank).reverse)

namespace Source

/-- The text before an offset. Inside a character there is no such text, and the whole text stands
for it. -/
def before (source : Source) (offset : Nat) : String :=
  let offset := min offset source.size
  if source.isBoundary offset then source.slice 0 offset else source.text

def lineColumn (source : Source) (offset : Nat) : Nat × Nat :=
  let before := (source.before offset).toList
  (before.count '\n' + 1, (before.reverse.takeWhile (· != '\n')).length + 1)

end Source

end IncrementalGlr
