import IncrementalGlr.Text.Cursor

/-!
# What an external scanner sees

Some tokens, such as nested comments, are recognized by a scanner that a program supplies. It reads
the text through a `ScanContext`, which records how far the scanner looked, where the token ends and
which token it is.
-/

namespace IncrementalGlr

structure ScanContext where
  cursor : Cursor
  start : Length
  markedEnd : Option Length
  result : Option Nat
  reach : Nat

structure ScannedToken where
  index : Nat
  stop : Length
  reach : Nat
  deriving DecidableEq, Repr

namespace ScanContext

def ofCursor (cursor : Cursor) : ScanContext :=
  ⟨cursor, cursor.position, none, none, cursor.offset⟩

def lookahead (context : ScanContext) : Option Char × ScanContext :=
  (context.cursor.lookahead,
    { context with reach := max context.reach (context.cursor.offset + 1) })

def advance (context : ScanContext) : ScanContext :=
  let cursor := context.cursor.advance
  { context with cursor, reach := max context.reach cursor.offset }

/-- The token ends at the cursor, however far the scanner goes on. -/
def markEnd (context : ScanContext) : ScanContext :=
  { context with markedEnd := some context.cursor.position }

def setResult (context : ScanContext) (index : Nat) : ScanContext :=
  { context with result := some index }

def column (context : ScanContext) : Nat := context.cursor.position.extent.column

def isAtEnd (context : ScanContext) : Bool := context.cursor.isAtEnd

/-- The token, if the scanner accepted and named one, and the cursor behind it; the cursor at the
start otherwise. -/
def finish (context : ScanContext) (accepted : Bool) : Option ScannedToken × Cursor :=
  match accepted, context.result with
  | true, some index =>
    let stop := context.markedEnd.getD context.cursor.position
    (some ⟨index, stop, context.reach⟩, context.cursor.reset stop)
  | _, _ => (none, context.cursor.reset context.start)

inductive Leads (context : ScanContext) : ScanContext → Prop
  | refl : Leads context context
  | lookahead {last : ScanContext} : Leads context last → Leads context last.lookahead.2
  | advance {last : ScanContext} : Leads context last → Leads context last.advance
  | markEnd {last : ScanContext} : Leads context last → Leads context last.markEnd
  | setResult {last : ScanContext} (index : Nat) :
      Leads context last → Leads context (last.setResult index)

end ScanContext

abbrev ScannerState := List UInt8

structure ScanOutcome where
  accepted : Bool
  context : ScanContext
  state : ScannerState

/-- A recognizer of external tokens: from the carried state and the tokens that are valid now, by
index. Its outcome depends on nothing else, and it moves the context by its operations only. -/
structure Scanner where
  scan : ScannerState → Array Bool → ScanContext → ScanOutcome
  scan_leads : ∀ state valid (context : ScanContext),
    context.Leads (scan state valid context).context

end IncrementalGlr
