import IncrementalGlr.Parse.Stack
import IncrementalGlr.Parse.Options
import IncrementalGlr.Lexer.Basic

/-!
# Versions of a parse

While the table leaves a choice open, a parse goes on in several versions. Each has a stack of its
own and its own next token, because the token depends on the state in which it is lexed.
-/

namespace IncrementalGlr

structure ParseInput where
  language : Language
  options : ParserOptions
  source : Source
  fits : source.size < UInt32.size

/-- Parses that compete for the same text: fewer errors win, then the higher dynamic precedence. -/
structure Rank where
  errorCost : Nat
  dynamicPrecedence : Int
  deriving DecidableEq, Repr, Inhabited

namespace Rank

def beats (rank other : Rank) : Bool :=
  rank.errorCost < other.errorCost
    || (rank.errorCost == other.errorCost && other.dynamicPrecedence < rank.dynamicPrecedence)

end Rank

def Stack.rank (stack : Stack) : Rank := ⟨stack.errorCost, stack.dynamicPrecedence⟩

def Subtree.rank (tree : Subtree) : Rank := ⟨tree.errorCost, tree.dynamicPrecedence⟩

inductive Lookahead where
  | token (token : Token)
  | reused (subtree : Subtree)

namespace Lookahead

def symbol : Lookahead → SymbolId
  | .token lexed => lexed.symbol
  | .reused tree => tree.firstLeaf.symbol

def reach (position : Length) : Lookahead → Nat
  | .token lexed => lexed.reach
  | .reused tree => position.bytes + tree.firstLeaf.size.bytes + tree.firstLeaf.lookahead

end Lookahead

structure Version where
  stack : Stack
  lookahead : Option Lookahead
  /-- The mode of the lookahead, if it differs from that of the stack's state: reductions move to
  other states, and the mode of a token stays the same behind an extra. -/
  lexMode : Option LexModeId
  deriving Inhabited

namespace Version

def start : Version := ⟨[], none, none⟩

def state (version : Version) : StateId := version.stack.state

def nextLexMode (version : Version) (language : Language) : LexModeId :=
  version.lexMode.getD (language.lexModeOfState version.state)

def shift (version : Version) (subtree : Subtree) (next : StateId) : Version :=
  ⟨version.stack.push subtree next, none, if subtree.isExtra then version.lexMode else none⟩

end Version

namespace ParseInput

def scannerState (input : ParseInput) (stack : Stack) : Option ScannerState :=
  if input.language.externalTokens.isEmpty then none else stack.lastScannerState

def lex (input : ParseInput) (stack : Stack) (mode : LexModeId) : Token :=
  ((Lexer.ofSource input.language input.source).seek stack.position).next mode
    (input.language.lexMode mode) (input.scannerState stack)

/-- The stack after a reduction, with a lookahead that was examined up to `reach`. There is none if
the stack holds too few subtrees or its state does not go on with the symbol. -/
def reduce (input : ParseInput) (stack : Stack) (reach : Nat) (isFragile : Bool)
    (symbol : SymbolId) (childCount : UInt16) (production : ProductionId) : Option Stack := do
  let popped ← stack.pop childCount.toNat
  let next ← input.language.goto? popped.below.state symbol
  let node := (Subtree.ofProduction input.language symbol production popped.children).withReach
    (reach - popped.below.position.bytes)
  let node := if isFragile then node.withFragile else node
  return popped.trailing.foldl (fun stack extra => stack.push extra next)
    (popped.below.push node next)

/-- The production of a root that no production built, so that its children have neither fields nor
other names. -/
def noProduction : ProductionId := ⟨0xFFFF⟩

/-- A root for text that does not fit the grammar: everything that was parsed as one ERROR node. -/
def errorRoot (input : ParseInput) (stack : Stack) : Subtree :=
  Subtree.ofProduction input.language input.language.table.startSymbol noProduction
    [Subtree.errorNode input.language stack.subtrees]

/-- The root that an accepted stack becomes: the start symbol's node takes in the extras around
it. -/
def root (input : ParseInput) (stack : Stack) : Subtree :=
  let isExtra (entry : StackEntry) : Bool := entry.subtree.isExtra
  match stack.dropWhile isExtra with
  | top :: below =>
    if top.subtree.symbol == input.language.table.startSymbol then
      Subtree.ofProduction input.language top.subtree.symbol top.subtree.production
        (Stack.subtrees below ++ top.subtree.children
          ++ Stack.subtrees (stack.takeWhile isExtra))
    else input.errorRoot stack
  | [] => input.errorRoot stack

end ParseInput

end IncrementalGlr
