import IncrementalGlr.Token

/-!
# Subtrees

A subtree stores its size and never its position, so that the part of a tree that an edit does not
touch is part of the tree after it. What a parser and a reader of the tree ask for all the time is
summed up from the children when a node is built.

Sums are sums of 32-bit words. Costs are kept as they add up, and a word is made of them where they
are read (`errorCost`): sums and products are the same whether the words are taken before or after.
-/

namespace IncrementalGlr

namespace ErrorCost

def recovery : Nat := 500

def missingTree : Nat := 110

def skippedTree : Nat := 100

def skippedLine : Nat := 30

def skippedByte : Nat := 1

def ofSkipped (size : Length) : Nat :=
  recovery + skippedByte * size.bytes + skippedLine * size.extent.row
end ErrorCost

/-- The sum of two dynamic precedences, which is kept in 32 bits and wraps around. -/
def addPrecedences (a b : Int) : Int := (a + b).bmod (1 <<< 32)

structure SubtreeInfo where
  symbol : SymbolId
  size : Length
  lookahead : Nat
  parseState : StateId
  lexMode : LexModeId
  production : ProductionId
  isVisible : Bool
  isNamed : Bool
  /-- Stands outside of the productions, as white space, comments and skipped text do. -/
  isExtra : Bool
  isMissing : Bool
  isChanged : Bool
  isFragile : Bool
  hasExternals : Bool
  exactCost : Nat
  dynamicPrecedence : Int
  /-- The number of children that a reader sees, hidden subtrees replaced by their children. -/
  visibleChildCount : Nat
  namedChildCount : Nat
  scannerState : Option ScannerState
  deriving Repr, Inhabited

namespace SubtreeInfo

def errorCost (info : SubtreeInfo) : Nat := info.exactCost % UInt32.size

/-- The marks as bits, from the least: visible, named, extra, missing, changed, fragile, external
tokens. -/
def flagBits (info : SubtreeInfo) : Nat :=
  [info.isVisible, info.isNamed, info.isExtra, info.isMissing, info.isChanged, info.isFragile,
    info.hasExternals].foldr (fun flag bits => bits * 2 + flag.toNat) 0

end SubtreeInfo

inductive Subtree where
  | node (info : SubtreeInfo) (children : List Subtree)
  deriving Inhabited

namespace Subtree

def info : Subtree → SubtreeInfo
  | node info _ => info

def children : Subtree → List Subtree
  | node _ children => children

def symbol (tree : Subtree) : SymbolId := tree.info.symbol
def size (tree : Subtree) : Length := tree.info.size
def lookahead (tree : Subtree) : Nat := tree.info.lookahead
def parseState (tree : Subtree) : StateId := tree.info.parseState
def lexMode (tree : Subtree) : LexModeId := tree.info.lexMode
def production (tree : Subtree) : ProductionId := tree.info.production
def isVisible (tree : Subtree) : Bool := tree.info.isVisible
def isNamed (tree : Subtree) : Bool := tree.info.isNamed
def isExtra (tree : Subtree) : Bool := tree.info.isExtra
def isMissing (tree : Subtree) : Bool := tree.info.isMissing
def isChanged (tree : Subtree) : Bool := tree.info.isChanged
def isFragile (tree : Subtree) : Bool := tree.info.isFragile
def hasExternals (tree : Subtree) : Bool := tree.info.hasExternals
def exactCost (tree : Subtree) : Nat := tree.info.exactCost
def errorCost (tree : Subtree) : Nat := tree.info.errorCost
def dynamicPrecedence (tree : Subtree) : Int := tree.info.dynamicPrecedence
def visibleChildCount (tree : Subtree) : Nat := tree.info.visibleChildCount
def namedChildCount (tree : Subtree) : Nat := tree.info.namedChildCount

def isError (tree : Subtree) : Bool := tree.symbol.isError

/-- Whether an ERROR node or an inserted token is in the tree, as far as the cost tells. -/
def hasError (tree : Subtree) : Bool := tree.errorCost > 0

def isLeaf (tree : Subtree) : Bool := tree.children.isEmpty

def modify (tree : Subtree) (f : SubtreeInfo → SubtreeInfo) : Subtree :=
  node (f tree.info) tree.children

def withExtra (tree : Subtree) (isExtra : Bool) : Subtree :=
  tree.modify fun info => { info with isExtra }

def withFragile (tree : Subtree) : Subtree :=
  tree.modify fun info => { info with isFragile := true }

def withParseState (tree : Subtree) (parseState : StateId) : Subtree :=
  tree.modify fun info => { info with parseState }

def withReach (tree : Subtree) (reach : Nat) : Subtree :=
  tree.modify fun info =>
    { info with lookahead := max info.lookahead (reach - info.size.bytes) }

mutual

def height : Subtree → Nat
  | node _ children => heights children + 1

def heights : List Subtree → Nat
  | [] => 0
  | tree :: rest => max tree.height (heights rest)

end

mutual

def leaves : Subtree → List Subtree
  | node info [] => [node info []]
  | node _ (child :: rest) => child.leaves ++ leavesOf rest

def leavesOf : List Subtree → List Subtree
  | [] => []
  | tree :: rest => tree.leaves ++ leavesOf rest

end

def firstLeaf : Subtree → Subtree
  | node info [] => node info []
  | node _ (child :: _) => child.firstLeaf

mutual

def lastScannerState : Subtree → Option ScannerState
  | node info [] => info.scannerState
  | node _ (child :: rest) => (lastScannerStateOf (child :: rest)).getD none

def lastScannerStateOf : List Subtree → Option (Option ScannerState)
  | [] => none
  | tree :: rest =>
    match lastScannerStateOf rest with
    | some state => some state
    | none => if tree.hasExternals then some tree.lastScannerState else none

end

mutual

/-- Whether two trees have the same symbols, sizes, productions, extras and inserted tokens at
every place, however they were built. -/
def structurallyEq : Subtree → Subtree → Bool
  | node a as, node b bs =>
    a.symbol == b.symbol && a.size == b.size && a.isExtra == b.isExtra
      && a.isMissing == b.isMissing && a.production == b.production && allStructurallyEq as bs

def allStructurallyEq : List Subtree → List Subtree → Bool
  | [], [] => true
  | a :: as, b :: bs => a.structurallyEq b && allStructurallyEq as bs
  | _, _ => false

end

def describe (tree : Subtree) : String :=
  s!"{tree.symbol.describe}[{tree.size.bytes}b" ++ (if tree.isMissing then " missing" else "")
    ++ (if tree.isExtra then " extra" else "")
    ++ (if tree.isLeaf then "" else s!" {tree.children.length} children") ++ "]"

def emptyInfo (language : Language) (symbol : SymbolId) : SubtreeInfo where
  symbol
  size := Length.zero
  lookahead := 0
  parseState := StateId.none
  lexMode := unionLexMode
  production := ⟨0⟩
  isVisible := language.isVisible symbol
  isNamed := language.isNamed symbol
  isExtra := false
  isMissing := false
  isChanged := false
  isFragile := false
  hasExternals := false
  exactCost := 0
  dynamicPrecedence := 0
  visibleChildCount := 0
  namedChildCount := 0
  scannerState := none

def leaf (language : Language) (token : Token) (parseState : StateId) (isExtra : Bool) : Subtree :=
  node
    { emptyInfo language token.symbol with
      size := token.size
      lookahead := token.lookahead
      parseState
      lexMode := token.lexMode
      isExtra
      hasExternals := token.scannerState.isSome
      exactCost := if token.symbol.isError then ErrorCost.ofSkipped token.size else 0
      scannerState := token.scannerState }
    []

/-- A token that is not in the text. It is visible even if its terminal is hidden. -/
def missing (language : Language) (symbol : SymbolId) (parseState : StateId) : Subtree :=
  node
    { emptyInfo language symbol with
      parseState
      isVisible := true
      isMissing := true
      exactCost := ErrorCost.missingTree + ErrorCost.recovery }
    []

end Subtree

def Table.stepsOf (table : Table) (symbol : SymbolId) (production : ProductionId) :
    List ProductionStep :=
  match table.productions[production.index]? with
  | some p => if p.lhs == symbol then p.steps else []
  | none => []

def assignSteps : List ProductionStep → List Subtree → List (Subtree × Option ProductionStep)
  | _, [] => []
  | steps, child :: rest =>
    if child.isExtra then (child, none) :: assignSteps steps rest
    else (child, steps.head?) :: assignSteps steps.tail rest

def aliasOf (step : Option ProductionStep) : Option SymbolId := step.bind (·.aliasSymbol)

def isShown (language : Language) (child : Subtree) (step : Option ProductionStep) : Bool :=
  match aliasOf step with
  | some symbol => language.isVisible symbol
  | none => child.isVisible

def isShownNamed (language : Language) (child : Subtree) (step : Option ProductionStep) : Bool :=
  match aliasOf step with
  | some symbol => language.isNamed symbol
  | none => child.isNamed

namespace Subtree

def shownCount (language : Language) (child : Subtree × Option ProductionStep) : Nat :=
  if isShown language child.1 child.2 then 1 else child.1.visibleChildCount

def shownNamedCount (language : Language) (child : Subtree × Option ProductionStep) : Nat :=
  if isShown language child.1 child.2 then (isShownNamed language child.1 child.2).toNat
  else child.1.namedChildCount

/-- The end of all that was examined for the trees, the first of which starts at the given byte. A
lexer examines no more than one byte behind its text. -/
def reachOf : Nat → List Subtree → Nat
  | _, [] => 0
  | start, tree :: rest =>
    max (start + tree.size.bytes + tree.lookahead) (reachOf (start + tree.size.bytes) rest)

def summary (language : Language) (symbol : SymbolId) (production : ProductionId)
    (children : List Subtree) : SubtreeInfo :=
  let size := Length.sum (children.map (·.size))
  let steps := assignSteps (language.table.stepsOf symbol production) children
  { emptyInfo language symbol with
    production
    size
    lookahead := reachOf 0 children - size.bytes
    parseState := (children.head?.map (·.parseState)).getD StateId.none
    lexMode := (children.head?.map (·.lexMode)).getD unionLexMode
    isFragile := children.any (·.isFragile)
    hasExternals := children.any (·.hasExternals)
    exactCost := children.foldr (·.exactCost + ·) 0
    dynamicPrecedence := children.foldr (addPrecedences ·.dynamicPrecedence ·) 0
    visibleChildCount := steps.foldr (shownCount language · + ·) 0 % UInt32.size
    namedChildCount := steps.foldr (shownNamedCount language · + ·) 0 % UInt32.size }

def ofProduction (language : Language) (symbol : SymbolId) (production : ProductionId)
    (children : List Subtree) : Subtree :=
  let own : Int := (language.table.productions[production.index]?).elim 0 fun p =>
    p.dynamicPrecedence.toInt
  let info := summary language symbol production children
  node { info with dynamicPrecedence := addPrecedences info.dynamicPrecedence own } children

def skippedTreeCost (child : Subtree) : Nat :=
  if child.isExtra then 0
  else if child.isVisible then ErrorCost.skippedTree
  else ErrorCost.skippedTree * child.visibleChildCount

/-- A node for trees that were skipped or taken off the stack. It is an extra, so that no later
reduction counts it. -/
def errorNode (language : Language) (children : List Subtree) : Subtree :=
  let info := summary language SymbolId.error ⟨0⟩ children
  node
    { info with
      isExtra := true
      -- The bytes and rows of `info.size` are those of the exact size, as words.
      exactCost := info.exactCost + ErrorCost.ofSkipped (Length.concat (children.map (·.size)))
        + children.foldr (skippedTreeCost · + ·) 0 }
    children

end Subtree

end IncrementalGlr
