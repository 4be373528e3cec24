import IncrementalGlr.Tree.Basic
import IncrementalGlr.Text.Quoted

/-!
# Nodes

A `Node` is a visible subtree at its place in a tree, under the name and the field that its parent's
production gives it. Hidden subtrees are no nodes; the nodes in them count as children of the
nearest visible subtree above.
-/

namespace IncrementalGlr

structure Node where
  tree : Tree
  subtree : Subtree
  start : Length
  aliasSymbol : Option SymbolId
  field : Option FieldId
  /-- The way from the root to the subtree: at each level the number of the child, innermost
  first. -/
  path : List Nat

namespace Node

def root (tree : Tree) : Node := ⟨tree, tree.root, Length.zero, none, none, []⟩

def language (node : Node) : Language := node.tree.language

def kindId (node : Node) : SymbolId := node.aliasSymbol.getD node.subtree.symbol

def kind (node : Node) : String := node.language.symbolName node.kindId

def isNamed (node : Node) : Bool :=
  match node.aliasSymbol with
  | some symbol => node.language.isNamed symbol
  | none => node.subtree.isNamed

def stop (node : Node) : Length := node.start + node.subtree.size

def startByte (node : Node) : Nat := node.start.bytes

def stopByte (node : Node) : Nat := node.stop.bytes

def span (node : Node) : Span := ⟨node.start, node.stop⟩

def fieldName? (node : Node) : Option String :=
  node.field.bind node.language.fieldName?

mutual

/-- The nodes below a subtree at `path`. A hidden subtree passes its field on to the children that
have none of their own. -/
def below (tree : Tree) (path : List Nat) (start : Length) (inherited : Option FieldId) :
    Subtree → List Node
  | .node info children =>
    among tree path start inherited
      (tree.language.table.stepsOf info.symbol info.production) 0 children

def among (tree : Tree) (path : List Nat) (start : Length) (inherited : Option FieldId)
    (steps : List ProductionStep) (index : Nat) : List Subtree → List Node
  | [] => []
  | child :: rest =>
    let step := if child.isExtra then none else steps.head?
    let field := (step.bind (·.field)).or inherited
    let nodes :=
      if isShown tree.language child step then
        [⟨tree, child, start, aliasOf step, field, index :: path⟩]
      else below tree (index :: path) start field child
    nodes ++ among tree path (start + child.size) inherited
      (if child.isExtra then steps else steps.tail) (index + 1) rest

end

def children (node : Node) : List Node :=
  below node.tree node.path node.start none node.subtree

def namedChildren (node : Node) : List Node := node.children.filter (·.isNamed)

def childCount (node : Node) : Nat := node.subtree.visibleChildCount

def namedChildCount (node : Node) : Nat := node.subtree.namedChildCount

def child? (node : Node) (index : Nat) : Option Node := node.children[index]?

def namedChild? (node : Node) (index : Nat) : Option Node := node.namedChildren[index]?

def childrenOfField (node : Node) (name : String) : List Node :=
  match node.language.fieldOfName? name with
  | some field => node.children.filter fun child => child.field == some field
  | none => []

def childOfField? (node : Node) (name : String) : Option Node :=
  (node.childrenOfField name).head?

def fieldNameOfChild? (node : Node) (index : Nat) : Option String :=
  (node.child? index).bind (·.fieldName?)

/-- Whether both are the same place of the tree. -/
def isSamePlace (node other : Node) : Bool :=
  node.path == other.path && node.start == other.start

def isSame (node other : Node) : Bool :=
  node.isSamePlace other && node.aliasSymbol == other.aliasSymbol

/-- Among `candidate` and the nodes below it, the one that has `node` as a child. The search goes
down, at most `fuel` levels, into the nodes that cover the text of `node`. -/
def parentWithin : Nat → Node → Node → Option Node
  | 0, _, _ => none
  | fuel + 1, candidate, node =>
    let children := candidate.children
    if children.any (·.isSamePlace node) then some candidate
    else
      (children.reverse.filter fun child =>
        child.startByte ≤ node.startByte && node.stopByte ≤ child.stopByte
          && !child.subtree.isLeaf).findSome? fun child => parentWithin fuel child node

def parent? (node : Node) : Option Node :=
  parentWithin node.tree.root.height (root node.tree) node

def nextSibling? (node : Node) : Option Node := do
  let parent ← node.parent?
  ((parent.children.dropWhile fun child => !child.isSamePlace node).drop 1).head?

def prevSibling? (node : Node) : Option Node := do
  let parent ← node.parent?
  let before := parent.children.takeWhile fun child => !child.isSamePlace node
  if before.length < parent.children.length then before.getLast? else none

/-- Goes down, at most `fuel` levels, to the children that contain the bytes from `start` to `stop`.
An empty stretch between two nodes belongs to the second. -/
def descendWithin : Nat → Nat → Nat → Node → Node
  | 0, _, _, node => node
  | fuel + 1, start, stop, node =>
    let inside := (node.children.takeWhile fun child => child.startByte ≤ start).find? fun child =>
      stop ≤ child.stopByte && (start < child.stopByte || child.startByte == child.stopByte)
    match inside with
    | some child => descendWithin fuel start stop child
    | none => node

def descendant? (node : Node) (start stop : Nat) : Option Node :=
  if start < node.startByte || node.stopByte < stop then none
  else some (descendWithin node.subtree.height start stop node)

def text? (node : Node) (source : Source) : Option String :=
  if node.stopByte ≤ source.size && source.isBoundary node.startByte
      && source.isBoundary node.stopByte then
    some (source.slice node.startByte node.stopByte)
  else none

def writeExpression : Nat → Node → String → String
  | 0, _, out => out
  | fuel + 1, node, out =>
    if node.subtree.isMissing then
      if node.isNamed then out ++ "(MISSING " ++ node.kind ++ ")"
      else out ++ "(MISSING " ++ quoted node.kind ++ ")"
    else
      let out := node.namedChildren.foldl
        (fun out child =>
          let out := match child.fieldName? with
            | some field => out ++ " " ++ field ++ ": "
            | none => out ++ " "
          writeExpression fuel child out)
        (out ++ "(" ++ node.kind)
      out ++ ")"

/-- The named nodes as a parenthesized expression, `(kind field: (child) …)`. Inserted tokens are
written `(MISSING kind)`. -/
def expression (node : Node) : String :=
  node.writeExpression node.subtree.height ""

def describe (node : Node) : String :=
  "\x7bNode " ++ node.kind ++ s!" {node.start.extent.display} - {node.stop.extent.display}"
    ++ "\x7d"

end Node

namespace Tree

def rootNode (tree : Tree) : Node := Node.root tree

def expression (tree : Tree) : String := tree.rootNode.expression

def describe (tree : Tree) : String :=
  "\x7bTree " ++ quoted tree.language.name ++ " " ++ tree.expression ++ "\x7d"

end Tree

end IncrementalGlr
