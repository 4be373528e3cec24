import IncrementalGlr.Tree.Subtree

/-!
# Parse stacks

A stack is the list of its entries, the top first. Versions of the stack that were forked share the
entries below the fork. Below all entries the stack is in the start state, at the start of the text.
-/

namespace IncrementalGlr

structure StackEntry where
  state : StateId
  subtree : Subtree
  position : Length
  exactCost : Nat
  dynamicPrecedence : Int
  deriving Inhabited

abbrev Stack := List StackEntry

abbrev StateTrace := List StateId

def StateTrace.state (trace : StateTrace) : StateId := trace.head?.getD StateId.start

namespace Stack

def state (stack : Stack) : StateId := (stack.head?.map (·.state)).getD StateId.start

def position (stack : Stack) : Length := (stack.head?.map (·.position)).getD Length.zero

def exactCost (stack : Stack) : Nat := (stack.head?.map (·.exactCost)).getD 0

def errorCost (stack : Stack) : Nat := stack.exactCost % UInt32.size

def dynamicPrecedence (stack : Stack) : Int := (stack.head?.map (·.dynamicPrecedence)).getD 0

def push (stack : Stack) (subtree : Subtree) (state : StateId) : Stack :=
  { state
    subtree
    position := stack.position + subtree.size
    exactCost := stack.exactCost + subtree.exactCost
    dynamicPrecedence := addPrecedences stack.dynamicPrecedence subtree.dynamicPrecedence }
    :: stack

/-- Takes entries down to the one that holds the subtree number `count` that is no extra. Answers
the subtrees, the top first, and what is left. -/
def take : Nat → Stack → Option (List Subtree × Stack)
  | 0, stack => some ([], stack)
  | _ + 1, [] => none
  | count + 1, entry :: below =>
    (take (if entry.subtree.isExtra then count + 1 else count) below).map
      fun (taken, rest) => (entry.subtree :: taken, rest)

/-- Takes the subtrees down to the one that is number `count` of those that are no extras. Answers
them from left to right. -/
def popEntries (stack : Stack) (count : Nat) : Option (List Subtree × Stack) :=
  (stack.take count).map fun (taken, rest) => (taken.reverse, rest)

structure Popped where
  below : Stack
  children : List Subtree
  trailing : List Subtree

/-- Pops the children of a reduction. A node does not end in extras: those behind its last child
stay apart. A node without children takes nothing. -/
def pop (stack : Stack) (count : Nat) : Option Popped :=
  let isExtra (entry : StackEntry) : Bool := count > 0 && entry.subtree.isExtra
  let trailing := stack.takeWhile isExtra
  (popEntries (stack.dropWhile isExtra) count).map fun (children, below) =>
    ⟨below, children, (trailing.map (·.subtree)).reverse⟩

def subtrees (stack : Stack) : List Subtree := (stack.map (·.subtree)).reverse

def lastScannerState (stack : Stack) : Option ScannerState :=
  (stack.find? fun entry => entry.subtree.hasExternals).bind (·.subtree.lastScannerState)

def states (stack : Stack) : StateTrace :=
  (stack.filter fun entry => !entry.subtree.isExtra).map (·.state)

/-- Whether two stacks are in the same states all the way down, extras passed over. Such stacks
behave in the same way from here on. -/
def sameStates : Stack → Stack → Bool
  | [], other => other.all (·.subtree.isExtra)
  | entry :: below, other =>
    if entry.subtree.isExtra then sameStates below other
    else match other.dropWhile (·.subtree.isExtra) with
      | top :: rest => entry.state == top.state && sameStates below rest
      | [] => false

end Stack

end IncrementalGlr
