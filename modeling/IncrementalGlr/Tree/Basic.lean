import IncrementalGlr.Tree.Subtree
import IncrementalGlr.Text.Edit

/-!
# Trees

A tree is a root subtree, the language it was parsed with, and the edits of its text since then. An
edit moves the sizes of the subtrees that it touches and marks them as changed; all other subtrees
stay as they are.
-/

namespace IncrementalGlr

namespace Subtree

mutual

/-- The subtree at `start` after an edit of the text. The subtrees at the right end of the tree
(`last`) take in what is inserted behind the text. -/
def edited (edit : Edit) (start : Length) (last : Bool) : Subtree → Subtree
  | node info children =>
    let stop := start + info.size
    if edit.touches start.bytes stop.bytes info.lookahead then
      match children with
      | [] =>
        let newStop :=
          if last then edit.newEnd + (stop - edit.oldEnd) else edit.mapPosition stop
        node { info with size := newStop - edit.mapPosition start, isChanged := true } []
      | child :: rest =>
        let children := editedList edit start last (child :: rest)
        node { info with size := Length.sum (children.map (·.size)), isChanged := true } children
    else node info children

def editedList (edit : Edit) (start : Length) (last : Bool) : List Subtree → List Subtree
  | [] => []
  | tree :: rest =>
    tree.edited edit start (last && rest.isEmpty)
      :: editedList edit (start + tree.size) last rest

end

mutual

def leavesAt (start : Length) : Subtree → List (Subtree × Length)
  | node info [] => [(node info [], start)]
  | node _ (child :: rest) => leavesAtList start (child :: rest)

def leavesAtList (start : Length) : List Subtree → List (Subtree × Length)
  | [] => []
  | tree :: rest => tree.leavesAt start ++ leavesAtList (start + tree.size) rest

end

mutual

/-- A subtree and everything in it, each with its depth, from the top down and from left to
right. -/
def preorder (depth : Nat) : Subtree → List (Nat × Subtree)
  | node info children => (depth, node info children) :: preorderList (depth + 1) children

def preorderList (depth : Nat) : List Subtree → List (Nat × Subtree)
  | [] => []
  | tree :: rest => tree.preorder depth ++ preorderList depth rest

end

end Subtree

structure Tree where
  root : Subtree
  language : Language
  edits : List Edit
  deriving Inhabited

namespace Tree

def ofRoot (root : Subtree) (language : Language) : Tree := ⟨root, language, []⟩

def sourceSize (tree : Tree) : Nat := tree.root.size.bytes

def hasError (tree : Tree) : Bool := tree.root.hasError

def leaves (tree : Tree) : List (Subtree × Length) := tree.root.leavesAt Length.zero

def structurallyEq (tree other : Tree) : Bool := tree.root.structurallyEq other.root

def edit (tree : Tree) (edit : Edit) : Tree :=
  { tree with
    root := tree.root.edited edit Length.zero true
    edits := tree.edits ++ [edit] }

end Tree

end IncrementalGlr
