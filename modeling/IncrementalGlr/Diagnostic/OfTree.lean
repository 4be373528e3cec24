import IncrementalGlr.Diagnostic.Basic
import IncrementalGlr.Text.Line
import IncrementalGlr.Tree.Node

/-!
# The diagnostics of a tree

Recovery leaves its marks in the tree: ERROR nodes around text that does not fit the grammar, ERROR
leaves where no token matched, and inserted tokens. Each mark is one diagnostic, in the order of the
text. An ERROR node that holds ERROR leaves alone is reported through them.
-/

namespace IncrementalGlr

namespace Diagnostic

def excerptLimit : Nat := 24

def excerpt (text : String) : String :=
  let shown := String.ofList ((firstLine text).take excerptLimit)
  if shown.utf8ByteSize < text.utf8ByteSize then shown ++ "..." else shown

def missing (node : Node) : Diagnostic :=
  let name :=
    if node.isNamed then String.ofList (node.kind.toList.dropWhile (· == '_'))
    else "`" ++ node.kind ++ "`"
  ⟨.missingToken, "missing " ++ name, some node.span, []⟩

def unrecognized (node : Node) (source : Source) : Diagnostic :=
  let text := (node.text? source).getD ""
  let noun := if text.length = 1 then "character" else "characters"
  ⟨.unrecognizedText, "unrecognized " ++ noun ++ " `" ++ excerpt text ++ "`", some node.span, []⟩

def unexpected (node : Node) (source : Source) : Diagnostic :=
  let text := trimmed ((node.text? source).getD "")
  let message :=
    if text.isEmpty then "unexpected end of input" else "unexpected `" ++ excerpt text ++ "`"
  let kinds := node.namedChildren.map (·.kind)
  ⟨.unexpectedText, message, some node.span,
    if kinds.isEmpty then [] else ["skipped " ++ ", ".intercalate kinds]⟩

def isUnrecognized (node : Node) : Bool := node.subtree.isError && node.subtree.isLeaf

def below (source : Source) : Nat → Node → List Diagnostic
  | 0, _ => []
  | fuel + 1, node =>
    let children := node.children
    if node.subtree.isMissing then [missing node]
    else if isUnrecognized node then [unrecognized node source]
    else if node.subtree.isError && !(!children.isEmpty && children.all isUnrecognized) then
      [unexpected node source]
    else (children.filter (·.subtree.hasError)).flatMap (below source fuel)

def ofTree (tree : Tree) (source : Source) : List Diagnostic :=
  if tree.hasError then below source tree.root.height tree.rootNode else []

end Diagnostic

end IncrementalGlr
