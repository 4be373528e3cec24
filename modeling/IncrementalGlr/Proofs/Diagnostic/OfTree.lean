import IncrementalGlr.Diagnostic.OfTree
import IncrementalGlr.Proofs.Parse.Construction
import IncrementalGlr.Proofs.Parse.Derivation
import IncrementalGlr.Proofs.Table.Compilation
import IncrementalGlr.Proofs.Tree.Places

/-!
# Diagnostics report every fault

The walk over a tree goes down only where the costs tell of faults, and through visible nodes only.
If the cost of the tree is a word, it misses none: a fault is reported itself, or a fault above it
is, or it is an ERROR node that is reported through its leaves. The stretches that are reported
follow one another in the text.
-/

namespace IncrementalGlr

theorem Node.IsAt.isAccounted {tree : Tree} {node : Node} {path : List Nat}
    (here : node.IsAt tree path) (accounted : tree.root.IsAccounted)
    (word : tree.root.exactCost < UInt32.size) :
    node.subtree.IsAccounted ∧ node.subtree.exactCost < UInt32.size := by
  obtain ⟨offset, there, _⟩ := here.place
  exact ⟨Subtree.Every.at? accounted there, (accounted.at?_exactCost_le there).trans_lt word⟩

namespace Diagnostic

/-- The node is an ERROR node that is reported through its children: all of them are leaves of text
that no token matched. -/
def isTransparent (node : Node) : Bool :=
  !node.children.isEmpty && node.children.all isUnrecognized

def isReported (node : Node) : Bool :=
  node.subtree.isMissing || isUnrecognized node || (node.subtree.isError && !isTransparent node)

def reportedBelow : Nat → Node → List Node
  | 0, _ => []
  | fuel + 1, node =>
    if isReported node then [node]
    else (node.children.filter (·.subtree.hasError)).flatMap (reportedBelow fuel)

def reported (tree : Tree) : List Node :=
  if tree.hasError then reportedBelow tree.root.height tree.rootNode else []

def ofNode (source : Source) (node : Node) : Diagnostic :=
  if node.subtree.isMissing then missing node
  else if isUnrecognized node then unrecognized node source
  else unexpected node source

theorem span_ofNode (source : Source) (node : Node) :
    (ofNode source node).span = some node.span := by
  unfold ofNode
  split
  · rfl
  · split <;> rfl

theorem below_eq_map (source : Source) (fuel : Nat) (node : Node) :
    below source fuel node = (reportedBelow fuel node).map (ofNode source) := by
  induction fuel generalizing node with
  | zero => rfl
  | succ fuel ih =>
    rw [below, reportedBelow, isReported, isTransparent]
    split
    · next missing =>
        rw [missing, Bool.true_or, Bool.true_or, if_pos rfl, List.map_singleton, ofNode,
          if_pos missing]
    · next present =>
        split
        · next leaf =>
            rw [leaf, Bool.or_true, Bool.true_or, if_pos rfl, List.map_singleton, ofNode,
              if_neg present, if_pos leaf]
        · next interior =>
            rw [Bool.eq_false_iff.2 present, Bool.eq_false_iff.2 interior, Bool.false_or,
              Bool.false_or]
            split
            · rw [List.map_singleton, ofNode, if_neg present, if_neg interior]
            · rw [List.map_flatMap]
              exact congrArg (List.flatMap · _) (funext ih)

theorem ofTree_eq_map (tree : Tree) (source : Source) :
    ofTree tree source = (reported tree).map (ofNode source) := by
  rw [ofTree, reported]
  split
  · exact below_eq_map ..
  · rfl

theorem isFault_of_isReported {node : Node} (h : isReported node = true) :
    node.subtree.IsFault := by
  rw [isReported, isUnrecognized, Bool.or_eq_true, Bool.or_eq_true, Bool.and_eq_true,
    Bool.and_eq_true] at h
  rcases h with (missing | ⟨isError, _⟩) | ⟨isError, _⟩
  · exact .inr missing
  · exact .inl isError
  · exact .inl isError

inductive Tells (nodes : List Node) (tree : Tree) (path : List Nat) : Prop
  | itself {node : Node} (member : node ∈ nodes) (here : node.IsAt tree path)
  | above {node : Node} {upper : List Nat} {i : Nat} {more : List Nat} (member : node ∈ nodes)
      (isError : node.subtree.isError = true) (here : node.IsAt tree upper)
      (way : path = upper ++ i :: more)
  | through {node : Node} (here : node.IsAt tree path) (isError : node.subtree.isError = true)
      (interior : node.children ≠ [])
      (leaves : ∀ child ∈ node.children, isUnrecognized child = true ∧ child ∈ nodes)

theorem Tells.mono {nodes others : List Node} {tree : Tree} {path : List Nat}
    (h : Tells nodes tree path) (more : nodes ⊆ others) : Tells others tree path := by
  cases h with
  | itself member here => exact .itself (more member) here
  | above member isError here way => exact .above (more member) isError here way
  | through here isError interior leaves =>
    exact .through here isError interior fun child member =>
      ⟨(leaves child member).1, more (leaves child member).2⟩

section Walk

variable {tree : Tree} {node : Node} {path : List Nat} {scale : Scale}

theorem mem_reportedBelow {fuel : Nat} (here : node.IsAt tree path) {other : Node}
    (member : other ∈ reportedBelow fuel node) :
    ∃ more, other.IsAt tree (path ++ more) ∧ isReported other = true := by
  induction fuel generalizing node path with
  | zero => contradiction
  | succ fuel ih =>
    rw [reportedBelow] at member
    split at member
    · next reported =>
        rw [List.mem_singleton.1 member]
        exact ⟨[], by rwa [List.append_nil], reported⟩
    · obtain ⟨child, inside, member⟩ := List.mem_flatMap.1 member
      obtain ⟨i, upper, _, there, _⟩ := here.child (List.mem_filter.1 inside).1
      obtain ⟨more, found, reported⟩ := ih there member
      exact ⟨i :: upper ++ more, by rwa [← List.append_assoc], reported⟩

theorem inOrder_reportedBelow {fuel : Nat} (here : node.IsAt tree path)
    (solid : tree.root.IsSolid) (within : tree.root.IsWithin scale) :
    Node.InOrder scale node.start node.stop (reportedBelow fuel node) := by
  induction fuel generalizing node path with
  | zero => exact Node.inOrder_nil _ _ _
  | succ fuel ih =>
    rw [reportedBelow]
    split
    · exact Node.inOrder_singleton scale node
    · refine ((here.inOrder solid within).filter _).flatMap fun child inside => ?_
      obtain ⟨i, more, _, there, _⟩ := here.child (List.mem_filter.1 inside).1
      exact ih there

theorem isError_of_isReported (accounted : node.subtree.IsAccounted)
    (reported : isReported node = true) (interior : node.subtree.children ≠ []) :
    node.subtree.isError = true := by
  rw [isReported, isUnrecognized, Bool.or_eq_true, Bool.or_eq_true, Bool.and_eq_true,
    Bool.and_eq_true] at reported
  rcases reported with (missing | ⟨isError, _⟩) | ⟨isError, _⟩
  · exact absurd (accounted.leaf missing) interior
  · exact isError
  · exact isError

theorem isTransparent_of_isFault (fault : node.subtree.IsFault)
    (unreported : ¬ isReported node = true) :
    node.subtree.isError = true ∧ isTransparent node = true := by
  rw [isReported, Bool.or_eq_true, Bool.or_eq_true, not_or, not_or, Bool.and_eq_true,
    Bool.not_eq_true', not_and, Bool.not_eq_false] at unreported
  obtain ⟨⟨present, _⟩, through⟩ := unreported
  have isError := fault.resolve_right present
  exact ⟨isError, through isError⟩

theorem isReported_of_isUnrecognized (h : isUnrecognized node = true) : isReported node = true := by
  rw [isReported, h, Bool.or_true, Bool.true_or]

theorem reportedBelow_of_isReported {fuel : Nat} (h : isReported node = true)
    (deep : node.subtree.height ≤ fuel) : reportedBelow fuel node = [node] := by
  cases fuel with
  | zero => exact absurd (Nat.lt_of_lt_of_le node.subtree.height_pos deep) (Nat.lt_irrefl 0)
  | succ fuel => rw [reportedBelow, if_pos h]

theorem reportedBelow_subset {fuel : Nat} {child : Node} (member : child ∈ node.children)
    (fault : child.subtree.hasError = true) : reportedBelow fuel child ⊆
      (node.children.filter (·.subtree.hasError)).flatMap (reportedBelow fuel) := fun _ listed =>
  List.mem_flatMap.2 ⟨child, List.mem_filter.2 ⟨member, fault⟩, listed⟩

theorem tells_of_isTransparent (accounted : tree.root.IsAccounted)
    (word : tree.root.exactCost < UInt32.size) {fuel : Nat} (here : node.IsAt tree path)
    (deep : node.subtree.height ≤ fuel + 1) (isError : node.subtree.isError = true)
    (transparent : isTransparent node = true) :
    Tells ((node.children.filter (·.subtree.hasError)).flatMap (reportedBelow fuel)) tree
      path := by
  rw [isTransparent, Bool.and_eq_true, Bool.not_eq_true', List.isEmpty_eq_false_iff,
    List.all_eq_true] at transparent
  refine .through here isError transparent.1 fun child member => ?_
  have leaf := transparent.2 child member
  obtain ⟨_, _, _, there, _⟩ := here.child member
  obtain ⟨own, small⟩ := there.isAccounted accounted word
  have faulty := (own.hasError_iff small).2
    ⟨[], _, _, rfl, .inl (Bool.and_eq_true_iff.1 leaf).1⟩
  refine ⟨leaf, reportedBelow_subset member faulty ?_⟩
  have lower := Nat.le_of_lt_succ (Nat.lt_of_lt_of_le (here.height_child_lt member) deep)
  rw [reportedBelow_of_isReported (isReported_of_isUnrecognized leaf) lower]
  exact List.mem_singleton_self _

theorem tells_reportedBelow (shows : tree.language.ShowsAliases)
    (accounted : tree.root.IsAccounted) (word : tree.root.exactCost < UInt32.size) {fuel : Nat}
    (here : node.IsAt tree path) (deep : node.subtree.height ≤ fuel) {more : List Nat}
    {offset : Length} {found : Subtree}
    (there : node.subtree.at? more = some (offset, found)) (fault : found.IsFault) :
    Tells (reportedBelow fuel node) tree (path ++ more) := by
  induction fuel generalizing node path more offset with
  | zero => exact absurd (Nat.lt_of_lt_of_le node.subtree.height_pos deep) (Nat.lt_irrefl 0)
  | succ fuel ih =>
    obtain ⟨known, _⟩ := here.isAccounted accounted word
    by_cases reported : isReported node = true
    · rw [reportedBelow, if_pos reported]
      cases more with
      | nil => exact .itself (List.mem_singleton_self _) (by rwa [List.append_nil])
      | cons i more =>
        refine .above (List.mem_singleton_self _) (isError_of_isReported known reported ?_) here rfl
        obtain ⟨child, _, inside, _⟩ := Subtree.at?_cons.1 there
        exact List.ne_nil_of_mem (List.mem_of_getElem? inside)
    · rw [reportedBelow, if_neg reported]
      cases more with
      | nil =>
        cases there
        obtain ⟨isError, transparent⟩ := isTransparent_of_isFault fault reported
        rw [List.append_nil]
        exact tells_of_isTransparent accounted word here deep isError transparent
      | cons i more =>
        have visible : found.isVisible = true :=
          Subtree.IsAccounted.visible (Subtree.Every.at? known there) fault
        obtain ⟨child, member, upper, rest, offset', whole, way, below⟩ :=
          Node.exists_mem_below (here.whole.symm ▸ shows) there visible node.path node.start none
        obtain ⟨j, behind, _, place, _⟩ := here.child member
        obtain rfl : j :: behind = upper := by
          have same := place.way.symm.trans way
          rw [here.way, ← List.reverse_append, List.reverse_inj] at same
          exact List.append_cancel_left same
        obtain ⟨own, small⟩ := place.isAccounted accounted word
        have faulty := (own.hasError_iff small).2 ⟨rest, offset', found, below, fault⟩
        have lower := Nat.le_of_lt_succ (Nat.lt_of_lt_of_le (here.height_child_lt member) deep)
        rw [whole, ← List.append_assoc]
        exact (ih place lower below).mono (reportedBelow_subset member faulty)

end Walk

def IsAbout (diagnostic : Diagnostic) (text : String) (span : Span) : Prop :=
  diagnostic.span = some span ∧ ∃ pre own post, text.toList = pre ++ (own ++ post) ∧
    span.start = Length.ofChars pre ∧ span.stop = Length.ofChars (pre ++ own)

end Diagnostic

open Diagnostic in
/-- What the diagnostics of a tree say about the text it was parsed from. -/
structure Tree.IsDiagnosed (tree : Tree) (text : String) : Prop where
  diagnostics : ofTree tree (Source.ofText text)
    = (reported tree).map (ofNode (Source.ofText text))
  sound : ∀ node ∈ reported tree, ∃ path, node.IsAt tree path ∧ node.subtree.IsFault
  complete : ∀ path offset found, tree.root.at? path = some (offset, found) → found.IsFault →
    Tells (reported tree) tree path
  /-- Without faults there are no diagnostics, and the other way round. -/
  none_iff : ofTree tree (Source.ofText text) = [] ↔
    ∀ path offset found, tree.root.at? path = some (offset, found) → ¬ found.IsFault
  hasError_iff : ofTree tree (Source.ofText text) = [] ↔ tree.hasError = false
  spans : ∀ diagnostic ∈ ofTree tree (Source.ofText text), ∃ span,
    diagnostic.IsAbout (Source.clipped text).text span
  apart : (ofTree tree (Source.ofText text)).Pairwise fun diagnostic next =>
    ∀ span ∈ diagnostic.span, ∀ behind ∈ next.span, span.stop.bytes ≤ behind.start.bytes

namespace Diagnostic

variable {tree : Tree} {text : String}

theorem tells_reported (shows : tree.language.ShowsAliases) (accounted : tree.root.IsAccounted)
    (word : tree.root.exactCost < UInt32.size) {path : List Nat} {offset : Length}
    {found : Subtree} (there : tree.root.at? path = some (offset, found)) (fault : found.IsFault) :
    Tells (reported tree) tree path := by
  have error : tree.hasError = true :=
    (accounted.hasError_iff word).2 ⟨path, offset, found, there, fault⟩
  rw [reported, if_pos error]
  exact tells_reportedBelow shows accounted word (Node.isAt_rootNode tree) (Nat.le_refl _) there
    fault

theorem Tells.ne_nil {nodes : List Node} {path : List Nat} (h : Tells nodes tree path) :
    nodes ≠ [] := by
  cases h with
  | itself member => exact List.ne_nil_of_mem member
  | above member => exact List.ne_nil_of_mem member
  | through _ _ interior leaves =>
    obtain ⟨child, member⟩ := List.exists_mem_of_ne_nil _ interior
    exact List.ne_nil_of_mem (leaves child member).2

theorem mem_reported {node : Node} (member : node ∈ reported tree) :
    ∃ path, node.IsAt tree path ∧ node.subtree.IsFault := by
  unfold reported at member
  split at member
  · obtain ⟨path, there, found⟩ := mem_reportedBelow (Node.isAt_rootNode tree) member
    exact ⟨path, there, isFault_of_isReported found⟩
  · contradiction

theorem pairwise_reported (solid : tree.root.IsSolid) (within : tree.root.IsWithin .bytes) :
    (reported tree).Pairwise fun node next => node.stop.bytes ≤ next.start.bytes := by
  unfold reported
  split
  · exact (inOrder_reportedBelow (Node.isAt_rootNode tree) solid within).apart
  · exact .nil

theorem reported_eq_nil_iff (shows : tree.language.ShowsAliases)
    (accounted : tree.root.IsAccounted) (word : tree.root.exactCost < UInt32.size) :
    reported tree = [] ↔ tree.hasError = false := by
  constructor
  · intro none
    rw [← Bool.not_eq_true, Tree.hasError, accounted.hasError_iff word]
    rintro ⟨path, offset, found, there, fault⟩
    exact (tells_reported shows accounted word there fault).ne_nil none
  · intro noError
    rw [reported, noError]
    rfl

theorem isAbout_ofNode (spells : tree.root.Spells text.toList [])
    (short : IsShort text.toList) {node : Node} {path : List Nat} (here : node.IsAt tree path)
    (source : Source) : (ofNode source node).IsAbout text node.span := by
  have there := here.at?_eq (spells.isWithin short .points)
  obtain ⟨pre, own, post, whole, place, covers⟩ := spells.at? there
  refine ⟨span_ofNode _ _, pre, own, post, whole, place, ?_⟩
  rw [Node.span, Node.stop, place, covers.size]
  rw [whole, ← List.append_assoc] at short
  exact short.left.add

theorem isDiagnosed (shows : tree.language.ShowsAliases) (accounted : tree.root.IsAccounted)
    (word : tree.root.exactCost < UInt32.size) (solid : tree.root.IsSolid)
    (spells : tree.root.Spells (Source.clipped text).text.toList []) : tree.IsDiagnosed text := by
  have short : IsShort (Source.clipped text).text.toList :=
    Source.isShort_iff.2 (Source.size_clipped text)
  have diagnostics := ofTree_eq_map tree (Source.ofText text)
  have none : ofTree tree (Source.ofText text) = [] ↔ tree.hasError = false := by
    rw [diagnostics, List.map_eq_nil_iff]
    exact reported_eq_nil_iff shows accounted word
  refine ⟨diagnostics, fun node => mem_reported, fun path offset found =>
    tells_reported shows accounted word, ?_, none, ?_, ?_⟩
  · rw [none, ← Bool.not_eq_true, Tree.hasError, accounted.hasError_iff word]
    simp only [not_exists, not_and]
  · rw [diagnostics, List.forall_mem_map]
    intro node member
    obtain ⟨path, here, _⟩ := mem_reported member
    exact ⟨_, isAbout_ofNode spells short here _⟩
  · rw [diagnostics, List.pairwise_map]
    have within := spells.isWithin short .bytes
    refine (pairwise_reported solid within).imp fun {node next} apart => ?_
    rw [span_ofNode, span_ofNode]
    rintro _ ⟨⟩ _ ⟨⟩
    exact apart

end Diagnostic

theorem Subtree.inherited_isAccounted {language : Language}
    (consistent : language.table.Consistent) : Inherited language IsAccounted where
  child _ _ h member := h.child member
  leaf := isAccounted_leaf language
  missing := isAccounted_missing language
  ofProduction symbol production children rule h := by
    have noError := consistent.ne_error_of_isRule rule
    exact isAccounted_ofProduction language (beq_false_of_ne noError) production h
  errorNode _ h := isAccounted_errorNode language h
  withExtra _ _ _ h := h.modify rfl rfl rfl rfl
  withParseState _ _ h := h.modify rfl rfl rfl rfl
  withFragile _ h := h.modify rfl rfl rfl rfl
  withReach _ _ h := h.modify rfl rfl rfl rfl
  edited _ edit start last h := h.edited edit start last

theorem PreparedGrammar.Compiles.showsAliases {grammar : PreparedGrammar}
    {twice : String → Prop} {language : Language}
    (h : Compiles grammar twice language.table) : language.ShowsAliases := by
  intro production member step inside symbol renamed
  obtain ⟨info, found, visible⟩ := h.visible_of_aliasSymbol member inside renamed
  rw [Language.isVisible, Language.symbolInfo?, found]
  exact Bool.or_eq_true_iff.2 (.inr visible)

/-- If the cost of the tree is a word, the diagnostics of a parsed text tell of every ERROR node and
every inserted token in it, in the order of the text and without overlaps. -/
theorem isDiagnosed_of_parse {source : Grammar} {compiled : Compiled}
    (compiles : source.compile = .ok compiled) {language : Language} (built : language.IsBuilt)
    (table : language.table = compiled.table) {fuel : Nat} {options : ParserOptions}
    {text : String} {old : Option Tree} {parsed : Parsed}
    (history : ∀ tree, old = some tree → tree.language.isSame language = true →
      tree.Follows language text)
    (returned : parseWithin fuel language options text old = some parsed)
    (word : parsed.tree.root.exactCost < UInt32.size) : parsed.tree.IsDiagnosed text := by
  obtain ⟨prepared, compiled⟩ := compiles_of_compile compiles
  rw [← table] at compiled
  have follows := Tree.Follows.parsed history returned
  have same : parsed.tree.language = language := by
    obtain ⟨engine, _, rfl⟩ := Option.map_eq_some_iff.1 returned
    rfl
  exact Diagnostic.isDiagnosed (same ▸ compiled.showsAliases)
    (follows.arises.inherits (Subtree.inherited_isAccounted built.consistent) built) word
    (follows.arises.assembled built).isSolid
    (follows.sound built).1

/-- The letter of a text is replaced by one that the grammar does not know: that is one fault, and
the letter that is missing now is another. -/
theorem isDiagnosed_of_parse_prefixed : ∃ language parsed reparsed,
    prefixLanguage = some language ∧
      parseWithin 100 language .standard "#a#" none = some parsed ∧
      parseWithin 200 language .standard "#b#"
        (some (parsed.tree.edit (Edit.apply "#a#" 1 2 "b").2)) = some reparsed ∧
      (Diagnostic.ofTree reparsed.tree (Source.ofText "#b#")).map (·.kind)
        = [.unrecognizedText, .missingToken] ∧
      reparsed.tree.IsDiagnosed "#b#" := by
  have runs : (prefixLanguage.any fun language =>
      (parseWithin 100 language .standard "#a#" none).any fun parsed =>
        (parseWithin 200 language .standard "#b#"
          (some (parsed.tree.edit (Edit.apply "#a#" 1 2 "b").2))).any fun reparsed =>
            decide ((Diagnostic.ofTree reparsed.tree (Source.ofText "#b#")).map (·.kind)
              = [.unrecognizedText, .missingToken] ∧
                reparsed.tree.root.exactCost < UInt32.size)) = true := by
    decide +kernel
  obtain ⟨language, built, runs⟩ := (Option.any_eq_true _ _).1 runs
  obtain ⟨parsed, first, runs⟩ := (Option.any_eq_true _ _).1 runs
  obtain ⟨reparsed, second, kinds⟩ := (Option.any_eq_true _ _).1 runs
  obtain ⟨kinds, word⟩ := of_decide_eq_true kinds
  obtain ⟨compiled, compiles, laidOut⟩ := compile_prefixGrammar
  obtain ⟨isBuilt, table⟩ := isBuilt_of_prefixLanguage built
  refine ⟨language, parsed, reparsed, built, first, second, kinds, ?_⟩
  refine isDiagnosed_of_parse compiles isBuilt (table.trans laidOut.symm) ?_ second word
  rintro _ ⟨⟩ _
  exact .edited (.parsed (by simp) first) 1 2 "b" (by decide +kernel) (by decide +kernel)

end IncrementalGlr
