import IncrementalGlr.Proofs.Tree.Derivation
import IncrementalGlr.Proofs.Tree.Edits
import IncrementalGlr.Proofs.Tree.ScannerStates

/-!
# Trees as they come about

A tree is put together from tokens, inserted tokens, productions and skipped text. On the way its
parts are marked, told their states and edited. Whatever was done in whatever order, the size of a
node is the sum of those of its children, and it is marked if an external token is in it.
-/

namespace IncrementalGlr

namespace Subtree

/-- A tree that was put together from tokens, inserted tokens, productions and skipped text. -/
inductive Constructed (language : Language) : Subtree → Prop
  | leaf (token : Token) (state : StateId) (isExtra : Bool) :
    Constructed language (leaf language token state isExtra)
  | missing (symbol : SymbolId) (state : StateId) :
    Constructed language (missing language symbol state)
  | ofProduction (symbol : SymbolId) (production : ProductionId) {children : List Subtree}
    (parts : ∀ child ∈ children, Constructed language child) :
    Constructed language (ofProduction language symbol production children)
  | errorNode {children : List Subtree} (parts : ∀ child ∈ children, Constructed language child) :
    Constructed language (errorNode language children)

/-- A tree that came about by these steps, in any order and with any languages. -/
inductive Assembled : Subtree → Prop
  | leaf (language : Language) (token : Token) (state : StateId) (isExtra : Bool) :
    Assembled (leaf language token state isExtra)
  | missing (language : Language) (symbol : SymbolId) (state : StateId) :
    Assembled (missing language symbol state)
  | ofProduction (language : Language) (symbol : SymbolId) (production : ProductionId)
    {children : List Subtree} (parts : ∀ child ∈ children, Assembled child) :
    Assembled (ofProduction language symbol production children)
  | errorNode (language : Language) {children : List Subtree}
    (parts : ∀ child ∈ children, Assembled child) : Assembled (errorNode language children)
  | withExtra {tree : Subtree} (whole : Assembled tree) (isExtra : Bool) :
    Assembled (tree.withExtra isExtra)
  | withFragile {tree : Subtree} (whole : Assembled tree) : Assembled tree.withFragile
  | withParseState {tree : Subtree} (whole : Assembled tree) (state : StateId) :
    Assembled (tree.withParseState state)
  | withReach {tree : Subtree} (whole : Assembled tree) (reach : Nat) :
    Assembled (tree.withReach reach)
  | edited {tree : Subtree} (whole : Assembled tree) (edit : Edit) (start : Length) (last : Bool) :
    Assembled (tree.edited edit start last)

def IsSolid (tree : Subtree) : Prop :=
  tree.Every fun info children => children ≠ [] → info.size = Length.sum (children.map (·.size))

variable {tree : Subtree}

theorem Constructed.assembled {language : Language} (h : tree.Constructed language) :
    tree.Assembled := by
  induction h with
  | leaf token state isExtra => exact .leaf language token state isExtra
  | missing symbol state => exact .missing language symbol state
  | ofProduction symbol production _ ih => exact .ofProduction language symbol production ih
  | errorNode _ ih => exact .errorNode language ih

theorem Assembled.child (h : tree.Assembled) {child : Subtree} (member : child ∈ tree.children) :
    child.Assembled := by
  induction h generalizing child with
  | leaf | missing => exact absurd member List.not_mem_nil
  | ofProduction language symbol production parts => exact parts child member
  | errorNode language parts => exact parts child member
  | withExtra _ _ ih | withFragile _ ih | withParseState _ _ ih | withReach _ _ ih =>
    exact ih member
  | @edited tree _ edit start last ih =>
    rcases (children_edited edit start last tree).2 child member with
      same | ⟨old, there, start, last, rfl⟩
    · exact ih same
    · exact .edited (ih there) edit start last

theorem IsSolid.edited (h : tree.IsSolid) (edit : Edit) (start : Length) (last : Bool) :
    (tree.edited edit start last).IsSolid := by
  induction tree generalizing start last with
  | node info children ih =>
    by_cases touched : edit.touches start.bytes (start + info.size).bytes info.lookahead = true
    · cases children with
      | nil =>
        rw [Subtree.edited, if_pos touched]
        exact every_node.2 ⟨absurd rfl, by simp⟩
      | cons child rest =>
        rw [edited_of_touches touched]
        refine every_node.2 ⟨fun _ => rfl, fun tree member => ?_⟩
        obtain ⟨old, there, start, last, rfl⟩ := mem_editedList member
        exact ih old there (h.child there) start last
    · rwa [edited_of_not_touches touched]

theorem Assembled.isSolid (h : tree.Assembled) : tree.IsSolid := by
  induction h with
  | leaf | missing => exact every_node.2 ⟨absurd rfl, by simp⟩
  | ofProduction _ _ _ _ ih | errorNode _ _ ih => exact every_node.2 ⟨fun _ => rfl, ih⟩
  | withExtra _ _ ih | withFragile _ ih | withParseState _ _ ih | withReach _ _ ih =>
    exact Every.modify ih id
  | edited _ edit start last ih => exact ih.edited edit start last

theorem hasExternals_edited (edit : Edit) (start : Length) (last : Bool) (tree : Subtree) :
    (tree.edited edit start last).hasExternals = tree.hasExternals := by
  obtain ⟨info, children⟩ := tree
  rcases edited_cases edit start last info children with same | ⟨size, changed⟩
  · rw [same]
  · rw [changed]
    rfl

theorem any_hasExternals_editedList (edit : Edit) (start : Length) (last : Bool)
    (trees : List Subtree) :
    (editedList edit start last trees).any (·.hasExternals) = trees.any (·.hasExternals) := by
  induction trees generalizing start with
  | nil => rfl
  | cons tree rest ih => rw [editedList, List.any_cons, List.any_cons, hasExternals_edited, ih]

theorem IsScanMarked.edited (h : tree.IsScanMarked) (edit : Edit) (start : Length) (last : Bool) :
    (tree.edited edit start last).IsScanMarked := by
  induction tree generalizing start last with
  | node info children ih =>
    rcases edited_cases edit start last info children with same | ⟨size, changed⟩
    · rwa [same]
    · rw [changed]
      refine every_node.2 ⟨?_, fun tree member => ?_⟩
      · have here : ScanMark info children := h.here
        unfold ScanMark at here ⊢
        rw [any_hasExternals_editedList]
        cases children <;> exact here
      · obtain ⟨old, there, start, last, rfl⟩ := mem_editedList member
        exact ih old there (h.child there) start last

end Subtree

end IncrementalGlr
