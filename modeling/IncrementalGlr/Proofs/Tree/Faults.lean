import IncrementalGlr.Proofs.Tree.Derivation

/-!
# Faults and what they cost

A fault is an ERROR node, an ERROR leaf or an inserted token. Only faults cost anything, and each of
them does, so that the cost of a tree tells whether there is a fault in it, unless it is a multiple
of the number of words.
-/

namespace IncrementalGlr

namespace Subtree

def IsFault (tree : Subtree) : Prop := tree.isError = true ∨ tree.isMissing = true

/-- There is no fault in the tree, and nothing in it cost anything. -/
def IsFaultless (tree : Subtree) : Prop :=
  tree.Every fun info children => info.exactCost = 0 ∧ ¬ (node info children).IsFault

structure Accounted (info : SubtreeInfo) (children : List Subtree) : Prop where
  cost : 0 < info.exactCost ↔ (node info children).IsFault ∨ ∃ child ∈ children, 0 < child.exactCost
  visible : (node info children).IsFault → info.isVisible = true
  leaf : info.isMissing = true → children = []
  share : ∀ child ∈ children, child.exactCost ≤ info.exactCost

def IsAccounted (tree : Subtree) : Prop := tree.Every Accounted

variable {tree : Subtree} {info other : SubtreeInfo} {children others : List Subtree}

theorem IsAccounted.child (h : tree.IsAccounted) {child : Subtree}
    (member : child ∈ tree.children) : child.IsAccounted := Every.child h member

theorem IsAccounted.cost (h : tree.IsAccounted) :
    0 < tree.exactCost ↔ tree.IsFault ∨ ∃ child ∈ tree.children, 0 < child.exactCost := by
  cases tree
  exact h.here.cost

theorem IsAccounted.visible (h : tree.IsAccounted) (fault : tree.IsFault) :
    tree.isVisible = true := by
  cases tree
  exact h.here.visible fault

theorem IsAccounted.leaf (h : tree.IsAccounted) (missing : tree.isMissing = true) :
    tree.children = [] := h.here.leaf missing

theorem IsFaultless.errorCost (h : tree.IsFaultless) : tree.errorCost = 0 := by
  have free : tree.info.exactCost = 0 := h.here.1
  rw [Subtree.errorCost, SubtreeInfo.errorCost, free, Nat.zero_mod]

theorem IsFaultless.hasError (h : tree.IsFaultless) : tree.hasError = false := by
  rw [Subtree.hasError, h.errorCost]
  rfl

theorem IsAccounted.exactCost_pos_iff (h : tree.IsAccounted) : 0 < tree.exactCost ↔
    ∃ path offset found, tree.at? path = some (offset, found) ∧ found.IsFault := by
  induction tree with
  | node info children ih =>
    rw [h.cost]
    constructor
    · rintro (fault | ⟨child, member, cost⟩)
      · exact ⟨[], _, _, rfl, fault⟩
      · obtain ⟨path, offset, found, there, fault⟩ := (ih child member (h.child member)).1 cost
        obtain ⟨i, here⟩ := List.mem_iff_getElem?.1 member
        exact ⟨i :: path, _, found, at?_cons.2 ⟨child, offset, here, there, rfl⟩, fault⟩
    · rintro ⟨path, offset, found, there, fault⟩
      cases path with
      | nil =>
        cases there
        exact .inl fault
      | cons i path =>
        obtain ⟨child, inner, here, there, _⟩ := at?_cons.1 there
        have member := List.mem_of_getElem? here
        exact .inr ⟨child, member,
          (ih child member (h.child member)).2 ⟨path, inner, found, there, fault⟩⟩

theorem IsAccounted.hasError_iff (h : tree.IsAccounted) (word : tree.exactCost < UInt32.size) :
    tree.hasError = true ↔
      ∃ path offset found, tree.at? path = some (offset, found) ∧ found.IsFault := by
  rw [← h.exactCost_pos_iff, hasError, decide_eq_true_iff, gt_iff_lt,
    show tree.errorCost = tree.exactCost from Nat.mod_eq_of_lt word]

theorem IsAccounted.at?_exactCost_le (h : tree.IsAccounted) {path : List Nat} {offset : Length}
    {found : Subtree} (there : tree.at? path = some (offset, found)) :
    found.exactCost ≤ tree.exactCost := by
  induction path generalizing tree offset with
  | nil =>
    cases there
    exact Nat.le_refl _
  | cons i path ih =>
    obtain ⟨child, inner, here, below, _⟩ := at?_cons.1 there
    have member := List.mem_of_getElem? here
    exact (ih (h.child member) below).trans (h.here.share child member)

theorem isFaultless_leaf (language : Language) {token : Token}
    (noError : token.symbol ≠ SymbolId.error) (state : StateId) (isExtra : Bool) :
    (leaf language token state isExtra).IsFaultless := by
  have noError : token.symbol.isError = false := beq_false_of_ne noError
  refine every_node.2 ⟨⟨?_, ?_⟩, by simp⟩
  · simp [noError]
  · rintro (isError | missing)
    · exact Bool.noConfusion (noError.symm.trans isError)
    · cases missing

theorem isFaultless_ofProduction (language : Language) {symbol : SymbolId}
    (noError : symbol ≠ SymbolId.error) (production : ProductionId)
    (h : ∀ child ∈ children, child.IsFaultless) :
    (ofProduction language symbol production children).IsFaultless := by
  have noError : symbol.isError = false := beq_false_of_ne noError
  refine every_node.2 ⟨⟨?_, ?_⟩, h⟩
  · show children.foldr (·.exactCost + ·) 0 = 0
    induction children with
    | nil => rfl
    | cons child children ih =>
      rw [List.foldr_cons, ih fun other member => h other (List.mem_cons_of_mem _ member)]
      exact (h child (List.mem_cons_self ..)).here.1
  · rintro (isError | missing)
    · exact Bool.noConfusion (noError.symm.trans isError)
    · cases missing

theorem foldr_exactCost_pos :
    0 < children.foldr (·.exactCost + ·) 0 ↔ ∃ child ∈ children, 0 < child.exactCost := by
  induction children with
  | nil => simp
  | cons child children ih =>
    rw [List.foldr_cons, Nat.add_pos_iff_pos_or_pos, ih]
    simp only [List.mem_cons, exists_eq_or_imp]

theorem exactCost_le_foldr {child : Subtree} (member : child ∈ children) :
    child.exactCost ≤ children.foldr (·.exactCost + ·) 0 := by
  induction children with
  | nil => contradiction
  | cons first children ih =>
    rw [List.foldr_cons]
    rcases List.mem_cons.1 member with rfl | member
    · exact Nat.le_add_right _ _
    · exact Nat.le_add_left_of_le (ih member)

theorem isAccounted_leaf (language : Language) (token : Token) (state : StateId)
    (isExtra : Bool) : (leaf language token state isExtra).IsAccounted := by
  have fault : (leaf language token state isExtra).IsFault ↔ token.symbol.isError = true :=
    or_iff_left Bool.false_ne_true
  refine every_node.2 ⟨⟨?_, fun faulty => ?_, fun _ => rfl, by simp⟩, by simp⟩
  · refine Iff.trans ?_ (or_iff_left (by simp)).symm
    refine Iff.trans ?_ fault.symm
    dsimp only
    split
    · next isError =>
        exact iff_of_true (Nat.add_pos_left (Nat.add_pos_left (by decide) _) _) isError
    · next noError => exact iff_of_false (Nat.lt_irrefl 0) noError
  · exact Bool.or_eq_true_iff.2 (.inl (fault.1 faulty))

theorem isAccounted_missing (language : Language) (symbol : SymbolId) (state : StateId) :
    (missing language symbol state).IsAccounted :=
  every_node.2 ⟨⟨iff_of_true (Nat.succ_pos _) (.inl (.inr rfl)), fun _ => rfl, fun _ => rfl,
    by simp⟩, by simp⟩

theorem isAccounted_ofProduction (language : Language) {symbol : SymbolId}
    (noError : symbol.isError = false) (production : ProductionId)
    (h : ∀ child ∈ children, child.IsAccounted) :
    (ofProduction language symbol production children).IsAccounted := by
  have noFault : ¬ (ofProduction language symbol production children).IsFault := by
    rintro (isError | missing)
    · exact Bool.noConfusion (noError.symm.trans isError)
    · cases missing
  refine every_node.2 ⟨⟨?_, fun fault => absurd fault noFault, fun missing => (nomatch missing),
    fun _ => exactCost_le_foldr⟩, h⟩
  exact foldr_exactCost_pos.trans (or_iff_right noFault).symm

theorem isAccounted_errorNode (language : Language) (h : ∀ child ∈ children, child.IsAccounted) :
    (errorNode language children).IsAccounted := by
  refine every_node.2 ⟨⟨iff_of_true ?_ (.inl (.inl rfl)), fun _ => rfl,
    fun missing => (nomatch missing), fun child member => ?_⟩, h⟩
  · simp only [ErrorCost.ofSkipped, ErrorCost.recovery]
    omega
  · exact Nat.le_add_right_of_le (Nat.le_add_right_of_le (exactCost_le_foldr member))

theorem Accounted.congr (h : Accounted info children) (symbol : other.symbol = info.symbol)
    (missing : other.isMissing = info.isMissing) (visible : other.isVisible = info.isVisible)
    (cost : other.exactCost = info.exactCost)
    (below : List.Forall₂ (fun child next => next.exactCost = child.exactCost) children others) :
    Accounted other others := by
  have fault : (node other others).IsFault ↔ (node info children).IsFault := by
    simp only [IsFault, Subtree.isError, Subtree.symbol, Subtree.isMissing, Subtree.info, symbol,
      missing]
  have costs :
      (∃ child ∈ others, 0 < child.exactCost) ↔ ∃ child ∈ children, 0 < child.exactCost := by
    clear h fault
    induction below with
    | nil => rfl
    | cons same _ ih => simp only [List.mem_cons, exists_eq_or_imp, ih, same]
  have shares : ∀ child ∈ others, child.exactCost ≤ info.exactCost := by
    have old := h.share
    clear h fault costs
    induction below with
    | nil => exact fun _ absent => absurd absent List.not_mem_nil
    | cons same _ ih =>
      rw [List.forall_mem_cons] at old ⊢
      exact ⟨same.trans_le old.1, ih old.2⟩
  refine ⟨?_, fun faulty => visible.trans (h.visible (fault.1 faulty)), fun marked => ?_,
    cost ▸ shares⟩
  · rw [fault, costs, cost]
    exact h.cost
  · cases h.leaf (missing.symm.trans marked)
    cases below
    rfl

theorem IsAccounted.modify (h : tree.IsAccounted) {f : SubtreeInfo → SubtreeInfo}
    (symbol : (f tree.info).symbol = tree.info.symbol)
    (missing : (f tree.info).isMissing = tree.info.isMissing)
    (visible : (f tree.info).isVisible = tree.info.isVisible)
    (cost : (f tree.info).exactCost = tree.info.exactCost) : (tree.modify f).IsAccounted :=
  Every.modify h fun accounted =>
    accounted.congr symbol missing visible cost (List.forall₂_same.2 fun _ _ => rfl)

theorem IsAccounted.edited (h : tree.IsAccounted) (edit : Edit) (start : Length) (last : Bool) :
    (tree.edited edit start last).IsAccounted := by
  induction tree generalizing start last with
  | node info children ih =>
    have here := keeps_edited edit start last (node info children)
    obtain ⟨below, origins⟩ := children_edited edit start last (node info children)
    generalize (node info children).edited edit start last = edited at here below origins ⊢
    obtain ⟨other, others⟩ := edited
    refine every_node.2 ⟨h.here.congr here.symbol here.isMissing here.isVisible here.exactCost
      (below.imp fun _ _ kept => kept.exactCost), fun child member => ?_⟩
    rcases origins child member with old | ⟨old, there, start, last, rfl⟩
    · exact h.child old
    · exact ih old there (h.child there) start last

end Subtree

end IncrementalGlr
