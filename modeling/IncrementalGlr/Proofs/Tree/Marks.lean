import IncrementalGlr.Proofs.Text.Boundary
import IncrementalGlr.Tree.Basic

/-!
# Marks of trees

What is said of a tree node by node: that nothing in it was changed by an edit, that a change is
marked up to the root, and that a node's examined bytes reach as far as those of everything in it
that is still as it was parsed.
-/

namespace IncrementalGlr

namespace Subtree

@[induction_eliminator]
theorem induction {motive : Subtree → Prop}
    (node : ∀ info children, (∀ child ∈ children, motive child) → motive (node info children))
    (tree : Subtree) : motive tree :=
  @Subtree.rec motive (fun trees => ∀ tree ∈ trees, motive tree) node
    (fun _ member => absurd member List.not_mem_nil)
    (fun _ _ first rest tree member => by
      rcases List.mem_cons.1 member with rfl | member
      · exact first
      · exact rest tree member)
    tree

mutual

def Every (p : SubtreeInfo → List Subtree → Prop) : Subtree → Prop
  | node info children => p info children ∧ EveryIn p children

def EveryIn (p : SubtreeInfo → List Subtree → Prop) : List Subtree → Prop
  | [] => True
  | tree :: rest => tree.Every p ∧ EveryIn p rest

end

variable {p q : SubtreeInfo → List Subtree → Prop} {info : SubtreeInfo} {tree : Subtree}
  {children trees : List Subtree}

theorem everyIn_iff : EveryIn p trees ↔ ∀ tree ∈ trees, tree.Every p := by
  induction trees with
  | nil => simp [EveryIn]
  | cons tree trees ih => simp [EveryIn, ih]

theorem every_node : (node info children).Every p ↔
    p info children ∧ ∀ child ∈ children, child.Every p := by
  rw [Every, everyIn_iff]

theorem Every.here (h : tree.Every p) : p tree.info tree.children := by
  cases tree
  exact (every_node.1 h).1

theorem Every.child (h : tree.Every p) {child : Subtree} (member : child ∈ tree.children) :
    child.Every p := by
  cases tree
  exact (every_node.1 h).2 child member

theorem Every.mono (h : tree.Every p) (weaker : ∀ info children, p info children → q info children) :
    tree.Every q := by
  induction tree with
  | node info children ih =>
    exact every_node.2 ⟨weaker _ _ h.here, fun child member => ih child member (h.child member)⟩

theorem Every.modify (h : tree.Every p) {f : SubtreeInfo → SubtreeInfo}
    (keeps : p tree.info tree.children → p (f tree.info) tree.children) :
    (tree.modify f).Every p :=
  every_node.2 ⟨keeps h.here, fun _ member => h.child member⟩

theorem Every.firstLeaf (h : tree.Every p) : tree.firstLeaf.Every p := by
  fun_induction Subtree.firstLeaf tree with
  | case1 => exact h
  | case2 info child rest ih => exact ih (h.child (List.mem_cons_self ..))

theorem firstLeaf_of_leaf (leaf : tree.children = []) : tree.firstLeaf = tree := by
  obtain ⟨info, children⟩ := tree
  cases leaf
  rw [firstLeaf]

def Clean (tree : Subtree) : Prop :=
  tree.Every fun info _ => info.isChanged = false

def Marked (tree : Subtree) : Prop :=
  tree.Every fun info children =>
    ∀ child ∈ children, child.isChanged = true → info.isChanged = true

theorem Clean.marked (h : tree.Clean) : tree.Marked := by
  induction tree with
  | node info children ih =>
    refine every_node.2 ⟨?_, fun child member => ih child member (h.child member)⟩
    intro child member changed
    have unchanged : child.isChanged = false := (h.child member).here
    rw [unchanged] at changed
    contradiction

theorem Marked.clean (h : tree.Marked) (unchanged : tree.isChanged = false) : tree.Clean := by
  induction tree with
  | node info children ih =>
    refine every_node.2 ⟨unchanged, ?_⟩
    intro child member
    refine ih child member (h.child member) ?_
    cases changed : child.isChanged with
    | false => rfl
    | true =>
      have marked : info.isChanged = true := h.here child member changed
      rw [show info.isChanged = false from unchanged] at marked
      contradiction

/-- The subtree at the end of a path of child numbers, with its distance from the start. -/
def at? : List Nat → Subtree → Option (Length × Subtree)
  | [], tree => some (Length.zero, tree)
  | i :: path, tree =>
    (tree.children[i]?).bind fun child =>
      (child.at? path).map fun (offset, found) =>
        (Length.concat ((tree.children.take i).map (·.size)) ++ offset, found)

theorem at?_cons {i : Nat} {path : List Nat} {offset : Length} {found : Subtree} :
    tree.at? (i :: path) = some (offset, found) ↔
      ∃ child inner, tree.children[i]? = some child ∧ child.at? path = some (inner, found) ∧
        offset = Length.concat ((tree.children.take i).map (·.size)) ++ inner := by
  simp only [at?, Option.bind_eq_some_iff, Option.map_eq_some_iff, Prod.mk.injEq, Prod.exists]
  constructor
  · rintro ⟨child, here, inner, other, there, rfl, rfl⟩
    exact ⟨child, inner, here, there, rfl⟩
  · rintro ⟨child, inner, here, there, rfl⟩
    exact ⟨child, here, inner, found, there, rfl, rfl⟩

theorem Every.at? (h : tree.Every p) {path : List Nat} {offset : Length} {found : Subtree}
    (there : tree.at? path = some (offset, found)) : found.Every p := by
  induction path generalizing tree offset with
  | nil =>
    cases there
    exact h
  | cons i path ih =>
    obtain ⟨child, inner, here, there, _⟩ := at?_cons.1 there
    exact ih (h.child (List.mem_of_getElem? here)) there

theorem every_of_at? (h : ∀ path offset found, tree.at? path = some (offset, found) →
    p found.info found.children) : tree.Every p := by
  induction tree with
  | node info children ih =>
    refine every_node.2 ⟨h [] _ _ rfl, fun child member => ih child member ?_⟩
    intro path offset found there
    obtain ⟨i, here⟩ := List.mem_iff_getElem?.1 member
    exact h (i :: path) _ found (at?_cons.2 ⟨child, offset, here, there, rfl⟩)

def Includes (tree : Subtree) : Prop :=
  ∀ path offset found, tree.at? path = some (offset, found) → found.isChanged = false →
    offset.bytes + found.size.bytes + found.lookahead ≤ tree.size.bytes + tree.lookahead

def Bounded (tree : Subtree) : Prop :=
  tree.Every fun info children => (node info children).Includes

theorem Bounded.includes (h : tree.Bounded) : tree.Includes := by
  cases tree
  exact h.here

theorem reach_le_reachOf {i : Nat} {child : Subtree} (start : Nat)
    (here : children[i]? = some child) :
    start + (Length.concat ((children.take i).map (·.size))).bytes + child.size.bytes
      + child.lookahead ≤ reachOf start children := by
  induction children generalizing i start with
  | nil => simp at here
  | cons first children ih =>
    cases i with
    | zero =>
      cases here
      exact Nat.le_max_left ..
    | succ i =>
      have bound := ih (start + first.size.bytes) (by simpa using here)
      simp only [reachOf, List.take_succ_cons, List.map_cons, Length.concat_cons,
        Length.bytes_append]
      omega

def Hollow (table : Table) (tree : Subtree) : Prop :=
  tree.Every fun info children => info.isChanged = false → children = [] →
    table.isRule info.symbol = true → info.size = Length.zero

structure Sound (tree : Subtree) (table : Table) : Prop where
  marked : tree.Marked
  bounded : tree.Bounded
  hollow : tree.Hollow table

/-- No edit touched the tree, and every node reaches as far as its parts. -/
structure Settled (tree : Subtree) (table : Table) : Prop where
  clean : tree.Clean
  bounded : tree.Bounded
  hollow : tree.Hollow table

variable {table : Table}

theorem Sound.child (h : tree.Sound table) {child : Subtree} (member : child ∈ tree.children) :
    child.Sound table :=
  ⟨h.marked.child member, h.bounded.child member, h.hollow.child member⟩

theorem Sound.settled (h : tree.Sound table) (unchanged : tree.isChanged = false) :
    tree.Settled table :=
  ⟨h.marked.clean unchanged, h.bounded, h.hollow⟩

theorem Settled.sound (h : tree.Settled table) : tree.Sound table :=
  ⟨h.clean.marked, h.bounded, h.hollow⟩

theorem Settled.unchanged (h : tree.Settled table) : tree.isChanged = false := h.clean.here

theorem Settled.child (h : tree.Settled table) {child : Subtree}
    (member : child ∈ tree.children) : child.Settled table :=
  ⟨h.clean.child member, h.bounded.child member, h.hollow.child member⟩

theorem settled_node (unchanged : info.isChanged = false)
    (size : info.size = Length.sum (children.map (·.size)))
    (reach : reachOf 0 children - info.size.bytes ≤ info.lookahead)
    (settled : ∀ child ∈ children, child.Settled table) :
    (node info children).Settled table := by
  refine ⟨every_node.2 ⟨unchanged, fun child member => (settled child member).clean⟩,
    every_node.2 ⟨?_, fun child member => (settled child member).bounded⟩,
    every_node.2 ⟨?_, fun child member => (settled child member).hollow⟩⟩
  · intro path offset found there kept
    cases path with
    | nil =>
      cases there
      simp
    | cons i path =>
      obtain ⟨child, inner, here, below, rfl⟩ := at?_cons.1 there
      have bounded := (settled child (List.mem_of_getElem? here)).bounded
      have inside := bounded.includes path inner found below kept
      have outside := reach_le_reachOf 0 here
      simp only [Subtree.children] at outside ⊢
      have whole : (node info children).size = info.size := rfl
      have examined : (node info children).lookahead = info.lookahead := rfl
      rw [whole, examined, Length.bytes_append]
      omega
  · rintro _ rfl _
    exact size

theorem includes_childless : (node info []).Includes := by
  intro path offset found there _
  cases path with
  | nil =>
    cases there
    simp
  | cons i path =>
    obtain ⟨child, _, here, _⟩ := at?_cons.1 there
    simp [Subtree.children] at here

theorem settled_childless (unchanged : info.isChanged = false)
    (hollow : table.isRule info.symbol = true → info.size = Length.zero) :
    (node info []).Settled table :=
  ⟨every_node.2 ⟨unchanged, by simp⟩, every_node.2 ⟨includes_childless, by simp⟩,
    every_node.2 ⟨fun _ _ => hollow, by simp⟩⟩

theorem Settled.modify (h : tree.Settled table) {f : SubtreeInfo → SubtreeInfo}
    (symbol : (f tree.info).symbol = tree.info.symbol)
    (changed : (f tree.info).isChanged = tree.info.isChanged)
    (size : (f tree.info).size = tree.info.size)
    (reach : tree.info.lookahead ≤ (f tree.info).lookahead) : (tree.modify f).Settled table := by
  refine ⟨h.clean.modify fun unchanged => changed.trans unchanged, h.bounded.modify ?_,
    h.hollow.modify ?_⟩
  · intro bound path offset found there kept
    have grown : (node (f tree.info) tree.children).size = tree.size := size
    cases path with
    | nil =>
      cases there
      simp
    | cons i path =>
      have inside := bound (i :: path) offset found there kept
      rw [grown]
      exact Nat.le_trans inside (Nat.add_le_add_left reach _)
  · intro hollow
    rwa [symbol, changed, size]

theorem settled_leaf (language : Language) {token : Token}
    (lexed : table.isRule token.symbol = false) (state : StateId) (isExtra : Bool) :
    (leaf language token state isExtra).Settled table :=
  settled_childless rfl fun isRule => Bool.noConfusion (lexed.symm.trans isRule)

theorem settled_missing (language : Language) (symbol : SymbolId) (state : StateId) :
    (missing language symbol state).Settled table :=
  settled_childless rfl fun _ => rfl

theorem settled_ofProduction (language : Language) (symbol : SymbolId)
    (production : ProductionId) (settled : ∀ child ∈ children, child.Settled table) :
    (ofProduction language symbol production children).Settled table :=
  settled_node rfl rfl (Nat.le_refl _) settled

theorem settled_errorNode (language : Language)
    (settled : ∀ child ∈ children, child.Settled table) :
    (errorNode language children).Settled table :=
  settled_node rfl rfl (Nat.le_refl _) settled

theorem Settled.withExtra (h : tree.Settled table) (isExtra : Bool) :
    (tree.withExtra isExtra).Settled table :=
  h.modify rfl rfl rfl (Nat.le_refl _)

theorem Settled.withFragile (h : tree.Settled table) : tree.withFragile.Settled table :=
  h.modify rfl rfl rfl (Nat.le_refl _)

theorem Settled.withParseState (h : tree.Settled table) (state : StateId) :
    (tree.withParseState state).Settled table :=
  h.modify rfl rfl rfl (Nat.le_refl _)

theorem Settled.withReach (h : tree.Settled table) (reach : Nat) :
    (tree.withReach reach).Settled table :=
  h.modify rfl rfl rfl (Nat.le_max_left _ _)

end Subtree

end IncrementalGlr
