import IncrementalGlr.Proofs.Table.Automaton
import IncrementalGlr.Proofs.Tree.Marks
import IncrementalGlr.Parse.Version

/-!
# Trees as derivations

What a node of a tree has to do with the grammar: it is an ERROR node, a leaf for a token, or the
node of a production whose symbols are those of its children, extras left out. A tree of such nodes
without errors is a derivation.
-/

namespace IncrementalGlr

namespace Subtree

/-- The node is for a production: its symbol is the left-hand side, and its children that are no
extras have the symbols of the right-hand side. -/
def IsBuilt (grammar : PreparedGrammar) (info : SubtreeInfo) (children : List Subtree) : Prop :=
  ∃ nonterminal flat,
    (LrGrammar.ofGrammar grammar).productions[info.production.index]? = some (nonterminal, flat) ∧
    info.symbol = grammar.symbolId (.nonterminal nonterminal) ∧
    (children.filter fun child => !child.isExtra).map (·.symbol)
      = flat.symbols.map grammar.symbolId

inductive Origin (grammar : PreparedGrammar) (table : Table) (info : SubtreeInfo)
    (children : List Subtree) : Prop
  | error (isError : info.symbol = SymbolId.error)
  | token (leaf : children = []) (noRule : table.isRule info.symbol = false)
  | built (built : IsBuilt grammar info children)

structure Explained (grammar : PreparedGrammar) (table : Table) (info : SubtreeInfo)
    (children : List Subtree) : Prop where
  origin : Origin grammar table info children
  extra : info.isExtra = true → children = [] ∨ info.symbol = SymbolId.error

def Derived (grammar : PreparedGrammar) (table : Table) (tree : Subtree) : Prop :=
  tree.Every (Explained grammar table)

variable {grammar : PreparedGrammar} {table : Table} {tree : Subtree} {info : SubtreeInfo}
  {children : List Subtree}

theorem derived_node (here : Explained grammar table info children)
    (below : ∀ child ∈ children, child.Derived grammar table) :
    (node info children).Derived grammar table :=
  every_node.2 ⟨here, below⟩

theorem Derived.child (h : tree.Derived grammar table) {child : Subtree}
    (member : child ∈ tree.children) : child.Derived grammar table := Every.child h member

theorem Derived.leaf_of_isExtra (h : tree.Derived grammar table)
    (noError : tree.symbol ≠ SymbolId.error) (extra : tree.isExtra = true) : tree.children = [] :=
  (h.here.extra extra).resolve_right noError

theorem derived_leaf (language : Language) {token : Token}
    (noRule : table.isRule token.symbol = false)
    (state : StateId) (isExtra : Bool) :
    (leaf language token state isExtra).Derived grammar table :=
  derived_node ⟨.token rfl noRule, fun _ => .inl rfl⟩ (by simp)

theorem derived_missing (language : Language) {symbol : SymbolId}
    (noRule : table.isRule symbol = false) (state : StateId) :
    (missing language symbol state).Derived grammar table :=
  derived_node ⟨.token rfl noRule, fun _ => .inl rfl⟩ (by simp)

theorem derived_errorNode (language : Language)
    (below : ∀ child ∈ children, child.Derived grammar table) :
    (errorNode language children).Derived grammar table :=
  derived_node ⟨.error rfl, fun _ => .inr rfl⟩ below

theorem derived_ofProduction (language : Language) {symbol : SymbolId} {production : ProductionId}
    (built : IsBuilt grammar (ofProduction language symbol production children).info children)
    (below : ∀ child ∈ children, child.Derived grammar table) :
    (ofProduction language symbol production children).Derived grammar table :=
  derived_node ⟨.built built, fun extra => by cases extra⟩ below

theorem Origin.congr {other : SubtreeInfo} (h : Origin grammar table info children)
    (symbol : other.symbol = info.symbol) (production : other.production = info.production) :
    Origin grammar table other children := by
  cases h with
  | error isError => exact .error (symbol.trans isError)
  | token leaf noRule => exact .token leaf (symbol ▸ noRule)
  | built built =>
    refine .built ?_
    rwa [IsBuilt, symbol, production]

theorem Derived.modify (h : tree.Derived grammar table) {f : SubtreeInfo → SubtreeInfo}
    (symbol : (f tree.info).symbol = tree.info.symbol)
    (production : (f tree.info).production = tree.info.production)
    (extra : (f tree.info).isExtra = true → tree.info.isExtra = true ∨ tree.children = []) :
    (tree.modify f).Derived grammar table := by
  refine Every.modify h fun explained => ⟨explained.origin.congr symbol production, fun marked => ?_⟩
  rw [symbol]
  rcases extra marked with old | leaf
  · exact explained.extra old
  · exact .inl leaf

theorem Derived.withReach (h : tree.Derived grammar table) (reach : Nat) :
    (tree.withReach reach).Derived grammar table := h.modify rfl rfl .inl

theorem Derived.withFragile (h : tree.Derived grammar table) :
    tree.withFragile.Derived grammar table := h.modify rfl rfl .inl

theorem Derived.withParseState (h : tree.Derived grammar table) (state : StateId) :
    (tree.withParseState state).Derived grammar table := h.modify rfl rfl .inl

theorem Derived.withExtra (h : tree.Derived grammar table) (leaf : tree.children = [])
    (isExtra : Bool) : (tree.withExtra isExtra).Derived grammar table :=
  h.modify rfl rfl fun _ => .inr leaf

structure IsForced (language : Language) (root : Subtree) : Prop where
  symbol : root.symbol = language.table.startSymbol
  production : root.production = ParseInput.noProduction
  children : ∃ error, root.children = [error] ∧ error.isError = true ∧ error.isExtra = true

def DerivedBelow (grammar : PreparedGrammar) (language : Language) (root : Subtree) : Prop :=
  root.Derived grammar language.table ∨
    root.IsForced language ∧ ∀ child ∈ root.children, child.Derived grammar language.table

theorem DerivedBelow.child {language : Language} (h : tree.DerivedBelow grammar language)
    {child : Subtree} (member : child ∈ tree.children) : child.Derived grammar language.table :=
  h.elim (fun derived => derived.child member) fun forced => forced.2 child member

structure Keeps (tree edited : Subtree) : Prop where
  symbol : edited.symbol = tree.symbol
  production : edited.production = tree.production
  isExtra : edited.isExtra = tree.isExtra
  isMissing : edited.isMissing = tree.isMissing
  isVisible : edited.isVisible = tree.isVisible
  isNamed : edited.isNamed = tree.isNamed
  exactCost : edited.exactCost = tree.exactCost
  visibleChildCount : edited.visibleChildCount = tree.visibleChildCount
  namedChildCount : edited.namedChildCount = tree.namedChildCount

theorem edited_cases (edit : Edit) (start : Length) (last : Bool) (info : SubtreeInfo)
    (children : List Subtree) :
    (node info children).edited edit start last = node info children ∨
      ∃ size, (node info children).edited edit start last =
        node { info with size, isChanged := true } (editedList edit start last children) := by
  cases children with
  | nil =>
    rw [edited]
    dsimp only
    split
    · exact .inr ⟨_, rfl⟩
    · exact .inl rfl
  | cons child rest =>
    rw [edited]
    dsimp only
    split
    · exact .inr ⟨_, rfl⟩
    · exact .inl rfl

theorem Keeps.refl (tree : Subtree) : tree.Keeps tree :=
  ⟨rfl, rfl, rfl, rfl, rfl, rfl, rfl, rfl, rfl⟩

theorem keeps_edited (edit : Edit) (start : Length) (last : Bool) (tree : Subtree) :
    tree.Keeps (tree.edited edit start last) := by
  obtain ⟨info, children⟩ := tree
  rcases edited_cases edit start last info children with same | ⟨size, changed⟩
  · rw [same]
    exact Keeps.refl _
  · rw [changed]
    exact ⟨rfl, rfl, rfl, rfl, rfl, rfl, rfl, rfl, rfl⟩

theorem keeps_editedList (edit : Edit) (start : Length) (last : Bool) (trees : List Subtree) :
    List.Forall₂ Keeps trees (editedList edit start last trees) := by
  induction trees generalizing start with
  | nil => exact .nil
  | cons tree rest ih => exact .cons (keeps_edited ..) (ih _)

theorem mem_editedList {edit : Edit} {start : Length} {last : Bool} {trees : List Subtree}
    (member : tree ∈ editedList edit start last trees) :
    ∃ old ∈ trees, ∃ start last, tree = old.edited edit start last := by
  induction trees generalizing start with
  | nil => contradiction
  | cons first rest ih =>
    rcases List.mem_cons.1 member with rfl | member
    · exact ⟨first, List.mem_cons_self .., _, _, rfl⟩
    · obtain ⟨old, there, found⟩ := ih member
      exact ⟨old, List.mem_cons_of_mem _ there, found⟩

variable {other : SubtreeInfo} {others : List Subtree}

theorem IsBuilt.keeps (h : IsBuilt grammar info children)
    (here : (node info children).Keeps (node other others))
    (below : List.Forall₂ Keeps children others) : IsBuilt grammar other others := by
  obtain ⟨nonterminal, flat, numbered, symbol, same⟩ := h
  refine ⟨nonterminal, flat, ?_, here.symbol.trans symbol, ?_⟩
  · rw [show other.production = info.production from here.production]
    exact numbered
  · rw [← same]
    clear same here
    induction below with
    | nil => rfl
    | cons kept _ ih =>
      rw [List.filter_cons, List.filter_cons, kept.isExtra]
      split
      · rw [List.map_cons, List.map_cons, kept.symbol, ih]
      · exact ih

theorem Explained.keeps (h : Explained grammar table info children)
    (here : (node info children).Keeps (node other others))
    (below : List.Forall₂ Keeps children others) : Explained grammar table other others := by
  have symbol : other.symbol = info.symbol := here.symbol
  have none : children = [] → others = [] := by
    rintro rfl
    cases below
    rfl
  refine ⟨?_, fun extra => ?_⟩
  · cases h.origin with
    | error isError => exact .error (symbol.trans isError)
    | token leaf noRule => exact .token (none leaf) (symbol ▸ noRule)
    | built built => exact .built (built.keeps here below)
  · rw [symbol]
    exact (h.extra (here.isExtra.symm.trans extra)).imp_left none

theorem children_edited (edit : Edit) (start : Length) (last : Bool) (tree : Subtree) :
    List.Forall₂ Keeps tree.children (tree.edited edit start last).children ∧
      ∀ child ∈ (tree.edited edit start last).children, child ∈ tree.children ∨
        ∃ old ∈ tree.children, ∃ start last, child = old.edited edit start last := by
  obtain ⟨info, children⟩ := tree
  rcases edited_cases edit start last info children with same | ⟨size, changed⟩
  · rw [same]
    exact ⟨List.forall₂_same.2 fun tree _ => Keeps.refl tree, fun _ member => .inl member⟩
  · rw [changed]
    exact ⟨keeps_editedList .., fun _ member => .inr (mem_editedList member)⟩

theorem Derived.edited (h : tree.Derived grammar table) (edit : Edit) (start : Length)
    (last : Bool) : (tree.edited edit start last).Derived grammar table := by
  induction tree generalizing start last with
  | node info children ih =>
    have here := keeps_edited edit start last (node info children)
    obtain ⟨below, origins⟩ := children_edited edit start last (node info children)
    generalize (node info children).edited edit start last = edited at here below origins ⊢
    obtain ⟨other, others⟩ := edited
    refine derived_node (h.here.keeps here below) fun child member => ?_
    rcases origins child member with old | ⟨old, there, start, last, rfl⟩
    · exact h.child old
    · exact ih old there (h.child there) start last

theorem DerivedBelow.edited {language : Language} (h : tree.DerivedBelow grammar language)
    (edit : Edit) (start : Length) (last : Bool) :
    (tree.edited edit start last).DerivedBelow grammar language := by
  rcases h with derived | ⟨forced, derived⟩
  · exact .inl (derived.edited edit start last)
  · have here := keeps_edited edit start last tree
    obtain ⟨below, origins⟩ := children_edited edit start last tree
    refine .inr ⟨⟨here.symbol.trans forced.symbol, here.production.trans forced.production, ?_⟩,
      fun child member => ?_⟩
    · obtain ⟨error, one, isError, isExtra⟩ := forced.children
      rw [one] at below
      obtain ⟨edited, none, kept, rest, whole⟩ := List.forall₂_cons_left_iff.1 below
      cases rest
      refine ⟨edited, whole, ?_, kept.isExtra.trans isExtra⟩
      rw [Subtree.isError, kept.symbol]
      exact isError
    · rcases origins child member with old | ⟨old, there, start, last, rfl⟩
      · exact derived child old
      · exact (derived old there).edited edit start last

def sentence (table : Table) (tree : Subtree) : List SymbolId :=
  (tree.leaves.filter fun leaf => !leaf.isExtra && table.isTerminal leaf.symbol).map (·.symbol)

theorem leaves_node (info : SubtreeInfo) (child : Subtree) (children : List Subtree) :
    (node info (child :: children)).leaves = (child :: children).flatMap leaves := by
  have all : ∀ trees, leavesOf trees = trees.flatMap leaves := by
    intro trees
    induction trees with
    | nil => rfl
    | cons tree trees ih => rw [leavesOf, ih, List.flatMap_cons]
  rw [leaves, all, List.flatMap_cons]

theorem sentence_node (table : Table) (info : SubtreeInfo) (child : Subtree)
    (children : List Subtree) : (node info (child :: children)).sentence table
      = (child :: children).flatMap (sentence table) := by
  rw [sentence, leaves_node, List.filter_flatMap, List.map_flatMap]
  rfl

theorem sentence_childless (table : Table) (info : SubtreeInfo) :
    (node info []).sentence table =
      if !info.isExtra && table.isTerminal info.symbol then [info.symbol] else [] := by
  rw [sentence, leaves, List.filter_singleton]
  change List.map _ (bif !info.isExtra && table.isTerminal info.symbol then _ else _) = _
  cases !info.isExtra && table.isTerminal info.symbol <;> rfl

theorem yields_children {symbols : List Sym} (known : ∀ symbol ∈ symbols, grammar.Has symbol)
    (extra : ∀ child ∈ children, child.isExtra = true → child.sentence table = [])
    (counted : ∀ child ∈ children, child.isExtra = false → ∀ symbol, grammar.Has symbol →
      child.symbol = grammar.symbolId symbol → ∃ word, grammar.Yields [symbol] word ∧
        child.sentence table = word.map fun t => grammar.symbolId (.terminal t))
    (same : (children.filter fun child => !child.isExtra).map (·.symbol)
      = symbols.map grammar.symbolId) :
    ∃ word, grammar.Yields symbols word ∧
      children.flatMap (sentence table) = word.map fun t => grammar.symbolId (.terminal t) := by
  induction children generalizing symbols with
  | nil =>
    cases symbols with
    | nil => exact ⟨[], .nil, rfl⟩
    | cons symbol symbols => contradiction
  | cons child children ih =>
    have extra' := fun other (there : other ∈ children) =>
      extra other (List.mem_cons_of_mem _ there)
    have counted' := fun other (there : other ∈ children) =>
      counted other (List.mem_cons_of_mem _ there)
    rw [List.flatMap_cons]
    cases outside : child.isExtra with
    | true =>
      rw [List.filter_cons_of_neg (by simp [outside])] at same
      rw [extra child (List.mem_cons_self ..) outside]
      exact ih known extra' counted' same
    | false =>
      rw [List.filter_cons_of_pos (by simp [outside]), List.map_cons] at same
      obtain ⟨symbol, symbols, rfl, here, rest⟩ := List.map_eq_cons_iff.1 same.symm
      obtain ⟨own, first, spelled⟩ := counted child (List.mem_cons_self ..) outside symbol
        (known symbol (List.mem_cons_self ..)) here.symm
      obtain ⟨word, others, spelled'⟩ :=
        ih (fun other there => known other (List.mem_cons_of_mem _ there)) extra' counted' rest.symm
      exact ⟨own ++ word, first.append others, by rw [spelled, spelled', List.map_append]⟩

theorem Derived.yields (generated : Generated grammar table) (h : tree.Derived grammar table)
    (none : tree.Every fun info _ => info.symbol ≠ SymbolId.error) (counted : tree.isExtra = false)
    (symbol : Sym)
    (known : grammar.Has symbol) (same : tree.symbol = grammar.symbolId symbol) :
    ∃ word, grammar.Yields [symbol] word ∧
      tree.sentence table = word.map fun t => grammar.symbolId (.terminal t) := by
  induction tree generalizing symbol with
  | node info children ih =>
    have noExtra : info.isExtra = false := counted
    have symbolEq : info.symbol = grammar.symbolId symbol := same
    have origin : Origin grammar table info children := h.here.origin
    cases origin with
    | error isError => exact absurd isError none.here
    | token leaf noRule =>
      cases leaf
      cases symbol with
      | terminal t =>
        refine ⟨[t], .terminal t .nil, ?_⟩
        rw [sentence_childless, noExtra, symbolEq, generated.isTerminal_terminal known]
        rfl
      | nonterminal n =>
        have rule := generated.isRule_nonterminal known
        rw [← symbolEq, noRule] at rule
        contradiction
    | built built =>
      obtain ⟨n, flat, numbered, owner, right⟩ := built
      obtain ⟨member, inside, has⟩ := generated.of_numbered numbered
      obtain rfl : symbol = .nonterminal n :=
        generated.symbolId_injective _ _ known inside (symbolEq.symm.trans owner)
      have extra (child : Subtree) (there : child ∈ children) (outside : child.isExtra = true) :
          child.sentence table = [] := by
        have leaf := (h.child there).leaf_of_isExtra (none.child there).here outside
        obtain ⟨own, inner⟩ := child
        obtain rfl : inner = [] := leaf
        rw [sentence_childless, show own.isExtra = true from outside]
        rfl
      obtain ⟨word, yields, spelled⟩ := yields_children has extra
        (fun child there outside symbol known same =>
          ih child there (h.child there) (none.child there) outside _ known same) right
      refine ⟨word, by simpa using PreparedGrammar.Yields.nonterminal member yields .nil, ?_⟩
      cases children with
      | nil =>
        have rule := generated.isRule_nonterminal inside
        rw [← owner, Table.isRule, Bool.and_eq_true, Bool.not_eq_true'] at rule
        rw [← spelled, sentence_childless, rule.1, Bool.and_false]
        rfl
      | cons child children => rw [sentence_node, spelled]

end Subtree

end IncrementalGlr
