import IncrementalGlr.Proofs.Parse.Rounds

/-!
# What fragile marks record

A node without the mark was reduced by the only version, in front of a lookahead with a single
action. The mark says nothing about the time before: forks that came up since the first token of the
node was shifted may be gone when it is reduced.
-/

namespace IncrementalGlr

def Version.Reduces (version : Version) (input : ParseInput) (node : Subtree) : Prop :=
  ∃ lookahead childCount dynamicPrecedence popped, version.lookahead = some lookahead ∧
    input.language.actions version.state lookahead.symbol =
      [.reduce node.symbol childCount dynamicPrecedence node.production] ∧
    version.stack.pop childCount.toNat = some popped ∧ node.children = popped.children

def Engine.Reduces (engine : Engine) (input : ParseInput) (node : Subtree) : Prop :=
  ∃ version, engine.versions = [version] ∧ version.Reduces input node

theorem eq_singleton_of_mem {α : Type} {xs : List α} {x : α} (member : x ∈ xs)
    (few : xs.length ≤ 1) : xs = [x] := by
  obtain ⟨y, rfl⟩ := List.length_eq_one_iff.1 (Nat.le_antisymm few (List.length_pos_of_mem member))
  rw [List.mem_singleton.1 member]

variable {source : Subtree → Prop}

namespace Subtree

/-- A node without a mark has only such nodes below it, and where it has children it is known how it
came about. ERROR nodes are apart. -/
def IsFirm (source : Subtree → Prop) (tree : Subtree) : Prop :=
  tree.Every fun info children => info.isFragile = false →
    (∀ child ∈ children, child.isFragile = false) ∧
      (children ≠ [] → info.symbol ≠ SymbolId.error → source (node info children))

variable {tree : Subtree} {children : List Subtree}

theorem isFirm_childless (leaf : tree.children = []) : tree.IsFirm source := by
  obtain ⟨info, children⟩ := tree
  cases leaf
  exact every_node.2 ⟨fun _ => ⟨by simp, fun interior => absurd rfl interior⟩, by simp⟩

theorem unmarked_of_any (unmarked : children.any (·.isFragile) = false) :
    ∀ child ∈ children, child.isFragile = false := fun child member =>
  Bool.eq_false_iff.2 (List.any_eq_false.1 unmarked child member)

theorem isFirm_errorNode (language : Language) (h : ∀ child ∈ children, child.IsFirm source) :
    (errorNode language children).IsFirm source :=
  every_node.2 ⟨fun unmarked => ⟨unmarked_of_any unmarked, fun _ noError => absurd rfl noError⟩, h⟩

theorem IsFirm.unmarked_at? (h : tree.IsFirm source) (unmarked : tree.isFragile = false)
    {path : List Nat} {offset : Length} {inner : Subtree}
    (there : tree.at? path = some (offset, inner)) : inner.isFragile = false := by
  induction path generalizing tree offset with
  | nil =>
    cases there
    exact unmarked
  | cons i path ih =>
    obtain ⟨child, _, here, there, _⟩ := at?_cons.1 there
    have member := List.mem_of_getElem? here
    exact ih (h.child member) ((h.here unmarked).1 child member) there

end Subtree

namespace Stack

def IsFirm (source : Subtree → Prop) (stack : Stack) : Prop :=
  ∀ tree ∈ stack.subtrees, tree.IsFirm source

theorem IsFirm.push {stack : Stack} (h : stack.IsFirm source) {tree : Subtree}
    (firm : tree.IsFirm source) (state : StateId) : (stack.push tree state).IsFirm source :=
  forall_push h firm state

theorem isFirm_append {upper lower : Stack} :
    IsFirm source (upper ++ lower) ↔ upper.IsFirm source ∧ lower.IsFirm source := by
  simp only [IsFirm, subtrees_append, List.forall_mem_append]
  exact and_comm

theorem isFirm_cons {entry : StackEntry} {stack : Stack} :
    IsFirm source (entry :: stack) ↔ entry.subtree.IsFirm source ∧ stack.IsFirm source := by
  simp only [IsFirm, subtrees_cons, List.forall_mem_append, List.forall_mem_singleton]
  exact and_comm

end Stack

namespace ParseInput

variable {input : ParseInput} {stack reduced : Stack}

theorem isFirm_reduce (h : stack.IsFirm source) {reach : Nat} {isFragile : Bool}
    {symbol : SymbolId} {childCount : UInt16} {production : ProductionId}
    (known : isFragile = false → ∀ popped, stack.pop childCount.toNat = some popped →
      ∀ node : Subtree, node.symbol = symbol → node.production = production →
        node.children = popped.children → source node)
    (done : input.reduce stack reach isFragile symbol childCount production = some reduced) :
    reduced.IsFirm source := by
  refine forall_reduce h (fun popped node reach took inside made => ?_) done
  rw [made]
  cases isFragile with
  | true =>
    refine Subtree.every_node.2 ⟨fun unmarked => ?_, inside⟩
    contradiction
  | false =>
    exact Subtree.every_node.2 ⟨fun unmarked => ⟨Subtree.unmarked_of_any unmarked,
      fun _ _ => known rfl popped took _ rfl rfl rfl⟩, inside⟩

theorem isFirm_insertAll (h : stack.IsFirm source) (terminals : List SymbolId)
    (reach budget : Nat) : Stack.IsFirm source (terminals.foldl
      (fun stack terminal => input.insertMissing terminal reach budget stack) stack) :=
  insertAll_preserves (motive := Stack.IsFirm source)
    (fun _ _ _ _ firm _ => firm.push (Subtree.isFirm_childless rfl) _)
    (fun _ _ _ _ _ firm done => isFirm_reduce firm (fun unmarked => by cases unmarked) done)
    budget h

end ParseInput

section Versions

variable {input : ParseInput} {version next : Version}

theorem Version.Becomes.isFirm {count : Nat} (becomes : version.Becomes input none count next)
    (lexed : ∀ tree, version.lookahead ≠ some (.reused tree))
    (known : count ≤ 1 → ∀ node, version.Reduces input node → source node)
    (h : version.stack.IsFirm source) : next.stack.IsFirm source := by
  cases becomes with
  | waits => exact h
  | lexed => exact h
  | lexedAnew => exact h
  | turnedDown => exact h
  | offered mode here => contradiction
  | @reduced lookahead symbol childCount dynamicPrecedence production reach stack here chosen done =>
    refine ParseInput.isFirm_reduce h (fun unmarked popped took node same made covers => ?_) done
    -- The mark is left out only for the one action of a cell, and while no other version is there.
    simp only [Bool.or_eq_false_iff, decide_eq_false_iff_not, Nat.not_lt] at unmarked
    refine known unmarked.2 node ⟨lookahead, childCount, dynamicPrecedence, popped, here, ?_, took,
      covers⟩
    rw [same, made]
    exact eq_singleton_of_mem chosen unmarked.1
  | shifted here leaf chosen =>
    cases leaf with
    | token token => exact h.push (Subtree.isFirm_childless rfl) _
    | reused => exact absurd here (lexed _)
  | extra here leaf lacking isExtra =>
    cases leaf with
    | token token => exact h.push (Subtree.isFirm_childless rfl) _
    | reused => exact absurd here (lexed _)
  | takenOver here => exact absurd here (lexed _)

namespace ParseInput

theorem isFirm_skip (input : ParseInput) (h : version.stack.IsFirm source) (token : Token) :
    (input.skip version token).stack.IsFirm source := by
  have firm : (Subtree.leaf input.language token version.stack.state false).IsFirm source :=
    Subtree.isFirm_childless rfl
  have skips := skips_skip input version token
  generalize Subtree.leaf input.language token version.stack.state false = leaf at firm skips
  generalize input.skip version token = next at skips ⊢
  cases skips with
  | opened =>
    exact h.push (Subtree.isFirm_errorNode _ fun child member => by
      rwa [List.mem_singleton.1 member]) _
  | @extended extras below top parts interior =>
    rw [parts, Stack.isFirm_append, Stack.isFirm_cons] at h
    obtain ⟨upper, top, lower⟩ := h
    refine lower.push (Subtree.isFirm_errorNode _ fun child member => ?_) _
    rcases List.mem_append.1 member with member | last
    · rcases List.mem_append.1 member with inside | extra
      · exact top.child inside
      · exact upper child extra
    · rwa [List.mem_singleton.1 last]

theorem isFirm_errorRoot (input : ParseInput) {stack : Stack} (h : stack.IsFirm source) :
    ∀ child ∈ (input.errorRoot stack).children, child.IsFirm source := by
  intro child member
  rw [List.mem_singleton.1 member]
  exact Subtree.isFirm_errorNode _ h

theorem isFirm_root (input : ParseInput) {stack : Stack} (h : stack.IsFirm source) :
    ∀ child ∈ (input.root stack).children, child.IsFirm source := by
  have becomes := becomesRoot_root input stack
  generalize input.root stack = root at becomes ⊢
  cases becomes with
  | @opened extras below top parts start =>
    rw [parts, Stack.isFirm_append, Stack.isFirm_cons] at h
    obtain ⟨upper, top, lower⟩ := h
    intro child member
    rcases List.mem_append.1 member with member | extra
    · rcases List.mem_append.1 member with below | inside
      · exact lower child below
      · exact top.child inside
    · exact upper child extra
  | error => exact isFirm_errorRoot input h

def Mended.IsFirm (source : Subtree → Prop) : Mended → Prop
  | .version version => version.stack.IsFirm source
  | .root tree => ∀ child ∈ tree.children, child.IsFirm source

theorem isFirm_recover (input : ParseInput) (h : version.stack.IsFirm source) :
    Mended.IsFirm source (input.recover version) := by
  have mends := mends_recover input version
  generalize input.nextToken version = token at mends
  generalize input.recover version = mended at mends ⊢
  cases mends with
  | passed isError => exact h.push (Subtree.isFirm_childless rfl) _
  | inserted insertable => exact isFirm_insertAll h _ _ _
  | folded parts =>
    rw [parts, Stack.isFirm_append] at h
    exact h.2.push (Subtree.isFirm_errorNode _ h.1) _
  | skipped inside => exact isFirm_skip input h token
  | ended isEnd => exact isFirm_errorRoot input h

end ParseInput

end Versions

structure Engine.IsFirm (engine : Engine) (source : Subtree → Prop) : Prop where
  versions : ∀ version ∈ engine.versions, version.stack.IsFirm source
  finished : ∀ root ∈ engine.finished, ∀ child ∈ root.children, child.IsFirm source

namespace Engine

variable {engine : Engine} {input : ParseInput}

theorem length_versions (engine : Engine) : engine.versions.length = engine.versionCount := by
  rw [versions, List.length_append, List.length_map, versionCount]

theorem isFirm_step (fresh : engine.IsFresh)
    (known : ∀ node, engine.Reduces input node → source node) (h : engine.IsFirm source) :
    (engine.step input).IsFirm source := by
  have steps := steps_step engine input
  refine ⟨fun version member => ?_, fun root found => ?_⟩
  · rcases steps.versions version member with old | ⟨before, there, becomes | recovered⟩
    · exact h.versions version old
    · rw [fresh.reuse] at becomes
      refine becomes.isFirm (fresh.lexed before there) (fun few node reduces => ?_)
        (h.versions before there)
      rw [← length_versions] at few
      exact known node ⟨before, eq_singleton_of_mem there few, reduces⟩
    · have mended := ParseInput.isFirm_recover input (h.versions before there)
      rw [recovered] at mended
      exact mended
  · rcases steps.finished root found with old | ⟨version, there, ends | recovered⟩
    · exact h.finished root old
    · cases ends with
      | accepted => exact ParseInput.isFirm_root input (h.versions version there)
    · have mended := ParseInput.isFirm_recover input (h.versions version there)
      rw [recovered] at mended
      exact mended

/-- The engine after so many steps of a parse without an old tree. -/
def after (input : ParseInput) (steps : Nat) : Engine :=
  (fun engine => engine.step input)^[steps] (Engine.begin input none)

theorem after_succ (input : ParseInput) (steps : Nat) :
    after input (steps + 1) = (after input steps).step input :=
  Function.iterate_succ_apply' _ _ _

theorem isFirm_begin (input : ParseInput) (source : Subtree → Prop) :
    (Engine.begin input none).IsFirm source := by
  refine ⟨fun version member => ?_, fun _ none => by cases none⟩
  rw [List.mem_singleton.1 member]
  exact fun _ absent => absurd absent List.not_mem_nil

theorem isFirm_run {fuel : Nat} {last : Engine}
    (known : ∀ steps node, (after input steps).Reduces input node → source node)
    (ran : run input fuel (Engine.begin input none) = some last) : last.IsFirm source := by
  -- What is known holds of the engines of this parse, so the run carries the number of its steps.
  refine (run_preserves (motive := fun engine => engine.IsFresh ∧ engine.IsFirm source ∧
    ∃ steps, engine = after input steps) (fun engine kept _ => ?_)
    ⟨isFresh_begin input, isFirm_begin input source, 0, rfl⟩ ran).1.2.1
  obtain ⟨fresh, firm, steps, rfl⟩ := kept
  exact ⟨fresh.step, isFirm_step fresh (known steps) firm, steps + 1, (after_succ input steps).symm⟩

end Engine

def ParseInput.Reduces (input : ParseInput) (node : Subtree) : Prop :=
  ∃ steps, (Engine.after input steps).Reduces input node

/-- Whatever has children in an unmarked node below the root of a parsed text was made while there
was a single version, by the only action on its lookahead. -/
theorem reduces_of_parse {language : Language} {fuel : Nat} {options : ParserOptions}
    {text : String} {parsed : Parsed}
    (returned : parseWithin fuel language options text none = some parsed) {path more : List Nat}
    (below : path ≠ []) {offset offset' : Length} {node inner : Subtree}
    (there : parsed.tree.root.at? path = some (offset, node)) (unmarked : node.isFragile = false)
    (inside : node.at? more = some (offset', inner)) (interior : inner.children ≠ [])
    (noError : inner.isError = false) :
    (ParseInput.ofText language options text).Reduces inner := by
  generalize whole : ParseInput.ofText language options text = input
  obtain ⟨engine, ran, rfl⟩ := Option.map_eq_some_iff.1 returned
  rw [whole] at ran there
  have firm : engine.IsFirm input.Reduces :=
    Engine.isFirm_run (fun steps node now => ⟨steps, now⟩) ran
  have children : ∀ child ∈ (engine.result input).children, child.IsFirm input.Reduces := by
    unfold Engine.result
    cases found : engine.finished with
    | none => exact fun _ absent => absurd absent List.not_mem_nil
    | some root => exact firm.finished root found
  cases path with
  | nil => exact absurd rfl below
  | cons i path =>
    obtain ⟨child, _, here, there, _⟩ := Subtree.at?_cons.1 there
    have known : node.IsFirm input.Reduces :=
      Subtree.Every.at? (children child (List.mem_of_getElem? here)) there
    have unmarked' := known.unmarked_at? unmarked inside
    obtain ⟨info, below⟩ := inner
    exact ((known.at? inside).here unmarked').2 interior (beq_eq_false_iff_ne.1 noError)

def forkTable : Table where
  name := "forked"
  symbols := #[⟨"end", false, true, false⟩, ⟨"x", true, false, false⟩, ⟨"y", true, false, false⟩,
    ⟨"z", true, false, false⟩, ⟨"v", true, false, false⟩, ⟨"w", true, false, false⟩,
    ⟨"s", true, true, false⟩, ⟨"n", true, true, false⟩, ⟨"m", true, true, false⟩,
    ⟨"t", true, true, false⟩]
  terminalCount := 6
  ruleCount := 4
  startSymbol := ⟨6⟩
  fieldNames := #[]
  productions := #[⟨⟨6⟩, 0, [⟨none, none⟩]⟩, ⟨⟨6⟩, 0, List.replicate 2 ⟨none, none⟩⟩,
    ⟨⟨7⟩, 0, List.replicate 4 ⟨none, none⟩⟩, ⟨⟨8⟩, 0, List.replicate 2 ⟨none, none⟩⟩,
    ⟨⟨9⟩, 0, List.replicate 2 ⟨none, none⟩⟩]
  stateCount := 11
  actionIndex := #[0, 1, 0, 0, 0, 0, 0, 0, 2, 0, 0, 0, 3, 0, 0, 0, 0, 0, 4, 0, 0, 0, 0, 0, 0, 0, 0,
    5, 0, 0, 0, 0, 0, 6, 0, 0, 0, 0, 0, 0, 0, 7, 8, 0, 0, 0, 0, 0, 0, 0, 0, 0, 9, 0, 10, 0, 0, 0, 0,
    0, 11, 0, 0, 0, 0, 0]
  actionLists := #[[], [.shift ⟨1⟩], [.shift ⟨5⟩], [.accept], [.reduce ⟨6⟩ 1 0 ⟨0⟩], [.shift ⟨6⟩],
    [.shift ⟨8⟩, .reduce ⟨8⟩ 2 0 ⟨3⟩], [.shift ⟨9⟩], [.reduce ⟨6⟩ 2 0 ⟨1⟩], [.shift ⟨10⟩],
    [.reduce ⟨9⟩ 2 0 ⟨4⟩], [.reduce ⟨7⟩ 4 0 ⟨2⟩]]
  gotos := #[⟨2⟩, ⟨3⟩, ⟨4⟩] ++ Array.replicate 16 StateId.none ++ #[⟨7⟩]
    ++ Array.replicate 24 StateId.none
  allowsExtras := Array.replicate 11 true
  extras := []
  externalTokens := #[]
  wordToken := none
  keywords := []
  lexStates := #[⟨#[⟨118, 118, 1⟩, ⟨119, 119, 2⟩, ⟨120, 120, 3⟩, ⟨121, 121, 4⟩, ⟨122, 122, 5⟩], []⟩,
    ⟨#[], [⟨4⟩]⟩, ⟨#[], [⟨5⟩]⟩, ⟨#[], [⟨1⟩]⟩, ⟨#[], [⟨2⟩]⟩, ⟨#[], [⟨3⟩]⟩]
  lexStart := 0

def forkLanguage : Option Language := (Language.ofTable forkTable none 1).toOption

theorem reduces_of_parse_forked : ∃ language parsed offset node leaf,
    forkLanguage = some language ∧ parseWithin 100 language .standard "xyzv" none = some parsed ∧
      parsed.tree.hasError = false ∧ parsed.tree.root.at? [0] = some (offset, node) ∧
      node.isFragile = false ∧ leaf ∈ node.children ∧
      (language.actions leaf.parseState leaf.symbol).length = 2 ∧
      (ParseInput.ofText language .standard "xyzv").Reduces node := by
  have runs : (forkLanguage.any fun language =>
      (parseWithin 100 language .standard "xyzv" none).any fun parsed =>
        (parsed.tree.root.at? [0]).any fun found =>
          decide (parsed.tree.hasError = false ∧ found.2.isFragile = false ∧
            found.2.isError = false) &&
            found.2.children.any fun leaf =>
              (language.actions leaf.parseState leaf.symbol).length == 2) = true := by
    decide +kernel
  obtain ⟨language, built, runs⟩ := (Option.any_eq_true _ _).1 runs
  obtain ⟨parsed, returned, runs⟩ := (Option.any_eq_true _ _).1 runs
  obtain ⟨⟨offset, node⟩, there, runs⟩ := (Option.any_eq_true _ _).1 runs
  obtain ⟨marks, runs⟩ := Bool.and_eq_true_iff.1 runs
  obtain ⟨noError, unmarked, noErrorNode⟩ := of_decide_eq_true marks
  obtain ⟨leaf, member, two⟩ := List.any_eq_true.1 runs
  refine ⟨language, parsed, offset, node, leaf, built, returned, noError, there, unmarked, member,
    eq_of_beq two, ?_⟩
  have here : node.at? [] = some (Length.zero, node) := rfl
  exact reduces_of_parse returned (List.cons_ne_nil 0 []) there unmarked here
    (List.ne_nil_of_mem member) noErrorNode

end IncrementalGlr
