import IncrementalGlr.Proofs.Parse.History
import IncrementalGlr.Proofs.Parse.Steps
import IncrementalGlr.Proofs.Tree.Assembly

/-!
# What all trees have in common

Trees come about in few ways: the parser makes leaves, nodes of productions and ERROR nodes, takes
them apart and marks them, and edits change their sizes. What each of these ways keeps holds of
every tree, whatever was edited and parsed before.
-/

namespace IncrementalGlr

structure Subtree.Inherited (language : Language) (p : Subtree → Prop) : Prop where
  child : ∀ tree child, p tree → child ∈ tree.children → p child
  leaf : ∀ token state isExtra, p (leaf language token state isExtra)
  missing : ∀ symbol state, p (missing language symbol state)
  ofProduction : ∀ symbol production children, language.table.isRule symbol = true →
    (∀ child ∈ children, p child) → p (ofProduction language symbol production children)
  errorNode : ∀ children, (∀ child ∈ children, p child) → p (errorNode language children)
  withExtra : ∀ tree isExtra, tree.children = [] → p tree → p (tree.withExtra isExtra)
  withParseState : ∀ tree state, p tree → p (tree.withParseState state)
  withFragile : ∀ tree, p tree → p tree.withFragile
  withReach : ∀ tree reach, p tree → p (tree.withReach reach)
  edited : ∀ tree edit start last, p tree → p (tree.edited edit start last)

def ReuseCursor.All (cursor : ReuseCursor) (p : Subtree → Prop) : Prop :=
  ∀ frame ∈ cursor.frames, p frame.subtree ∧ ∀ sibling ∈ frame.siblings, p sibling

namespace ReuseCursor

variable {cursor next : ReuseCursor} {p : Subtree → Prop}

theorem all_advanceFrames {frames : List ReuseFrame} {state : Option ScannerState}
    (h : ∀ frame ∈ frames, p frame.subtree ∧ ∀ sibling ∈ frame.siblings, p sibling) :
    (advanceFrames frames state).All p := by
  induction frames generalizing state with
  | nil => exact fun frame member => absurd member List.not_mem_nil
  | cons frame parents ih =>
    have above := fun other (member : other ∈ parents) => h other (List.mem_cons_of_mem _ member)
    unfold advanceFrames
    dsimp only
    split
    · next sibling siblings parent parents beside =>
        have here := (h frame (List.mem_cons_self ..)).2
        rw [beside, List.forall_mem_cons] at here
        exact List.forall_mem_cons.2 ⟨here, above⟩
    · exact ih above

section Descent

variable (child : ∀ tree child, p tree → child ∈ tree.children → p child)

include child

theorem all_descend? (h : cursor.All p) (down : cursor.descend? = some next) : next.All p := by
  unfold descend? at down
  split at down
  · contradiction
  · next frame parents way =>
      split at down
      · contradiction
      · next first siblings inside =>
          cases down
          have here := (h frame (by rw [way]; exact List.mem_cons_self ..)).1
          have below := fun tree member => child frame.subtree tree here (inside ▸ member)
          exact List.forall_mem_cons.2 ⟨List.forall_mem_cons.1 below, h⟩

theorem all_candidate (h : cursor.All p) (position : Nat) :
    (cursor.candidate position).2.All p ∧ ∀ tree ∈ (cursor.candidate position).1, p tree := by
  fun_induction candidate cursor position with
  | case1 cursor way => exact ⟨h, fun tree found => by cases found⟩
  | case2 cursor => exact ⟨h, fun tree found => by cases found⟩
  | case3 cursor frame parents way start stop _ _ ih => exact ih (all_advanceFrames h)
  | case4 cursor frame parents way start stop _ _ _ next down ih =>
    exact ih (all_descend? child h down)
  | case5 cursor frame parents way start stop _ _ _ _ ih => exact ih (all_advanceFrames h)
  | case6 cursor frame parents way start stop notBehind _ notBefore =>
    refine ⟨h, fun tree found => ?_⟩
    cases found
    exact (h frame (by rw [way]; exact List.mem_cons_self ..)).1

theorem all_search (h : cursor.All p) (position : Nat)
    (test : Subtree → Option ScannerState → Bool) :
    (cursor.search position test).2.All p ∧
      ∀ tree ∈ (cursor.search position test).1, p tree ∧
        test tree (cursor.search position test).2.scannerState = true := by
  fun_induction search cursor position test with
  | case1 cursor next found =>
    have spec := all_candidate child h position
    rw [found] at spec
    exact ⟨spec.1, fun tree found => by cases found⟩
  | case2 cursor tree next found fits =>
    have spec := all_candidate child h position
    rw [found] at spec
    refine ⟨spec.1, fun other same => ?_⟩
    cases same
    exact ⟨spec.2 tree rfl, fits⟩
  | case3 cursor tree next found misfit inner down ih =>
    have spec := all_candidate child h position
    rw [found] at spec
    exact ih (all_descend? child spec.1 down)
  | case4 cursor tree next found misfit down =>
    have spec := all_candidate child h position
    rw [found] at spec
    exact ⟨spec.1, fun tree found => by cases found⟩

theorem Moves.all (moves : cursor.Moves next) (h : cursor.All p) : next.All p := by
  cases moves with
  | stays => exact h
  | advances => exact all_advanceFrames h
  | descends down => exact all_descend? child h down
  | searches position test => exact (all_search child h position test).1

end Descent

end ReuseCursor

theorem Engine.errorCost_of_isReusable {input : ParseInput} {mode : LexModeId}
    {expected state : Option ScannerState} {tree : Subtree}
    (h : isReusable input mode expected tree state = true) : tree.errorCost = 0 := by
  simp only [isReusable, Bool.and_eq_true, beq_iff_eq] at h
  exact h.1.1.1.1.1.1.2

structure Version.All (version : Version) (p : Subtree → Prop) : Prop where
  stack : ∀ tree ∈ version.stack.subtrees, p tree
  reused : ∀ tree, version.lookahead = some (.reused tree) → p tree

section Steps

variable {input : ParseInput} {version next : Version} {reuse : Option ReuseCursor}
  {p : Subtree → Prop}

theorem Version.all_shift {tree : Subtree} (h : ∀ other ∈ version.stack.subtrees, p other)
    (here : p tree) (state : StateId) : (version.shift tree state).All p :=
  ⟨Stack.forall_push h here state, fun _ found => by cases found⟩

section Inherited

variable (inherited : Subtree.Inherited input.language p)

include inherited

theorem Lookahead.ShiftsAs.inherits {lookahead : Lookahead} {state : StateId} {isExtra : Bool}
    {tree : Subtree} (shifts : lookahead.ShiftsAs input.language state isExtra tree)
    (here : version.lookahead = some lookahead) (h : version.All p) : p tree := by
  cases shifts with
  | token token => exact inherited.leaf ..
  | reused leaf =>
    exact inherited.withExtra _ _ leaf (inherited.withParseState _ _ (h.reused _ here))

theorem ParseInput.all_reduce {stack reduced : Stack} (h : ∀ tree ∈ stack.subtrees, p tree)
    {reach : Nat} {isFragile : Bool} {symbol : SymbolId} {childCount : UInt16}
    {production : ProductionId}
    (done : input.reduce stack reach isFragile symbol childCount production = some reduced) :
    ∀ tree ∈ reduced.subtrees, p tree := by
  obtain ⟨_, _, _, _, goes, _⟩ := reduce_eq_some done
  refine forall_reduce h (fun popped node reach _ inside made => ?_) done
  have built := inherited.withReach _ reach
    (inherited.ofProduction symbol production _ (Table.isRule_of_goto? goes) inside)
  rw [made]
  split
  · exact inherited.withFragile _ built
  · exact built

theorem Version.Becomes.all {count : Nat} (becomes : version.Becomes input reuse count next)
    (offers : ∀ cursor ∈ reuse, cursor.All p) (h : version.All p) : next.All p := by
  cases becomes with
  | waits => exact h
  | lexed | lexedAnew | turnedDown => exact ⟨h.stack, fun _ found => by cases found⟩
  | offered mode here found =>
    refine ⟨h.stack, fun other same => ?_⟩
    cases same
    exact ((ReuseCursor.all_search inherited.child (offers _ here) _ _).2 _ found).1
  | reduced here chosen done =>
    exact ⟨ParseInput.all_reduce inherited h.stack done, h.reused⟩
  | shifted here leaf chosen => exact all_shift h.stack (leaf.inherits inherited here h) _
  | extra here leaf lacking isExtra => exact all_shift h.stack (leaf.inherits inherited here h) _
  | takenOver here goes =>
    exact ⟨Stack.forall_push h.stack (h.reused _ here) _, fun _ found => by cases found⟩

namespace ParseInput

theorem all_insertAll {stack : Stack} (h : ∀ tree ∈ stack.subtrees, p tree)
    (terminals : List SymbolId) (reach budget : Nat) : ∀ tree ∈ Stack.subtrees (terminals.foldl
      (fun stack terminal => input.insertMissing terminal reach budget stack) stack), p tree :=
  insertAll_preserves (motive := fun stack : Stack => ∀ tree ∈ stack.subtrees, p tree)
    (fun _ _ _ _ all _ => Stack.forall_push all (inherited.missing ..) _)
    (fun _ _ _ _ _ all done => all_reduce inherited all done) budget h

theorem all_skip (h : version.All p) (token : Token) : (input.skip version token).All p := by
  have leaf : p (Subtree.leaf input.language token version.stack.state false) := inherited.leaf ..
  have skips := skips_skip input version token
  generalize Subtree.leaf input.language token version.stack.state false = skipped at leaf skips
  generalize input.skip version token = next at skips ⊢
  cases skips with
  | opened => exact Version.all_shift h.stack (inherited.errorNode _ (by simpa using leaf)) _
  | @extended extras below top parts interior =>
    have all := h.stack
    rw [parts, Stack.subtrees_append_cons, List.forall_mem_append, List.forall_mem_cons] at all
    obtain ⟨lower, top, upper⟩ := all
    refine Version.all_shift lower (inherited.errorNode _ ?_) _
    rw [List.forall_mem_append, List.forall_mem_append, List.forall_mem_singleton]
    exact ⟨⟨fun child => inherited.child _ child top, upper⟩, leaf⟩

theorem all_errorRoot (start : input.language.table.isRule input.language.table.startSymbol = true)
    {stack : Stack} (h : ∀ tree ∈ stack.subtrees, p tree) : p (input.errorRoot stack) :=
  inherited.ofProduction _ _ _ start (by simpa using inherited.errorNode _ h)

theorem all_root (start : input.language.table.isRule input.language.table.startSymbol = true)
    {stack : Stack} (h : ∀ tree ∈ stack.subtrees, p tree) : p (input.root stack) := by
  have becomes := becomesRoot_root input stack
  generalize input.root stack = root at becomes ⊢
  cases becomes with
  | @opened extras below top parts same =>
    rw [parts, Stack.subtrees_append_cons, List.forall_mem_append, List.forall_mem_cons] at h
    obtain ⟨lower, top, upper⟩ := h
    refine inherited.ofProduction _ _ _ (same ▸ start) ?_
    rw [List.forall_mem_append, List.forall_mem_append]
    exact ⟨⟨lower, fun child => inherited.child _ child top⟩, upper⟩
  | error => exact all_errorRoot inherited start h

def Mended.All (p : Subtree → Prop) : Mended → Prop
  | .version mended => mended.All p
  | .root tree => p tree

theorem all_recover (start : input.language.table.isRule input.language.table.startSymbol = true)
    (h : version.All p) : Mended.All p (input.recover version) := by
  have mends := mends_recover input version
  generalize input.nextToken version = token at mends
  generalize input.recover version = mended at mends ⊢
  cases mends with
  | passed isError => exact Version.all_shift h.stack (inherited.leaf ..) _
  | inserted insertable =>
    exact ⟨all_insertAll inherited h.stack _ _ _, fun _ found => by cases found⟩
  | folded parts =>
    have all := h.stack
    rw [parts, Stack.subtrees_append, List.forall_mem_append] at all
    exact ⟨Stack.forall_push all.1 (inherited.errorNode _ all.2) _, fun _ found => by cases found⟩
  | skipped inside => exact all_skip inherited h token
  | ended isEnd => exact all_errorRoot inherited start h.stack

end ParseInput

end Inherited

end Steps

structure Engine.All (engine : Engine) (p : Subtree → Prop) : Prop where
  versions : ∀ version ∈ engine.versions, version.All p
  reuse : ∀ cursor ∈ engine.reuse, cursor.All p
  finished : ∀ root ∈ engine.finished, p root

namespace Engine

variable {engine : Engine} {input : ParseInput} {p : Subtree → Prop}

theorem all_step (engine : Engine) (input : ParseInput)
    (inherited : Subtree.Inherited input.language p)
    (start : input.language.table.isRule input.language.table.startSymbol = true)
    (h : engine.All p) : (engine.step input).All p := by
  have steps := steps_step engine input
  refine ⟨fun version member => ?_, fun cursor here => ?_, fun root found => ?_⟩
  · rcases steps.versions version member with old | ⟨before, there, becomes | recovered⟩
    · exact h.versions version old
    · exact becomes.all inherited h.reuse (h.versions before there)
    · have mended := ParseInput.all_recover inherited start (h.versions before there)
      rw [recovered] at mended
      exact mended
  · obtain ⟨before, there, moves⟩ := steps.reuse cursor here
    exact moves.all inherited.child (h.reuse before there)
  · rcases steps.finished root found with old | ⟨version, there, ends | recovered⟩
    · exact h.finished root old
    · cases ends with
      | accepted => exact ParseInput.all_root inherited start (h.versions version there).stack
    · have mended := ParseInput.all_recover inherited start (h.versions version there)
      rw [recovered] at mended
      exact mended

theorem all_begin {language : Language} (options : ParserOptions) {text : String}
    {old : Option Tree}
    (before : ∀ tree, old = some tree → tree.language.isSame language = true → p tree.root) :
    (Engine.begin (ParseInput.ofText language options text) old).All p := by
  refine ⟨fun version member => ?_, fun cursor found => ?_, fun _ none => by cases none⟩
  · rw [List.mem_singleton.1 member]
    exact ⟨fun _ absent => absurd absent List.not_mem_nil, fun _ found => by cases found⟩
  · obtain ⟨tree, usable, rfl⟩ := Option.map_eq_some_iff.1 found
    obtain ⟨here, usable⟩ := Option.filter_eq_some_iff.1 usable
    have same := (Bool.and_eq_true_iff.1 usable).1
    intro frame member
    rw [List.mem_singleton.1 member]
    exact ⟨before tree here same, fun _ absent => absurd absent List.not_mem_nil⟩

end Engine

/-- The tree came about by parses and edits, whatever the texts were and whether or not the edits
fit them. -/
inductive Tree.Arises (language : Language) : Tree → Prop
  | parsed {fuel : Nat} {options : ParserOptions} {text : String} {old : Option Tree}
      {parsed : Parsed}
      (history : ∀ tree, old = some tree → tree.language.isSame language = true →
        Tree.Arises language tree)
      (returned : parseWithin fuel language options text old = some parsed) :
      Tree.Arises language parsed.tree
  | edited {tree : Tree} (history : Tree.Arises language tree) (edit : Edit) :
      Tree.Arises language (tree.edit edit)

theorem Tree.Follows.arises {language : Language} {tree : Tree} {text : String}
    (h : tree.Follows language text) : tree.Arises language := by
  induction h with
  | parsed _ returned ih => exact .parsed ih returned
  | edited _ start oldEnd inserted _ _ ih => exact .edited ih _

theorem Tree.Arises.inherits {language : Language} {p : Subtree → Prop}
    (inherited : Subtree.Inherited language p) (built : language.IsBuilt) {tree : Tree}
    (h : tree.Arises language) : p tree.root := by
  induction h with
  | edited history edit ih => exact inherited.edited _ _ _ _ ih
  | @parsed fuel options text old parsed history returned ih =>
    obtain ⟨engine, ran, rfl⟩ := Option.map_eq_some_iff.1 returned
    have all := (Engine.run_preserves (motive := fun engine => engine.All p)
      (fun engine kept _ => engine.all_step (ParseInput.ofText language options text) inherited
        built.consistent.start kept) (Engine.all_begin options ih) ran).1
    obtain ⟨root, found, same⟩ := Engine.exists_result_of_run ran
    change p (engine.result _)
    exact same ▸ all.finished root found

theorem Subtree.inherited_assembled (language : Language) :
    Subtree.Inherited language Assembled where
  child _ _ whole member := whole.child member
  leaf token state isExtra := .leaf language token state isExtra
  missing symbol state := .missing language symbol state
  ofProduction symbol production _ _ parts := .ofProduction language symbol production parts
  errorNode _ parts := .errorNode language parts
  withExtra _ isExtra _ whole := whole.withExtra isExtra
  withParseState _ state whole := whole.withParseState state
  withFragile _ whole := whole.withFragile
  withReach _ reach whole := whole.withReach reach
  edited _ edit start last whole := whole.edited edit start last

theorem Tree.Arises.assembled {language : Language} (built : language.IsBuilt) {tree : Tree}
    (h : tree.Arises language) : tree.root.Assembled :=
  h.inherits (Subtree.inherited_assembled language) built

end IncrementalGlr
