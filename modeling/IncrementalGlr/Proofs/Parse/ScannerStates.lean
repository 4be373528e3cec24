import IncrementalGlr.Proofs.Lexer.Examination
import IncrementalGlr.Proofs.Parse.Leaves
import IncrementalGlr.Proofs.Tree.ScannerStates

/-!
# Scanner states are threaded through the tree

A token of the scanner depends on the state that the scanner was left in. The parser finds this
state on its stack, before reductions, forks and recoveries that the token sees only later. They
keep the leaves with a state in order, so that in the end each of them is what the scanner finds
from the state on the one before it.
-/

namespace IncrementalGlr

/-- From the state that it was left in, the scanner finds a token of this symbol and size at the
lexer's place, and leaves another state. -/
def Lexer.Scans (lexer : Lexer) (mode : LexMode) (carried : Option ScannerState)
    (symbol : SymbolId) (size : Length) (state : ScannerState) : Prop :=
  ∃ scanner outcome scanned, lexer.language.scanner = some scanner ∧
    scanner.scan (carried.getD []) mode.externalValid (ScanContext.ofCursor lexer.cursor)
      = outcome ∧
    (outcome.context.finish outcome.accepted).1 = some scanned ∧
    lexer.language.externalTokens[scanned.index]? = some symbol ∧
    scanned.stop - lexer.cursor.position = size ∧ outcome.state = state

theorem Lexer.scans_of_scannerState {lexer : Lexer} {id : LexModeId} {mode : LexMode}
    {carried : Option ScannerState} {state : ScannerState}
    (found : (lexer.next id mode carried).scannerState = some state) :
    lexer.Scans mode carried (lexer.next id mode carried).symbol
      (lexer.next id mode carried).size state := by
  obtain ⟨scanner, outcome, scanned, symbol, known, scans, finished, numbered, _, same⟩ :=
    external?_eq_some (external?_of_scannerState found)
  rw [same] at found ⊢
  exact ⟨scanner, outcome, scanned, known, scans, finished, numbered, rfl, Option.some.inj found⟩

namespace ParseInput

/-- Each leaf with a state is what the scanner finds at its place, in the leaf's lex mode, from the
state on the last such leaf before it: from `carried` on, up to the state behind the leaves. -/
inductive Threads (input : ParseInput) :
    Option ScannerState → List (Subtree × Length) → Option ScannerState → Prop
  | nil (carried : Option ScannerState) : Threads input carried [] carried
  | passed {carried last : Option ScannerState} {leaf : Subtree} {start : Length}
      {rest : List (Subtree × Length)} (none : leaf.info.scannerState = none)
      (others : Threads input carried rest last) : Threads input carried ((leaf, start) :: rest) last
  | scanned {carried last : Option ScannerState} {leaf : Subtree} {start : Length}
      {rest : List (Subtree × Length)} {state : ScannerState}
      (carries : leaf.info.scannerState = some state)
      (scans : ((Lexer.ofSource input.language input.source).seek start).Scans
        (input.language.lexMode leaf.lexMode) carried leaf.symbol leaf.size state)
      (others : Threads input (some state) rest last) :
      Threads input carried ((leaf, start) :: rest) last

/-- The token is what the lexer finds at the position, in the token's lex mode, from the state that
the scanner was left in. -/
def FindsFrom (input : ParseInput) (carried : Option ScannerState) (position : Length)
    (token : Token) : Prop :=
  ((Lexer.ofSource input.language input.source).seek position).next token.lexMode
    (input.language.lexMode token.lexMode) carried = token

namespace Threads

variable {input : ParseInput} {carried middle last : Option ScannerState}
  {xs ys before after : List (Subtree × Length)} {leaf : Subtree} {start : Length}

theorem append (first : Threads input carried xs middle) (second : Threads input middle ys last) :
    Threads input carried (xs ++ ys) last := by
  induction first with
  | nil => exact second
  | passed none _ ih => exact .passed none (ih second)
  | scanned carries scans _ ih => exact .scanned carries scans (ih second)

theorem split (h : Threads input carried (xs ++ ys) last) :
    ∃ middle, Threads input carried xs middle ∧ Threads input middle ys last := by
  induction xs generalizing carried with
  | nil => exact ⟨carried, .nil carried, h⟩
  | cons entry xs ih =>
    cases h with
    | passed none others =>
      obtain ⟨middle, first, second⟩ := ih others
      exact ⟨middle, .passed none first, second⟩
    | scanned carries scans others =>
      obtain ⟨middle, first, second⟩ := ih others
      exact ⟨middle, .scanned carries scans first, second⟩

theorem last_eq (h : Threads input carried xs last) : last = (stateBehind xs).or carried := by
  induction h with
  | nil => rfl
  | @passed carried last leaf start rest none _ ih =>
    rw [← List.singleton_append, stateBehind_append, stateBehind_singleton, none, Option.or_none]
    exact ih
  | @scanned carried last leaf start rest state carries _ _ ih =>
    rw [← List.singleton_append, stateBehind_append, stateBehind_singleton, carries, ih,
      Option.or_assoc, Option.some_or]

theorem carriers_iff : Threads input carried (carriers xs) last ↔ Threads input carried xs last := by
  induction xs generalizing carried with
  | nil => exact Iff.rfl
  | cons entry xs ih =>
    obtain ⟨leaf, start⟩ := entry
    cases found : leaf.info.scannerState with
    | none =>
      have dropped : carriers ((leaf, start) :: xs) = carriers xs := by simp [carriers, found]
      rw [dropped, ih]
      refine ⟨.passed found, fun h => ?_⟩
      cases h with
      | passed _ others => exact others
      | scanned carries => cases found.symm.trans carries
    | some state =>
      have kept : carriers ((leaf, start) :: xs) = (leaf, start) :: carriers xs := by
        simp [carriers, found]
      rw [kept]
      constructor
      · intro h
        cases h with
        | passed none => cases found.symm.trans none
        | scanned carries scans others => exact .scanned carries scans (ih.1 others)
      · intro h
        cases h with
        | passed none => cases found.symm.trans none
        | scanned carries scans others => exact .scanned carries scans (ih.2 others)

theorem rearranges (h : Threads input carried before last) (moved : Rearranges before after) :
    Threads input carried after last := by
  rw [← carriers_iff, ← moved.carriers]
  exact carriers_iff.2 h

theorem leaf_of_finds {token : Token} (found : input.FindsFrom carried start token)
    (state : StateId) (isExtra : Bool) :
    Threads input carried [(Subtree.leaf input.language token state isExtra, start)]
      (token.scannerState.or carried) := by
  cases carries : token.scannerState with
  | none => exact .passed carries (.nil carried)
  | some state =>
    refine .scanned carries ?_ (.nil _)
    have scans := Lexer.scans_of_scannerState ((congrArg Token.scannerState found).trans carries)
    rwa [found] at scans

theorem scans (h : Threads input none (before ++ (leaf, start) :: after) last)
    {state : ScannerState} (carries : leaf.info.scannerState = some state) :
    ((Lexer.ofSource input.language input.source).seek start).Scans
      (input.language.lexMode leaf.lexMode) (stateBehind before) leaf.symbol leaf.size state := by
  obtain ⟨middle, first, second⟩ := h.split
  rw [first.last_eq, Option.or_none] at second
  cases second with
  | passed none => cases none.symm.trans carries
  | scanned carries' scans =>
    cases carries.symm.trans carries'
    exact scans

theorem last_eq_of_isEmpty (h : Threads input carried xs last)
    (empty : input.language.externalTokens.isEmpty = true) : last = carried := by
  induction h with
  | nil => rfl
  | passed _ _ ih => exact ih
  | scanned carries scans =>
    obtain ⟨_, _, scanned, _, _, _, numbered, _⟩ := scans
    have inside := (Array.getElem?_eq_some_iff.1 numbered).1
    rw [Array.isEmpty_iff] at empty
    simp [Lexer.seek, Lexer.ofSource, empty] at inside

end Threads

end ParseInput

/-- The leaves of a version are threaded, its subtrees are marked so that the last state is found,
and its lookahead was lexed from that state. -/
structure Version.Threads (version : Version) (input : ParseInput) : Prop where
  marked : version.stack.IsScanMarked
  leaves : input.Threads none version.stack.leaves (stateBehind version.stack.leaves)
  lookahead : ∀ token, version.lookahead = some (.token token) →
    input.FindsFrom (stateBehind version.stack.leaves) version.stack.position token

section Versions

variable {input : ParseInput} {version next : Version} {token : Token} {stack reduced : Stack}
  {table : Table} {pre post : List Char}

namespace ParseInput

theorem findsFrom_lex (marked : stack.IsScanMarked)
    (threads : input.Threads none stack.leaves (stateBehind stack.leaves)) (mode : LexModeId) :
    input.FindsFrom (stateBehind stack.leaves) stack.position (input.lex stack mode) := by
  have carried : input.scannerState stack = stateBehind stack.leaves := by
    unfold scannerState
    split
    · next empty => exact (threads.last_eq_of_isEmpty empty).symm
    · exact Stack.lastScannerState_eq marked
  unfold FindsFrom lex
  rw [Lexer.lexMode_next, carried]

theorem isScanMarked_reduce (h : stack.IsScanMarked) {reach : Nat} {isFragile : Bool}
    {symbol : SymbolId} {childCount : UInt16} {production : ProductionId}
    (done : input.reduce stack reach isFragile symbol childCount production = some reduced) :
    reduced.IsScanMarked := by
  refine forall_reduce h (fun popped node reach _ inside made => ?_) done
  rw [made]
  split <;> exact Subtree.isScanMarked_node rfl rfl inside

theorem isScanMarked_insertAll (h : stack.IsScanMarked) (terminals : List SymbolId)
    (reach budget : Nat) : Stack.IsScanMarked (terminals.foldl
      (fun stack terminal => input.insertMissing terminal reach budget stack) stack) :=
  insertAll_preserves (motive := Stack.IsScanMarked)
    (fun _ _ _ _ marked _ => marked.push (Subtree.isScanMarked_missing ..) _)
    (fun _ _ _ _ _ marked done => isScanMarked_reduce marked done) budget h

theorem isScanMarked_skip (h : version.stack.IsScanMarked) (token : Token) :
    (input.skip version token).stack.IsScanMarked := by
  have marked := Subtree.isScanMarked_leaf input.language token version.stack.state false
  have skips := skips_skip input version token
  generalize Subtree.leaf input.language token version.stack.state false = leaf at marked skips
  generalize input.skip version token = next at skips ⊢
  cases skips with
  | opened =>
    refine h.push (Subtree.isScanMarked_node rfl rfl fun child member => ?_) _
    rwa [List.mem_singleton.1 member]
  | @extended extras below top parts interior =>
    rw [parts, ← List.singleton_append, Stack.isScanMarked_append, Stack.isScanMarked_append] at h
    obtain ⟨upper, top, lower⟩ := h
    refine lower.push (Subtree.isScanMarked_node rfl rfl fun child member => ?_) _
    rcases List.mem_append.1 member with member | last
    · rcases List.mem_append.1 member with inside | extra
      · exact (top _ (List.mem_singleton_self _)).child inside
      · exact upper child extra
    · rwa [List.mem_singleton.1 last]

end ParseInput

namespace Version

theorem threads_start (input : ParseInput) : start.Threads input :=
  ⟨fun _ absent => absurd absent List.not_mem_nil, .nil none, fun _ found => (by cases found)⟩

theorem Threads.shift (fits : version.Fits table input.source.text.toList)
    (h : version.Threads input)
    (found : input.FindsFrom (stateBehind version.stack.leaves) version.stack.position token)
    (state : StateId) (isExtra : Bool) (state' : StateId) :
    (version.shift (Subtree.leaf input.language token state isExtra) state').Threads input := by
  obtain ⟨pre, post, _, spells⟩ := fits
  have leaves : (version.shift (Subtree.leaf input.language token state isExtra) state').stack.leaves
      = version.stack.leaves
        ++ [(Subtree.leaf input.language token state isExtra, version.stack.position)] := by
    rw [Version.shift, Stack.leaves_push, spells.stack.concat_leaves]
    rfl
  refine ⟨h.marked.push (Subtree.isScanMarked_leaf ..) _, ?_, fun _ found => (by cases found)⟩
  have threads := h.leaves.append (.leaf_of_finds found state isExtra)
  rw [leaves, stateBehind_append, stateBehind_singleton]
  exact threads

theorem Threads.regroup (h : version.Threads input) (before : version.stack.Spells table pre post)
    (after : stack.Spells table pre post) (moved : Rearranges version.stack.leaves stack.leaves)
    (marked : stack.IsScanMarked) : ({ version with stack } : Version).Threads input := by
  refine ⟨marked, ?_, fun token found => ?_⟩
  · rw [moved.stateBehind_eq]
    exact h.leaves.rearranges moved
  · rw [moved.stateBehind_eq,
      show stack.position = version.stack.position from after.position.trans before.position.symm]
    exact h.lookahead token found

theorem Becomes.threads {count : Nat} (consistent : input.language.table.Consistent)
    (becomes : version.Becomes input none count next)
    (lexed : ∀ tree, version.lookahead ≠ some (.reused tree))
    (fits : version.Fits input.language.table input.source.text.toList)
    (h : version.Threads input) : next.Threads input := by
  cases becomes with
  | waits => exact h
  | lexed unread =>
    refine ⟨h.marked, h.leaves, ?_⟩
    rintro _ ⟨⟩
    exact ParseInput.findsFrom_lex h.marked h.leaves _
  | lexedAnew here =>
    refine ⟨h.marked, h.leaves, ?_⟩
    rintro _ ⟨⟩
    exact ParseInput.findsFrom_lex h.marked h.leaves _
  | offered mode here => contradiction
  | turnedDown => exact ⟨h.marked, h.leaves, fun _ found => (by cases found)⟩
  | reduced here chosen done =>
    obtain ⟨pre, post, _, spells⟩ := fits
    exact h.regroup spells.stack (ParseInput.spells_reduce consistent spells.stack done)
      (ParseInput.rearranges_reduce done) (ParseInput.isScanMarked_reduce h.marked done)
  | shifted here leaf chosen =>
    cases leaf with
    | token token => exact h.shift fits (h.lookahead token here) _ _ _
    | reused => exact absurd here (lexed _)
  | extra here leaf lacking isExtra =>
    cases leaf with
    | token token => exact h.shift fits (h.lookahead token here) _ _ _
    | reused => exact absurd here (lexed _)
  | takenOver here => exact absurd here (lexed _)

end Version

namespace ParseInput

def Mended.Threads (input : ParseInput) : Mended → Prop
  | .version version => version.Threads input
  | .root tree => ∃ last, input.Threads none (Subtree.placed Length.zero tree.leaves) last

theorem findsFrom_nextToken (h : version.Threads input) :
    input.FindsFrom (stateBehind version.stack.leaves) version.stack.position
      (input.nextToken version) := by
  unfold nextToken
  split
  · next token found => exact h.lookahead token found
  · exact findsFrom_lex h.marked h.leaves _

theorem threads_skip (fits : version.Fits table input.source.text.toList)
    (h : version.Threads input)
    (found : input.FindsFrom (stateBehind version.stack.leaves) version.stack.position token) :
    (input.skip version token).Threads input := by
  have shifted := h.shift fits found version.stack.state false version.stack.state
  have moved := @rearranges_skip input version token
  refine ⟨isScanMarked_skip h.marked token, ?_, fun other found => ?_⟩
  · rw [moved.stateBehind_eq]
    exact shifted.leaves.rearranges moved
  · rw [Engine.lookahead_skip] at found
    contradiction

theorem threads_recover (consistent : input.language.table.Consistent)
    (fits : version.Fits input.language.table input.source.text.toList)
    (h : version.Threads input) : Mended.Threads input (input.recover version) := by
  have found := findsFrom_nextToken h
  have mends := mends_recover input version
  generalize input.nextToken version = token at found mends
  generalize input.recover version = mended at mends ⊢
  have known : ({ version with lookahead := some (.token token) } : Version).Threads input := by
    refine ⟨h.marked, h.leaves, ?_⟩
    rintro _ ⟨⟩
    exact found
  cases mends with
  | passed isError => exact h.shift fits found _ _ _
  | @inserted terminals insertable =>
    obtain ⟨pre, post, whole, spells⟩ := fits
    exact known.regroup spells.stack (spells_insertAll consistent insertable spells.stack)
      (rearranges_insertAll terminals _ _) (isScanMarked_insertAll h.marked terminals _ _)
  | @folded upper lower parts =>
    obtain ⟨pre, post, whole, spells⟩ := fits
    have marked := h.marked
    rw [parts, Stack.isScanMarked_append] at marked
    refine known.regroup spells.stack (spells_fold parts spells.stack) ?_
      (marked.2.push (Subtree.isScanMarked_node rfl rfl marked.1) _)
    rw [parts]
    exact rearranges_fold upper lower _
  | skipped inside => exact threads_skip fits h found
  | ended isEnd => exact ⟨_, h.leaves.rearranges (rearranges_errorRoot input version.stack)⟩

end ParseInput

end Versions

structure Engine.Threads (engine : Engine) (input : ParseInput) : Prop where
  versions : ∀ version ∈ engine.versions, version.Threads input
  finished : ∀ root ∈ engine.finished,
    ∃ last, input.Threads none (Subtree.placed Length.zero root.leaves) last

namespace Engine

variable {engine : Engine} {input : ParseInput}

theorem threads_step (consistent : input.language.table.Consistent) (fresh : engine.IsFresh)
    (fits : engine.Fits input.language.table input.source.text.toList)
    (reads : engine.Reads input) (h : engine.Threads input) : (engine.step input).Threads input := by
  have steps := steps_step engine input
  refine ⟨fun version member => ?_, fun root found => ?_⟩
  · rcases steps.versions version member with old | ⟨before, there, becomes | recovered⟩
    · exact h.versions version old
    · rw [fresh.reuse] at becomes
      exact becomes.threads consistent (fresh.lexed before there) (fits.versions before there)
        (h.versions before there)
    · have mended := ParseInput.threads_recover consistent (fits.versions before there)
        (h.versions before there)
      rw [recovered] at mended
      exact mended
  · rcases steps.finished root found with old | ⟨version, there, ends | recovered⟩
    · exact h.finished root old
    · cases ends with
      | accepted here chosen =>
        obtain ⟨pre, post, _, spells⟩ := fits.versions version there
        exact ⟨_, (h.versions version there).leaves.rearranges
          (ParseInput.rearranges_root consistent spells.stack (reads.versions version there).leaves)⟩
    · have mended := ParseInput.threads_recover consistent (fits.versions version there)
        (h.versions version there)
      rw [recovered] at mended
      exact mended

theorem threads_begin (input : ParseInput) : (Engine.begin input none).Threads input := by
  refine ⟨fun version member => ?_, fun _ none => (by cases none)⟩
  rw [List.mem_singleton.1 member]
  exact Version.threads_start input

theorem threads_run (consistent : input.language.table.Consistent) {fuel : Nat} {last : Engine}
    (ran : run input fuel (Engine.begin input none) = some last) : last.Threads input := by
  refine (run_preserves (motive := fun engine => engine.IsFresh ∧
    engine.Fits input.language.table input.source.text.toList ∧ engine.Reads input ∧
      engine.Threads input) (fun _ kept _ => ?_)
    ⟨isFresh_begin input, fits_begin_none input, reads_begin input, threads_begin input⟩ ran).1.2.2.2
  obtain ⟨fresh, fits, reads, threads⟩ := kept
  exact ⟨fresh.step, fits_step consistent fits, reads_step consistent fresh fits reads,
    threads_step consistent fresh fits reads threads⟩

end Engine

/-- Restored to the state on the last leaf before it that has one, or fresh if there is none, the
scanner finds each leaf with a state again: at its start, among the external tokens that are valid
in its lex mode. -/
theorem scans_of_parse {language : Language} (built : language.IsBuilt) {fuel : Nat}
    {options : ParserOptions} {text : String} {parsed : Parsed}
    (returned : parseWithin fuel language options text none = some parsed)
    {before after : List (Subtree × Length)} {leaf : Subtree} {start : Length}
    (leaves : parsed.tree.leaves = before ++ (leaf, start) :: after) {state : ScannerState}
    (carries : leaf.info.scannerState = some state) :
    ((Lexer.ofSource language (Source.clipped text)).seek start).Scans
      (language.lexMode leaf.lexMode) (stateBehind before) leaf.symbol leaf.size state := by
  obtain ⟨engine, root, ran, found, same⟩ := exists_run_of_parse built returned
  obtain ⟨last, threads⟩ := (Engine.threads_run built.consistent ran).finished root found
  rw [← same, leaves] at threads
  exact threads.scans carries

def groupsTable : Table where
  name := "groups"
  symbols := #[⟨"end", false, true, false⟩, ⟨"group", true, true, false⟩, ⟨"s", true, true, false⟩]
  terminalCount := 2
  ruleCount := 1
  startSymbol := ⟨2⟩
  fieldNames := #[]
  productions := #[⟨⟨2⟩, 0, [⟨none, none⟩]⟩, ⟨⟨2⟩, 0, [⟨none, none⟩, ⟨none, none⟩]⟩]
  stateCount := 4
  actionIndex := #[0, 1, 3, 2, 4, 4, 5, 5]
  actionLists := #[[], [.shift ⟨2⟩], [.shift ⟨3⟩], [.accept], [.reduce ⟨2⟩ 1 0 ⟨0⟩],
    [.reduce ⟨2⟩ 2 0 ⟨1⟩]]
  gotos := #[⟨1⟩, StateId.none, StateId.none, StateId.none]
  allowsExtras := Array.replicate 4 true
  extras := []
  externalTokens := #[⟨1⟩]
  wordToken := none
  keywords := []
  lexStates := #[⟨#[], []⟩]
  lexStart := 0

def groupsLanguage : Option Language :=
  (Language.ofTable groupsTable (some (Scanner.ofRules [groupRule])) 1).toOption

/-- The scanner counts the groups. The second one is lexed in front of the reduction of the first,
and found from the state behind that. -/
theorem scans_of_parse_groups : ∃ language parsed first second,
    groupsLanguage = some language ∧
      parseWithin 100 language .standard "(a)(b)" none = some parsed ∧
      parsed.tree.leaves = [first, second] ∧ first.1.info.scannerState = some [1] ∧
      second.1.info.scannerState = some [2] ∧
      (Lexer.ofText language "(a)(b)" second.2).Scans (language.lexMode second.1.lexMode) (some [1])
        second.1.symbol second.1.size [2] := by
  have runs : (groupsLanguage.any fun language =>
      (parseWithin 100 language .standard "(a)(b)" none).any fun parsed =>
        parsed.tree.leaves.map (·.1.info.scannerState) == [some [1], some [2]]) = true := by
    decide +kernel
  obtain ⟨language, built, runs⟩ := (Option.any_eq_true _ _).1 runs
  obtain ⟨parsed, returned, states⟩ := (Option.any_eq_true _ _).1 runs
  obtain ⟨first, others, leaves, one, states⟩ := List.map_eq_cons_iff.1 (eq_of_beq states)
  obtain ⟨second, others, rfl, two, states⟩ := List.map_eq_cons_iff.1 states
  obtain rfl := List.map_eq_nil_iff.1 states
  refine ⟨language, parsed, first, second, built, returned, leaves, one, two, ?_⟩
  have behind : stateBehind [first] = some [1] := (stateBehind_singleton first.1 first.2).trans one
  rw [← behind]
  exact scans_of_parse (Language.isBuilt_of_ofTable built).1 returned
    (show _ = [first] ++ (second.1, second.2) :: [] from leaves) two

end IncrementalGlr
