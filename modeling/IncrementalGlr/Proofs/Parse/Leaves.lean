import IncrementalGlr.Proofs.Tree.Leaves
import IncrementalGlr.Proofs.Parse.History
import IncrementalGlr.Proofs.Parse.Machine
import IncrementalGlr.Proofs.Parse.Rounds

/-!
# Leaves are tokens

Every leaf of a parsed text is the token that the lexer finds at the leaf's place, in the lex mode
that the leaf records, whatever was forked, merged and mended on the way. Other leaves stand for no
token.
-/

namespace IncrementalGlr

def ParseInput.Finds (input : ParseInput) (position : Length) (token : Token) : Prop :=
  ∃ carried, ((Lexer.ofSource input.language input.source).seek position).next token.lexMode
    (input.language.lexMode token.lexMode) carried = token

def Subtree.IsLexed (input : ParseInput) (leaf : Subtree) (start : Length) : Prop :=
  leaf.IsVoid ∨ ∃ token, input.Finds start token ∧
    leaf = Subtree.leaf input.language token leaf.parseState leaf.isExtra

def AllLexed (input : ParseInput) (leaves : List (Subtree × Length)) : Prop :=
  ∀ entry ∈ leaves, entry.1.IsLexed input entry.2

section Leaves

variable {input : ParseInput} {stack : Stack} {pre post : List Char} {table : Table}
  {before after : List (Subtree × Length)} {token : Token} {version next : Version}

theorem AllLexed.keeps (h : AllLexed input before) (moved : Rearranges before after) :
    AllLexed input after :=
  fun entry member => (moved.keeps entry member).elim (h entry) .inl

theorem ParseInput.finds_lex (input : ParseInput) (stack : Stack) (mode : LexModeId) :
    input.Finds stack.position (input.lex stack mode) := by
  refine ⟨input.scannerState stack, ?_⟩
  rw [lex, Lexer.lexMode_next]

theorem AllLexed.push (h : AllLexed input stack.leaves) (spells : stack.Spells table pre post)
    (found : input.Finds stack.position token) (state next : StateId) (isExtra : Bool) :
    AllLexed input
      (stack.push (Subtree.leaf input.language token state isExtra) next).leaves := by
  intro entry member
  rw [Stack.leaves_push, spells.concat_leaves] at member
  rcases List.mem_append.1 member with old | new
  · exact h entry old
  · rw [show entry = (Subtree.leaf input.language token state isExtra, stack.position) from
      List.mem_singleton.1 new]
    exact .inr ⟨token, found, rfl⟩

theorem Subtree.IsLexed.noState_of_isRule (consistent : input.language.table.Consistent)
    {leaf : Subtree} {start : Length} (h : leaf.IsLexed input start)
    (rule : input.language.table.isRule leaf.symbol = true) : leaf.info.scannerState = none := by
  rcases h with void | ⟨token, ⟨carried, found⟩, same⟩
  · exact void.scannerState
  · rw [same] at rule ⊢
    cases scanned : token.scannerState with
    | none => exact scanned
    | some state =>
      rw [← found] at scanned
      have isToken := Lexer.isToken_of_scannerState consistent scanned
      rw [found] at isToken
      cases (Table.isRule_of_isToken isToken).symm.trans rule

namespace ParseInput

theorem rearranges_insertMissing (terminal : SymbolId) (reach budget : Nat) :
    Rearranges stack.leaves (input.insertMissing terminal reach budget stack).leaves := by
  refine insertMissing_preserves (motive := fun next => Rearranges stack.leaves next.leaves)
    (fun next state moved _ => moved.trans ?_)
    (fun _ _ _ _ _ _ moved _ done => moved.trans (rearranges_reduce done)) budget (.refl _)
  rw [Stack.leaves_push]
  exact .append_void ⟨rfl, rfl⟩ _

theorem rearranges_insertAll (terminals : List SymbolId) (reach budget : Nat) :
    Rearranges stack.leaves (Stack.leaves (terminals.foldl
      (fun stack terminal => input.insertMissing terminal reach budget stack) stack)) :=
  List.foldlRecOn (motive := fun next : Stack => Rearranges stack.leaves next.leaves) terminals _
    (.refl _) fun _ moved terminal _ => moved.trans (rearranges_insertMissing terminal reach budget)

theorem rearranges_fold (upper lower : Stack) (state : StateId) :
    Rearranges (Stack.leaves (upper ++ lower))
      (lower.push (Subtree.errorNode input.language upper.subtrees) state).leaves := by
  rw [Stack.leaves, Stack.leaves, Stack.subtrees_push, Stack.subtrees_append]
  have grouped := @Subtree.rearranges_enclose (Subtree.errorNode input.language upper.subtrees)
    upper.subtrees rfl (Subtree.size_errorNode_nil _) rfl Length.zero lower.subtrees []
  rwa [List.append_nil] at grouped

theorem rearranges_skip (version : Version) (token : Token) :
    Rearranges
      (version.stack.push (Subtree.leaf input.language token version.stack.state false)
        version.stack.state).leaves
      (input.skip version token).stack.leaves := by
  have skips := skips_skip input version token
  generalize Subtree.leaf input.language token version.stack.state false = leaf at skips ⊢
  generalize input.skip version token = next at skips ⊢
  cases skips with
  | opened =>
    exact rearranges_fold [⟨version.stack.state, leaf, Length.zero, 0, 0⟩] version.stack _
  | @extended extras below top parts interior =>
    -- The ERROR node on top is opened, and another closed around its children and the new leaf.
    have opened := Subtree.rearranges_disclose (fun leaf => absurd leaf interior)
      (fun leaf => absurd leaf interior) Length.zero
      (Stack.subtrees below) (Stack.subtrees extras ++ [leaf])
    have closed := @Subtree.rearranges_enclose (Subtree.errorNode input.language
      (top.subtree.children ++ Stack.subtrees extras ++ [leaf])) _ rfl
      (Subtree.size_errorNode_nil _) rfl Length.zero (Stack.subtrees below) []
    rw [Stack.leaves, Stack.leaves, Version.shift, Stack.subtrees_push, Stack.subtrees_push,
      parts, Stack.subtrees_append_cons]
    simp only [List.append_assoc, List.append_nil, List.cons_append] at opened closed ⊢
    exact opened.trans closed

theorem rearranges_errorRoot (input : ParseInput) (stack : Stack) :
    Rearranges stack.leaves (Subtree.placed Length.zero (input.errorRoot stack).leaves) := by
  have inner := @Subtree.rearranges_enclose (Subtree.errorNode input.language stack.subtrees)
    stack.subtrees rfl (Subtree.size_errorNode_nil _) rfl Length.zero [] []
  have outer := @Subtree.rearranges_enclose (input.errorRoot stack)
    [Subtree.errorNode input.language stack.subtrees] rfl (fun none => nomatch none) rfl Length.zero
    [] []
  simp only [List.nil_append, List.append_nil] at inner outer
  rw [← Subtree.leavesOf_singleton]
  exact inner.trans outer

theorem rearranges_root (consistent : input.language.table.Consistent)
    (spells : stack.Spells input.language.table pre post) (lexed : AllLexed input stack.leaves) :
    Rearranges stack.leaves (Subtree.placed Length.zero (input.root stack).leaves) := by
  have becomes := becomesRoot_root input stack
  generalize input.root stack = root at becomes ⊢
  cases becomes with
  | @opened extras below top parts start =>
    have rule : input.language.table.isRule top.subtree.symbol = true :=
      (show top.subtree.symbol = _ from start) ▸ consistent.start
    rw [parts] at spells
    obtain ⟨_, settled⟩ := spells.of_append_cons
    have empty (leaf : top.subtree.children = []) : top.subtree.size = Length.zero :=
      settled.hollow.here settled.unchanged leaf rule
    have noState (leaf : top.subtree.children = []) : top.subtree.info.scannerState = none := by
      refine (lexed (top.subtree, Length.zero ++ Length.concat
        ((Subtree.leavesOf below.subtrees).map (·.size))) ?_).noState_of_isRule consistent rule
      rw [Stack.leaves, parts, Stack.subtrees_append_cons, Subtree.leavesOf_append,
        Subtree.placed_append, Subtree.leavesOf, Subtree.leaves_childless leaf]
      exact List.mem_append_right _ (List.mem_cons_self ..)
    have opened := Subtree.rearranges_disclose empty noState Length.zero (Stack.subtrees below)
      (Stack.subtrees extras)
    rw [← Stack.subtrees_append_cons, ← parts, ← List.append_assoc] at opened
    have closed := @Subtree.rearranges_enclose (Subtree.ofProduction input.language
      top.subtree.symbol top.subtree.production
      (Stack.subtrees below ++ top.subtree.children ++ Stack.subtrees extras)) _ rfl
      (Subtree.size_ofProduction_nil _ _ _) rfl Length.zero [] []
    simp only [List.nil_append, List.append_nil] at closed
    rw [← Subtree.leavesOf_singleton]
    exact opened.trans closed
  | error => exact rearranges_errorRoot input stack

end ParseInput

end Leaves

structure Version.Reads (version : Version) (input : ParseInput) : Prop where
  leaves : AllLexed input version.stack.leaves
  lookahead : ∀ token, version.lookahead = some (.token token) →
    input.Finds version.stack.position token

section Versions

variable {input : ParseInput} {version next : Version} {token : Token}

theorem Version.reads_start (input : ParseInput) : start.Reads input :=
  ⟨fun _ absent => absurd absent List.not_mem_nil, fun _ found => (by cases found)⟩

theorem Version.Reads.shift {table : Table}
    (fits : version.Fits table input.source.text.toList) (h : version.Reads input)
    (found : input.Finds version.stack.position token) (state : StateId) (isExtra : Bool)
    (state' : StateId) :
    (version.shift (Subtree.leaf input.language token state isExtra) state').Reads input := by
  obtain ⟨pre, post, _, spells⟩ := fits
  exact ⟨h.leaves.push spells.stack found state state' isExtra, fun _ found => (by cases found)⟩

theorem Version.Reads.regroup {table : Table} {stack : Stack} {pre post : List Char}
    (h : version.Reads input) (before : version.stack.Spells table pre post)
    (after : stack.Spells table pre post) (moved : Rearranges version.stack.leaves stack.leaves) :
    ({ version with stack } : Version).Reads input := by
  refine ⟨h.leaves.keeps moved, fun token found => ?_⟩
  rw [show stack.position = version.stack.position from after.position.trans before.position.symm]
  exact h.lookahead token found

theorem Version.Becomes.reads {count : Nat} (consistent : input.language.table.Consistent)
    (becomes : version.Becomes input none count next)
    (lexed : ∀ tree, version.lookahead ≠ some (.reused tree))
    (fits : version.Fits input.language.table input.source.text.toList)
    (h : version.Reads input) : next.Reads input := by
  cases becomes with
  | waits => exact h
  | lexed unread =>
    refine ⟨h.leaves, ?_⟩
    rintro _ ⟨⟩
    exact input.finds_lex version.stack _
  | lexedAnew here =>
    refine ⟨h.leaves, ?_⟩
    rintro _ ⟨⟩
    exact input.finds_lex version.stack _
  | offered mode here => contradiction
  | turnedDown => exact ⟨h.leaves, fun _ found => (by cases found)⟩
  | reduced here chosen done =>
    obtain ⟨pre, post, _, spells⟩ := fits
    exact h.regroup spells.stack (ParseInput.spells_reduce consistent spells.stack done)
      (ParseInput.rearranges_reduce done)
  | shifted here leaf chosen =>
    cases leaf with
    | token token => exact h.shift fits (h.lookahead token here) _ _ _
    | reused => exact absurd here (lexed _)
  | extra here leaf lacking isExtra =>
    cases leaf with
    | token token => exact h.shift fits (h.lookahead token here) _ _ _
    | reused => exact absurd here (lexed _)
  | takenOver here => exact absurd here (lexed _)

theorem Version.EndsIn.allLexed (consistent : input.language.table.Consistent) {root : Subtree}
    (ends : version.EndsIn input root)
    (fits : version.Fits input.language.table input.source.text.toList)
    (h : version.Reads input) : AllLexed input (Subtree.placed Length.zero root.leaves) := by
  cases ends with
  | accepted here chosen =>
    obtain ⟨pre, post, _, spells⟩ := fits
    exact h.leaves.keeps (ParseInput.rearranges_root consistent spells.stack h.leaves)

namespace ParseInput

def Mended.Reads (input : ParseInput) : Mended → Prop
  | .version version => version.Reads input
  | .root tree => AllLexed input (Subtree.placed Length.zero tree.leaves)

theorem finds_nextToken (h : version.Reads input) :
    input.Finds version.stack.position (input.nextToken version) := by
  unfold nextToken
  split
  · next token found => exact h.lookahead token found
  · exact input.finds_lex version.stack _

theorem reads_skip {table : Table}
    (fits : version.Fits table input.source.text.toList) (h : version.Reads input)
    (found : input.Finds version.stack.position token) :
    (input.skip version token).Reads input := by
  obtain ⟨pre, post, _, spells⟩ := fits
  refine ⟨(h.leaves.push spells.stack found _ version.stack.state _).keeps
    (rearranges_skip version token), fun other found => ?_⟩
  rw [Engine.lookahead_skip] at found
  contradiction

theorem reads_recover (consistent : input.language.table.Consistent)
    (fits : version.Fits input.language.table input.source.text.toList)
    (h : version.Reads input) : Mended.Reads input (input.recover version) := by
  have found := finds_nextToken h
  have mends := mends_recover input version
  generalize input.nextToken version = token at found mends
  generalize input.recover version = mended at mends ⊢
  have known : ({ version with lookahead := some (.token token) } : Version).Reads input := by
    refine ⟨h.leaves, ?_⟩
    rintro _ ⟨⟩
    exact found
  obtain ⟨pre, post, whole, spells⟩ := fits
  cases mends with
  | passed isError => exact h.shift ⟨pre, post, whole, spells⟩ found _ _ _
  | @inserted terminals insertable =>
    exact known.regroup spells.stack (spells_insertAll consistent insertable spells.stack)
      (rearranges_insertAll terminals _ _)
  | @folded upper lower parts =>
    refine known.regroup spells.stack (spells_fold parts spells.stack) ?_
    rw [parts]
    exact rearranges_fold upper lower _
  | skipped inside => exact reads_skip ⟨pre, post, whole, spells⟩ h found
  | ended isEnd => exact h.leaves.keeps (rearranges_errorRoot input version.stack)

end ParseInput

end Versions

structure Engine.Reads (engine : Engine) (input : ParseInput) : Prop where
  versions : ∀ version ∈ engine.versions, version.Reads input
  finished : ∀ root ∈ engine.finished, AllLexed input (Subtree.placed Length.zero root.leaves)

namespace Engine

variable {engine : Engine} {input : ParseInput}

theorem reads_step (consistent : input.language.table.Consistent) (fresh : engine.IsFresh)
    (fits : engine.Fits input.language.table input.source.text.toList)
    (h : engine.Reads input) : (engine.step input).Reads input := by
  have steps := steps_step engine input
  refine ⟨fun version member => ?_, fun root found => ?_⟩
  · rcases steps.versions version member with old | ⟨before, there, becomes | recovered⟩
    · exact h.versions version old
    -- Without an old tree no version takes a subtree over, and every new leaf is shifted.
    · rw [fresh.reuse] at becomes
      exact becomes.reads consistent (fresh.lexed before there) (fits.versions before there)
        (h.versions before there)
    · have mended := ParseInput.reads_recover consistent (fits.versions before there)
        (h.versions before there)
      rw [recovered] at mended
      exact mended
  · rcases steps.finished root found with old | ⟨version, there, ends | recovered⟩
    · exact h.finished root old
    · exact ends.allLexed consistent (fits.versions version there) (h.versions version there)
    · have mended := ParseInput.reads_recover consistent (fits.versions version there)
        (h.versions version there)
      rw [recovered] at mended
      exact mended

theorem reads_run (consistent : input.language.table.Consistent) {fuel : Nat} {last : Engine}
    (fresh : engine.IsFresh) (fits : engine.Fits input.language.table input.source.text.toList)
    (h : engine.Reads input) (ran : run input fuel engine = some last) : last.Reads input := by
  refine (run_preserves (motive := fun engine => engine.IsFresh ∧
    engine.Fits input.language.table input.source.text.toList ∧ engine.Reads input)
    (fun _ kept _ => ?_) ⟨fresh, fits, h⟩ ran).1.2.2
  obtain ⟨fresh, fits, reads⟩ := kept
  exact ⟨fresh.step, fits_step consistent fits, reads_step consistent fresh fits reads⟩

theorem reads_begin (input : ParseInput) : (Engine.begin input none).Reads input := by
  refine ⟨fun version member => ?_, fun _ none => (by cases none)⟩
  rw [List.mem_singleton.1 member]
  exact Version.reads_start input

end Engine

theorem Engine.fits_begin_none (input : ParseInput) :
    (Engine.begin input none).Fits input.language.table input.source.text.toList :=
  Engine.fits_begin input fun _ absent => by cases absent

theorem exists_run_of_parse {language : Language} (built : language.IsBuilt) {fuel : Nat}
    {options : ParserOptions} {text : String} {parsed : Parsed}
    (returned : parseWithin fuel language options text none = some parsed) :
    ∃ engine root, Engine.run (ParseInput.ofText language options text) fuel
        (Engine.begin (ParseInput.ofText language options text) none) = some engine ∧
      engine.finished = some root ∧
      parsed.tree.leaves = Subtree.placed Length.zero root.leaves := by
  obtain ⟨engine, ran, rfl⟩ := Option.map_eq_some_iff.1 returned
  obtain ⟨fits, _⟩ := Engine.fits_run built.consistent (Engine.fits_begin_none _) ran
  obtain ⟨root, found, same⟩ := Engine.exists_result_of_run ran
  refine ⟨engine, root, ran, found, ?_⟩
  have short := Source.isShort_iff.2 (ParseInput.ofText language options text).fits
  have spells := (fits.finished root found).spells
  rw [Tree.leaves, Tree.ofRoot, same]
  exact @Subtree.leavesAt_eq_placed _ [] _ _ short spells

theorem allLexed_of_parse {language : Language} (built : language.IsBuilt) {fuel : Nat}
    {options : ParserOptions} {text : String} {parsed : Parsed}
    (returned : parseWithin fuel language options text none = some parsed) :
    AllLexed (ParseInput.ofText language options text) parsed.tree.leaves := by
  obtain ⟨engine, root, ran, found, leaves⟩ := exists_run_of_parse built returned
  have reads := Engine.reads_run built.consistent (Engine.isFresh_begin _)
    (Engine.fits_begin_none _) (Engine.reads_begin _) ran
  rw [leaves]
  exact reads.finished root found

end IncrementalGlr
