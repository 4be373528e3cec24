import IncrementalGlr.Proofs.Parse.Condensing
import IncrementalGlr.Proofs.Parse.Pristine
import IncrementalGlr.Proofs.Parse.Rounds

/-!
# No parse is lost

The engine goes on with all choices at once, drops what cannot shift while something else can, and
merges what it takes for equal. Unless a limit takes a version away, one of its versions keeps up
with any accepted run of the machine, round by round, and so the tree has no errors.
-/

namespace IncrementalGlr

open Generated Machine

namespace Engine

/-! ## Limits -/

/-- The stacks that a fork of the current version is made for. The first reduction of a cell without
a shift is the current version's own. -/
def forks (engine : Engine) (input : ParseInput) (version : Version) (token : Token) :
    List Stack :=
  let actions := input.language.actions version.state token.symbol
  let reducts := engine.reducts input version (.token token) actions
  if actions.any (·.shiftTarget?.isSome) then reducts else reducts.tail

def merged (engine : Engine) (input : ParseInput) : List Version :=
  let (engine, versions) := engine.survivors input
  (versions.filter fun version =>
    engine.finished.all fun root => version.stack.errorCost < root.errorCost).foldl mergeInto []

/-- No limit takes a version away in the next step: the current version does not exceed the number
of reductions, there is room for its forks, and at the end of a round there are not too many
versions. -/
def isWithinLimits (engine : Engine) (input : ParseInput) : Bool :=
  match engine.waiting with
  | version :: _ =>
    match version.lookahead with
    | some (.token token) =>
      let actions := input.language.actions version.state token.symbol
      actions.any (·.isAccept) ||
        (engine.reductions + (actions.filterMap Action.reduction?).length
            ≤ input.options.maxReduceSteps
          && (engine.forks input version token).length
            ≤ 4 * input.options.maxVersions - engine.versionCount)
    | _ => true
  | [] => (engine.merged input).length ≤ max input.options.maxVersions 1

def staysWithinLimits (input : ParseInput) : Nat → Engine → Bool
  | 0, _ => false
  | fuel + 1, engine =>
    engine.isWithinLimits input && (engine.isDone || staysWithinLimits input fuel (engine.step input))

variable {engine next : Engine} {input : ParseInput} {version v w : Version}
  {rest : List Version} {grammar : PreparedGrammar} {n : Nat}

theorem isWithinLimits_of_reaches {fuel : Nat} (h : staysWithinLimits input fuel engine = true)
    (reached : Reaches input engine next) : next.isWithinLimits input = true := by
  induction reached generalizing fuel with
  | refl engine =>
    cases fuel with
    | zero => contradiction
    | succ fuel => exact (Bool.and_eq_true_iff.1 h).1
  | step goesOn _ ih =>
    cases fuel with
    | zero => contradiction
    | succ fuel =>
      have later := (Bool.and_eq_true_iff.1 h).2
      rw [goesOn, Bool.false_or] at later
      exact ih later

theorem mem_fork_of_room {pushed : List Stack} {stack : Stack} (member : stack ∈ pushed)
    (room : pushed.length ≤ 4 * input.options.maxVersions - engine.versionCount) :
    { version with stack } ∈ engine.fork input version pushed rest := by
  rw [fork, List.take_of_length_le room]
  exact List.mem_append_right _ (List.mem_map_of_mem member)

/-! ## Keeping up with a run -/

inductive KeepsUp (engine : Engine) (input : ParseInput) (n : Nat) : Prop
  | rooted (rooted : engine.finished.isSome = true)
  | waiting {v : Version} (member : v ∈ engine.waiting)
      (accepts : AcceptsWithin input n (v.config input.language))
  | shifted {v : Version} {m : Nat} (member : (.shifted, v) ∈ engine.passed) (fewer : m < n)
      (accepts : AcceptsWithin input m (v.config input.language))

theorem shift_unique {table : Table} (generated : Generated grammar table) {s a b : StateId}
    {x : SymbolId} (first : .shift a ∈ table.actions s x) (second : .shift b ∈ table.actions s x) :
    a = b := by
  obtain ⟨state, t, found, inside, rfl, toA⟩ := generated.of_shift_mem first
  obtain ⟨state', t', found', inside', same, toB⟩ := generated.of_shift_mem second
  cases found.symm.trans found'
  cases generated.symbolId_injective (.terminal t) (.terminal t') inside inside'
    same
  have nodup := generated.nodup_transitions found
  have a' := (LrGrammar.lookup_eq_some_iff_mem nodup).2 toA
  have b' := (LrGrammar.lookup_eq_some_iff_mem nodup).2 toB
  exact StateId.ext_index (Option.some.inj (a'.symm.trans b'))

theorem config_shift (version : Version) (language : Language) (token : Token)
    (state next : StateId) :
    (version.shift (Subtree.leaf language token state false) next).config language =
      ⟨next :: version.stack.states, version.stack.position + token.size,
        language.lexModeOfState next, none⟩ := by
  rw [Version.config, Version.shift, Stack.states_push rfl]
  rfl

theorem config_extra (version : Version) (language : Language) (token : Token) (state : StateId) :
    (version.shift (Subtree.leaf language token state true) version.state).config language =
      { version.config language with
        position := version.stack.position + token.size
        token := none } := by
  rw [Version.config, Version.shift, Stack.states_push_extra rfl]
  rfl

theorem config_reduce (consistent : input.language.table.Consistent)
    (fits : version.Fits input.language.table input.source.text.toList)
    {mode : LexModeId} (lexMode : version.lexMode = some mode) {reduced : Stack} {reach : Nat}
    {isFragile : Bool} {symbol : SymbolId} {childCount : UInt16} {production : ProductionId}
    (done : input.reduce version.stack reach isFragile symbol childCount production =
      some reduced) :
    ({ version with stack := reduced } : Version).config input.language =
      { version.config input.language with states := reduced.states } := by
  obtain ⟨pre, post, _, spells⟩ := fits
  have after := ParseInput.spells_reduce consistent spells.stack done
  rw [Version.config, Version.config, after.position, spells.stack.position, Version.nextLexMode,
    Version.nextLexMode, lexMode]
  rfl

theorem isSome_getLast?_shiftTargets (actions : List Action) :
    (actions.filterMap Action.shiftTarget?).getLast?.isSome
      = actions.any (·.shiftTarget?.isSome) := by
  rw [Bool.eq_iff_iff, List.getLast?_isSome, List.any_eq_true, ne_eq, List.filterMap_eq_nil_iff]
  simp [Option.isSome_iff_ne_none]

section Act

variable {token : Token}
  (noAccept : ¬ (input.language.actions version.state token.symbol).any (·.isAccept) = true)
  (few : engine.reductions + ((input.language.actions version.state token.symbol).filterMap
    Action.reduction?).length ≤ input.options.maxReduceSteps)

include noAccept few

theorem mem_passed_act {target : StateId}
    (chosen : .shift target ∈ input.language.actions version.state token.symbol)
    (only : ∀ other, .shift other ∈ input.language.actions version.state token.symbol →
      target = other) :
    (.shifted, version.shift (Subtree.leaf input.language token version.stack.state false) target)
      ∈ (engine.act input version rest (.token token)
        (input.language.actions version.state token.symbol)).passed := by
  unfold act
  dsimp only
  rw [if_neg noAccept, if_neg (Nat.not_lt.2 few)]
  split
  · next last found =>
    obtain ⟨other, listed, isShift⟩ := List.mem_filterMap.1 (List.mem_of_getLast? found)
    cases Action.eq_shift_of_shiftTarget? isShift
    cases only last listed
    exact List.mem_append_right _ (List.mem_singleton_self _)
  · next none =>
    have some := isSome_getLast?_shiftTargets (input.language.actions version.state token.symbol)
    rw [none, Option.isSome_none, eq_comm, List.any_eq_false] at some
    exact absurd rfl (some _ chosen)

theorem mem_waiting_act
    (room : (engine.forks input version token).length
      ≤ 4 * input.options.maxVersions - engine.versionCount) {stack : Stack}
    (member : stack ∈ engine.reducts input version (.token token)
      (input.language.actions version.state token.symbol)) :
    { version with stack } ∈ (engine.act input version rest (.token token)
      (input.language.actions version.state token.symbol)).waiting := by
  have shifts := isSome_getLast?_shiftTargets (input.language.actions version.state token.symbol)
  unfold act
  dsimp only
  rw [if_neg noAccept, if_neg (Nat.not_lt.2 few)]
  generalize all : List.filterMap _ (List.filterMap Action.reduction? _) = pushed
  replace all : engine.reducts input version (.token token)
    (input.language.actions version.state token.symbol) = pushed := all
  rw [all] at member
  simp only [forks, all] at room
  split
  · next last found =>
    rw [found, Option.isSome_some] at shifts
    rw [if_pos shifts.symm] at room
    exact mem_fork_of_room member room
  · next none =>
    rw [none, Option.isSome_none] at shifts
    rw [if_neg (by rw [← shifts]; decide)] at room
    cases pushed with
    | nil => contradiction
    | cons first others =>
      rcases List.mem_cons.1 member with rfl | member
      · exact List.mem_cons_self ..
      · exact List.mem_cons_of_mem _ (mem_fork_of_room member room)

end Act

section Current

variable (plain : input.language.IsPlain grammar) (current : engine.waiting = version :: rest)
  (within : engine.isWithinLimits input = true)
  (fits : version.Fits input.language.table input.source.text.toList)
  (derives : version.Derives grammar input.language)
  (pristine : version.Pristine input.language)

include plain current within fits derives pristine

theorem keepsUp_act {token : Token} (here : version.lookahead = some (.token token))
    (filled : input.language.actions version.state token.symbol ≠ [])
    (accepts : AcceptsWithin input n (version.config input.language)) :
    (engine.act input version rest (.token token)
      (input.language.actions version.state token.symbol)).KeepsUp input n := by
  obtain ⟨symbols, runs⟩ := derives.runs
  have top : StateTrace.state (version.config input.language).states = version.state := runs.state
  have read : (version.config input.language).token = some token := by
    rw [Version.config, here]
    rfl
  have chosen := accepts.of_actions read (by rwa [top])
  rw [isAccepting, read, Option.any_some, top] at chosen
  by_cases accept : (input.language.actions version.state token.symbol).any (·.isAccept) = true
  · obtain ⟨finished, same, _⟩ := finish_eq engine (input.root version.stack)
    unfold act
    dsimp only
    rw [if_pos accept, same]
    exact .rooted rfl
  obtain ⟨action, chosen, config, performed, later⟩ := chosen.resolve_left accept
  rw [isWithinLimits, current] at within
  simp only [here, accept, Bool.false_or, Bool.and_eq_true, decide_eq_true_iff] at within
  obtain ⟨few, room⟩ := within
  cases action with
  | accept => contradiction
  | shift next =>
    cases performed
    obtain ⟨m, fewer, rest⟩ := (later.resolve_left (by simp)).2
    refine .shifted (mem_passed_act accept few chosen fun other listed =>
      shift_unique plain.generated chosen listed) fewer ?_
    rw [config_shift]
    exact rest
  | reduce symbol childCount dynamicPrecedence production =>
    simp only [perform] at performed
    split at performed
    · next enough =>
      obtain ⟨next, goes, rfl⟩ := Option.map_eq_some_iff.1 performed
      obtain ⟨reduced, done, states⟩ := ParseInput.exists_reduce runs.steady enough goes
        ((Lookahead.token token).reach version.stack.position)
        ((input.language.actions version.state token.symbol).length > 1 ||
          engine.versionCount > 1) production
      have member := (mem_reducts engine).2 ⟨_, _, _, _, chosen, done⟩
      refine .waiting (mem_waiting_act accept few room member) ?_
      rw [config_reduce plain.built.consistent fits (pristine.read token here).1 done, states]
      exact (later.resolve_right (by simp [read])).2
    · contradiction

theorem keepsUp_advance (fresh : engine.reuse = none)
    (accepts : AcceptsWithin input n (version.config input.language)) :
    (engine.advance input version rest).KeepsUp input n := by
  obtain ⟨symbols, runs⟩ := derives.runs
  have top : StateTrace.state (version.config input.language).states = version.state := runs.state
  unfold advance
  split
  · next unread =>
    have read : (version.config input.language).token = none := by
      rw [Version.config, unread]
      rfl
    have next := accepts.of_unread read
    rw [look_eq fresh, ParseInput.lex_eq_lexAt plain.noExternals]
    exact .waiting (List.mem_cons_self ..) next
  · next token here =>
    have read : (version.config input.language).token = some token := by
      rw [Version.config, here]
      rfl
    unfold advanceToken
    dsimp only
    split
    · next lacking =>
      have next := accepts.of_lacking read (by rwa [top])
      rw [top] at next
      split
      · next isExtra =>
        obtain ⟨_, m, fewer, rest⟩ := next.resolve_right (by simp [isExtra])
        refine .shifted (List.mem_append_right _ (List.mem_singleton_self _)) fewer ?_
        rw [config_extra]
        exact rest
      · next noExtra =>
        obtain ⟨_, other, rest⟩ := next.resolve_left (by simp [noExtra])
        rw [if_pos other, ParseInput.lex_eq_lexAt plain.noExternals]
        exact .waiting (List.mem_cons_self ..) rest
    · next filled =>
      exact keepsUp_act plain current within fits derives pristine here filled accepts
  · next tree here => exact absurd here (pristine.lexed tree)

end Current

/-! ## Rounds -/

theorem config_of_matches {language : Language} (same : v.Matches w)
    (derives : v.Derives grammar language) (derives' : w.Derives grammar language)
    (pristine : v.Pristine language) (pristine' : w.Pristine language)
    (unread : v.lookahead = none) (unread' : w.lookahead = none) :
    v.config language = w.config language := by
  have state : v.state = w.state := by
    obtain ⟨_, runs⟩ := derives.runs
    obtain ⟨_, runs'⟩ := derives'.runs
    exact runs.state.symm.trans (same.states ▸ runs'.state)
  rw [Version.config, Version.config, same.states, same.position, unread, unread',
    pristine.unread unread, pristine'.unread unread', state]

structure Live (engine : Engine) (input : ParseInput) (grammar : PreparedGrammar) (n : Nat) :
    Prop where
  fits : engine.Fits input.language.table input.source.text.toList
  derives : engine.Derives grammar input.language
  fresh : engine.reuse = none
  pristine : ∀ version ∈ engine.versions, version.Pristine input.language
  spent : ∀ entry ∈ engine.passed, entry.1 = .shifted → entry.2.lookahead = none
  clean : ∀ root ∈ engine.finished, root.IsFaultless
  keepsUp : engine.KeepsUp input n

theorem live_advance (plain : input.language.IsPlain grammar) (h : engine.Live input grammar n)
    (current : engine.waiting = version :: rest) (within : engine.isWithinLimits input = true) :
    (engine.step input).Live input grammar n := by
  have known : version ∈ engine.versions := by
    rw [versions, current]
    simp
  have step : engine.step input = engine.advance input version rest := by
    rw [Engine.step, current]
  have goesOn : engine.isDone = false := by simp [isDone, current]
  have moved := advances_advance engine input version rest
  have old : ∀ v ∈ engine.passed.map (·.2) ++ rest, v ∈ engine.versions := by
    intro v member
    rw [versions, current]
    exact (List.mem_append.1 member).elim (List.mem_append_left _) fun waits =>
      List.mem_append_right _ (List.mem_cons_of_mem _ waits)
  refine ⟨fits_step plain.built.consistent h.fits,
    derives_step plain.generated plain.built.consistent h.derives, ?_, ?_, ?_, ?_, ?_⟩
  all_goals rw [step]
  · rw [Option.eq_none_iff_forall_ne_some]
    intro cursor found
    obtain ⟨before, there, _⟩ := moved.reuse cursor found
    rw [h.fresh] at there
    contradiction
  · intro v member
    rcases moved.versions v member with there | becomes
    · exact h.pristine v (old v there)
    · rw [h.fresh] at becomes
      exact becomes.pristine plain (h.pristine version known)
  · exact fun entry member => (moved.shifted entry member).elim (h.spent entry) id
  · intro root found
    rcases moved.finished root found with there | ends
    · exact h.clean root there
    · exact ends.isFaultless plain (h.pristine version known).clean (h.derives.versions version known)
  · have keeps := h.keepsUp
    cases keeps with
    | rooted rooted => exact .rooted (moved.rooted rooted)
    | shifted member fewer accepts => exact .shifted (moved.passed _ member) fewer accepts
    | @waiting v member accepts =>
      rw [current] at member
      rcases List.mem_cons.1 member with rfl | waits
      · exact keepsUp_advance plain current within (h.fits.versions _ known)
          (h.derives.versions _ known) (h.pristine _ known) h.fresh accepts
      · exact .waiting (moved.waiting v waits) accepts

theorem endRound_of_rooted (input : ParseInput)
    (clean : ∀ root ∈ engine.finished, root.IsFaultless)
    (rooted : engine.finished.isSome = true) :
    (engine.endRound input).isDone = true ∧ (engine.endRound input).finished = engine.finished := by
  obtain ⟨root, found⟩ := Option.isSome_iff_exists.1 rooted
  have same : (engine.survivors input).1 = engine := by
    unfold survivors
    dsimp only
    split
    · rfl
    · rw [if_pos rooted]
  have none : ((engine.survivors input).2.filter fun version =>
      (engine.survivors input).1.finished.all fun root =>
        version.stack.errorCost < root.errorCost) = [] := by
    rw [List.filter_eq_nil_iff, same, found]
    intro version _
    simp [(clean root found).errorCost]
  unfold endRound
  dsimp only
  rw [none, same]
  exact ⟨rfl, rfl⟩

def shifted (engine : Engine) : List Version :=
  ((engine.passed.filter fun entry => entry.1 != .accepted).filter
    fun entry => entry.1 == .shifted).map (·.2)

theorem mem_shifted : v ∈ engine.shifted ↔ (.shifted, v) ∈ engine.passed := by
  simp [shifted]

theorem survivors_of_shifted (input : ParseInput) (some : v ∈ engine.shifted) :
    engine.survivors input = (engine, engine.shifted) := by
  unfold Engine.survivors
  dsimp only
  split
  · next first others same =>
    rw [← same]
    rfl
  · next none =>
    rw [show engine.shifted = [] from none] at some
    contradiction

theorem merged_of_shifted (input : ParseInput) (unfinished : engine.finished = none)
    (some : v ∈ engine.shifted) :
    engine.merged input = engine.shifted.foldl mergeInto [] ∧ engine.endRound input =
      { engine with passed := [], waiting := condense input engine.shifted, reductions := 0 } := by
  have kept : (engine.shifted.filter fun version =>
      engine.finished.all fun root => version.stack.errorCost < root.errorCost) = engine.shifted := by
    rw [List.filter_eq_self, unfinished]
    exact fun _ _ => rfl
  rw [Engine.merged, endRound, survivors_of_shifted input some]
  dsimp only
  rw [kept]
  exact ⟨rfl, rfl⟩

theorem live_endRound (plain : input.language.IsPlain grammar) (h : engine.Live input grammar n)
    (ended : engine.waiting = [])
    (within : engine.isWithinLimits input = true) (unrooted : engine.finished.isSome = false) :
    ∃ m < n, (engine.step input).Live input grammar m := by
  obtain ⟨v, m, member, fewer, accepts⟩ : ∃ v m, v ∈ engine.shifted ∧ m < n ∧
      AcceptsWithin input m (v.config input.language) := by
    cases h.keepsUp with
    | rooted rooted => simp [rooted] at unrooted
    | waiting member => simp [ended] at member
    | shifted member fewer accepts => exact ⟨_, _, mem_shifted.2 member, fewer, accepts⟩
  obtain ⟨merged, next⟩ := merged_of_shifted input (by simpa using unrooted) member
  have step : engine.step input = engine.endRound input := by
    rw [Engine.step, ended]
  rw [isWithinLimits, ended] at within
  have room := of_decide_eq_true within
  rw [merged] at room
  have known {w : Version} (there : w ∈ engine.shifted) :
      w ∈ engine.versions ∧ w.lookahead = none :=
    ⟨List.mem_append_left _ (List.mem_map.2 ⟨_, mem_shifted.1 there, rfl⟩),
      h.spent _ (mem_shifted.1 there) rfl⟩
  -- The version may have been merged into another one, which then has the same configuration.
  obtain ⟨w, found, duplicate, _⟩ := (represents_merged engine.shifted).each v member
  have waits := mem_condense_of_room room found
  obtain ⟨there, unread⟩ := known (mem_of_mem_condense waits)
  obtain ⟨there', unread'⟩ := known member
  obtain ⟨_, bytes, states⟩ := isDuplicate_iff.1 duplicate
  have position := (h.fits.versions _ there).position_eq (h.fits.versions _ there') bytes
  have same := config_of_matches ⟨position, states⟩ (h.derives.versions _ there)
    (h.derives.versions _ there') (h.pristine _ there) (h.pristine _ there') unread unread'
  refine ⟨m, fewer, fits_step plain.built.consistent h.fits,
    derives_step plain.generated plain.built.consistent h.derives, ?_, ?_, ?_, ?_, ?_⟩
  all_goals rw [step, next]
  · exact h.fresh
  · intro version member
    have waits : version ∈ condense input engine.shifted := member
    exact h.pristine version (known (mem_of_mem_condense waits)).1
  · exact fun entry absent => absurd absent List.not_mem_nil
  · exact h.clean
  · exact .waiting waits (same ▸ accepts)

/-! ## Runs -/

theorem run_step {fuel : Nat} {last : Engine} (goesOn : engine.isDone = false)
    (ran : run input fuel (engine.step input) = some last) :
    run input (fuel + 1) engine = some last := by
  rw [run, if_neg (by simp [goesOn])]
  exact ran

theorem run_mono {fuel : Nat} {last : Engine} (ran : run input fuel engine = some last)
    (more : Nat) : run input (fuel + more) engine = some last := by
  induction fuel generalizing engine with
  | zero => contradiction
  | succ fuel ih =>
    rw [Nat.add_right_comm]
    unfold run at ran ⊢
    split at ran
    · next done =>
      rw [if_pos done]
      exact ran
    · next goesOn =>
      rw [if_neg goesOn]
      exact ih ran

theorem Live.rooted_of_isDone (h : engine.Live input grammar n) (done : engine.isDone = true) :
    ∃ root ∈ engine.finished, root.IsFaultless := by
  have rooted : engine.finished.isSome = true := by
    simp only [isDone, Bool.and_eq_true, List.isEmpty_iff] at done
    cases h.keepsUp with
    | rooted rooted => exact rooted
    | waiting member => simp [done.2] at member
    | shifted member => simp [done.1] at member
  obtain ⟨root, found⟩ := Option.isSome_iff_exists.1 rooted
  exact ⟨root, found, h.clean root found⟩

theorem Live.isFresh (h : engine.Live input grammar n) : engine.IsFresh :=
  ⟨h.fresh, fun v member => (h.pristine v member).lexed⟩

/-- An engine that keeps up with a run comes to an end with a root that has no errors. Every step
brings the end of the round closer, and every round uses up a shift of the run. -/
theorem exists_run (plain : input.language.IsPlain grammar) {engine : Engine} {n : Nat}
    (h : engine.Live input grammar n)
    (within : ∀ other, Reaches input engine other → other.isWithinLimits input = true) :
    ∃ fuel last, run input fuel engine = some last ∧
      ∃ root ∈ last.finished, root.IsFaultless := by
  have here := within engine (.refl engine)
  cases done : engine.isDone with
  | true => exact ⟨1, engine, by rw [run, if_pos done], h.rooted_of_isDone done⟩
  | false =>
    have later : ∀ other, Reaches input (engine.step input) other →
        other.isWithinLimits input = true := fun other reached => within other (.step done reached)
    cases waiting : engine.waiting with
    | cons version rest =>
      have live := live_advance plain h waiting here
      obtain ⟨fuel, last, ran, clean⟩ := exists_run plain live later
      exact ⟨fuel + 1, last, run_step done ran, clean⟩
    | nil =>
      cases rooted : engine.finished.isSome with
      | true =>
        obtain ⟨ended, same⟩ := endRound_of_rooted input h.clean rooted
        obtain ⟨root, found⟩ := Option.isSome_iff_exists.1 rooted
        refine ⟨2, engine.endRound input, run_step done ?_, root, same ▸ found, h.clean root found⟩
        rw [step, waiting]
        exact if_pos ended
      | false =>
        obtain ⟨m, fewer, live⟩ := live_endRound plain h waiting here rooted
        obtain ⟨fuel, last, ran, clean⟩ := exists_run plain live later
        exact ⟨fuel + 1, last, run_step done ran, clean⟩
termination_by (n, engine.remaining input)
decreasing_by
  · exact Prod.Lex.left _ _ fewer
  · exact Prod.Lex.right _ (h.isFresh.remaining_lt waiting)

theorem live_begin {language : Language} (options : ParserOptions) (text : String)
    (accepts : AcceptsWithin (ParseInput.ofText language options text) n (Machine.start language)) :
    (Engine.begin (ParseInput.ofText language options text) none).Live
      (ParseInput.ofText language options text) grammar n := by
  refine ⟨fits_begin _ fun _ found => (by cases found),
    derives_begin options fun _ found => (by cases found), rfl, fun version member => ?_,
    fun _ absent => absurd absent List.not_mem_nil, fun _ found => (by cases found),
    .waiting (List.mem_singleton_self _) accepts⟩
  rw [List.mem_singleton.1 member]
  exact Version.pristine_start language

end Engine

/-- The engine loses no parse: if some run of the machine is accepted and no limit takes a version
away, the parse returns a tree without errors. -/
theorem parse_of_accepts {source : Grammar} {compiled : Compiled}
    (compiles : source.compile = .ok compiled) (noExternals : source.externals = [])
    {language : Language} (built : language.IsBuilt) (table : language.table = compiled.table)
    (noActions : ∀ state symbol, language.isExtra symbol = true →
      language.actions state symbol = [])
    {options : ParserOptions} {text : String}
    (accepts : Machine.Accepts (ParseInput.ofText language options text) (Machine.start language))
    (within : ∀ engine, Engine.Reaches (ParseInput.ofText language options text)
      (Engine.begin (ParseInput.ofText language options text) none) engine →
        engine.isWithinLimits (ParseInput.ofText language options text) = true) :
    ∃ fuel parsed, parsed.tree.hasError = false ∧ parsed.tree.root.IsFaultless ∧
      ∀ more, parseWithin (fuel + more) language options text none = some parsed := by
  obtain ⟨prepared, _, generated⟩ := generated_of_compile compiles
  have plain : (ParseInput.ofText language options text).language.IsPlain prepared := by
    refine ⟨built, table ▸ generated, ?_, noActions⟩
    change language.table.externalTokens.isEmpty = true
    rw [table, externalTokens_of_compile noExternals compiles]
    rfl
  obtain ⟨n, accepts⟩ := accepts.within
  obtain ⟨fuel, last, ran, root, found, faultless⟩ :=
    Engine.exists_run plain (Engine.live_begin options text accepts) within
  have same : last.result (ParseInput.ofText language options text) = root := by
    rw [Engine.result, show last.finished = some root from found]
    rfl
  refine ⟨fuel, ⟨Tree.ofRoot (last.result (ParseInput.ofText language options text)) language,
    last.stats⟩, ?_, ?_, fun more => ?_⟩
  · exact (same ▸ faultless).hasError
  · exact same ▸ faultless
  · rw [parseWithin, Engine.run_mono ran more]
    rfl

theorem noActions_of_prefixLanguage {language : Language} (h : prefixLanguage = some language)
    (state : StateId) (symbol : SymbolId) (isExtra : language.isExtra symbol = true) :
    language.actions state symbol = [] := by
  have flags : (prefixLanguage.map (·.isExtraSymbol)) =
      some #[false, true, false, false, false] := by
    decide +kernel
  rw [h, Option.map_some, Option.some.injEq] at flags
  have index : symbol.index = 1 := by
    have only : ∀ i < 5, #[false, true, false, false, false].getD i false = true → i = 1 := by
      decide
    rw [Language.isExtra, flags] at isExtra
    rcases Nat.lt_or_ge symbol.index 5 with inside | outside
    · exact only _ inside isExtra
    · rw [Array.getD, dif_neg (by simpa using outside)] at isExtra
      contradiction
  obtain rfl : symbol = ⟨1⟩ := SymbolId.ext_index index
  rw [Language.actions, (isBuilt_of_prefixLanguage h).2]
  have none : ∀ s < 5, prefixTable.actions (StateId.ofNat s) ⟨1⟩ = [] := by decide +kernel
  rcases Nat.lt_or_ge state.index 5 with inside | outside
  · rw [← StateId.ofNat_index state]
    exact none _ inside
  · rw [Table.actions, if_neg]
    exact fun both => Nat.not_lt.2 outside (of_decide_eq_true (Bool.and_eq_true_iff.1 both).2)

/-- A text before whose letter the parse has to fork. -/
theorem parse_of_accepts_prefixed : ∃ language fuel parsed, prefixLanguage = some language ∧
    parsed.tree.hasError = false ∧ parsed.tree.root.IsFaultless ∧
      ∀ more, parseWithin (fuel + more) language .standard "#a#" none = some parsed := by
  have runs : (prefixLanguage.any fun language =>
      Machine.search (ParseInput.ofText language .standard "#a#") 20 (Machine.start language) &&
        Engine.staysWithinLimits (ParseInput.ofText language .standard "#a#") 50
          (Engine.begin (ParseInput.ofText language .standard "#a#") none)) = true := by
    decide +kernel
  obtain ⟨language, built, runs⟩ := (Option.any_eq_true _ _).1 runs
  obtain ⟨found, within⟩ := Bool.and_eq_true_iff.1 runs
  obtain ⟨compiled, compiles, laidOut⟩ := compile_prefixGrammar
  obtain ⟨isBuilt, table⟩ := isBuilt_of_prefixLanguage built
  obtain ⟨fuel, parsed, noError, faultless, returned⟩ := parse_of_accepts compiles rfl isBuilt
    (table.trans laidOut.symm) (noActions_of_prefixLanguage built)
    (Machine.accepts_of_search found) fun _ => Engine.isWithinLimits_of_reaches within
  exact ⟨language, fuel, parsed, built, noError, faultless, returned⟩

end IncrementalGlr
