import IncrementalGlr.Proofs.Parse.Tiling

/-!
# What a step can do

A step of the engine changes one version, or mends one at the end of a round. All that it can make
of a version, of the place in the old tree and of the root is listed here once, so that a property
is kept by the engine if it is kept by each entry of the list.
-/

namespace IncrementalGlr

theorem Language.IsBuilt.consistent_ofText {language : Language} (built : language.IsBuilt)
    (options : ParserOptions) (text : String) :
    (ParseInput.ofText language options text).language.table.Consistent :=
  built.consistent

inductive Lookahead.ShiftsAs (language : Language) (state : StateId) (isExtra : Bool) :
    Lookahead → Subtree → Prop
  | token (token : Token) :
      ShiftsAs language state isExtra (.token token) (Subtree.leaf language token state isExtra)
  | reused {tree : Subtree} (leaf : tree.children = []) :
      ShiftsAs language state isExtra (.reused tree)
        ((tree.withParseState state).withExtra isExtra)

/-- What the engine makes of a version within a round. `reuse` is the place in the old tree, and
`count` is the number of versions. -/
inductive Version.Becomes (input : ParseInput) (reuse : Option ReuseCursor) (count : Nat)
    (version : Version) : Version → Prop
  | waits : Becomes input reuse count version version
  | lexed (fresh : version.lookahead = none) :
      Becomes input reuse count version
        { version with
          lookahead := some (.token (input.lex version.stack (version.nextLexMode input.language)))
          lexMode := some (version.nextLexMode input.language) }
  | lexedAnew {token : Token} (here : version.lookahead = some (.token token)) :
      Becomes input reuse count version
        { version with
          lookahead := some (.token (input.lex version.stack
            (input.language.lexModeOfState version.state)))
          lexMode := some (input.language.lexModeOfState version.state) }
  | offered {tree : Subtree} {cursor : ReuseCursor} (mode : LexModeId) (here : cursor ∈ reuse)
      (found : tree ∈ (cursor.search version.stack.position.bytes
        (Engine.isReusable input mode (input.scannerState version.stack))).1) :
      Becomes input reuse count version
        { version with lookahead := some (.reused tree), lexMode := some mode }
  | turnedDown {tree : Subtree} (here : version.lookahead = some (.reused tree)) :
      Becomes input reuse count version { version with lookahead := none }
  | reduced {lookahead : Lookahead} {symbol : SymbolId} {childCount : UInt16}
      {dynamicPrecedence : Int16} {production : ProductionId} {reach : Nat} {stack : Stack}
      (here : version.lookahead = some lookahead)
      (chosen : .reduce symbol childCount dynamicPrecedence production ∈
        input.language.actions version.state lookahead.symbol)
      (done : input.reduce version.stack reach
        ((input.language.actions version.state lookahead.symbol).length > 1 || count > 1) symbol
        childCount production = some stack) :
      Becomes input reuse count version { version with stack }
  | shifted {lookahead : Lookahead} {tree : Subtree} {next : StateId}
      (here : version.lookahead = some lookahead)
      (leaf : lookahead.ShiftsAs input.language version.state false tree)
      (chosen : .shift next ∈ input.language.actions version.state lookahead.symbol) :
      Becomes input reuse count version (version.shift tree next)
  | extra {lookahead : Lookahead} {tree : Subtree} (here : version.lookahead = some lookahead)
      (leaf : lookahead.ShiftsAs input.language version.state true tree)
      (lacking : input.language.actions version.state lookahead.symbol = [])
      (isExtra : input.language.isExtra lookahead.symbol = true) :
      Becomes input reuse count version (version.shift tree version.state)
  | takenOver {tree : Subtree} {next : StateId} {mode : Option LexModeId}
      (here : version.lookahead = some (.reused tree))
      (goes : input.language.goto? version.state tree.symbol = some next)
      (interior : tree.children ≠ [])
      (followed : (Engine.followMode? input.language tree).isSome = true) :
      Becomes input reuse count version { version.shift tree next with lexMode := mode }

inductive Version.EndsIn (input : ParseInput) (version : Version) : Subtree → Prop
  | accepted {lookahead : Lookahead} (here : version.lookahead = some lookahead)
      (chosen : .accept ∈ input.language.actions version.state lookahead.symbol) :
      EndsIn input version (input.root version.stack)

inductive ReuseCursor.Moves (cursor : ReuseCursor) : ReuseCursor → Prop
  | stays : Moves cursor cursor
  | advances : Moves cursor cursor.advance
  | descends {next : ReuseCursor} (down : cursor.descend? = some next) : Moves cursor next
  | searches (position : Nat) (test : Subtree → Option ScannerState → Bool) :
      Moves cursor (cursor.search position test).2

namespace Engine

variable {engine next : Engine} {input : ParseInput} {version v : Version} {rest : List Version}

def versions (engine : Engine) : List Version := engine.passed.map (·.2) ++ engine.waiting

theorem Fits.versions {table : Table} {text : List Char} (h : engine.Fits table text) :
    ∀ version ∈ engine.versions, version.Fits table text := by
  intro version member
  rcases List.mem_append.1 member with passed | waiting
  · obtain ⟨entry, there, rfl⟩ := List.mem_map.1 passed
    exact h.passed entry there
  · exact h.waiting version waiting

structure Advances (engine : Engine) (input : ParseInput) (version : Version)
    (rest : List Version) (next : Engine) : Prop where
  versions : ∀ v ∈ next.versions, v ∈ engine.passed.map (·.2) ++ rest ∨
    version.Becomes input engine.reuse engine.versionCount v
  finished : ∀ root ∈ next.finished, root ∈ engine.finished ∨ version.EndsIn input root
  reuse : ∀ cursor ∈ next.reuse, ∃ before ∈ engine.reuse, before.Moves cursor
  waiting : ∀ v ∈ rest, v ∈ next.waiting
  passed : ∀ entry ∈ engine.passed, entry ∈ next.passed
  shifted : ∀ entry ∈ next.passed, entry ∈ engine.passed ∨
    (entry.1 = .shifted → entry.2.lookahead = none)
  rooted : engine.finished.isSome = true → next.finished.isSome = true

theorem mem_settle {outcome : Outcome}
    (member : v ∈ (engine.settle outcome version rest).versions) :
    v ∈ engine.passed.map (·.2) ++ rest ∨ v = version := by
  rw [versions, settle, List.map_append] at member
  rcases List.mem_append.1 member with through | waiting
  · rcases List.mem_append.1 through with passed | new
    · exact .inl (List.mem_append_left _ passed)
    · exact .inr (List.mem_singleton.1 new)
  · exact .inl (List.mem_append_right _ waiting)

theorem mem_proceed (member : v ∈ (engine.proceed version rest).versions) :
    v ∈ engine.passed.map (·.2) ++ rest ∨ v = version := by
  rcases List.mem_append.1 member with passed | waiting
  · exact .inl (List.mem_append_left _ passed)
  · exact (List.mem_cons.1 waiting).elim .inr fun old => .inl (List.mem_append_right _ old)

theorem mem_fork {pushed : List Stack} (member : v ∈ engine.fork input version pushed rest) :
    v ∈ rest ∨ ∃ stack ∈ pushed, v = { version with stack } := by
  rcases List.mem_append.1 member with old | new
  · exact .inl old
  · obtain ⟨stack, taken, rfl⟩ := List.mem_map.1 new
    exact .inr ⟨stack, List.mem_of_mem_take taken, rfl⟩

structure Forked (engine : Engine) (input : ParseInput) (version : Version)
    (rest others : List Version) : Prop where
  old : ∀ other ∈ rest, other ∈ others
  new : ∀ other ∈ others, other ∈ rest ∨
    version.Becomes input engine.reuse engine.versionCount other

theorem Forked.refl : Forked engine input version rest rest := ⟨fun _ => id, fun _ => .inl⟩

theorem forked_fork {pushed : List Stack}
    (becomes : ∀ stack ∈ pushed,
      version.Becomes input engine.reuse engine.versionCount { version with stack }) :
    Forked engine input version rest (engine.fork input version pushed rest) := by
  refine ⟨fun other => List.mem_append_left _, fun other member => ?_⟩
  rcases mem_fork member with old | ⟨stack, taken, rfl⟩
  · exact .inl old
  · exact .inr (becomes stack taken)

theorem advances_settle (outcome : Outcome)
    (becomes : version.Becomes input engine.reuse engine.versionCount v)
    (spent : outcome = .shifted → v.lookahead = none) {others : List Version}
    (forked : Forked engine input version rest others) :
    engine.Advances input version rest (engine.settle outcome v others) where
  versions other member := by
    rcases mem_settle member with member | rfl
    · rcases List.mem_append.1 member with passed | waiting
      · exact .inl (List.mem_append_left _ passed)
      · exact (forked.new other waiting).imp_left (List.mem_append_right _)
    · exact .inr becomes
  finished _ := .inl
  reuse cursor here := ⟨cursor, here, .stays⟩
  waiting := forked.old
  passed _ := List.mem_append_left _
  shifted entry member := by
    rcases List.mem_append.1 member with old | new
    · exact .inl old
    · rw [List.mem_singleton.1 new]
      exact .inr spent
  rooted := id

theorem advances_waits {outcome : Outcome} (other : outcome ≠ .shifted) :
    engine.Advances input version rest (engine.settle outcome version rest) :=
  advances_settle outcome .waits (fun shifted => absurd shifted other) .refl

theorem advances_proceed
    (becomes : version.Becomes input engine.reuse engine.versionCount v) {others : List Version}
    (forked : Forked engine input version rest others) :
    engine.Advances input version rest (engine.proceed v others) where
  versions other member := by
    rcases mem_proceed member with member | rfl
    · rcases List.mem_append.1 member with passed | waiting
      · exact .inl (List.mem_append_left _ passed)
      · exact (forked.new other waiting).imp_left (List.mem_append_right _)
    · exact .inr becomes
  finished _ := .inl
  reuse cursor here := ⟨cursor, here, .stays⟩
  waiting other member := List.mem_cons_of_mem _ (forked.old other member)
  passed _ := id
  shifted _ := .inl
  rooted := id

theorem Advances.withReuse (h : engine.Advances input version rest next)
    {reuse : Option ReuseCursor}
    (moves : ∀ cursor ∈ reuse, ∃ before ∈ engine.reuse, before.Moves cursor)
    {stats : ReuseStats} {blockedAt : Option Nat} :
    engine.Advances input version rest { next with reuse, stats, blockedAt } :=
  { h with reuse := moves }

theorem advances_takeOver {tree : Subtree} {state : StateId} (mode : Option LexModeId)
    (becomes : version.Becomes input engine.reuse engine.versionCount
      { version.shift tree state with lexMode := mode.or (version.shift tree state).lexMode })
    {others : List Version} (forked : Forked engine input version rest others) :
    engine.Advances input version rest (engine.takeOver version others tree state mode) := by
  refine (advances_settle .shifted becomes (fun _ => rfl) forked).withReuse
    fun cursor found => ?_
  obtain ⟨before, here, rfl⟩ := Option.map_eq_some_iff.1 found
  exact ⟨before, here, .advances⟩

theorem advances_turnDown {tree : Subtree} (here : version.lookahead = some (.reused tree)) :
    engine.Advances input version rest (engine.turnDown version rest) := by
  have goesOn : engine.Advances input version rest
      (engine.proceed { version with lookahead := none } rest) :=
    advances_proceed (.turnedDown here) .refl
  unfold turnDown
  dsimp only
  split
  · next cursor found =>
      refine goesOn.withReuse fun other same => ?_
      cases same
      obtain ⟨before, here, down⟩ := Option.bind_eq_some_iff.1 found
      exact ⟨before, here, .descends down⟩
  · exact goesOn.withReuse fun cursor here => ⟨cursor, here, .stays⟩

/-! ## Steps of the current version -/

theorem offer_moves (engine : Engine) (input : ParseInput) (version : Version)
    (mode : LexModeId) :
    (∀ tree ∈ (engine.offer input version mode).1, ∃ cursor ∈ engine.reuse,
      tree ∈ (cursor.search version.stack.position.bytes
        (isReusable input mode (input.scannerState version.stack))).1) ∧
    ∀ cursor ∈ (engine.offer input version mode).2, ∃ before ∈ engine.reuse,
      before.Moves cursor := by
  unfold offer
  dsimp only
  split
  · split
    · next cursor found =>
        refine ⟨fun tree offered => ⟨cursor, found, offered⟩, fun other same => ?_⟩
        cases same
        exact ⟨cursor, found, .searches _ _⟩
    · exact ⟨fun _ found => (by cases found), fun _ found => (by cases found)⟩
  · exact ⟨fun _ found => (by cases found), fun cursor here => ⟨cursor, here, .stays⟩⟩

theorem advances_look (fresh : version.lookahead = none) :
    engine.Advances input version rest (engine.look input version rest) := by
  obtain ⟨offered, moves⟩ := offer_moves engine input version (version.nextLexMode input.language)
  unfold look
  dsimp only
  refine Advances.withReuse
    (advances_proceed ?_ .refl : engine.Advances input version rest (engine.proceed _ rest)) moves
  split
  · next tree found =>
      obtain ⟨cursor, here, there⟩ := offered tree found
      exact .offered _ here there
  · exact .lexed fresh

def reducts (engine : Engine) (input : ParseInput) (version : Version) (lookahead : Lookahead)
    (actions : List Action) : List Stack :=
  (actions.filterMap Action.reduction?).filterMap fun (symbol, childCount, production) =>
    input.reduce version.stack (lookahead.reach version.stack.position)
      (actions.length > 1 || engine.versionCount > 1) symbol childCount production

theorem mem_reducts (engine : Engine) {lookahead : Lookahead} {actions : List Action}
    {stack : Stack} :
    stack ∈ engine.reducts input version lookahead actions ↔
      ∃ symbol childCount dynamicPrecedence production,
        .reduce symbol childCount dynamicPrecedence production ∈ actions ∧
        input.reduce version.stack (lookahead.reach version.stack.position)
          (actions.length > 1 || engine.versionCount > 1) symbol childCount production
            = some stack := by
  rw [reducts, List.mem_filterMap]
  constructor
  · rintro ⟨⟨symbol, childCount, production⟩, listed, done⟩
    obtain ⟨action, chosen, reduces⟩ := List.mem_filterMap.1 listed
    obtain ⟨dynamicPrecedence, rfl⟩ := Action.eq_reduce_of_reduction? reduces
    exact ⟨symbol, childCount, dynamicPrecedence, production, chosen, done⟩
  · rintro ⟨symbol, childCount, dynamicPrecedence, production, chosen, done⟩
    exact ⟨(symbol, childCount, production), List.mem_filterMap.2 ⟨_, chosen, rfl⟩, done⟩

theorem advances_act {lookahead : Lookahead} (here : version.lookahead = some lookahead)
    (leaf : ∀ tree, lookahead = .reused tree →
      (∃ action ∈ input.language.actions version.state lookahead.symbol,
        action.shiftTarget?.isSome = true) → tree.children = []) :
    engine.Advances input version rest (engine.act input version rest lookahead
      (input.language.actions version.state lookahead.symbol)) := by
  unfold act
  dsimp only
  generalize all : List.filterMap _ (List.filterMap Action.reduction? _) = reduced
  have becomes : ∀ stack ∈ reduced,
      version.Becomes input engine.reuse engine.versionCount { version with stack } := by
    intro stack member
    rw [← all] at member
    obtain ⟨_, _, _, _, chosen, done⟩ := (mem_reducts engine).1 member
    exact .reduced here chosen done
  split
  · next accepts =>
      obtain ⟨action, chosen, isAccept⟩ := List.any_eq_true.1 accepts
      cases Action.eq_accept_of_isAccept isAccept
      have moved : engine.Advances input version rest (engine.settle .accepted version rest) :=
        advances_waits (by decide)
      obtain ⟨finished, same, known⟩ := finish_eq engine (input.root version.stack)
      rw [same]
      refine { moved with
        finished := fun root found => ?_
        rooted := fun _ => rfl }
      cases found
      rcases known with rfl | old
      · exact .inr (.accepted here chosen)
      · exact .inl old
  · split
    · exact advances_waits (by decide)
    · split
      · next state last =>
          obtain ⟨action, chosen, isShift⟩ := List.mem_filterMap.1 (List.mem_of_getLast? last)
          cases Action.eq_shift_of_shiftTarget? isShift
          split
          · exact advances_settle _ (.shifted here (.token _) chosen) (fun _ => rfl)
              (forked_fork becomes)
          · exact advances_takeOver none
              (.shifted here (.reused (leaf _ rfl ⟨_, chosen, rfl⟩)) chosen) (forked_fork becomes)
      · split
        · next first more =>
            exact { advances_proceed (becomes first (List.mem_cons_self ..))
              (forked_fork fun stack listed => becomes stack (List.mem_cons_of_mem _ listed)) with }
        · exact advances_waits (by decide)

theorem advances_advance (engine : Engine) (input : ParseInput) (version : Version)
    (rest : List Version) :
    engine.Advances input version rest (engine.advance input version rest) := by
  unfold advance
  split
  · next fresh => exact advances_look fresh
  · next token here =>
      unfold advanceToken
      dsimp only
      split
      · next lacking =>
          split
          · next isExtra =>
              exact advances_settle _ (.extra here (.token token) lacking isExtra)
                (fun _ => rfl) .refl
          · split
            · exact advances_proceed (.lexedAnew here) .refl
            · exact advances_waits (by decide)
      · exact advances_act here fun _ same => by cases same
  · next tree here =>
      unfold advanceReused
      dsimp only
      split
      · next lacking =>
          split
          · next leaf =>
              obtain ⟨leaf, isExtra⟩ := Bool.and_eq_true_iff.1 leaf
              have leaf : tree.children = [] := by simpa [Subtree.isLeaf] using leaf
              refine advances_takeOver none (.extra here (.reused leaf) lacking ?_) .refl
              rwa [Lookahead.symbol, Subtree.firstLeaf_of_leaf leaf]
          · exact advances_turnDown here
      · next action only =>
          split
          · next shifts =>
              split
              · next goes followed =>
                  have interior : tree.children ≠ [] := by
                    simpa [Subtree.isLeaf] using (Bool.and_eq_true_iff.1 shifts).1
                  split at goes
                  · exact advances_takeOver _
                      (.takenOver here goes interior (Option.isSome_of_eq_some followed)) .refl
                  · contradiction
              · exact advances_turnDown here
          · next leafOrOther =>
              rw [← only]
              refine advances_act here fun other same shifts => ?_
              cases same
              obtain ⟨shift, listed, isShift⟩ := shifts
              rw [show input.language.actions version.state (Lookahead.reused tree).symbol
                = [action] from only] at listed
              rw [List.mem_singleton.1 listed] at isShift
              simpa [isShift, Subtree.isLeaf] using leafOrOther
      · exact advances_turnDown here

/-! ## Cells with one action -/

theorem advanceToken_of_filled {token : Token}
    (filled : input.language.actions version.state token.symbol ≠ []) :
    engine.advanceToken input version rest token = engine.act input version rest (.token token)
      (input.language.actions version.state token.symbol) := by
  unfold advanceToken
  dsimp only
  split
  · contradiction
  · rfl

theorem act_accept (engine : Engine) (input : ParseInput) (version : Version) (rest : List Version)
    (token : Token) :
    (engine.act input version rest (.token token) [.accept]).passed =
      engine.passed ++ [(.accepted, version)] ∧
    (engine.act input version rest (.token token) [.accept]).waiting = rest := by
  obtain ⟨finished, same, _⟩ := finish_eq engine (input.root version.stack)
  have accepted : engine.act input version rest (.token token) [.accept] =
      (engine.finish (input.root version.stack)).settle .accepted version rest := rfl
  rw [accepted, same]
  exact ⟨rfl, rfl⟩

theorem act_shift (token : Token) (target : StateId)
    (few : engine.reductions ≤ input.options.maxReduceSteps) :
    engine.act input version rest (.token token) [.shift target] = engine.settle .shifted
      (version.shift (Subtree.leaf input.language token version.state false) target) rest := by
  have none : [Action.shift target].filterMap Action.reduction? = [] := rfl
  simp [act, none, Action.isAccept, Action.shiftTarget?, fork, Version.state, Nat.not_lt.2 few]

theorem act_reduction {token : Token} {symbol : SymbolId} {childCount : UInt16}
    {dynamicPrecedence : Int16} {production : ProductionId} {reduced : Stack}
    (few : engine.reductions + 1 ≤ input.options.maxReduceSteps)
    (done : input.reduce version.stack token.reach (decide (engine.versionCount > 1)) symbol
      childCount production = some reduced) :
    engine.act input version rest (.token token)
        [.reduce symbol childCount dynamicPrecedence production] =
      { engine with reductions := engine.reductions + 1 }.proceed
        { version with stack := reduced } rest := by
  have done' : input.reduce version.stack (Lookahead.reach version.stack.position (.token token))
      (decide (engine.versionCount > 1)) symbol childCount production = some reduced := done
  simp [act, Action.reduction?, Action.isAccept, Action.shiftTarget?, done', fork,
    Nat.not_lt.2 few]

/-! ## Steps -/

structure Steps (engine : Engine) (input : ParseInput) (next : Engine) : Prop where
  versions : ∀ v ∈ next.versions, v ∈ engine.versions ∨
    ∃ u ∈ engine.versions, u.Becomes input engine.reuse engine.versionCount v ∨
      input.recover u = .version v
  finished : ∀ root ∈ next.finished, root ∈ engine.finished ∨
    ∃ u ∈ engine.versions, u.EndsIn input root ∨ input.recover u = .root root
  reuse : ∀ cursor ∈ next.reuse, ∃ before ∈ engine.reuse, before.Moves cursor

theorem steps_survivors (engine : Engine) (input : ParseInput) :
    (∀ v ∈ (engine.survivors input).2, v ∈ engine.versions ∨
      ∃ u ∈ engine.versions, input.recover u = .version v) ∧
    (∀ root ∈ (engine.survivors input).1.finished, root ∈ engine.finished ∨
      ∃ u ∈ engine.versions, input.recover u = .root root) ∧
    (engine.survivors input).1.reuse = engine.reuse := by
  have alive : ∀ v ∈ (engine.passed.filter fun entry => entry.1 != .accepted).map (·.2),
      v ∈ engine.versions := by
    intro v member
    obtain ⟨entry, kept, rfl⟩ := List.mem_map.1 member
    exact List.mem_append_left _ (List.mem_map_of_mem (List.mem_filter.1 kept).1)
  unfold survivors
  dsimp only
  split
  · next first others shifted =>
      refine ⟨fun v member => .inl (alive v ?_), fun _ found => .inl found, rfl⟩
      rw [← shifted] at member
      obtain ⟨entry, kept, rfl⟩ := List.mem_map.1 member
      exact List.mem_map_of_mem (List.mem_filter.1 kept).1
  · split
    · exact ⟨fun _ absent => absurd absent List.not_mem_nil, fun _ found => .inl found, rfl⟩
    · split
      · exact ⟨fun _ absent => absurd absent List.not_mem_nil, fun _ found => .inl found, rfl⟩
      · next version best =>
          have known := alive version (mem_of_best? best)
          split
          · next mended recovered =>
              refine ⟨fun v member => ?_, fun _ found => .inl found, rfl⟩
              rw [List.mem_singleton.1 member]
              exact .inr ⟨version, known, recovered⟩
          · next root recovered =>
              obtain ⟨finished, same, which⟩ := finish_eq engine root
              rw [same]
              refine ⟨fun _ absent => absurd absent List.not_mem_nil, fun other found => ?_, rfl⟩
              cases found
              rcases which with rfl | old
              · exact .inr ⟨version, known, recovered⟩
              · exact .inl old

theorem steps_step (engine : Engine) (input : ParseInput) :
    engine.Steps input (engine.step input) := by
  unfold step
  split
  · next version rest waiting =>
      have current : version ∈ engine.versions := by
        rw [versions, waiting]
        simp
      have moved := advances_advance engine input version rest
      refine ⟨fun v member => ?_, fun root found => ?_, moved.reuse⟩
      · refine (moved.versions v member).imp (fun old => ?_) fun new => ⟨version, current, .inl new⟩
        rw [versions, waiting]
        exact (List.mem_append.1 old).elim (List.mem_append_left _) fun waits =>
          List.mem_append_right _ (List.mem_cons_of_mem _ waits)
      · exact (moved.finished root found).imp_right fun new => ⟨version, current, .inl new⟩
  · obtain ⟨versions, finished, reuse⟩ := steps_survivors engine input
    unfold endRound
    dsimp only
    refine ⟨fun v member => ?_, fun root found => ?_, fun cursor found => ?_⟩
    · have kept : v ∈ condense input _ := member
      refine (versions v (List.mem_filter.1 (mem_of_mem_condense kept)).1).imp_right ?_
      exact fun ⟨u, known, recovered⟩ => ⟨u, known, .inr recovered⟩
    · exact (finished root found).imp_right fun ⟨u, known, recovered⟩ =>
        ⟨u, known, .inr recovered⟩
    · exact ⟨cursor, reuse ▸ found, .stays⟩

/-! ## The lists of versions -/

theorem length_fork (engine : Engine) (input : ParseInput) (version : Version)
    (rest : List Version) (pushed : List Stack) :
    rest.length ≤ (engine.fork input version pushed rest).length ∧
      (engine.fork input version pushed rest).length ≤
        rest.length + (4 * input.options.maxVersions - engine.versionCount) := by
  simp only [fork, List.length_append, List.length_map, List.length_take]
  omega

theorem versionCount_current (current : engine.waiting = version :: rest) :
    engine.versionCount = engine.passed.length + rest.length + 1 := by
  rw [versionCount, current, List.length_cons]
  omega

/-- How a step of the current version changes the lists of versions and the root. What it adds to
the versions behind it, `rest`, are forks that there is room for. -/
inductive Passes (engine : Engine) (input : ParseInput) (rest : List Version) (next : Engine) :
    Prop
  | goesOn (passed : next.passed = engine.passed) (waiting : next.waiting ≠ [])
      (room : next.waiting.length ≤
        rest.length + 1 + (4 * input.options.maxVersions - engine.versionCount))
      (finished : next.finished = engine.finished)
  | settled {outcome : Outcome} {version : Version} (other : outcome ≠ .accepted)
      (passed : next.passed = engine.passed ++ [(outcome, version)])
      (room : next.waiting.length ≤
        rest.length + (4 * input.options.maxVersions - engine.versionCount))
      (finished : next.finished = engine.finished)
  | accepted {version : Version} (passed : next.passed = engine.passed ++ [(.accepted, version)])
      (waiting : next.waiting = rest)
      (finished : next.finished = (engine.finish (input.root version.stack)).finished)

theorem passes_proceed (engine : Engine) (input : ParseInput) (version : Version)
    (rest : List Version) : engine.Passes input rest (engine.proceed version rest) :=
  .goesOn rfl (List.cons_ne_nil _ _) (Nat.le_add_right _ _) rfl

theorem passes_settle (engine : Engine) (input : ParseInput) {outcome : Outcome}
    (other : outcome ≠ .accepted) (version : Version) (rest : List Version) :
    engine.Passes input rest (engine.settle outcome version rest) :=
  .settled other rfl (Nat.le_add_right _ _) rfl

theorem passes_act (lookahead : Lookahead) (actions : List Action) :
    engine.Passes input rest (engine.act input version rest lookahead actions) := by
  unfold act
  dsimp only
  split
  · obtain ⟨finished, same, _⟩ := finish_eq engine (input.root version.stack)
    have settled : ((engine.finish (input.root version.stack)).settle .accepted version
        rest).passed = engine.passed ++ [(.accepted, version)] := by
      rw [same]
      rfl
    exact .accepted settled rfl rfl
  · split
    · exact passes_settle engine input (by decide) version rest
    · split
      · split
        · exact .settled (by decide) rfl (length_fork engine input version rest _).2 rfl
        · exact .settled (by decide) rfl (length_fork engine input version rest _).2 rfl
      · split
        · next first others _ =>
            refine .goesOn rfl (List.cons_ne_nil _ _) ?_ rfl
            have room := (length_fork engine input version rest others).2
            rw [proceed, List.length_cons]
            omega
        · exact passes_settle engine input (by decide) version rest

theorem passes_turnDown : engine.Passes input rest (engine.turnDown version rest) := by
  unfold turnDown
  dsimp only
  split
  · exact .goesOn rfl (List.cons_ne_nil _ _) (Nat.le_add_right _ _) rfl
  · exact .goesOn rfl (List.cons_ne_nil _ _) (Nat.le_add_right _ _) rfl

theorem passes_advance (engine : Engine) (input : ParseInput) (version : Version)
    (rest : List Version) : engine.Passes input rest (engine.advance input version rest) := by
  unfold advance
  split
  · exact .goesOn rfl (List.cons_ne_nil _ _) (Nat.le_add_right _ _) rfl
  · unfold advanceToken
    dsimp only
    split
    · split
      · exact passes_settle engine input (by decide) _ rest
      · split
        · exact passes_proceed engine input _ rest
        · exact passes_settle engine input (by decide) version rest
    · exact passes_act _ _
  · unfold advanceReused
    dsimp only
    split
    · split
      · exact .settled (by decide) rfl (Nat.le_add_right _ _) rfl
      · exact passes_turnDown
    · split
      · split
        · exact .settled (by decide) rfl (Nat.le_add_right _ _) rfl
        · exact passes_turnDown
      · exact passes_act _ _
    · exact passes_turnDown

theorem passes_step (input : ParseInput) (current : engine.waiting = version :: rest) :
    engine.Passes input rest (engine.step input) := by
  rw [step, current]
  exact passes_advance engine input version rest

theorem survivors_ne_nil (accepted : ∀ entry ∈ engine.passed, entry.1 = .accepted →
      engine.finished.isSome = true) (ended : engine.passed ≠ []) :
    (engine.survivors input).1.finished = none → (engine.survivors input).2 ≠ [] := by
  unfold survivors
  dsimp only
  split
  · exact fun _ => List.cons_ne_nil _ _
  · split
    · next finished =>
        intro none
        rw [none] at finished
        contradiction
    · next unfinished =>
        split
        · next none =>
            -- Without a root nothing was accepted, so all versions that passed are alive.
            have empty := List.map_eq_nil_iff.1 (best?_eq_none none)
            obtain ⟨entry, member⟩ := List.exists_mem_of_ne_nil _ ended
            rw [List.filter_eq_nil_iff] at empty
            have rooted := accepted entry member (by simpa using empty entry member)
            exact absurd rooted unfinished
        · split
          · exact fun _ => List.cons_ne_nil _ _
          · next root _ =>
              obtain ⟨finished, same, _⟩ := finish_eq engine root
              rw [same]
              intro none
              contradiction

theorem isDone_endRound (accepted : ∀ entry ∈ engine.passed, entry.1 = .accepted →
      engine.finished.isSome = true) (ended : engine.passed ≠ [])
    (unfinished : (engine.endRound input).finished = none) :
    (engine.endRound input).isDone = false := by
  have unfinished : (engine.survivors input).1.finished = none := unfinished
  have kept := survivors_ne_nil accepted ended unfinished
  have all : (engine.survivors input).2.filter (fun version =>
      (engine.survivors input).1.finished.all fun root =>
        version.stack.errorCost < root.errorCost) = (engine.survivors input).2 := by
    rw [List.filter_eq_self]
    intro v _
    rw [unfinished]
    rfl
  unfold endRound
  dsimp only
  rw [all]
  have waiting : condense input (engine.survivors input).2 ≠ [] := condense_ne_nil kept
  simp [isDone, waiting]

/-- A root is there when it is said so, and where no version is left. -/
structure Alive (engine : Engine) : Prop where
  accepted : ∀ entry ∈ engine.passed, entry.1 = .accepted → engine.finished.isSome = true
  alive : engine.finished = none → engine.isDone = false

theorem alive_begin (input : ParseInput) (old : Option Tree) : (begin input old).Alive :=
  ⟨fun _ absent => absurd absent List.not_mem_nil, fun _ => rfl⟩

theorem Alive.step (h : engine.Alive) (goesOn : engine.isDone = false) :
    (engine.step input).Alive := by
  cases waiting : engine.waiting with
  | cons current rest =>
    cases passes_step input waiting with
    | goesOn passed waiting _ finished =>
      refine ⟨?_, fun _ => by simp [isDone, waiting]⟩
      rw [passed, finished]
      exact h.accepted
    | settled other passed _ finished =>
      refine ⟨fun entry member isAccepted => ?_, fun _ => by simp [isDone, passed]⟩
      rw [finished]
      rw [passed] at member
      rcases List.mem_append.1 member with old | new
      · exact h.accepted entry old isAccepted
      · rw [List.mem_singleton.1 new] at isAccepted
        exact absurd isAccepted other
    | accepted passed _ finished =>
      obtain ⟨best, rooted, _⟩ := finish_eq engine (input.root _)
      rw [rooted] at finished
      exact ⟨fun _ _ _ => by rw [finished]; rfl, fun _ => by simp [isDone, passed]⟩
  | nil =>
    have ended : engine.passed ≠ [] := by
      intro none
      simp [isDone, waiting, none] at goesOn
    rw [Engine.step, waiting]
    exact ⟨fun _ absent => absurd absent List.not_mem_nil, isDone_endRound h.accepted ended⟩

theorem exists_result_of_run {old : Option Tree} {fuel : Nat} {last : Engine}
    (ran : run input fuel (begin input old) = some last) :
    ∃ root ∈ last.finished, last.result input = root := by
  obtain ⟨alive, done⟩ :=
    run_preserves (motive := Alive) (fun _ => Alive.step) (alive_begin input old) ran
  unfold result
  cases found : last.finished with
  | none =>
    rw [alive.alive found] at done
    contradiction
  | some root => exact ⟨root, rfl, rfl⟩

/-! ## Ways -/

inductive Reaches (input : ParseInput) : Engine → Engine → Prop
  | refl (engine : Engine) : Reaches input engine engine
  | step {engine last : Engine} (goesOn : engine.isDone = false)
      (rest : Reaches input (engine.step input) last) : Reaches input engine last

theorem Reaches.preserves {motive : Engine → Prop}
    (kept : ∀ engine, motive engine → engine.isDone = false → motive (engine.step input))
    {last : Engine} (reached : Reaches input engine last) (h : motive engine) : motive last := by
  induction reached with
  | refl engine => exact h
  | step goesOn _ ih => exact ih (kept _ h goesOn)

theorem Reaches.trans {middle last : Engine} (first : Reaches input engine middle)
    (second : Reaches input middle last) : Reaches input engine last := by
  induction first with
  | refl engine => exact second
  | step goesOn _ ih => exact .step goesOn (ih second)

def after? (input : ParseInput) : Nat → Engine → Option Engine
  | 0, engine => some engine
  | steps + 1, engine => if engine.isDone then none else after? input steps (engine.step input)

theorem reaches_of_after? {steps : Nat} (stepped : after? input steps engine = some next) :
    Reaches input engine next := by
  induction steps generalizing engine with
  | zero =>
    cases stepped
    exact .refl _
  | succ steps ih =>
    rw [after?] at stepped
    split at stepped
    · contradiction
    · next goesOn => exact .step (Bool.eq_false_iff.2 goesOn) (ih stepped)

theorem Reaches.exists_run {last : Engine} (reached : Reaches input engine next) {fuel : Nat}
    (ran : run input fuel engine = some last) : ∃ less, run input less next = some last := by
  induction reached generalizing fuel with
  | refl engine => exact ⟨fuel, ran⟩
  | step goesOn _ ih =>
    cases fuel with
    | zero => contradiction
    | succ fuel =>
      rw [run, goesOn] at ran
      exact ih ran

end Engine

end IncrementalGlr
