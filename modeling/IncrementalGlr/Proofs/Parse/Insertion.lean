import IncrementalGlr.Proofs.Parse.Derivation
import IncrementalGlr.Proofs.Parse.Simulation
import IncrementalGlr.Proofs.Parse.Steadiness

/-!
# What insertions promise

Before tokens are inserted, they are tried on the states of the stack. What was found there is what
comes about on the stack: the same states, however extras lie between them, and the lookahead is
shifted or accepted next. And the search misses no shorter chain of tokens.
-/

namespace IncrementalGlr

open Generated

namespace Simulation

variable {language : Language} {terminal : SymbolId} {simulation next : Simulation}
  {terminals : List SymbolId} {budget : Nat}

def shiftAll? (language : Language) (budget : Nat) : List SymbolId → Simulation → Option Simulation
  | [], simulation => some simulation
  | terminal :: rest, simulation =>
    (simulation.shift? language terminal budget).bind (shiftAll? language budget rest)

def Meets (language : Language) (terminal : SymbolId) : Simulation → Simulation → Prop :=
  Relation.ReflTransGen fun simulation reduced =>
    simulation.reduce? language (language.actions simulation.state terminal) = some reduced

def IsDecided (simulation : Simulation) (language : Language) (terminal : SymbolId) : Prop :=
  ∀ met, simulation.Meets language terminal met →
    (language.actions met.state terminal).length = 1

theorem fits_of_lacking (lacking : language.actions simulation.state terminal = []) :
    simulation.fits language terminal budget = false := by
  cases budget with
  | zero => rfl
  | succ budget => simp [fits, lacking, reduce?]

theorem shift?_end {grammar : PreparedGrammar} (generated : Generated grammar language.table)
    (budget : Nat) (simulation : Simulation) :
    simulation.shift? language SymbolId.endOfInput budget = none := by
  induction budget generalizing simulation with
  | zero => rfl
  | succ budget ih =>
    unfold shift?
    dsimp only
    split
    · next found =>
      obtain ⟨action, chosen, isShift⟩ := List.exists_of_findSome?_eq_some found
      cases Action.eq_shift_of_shiftTarget? isShift
      obtain ⟨_, t, _, inside, isEnd, _⟩ := generated.of_shift_mem chosen
      have index := generated.index_terminal inside
      rw [← isEnd] at index
      contradiction
    · split
      · exact ih _
      · rfl

theorem shiftAll?_of_mem_end {grammar : PreparedGrammar}
    (generated : Generated grammar language.table) (member : SymbolId.endOfInput ∈ terminals) :
    simulation.shiftAll? language budget terminals = none := by
  induction terminals generalizing simulation with
  | nil => contradiction
  | cons terminal terminals ih =>
    rw [shiftAll?, Option.bind_eq_none_iff]
    intro next shifted
    rcases List.mem_cons.1 member with rfl | member
    · rw [shift?_end generated] at shifted
      contradiction
    · exact ih member

end Simulation

namespace ParseInput

variable {input : ParseInput} {wanted : SymbolId} {simulation : Simulation}
  {terminals : List SymbolId}

structure Admits (input : ParseInput) (wanted : SymbolId) (simulation : Simulation)
    (terminals : List SymbolId) (reached : Simulation) : Prop where
  shifted : simulation.shiftAll? input.language input.options.maxReduceSteps terminals =
    some reached
  fits : reached.fits input.language wanted input.options.maxReduceSteps = true

theorem admits_of_insertion? {count : Nat}
    (found : input.insertion? wanted count simulation = some terminals) :
    terminals.length = count ∧ ∃ reached, input.Admits wanted simulation terminals reached := by
  induction count generalizing simulation terminals with
  | zero =>
    rw [insertion?] at found
    split at found
    · next fits =>
      cases found
      exact ⟨rfl, simulation, rfl, fits⟩
    · contradiction
  | succ count ih =>
    obtain ⟨terminal, _, found⟩ := List.exists_of_findSome?_eq_some found
    simp only [Option.bind_eq_bind, Option.bind_eq_some_iff, Option.pure_def,
      Option.some.injEq] at found
    obtain ⟨next, shifted, rest, more, rfl⟩ := found
    obtain ⟨length, reached, admits⟩ := ih more
    refine ⟨congrArg _ length, reached, ?_, admits.fits⟩
    rw [Simulation.shiftAll?, shifted]
    exact admits.shifted

theorem not_admits_of_insertion? {reached : Simulation}
    (known : ∀ terminal ∈ terminals, terminal ∈ input.insertable)
    (exhausted : input.insertion? wanted terminals.length simulation = none) :
    ¬ input.Admits wanted simulation terminals reached := by
  rintro ⟨shifted, fits⟩
  induction terminals generalizing simulation with
  | nil =>
    cases shifted
    rw [List.length_nil, insertion?, if_pos fits] at exhausted
    contradiction
  | cons terminal terminals ih =>
    rw [Simulation.shiftAll?, Option.bind_eq_some_iff] at shifted
    obtain ⟨next, first, shifted⟩ := shifted
    obtain ⟨here, known⟩ := List.forall_mem_cons.1 known
    apply ih known ?_ shifted
    rw [List.length_cons, insertion?, List.findSome?_eq_none_iff] at exhausted
    rw [Option.eq_none_iff_forall_ne_some]
    simpa [first] using exhausted terminal here

theorem admits_of_shortestInsertion? {choices count : Nat}
    (found : input.shortestInsertion? wanted simulation choices count = some terminals) :
    terminals.length < count + choices ∧
      (∃ reached, input.Admits wanted simulation terminals reached) ∧
      ∀ fewer : List SymbolId, count ≤ fewer.length → fewer.length < terminals.length →
        (∀ terminal ∈ fewer, terminal ∈ input.insertable) →
          ∀ reached, ¬ input.Admits wanted simulation fewer reached := by
  induction choices generalizing count with
  | zero => contradiction
  | succ choices ih =>
    rw [shortestInsertion?] at found
    split at found
    · next first =>
      cases found
      obtain ⟨rfl, admits⟩ := admits_of_insertion? first
      refine ⟨by omega, admits, fun fewer least most => ?_⟩
      omega
    · next none =>
      obtain ⟨within, admits, shortest⟩ := ih found
      refine ⟨by omega, admits, fun fewer least most known reached => ?_⟩
      by_cases here : fewer.length = count
      · exact not_admits_of_insertion? known (here ▸ none)
      · exact shortest fewer (by omega) most known reached

theorem not_admits_of_shortestInsertion? {choices count : Nat}
    (exhausted : input.shortestInsertion? wanted simulation choices count = none)
    (least : count ≤ terminals.length) (most : terminals.length < count + choices)
    (known : ∀ terminal ∈ terminals, terminal ∈ input.insertable) (reached : Simulation) :
    ¬ input.Admits wanted simulation terminals reached := by
  induction choices generalizing count with
  | zero => omega
  | succ choices ih =>
    rw [shortestInsertion?] at exhausted
    split at exhausted
    · contradiction
    · next none =>
      by_cases here : terminals.length = count
      · exact not_admits_of_insertion? known (here ▸ none)
      · exact ih exhausted (by omega) (by omega)

def IsChain (input : ParseInput) (terminals : List SymbolId) : Prop :=
  ∀ terminal ∈ terminals, input.language.isTerminal terminal = true ∧
    input.language.isExtra terminal = false

theorem mem_insertable {terminal : SymbolId}
    (isTerminal : input.language.isTerminal terminal = true)
    (noEnd : terminal ≠ SymbolId.endOfInput)
    (noExtra : input.language.isExtra terminal = false) : terminal ∈ input.insertable := by
  have inside : terminal.index < input.language.table.terminalCount.toNat :=
    of_decide_eq_true isTerminal
  have positive : terminal.index ≠ 0 := fun first => noEnd (SymbolId.ext_index first)
  have few := input.language.table.terminalCount.toNat_lt
  rw [insertable, List.mem_filter, List.mem_map, noExtra]
  refine ⟨⟨terminal.index, ?_, SymbolId.ext_index (SymbolId.index_ofNat (by omega))⟩, rfl⟩
  rw [List.range_eq_range', List.drop_range', List.mem_range'_1]
  omega

theorem Admits.insertable {grammar : PreparedGrammar} {reached : Simulation}
    (admits : input.Admits wanted simulation terminals reached)
    (generated : Generated grammar input.language.table) (chain : input.IsChain terminals) :
    ∀ terminal ∈ terminals, terminal ∈ input.insertable := by
  intro terminal member
  obtain ⟨isTerminal, noExtra⟩ := chain terminal member
  refine mem_insertable isTerminal (fun atEnd => ?_) noExtra
  have shifted := admits.shifted
  rw [Simulation.shiftAll?_of_mem_end generated (atEnd ▸ member)] at shifted
  contradiction

def insertAll (input : ParseInput) (terminals : List SymbolId) (reach : Nat) (stack : Stack) :
    Stack :=
  terminals.foldl (fun stack terminal =>
    input.insertMissing terminal reach input.options.maxReduceSteps stack) stack

theorem shows_insertMissing {stack : Stack} {terminal : SymbolId} {next : Simulation}
    {budget : Nat} (steady : stack.Steady) (shows : simulation.Shows stack.states)
    (shifted : simulation.shift? input.language terminal budget = some next) (reach : Nat) :
    next.Shows (input.insertMissing terminal reach budget stack).states := by
  induction budget generalizing stack simulation with
  | zero => contradiction
  | succ budget ih =>
    have same : simulation.state = stack.state := shows.state.trans steady.state
    rw [Simulation.shift?, same] at shifted
    rw [insertMissing]
    split at shifted
    · next target found =>
      cases shifted
      rw [Stack.states_push rfl]
      exact shows.push target
    · split at shifted
      · next reduced done =>
        obtain ⟨symbol, childCount, production, target, chosen, enough, goes, shows⟩ :=
          shows.reduce?_eq_some done
        obtain ⟨grown, made, states⟩ := exists_reduce steady enough goes reach true production
        rw [chosen]
        dsimp only
        rw [made]
        exact ih (steady_reduce steady made) (states ▸ shows) shifted
      · contradiction

theorem shows_insertAll {stack : Stack} {reached : Simulation} (steady : stack.Steady)
    (shows : simulation.Shows stack.states)
    (shifted : simulation.shiftAll? input.language input.options.maxReduceSteps terminals =
      some reached) (reach : Nat) :
    reached.Shows (input.insertAll terminals reach stack).states := by
  induction terminals generalizing stack simulation with
  | nil =>
    cases shifted
    exact shows
  | cons terminal terminals ih =>
    rw [Simulation.shiftAll?, Option.bind_eq_some_iff] at shifted
    obtain ⟨next, first, shifted⟩ := shifted
    exact ih (steady_insertMissing steady terminal reach _)
      (shows_insertMissing steady shows first reach) shifted

end ParseInput

inductive Outcome.Uses (language : Language) (token : Token) : Outcome → Version → Prop
  | shifted {version : Version} {target : StateId}
      (chosen : .shift target ∈ language.actions version.state token.symbol) :
      Uses language token .shifted
        (version.shift (Subtree.leaf language token version.state false) target)
  | accepted {version : Version}
      (chosen : .accept ∈ language.actions version.state token.symbol) :
      Uses language token .accepted version

namespace Engine

variable {engine : Engine} {input : ParseInput} {version : Version} {rest : List Version}
  {token : Token} {simulation : Simulation}

/-- In some steps the current version comes through the round with the token, and those behind it
are left as they were. -/
def ComesThrough (engine : Engine) (input : ParseInput) (token : Token) (rest : List Version) :
    Prop :=
  ∃ steps last outcome version, after? input steps engine = some last ∧
    last.passed = engine.passed ++ [(outcome, version)] ∧ last.waiting = rest ∧
      outcome.Uses input.language token version

theorem ComesThrough.of_step (current : engine.waiting = version :: rest)
    (passed : (engine.step input).passed = engine.passed)
    (h : (engine.step input).ComesThrough input token rest) :
    engine.ComesThrough input token rest := by
  obtain ⟨steps, last, outcome, through, after, settled, waiting, uses⟩ := h
  refine ⟨steps + 1, last, outcome, through, ?_, passed ▸ settled, waiting, uses⟩
  rw [after?, if_neg (by simp [isDone, current])]
  exact after

theorem comesThrough_of_settled {outcome : Outcome} {through : Version}
    (current : engine.waiting = version :: rest)
    (passed : (engine.step input).passed = engine.passed ++ [(outcome, through)])
    (waiting : (engine.step input).waiting = rest)
    (uses : outcome.Uses input.language token through) : engine.ComesThrough input token rest := by
  refine ⟨1, engine.step input, outcome, through, ?_, passed, waiting, uses⟩
  rw [after?, if_neg (by simp [isDone, current]), after?]

theorem comesThrough_of_fits {budget : Nat} (current : engine.waiting = version :: rest)
    (here : version.lookahead = some (.token token)) (steady : version.stack.Steady)
    (shows : simulation.Shows version.stack.states)
    (decided : simulation.IsDecided input.language token.symbol)
    (fits : simulation.fits input.language token.symbol budget = true)
    (few : engine.reductions + budget ≤ input.options.maxReduceSteps) :
    engine.ComesThrough input token rest := by
  induction budget generalizing engine version simulation with
  | zero => contradiction
  | succ budget ih =>
    have same : simulation.state = version.state := shows.state.trans steady.state
    obtain ⟨action, only⟩ := List.length_eq_one_iff.1 (decided simulation .refl)
    have cell : input.language.actions version.state token.symbol = [action] := same ▸ only
    have stepped : engine.step input = engine.act input version rest (.token token) [action] := by
      rw [step, current]
      dsimp only
      rw [advance, here]
      dsimp only
      rw [advanceToken_of_filled (by simp [cell]), cell]
    cases action with
    | accept =>
      obtain ⟨passed, waiting⟩ := act_accept engine input version rest token
      exact comesThrough_of_settled current (stepped ▸ passed) (stepped ▸ waiting)
        (.accepted (by simp [cell]))
    | shift target =>
      rw [act_shift token target (by omega)] at stepped
      have chosen : .shift target ∈ input.language.actions version.state token.symbol := by
        simp [cell]
      exact comesThrough_of_settled current (by rw [stepped]; rfl) (by rw [stepped]; rfl)
        (.shifted chosen)
    | reduce symbol childCount dynamicPrecedence production =>
      simp only [Simulation.fits, only, List.any_cons, List.any_nil, Action.shiftTarget?,
        Action.isAccept, Option.isSome_none, Bool.or_false, Bool.false_or] at fits
      split at fits
      · next reduced done =>
        obtain ⟨_, _, _, target, chosen, enough, goes, later⟩ := shows.reduce?_eq_some done
        cases chosen
        obtain ⟨grown, made, states⟩ := ParseInput.exists_reduce steady enough goes token.reach
          (decide (engine.versionCount > 1)) production
        rw [act_reduction (by omega) made] at stepped
        have waiting : (engine.step input).waiting = { version with stack := grown } :: rest := by
          rw [stepped]
          rfl
        refine .of_step current (by rw [stepped]; rfl) (ih waiting here
          (ParseInput.steady_reduce steady made) (states ▸ later) (fun met meets => ?_) fits ?_)
        · exact decided met (.head (only ▸ done) meets)
        · rw [stepped]
          show engine.reductions + 1 + budget ≤ _
          omega
      · contradiction

def TakesNext (input : ParseInput) (stack : Stack) (wanted : SymbolId) : Prop :=
  ∀ (engine : Engine) (version : Version) (rest : List Version) (token : Token),
    engine.waiting = version :: rest → engine.reductions = 0 → version.stack = stack →
      version.lookahead = some (.token token) → token.symbol = wanted →
        engine.ComesThrough input token rest

structure Promises (input : ParseInput) (version : Version) (wanted : SymbolId)
    (terminals : List SymbolId) : Prop where
  within : terminals.length ≤ input.options.maxMissing
  /-- No shorter chain will do, nor will none at all where there is no action on `wanted`. -/
  shortest : ∀ fewer : List SymbolId, fewer.length < terminals.length → input.IsChain fewer →
    (fewer = [] → input.language.actions version.state wanted = []) →
      ∀ reached, ¬ input.Admits wanted (Simulation.ofStack version.stack) fewer reached
  inserted : ∃ reached, input.Admits wanted (Simulation.ofStack version.stack) terminals reached ∧
    ∀ reach, (input.insertAll terminals reach version.stack).states = reached.states ∧
      (reached.IsDecided input.language wanted →
        TakesNext input (input.insertAll terminals reach version.stack) wanted)

/-- What recovery knows of a version in front of `wanted` by the terminals that it found. -/
def Foresees (input : ParseInput) (version : Version) (wanted : SymbolId) :
    Option (List SymbolId) → Prop
  | some terminals => Promises input version wanted terminals
  | none => ∀ terminals : List SymbolId, terminals ≠ [] →
      terminals.length ≤ input.options.maxMissing → input.IsChain terminals →
        ∀ reached, ¬ input.Admits wanted (Simulation.ofStack version.stack) terminals reached

section Search

variable {grammar : PreparedGrammar} {wanted : SymbolId}
  (generated : Generated grammar input.language.table)

include generated

theorem promises_of_shortestInsertion? (steady : version.stack.Steady) {terminals : List SymbolId}
    (found : input.shortestInsertion? wanted (Simulation.ofStack version.stack)
      input.options.maxMissing 1 = some terminals) :
    Promises input version wanted terminals := by
  obtain ⟨within, ⟨reached, admits⟩, shortest⟩ := ParseInput.admits_of_shortestInsertion? found
  refine ⟨by omega, fun fewer less chain empty other admitted => ?_, reached, admits,
    fun reach => ?_⟩
  · cases fewer with
    | nil =>
      have fits := admitted.fits
      cases admitted.shifted
      rw [Simulation.fits_of_lacking (empty rfl)] at fits
      contradiction
    | cons first fewer =>
      exact shortest (first :: fewer) (by simp) less (admitted.insertable generated chain) other
        admitted
  · have inserted := ParseInput.shows_insertAll steady (Simulation.shows_ofStack steady)
      admits.shifted reach
    refine ⟨inserted.states.symm, ?_⟩
    rintro decided engine mended rest token current none same here rfl
    apply comesThrough_of_fits current here (same ▸ ?_) (same ▸ inserted) decided admits.fits
    · omega
    · exact ParseInput.steady_insertAll steady terminals reach _

theorem foresees_of_steady (steady : version.stack.Steady) :
    Foresees input version wanted (input.shortestInsertion? wanted
      (Simulation.ofStack version.stack) input.options.maxMissing 1) := by
  cases found : input.shortestInsertion? wanted (Simulation.ofStack version.stack)
      input.options.maxMissing 1 with
  | some terminals => exact promises_of_shortestInsertion? generated steady found
  | none =>
    intro terminals nonempty most chain reached admits
    have least := List.length_pos_iff.2 nonempty
    exact ParseInput.not_admits_of_shortestInsertion? found (by omega) (by omega)
      (admits.insertable generated chain) reached admits

end Search

/-- What recovery finds to insert holds good on the stack, and where it finds nothing, there is
nothing to find, whatever was edited and parsed before. -/
theorem foresees_of_parse {source : Grammar} {compiled : Compiled}
    (compiles : source.compile = .ok compiled) {language : Language} (built : language.IsBuilt)
    (table : language.table = compiled.table) {options : ParserOptions} {text : String}
    {old : Option Tree}
    (history : ∀ tree, old = some tree → tree.language.isSame language = true →
      tree.Arises language)
    (reached : Reaches (.ofText language options text)
      (begin (.ofText language options text) old) engine)
    (member : version ∈ engine.versions) (wanted : SymbolId) :
    Foresees (.ofText language options text) version wanted
      ((ParseInput.ofText language options text).shortestInsertion? wanted
        (Simulation.ofStack version.stack) options.maxMissing 1) := by
  obtain ⟨prepared, _, generated⟩ := generated_of_compile compiles
  have steady := steady_of_reaches built history reached
  exact foresees_of_steady (table ▸ generated) (steady.versions version member).stack

/-- Behind an extra at the end of the text the letter is found that the grammar asks for. -/
theorem foresees_of_parse_prefixed : ∃ language engine version, prefixLanguage = some language ∧
    Reaches (.ofText language .standard "#") (begin (.ofText language .standard "#") none) engine ∧
    version ∈ engine.versions ∧ version.stack.length = 1 ∧
    Foresees (.ofText language .standard "#") version SymbolId.endOfInput (some [⟨2⟩]) := by
  have runs : (prefixLanguage.any fun language =>
      (after? (.ofText language .standard "#") 3
        (begin (.ofText language .standard "#") none)).any fun engine =>
          engine.versions.any fun version => version.stack.length == 1 &&
            (ParseInput.ofText language .standard "#").shortestInsertion? SymbolId.endOfInput
              (Simulation.ofStack version.stack) 3 1 == some [⟨2⟩]) = true := by
    decide +kernel
  obtain ⟨language, built, runs⟩ := (Option.any_eq_true _ _).1 runs
  obtain ⟨engine, stepped, runs⟩ := (Option.any_eq_true _ _).1 runs
  obtain ⟨version, member, runs⟩ := List.any_eq_true.1 runs
  obtain ⟨extra, found⟩ := Bool.and_eq_true_iff.1 runs
  obtain ⟨compiled, compiles, laidOut⟩ := compile_prefixGrammar
  obtain ⟨isBuilt, table⟩ := isBuilt_of_prefixLanguage built
  have reached := reaches_of_after? stepped
  have foresees := foresees_of_parse compiles isBuilt (table.trans laidOut.symm) (by simp) reached
    member SymbolId.endOfInput
  rw [show (ParserOptions.standard).maxMissing = 3 from rfl, eq_of_beq found] at foresees
  exact ⟨language, engine, version, built, reached, member, eq_of_beq extra, foresees⟩

end Engine

end IncrementalGlr
