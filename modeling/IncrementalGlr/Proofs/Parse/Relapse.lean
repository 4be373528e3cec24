import IncrementalGlr.Proofs.Parse.Rounds
import IncrementalGlr.Proofs.Parse.Simulation

/-!
# A parse that does not end

Every round ends, but there need not be a last one. Recovery tries whether a token fits with one
action of each cell, while a version counts all reductions of a cell. Where the limit lies between
the two, a node is given up so that the token fits, the same node is made again, and the next round
starts in front of the same token, with one more ERROR node on the stack.
-/

namespace IncrementalGlr

namespace Stack

variable {stack : Stack}

def IsIdle (stack : Stack) : Prop :=
  ∀ entry ∈ stack, entry.subtree.isExtra = true ∧ entry.state = StateId.start

theorem IsIdle.state (idle : stack.IsIdle) : stack.state = StateId.start := by
  cases stack with
  | nil => rfl
  | cons entry below => exact (idle entry (List.mem_cons_self ..)).2

theorem IsIdle.states (idle : stack.IsIdle) : stack.states = [] := by
  rw [Stack.states, List.map_eq_nil_iff, List.filter_eq_nil_iff]
  intro entry member
  simp [(idle entry member).1]

theorem IsIdle.steady (idle : stack.IsIdle) : stack.Steady := by
  induction stack with
  | nil => trivial
  | cons entry below ih =>
    have lower : Stack.IsIdle below := fun other member => idle other (List.mem_cons_of_mem _ member)
    exact ⟨fun _ => (idle entry (List.mem_cons_self ..)).2.trans lower.state.symm, ih lower⟩

theorem IsIdle.take (idle : stack.IsIdle) (count : Nat) : stack.take (count + 1) = none := by
  induction stack with
  | nil => rfl
  | cons entry below ih =>
    rw [Stack.take, if_pos (idle entry (List.mem_cons_self ..)).1,
      ih fun other member => idle other (List.mem_cons_of_mem _ member)]
    rfl

theorem IsIdle.push (idle : stack.IsIdle) {tree : Subtree} (outside : tree.isExtra = true) :
    (stack.push tree stack.state).IsIdle := by
  intro entry member
  rcases List.mem_cons.1 member with rfl | member
  · exact ⟨outside, idle.state⟩
  · exact idle entry member

theorem pop_zero (stack : Stack) : stack.pop 0 = some ⟨stack, [], []⟩ := by
  simp [pop, popEntries, Stack.take]

end Stack

namespace Engine

variable {engine : Engine} {input : ParseInput} {version mended : Version} {rest : List Version}
  {token : Token}

theorem act_exceeding {actions : List Action} {lookahead : Lookahead}
    (noAccept : actions.any (·.isAccept) = false)
    (exceeds : input.options.maxReduceSteps <
      engine.reductions + (actions.filterMap Action.reduction?).length) :
    engine.act input version rest lookahead actions = engine.settle .stuck version rest := by
  unfold act
  dsimp only
  rw [noAccept, if_neg Bool.false_ne_true, if_pos exceeds]

theorem condense_single (version : Version) : condense input [version] = [version] := by
  have merged : [version].foldl mergeInto [] = [version] := rfl
  have taken : [version].take (max input.options.maxVersions 1) = [version] :=
    List.take_of_length_le (Nat.le_max_right ..)
  rw [condense, merged, List.mergeSort_singleton, taken, ite_self]

theorem endRound_of_stuck (passed : engine.passed = [(.stuck, version)])
    (unfinished : engine.finished = none) (recovered : input.recover version = .version mended) :
    engine.endRound input =
      { engine with passed := [], waiting := [mended], reductions := 0 } := by
  have survivors : engine.survivors input = (engine, [mended]) := by
    rw [survivors, passed, unfinished]
    simp [best?, recovered]
  rw [endRound, survivors]
  dsimp only
  rw [unfinished]
  simp [condense_single]

end Engine

namespace ParseInput

variable {input : ParseInput} {stack : Stack}

theorem reduce_empty {symbol : SymbolId} {next : StateId}
    (goes : input.language.goto? stack.state symbol = some next) (reach : Nat)
    (production : ProductionId) : input.reduce stack reach false symbol 0 production =
      some (stack.push ((Subtree.ofProduction input.language symbol production []).withReach
        (reach - stack.position.bytes)) next) := by
  rw [reduce, show (0 : UInt16).toNat = 0 from rfl, Stack.pop_zero]
  simp [goes]

theorem cheapestFold?_of_isIdle (idle : stack.IsIdle) {wanted : SymbolId} {entry : StackEntry}
    (counted : entry.subtree.isExtra = false) (depth : 0 < input.options.maxPopDepth)
    (fits : (Simulation.ofStack stack).fits input.language wanted input.options.maxReduceSteps
      = true) :
    input.cheapestFold? wanted (entry :: stack) =
      some (stack, Subtree.errorNode input.language [entry.subtree]) := by
  obtain ⟨k, depths⟩ : ∃ k, min input.options.maxPopDepth (entry :: stack).length = k + 1 :=
    ⟨_, (Nat.succ_pred_eq_of_pos (Nat.lt_min.2 ⟨depth, Nat.succ_pos _⟩)).symm⟩
  have first : Stack.popEntries (entry :: stack) (0 + 1) = some ([entry.subtree], stack) := by
    simp [Stack.popEntries, Stack.take, counted]
  have deeper : ∀ count, Stack.popEntries (entry :: stack) (count + 1 + 1) = none := by
    intro count
    simp [Stack.popEntries, Stack.take, counted, idle.take count]
  rw [cheapestFold?, depths, List.range_succ_eq_map, List.foldl_cons, List.foldl_map, first]
  dsimp only
  rw [if_pos fits, Option.all_none, if_pos rfl]
  refine List.foldl_fixed' (fun count => ?_) _
  rw [Nat.succ_eq_add_one, deeper]

end ParseInput

/-- What leads a parse back to where it was: in front of the token the start state reduces an empty
production, in the state behind it the reductions exceed the limit although the token could be
shifted, and no way to mend that is cheaper than to give the node up. -/
structure Relapse (input : ParseInput) (token : Token) where
  symbol : SymbolId
  dynamicPrecedence : Int16
  production : ProductionId
  next : StateId
  reduces : input.language.actions StateId.start token.symbol =
    [.reduce symbol 0 dynamicPrecedence production]
  goes : input.language.goto? StateId.start symbol = some next
  shifts : (input.language.actions next token.symbol).any (·.shiftTarget?.isSome) = true
  noAccept : (input.language.actions next token.symbol).any (·.isAccept) = false
  enough : 2 ≤ input.options.maxReduceSteps
  exceeds : input.options.maxReduceSteps <
    1 + ((input.language.actions next token.symbol).filterMap Action.reduction?).length
  depth : 0 < input.options.maxPopDepth
  noError : token.isError = false
  noInsertion :
    input.shortestInsertion? token.symbol ⟨[], [next]⟩ input.options.maxMissing 1 = none
  cheapest : ∀ cost ∈ input.skipCost? next token, (Subtree.errorNode input.language
    [Subtree.ofProduction input.language symbol production []]).errorCost ≤ cost

namespace Relapse

variable {input : ParseInput} {token : Token} (relapse : Relapse input token) {stack : Stack}
  {engine : Engine}

def node (reach : Nat) : Subtree :=
  (Subtree.ofProduction input.language relapse.symbol relapse.production []).withReach reach

def behind (stack : Stack) (reach : Nat) (mode : Option LexModeId) : Version :=
  ⟨stack.push (relapse.node reach) relapse.next, some (.token token), mode⟩

inductive Holds (engine : Engine) : Prop
  | starts {stack : Stack} (idle : stack.IsIdle) (mode : Option LexModeId)
      (passed : engine.passed = [])
      (waiting : engine.waiting = [⟨stack, some (.token token), mode⟩])
      (reductions : engine.reductions = 0) (unfinished : engine.finished = none)
  | reduced {stack : Stack} (idle : stack.IsIdle) (mode : Option LexModeId) (reach : Nat)
      (passed : engine.passed = []) (waiting : engine.waiting = [relapse.behind stack reach mode])
      (reductions : engine.reductions = 1) (unfinished : engine.finished = none)
  | stuck {stack : Stack} (idle : stack.IsIdle) (mode : Option LexModeId) (reach : Nat)
      (passed : engine.passed = [(.stuck, relapse.behind stack reach mode)])
      (waiting : engine.waiting = []) (unfinished : engine.finished = none)

include relapse in
theorem fits (idle : stack.IsIdle) : (Simulation.ofStack stack).fits input.language token.symbol
    input.options.maxReduceSteps = true := by
  obtain ⟨budget, steps⟩ : ∃ budget, input.options.maxReduceSteps = budget + 1 + 1 :=
    ⟨_, (Nat.sub_add_cancel relapse.enough).symm⟩
  have state : (Simulation.ofStack stack).state = StateId.start := idle.state
  have reduced : (Simulation.ofStack stack).reduce? input.language
      [.reduce relapse.symbol 0 relapse.dynamicPrecedence relapse.production] =
        some ((Simulation.ofStack stack).push relapse.next) := by
    simp [Simulation.reduce?, Action.reduction?, Simulation.pop, state, relapse.goes]
  have shifts : ((Simulation.ofStack stack).push relapse.next).fits input.language token.symbol
      (budget + 1) = true := by
    have shifts := relapse.shifts
    rw [List.any_eq_true] at shifts
    obtain ⟨action, chosen, isShift⟩ := shifts
    rw [Simulation.fits, Bool.or_eq_true]
    exact .inl (List.any_eq_true.2 ⟨action, chosen, by rw [isShift, Bool.true_or]⟩)
  rw [steps, Simulation.fits, state, relapse.reduces, reduced]
  dsimp only
  rw [shifts, Bool.or_true]

theorem recover_behind (idle : stack.IsIdle) (reach : Nat) (mode : Option LexModeId) :
    input.recover (relapse.behind stack reach mode) =
      .version ⟨stack.push (Subtree.errorNode input.language [relapse.node reach]) stack.state,
        some (.token token), mode⟩ := by
  have counted : (relapse.node reach).isExtra = false := rfl
  have alike : (Simulation.ofStack (relapse.behind stack reach mode).stack).Alike
      ⟨[], [relapse.next]⟩ := by
    refine ⟨[relapse.next], ⟨idle.steady.push fun outside => ?_, ?_⟩, trivial, rfl⟩
    · simp [counted] at outside
    · rw [Simulation.states_ofStack, behind, Stack.states_push counted, idle.states]
  have fold : input.cheapestFold? token.symbol (relapse.behind stack reach mode).stack =
      some (stack, Subtree.errorNode input.language [relapse.node reach]) :=
    ParseInput.cheapestFold?_of_isIdle idle counted relapse.depth (relapse.fits idle)
  have cost : (Subtree.errorNode input.language [relapse.node reach]).errorCost =
      (Subtree.errorNode input.language [Subtree.ofProduction input.language relapse.symbol
        relapse.production []]).errorCost := rfl
  rw [ParseInput.recover, show input.nextToken (relapse.behind stack reach mode) = token from rfl]
  dsimp only
  rw [relapse.noError, ParseInput.shortestInsertion?_congr alike, relapse.noInsertion, fold]
  dsimp only
  rw [if_neg Bool.false_ne_true, ParseInput.giveUp]
  dsimp only
  rw [if_neg]
  · rfl
  · rw [Option.any_eq_true]
    rintro ⟨other, found, less⟩
    have le := relapse.cheapest other found
    rw [← cost] at le
    exact Nat.not_lt.2 le (of_decide_eq_true less)

variable {relapse}

theorem Holds.step (holds : relapse.Holds engine) : relapse.Holds (engine.step input) := by
  cases holds with
  | @starts stack idle mode passed waiting reductions unfinished =>
    have state : Version.state ⟨stack, some (.token token), mode⟩ = StateId.start := idle.state
    have reduced := ParseInput.reduce_empty (idle.state ▸ relapse.goes) token.reach
      relapse.production
    rw [Engine.step, waiting]
    change relapse.Holds (engine.advanceToken input _ [] token)
    rw [Engine.advanceToken_of_filled (by simp [state, relapse.reduces]), state, relapse.reduces]
    have enough := relapse.enough
    have single : decide (engine.versionCount > 1) = false := by
      simp [Engine.versionCount, passed, waiting]
    rw [Engine.act_reduction (by omega) (single ▸ reduced)]
    exact .reduced idle mode (token.reach - stack.position.bytes) passed rfl
      (by rw [Engine.proceed, reductions]) unfinished
  | @reduced stack idle mode reach passed waiting reductions unfinished =>
    rw [Engine.step, waiting]
    change relapse.Holds (engine.advanceToken input _ [] token)
    have state : Version.state (relapse.behind stack reach mode) = relapse.next := rfl
    have filled : input.language.actions relapse.next token.symbol ≠ [] := by
      intro none
      have shifts := relapse.shifts
      rw [none] at shifts
      contradiction
    rw [Engine.advanceToken_of_filled (by rwa [state]), state,
      Engine.act_exceeding (by simp [relapse.noAccept]) (by rw [reductions]; exact relapse.exceeds)]
    exact .stuck idle mode reach (by rw [Engine.settle, passed, List.nil_append]) rfl unfinished
  | @stuck stack idle mode reach passed waiting unfinished =>
    rw [Engine.step, waiting]
    change relapse.Holds (engine.endRound input)
    rw [Engine.endRound_of_stuck passed unfinished (relapse.recover_behind idle reach mode)]
    exact .starts (idle.push rfl) mode rfl rfl rfl unfinished

theorem Holds.isDone (holds : relapse.Holds engine) : engine.isDone = false := by
  cases holds with
  | starts _ _ _ waiting => simp [Engine.isDone, waiting]
  | reduced _ _ _ _ waiting => simp [Engine.isDone, waiting]
  | stuck _ _ _ passed => simp [Engine.isDone, passed]

theorem Holds.run_eq_none (holds : relapse.Holds engine) (fuel : Nat) :
    Engine.run input fuel engine = none := by
  induction fuel generalizing engine with
  | zero => rfl
  | succ fuel ih =>
    rw [Engine.run, if_neg (by simp [holds.isDone])]
    exact ih holds.step

theorem parseWithin_eq_none {language : Language} {options : ParserOptions} {text : String}
    (relapse : Relapse (ParseInput.ofText language options text)
      ((ParseInput.ofText language options text).lex []
        (language.lexModeOfState StateId.start))) (fuel : Nat) :
    parseWithin fuel language options text none = none := by
  cases fuel with
  | zero => rfl
  | succ fuel =>
    have goesOn : (Engine.begin (ParseInput.ofText language options text) none).isDone = false :=
      rfl
    rw [parseWithin, Option.map_eq_none_iff, Engine.run, goesOn, if_neg Bool.false_ne_true]
    have holds : relapse.Holds ((Engine.begin (ParseInput.ofText language options text) none).step
        (ParseInput.ofText language options text)) := by
      rw [show Engine.step (Engine.begin (ParseInput.ofText language options text) none) _
        = Engine.look _ _ Version.start [] from rfl, Engine.look_eq rfl]
      exact .starts (fun _ absent => absurd absent List.not_mem_nil) _ rfl rfl rfl rfl
    exact holds.run_eq_none fuel

end Relapse

def relapseTable : Table where
  name := "relapse"
  symbols := #[⟨"end", false, true, false⟩, ⟨"a", true, false, false⟩, ⟨"s", true, true, false⟩,
    ⟨"e", true, true, false⟩, ⟨"x", true, true, false⟩, ⟨"y", true, true, false⟩]
  terminalCount := 2
  ruleCount := 4
  startSymbol := ⟨2⟩
  fieldNames := #[]
  productions := #[⟨⟨2⟩, 0, List.replicate 2 ⟨none, none⟩⟩, ⟨⟨2⟩, 0, List.replicate 3 ⟨none, none⟩⟩,
    ⟨⟨2⟩, 0, List.replicate 3 ⟨none, none⟩⟩, ⟨⟨3⟩, 0, []⟩, ⟨⟨4⟩, 0, []⟩, ⟨⟨5⟩, 0, []⟩]
  stateCount := 8
  actionIndex := #[0, 1, 2, 0, 0, 3, 4, 0, 0, 5, 0, 6, 7, 0, 8, 0]
  actionLists := #[[], [.reduce ⟨3⟩ 0 0 ⟨3⟩], [.accept],
    [.shift ⟨3⟩, .reduce ⟨4⟩ 0 0 ⟨4⟩, .reduce ⟨5⟩ 0 0 ⟨5⟩], [.reduce ⟨2⟩ 2 0 ⟨0⟩], [.shift ⟨6⟩],
    [.shift ⟨7⟩], [.reduce ⟨2⟩ 3 0 ⟨1⟩], [.reduce ⟨2⟩ 3 0 ⟨2⟩]]
  gotos := #[⟨1⟩, ⟨2⟩] ++ Array.replicate 8 StateId.none ++ #[⟨4⟩, ⟨5⟩]
    ++ Array.replicate 20 StateId.none
  allowsExtras := Array.replicate 8 true
  extras := []
  externalTokens := #[]
  wordToken := none
  keywords := []
  lexStates := #[⟨#[⟨97, 97, 1⟩], []⟩, ⟨#[], [⟨1⟩]⟩]
  lexStart := 0

def relapseLanguage : Language :=
  (Language.ofTable relapseTable none 1).toOption.get (by decide +kernel)

theorem parseWithin_relapseLanguage (fuel : Nat) :
    parseWithin fuel relapseLanguage { ParserOptions.standard with maxReduceSteps := 2 } "a" none
      = none := by
  refine Relapse.parseWithin_eq_none
    ⟨⟨3⟩, 0, ⟨3⟩, ⟨2⟩, ?_, ?_, ?_, ?_, ?_, ?_, ?_, ?_, ?_, ?_⟩ fuel
  all_goals decide +kernel

end IncrementalGlr
