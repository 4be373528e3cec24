import Mathlib
import IncrementalGlr.Proofs.Grammar.Solution
import IncrementalGlr.Proofs.Lalr.Cores
import IncrementalGlr.Proofs.Lalr.Follow
import IncrementalGlr.Proofs.Lalr.Resolution

/-!
# Lookaheads and validity

A terminal is in the lookahead of an item of a state if and only if some symbols that lead to the
state make it expected there. It is expected wherever the item that calls a nonterminal is reached,
whether a lookahead makes that item valid or not. Where every nonterminal derives nothing or
something that begins with a terminal, both are the same, and the lookaheads are those of LALR(1).
-/

namespace IncrementalGlr

namespace PreparedGrammar

variable {grammar : PreparedGrammar}

/-- Every nonterminal derives nothing, or something that begins with a terminal. -/
def Alive (grammar : PreparedGrammar) : Prop :=
  ∀ index < grammar.nonterminals.size,
    grammar.Vanishes [.nonterminal index] ∨ ∃ terminal, grammar.Begins [.nonterminal index] terminal

theorem alive_of_productive (productive : ∀ index < grammar.nonterminals.size,
    (Preparation.productive grammar.nonterminals).getD index false = true) : grammar.Alive := by
  intro index inside
  obtain ⟨word, yields⟩ := Preparation.exists_yields_of_productive (productive index inside)
  cases word with
  | nil => exact .inl yields.rewrites
  | cons first rest => exact .inr ⟨first + 1, first, rest.map .terminal, rfl, yields.rewrites⟩

theorem Alive.steps (alive : grammar.Alive) {steps : List Step}
    (has : ∀ step ∈ steps, grammar.Has step.symbol) :
    grammar.Vanishes (steps.map (·.symbol)) ∨
      ∃ terminal, grammar.Begins (steps.map (·.symbol)) terminal := by
  induction steps with
  | nil => exact .inl (Rewrites.refl [])
  | cons step steps ih =>
    have own := has step (List.mem_cons_self ..)
    have first : grammar.Vanishes [step.symbol] ∨
        ∃ terminal, grammar.Begins [step.symbol] terminal := by
      cases symbol : step.symbol with
      | terminal index => exact .inr ⟨index + 1, index, [], rfl, Rewrites.refl _⟩
      | nonterminal index =>
        rw [symbol] at own
        exact alive index own
    rcases first with none | ⟨terminal, begins⟩
    · exact (ih fun other member => has other (List.mem_cons_of_mem _ member)).imp none.append
        (Exists.imp fun _ => none.begins)
    · exact .inr ⟨terminal, begins.append _⟩

end PreparedGrammar

namespace LrGrammar

variable {lr : LrGrammar} {item : Item} {symbols : List Sym} {id terminal : Nat} {state : LrState}

/-- The terminal is the lookahead of an LR(1) item that is valid for the symbols. -/
inductive Valid (lr : LrGrammar) : List Sym → Item → Nat → Prop
  | start : Valid lr [] ⟨lr.augmented, 0⟩ 0
  | call {symbols : List Sym} {item : Item} {lookahead terminal nonterminal production : Nat}
      {flat : FlatProduction} {step : Step} {rest : List Step}
      (caller : Valid lr symbols item lookahead) (here : lr.rest item = step :: rest)
      (called : step.symbol = .nonterminal nonterminal)
      (numbered : lr.productions[production]? = some (nonterminal, flat))
      (follows : lr.grammar.Begins (rest.map (·.symbol)) terminal ∨
        lr.grammar.Vanishes (rest.map (·.symbol)) ∧ terminal = lookahead) :
      Valid lr symbols ⟨production, 0⟩ terminal
  | read {symbols : List Sym} {item : Item} {terminal : Nat} {symbol : Sym}
      (before : Valid lr symbols item terminal) (at_ : lr.symbolAt? item = some symbol) :
      Valid lr (symbols ++ [symbol]) item.next terminal

/-- The terminal is expected behind the item. What may come next behind a nonterminal is expected
behind its productions wherever the item that calls it is reached. -/
inductive Expects (lr : LrGrammar) : List Sym → Item → Nat → Prop
  | start : Expects lr [] ⟨lr.augmented, 0⟩ 0
  | begins {symbols : List Sym} {item : Item} {terminal nonterminal production : Nat}
      {flat : FlatProduction} {step : Step} {rest : List Step}
      (caller : lr.Reaches symbols item) (here : lr.rest item = step :: rest)
      (called : step.symbol = .nonterminal nonterminal)
      (numbered : lr.productions[production]? = some (nonterminal, flat))
      (first : lr.grammar.Begins (rest.map (·.symbol)) terminal) :
      Expects lr symbols ⟨production, 0⟩ terminal
  | ends {symbols : List Sym} {item : Item} {terminal nonterminal production : Nat}
      {flat : FlatProduction} {step : Step} {rest : List Step}
      (caller : Expects lr symbols item terminal) (here : lr.rest item = step :: rest)
      (called : step.symbol = .nonterminal nonterminal)
      (numbered : lr.productions[production]? = some (nonterminal, flat))
      (none : lr.grammar.Vanishes (rest.map (·.symbol))) :
      Expects lr symbols ⟨production, 0⟩ terminal
  | read {symbols : List Sym} {item : Item} {terminal : Nat} {symbol : Sym}
      (before : Expects lr symbols item terminal) (at_ : lr.symbolAt? item = some symbol) :
      Expects lr (symbols ++ [symbol]) item.next terminal

theorem symbolAt?_of_rest {step : Step} {rest : List Step} (here : lr.rest item = step :: rest) :
    lr.symbolAt? item = some step.symbol := by
  rw [symbolAt?, here]
  rfl

theorem Expects.reaches (expects : lr.Expects symbols item terminal) :
    lr.Reaches symbols item := by
  induction expects with
  | start => exact .start
  | begins caller here called numbered _ =>
    exact caller.call ((symbolAt?_of_rest here).trans (congrArg some called)) numbered
  | ends _ here called numbered _ ih =>
    exact ih.call ((symbolAt?_of_rest here).trans (congrArg some called)) numbered
  | read _ at_ ih => exact ih.read at_

theorem Expects.contains (expects : lr.Expects symbols item terminal) (closed : lr.Closed)
    (sound : lr.first.Sound lr.grammar) (leads : lr.Leads symbols id)
    (found : lr.states[id]? = some state) :
    (lr.lookaheadIn (lr.lookaheads lr.states) id state item).contains terminal = true := by
  have automaton := closed.numbered.automaton
  have complete := closed.complete lr.states
  induction expects generalizing id state with
  | start =>
    obtain ⟨first, there, kernel⟩ := automaton.start
    cases leads.nil
    cases found.symm.trans there
    exact complete.at_start there kernel
  | begins caller here called numbered first =>
    exact complete.calls closed automaton found ((leads.mem_items_iff closed found).2 caller) here
      called numbered (.inl ((FirstSets.begins_iff closed.first sound).2 first))
  | ends caller here called numbered none ih =>
    exact complete.calls closed automaton found
      ((leads.mem_items_iff closed found).2 caller.reaches) here called numbered
      (.inr ⟨(FirstSets.vanishes_iff closed.first sound).2 none, ih leads found⟩)
  | read before at_ ih =>
    obtain ⟨_, _, leads, there, transition⟩ := leads.append
    exact complete.passes automaton there ((leads.mem_items_iff closed there).2 before.reaches) at_
      transition found (ih leads there)

theorem upper_expects (closed : lr.Closed) (sound : lr.first.Sound lr.grammar) :
    lr.Upper lr.states fun id item terminal =>
      ∃ symbols, lr.Leads symbols id ∧ lr.Expects symbols item terminal where
  start := ⟨[], .start, .start⟩
  begins found there here called numbered first := by
    obtain ⟨symbols, leads⟩ := closed.exists_leads found
    exact ⟨symbols, leads, .begins ((leads.mem_items_iff closed found).1 there) here called numbered
      ((FirstSets.begins_iff closed.first sound).1 first)⟩
  ends found there here called numbered none := by
    rintro ⟨symbols, leads, expects⟩
    exact ⟨symbols, leads, .ends expects here called numbered
      ((FirstSets.vanishes_iff closed.first sound).1 none)⟩
  passes found there at_ transition := by
    rintro ⟨symbols, leads, expects⟩
    exact ⟨_, leads.read found transition, expects.read at_⟩

/-- The lookahead of an item of a state is what is expected behind it on the ways to the state. -/
theorem Closed.contains_lookaheadIn (closed : lr.Closed) (sound : lr.first.Sound lr.grammar)
    (found : lr.states[id]? = some state) (there : item ∈ lr.items state.kernel) :
    (lr.lookaheadIn (lr.lookaheads lr.states) id state item).contains terminal = true ↔
      ∃ symbols, lr.Leads symbols id ∧ lr.Expects symbols item terminal := by
  constructor
  · exact (upper_expects closed sound).bounds_lookaheads closed closed.numbered.automaton found
      there terminal
  · rintro ⟨symbols, leads, expects⟩
    exact expects.contains closed sound leads found

theorem Closed.mem_reductions_iff (closed : lr.Closed) (sound : lr.first.Sound lr.grammar)
    (found : lr.states[id]? = some state) {production : Nat} :
    production ∈ lr.reductions state ((lr.lookaheads lr.states).getD id []) terminal ↔
      production ≠ lr.augmented ∧ ∃ symbols, lr.Leads symbols id ∧
        lr.Expects symbols ⟨production, (lr.stepsOf production).length⟩ terminal := by
  have automaton := closed.numbered.automaton
  rw [mem_reductions ((closed.complete lr.states).suit.length found)]
  refine and_congr_right fun _ => ?_
  constructor
  · rintro ⟨item, there, rfl, complete, follows⟩
    rw [← (automaton.proper found).dot_of_isComplete closed.numbered there complete]
    exact (closed.contains_lookaheadIn sound found there).1 follows
  · rintro ⟨symbols, leads, expects⟩
    exact ⟨_, (leads.mem_items_iff closed found).2 expects.reaches, rfl,
      isComplete_iff.2 (Nat.le_refl _), expects.contains closed sound leads found⟩

theorem Valid.expects (valid : lr.Valid symbols item terminal) :
    lr.Expects symbols item terminal := by
  induction valid with
  | start => exact .start
  | call _ here called numbered follows ih =>
    rcases follows with first | ⟨none, rfl⟩
    · exact .begins ih.reaches here called numbered first
    · exact .ends ih here called numbered none
  | read _ at_ ih => exact ih.read at_

theorem Reaches.exists_valid (reaches : lr.Reaches symbols item) (closed : lr.Closed)
    (alive : lr.grammar.Alive) : ∃ terminal, lr.Valid symbols item terminal := by
  induction reaches with
  | start => exact ⟨0, .start⟩
  | @call symbols item nonterminal _ _ _ called numbered ih =>
    obtain ⟨lookahead, valid⟩ := ih
    obtain ⟨step, symbol, here⟩ := rest_of_symbolAt? called
    have has : ∀ other ∈ lr.rest item.next, lr.grammar.Has other.symbol :=
      fun other member => closed.has_step _ (List.mem_of_mem_drop member)
    rcases alive.steps has with none | ⟨terminal, begins⟩
    · exact ⟨lookahead, .call valid here symbol numbered (.inr ⟨none, rfl⟩)⟩
    · exact ⟨terminal, .call valid here symbol numbered (.inl begins)⟩
  | read _ at_ ih => exact ih.imp fun _ valid => valid.read at_

theorem Expects.valid (expects : lr.Expects symbols item terminal) (closed : lr.Closed)
    (alive : lr.grammar.Alive) : lr.Valid symbols item terminal := by
  induction expects with
  | start => exact .start
  | begins caller here called numbered first =>
    obtain ⟨lookahead, valid⟩ := caller.exists_valid closed alive
    exact .call valid here called numbered (.inl first)
  | ends _ here called numbered none ih => exact .call ih here called numbered (.inr ⟨none, rfl⟩)
  | read _ at_ ih => exact ih.read at_

/-- The states are the cores of what symbols lead to, each once, and where the grammar has no dead
ends, a state can reduce a production on a terminal if and only if the item of the whole production
is valid with that lookahead for some symbols that lead to the state. -/
theorem lalr_of_alive {grammar : PreparedGrammar} (wellFormed : grammar.WellFormed)
    (alive : grammar.Alive) :
    (∀ (id : Nat) state, (ofGrammar grammar).states[id]? = some state → ∃ symbols,
      ((ofGrammar grammar).core symbols).Nonempty ∧
        {item | item ∈ state.kernel} = (ofGrammar grammar).core symbols) ∧
    (∀ symbols, ((ofGrammar grammar).core symbols).Nonempty →
      ∃! id : Nat, ∃ state, (ofGrammar grammar).states[id]? = some state ∧
        {item | item ∈ state.kernel} = (ofGrammar grammar).core symbols) ∧
    ∀ (id : Nat) state, (ofGrammar grammar).states[id]? = some state → ∀ production terminal,
      production ∈ (ofGrammar grammar).reductions state
          (((ofGrammar grammar).lookaheads (ofGrammar grammar).states).getD id []) terminal ↔
        production ≠ (ofGrammar grammar).augmented ∧ ∃ symbols,
          (ofGrammar grammar).Leads symbols id ∧ (ofGrammar grammar).Valid symbols
            ⟨production, ((ofGrammar grammar).stepsOf production).length⟩ terminal := by
  have closed := closed_ofGrammar wellFormed
  refine ⟨fun id state found => closed.exists_core found,
    fun symbols nonempty => closed.existsUnique_state nonempty,
    fun id state found production terminal => ?_⟩
  rw [closed.mem_reductions_iff (FirstSets.sound_ofGrammar grammar) found]
  refine and_congr_right fun _ => exists_congr fun symbols => and_congr_right fun _ => ?_
  exact ⟨fun expects => expects.valid closed alive, Valid.expects⟩

/-- An `s` is a `c`, or a `b`, a `t` and an `x`, where a `b` is a `c`, and an `x` begins with
another. -/
def deadEnd : PreparedGrammar where
  name := "dead end"
  terminals := #["t", "c", "y"].map fun text => ⟨text, true, false, none, 0, false, true, false⟩
  nonterminals := #[
    ⟨"s", true, false, [single [.terminal 1], single [.nonterminal 1, .nonterminal 3]]⟩,
    ⟨"a", true, false, [single [.nonterminal 2, .terminal 0]]⟩,
    ⟨"b", true, false, [single [.terminal 1]]⟩,
    ⟨"x", true, false, [single [.nonterminal 3, .terminal 2]]⟩]
  extras := []
  externals := []
  word := none
  reserved := []
  precedences := []
where
  single (symbols : List Sym) : FlatProduction := ⟨symbols.map Step.plain, 0⟩

theorem wellFormed_deadEnd : deadEnd.WellFormed where
  start := by decide
  steps {nonterminal} production member step there := by
    rcases nonterminal with _ | _ | _ | _ | nonterminal <;>
      simp [PreparedGrammar.productionsOf, deadEnd, deadEnd.single] at member
    · rcases member with rfl | rfl <;> simp at there <;> rcases there with rfl | rfl <;>
        simp [PreparedGrammar.Has, deadEnd, Step.plain]
    all_goals
      subst member
      simp at there
      rcases there with rfl | rfl <;> simp [PreparedGrammar.Has, deadEnd, Step.plain]

theorem rest_deadEnd {step : Step} {rest : List Step} {nonterminal : Nat}
    (here : (ofGrammar deadEnd).rest item = step :: rest)
    (called : step.symbol = .nonterminal nonterminal) :
    (nonterminal = 1 → rest = [.plain (.nonterminal 3)]) ∧
      (nonterminal = 2 → item.production = 2) := by
  obtain ⟨p, dot⟩ := item
  rcases p with _ | _ | _ | _ | _ | p <;> rcases dot with _ | _ | dot <;>
    simp [LrGrammar.rest, stepsOf, ofGrammar, deadEnd, deadEnd.single] at here
  all_goals
    obtain ⟨rfl, rfl⟩ := here
    cases called <;> simp

theorem nonterminal_deadEnd {production nonterminal : Nat} {flat : FlatProduction}
    (numbered : (ofGrammar deadEnd).productions[production]? = some (nonterminal, flat)) :
    (production = 2 → nonterminal = 1) ∧ (production = 3 → nonterminal = 2) := by
  constructor <;> rintro rfl <;> cases numbered <;> rfl

theorem first_deadEnd : (FirstSets.ofGrammar deadEnd).ofSteps [.plain (.nonterminal 3)]
    = (BitSet.empty, false) := by
  cbv

theorem dead_deadEnd : ¬ deadEnd.Vanishes [.nonterminal 3] ∧
    ∀ terminal, ¬ deadEnd.Begins [.nonterminal 3] terminal := by
  have closed := (closed_ofGrammar wellFormed_deadEnd).first
  have sound := FirstSets.sound_ofGrammar deadEnd
  refine ⟨fun vanishes => ?_, fun terminal begins => ?_⟩
  · have nullable : ((FirstSets.ofGrammar deadEnd).ofSteps [.plain (.nonterminal 3)]).2 = true :=
      (FirstSets.vanishes_iff closed sound).2 vanishes
    rw [first_deadEnd] at nullable
    contradiction
  · have member : ((FirstSets.ofGrammar deadEnd).ofSteps
        [.plain (.nonterminal 3)]).1.contains terminal = true :=
      (FirstSets.begins_iff closed sound).2 begins
    simp [first_deadEnd] at member

/-- Behind a `c`, a `b` is reduced before a `t`, though no terminal is a valid lookahead of it. -/
theorem reduces_deadEnd :
    (∃ id state, (ofGrammar deadEnd).Leads [.terminal 1] id ∧
      (ofGrammar deadEnd).states[id]? = some state ∧
      3 ∈ (ofGrammar deadEnd).reductions state
        (((ofGrammar deadEnd).lookaheads (ofGrammar deadEnd).states).getD id []) 1) ∧
    ∀ symbols terminal, ¬ (ofGrammar deadEnd).Valid symbols ⟨3, 1⟩ terminal := by
  have closed := closed_ofGrammar wellFormed_deadEnd
  constructor
  · have caller : (ofGrammar deadEnd).Reaches [] ⟨2, 0⟩ :=
      .call (.call .start rfl (show (ofGrammar deadEnd).productions[1]? = _ from rfl)) rfl rfl
    have expects : (ofGrammar deadEnd).Expects [.terminal 1] ⟨3, 1⟩ 1 := by
      refine @Expects.read _ [] _ _ _ (.begins caller rfl rfl rfl ?_) rfl
      exact ⟨0, [], rfl, PreparedGrammar.Rewrites.refl _⟩
    obtain ⟨id, leads⟩ := expects.reaches.exists_leads closed
    obtain ⟨state, found⟩ := leads.exists_state closed
    refine ⟨id, state, leads, found, ?_⟩
    exact (closed.mem_reductions_iff (FirstSets.sound_ofGrammar deadEnd) found).2
      ⟨by decide, _, leads, expects⟩
  · have never : ∀ symbols item terminal, (ofGrammar deadEnd).Valid symbols item terminal →
        item.production ≠ 2 ∧ item.production ≠ 3 := by
      intro symbols item terminal valid
      induction valid with
      | start => decide
      | call _ here called numbered follows ih =>
        obtain ⟨isA, isB⟩ := nonterminal_deadEnd numbered
        obtain ⟨onlyX, onlyA⟩ := rest_deadEnd here called
        refine ⟨fun same => ?_, fun same => ih.1 (onlyA (isB same))⟩
        rw [onlyX (isA same)] at follows
        exact follows.elim (dead_deadEnd.2 _) fun both => dead_deadEnd.1 both.1
      | read _ _ ih => exact ih
    exact fun symbols terminal valid => (never _ _ _ valid).2 rfl

end LrGrammar

end IncrementalGlr
