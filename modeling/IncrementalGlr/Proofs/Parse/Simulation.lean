import IncrementalGlr.Proofs.Parse.StackStates

/-!
# Simulations of a stack

A simulation goes by the states of its stack alone: two of them that stand for the same states
shift, reduce and fit in the same way, however the states are divided between subtrees, extras and
states that were pushed.
-/

namespace IncrementalGlr

namespace Simulation

variable {language : Language} {terminal : SymbolId} {simulation other : Simulation}
  {trace : StateTrace} {actions : List Action}

def states (simulation : Simulation) : StateTrace := simulation.pushed ++ simulation.base.states

@[simp] theorem states_ofStack (stack : Stack) : (ofStack stack).states = stack.states := rfl

@[simp] theorem states_push (simulation : Simulation) (state : StateId) :
    (simulation.push state).states = state :: simulation.states := rfl

structure Shows (simulation : Simulation) (trace : StateTrace) : Prop where
  steady : simulation.base.Steady
  states : simulation.states = trace

theorem shows_ofStack {stack : Stack} (steady : stack.Steady) :
    (ofStack stack).Shows stack.states := ⟨steady, rfl⟩

theorem Shows.state (h : simulation.Shows trace) : simulation.state = trace.state := by
  obtain ⟨base, pushed⟩ := simulation
  obtain ⟨steady, rfl⟩ := h
  cases pushed with
  | nil => exact steady.state.symm
  | cons first pushed => rfl

theorem Shows.push (h : simulation.Shows trace) (state : StateId) :
    (simulation.push state).Shows (state :: trace) := ⟨h.steady, congrArg _ h.states⟩

theorem Shows.popOne_nil (h : simulation.Shows []) : simulation.popOne = none := by
  obtain ⟨base, pushed⟩ := simulation
  obtain ⟨rfl, empty⟩ := List.append_eq_nil_iff.1 h.states
  have dropped : base.dropWhile (·.subtree.isExtra) = [] := by
    simpa [Stack.states, List.filter_eq_nil_iff] using empty
  simp [popOne, dropped]

theorem Shows.popOne_cons {state : StateId} (h : simulation.Shows (state :: trace)) :
    ∃ below, simulation.popOne = some below ∧ below.Shows trace := by
  obtain ⟨base, pushed⟩ := simulation
  obtain ⟨steady, shown⟩ := h
  cases pushed with
  | cons first pushed => exact ⟨_, rfl, steady, (List.cons.inj shown).2⟩
  | nil =>
    -- The states are those of the stack, so there is a subtree below the extras.
    have skipped : Stack.states (base.dropWhile (·.subtree.isExtra)) = state :: trace := by
      rw [Stack.states_dropWhile fun _ => id]
      exact shown
    cases found : base.dropWhile (·.subtree.isExtra) with
    | nil => simp [found, Stack.states] at skipped
    | cons top below =>
      have counted := Stack.counted_of_dropWhile found
      rw [found, Stack.states, List.filter_cons_of_pos (by simp [counted])] at skipped
      refine ⟨⟨below, []⟩, by simp [popOne, found], ?_, (List.cons.inj skipped).2⟩
      rw [Stack.eq_of_dropWhile found, ← List.singleton_append, ← List.append_assoc] at steady
      exact steady.of_append

theorem Shows.exists_pop {count : Nat} (h : simulation.Shows trace)
    (enough : count ≤ trace.length) :
    ∃ below, simulation.pop count = some below ∧ below.Shows (trace.drop count) := by
  induction count generalizing simulation trace with
  | zero => exact ⟨simulation, rfl, h⟩
  | succ count ih =>
    cases trace with
    | nil => contradiction
    | cons state trace =>
      obtain ⟨below, popped, shows⟩ := h.popOne_cons
      obtain ⟨rest, done, left⟩ := ih shows (Nat.le_of_succ_le_succ enough)
      exact ⟨rest, by simp [pop, popped, done], left⟩

theorem Shows.pop_eq_none {count : Nat} (h : simulation.Shows trace)
    (lacking : trace.length < count) : simulation.pop count = none := by
  induction count generalizing simulation trace with
  | zero => contradiction
  | succ count ih =>
    cases trace with
    | nil => simp [pop, h.popOne_nil]
    | cons state trace =>
      obtain ⟨below, popped, shows⟩ := h.popOne_cons
      simp [pop, popped, ih shows (Nat.lt_of_succ_lt_succ lacking)]

theorem Shows.pop_eq_some {count : Nat} (h : simulation.Shows trace) {below : Simulation}
    (popped : simulation.pop count = some below) :
    count ≤ trace.length ∧ below.Shows (trace.drop count) := by
  rcases Nat.lt_or_ge trace.length count with lacking | enough
  · simp [h.pop_eq_none lacking] at popped
  · obtain ⟨rest, done, left⟩ := h.exists_pop enough
    cases popped.symm.trans done
    exact ⟨enough, left⟩

theorem Shows.reduce?_eq_some (h : simulation.Shows trace) {reduced : Simulation}
    (done : simulation.reduce? language actions = some reduced) :
    ∃ symbol childCount production next,
      actions.findSome? Action.reduction? = some (symbol, childCount, production) ∧
      childCount.toNat ≤ trace.length ∧
      language.goto? (StateTrace.state (trace.drop childCount.toNat)) symbol = some next ∧
      reduced.Shows (next :: trace.drop childCount.toNat) := by
  simp only [reduce?, Option.bind_eq_bind, Option.bind_eq_some_iff, Option.pure_def,
    Option.some.injEq] at done
  obtain ⟨⟨symbol, childCount, production⟩, chosen, below, popped, next, goes, rfl⟩ := done
  obtain ⟨enough, shows⟩ := h.pop_eq_some popped
  exact ⟨symbol, childCount, production, next, chosen, enough, shows.state ▸ goes, shows.push next⟩

def Alike (simulation other : Simulation) : Prop :=
  ∃ trace, simulation.Shows trace ∧ other.Shows trace

theorem Alike.state (alike : simulation.Alike other) : simulation.state = other.state := by
  obtain ⟨trace, shows, shows'⟩ := alike
  rw [shows.state, shows'.state]

theorem Alike.states (alike : simulation.Alike other) : simulation.states = other.states := by
  obtain ⟨trace, shows, shows'⟩ := alike
  rw [shows.states, shows'.states]

theorem Alike.push (alike : simulation.Alike other) (state : StateId) :
    (simulation.push state).Alike (other.push state) := by
  obtain ⟨trace, shows, shows'⟩ := alike
  exact ⟨_, shows.push state, shows'.push state⟩

theorem Alike.pop (alike : simulation.Alike other) (count : Nat) :
    Option.Rel Alike (simulation.pop count) (other.pop count) := by
  obtain ⟨trace, shows, shows'⟩ := alike
  rcases Nat.lt_or_ge trace.length count with lacking | enough
  · rw [shows.pop_eq_none lacking, shows'.pop_eq_none lacking]
    exact .none
  · obtain ⟨below, popped, left⟩ := shows.exists_pop enough
    obtain ⟨below', popped', left'⟩ := shows'.exists_pop enough
    rw [popped, popped']
    exact .some ⟨_, left, left'⟩

theorem Alike.reduce? (alike : simulation.Alike other) (language : Language)
    (actions : List Action) :
    Option.Rel Alike (simulation.reduce? language actions) (other.reduce? language actions) := by
  unfold Simulation.reduce?
  cases actions.findSome? Action.reduction? with
  | none => exact .none
  | some reduction =>
    simp only [Option.bind_eq_bind, Option.bind_some]
    have popped := alike.pop reduction.2.1.toNat
    generalize simulation.pop _ = first at popped ⊢
    generalize other.pop _ = second at popped ⊢
    cases popped with
    | none => exact .none
    | @some below below' alike =>
      simp only [Option.bind_some, alike.state]
      cases language.goto? below'.state reduction.1 with
      | none => exact .none
      | some next => exact .some (alike.push next)

theorem Alike.shift? (alike : simulation.Alike other) (language : Language)
    (terminal : SymbolId) (budget : Nat) :
    Option.Rel Alike (simulation.shift? language terminal budget)
      (other.shift? language terminal budget) := by
  induction budget generalizing simulation other with
  | zero => exact .none
  | succ budget ih =>
    unfold Simulation.shift?
    rw [alike.state]
    dsimp only
    split
    · exact .some (alike.push _)
    · have reduced := alike.reduce? language (language.actions other.state terminal)
      generalize simulation.reduce? _ _ = first at reduced ⊢
      generalize other.reduce? _ _ = second at reduced ⊢
      cases reduced with
      | none => exact .none
      | some alike => exact ih alike

theorem Alike.fits (alike : simulation.Alike other) (budget : Nat) :
    simulation.fits language terminal budget = other.fits language terminal budget := by
  induction budget generalizing simulation other with
  | zero => rfl
  | succ budget ih =>
    unfold Simulation.fits
    rw [alike.state]
    dsimp only
    have reduced := alike.reduce? language (language.actions other.state terminal)
    generalize simulation.reduce? _ _ = first at reduced ⊢
    generalize other.reduce? _ _ = second at reduced ⊢
    cases reduced with
    | none => rfl
    | some alike => simp only [ih alike]

end Simulation

namespace ParseInput

variable {input : ParseInput} {wanted : SymbolId} {simulation other : Simulation}

theorem insertion?_congr (alike : simulation.Alike other) (count : Nat) :
    input.insertion? wanted count simulation = input.insertion? wanted count other := by
  induction count generalizing simulation other with
  | zero => simp only [insertion?, alike.fits]
  | succ count ih =>
    unfold insertion?
    congr 1
    funext terminal
    have shifted := alike.shift? input.language terminal input.options.maxReduceSteps
    generalize simulation.shift? _ _ _ = first at shifted ⊢
    generalize other.shift? _ _ _ = second at shifted ⊢
    cases shifted with
    | none => rfl
    | some alike => simp only [Option.bind_eq_bind, Option.bind_some, ih alike]

theorem shortestInsertion?_congr (alike : simulation.Alike other) (choices count : Nat) :
    input.shortestInsertion? wanted simulation choices count =
      input.shortestInsertion? wanted other choices count := by
  induction choices generalizing count with
  | zero => rfl
  | succ choices ih =>
    unfold shortestInsertion?
    rw [insertion?_congr alike, ih]

end ParseInput

end IncrementalGlr
