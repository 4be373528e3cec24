import IncrementalGlr.Proofs.Lexer.Lookups
import IncrementalGlr.Proofs.Parse.Completeness

/-!
# A checked table is followed inside its bounds

The stacks of a parse hold states of the table only: a state comes from a shift or from a goto, or
stood on the stack before. Together with the look-ups this is what the checks of a table are for.
-/

namespace IncrementalGlr

namespace Stack

def StatesIn (table : Table) (stack : Stack) : Prop :=
  ∀ entry ∈ stack, entry.state.index < table.stateCount.toNat

variable {table : Table} {stack : Stack}

theorem StatesIn.state (h : stack.StatesIn table) (bounded : table.Bounded) :
    stack.state.index < table.stateCount.toNat := by
  cases stack with
  | nil => exact bounded.states
  | cons entry below => exact h entry (List.mem_cons_self ..)

theorem StatesIn.push (h : stack.StatesIn table) {state : StateId}
    (inside : state.index < table.stateCount.toNat) (tree : Subtree) :
    (stack.push tree state).StatesIn table := by
  intro entry member
  rcases List.mem_cons.1 member with rfl | old
  · exact inside
  · exact h entry old

theorem StatesIn.pushAll (h : stack.StatesIn table) {state : StateId}
    (inside : state.index < table.stateCount.toNat) (trees : List Subtree) :
    StatesIn table (trees.foldl (fun stack tree => stack.push tree state) stack) :=
  List.foldlRecOn (motive := StatesIn table) trees _ h fun _ h tree _ => h.push inside tree

theorem StatesIn.of_append {upper lower : Stack} (h : StatesIn table (upper ++ lower)) :
    lower.StatesIn table := fun entry member => h entry (List.mem_append_right _ member)

end Stack

namespace ParseInput

variable {input : ParseInput} {stack reduced : Stack} {version : Version}

theorem statesIn_reduce (bounded : input.language.table.Bounded)
    (h : stack.StatesIn input.language.table) {reach : Nat} {isFragile : Bool} {symbol : SymbolId}
    {childCount : UInt16} {production : ProductionId}
    (done : input.reduce stack reach isFragile symbol childCount production = some reduced) :
    reduced.StatesIn input.language.table := by
  obtain ⟨popped, next, node, took, goes, _, rfl⟩ := reduce_eq_some done
  obtain ⟨upper, rfl, _⟩ := Stack.pop_eq_some took
  have inside := bounded.goto_lt goes
  exact (h.of_append.push inside _).pushAll inside _

theorem statesIn_insertAll (bounded : input.language.table.Bounded)
    (h : stack.StatesIn input.language.table) (terminals : List SymbolId) (reach budget : Nat) :
    Stack.StatesIn input.language.table (terminals.foldl
      (fun stack terminal => input.insertMissing terminal reach budget stack) stack) :=
  insertAll_preserves (motive := Stack.StatesIn input.language.table)
    (fun _ _ _ _ h chosen => h.push (bounded.shift_lt chosen) _)
    (fun _ _ _ _ _ h done => statesIn_reduce bounded h done) budget h

theorem statesIn_skip (bounded : input.language.table.Bounded)
    (h : version.stack.StatesIn input.language.table) (token : Token) :
    (input.skip version token).stack.StatesIn input.language.table := by
  have skips := skips_skip input version token
  generalize input.skip version token = next at skips ⊢
  cases skips with
  | opened => exact h.push (h.state bounded) _
  | @extended extras below top parts interior =>
    rw [parts, ← List.singleton_append, ← List.append_assoc] at h
    exact h.of_append.push (h.of_append.state bounded) _

theorem statesIn_recover (bounded : input.language.table.Bounded) {next : Version}
    (h : version.stack.StatesIn input.language.table)
    (recovered : input.recover version = .version next) :
    next.stack.StatesIn input.language.table := by
  have mends := mends_recover input version
  rw [recovered] at mends
  cases mends with
  | passed isError => exact h.push (h.state bounded) _
  | inserted insertable => exact statesIn_insertAll bounded h _ _ _
  | folded parts =>
    rw [parts] at h
    exact h.of_append.push (h.of_append.state bounded) _
  | skipped inside => exact statesIn_skip bounded h _

end ParseInput

theorem Version.Becomes.statesIn {input : ParseInput} {reuse : Option ReuseCursor} {count : Nat}
    {version next : Version} (becomes : version.Becomes input reuse count next)
    (bounded : input.language.table.Bounded)
    (h : version.stack.StatesIn input.language.table) :
    next.stack.StatesIn input.language.table := by
  cases becomes with
  | waits => exact h
  | lexed => exact h
  | lexedAnew => exact h
  | offered => exact h
  | turnedDown => exact h
  | reduced here chosen done => exact ParseInput.statesIn_reduce bounded h done
  | shifted here leaf chosen => exact h.push (bounded.shift_lt chosen) _
  | extra => exact h.push (h.state bounded) _
  | takenOver here goes => exact h.push (bounded.goto_lt goes) _

namespace Engine

variable {engine last : Engine} {input : ParseInput}

def StatesIn (engine : Engine) (table : Table) : Prop :=
  ∀ version ∈ engine.versions, version.stack.StatesIn table

theorem statesIn_begin (input : ParseInput) (old : Option Tree) (table : Table) :
    (Engine.begin input old).StatesIn table := by
  intro version member
  rw [List.mem_singleton.1 member]
  exact fun _ absent => absurd absent List.not_mem_nil

theorem statesIn_step (bounded : input.language.table.Bounded)
    (h : engine.StatesIn input.language.table) :
    (engine.step input).StatesIn input.language.table := by
  intro version member
  rcases (steps_step engine input).versions version member with old | ⟨before, there, change⟩
  · exact h version old
  · rcases change with becomes | recovered
    · exact becomes.statesIn bounded (h before there)
    · exact ParseInput.statesIn_recover bounded (h before there) recovered

theorem statesIn_of_reaches (bounded : input.language.table.Bounded)
    (reached : Reaches input engine last) (h : engine.StatesIn input.language.table) :
    last.StatesIn input.language.table :=
  reached.preserves (motive := fun engine => engine.StatesIn input.language.table)
    (fun _ h _ => statesIn_step bounded h) h

end Engine

/-- No look-up in the table falls outside, whatever is looked up, and what is found in it are
numbers of the table. -/
structure Table.StaysInside (table : Table) : Prop where
  actions : ∀ state terminal,
    table.actionsInside? state terminal = some (table.actions state terminal)
  goto : ∀ state rule, table.gotoInside? state rule = some (table.goto? state rule)
  next : ∀ state ∈ table.lexStates, ∀ c, state.nextInside? c = some (state.next? c) ∧
    ∀ target, state.next? c = some target → target.toNat < table.lexStates.size
  longestMatch : ∀ wanted cursor,
    table.longestMatchInside? wanted cursor = some (table.longestMatch wanted cursor)
  productions : ∀ state terminal symbol childCount dynamicPrecedence production,
    .reduce symbol childCount dynamicPrecedence production ∈ table.actions state terminal →
      production.index < table.productions.size ∧
        (table.stepsOf symbol production).length = childCount.toNat
  steps : ∀ symbol production, ∀ step ∈ table.stepsOf symbol production,
    (∀ name ∈ step.aliasSymbol, name.index < table.symbols.size) ∧
      ∀ field ∈ step.field, field.index < table.fieldNames.size

/-- No look-up in the language falls outside, and the stacks of a parse hold states of the table
only, whatever is parsed. -/
structure Language.StaysInside (language : Language) : Prop where
  lexMode : ∀ id, language.lexModeInside? id = some (language.lexMode id)
  keyword : ∀ text, language.keywordInside? text = some (language.keyword? text)
  states : ∀ options text old engine,
    Engine.Reaches (.ofText language options text)
        (Engine.begin (.ofText language options text) old) engine →
      ∀ version ∈ engine.versions, version.state.index < language.table.stateCount.toNat ∧
        ∀ entry ∈ version.stack, entry.state.index < language.table.stateCount.toNat

namespace Table

variable {table : Table}

theorem Bounded.staysInside (h : table.Bounded) : table.StaysInside where
  actions _ _ := h.actionsInside?_eq
  goto _ _ := h.gotoInside?_eq
  next state member c := by
    refine ⟨state.nextInside?_eq c, fun target goes => ?_⟩
    obtain ⟨transition, listed, rfl⟩ := LexState.mem_of_next? goes
    exact h.lexTargets state member transition listed
  longestMatch _ _ := h.longestMatchInside?_eq
  productions state terminal symbol childCount dynamicPrecedence production member := by
    obtain ⟨p, found, lhs, length⟩ := h.production_of_reduce member
    refine ⟨(Array.getElem?_eq_some_iff.1 found).1, ?_⟩
    simp [stepsOf, found, lhs, length]
  steps _ _ _ := h.step_lt

/-- The checks of a table are enough to follow its numbers without a test, when a language is built
from it and when texts are lexed and parsed. -/
theorem staysInside_of_check (checked : table.check = .ok ()) :
    table.StaysInside ∧ ∀ version scanner stamp,
      Language.buildInside? table version scanner stamp
          = some (Language.build table version scanner stamp) ∧
        ∀ language, Language.build table version scanner stamp = .ok language →
          language.table = table ∧ language.StaysInside := by
  have bounded := bounded_of_check checked
  refine ⟨bounded.staysInside, fun version scanner stamp => ⟨Language.buildInside?_eq .., ?_⟩⟩
  intro language built
  obtain ⟨_, rfl, _⟩ := Language.build_ok built
  have isBuilt : language.IsBuilt := ⟨_, _, _, _, built⟩
  refine ⟨rfl, isBuilt.lexModeInside?_eq, language.keywordInside?_eq, ?_⟩
  intro options text old engine reached version member
  have bounded' : (ParseInput.ofText language options text).language.table.Bounded := bounded
  have states := Engine.statesIn_of_reaches bounded' reached (Engine.statesIn_begin _ old _)
    version member
  exact ⟨states.state bounded, states⟩

/-- After two steps of a parse of "y;" a token is on the stack. -/
theorem staysInside_items :
    ∃ language engine, itemLanguage = some language ∧ itemTable.StaysInside ∧
      Engine.Reaches (.ofText language .standard "y;")
        (Engine.begin (.ofText language .standard "y;") none) engine ∧
      (engine.versions.any fun version => !version.stack.isEmpty) = true ∧
      ∀ version ∈ engine.versions, version.state.index < itemTable.stateCount.toNat := by
  have runs : (itemLanguage.any fun language =>
      let input := ParseInput.ofText language .standard "y;"
      let first := (Engine.begin input none).step input
      !first.isDone && (first.step input).versions.any fun version => !version.stack.isEmpty)
        = true := by
    decide +kernel
  obtain ⟨language, built, runs⟩ := (Option.any_eq_true _ _).1 runs
  obtain ⟨goesOn, pushed⟩ := Bool.and_eq_true_iff.1 runs
  have checked : itemTable.check = .ok () := ok_of_toOption (by decide +kernel)
  obtain ⟨inside, builds⟩ := staysInside_of_check checked
  obtain ⟨same, stays⟩ := (builds _ none 1).2 language (ok_of_toOption built)
  refine ⟨language, _, built, inside,
    .step rfl (.step (Bool.not_eq_true' _ ▸ goesOn) (.refl _)), pushed, fun version member => ?_⟩
  rw [← same]
  exact (stays.states .standard "y;" none _
    (.step rfl (.step (Bool.not_eq_true' _ ▸ goesOn) (.refl _))) version member).1

end Table

end IncrementalGlr
