import IncrementalGlr.Proofs.Parse.Machine
import IncrementalGlr.Proofs.Parse.Steps

/-!
# Rounds end

A round of a parse without an old tree ends whatever the table says: a step settles a version, of
which there are never more than the forks of a round may fill, or it spends a reduction, or it
brings the current version closer to its next action.
-/

namespace IncrementalGlr

def Version.delay (version : Version) (language : Language) : Nat :=
  match version.lookahead with
  | none => 2
  | some (.token token) => if token.lexMode == language.lexModeOfState version.state then 0 else 1
  | some (.reused _) => 0

namespace Engine

variable {engine next : Engine} {input : ParseInput} {version v : Version}
  {rest others : List Version}

def capacity (engine : Engine) (input : ParseInput) : Nat :=
  max (4 * input.options.maxVersions) engine.versionCount

def delay (engine : Engine) (input : ParseInput) : Nat :=
  (engine.waiting.head?.map fun version => version.delay input.language).getD 0

structure Progresses (engine : Engine) (input : ParseInput) (next : Engine) : Prop where
  capacity : next.capacity input = engine.capacity input
  onward : next.passed.length = engine.passed.length + 1 ∨
    next.passed.length = engine.passed.length ∧
      (engine.reductions < next.reductions ∧ next.reductions ≤ input.options.maxReduceSteps ∨
        next.reductions = engine.reductions ∧ next.delay input < engine.delay input)

def remaining (engine : Engine) (input : ParseInput) : Nat × Nat × Nat :=
  (engine.capacity input - engine.passed.length,
    input.options.maxReduceSteps - engine.reductions, engine.delay input)

theorem Progresses.remaining_lt (h : engine.Progresses input next)
    (room : engine.passed.length < engine.capacity input) :
    WellFoundedRelation.rel (next.remaining input) (engine.remaining input) := by
  rw [remaining, remaining, h.capacity]
  rcases h.onward with settled | ⟨passed, ⟨spent, few⟩ | ⟨kept, sooner⟩⟩
  · exact Prod.Lex.left _ _ (Nat.sub_lt_sub_left room (by omega))
  · rw [passed]
    exact Prod.Lex.right _ (Prod.Lex.left _ _ (Nat.sub_lt_sub_left (by omega) spent))
  · rw [passed, kept]
    exact Prod.Lex.right _ (Prod.Lex.right _ sooner)

theorem look_eq (fresh : engine.reuse = none) : engine.look input version rest =
    engine.proceed
      { version with
        lookahead := some (.token (input.lex version.stack (version.nextLexMode input.language)))
        lexMode := some (version.nextLexMode input.language) } rest := by
  have nothing : engine.offer input version (version.nextLexMode input.language)
      = (none, engine.reuse) := by
    unfold offer
    rw [fresh]
    dsimp only
    split <;> rfl
  unfold look
  dsimp only
  rw [nothing]

section Current

variable (current : engine.waiting = version :: rest)

include current

theorem progresses_settle (outcome : Outcome) (v : Version) (least : rest.length ≤ others.length)
    (most : others.length ≤ rest.length + (4 * input.options.maxVersions - engine.versionCount)) :
    engine.Progresses input (engine.settle outcome v others) := by
  have count := versionCount_current current
  have passed : (engine.settle outcome v others).passed.length = engine.passed.length + 1 := by
    simp [settle]
  refine ⟨?_, .inl passed⟩
  have after : (engine.settle outcome v others).versionCount
      = engine.passed.length + 1 + others.length := by
    rw [versionCount, passed]
    rfl
  rw [capacity, capacity, after]
  omega

theorem progresses_settle_rest (outcome : Outcome) (v : Version) :
    engine.Progresses input (engine.settle outcome v rest) :=
  progresses_settle current outcome v (Nat.le_refl _) (Nat.le_add_right _ _)

theorem progresses_settle_fork (outcome : Outcome) (v : Version) (pushed : List Stack) :
    engine.Progresses input (engine.settle outcome v (engine.fork input version pushed rest)) :=
  progresses_settle current outcome v (length_fork _ _ _ _ pushed).1
    (length_fork _ _ _ _ pushed).2

theorem progresses_proceed (sooner : v.delay input.language < version.delay input.language) :
    engine.Progresses input (engine.proceed v rest) := by
  refine ⟨?_, .inr ⟨rfl, .inr ⟨rfl, ?_⟩⟩⟩
  · rw [capacity, capacity, versionCount, versionCount, current]
    rfl
  · rw [delay, delay, current]
    exact sooner

theorem progresses_act (lookahead : Token) :
    engine.Progresses input (engine.act input version rest (.token lookahead)
      (input.language.actions version.state lookahead.symbol)) := by
  have count := versionCount_current current
  unfold act
  dsimp only
  generalize reduced : List.filterMap _ (List.filterMap Action.reduction? _) = pushed
  split
  · obtain ⟨finished, same, _⟩ := finish_eq engine (input.root version.stack)
    rw [same]
    have settled : engine.Progresses input (engine.settle .accepted version rest) :=
      progresses_settle_rest current .accepted version
    exact { settled with }
  · split
    · exact progresses_settle_rest current ..
    · next within =>
        split
        · exact progresses_settle_fork current ..
        · split
          · next first more =>
              -- There is a first stack, so the cell holds a reduction, which is counted.
              have some : 0 < ((input.language.actions version.state
                  lookahead.symbol).filterMap Action.reduction?).length := by
                rw [List.length_pos_iff]
                intro none
                rw [none] at reduced
                contradiction
              have room := length_fork engine input version rest more
              refine ⟨?_, .inr ⟨rfl, .inl ⟨?_, Nat.le_of_not_lt within⟩⟩⟩
              · rw [capacity, capacity, versionCount, versionCount, current]
                change max _ (engine.passed.length + (List.length _ + 1)) = max _ (_ + (_ + 1))
                omega
              · exact Nat.lt_add_of_pos_right some
          · exact progresses_settle_rest current ..

theorem progresses_advance (fresh : engine.reuse = none)
    (lexed : ∀ tree, version.lookahead ≠ some (.reused tree)) :
    engine.Progresses input (engine.advance input version rest) := by
  unfold advance
  split
  · next unread =>
      rw [look_eq fresh]
      refine progresses_proceed current ?_
      rw [Version.delay, Version.delay, unread]
      dsimp only
      split <;> decide
  · next token here =>
      unfold advanceToken
      dsimp only
      split
      · split
        · exact progresses_settle_rest current ..
        · split
          · next other =>
              have other := bne_iff_ne.1 (Bool.and_eq_true_iff.1 other).2
              have before : version.delay input.language = 1 := by
                rw [Version.delay, here]
                exact if_neg (by simpa using other)
              have after : ({ version with
                  lookahead := some (.token (input.lex version.stack
                    (input.language.lexModeOfState version.state)))
                  lexMode := some (input.language.lexModeOfState version.state) } :
                  Version).delay input.language = 0 := by
                rw [Version.delay]
                refine if_pos ?_
                rw [ParseInput.lex, Lexer.lexMode_next]
                exact beq_self_eq_true _
              exact progresses_proceed current (by rw [after, before]; exact Nat.one_pos)
          · exact progresses_settle_rest current ..
      · exact progresses_act current token
  · next tree here => exact absurd here (lexed tree)

end Current

structure IsFresh (engine : Engine) : Prop where
  reuse : engine.reuse = none
  lexed : ∀ v ∈ engine.versions, ∀ tree, v.lookahead ≠ some (.reused tree)

theorem lexed_of_becomes {count : Nat} (becomes : version.Becomes input none count v)
    (lexed : ∀ tree, version.lookahead ≠ some (.reused tree)) (tree : Subtree) :
    v.lookahead ≠ some (.reused tree) := by
  cases becomes with
  | waits => exact lexed tree
  | reduced => exact lexed tree
  | offered mode here => contradiction
  | lexed => simp
  | lexedAnew => simp
  | turnedDown => simp
  | shifted => simp [Version.shift]
  | extra => simp [Version.shift]
  | takenOver => simp [Version.shift]

theorem lookahead_skip (version : Version) (token : Token) :
    (input.skip version token).lookahead = none := by
  unfold ParseInput.skip
  dsimp only
  split
  · split <;> rfl
  · rfl

theorem lexed_of_recover (recovered : input.recover version = .version v) (tree : Subtree) :
    v.lookahead ≠ some (.reused tree) := by
  have mends := ParseInput.mends_recover input version
  rw [recovered] at mends
  cases mends with
  | passed isError => simp [Version.shift]
  | inserted insertable => simp
  | folded parts => simp
  | skipped inside => simp [lookahead_skip]

theorem IsFresh.step (h : engine.IsFresh) : (engine.step input).IsFresh := by
  have steps := steps_step engine input
  refine ⟨Option.eq_none_iff_forall_ne_some.2 fun cursor found => ?_, fun v member => ?_⟩
  · obtain ⟨before, there, _⟩ := steps.reuse cursor found
    rw [h.reuse] at there
    contradiction
  · rcases steps.versions v member with old | ⟨u, known, becomes | recovered⟩
    · exact h.lexed v old
    · rw [h.reuse] at becomes
      exact lexed_of_becomes becomes (h.lexed u known)
    · exact lexed_of_recover recovered

theorem isFresh_begin (input : ParseInput) : (Engine.begin input none).IsFresh := by
  refine ⟨rfl, fun v member tree => ?_⟩
  rw [List.mem_singleton.1 member]
  simp [Version.start]

theorem IsFresh.remaining_lt (h : engine.IsFresh) (current : engine.waiting = version :: rest) :
    WellFoundedRelation.rel ((engine.step input).remaining input) (engine.remaining input) := by
  have progresses : engine.Progresses input (engine.step input) := by
    rw [Engine.step, current]
    refine progresses_advance current h.reuse (h.lexed version ?_)
    rw [versions, current]
    simp
  have count := versionCount_current current
  refine progresses.remaining_lt ?_
  rw [capacity]
  omega

theorem IsFresh.exists_roundEnd (input : ParseInput) {engine : Engine} (h : engine.IsFresh) :
    ∃ n, ((fun engine => engine.step input)^[n] engine).waiting = [] := by
  cases current : engine.waiting with
  | nil => exact ⟨0, current⟩
  | cons version rest =>
    obtain ⟨n, ended⟩ := exists_roundEnd input h.step
    exact ⟨n + 1, ended⟩
termination_by engine.remaining input
decreasing_by exact h.remaining_lt current

theorem roundEnd_of_begin (input : ParseInput) (k : Nat) : ∃ n,
    ((fun engine => engine.step input)^[k + n] (Engine.begin input none)).waiting = [] := by
  have fresh : ((fun engine => engine.step input)^[k] (Engine.begin input none)).IsFresh := by
    induction k with
    | zero => exact isFresh_begin input
    | succ k ih =>
      rw [Function.iterate_succ_apply']
      exact ih.step
  obtain ⟨n, ended⟩ := fresh.exists_roundEnd input
  exact ⟨n, by rwa [Nat.add_comm, Function.iterate_add_apply]⟩

end Engine

end IncrementalGlr
