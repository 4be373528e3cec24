import IncrementalGlr.Proofs.Parse.Costs

/-!
# Dropping versions by their costs

Because costs never fall, a version that costs as much as a root that was accepted may be dropped,
and the root that is left at the end costs least of all that versions ended in. The program compares
costs as words: this is so while no cost is lost in a word.
-/

namespace IncrementalGlr

open Subtree (totalCost)

namespace Engine

variable {engine next last : Engine} {input : ParseInput} {version : Version}
  {rest : List Version} {root : Subtree}

/-- The next step ends a version in the root: it is accepted, or it is given up at the end of a
round in which no version shifted. -/
inductive Ends (engine : Engine) (input : ParseInput) : Subtree → Prop
  | accepted {version : Version}
      (through : (engine.step input).passed = engine.passed ++ [(.accepted, version)]) :
      Ends engine input (input.root version.stack)
  | forced {version : Version} {root : Subtree} (ended : engine.waiting = [])
      (unshifted : ∀ entry ∈ engine.passed, entry.1 ≠ .shifted)
      (unfinished : engine.finished = none)
      (best : best? ((engine.passed.filter fun entry => entry.1 != .accepted).map (·.2))
        = some version)
      (recovered : input.recover version = .root root) : Ends engine input root

theorem Ends.goesOn (ends : engine.Ends input root) : engine.isDone = false := by
  refine Bool.eq_false_iff.2 fun done => ?_
  obtain ⟨passed, waiting⟩ : engine.passed = [] ∧ engine.waiting = [] := by
    simpa [isDone] using done
  cases ends with
  | accepted through =>
    rw [step, waiting] at through
    have length := congrArg List.length through
    simp [endRound] at length
  | forced _ _ _ best =>
    rw [passed] at best
    contradiction

/-- In a run from `first`, costs can be taken as exact naturals: those of the nodes of an old tree, and
those of the roots that are kept, are words. Nothing is asked of the versions, since a version whose
cost as a word is not less is not less in its exact cost either. -/
structure ComparesExactly (input : ParseInput) (first : Engine) : Prop where
  offered : ∀ cursor ∈ first.reuse, cursor.All Subtree.HasWordCosts
  kept : ∀ engine, Reaches input first engine →
    ∀ root ∈ (engine.survivors input).1.finished, root.exactCost < UInt32.size

theorem finished_survivors (old : root ∈ engine.finished) :
    root ∈ (engine.survivors input).1.finished := by
  have finished : engine.finished.isSome = true := Option.isSome_of_mem old
  unfold survivors
  dsimp only
  split
  · exact old
  · rwa [if_pos finished]

theorem ComparesExactly.word {first : Engine} (words : ComparesExactly input first)
    (reached : Reaches input first engine) (old : root ∈ engine.finished) :
    root.exactCost < UInt32.size :=
  words.kept engine reached root (finished_survivors old)

theorem ComparesExactly.reuse {first : Engine} (words : ComparesExactly input first)
    (reached : Reaches input first engine) :
    ∀ cursor ∈ engine.reuse, cursor.All Subtree.HasWordCosts := by
  refine reached.preserves
    (motive := fun engine => ∀ cursor ∈ engine.reuse, cursor.All Subtree.HasWordCosts)
    (fun engine below _ cursor here => ?_) words.offered
  obtain ⟨before, there, moves⟩ := (steps_step engine input).reuse cursor here
  exact moves.all (fun _ _ word => word.child) (below before there)

def everywhere (input : ParseInput) (test : Engine → Bool) : Nat → Engine → Bool
  | 0, _ => false
  | fuel + 1, engine =>
    test engine && (engine.isDone || everywhere input test fuel (engine.step input))

theorem Reaches.everywhere {test : Engine → Bool} (reached : Reaches input engine last) {fuel : Nat}
    (always : Engine.everywhere input test fuel engine = true) : test last = true := by
  induction reached generalizing fuel with
  | refl engine =>
    cases fuel with
    | zero => contradiction
    | succ fuel => exact (Bool.and_eq_true_iff.1 always).1
  | step goesOn _ ih =>
    cases fuel with
    | zero => contradiction
    | succ fuel =>
      rw [Engine.everywhere, goesOn, Bool.false_or] at always
      exact ih (Bool.and_eq_true_iff.1 always).2

end Engine

end IncrementalGlr
