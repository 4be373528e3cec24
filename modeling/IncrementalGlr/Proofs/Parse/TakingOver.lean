import IncrementalGlr.Proofs.Parse.History
import IncrementalGlr.Proofs.Parse.Onward
import IncrementalGlr.Proofs.Parse.Rates
import IncrementalGlr.Proofs.Text.Positions

/-!
# What is taken over

The subtrees that a parse takes over from an old tree lie one behind the other in the new text, so
that no byte is counted twice, and no more bytes are counted than there are. Nothing in the new tree
carries a mark of the changes to the old one.
-/

namespace IncrementalGlr

theorem ReuseStats.nodes_record_ne (stats : ReuseStats) (tree : Subtree) :
    (stats.record tree).nodes ≠ stats.nodes := by
  intro same
  have same : (stats.nodes + 1) % 4294967296 = stats.nodes := same
  omega

namespace Engine

variable {engine : Engine} {input : ParseInput} {version : Version} {rest : List Version}
  {tree : Subtree}

/-- The subtree of the old tree that the next step puts on a stack, with the byte where it puts it,
if the step takes one over. -/
def taken? (engine : Engine) (input : ParseInput) : Option (Nat × Subtree) :=
  let next := engine.step input
  if next.stats.nodes = engine.stats.nodes then none
  else do
    let version ← engine.waiting.head?
    let (_, shifted) ← next.passed.getLast?
    let top ← shifted.stack.head?
    return (version.offset, top.subtree)

def taken (input : ParseInput) : Nat → Engine → List (Nat × Subtree)
  | 0, _ => []
  | steps + 1, engine =>
    if engine.isDone then []
    else (engine.taken? input).toList ++ taken input steps (engine.step input)

def walk (input : ParseInput) : Nat → Engine → Engine
  | 0, engine => engine
  | steps + 1, engine => if engine.isDone then engine else walk input steps (engine.step input)

inductive TakesOver (engine : Engine) (input : ParseInput) (version : Version) (rest : List Version)
    (next : Engine) : Prop
  | intro {old tree : Subtree} {state : StateId} {mode : Option LexModeId}
      (same : next = engine.takeOver version rest tree state mode)
      (here : version.lookahead = some (.reused old)) (size : tree.size = old.size)

theorem TakesOver.taken? (current : engine.waiting = version :: rest)
    (takes : engine.TakesOver input version rest (engine.step input)) :
    ∃ old tree, version.lookahead = some (.reused old) ∧ tree.size = old.size ∧
      engine.taken? input = some (version.offset, tree) ∧
      (engine.step input).stats = engine.stats.record tree ∧
      ∀ v ∈ (engine.step input).versions, v ∈ engine.passed.map (·.2) ++ rest ∨
        v.stack.position = version.stack.position + tree.size := by
  obtain @⟨old, tree, state, mode, same, here, size⟩ := takes
  refine ⟨old, tree, here, size, ?_, by rw [same]; rfl, fun v member => ?_⟩
  · unfold Engine.taken?
    dsimp only
    rw [same, current]
    refine (if_neg (ReuseStats.nodes_record_ne engine.stats tree)).trans ?_
    simp [takeOver, settle, Version.shift, Stack.push]
  · rw [same] at member
    rcases mem_settle member with old | rfl
    · exact .inl old
    · exact .inr rfl

def LieBetween (start stop : Nat) : List (Nat × Subtree) → Prop
  | [] => start ≤ stop
  | (offset, tree) :: rest => start ≤ offset ∧ LieBetween (offset + tree.size.bytes) stop rest

namespace LieBetween

variable {start stop : Nat} {taken : List (Nat × Subtree)}

theorem start_le (h : LieBetween start stop taken) : ∀ entry ∈ taken, start ≤ entry.1 := by
  induction taken generalizing start with
  | nil => exact fun _ absent => absurd absent List.not_mem_nil
  | cons first taken ih =>
    obtain ⟨before, rest⟩ := h
    exact List.forall_mem_cons.2 ⟨before, fun entry member =>
      Nat.le_trans (Nat.le_trans before (Nat.le_add_right _ _)) (ih rest entry member)⟩

theorem pairwise (h : LieBetween start stop taken) :
    taken.Pairwise fun first second => first.1 + first.2.size.bytes ≤ second.1 := by
  induction taken generalizing start with
  | nil => exact .nil
  | cons first taken ih => exact .cons h.2.start_le (ih h.2)

theorem add_sum_le (h : LieBetween start stop taken) :
    start + (taken.map (·.2.size.bytes)).sum ≤ stop := by
  induction taken generalizing start with
  | nil => exact h
  | cons first taken ih =>
    obtain ⟨before, rest⟩ := h
    have inside := ih rest
    rw [List.map_cons, List.sum_cons]
    omega

theorem le_stop (h : LieBetween start stop taken) :
    ∀ entry ∈ taken, entry.1 + entry.2.size.bytes ≤ stop := by
  induction taken generalizing start with
  | nil => exact fun _ absent => absurd absent List.not_mem_nil
  | cons first taken ih =>
    have inside := h.2.add_sum_le
    exact List.forall_mem_cons.2 ⟨Nat.le_trans (Nat.le_add_right _ _) inside, ih h.2⟩

end LieBetween

end Engine

end IncrementalGlr
