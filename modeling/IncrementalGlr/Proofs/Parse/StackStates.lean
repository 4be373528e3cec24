import Mathlib.Data.List.TakeWhile
import IncrementalGlr.Proofs.Parse.Stack

/-!
# The states of a stack

What a stack does next depends on the states behind its subtrees that are no extras. Extras leave a
stack in the state it was in, so that these states tell the state of the top too, and a reduction
takes as many of them off as it has children.
-/

namespace IncrementalGlr

namespace Stack

variable {stack other upper lower below : Stack} {tree : Subtree}

theorem states_append (upper lower : Stack) :
    states (upper ++ lower) = upper.states ++ lower.states := by
  simp [states]

theorem states_push_extra {tree : Subtree} (outside : tree.isExtra = true) (state : StateId) :
    (stack.push tree state).states = stack.states := by
  rw [push, states, List.filter_cons_of_neg (by simp [outside])]
  rfl

theorem states_push {tree : Subtree} (counted : tree.isExtra = false) (state : StateId) :
    (stack.push tree state).states = state :: stack.states := by
  rw [push, states, List.filter_cons_of_pos (by simp [counted])]
  rfl

theorem states_pushExtras {extras : List Subtree} (outside : ∀ tree ∈ extras, tree.isExtra = true)
    (state : StateId) :
    states (extras.foldl (fun stack tree => stack.push tree state) stack) = stack.states := by
  induction extras generalizing stack with
  | nil => rfl
  | cons tree extras ih =>
    rw [List.foldl_cons, ih fun other member => outside other (List.mem_cons_of_mem _ member)]
    exact states_push_extra (outside tree (List.mem_cons_self ..)) state

theorem states_dropWhile {p : StackEntry → Bool} (extras : ∀ entry, p entry = true →
    entry.subtree.isExtra = true) : states (stack.dropWhile p) = stack.states := by
  induction stack with
  | nil => rfl
  | cons entry below ih =>
    rw [List.dropWhile_cons]
    split
    · next passed =>
      rw [ih, states, states, List.filter_cons_of_neg (by simp [extras entry passed])]
    · rfl

theorem counted_of_dropWhile {top : StackEntry}
    (found : stack.dropWhile (fun entry => entry.subtree.isExtra) = top :: lower) :
    top.subtree.isExtra = false := by
  have counted := List.head_dropWhile_not (fun entry => entry.subtree.isExtra)
    (l := stack) (by simp [found])
  simpa [found] using counted

theorem sameStates_iff : stack.sameStates other = true ↔ stack.states = other.states := by
  induction stack generalizing other with
  | nil =>
    have none : states other = [] ↔ ∀ entry ∈ other, entry.subtree.isExtra = true := by
      simp [states, List.filter_eq_nil_iff]
    rw [sameStates, List.all_eq_true, ← none]
    exact eq_comm
  | cons entry below ih =>
    rw [sameStates]
    cases outside : entry.subtree.isExtra with
    | true => simpa [states, outside] using ih
    | false =>
      have skipped : states (other.dropWhile fun entry => entry.subtree.isExtra) = other.states :=
        states_dropWhile fun _ => id
      rw [← skipped]
      cases found : other.dropWhile fun entry => entry.subtree.isExtra with
      | nil => simp [states, outside]
      | cons top rest =>
        have counted := counted_of_dropWhile found
        simp [states, outside, counted, ih]

def Steady : Stack → Prop
  | [] => True
  | entry :: below =>
    (entry.subtree.isExtra = true → entry.state = Stack.state below) ∧ Steady below

theorem Steady.of_append (steady : Steady (upper ++ lower)) : lower.Steady := by
  induction upper with
  | nil => exact steady
  | cons entry upper ih => exact ih steady.2

theorem Steady.push (steady : stack.Steady) {next : StateId}
    (stays : tree.isExtra = true → next = stack.state) : (stack.push tree next).Steady :=
  ⟨stays, steady⟩

theorem Steady.pushAll (steady : stack.Steady) {next : StateId} (stays : next = stack.state)
    (trees : List Subtree) :
    Steady (trees.foldl (fun stack tree => stack.push tree next) stack) := by
  induction trees generalizing stack with
  | nil => exact steady
  | cons tree trees ih => exact ih (steady.push fun _ => stays) rfl

theorem Steady.state (steady : stack.Steady) : StateTrace.state stack.states = stack.state := by
  induction stack with
  | nil => rfl
  | cons entry below ih =>
    cases outside : entry.subtree.isExtra with
    | true =>
      have same : states (entry :: below) = states below := by simp [states, outside]
      rw [same, ih steady.2]
      exact (steady.1 outside).symm
    | false => simp [states, outside, StateTrace.state, Stack.state]

theorem length_take {count : Nat} {taken : List Subtree}
    (h : stack.take count = some (taken, lower)) :
    (taken.filter fun tree => !tree.isExtra).length = count := by
  induction stack generalizing count taken with
  | nil =>
    cases count with
    | zero =>
      cases h
      rfl
    | succ count => contradiction
  | cons entry below ih =>
    cases count with
    | zero =>
      cases h
      rfl
    | succ count =>
      rw [take, Option.map_eq_some_iff] at h
      obtain ⟨⟨others, rest⟩, took, eq⟩ := h
      cases eq
      have others := ih took
      cases outside : entry.subtree.isExtra with
      | true => simpa [outside] using others
      | false => simpa [outside] using others

theorem pop_spec {count : Nat} {popped : Popped} (h : stack.pop count = some popped) :
    (popped.children.filter fun tree => !tree.isExtra).length = count ∧
      ∀ tree ∈ popped.trailing, tree.isExtra = true := by
  rw [pop, Option.map_eq_some_iff] at h
  obtain ⟨⟨children, below⟩, took, rfl⟩ := h
  rw [popEntries, Option.map_eq_some_iff] at took
  obtain ⟨⟨taken, rest⟩, took, same⟩ := took
  cases same
  refine ⟨?_, fun tree member => ?_⟩
  · rw [List.filter_reverse, List.length_reverse]
    exact length_take took
  · obtain ⟨entry, there, rfl⟩ := List.mem_map.1 (List.mem_reverse.1 member)
    have passed := List.mem_takeWhile_imp there
    exact (Bool.and_eq_true_iff.1 passed).2

theorem exists_take {count : Nat} (enough : count ≤ stack.states.length) :
    ∃ taken lower, stack.take count = some (taken, lower) ∧
      lower.states = stack.states.drop count := by
  induction stack generalizing count with
  | nil =>
    obtain rfl : count = 0 := Nat.le_zero.1 enough
    exact ⟨[], [], rfl, rfl⟩
  | cons entry below ih =>
    cases count with
    | zero => exact ⟨[], _, rfl, rfl⟩
    | succ count =>
      cases outside : entry.subtree.isExtra with
      | true =>
        rw [states, List.filter_cons_of_neg (by simp [outside])] at enough ⊢
        obtain ⟨taken, lower, took, left⟩ := ih enough
        exact ⟨entry.subtree :: taken, lower, by simp [take, outside, took], left⟩
      | false =>
        rw [states, List.filter_cons_of_pos (by simp [outside])] at enough ⊢
        obtain ⟨taken, lower, took, left⟩ := ih (Nat.le_of_succ_le_succ enough)
        exact ⟨entry.subtree :: taken, lower, by simp [take, outside, took], left⟩

theorem exists_pop {count : Nat} (enough : count ≤ stack.states.length) :
    ∃ popped, stack.pop count = some popped ∧ popped.below.states = stack.states.drop count := by
  have same : states (stack.dropWhile fun entry => decide (count > 0) && entry.subtree.isExtra)
      = stack.states :=
    states_dropWhile fun entry passed => (Bool.and_eq_true_iff.1 passed).2
  obtain ⟨taken, lower, took, left⟩ := exists_take (same ▸ enough)
  rw [same] at left
  obtain ⟨popped, done, rfl⟩ : ∃ popped, stack.pop count = some popped ∧
      popped.below = lower := by
    rw [pop, popEntries, took]
    exact ⟨_, rfl, rfl⟩
  exact ⟨popped, done, left⟩

end Stack

namespace ParseInput

variable {input : ParseInput} {stack reduced : Stack}

theorem states_reduce {reach : Nat}
    {isFragile : Bool} {symbol : SymbolId} {childCount : UInt16} {production : ProductionId}
    {popped : Stack.Popped} {next : StateId} (took : stack.pop childCount.toNat = some popped)
    (goes : input.language.goto? popped.below.state symbol = some next)
    (done : input.reduce stack reach isFragile symbol childCount production = some reduced) :
    reduced.states = next :: popped.below.states := by
  simp only [reduce, took, goes, Option.bind_eq_bind, Option.bind_some, Option.pure_def,
    Option.some.injEq] at done
  rw [← done, Stack.states_pushExtras (Stack.pop_spec took).2, Stack.states_push]
  split <;> rfl

theorem steady_reduce (steady : stack.Steady) {reach : Nat} {isFragile : Bool} {symbol : SymbolId}
    {childCount : UInt16} {production : ProductionId}
    (done : input.reduce stack reach isFragile symbol childCount production = some reduced) :
    reduced.Steady := by
  obtain ⟨popped, next, node, took, _, rfl, rfl⟩ := reduce_eq_some done
  obtain ⟨upper, rfl, _⟩ := Stack.pop_eq_some took
  refine (steady.of_append.push fun outside => ?_).pushAll rfl _
  split at outside <;> contradiction

theorem exists_reduce (steady : stack.Steady) {symbol : SymbolId} {childCount : UInt16}
    {next : StateId} (enough : childCount.toNat ≤ stack.states.length)
    (goes : input.language.goto? (StateTrace.state (stack.states.drop childCount.toNat)) symbol =
      some next) (reach : Nat) (isFragile : Bool) (production : ProductionId) :
    ∃ reduced, input.reduce stack reach isFragile symbol childCount production = some reduced ∧
      reduced.states = next :: stack.states.drop childCount.toNat := by
  obtain ⟨popped, took, left⟩ := Stack.exists_pop enough
  obtain ⟨upper, whole, _⟩ := Stack.pop_eq_some took
  rw [whole] at steady
  rw [← left, steady.of_append.state] at goes
  obtain ⟨reduced, done⟩ : ∃ reduced,
      input.reduce stack reach isFragile symbol childCount production = some reduced := by
    simp [reduce, took, goes]
  exact ⟨reduced, done, left ▸ states_reduce took goes done⟩

end ParseInput

end IncrementalGlr
