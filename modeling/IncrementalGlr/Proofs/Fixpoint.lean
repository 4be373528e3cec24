import Mathlib.Data.Finset.Card
import IncrementalGlr.Fixpoint

/-!
# Iterations that grow

A value is seen through its members. A function that only adds members, all of them out of a finite
universe, stands still after as many rounds as the universe has members and one more.
-/

namespace IncrementalGlr

variable {α β ι : Type}

theorem stabilize_keeps [BEq α] {f : α → α} {p : α → Prop} (keeps : ∀ x, p x → p (f x)) {x : α}
    {fuel : Nat} (start : p x) : p (stabilize f fuel x) := by
  induction fuel generalizing x with
  | zero => exact start
  | succ fuel ih =>
    rw [stabilize]
    split
    · exact start
    · exact ih (keeps x start)

structure Members (α ι : Type) where
  valid : α → Prop
  mem : α → ι → Bool
  all : Finset ι
  ext : ∀ {x y}, valid x → valid y → (∀ i ∈ all, mem x i = mem y i) → x = y

namespace Members

variable {members : Members α ι} {f g : α → α} {x y z : α}

def Le (members : Members α ι) (x y : α) : Prop :=
  ∀ i, members.mem x i = true → members.mem y i = true

theorem Le.refl (x : α) : members.Le x x := fun _ member => member

theorem Le.trans (first : members.Le x y) (second : members.Le y z) : members.Le x z :=
  fun i member => second i (first i member)

theorem Le.antisymm (hx : members.valid x) (hy : members.valid y) (first : members.Le x y)
    (second : members.Le y x) : x = y :=
  members.ext hx hy fun i _ => Bool.eq_iff_iff.2 ⟨first i, second i⟩

def Grows (members : Members α ι) (f : α → α) : Prop :=
  ∀ x, members.valid x → members.valid (f x) ∧ members.Le x (f x)

def count (members : Members α ι) (x : α) : Nat :=
  (members.all.filter fun i => members.mem x i = true).card

theorem count_le (members : Members α ι) (x : α) : members.count x ≤ members.all.card :=
  Finset.card_filter_le _ _

theorem count_lt (hx : members.valid x) (hy : members.valid y) (le : members.Le x y)
    (ne : y ≠ x) : members.count x < members.count y := by
  apply Finset.card_lt_card
  rw [Finset.ssubset_iff_subset_ne]
  refine ⟨fun i => ?_, fun same => ne (members.ext hy hx fun i inside => ?_)⟩
  · simp only [Finset.mem_filter]
    exact fun h => ⟨h.1, le i h.2⟩
  · have here := congrArg (i ∈ ·) same
    simp only [Finset.mem_filter, inside, true_and, eq_iff_iff] at here
    exact Bool.eq_iff_iff.2 here.symm

theorem stabilize_of [BEq α] [LawfulBEq α] (members : Members α ι) {p : α → Prop} (fuel : Nat)
    (keeps : ∀ x, p x → p (f x) ∧ members.valid x ∧ members.Le x (f x))
    (enough : members.all.card < members.count x + fuel) (start : p x) :
    p (stabilize f fuel x) ∧ f (stabilize f fuel x) = stabilize f fuel x
      ∧ members.Le x (stabilize f fuel x) := by
  induction fuel generalizing x with
  | zero => exact absurd (members.count_le x) (by omega)
  | succ fuel ih =>
    obtain ⟨next, valid, le⟩ := keeps x start
    rw [stabilize]
    split
    · next same => exact ⟨start, eq_of_beq same, Le.refl x⟩
    · next other =>
        have more := count_lt valid (keeps _ next).2.1 le fun same => other (beq_iff_eq.2 same)
        obtain ⟨last, fixed, above⟩ := ih (by omega) next
        exact ⟨last, fixed, le.trans above⟩

theorem Grows.stabilize [BEq α] [LawfulBEq α] (grows : members.Grows f) (fuel : Nat)
    (enough : members.all.card < fuel) (start : members.valid x) :
    members.valid (stabilize f fuel x) ∧ f (stabilize f fuel x) = stabilize f fuel x
      ∧ members.Le x (stabilize f fuel x) :=
  members.stabilize_of fuel (p := members.valid)
    (fun y valid => ⟨(grows y valid).1, valid, (grows y valid).2⟩) (by omega) start

theorem Grows.foldl {step : α → β → α} {bs : List β}
    (grows : ∀ b ∈ bs, members.Grows fun x => step x b) :
    members.Grows fun x => bs.foldl step x := by
  induction bs with
  | nil => exact fun x valid => ⟨valid, Le.refl x⟩
  | cons b bs ih =>
    intro x valid
    obtain ⟨next, le⟩ := grows b (List.mem_cons_self ..) x valid
    obtain ⟨last, above⟩ := ih (fun b member => grows b (List.mem_cons_of_mem _ member)) _ next
    exact ⟨last, le.trans above⟩

theorem foldl_fixed {step : α → β → α} {bs : List β}
    (grows : ∀ b ∈ bs, members.Grows fun x => step x b) (valid : members.valid x)
    (fixed : bs.foldl step x = x) : ∀ b ∈ bs, step x b = x := by
  induction bs with
  | nil => exact fun b member => absurd member List.not_mem_nil
  | cons b bs ih =>
    have others := fun b member => grows b (List.mem_cons_of_mem _ member)
    obtain ⟨next, le⟩ := grows b (List.mem_cons_self ..) x valid
    have back := (Grows.foldl others _ next).2
    rw [List.foldl_cons] at fixed
    dsimp only at back
    rw [fixed] at back
    have here : step x b = x := (le.antisymm valid next back).symm
    rw [here] at fixed
    intro other member
    rcases List.mem_cons.1 member with rfl | member
    · exact here
    · exact ih others fixed other member

end Members

end IncrementalGlr
