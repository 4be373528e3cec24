import IncrementalGlr.Proofs.Grammar.Operators

/-!
# Expressions as their operators group them

An alternating sequence of numbers and operators is read from left to right. The operations that
still wait for their right operand are kept; the next operator either takes the operand in front of
it, or closes the innermost of them first. What comes out respects all levels and associativities,
and is the only expression for the sequence that does.
-/

namespace IncrementalGlr

namespace Operator

def MayBeRight (outer inner : Operator) : Prop :=
  outer.level < inner.level ∨ outer.level = inner.level ∧ outer.associativity = .right

def MayBeLeft (outer inner : Operator) : Prop :=
  outer.level < inner.level ∨ outer.level = inner.level ∧ inner.associativity = .left

instance (outer inner : Operator) : Decidable (outer.MayBeRight inner) :=
  inferInstanceAs (Decidable (_ ∨ _))

theorem mayBeLeft_of_not_mayBeRight {first next : Operator} (h : ¬ first.MayBeRight next) :
    next.MayBeLeft first := by
  simp only [MayBeRight, not_or, not_and] at h
  rcases Int.lt_or_eq_of_le (Int.not_lt.1 h.1) with less | same
  · exact .inl less
  · refine .inr ⟨same, ?_⟩
    cases declared : first.associativity with
    | left => rfl
    | right => exact absurd declared (h.2 same.symm)

theorem not_mayBeRight_of_mayBeLeft {first next : Operator} (h : next.MayBeLeft first) :
    ¬ first.MayBeRight next := by
  rintro (less | ⟨same, right⟩)
  · rcases h with more | ⟨same, _⟩ <;> omega
  · rcases h with more | ⟨_, left⟩
    · omega
    · cases left.symm.trans right

theorem MayBeRight.trans_left {outer inner first : Operator} (h : outer.MayBeRight inner)
    (h' : inner.MayBeLeft first) : outer.MayBeRight first := by
  rcases h with more | ⟨same, right⟩
  · exact .inl (by rcases h' with more' | ⟨same', _⟩ <;> omega)
  · rcases h' with more' | ⟨same', _⟩
    · exact .inl (same ▸ more')
    · exact .inr ⟨same.trans same', right⟩

theorem MayBeLeft.trans_right {outer inner last : Operator} (h : outer.MayBeLeft inner)
    (h' : inner.MayBeRight last) : outer.level < last.level := by
  rcases h with more | ⟨same, left⟩
  · rcases h' with more' | ⟨same', _⟩ <;> omega
  · rcases h' with more' | ⟨_, right⟩
    · omega
    · cases left.symm.trans right

end Operator

inductive Expression (α : Type) where
  | number
  | operation (operator : α) (left right : Expression α)
  deriving Repr

namespace Expression

variable {α : Type}

def root? : Expression α → Option α
  | number => none
  | operation operator _ _ => some operator

/-- The operators from left to right; a number stands on either side of each. -/
def operators : Expression α → List α
  | number => []
  | operation operator left right => left.operators ++ operator :: right.operators

/-- Every operation has only operands that its level and the associativities allow. -/
def Respects (ranks : α → Operator) : Expression α → Prop
  | number => True
  | operation operator left right =>
    (∀ inner ∈ left.root?, (ranks operator).MayBeLeft (ranks inner)) ∧
      (∀ inner ∈ right.root?, (ranks operator).MayBeRight (ranks inner)) ∧
      left.Respects ranks ∧ right.Respects ranks

/-- The expression that is read from the operations that wait for their right operand, the innermost
first, the operand behind them, and the operators to come. -/
def group (ranks : α → Operator) : List (Expression α × α) → Expression α → List α → Expression α
  | [], operand, [] => operand
  | [], operand, next :: rest => group ranks [(operand, next)] number rest
  | (left, operator) :: waiting, operand, [] =>
    group ranks waiting (operation operator left operand) []
  | (left, operator) :: waiting, operand, next :: rest =>
    if (ranks operator).MayBeRight (ranks next) then
      group ranks ((operand, next) :: (left, operator) :: waiting) number rest
    else group ranks waiting (operation operator left operand) (next :: rest)
termination_by waiting _ rest => 2 * rest.length + waiting.length

/-- The operators of waiting operations and their left operands. -/
def before : List (Expression α × α) → List α
  | [] => []
  | (left, operator) :: waiting => before waiting ++ left.operators ++ [operator]

theorem operators_group (ranks : α → Operator) (waiting : List (Expression α × α))
    (operand : Expression α) (rest : List α) :
    (group ranks waiting operand rest).operators = before waiting ++ operand.operators ++ rest := by
  fun_induction group ranks waiting operand rest with
  | case1 operand => simp [before]
  | case2 operand next rest ih => simpa [before, operators] using ih
  | case3 left operator waiting operand ih => simpa [before, operators] using ih
  | case4 left operator waiting operand next rest _ ih => simpa [before, operators] using ih
  | case5 left operator waiting operand next rest _ ih => simpa [before, operators] using ih

inductive Waits (ranks : α → Operator) : List (Expression α × α) → Prop
  | nil : Waits ranks []
  | cons {left : Expression α} {operator : α} {waiting : List (Expression α × α)}
      (respects : left.Respects ranks)
      (inner : ∀ other ∈ left.root?, (ranks operator).MayBeLeft (ranks other))
      (around : ∀ outer ∈ waiting.head?, (ranks outer.2).MayBeRight (ranks operator))
      (others : Waits ranks waiting) : Waits ranks ((left, operator) :: waiting)

theorem respects_group {ranks : α → Operator} {waiting : List (Expression α × α)}
    {operand : Expression α} {rest : List α} (waits : Waits ranks waiting)
    (respects : operand.Respects ranks)
    (right : ∀ other ∈ operand.root?, ∀ outer ∈ waiting.head?,
      (ranks outer.2).MayBeRight (ranks other))
    (left : ∀ other ∈ operand.root?, ∀ next ∈ rest.head?, (ranks next).MayBeLeft (ranks other)) :
    (group ranks waiting operand rest).Respects ranks := by
  fun_induction group ranks waiting operand rest with
  | case1 operand => exact respects
  | case2 operand next rest ih =>
    exact ih (.cons respects (fun other root => left other root next rfl) (by simp) .nil) trivial
      (by simp [root?]) (by simp [root?])
  | case3 leftOperand operator waiting operand ih =>
    cases waits with
    | cons respects' inner around others =>
      refine ih others ⟨inner, fun other root => right other root _ rfl, respects', respects⟩
        ?_ (by simp)
      rintro other ⟨⟩
      exact around
  | case4 leftOperand operator waiting operand next rest takes ih =>
    refine ih (.cons respects (fun other root => left other root next rfl) ?_ waits) trivial
      (by simp [root?]) (by simp [root?])
    rintro outer ⟨⟩
    exact takes
  | case5 leftOperand operator waiting operand next rest closes ih =>
    cases waits with
    | cons respects' inner around others =>
      refine ih others ⟨inner, fun other root => right other root _ rfl, respects', respects⟩
        ?_ ?_
      · rintro other ⟨⟩
        exact around
      · rintro other ⟨⟩ _ ⟨⟩
        exact Operator.mayBeLeft_of_not_mayBeRight closes

/-- An expression that respects all levels and associativities is read as one operand, if the
waiting operation may have it on the right and the next one may have it on the left. -/
theorem group_operators {ranks : α → Operator} {expression : Expression α}
    (respects : expression.Respects ranks) (waiting : List (Expression α × α)) (rest : List α)
    (right : ∀ root ∈ expression.root?, ∀ outer ∈ waiting.head?,
      (ranks outer.2).MayBeRight (ranks root))
    (left : ∀ root ∈ expression.root?, ∀ next ∈ rest.head?, (ranks next).MayBeLeft (ranks root)) :
    group ranks waiting number (expression.operators ++ rest)
      = group ranks waiting expression rest := by
  induction expression generalizing waiting rest with
  | number => rfl
  | operation operator first second ihFirst ihSecond =>
    obtain ⟨inFirst, inSecond, respectsFirst, respectsSecond⟩ := respects
    have outer : ∀ outer ∈ waiting.head?, (ranks outer.2).MayBeRight (ranks operator) :=
      right operator rfl
    have next : ∀ next ∈ rest.head?, (ranks next).MayBeLeft (ranks operator) := left operator rfl
    rw [operators, List.append_assoc, List.cons_append,
      ihFirst respectsFirst waiting _ (fun root member around inside =>
        (outer around inside).trans_left (inFirst root member)) (fun root member behind same => by
          cases same
          exact inFirst root member)]
    -- the operator takes its left operand, and what comes behind it is its right operand
    have shifted : group ranks waiting first (operator :: (second.operators ++ rest))
        = group ranks ((first, operator) :: waiting) number (second.operators ++ rest) := by
      cases waiting with
      | nil => rw [group]
      | cons around waiting => rw [group, if_pos (outer around rfl)]
    rw [shifted, ihSecond respectsSecond _ _ (fun root member around inside => by
        cases inside
        exact inSecond root member) (fun root member behind inside =>
          .inl ((next behind inside).trans_right (inSecond root member)))]
    cases rest with
    | nil => rw [group]
    | cons behind rest =>
      rw [group, if_neg (Operator.not_mayBeRight_of_mayBeLeft (next behind rfl))]

theorem eq_group {ranks : α → Operator} {expression : Expression α}
    (respects : expression.Respects ranks) :
    expression = group ranks [] number expression.operators := by
  have read := group_operators respects [] [] (by simp) (by simp)
  rw [List.append_nil] at read
  rw [read, group]

end Expression

end IncrementalGlr
