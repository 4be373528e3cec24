/-!
# Values with numbers

A value is numbered by its place in an array, to which it is added if it is not there.
-/

namespace IncrementalGlr

variable {α : Type} {xs : Array α} {x : α}

theorem getElem?_push_of_eq_some {i : Nat} {y : α} (h : xs[i]? = some y) :
    (xs.push x)[i]? = some y := by
  have inside := (Array.getElem?_eq_some_iff.1 h).1
  rw [Array.getElem?_push_lt inside, ← Array.getElem?_eq_getElem inside, h]

theorem forall_getElem?_push {p : Nat → α → Prop} (old : ∀ i y, xs[i]? = some y → p i y)
    (new : p xs.size x) : ∀ i y, (xs.push x)[i]? = some y → p i y := by
  intro i y found
  rw [Array.getElem?_push] at found
  split at found
  · next last =>
    cases found
    exact last ▸ new
  · exact old i y found

theorem forall_getElem?_modify {p : Nat → α → Prop} {f : α → α} {place : Nat}
    (old : ∀ i y, xs[i]? = some y → p i y) (keeps : ∀ i y, p i y → p i (f y)) :
    ∀ i y, (xs.modify place f)[i]? = some y → p i y := by
  intro i y found
  rw [Array.getElem?_modify] at found
  split at found
  · obtain ⟨x, there, rfl⟩ := Option.map_eq_some_iff.1 found
    exact keeps i x (old i x there)
  · exact old i y found

structure Interned (xs : Array α) (x : α) (answer : Nat × Array α) : Prop where
  kept : ∀ (i : Nat) (y : α), xs[i]? = some y → answer.2[i]? = some y
  here : answer.2[answer.1]? = some x
  mem : ∀ y ∈ answer.2, y ∈ xs ∨ y = x
  nodup : xs.toList.Nodup → answer.2.toList.Nodup

theorem interned_findIdx? [BEq α] [LawfulBEq α] (xs : Array α) (x : α) :
    Interned xs x (match xs.findIdx? (· == x) with
      | some id => (id, xs)
      | none => (xs.size, xs.push x)) := by
  split
  · next place found =>
    obtain ⟨inside, same, _⟩ := Array.findIdx?_eq_some_iff_getElem.1 found
    refine ⟨fun _ _ there => there, ?_, fun _ => .inl, id⟩
    rw [Array.getElem?_eq_getElem inside, eq_of_beq same]
  · next absent =>
    refine ⟨fun _ _ => getElem?_push_of_eq_some, Array.getElem?_push_size,
      fun y => Array.mem_push.1, fun nodup => ?_⟩
    rw [Array.toList_push, List.nodup_append]
    refine ⟨nodup, List.pairwise_singleton .., ?_⟩
    rintro y member _ last rfl
    rw [List.mem_singleton.1 last] at member
    simpa using Array.findIdx?_eq_none_iff.1 absent x (Array.mem_toList_iff.1 member)

theorem Interned.size_le {answer : Nat × Array α} (h : Interned xs x answer) :
    xs.size ≤ answer.2.size := by
  refine Nat.le_of_not_lt fun less => ?_
  have := (Array.getElem?_eq_some_iff.1 (h.kept _ _ (Array.getElem?_eq_getElem less))).1
  exact Nat.lt_irrefl _ this

theorem Interned.lt_size {answer : Nat × Array α} (h : Interned xs x answer) :
    answer.1 < answer.2.size :=
  (Array.getElem?_eq_some_iff.1 h.here).1

end IncrementalGlr
