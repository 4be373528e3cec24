import Mathlib.Order.Defs.PartialOrder
import IncrementalGlr.Proofs.Text.Boundary

/-!
# Scales

Places of a text are told from one another by their bytes alone, or by their rows and columns as
well. Either way more text leads to a place that is not before, and a place that fits into words is
the same after it was put into words.
-/

namespace IncrementalGlr

namespace Length

instance : LE Length := ⟨fun a b => a.bytes ≤ b.bytes ∧ b.extent.before a.extent = false⟩

theorem le_def {a b : Length} : a ≤ b ↔ a.bytes ≤ b.bytes ∧
    (a.extent.row < b.extent.row ∨ a.extent.row = b.extent.row ∧
      a.extent.column ≤ b.extent.column) := by
  refine and_congr_right fun _ => ?_
  simp only [Point.before, Bool.or_eq_false_iff, Bool.and_eq_false_iff, decide_eq_false_iff_not,
    beq_eq_false_iff_ne]
  omega

instance : Preorder Length where
  le_refl a := le_def.2 ⟨Nat.le_refl _, .inr ⟨rfl, Nat.le_refl _⟩⟩
  le_trans a b c := by
    simp only [le_def]
    omega

theorem le_append_right (a b : Length) : a ≤ a ++ b := by
  rw [le_def, append_def, append]
  refine ⟨Nat.le_add_right _ _, ?_⟩
  dsimp only
  split
  · exact .inl (Nat.lt_add_of_pos_right ‹_›)
  · exact .inr ⟨rfl, Nat.le_add_right _ _⟩

theorem append_le_append_left (a : Length) {b c : Length} (h : b ≤ c) : a ++ b ≤ a ++ c := by
  rw [le_def] at h ⊢
  refine ⟨Nat.add_le_add_left h.1 _, ?_⟩
  simp only [append_def, append]
  by_cases first : b.extent.row > 0 <;> by_cases second : c.extent.row > 0 <;>
    simp only [first, second, if_true, if_false, true_and] <;> omega

theorem IsWord.of_append_right {a b : Length} (h : (a ++ b).IsWord) : b.IsWord := by
  obtain ⟨bytes, row, column⟩ := h
  simp only [append_def, append] at bytes row column
  refine ⟨by omega, ?_, ?_⟩
  · split at row <;> simp only at row <;> omega
  · split at column <;> simp only at column <;> omega

end Length

/-- A way to tell which places fit into words, and which of two places is not behind the other. -/
structure Scale where
  Fits : Length → Prop
  Le : Length → Length → Prop
  fits_of_isWord : ∀ {a}, a.IsWord → Fits a
  fits_of_append : ∀ {a b}, Fits (a ++ b) → Fits b
  refl : ∀ a, Le a a
  trans : ∀ {a b c}, Le a b → Le b c → Le a c
  le_append : ∀ a b, Le a (a ++ b)
  append_le : ∀ a {b c}, Le b c → Le (a ++ b) (a ++ c)
  le_wrapped : ∀ {a}, Fits a → Le a a.wrapped
  wrapped_le : ∀ {a}, Fits a → Le a.wrapped a

namespace Scale

def bytes : Scale where
  Fits a := a.bytes < UInt32.size
  Le a b := a.bytes ≤ b.bytes
  fits_of_isWord word := word.bytes
  fits_of_append fits := Nat.lt_of_le_of_lt (Nat.le_add_left _ _) fits
  refl _ := Nat.le_refl _
  trans := Nat.le_trans
  le_append _ _ := Nat.le_add_right _ _
  append_le _ _ _ le := Nat.add_le_add_left le _
  le_wrapped fits := Nat.le_of_eq (Nat.mod_eq_of_lt fits).symm
  wrapped_le fits := Nat.le_of_eq (Nat.mod_eq_of_lt fits)

def points : Scale where
  Fits := Length.IsWord
  Le a b := a ≤ b
  fits_of_isWord := id
  fits_of_append := Length.IsWord.of_append_right
  refl := le_refl
  trans := le_trans
  le_append := Length.le_append_right
  append_le a _ _ := Length.append_le_append_left a
  le_wrapped word := le_of_eq word.wrapped.symm
  wrapped_le word := le_of_eq word.wrapped

end Scale

end IncrementalGlr
