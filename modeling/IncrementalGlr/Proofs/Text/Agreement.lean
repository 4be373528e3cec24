import IncrementalGlr.Proofs.Text.Boundary

/-!
# Texts that agree up to some byte

What a lexer or a parser examined of a text is known by its reach: the characters that start before
it, and the end of the text if the reach goes beyond.
-/

namespace IncrementalGlr

def startingBefore : Nat → List Char → List Char
  | _, [] => []
  | 0, _ :: _ => []
  | reach + 1, c :: cs => c :: startingBefore (reach + 1 - c.utf8Size) cs

structure Agree (reach : Nat) (cs ds : List Char) : Prop where
  chars : startingBefore reach cs = startingBefore reach ds
  stop : (Length.ofChars cs).bytes < reach → (Length.ofChars ds).bytes = (Length.ofChars cs).bytes

namespace Agree

variable {reach : Nat} {cs ds es : List Char}

theorem refl (reach : Nat) (cs : List Char) : Agree reach cs cs := ⟨rfl, fun _ => rfl⟩

theorem trans (first : Agree reach cs ds) (second : Agree reach ds es) : Agree reach cs es := by
  refine ⟨first.chars.trans second.chars, ?_⟩
  intro beyond
  have same := first.stop beyond
  rw [← same]
  exact second.stop (by rwa [same])

theorem nil (h : Agree reach [] ds) (pos : 0 < reach) : ds = [] :=
  Length.eq_nil_of_bytes_ofChars (h.stop pos)

theorem cons {c : Char} (h : Agree reach (c :: cs) ds) (pos : 0 < reach) :
    ∃ rest, ds = c :: rest ∧ Agree (reach - c.utf8Size) cs rest := by
  obtain ⟨reach, rfl⟩ := Nat.exists_eq_add_one.2 pos
  have chars := h.chars
  cases ds with
  | nil => contradiction
  | cons d rest =>
      simp only [startingBefore, List.cons.injEq] at chars
      obtain ⟨rfl, chars⟩ := chars
      refine ⟨rest, rfl, chars, ?_⟩
      intro beyond
      have stop := h.stop
      simp only [Length.ofChars_cons, Length.bytes_append, Length.bytes_ofChar] at stop
      omega

theorem append {x : List Char} (h : Agree reach (x ++ cs) ds)
    (le : (Length.ofChars x).bytes ≤ reach) :
    ∃ rest, ds = x ++ rest ∧ Agree (reach - (Length.ofChars x).bytes) cs rest := by
  induction x generalizing reach ds with
  | nil => exact ⟨ds, rfl, h⟩
  | cons c x ih =>
    have pos := c.utf8Size_pos
    simp only [Length.ofChars_cons, Length.bytes_append, Length.bytes_ofChar] at le ⊢
    obtain ⟨behind, rfl, first⟩ := h.cons (by omega)
    obtain ⟨rest, rfl, agree⟩ := ih first (by omega)
    rw [Nat.sub_sub] at agree
    exact ⟨rest, rfl, agree⟩

theorem startingBefore_mono {less : Nat} (le : less ≤ reach)
    (same : startingBefore reach cs = startingBefore reach ds) :
    startingBefore less cs = startingBefore less ds := by
  induction cs generalizing less reach ds with
  | nil =>
    cases ds with
    | nil => rfl
    | cons d ds =>
      cases reach with
      | zero =>
        rw [Nat.le_zero.1 le]
        rfl
      | succ reach => contradiction
  | cons c cs ih =>
    cases less with
    | zero => cases ds <;> rfl
    | succ less =>
      obtain ⟨reach, rfl⟩ := Nat.exists_eq_add_one.2 (Nat.lt_of_lt_of_le less.succ_pos le)
      cases ds with
      | nil => contradiction
      | cons d ds =>
        simp only [startingBefore, List.cons.injEq] at same ⊢
        exact ⟨same.1, by rw [same.1] at *; exact ih (by omega) same.2⟩

theorem mono {less : Nat} (h : Agree reach cs ds) (le : less ≤ reach) : Agree less cs ds :=
  ⟨startingBefore_mono le h.chars, fun beyond => h.stop (Nat.lt_of_lt_of_le beyond le)⟩

end Agree

theorem startingBefore_append {reach : Nat} {x : List Char}
    (le : reach ≤ (Length.ofChars x).bytes) (cs : List Char) :
    startingBefore reach (x ++ cs) = startingBefore reach x := by
  induction x generalizing reach with
  | nil =>
    have none : reach = 0 := by simpa using le
    subst none
    cases cs <;> rfl
  | cons c x ih =>
    cases reach with
    | zero => rfl
    | succ reach =>
      simp only [List.cons_append, startingBefore]
      rw [ih]
      simp only [Length.ofChars_cons, Length.bytes_append, Length.bytes_ofChar] at le
      omega

theorem agree_append {reach : Nat} {x : List Char} (le : reach ≤ (Length.ofChars x).bytes)
    (cs ds : List Char) : Agree reach (x ++ cs) (x ++ ds) := by
  refine ⟨?_, ?_⟩
  · rw [startingBefore_append le, startingBefore_append le]
  · rw [Length.bytes_ofChars_append]
    omega

theorem startingBefore_prefix (reach : Nat) (cs : List Char) : startingBefore reach cs <+: cs := by
  induction cs generalizing reach with
  | nil => exact List.prefix_refl _
  | cons c cs ih =>
    cases reach with
    | zero => exact List.nil_prefix
    | succ reach => exact List.cons_prefix_cons.2 ⟨rfl, ih _⟩

theorem le_bytes_startingBefore {reach : Nat} {cs : List Char}
    (le : reach ≤ (Length.ofChars cs).bytes) :
    reach ≤ (Length.ofChars (startingBefore reach cs)).bytes := by
  induction cs generalizing reach with
  | nil => exact le
  | cons c cs ih =>
    cases reach with
    | zero => exact Nat.zero_le _
    | succ reach =>
      simp only [startingBefore, Length.ofChars_cons, Length.bytes_append, Length.bytes_ofChar] at le ⊢
      have rest := ih (show reach + 1 - c.utf8Size ≤ (Length.ofChars cs).bytes by omega)
      omega

theorem startingBefore_of_le {reach : Nat} {cs : List Char}
    (le : (Length.ofChars cs).bytes ≤ reach) : startingBefore reach cs = cs := by
  induction cs generalizing reach with
  | nil => cases reach <;> rfl
  | cons c cs ih =>
    have pos := c.utf8Size_pos
    simp only [Length.ofChars_cons, Length.bytes_append, Length.bytes_ofChar] at le
    obtain ⟨reach, rfl⟩ := Nat.exists_eq_add_one.2 (show 0 < reach by omega)
    rw [startingBefore, ih (by omega)]

theorem agree_of_examined {reach : Nat} {cs ds : List Char}
    (chars : startingBefore reach cs <+: ds)
    (stop : (Length.ofChars cs).bytes < reach →
      (Length.ofChars ds).bytes = (Length.ofChars cs).bytes) : Agree reach cs ds := by
  rcases Nat.lt_or_ge (Length.ofChars cs).bytes reach with beyond | inside
  · rw [startingBefore_of_le (Nat.le_of_lt beyond)] at chars
    obtain ⟨rest, rfl⟩ := chars
    have none : rest = [] := by
      apply Length.eq_nil_of_bytes_ofChars
      have same := stop beyond
      rw [Length.bytes_ofChars_append] at same
      omega
    rw [none, List.append_nil]
    exact Agree.refl reach cs
  · obtain ⟨rest, whole⟩ := startingBefore_prefix reach cs
    obtain ⟨rest', rfl⟩ := chars
    have agree := agree_append (le_bytes_startingBefore inside) rest rest'
    rwa [whole] at agree

end IncrementalGlr
