import Mathlib
import IncrementalGlr.Lexical.Nfa
import IncrementalGlr.Proofs.Interning
import IncrementalGlr.Proofs.Lexical.Language

/-!
# Runs of nondeterministic automata

A run leads from a state to an accepting one and reads a text. From the entry of the states that
are added for an expression, the runs read the language of the expression and then whatever is read
from the state behind it. That fewer steps are left behind the expression than in front of it is
what makes a loop read no more than repetitions of its body.
-/

namespace IncrementalGlr

open Computability

namespace Nfa

inductive Run (nfa : Nfa) (final : Nat) : Nat → Nat → List Char → Prop
  | stop : Run nfa final 0 final []
  | split {id target steps : Nat} {targets : List Nat} {text : List Char}
      (found : nfa.states[id]? = some (.split targets)) (listed : target ∈ targets)
      (rest : Run nfa final steps target text) : Run nfa final (steps + 1) id text
  | advance {id next steps : Nat} {chars : CharSet} {c : Char} {text : List Char}
      (found : nfa.states[id]? = some (.advance chars next)) (has : chars.Has c.toNat)
      (rest : Run nfa final steps next text) : Run nfa final (steps + 1) id (c :: text)

def reads (nfa : Nfa) (final id : Nat) : Texts := {text | ∃ steps, nfa.Run final steps id text}

def readsWithin (nfa : Nfa) (final steps id : Nat) : Texts :=
  {text | ∃ fewer ≤ steps, nfa.Run final fewer id text}

def Extends (nfa other : Nfa) : Prop :=
  ∀ (id : Nat) (state : NfaState), nfa.states[id]? = some state → other.states[id]? = some state

def ExtendsFrom (first : Nat) (nfa other : Nfa) : Prop :=
  ∀ (id : Nat) (state : NfaState), first ≤ id → nfa.states[id]? = some state →
    other.states[id]? = some state

variable {nfa other whole : Nfa} {final terminal id next steps fewer : Nat} {text : List Char}

theorem Extends.refl (nfa : Nfa) : nfa.Extends nfa := fun _ _ found => found

theorem Extends.trans {last : Nfa} (h : nfa.Extends other) (h' : other.Extends last) :
    nfa.Extends last :=
  fun id state found => h' id state (h id state found)

theorem Extends.size_le (h : nfa.Extends other) : nfa.states.size ≤ other.states.size := by
  refine Nat.le_of_not_lt fun less => ?_
  have := (Array.getElem?_eq_some_iff.1 (h _ _ (Array.getElem?_eq_getElem less))).1
  exact Nat.lt_irrefl _ this

theorem extends_push (state : NfaState) : nfa.Extends (nfa.push state).2 :=
  fun _ _ => getElem?_push_of_eq_some

theorem Extends.from (h : nfa.Extends other) {first : Nat} (kept : ExtendsFrom first other whole) :
    ExtendsFrom first nfa whole :=
  fun id state inside found => kept id state inside (h id state found)

theorem ExtendsFrom.mono {first later : Nat} (h : ExtendsFrom first nfa whole)
    (le : first ≤ later) : ExtendsFrom later nfa whole :=
  fun id state inside found => h id state (Nat.le_trans le inside) found

theorem ExtendsFrom.pushed {state : NfaState}
    (h : ExtendsFrom nfa.states.size (nfa.push state).2 whole) :
    whole.states[nfa.states.size]? = some state :=
  h _ _ (Nat.le_refl _) Array.getElem?_push_size

theorem readsWithin_mono (le : fewer ≤ steps) :
    nfa.readsWithin final fewer id ≤ nfa.readsWithin final steps id := by
  rintro text ⟨count, bounded, run⟩
  exact ⟨count, Nat.le_trans bounded le, run⟩

section Accepting

variable (accepts : whole.states[final]? = some (.accept terminal))
include accepts

theorem exists_of_mem_readsWithin_split {targets : List Nat}
    (found : whole.states[id]? = some (.split targets))
    (h : text ∈ whole.readsWithin final steps id) :
    ∃ target ∈ targets, ∃ fewer < steps, text ∈ whole.readsWithin final fewer target := by
  obtain ⟨count, bounded, run⟩ := h
  cases run with
  | stop => exact nomatch found.symm.trans accepts
  | split found' listed rest =>
    cases found.symm.trans found'
    exact ⟨_, listed, _, bounded, _, Nat.le_refl _, rest⟩
  | advance found' => exact nomatch found.symm.trans found'

theorem readsWithin_advance {chars : CharSet}
    (found : whole.states[id]? = some (.advance chars next)) :
    whole.readsWithin final steps id ≤ chars.language * whole.readsWithin final steps next := by
  rintro text ⟨count, bounded, run⟩
  cases run with
  | stop => exact nomatch found.symm.trans accepts
  | split found' => exact nomatch found.symm.trans found'
  | @advance _ _ fewer _ c rest found' has run =>
    cases found.symm.trans found'
    exact Language.append_mem_mul (a := [c]) ⟨c, has, rfl⟩ ⟨fewer, Nat.le_of_succ_le bounded, run⟩

end Accepting

theorem eq_of_run_accept {terminal' : Nat} (found : whole.states[id]? = some (.accept terminal'))
    (run : whole.Run final steps id text) : id = final ∧ text = [] := by
  cases run with
  | stop => exact ⟨rfl, rfl⟩
  | split found' => exact nomatch found.symm.trans found'
  | advance found' => exact nomatch found.symm.trans found'

theorem reads_le_of_split {targets : List Nat} {target : Nat}
    (found : whole.states[id]? = some (.split targets)) (listed : target ∈ targets) :
    whole.reads final target ≤ whole.reads final id := by
  rintro text ⟨steps, run⟩
  exact ⟨steps + 1, .split found listed run⟩

theorem mul_reads_le_of_advance {chars : CharSet}
    (found : whole.states[id]? = some (.advance chars next)) :
    chars.language * whole.reads final next ≤ whole.reads final id := by
  intro text h
  obtain ⟨_, ⟨c, has, rfl⟩, rest, ⟨steps, run⟩, rfl⟩ := Language.mem_mul.1 h
  exact ⟨steps + 1, .advance found has run⟩

structure Adds (whole : Nfa) (final : Nat) (language : Texts) (piece : Nat → Nfa → Nat × Nfa) :
    Prop where
  grows : ∀ next nfa, Extends nfa (piece next nfa).2
  sound : ∀ next nfa, ExtendsFrom nfa.states.size (piece next nfa).2 whole → ∀ steps,
    whole.readsWithin final steps (piece next nfa).1 ≤ language * whole.readsWithin final steps next
  complete : ∀ next nfa, ExtendsFrom nfa.states.size (piece next nfa).2 whole →
    language * whole.reads final next ≤ whole.reads final (piece next nfa).1

structure AddsAll (whole : Nfa) (final : Nat) (language : Texts)
    (pieces : Nat → Nfa → List Nat × Nfa) : Prop where
  grows : ∀ next nfa, Extends nfa (pieces next nfa).2
  sound : ∀ next nfa, ExtendsFrom nfa.states.size (pieces next nfa).2 whole →
    ∀ entry ∈ (pieces next nfa).1, ∀ steps,
      whole.readsWithin final steps entry ≤ language * whole.readsWithin final steps next
  complete : ∀ next nfa, ExtendsFrom nfa.states.size (pieces next nfa).2 whole →
    ∀ text ∈ language * whole.reads final next,
      ∃ entry ∈ (pieces next nfa).1, text ∈ whole.reads final entry

variable {language behind : Texts} {piece rest : Nat → Nfa → Nat × Nfa}

theorem adds_nothing : Adds whole final 1 fun next nfa => (next, nfa) where
  grows _ nfa := .refl nfa
  sound _ _ _ _ := (one_mul _).ge
  complete _ _ _ := (one_mul _).le

theorem Adds.seq (h : Adds whole final language piece) (h' : Adds whole final behind rest) :
    Adds whole final (language * behind)
      fun next nfa => piece (rest next nfa).1 (rest next nfa).2 where
  grows next nfa := (h'.grows next nfa).trans (h.grows _ _)
  sound next nfa kept steps := by
    have inner := (h.grows _ _).from kept
    have outer := kept.mono (h'.grows next nfa).size_le
    calc _ ≤ language * whole.readsWithin final steps (rest next nfa).1 := h.sound _ _ outer steps
      _ ≤ language * (behind * whole.readsWithin final steps next) :=
        mul_le_mul_right (h'.sound _ _ inner steps) language
      _ = language * behind * whole.readsWithin final steps next := (mul_assoc ..).symm
  complete next nfa kept := by
    have inner := (h.grows _ _).from kept
    have outer := kept.mono (h'.grows next nfa).size_le
    calc language * behind * whole.reads final next
      _ = language * (behind * whole.reads final next) := mul_assoc ..
      _ ≤ language * whole.reads final (rest next nfa).1 :=
        mul_le_mul_right (h'.complete _ _ inner) language
      _ ≤ _ := h.complete _ _ outer

theorem Adds.times (h : Adds whole final language piece) (count : Nat) :
    Adds whole final (language ^ count) (pushTimes piece count) := by
  induction count with
  | zero => exact (pow_zero language).symm ▸ adds_nothing
  | succ count ih => exact (pow_succ language count).symm ▸ ih.seq h

theorem adds_set (accepts : whole.states[final]? = some (.accept terminal)) (chars : CharSet) :
    Adds whole final chars.language fun next nfa => nfa.push (.advance chars next) where
  grows _ _ := extends_push _
  sound _ _ kept _ := readsWithin_advance accepts kept.pushed
  complete _ _ kept := mul_reads_le_of_advance kept.pushed

theorem AddsAll.split (accepts : whole.states[final]? = some (.accept terminal))
    {pieces : Nat → Nfa → List Nat × Nfa} (h : AddsAll whole final language pieces) :
    Adds whole final language
      fun next nfa => (pieces next nfa).2.push (.split (pieces next nfa).1) where
  grows next nfa := (h.grows next nfa).trans (extends_push _)
  sound next nfa kept steps := by
    have found := (kept.mono (h.grows next nfa).size_le).pushed
    intro text read
    obtain ⟨entry, listed, fewer, less, read⟩ :=
      exists_of_mem_readsWithin_split accepts found read
    have within := h.sound next nfa ((extends_push _).from kept) entry listed fewer read
    exact mul_le_mul_right (readsWithin_mono (Nat.le_of_lt less)) language within
  complete next nfa kept := by
    have found := (kept.mono (h.grows next nfa).size_le).pushed
    intro text read
    obtain ⟨entry, listed, read⟩ := h.complete next nfa ((extends_push _).from kept) text read
    exact reads_le_of_split found listed read

theorem Adds.orElse (h : Adds whole final language piece) {others : Nat → Nfa → List Nat × Nfa}
    (h' : AddsAll whole final behind others) :
    AddsAll whole final (language + behind) fun next nfa =>
      ((piece next nfa).1 :: (others next (piece next nfa).2).1,
        (others next (piece next nfa).2).2) where
  grows next nfa := (h.grows next nfa).trans (h'.grows _ _)
  sound next nfa kept entry listed steps := by
    rw [add_mul]
    intro text read
    rcases List.mem_cons.1 listed with rfl | listed
    · exact .inl (h.sound _ _ ((h'.grows _ _).from kept) steps read)
    · exact .inr (h'.sound _ _ (kept.mono (h.grows next nfa).size_le) entry listed steps read)
  complete next nfa kept text read := by
    rw [add_mul] at read
    rcases read with read | read
    · exact ⟨_, List.mem_cons_self .., h.complete _ _ ((h'.grows _ _).from kept) read⟩
    · obtain ⟨entry, listed, read⟩ :=
        h'.complete _ _ (kept.mono (h.grows next nfa).size_le) text read
      exact ⟨entry, List.mem_cons_of_mem _ listed, read⟩

/-- A state that goes on at the piece, which leads back to it, or at the next state. The state is
made before the piece, so that the piece can lead back. -/
def pushLoop (piece : Nat → Nfa → Nat × Nfa) (next : Nat) (nfa : Nfa) : Nat × Nfa :=
  let hub := nfa.states.size
  let body := piece hub (nfa.push (.split [])).2
  (hub, ⟨body.2.states.setIfInBounds hub (.split [body.1, next])⟩)

theorem Adds.loop_kept (h : Adds whole final language piece)
    (kept : ExtendsFrom nfa.states.size (pushLoop piece next nfa).2 whole) :
    let body := piece nfa.states.size (nfa.push (.split [])).2
    whole.states[nfa.states.size]? = some (.split [body.1, next]) ∧
      ExtendsFrom (nfa.push (.split [])).2.states.size body.2 whole := by
  have inside : nfa.states.size < (nfa.push (.split [])).2.states.size := by simp [push]
  have grown := (h.grows nfa.states.size (nfa.push (.split [])).2).size_le
  constructor
  · exact kept _ _ (Nat.le_refl _)
      (Array.getElem?_setIfInBounds_self_of_lt (Nat.lt_of_lt_of_le inside grown))
  · intro id state behind found
    refine kept id state (Nat.le_trans (Nat.le_of_lt inside) behind) ?_
    rw [pushLoop, Array.getElem?_setIfInBounds_ne (by omega)]
    exact found

theorem Adds.loop (accepts : whole.states[final]? = some (.accept terminal))
    (h : Adds whole final language piece) : Adds whole final language∗ (pushLoop piece) where
  grows next nfa id state found := by
    have other : nfa.states.size ≠ id := Nat.ne_of_gt (Array.getElem?_eq_some_iff.1 found).1
    rw [pushLoop, Array.getElem?_setIfInBounds_ne other]
    exact h.grows _ _ id state (extends_push _ id state found)
  sound next nfa kept := by
    obtain ⟨hub, body⟩ := h.loop_kept kept
    intro steps
    induction steps using Nat.strong_induction_on with
    | _ steps ih =>
      intro text read
      obtain ⟨target, listed, fewer, less, read⟩ :=
        exists_of_mem_readsWithin_split accepts hub read
      have later : whole.readsWithin final fewer next ≤ whole.readsWithin final steps next :=
        readsWithin_mono (Nat.le_of_lt less)
      have covered : whole.readsWithin final fewer target ≤
          language∗ * whole.readsWithin final steps next := by
        simp only [List.mem_cons, List.not_mem_nil, or_false] at listed
        rcases listed with rfl | rfl
        -- through the piece, back to the hub with fewer steps
        · calc _ ≤ language * whole.readsWithin final fewer nfa.states.size := h.sound _ _ body _
            _ ≤ language * (language∗ * whole.readsWithin final fewer next) :=
              mul_le_mul_right (ih fewer less) language
            _ = language * language∗ * whole.readsWithin final fewer next := (mul_assoc ..).symm
            _ ≤ language∗ * whole.readsWithin final steps next := mul_le_mul' mul_kstar_le_kstar later
        · calc _ = 1 * whole.readsWithin final fewer target := (one_mul _).symm
            _ ≤ language∗ * whole.readsWithin final steps target := mul_le_mul' one_le_kstar later
      exact covered read
  complete next nfa kept := by
    obtain ⟨hub, body⟩ := h.loop_kept kept
    refine kstar_mul_le (reads_le_of_split hub (by simp)) ?_
    exact (h.complete _ _ body).trans (reads_le_of_split hub (by simp))

theorem Adds.extends_optional (h : Adds whole final language piece) (next count entry : Nat)
    (nfa : Nfa) : nfa.Extends (pushOptional piece next count entry nfa).2 := by
  induction count generalizing entry nfa with
  | zero => exact .refl nfa
  | succ count ih => exact (h.grows entry nfa).trans ((extends_push _).trans (ih _ _))

theorem Adds.optional (accepts : whole.states[final]? = some (.accept terminal))
    (h : Adds whole final language piece) {count entry : Nat}
    (kept : ExtendsFrom nfa.states.size (pushOptional piece next count entry nfa).2 whole)
    (sound : ∀ steps, whole.readsWithin final steps entry ≤
      behind * whole.readsWithin final steps next)
    (complete : behind * whole.reads final next ≤ whole.reads final entry) :
    (∀ steps, whole.readsWithin final steps (pushOptional piece next count entry nfa).1 ≤
      optionalPowers language count behind * whole.readsWithin final steps next) ∧
    optionalPowers language count behind * whole.reads final next ≤
      whole.reads final (pushOptional piece next count entry nfa).1 := by
  induction count generalizing entry nfa behind with
  | zero => exact ⟨sound, complete⟩
  | succ count ih =>
    have grown := h.grows entry nfa
    have kept' := (h.extends_optional next count _ _).from
      (kept.mono grown.size_le : ExtendsFrom (piece entry nfa).2.states.size _ whole)
    have choice := kept'.pushed
    have body := ((extends_push _).trans (h.extends_optional next count _ _)).from kept
    refine ih (kept.mono (grown.trans (extends_push _)).size_le) (fun steps text read => ?_) ?_
    · obtain ⟨target, listed, fewer, less, read⟩ :=
        exists_of_mem_readsWithin_split accepts choice read
      have later : whole.readsWithin final fewer next ≤ whole.readsWithin final steps next :=
        readsWithin_mono (Nat.le_of_lt less)
      rw [add_mul, one_mul]
      simp only [List.mem_cons, List.not_mem_nil, or_false] at listed
      rcases listed with rfl | rfl
      · have through : whole.readsWithin final fewer (piece entry nfa).1 ≤
            language * behind * whole.readsWithin final steps next :=
          calc _ ≤ language * whole.readsWithin final fewer entry := h.sound _ _ body _
            _ ≤ language * (behind * whole.readsWithin final fewer next) :=
              mul_le_mul_right (sound fewer) language
            _ = language * behind * whole.readsWithin final fewer next := (mul_assoc ..).symm
            _ ≤ language * behind * whole.readsWithin final steps next :=
              mul_le_mul_right later _
        exact .inl (through read)
      · exact .inr (later read)
    · rw [add_mul, one_mul, mul_assoc]
      rintro text (read | read)
      · exact reads_le_of_split choice (by simp)
          (h.complete _ _ body (mul_le_mul_right complete language read))
      · exact reads_le_of_split choice (by simp) read

mutual

theorem adds_addRegex (accepts : whole.states[final]? = some (.accept terminal)) (regex : Regex)
    (made : regex.Made) : Adds whole final regex.language (addRegex regex) := by
  match regex with
  | .empty => exact adds_nothing
  | .set chars => exact adds_set accepts chars
  | .seq items =>
    cases made with
    | seq made => exact adds_addSeq accepts items made
  | .alt alternatives =>
    cases made with
    | alt made => exact (addsAll_addAlternatives accepts alternatives made).split accepts
  | .repetition inner low none =>
    cases made with
    | repetition made =>
      have piece := adds_addRegex accepts inner made
      rw [Regex.language, powersWithin_none]
      exact (piece.times low).seq (piece.loop accepts)
  | .repetition inner low (some high) =>
    cases made with
    | repetition made bounds =>
      have piece := adds_addRegex accepts inner made
      rw [Regex.language, powersWithin_some (bounds high rfl)]
      refine (piece.times low).seq ⟨fun next nfa => piece.extends_optional next _ next nfa,
        fun next nfa kept => ?_, fun next nfa kept => ?_⟩
      · exact (piece.optional accepts kept (fun _ => (one_mul _).ge) (one_mul _).le).1
      · exact (piece.optional accepts kept (fun _ => (one_mul _).ge) (one_mul _).le).2

theorem adds_addSeq (accepts : whole.states[final]? = some (.accept terminal))
    (items : List Regex) (made : ∀ item ∈ items, item.Made) :
    Adds whole final (Regex.languageOfSeq items) (addSeq items) := by
  match items with
  | [] => exact adds_nothing
  | item :: rest =>
    rw [List.forall_mem_cons] at made
    exact (adds_addRegex accepts item made.1).seq (adds_addSeq accepts rest made.2)

theorem addsAll_addAlternatives (accepts : whole.states[final]? = some (.accept terminal))
    (alternatives : List Regex) (made : ∀ alternative ∈ alternatives, alternative.Made) :
    AddsAll whole final (Regex.languageOfAlt alternatives) (addAlternatives alternatives) := by
  match alternatives with
  | [] => exact ⟨fun _ nfa => .refl nfa, by simp [addAlternatives], by simp [Regex.languageOfAlt]⟩
  | alternative :: rest =>
    rw [List.forall_mem_cons] at made
    exact (adds_addRegex accepts alternative made.1).orElse
      (addsAll_addAlternatives accepts rest made.2)

end

theorem extends_addRegex {regex : Regex} (made : regex.Made) (next : Nat) (nfa : Nfa) :
    nfa.Extends (addRegex regex next nfa).2 :=
  have accepts : (Nfa.mk #[.accept 0]).states[0]? = some (.accept 0) := rfl
  (adds_addRegex accepts regex made).grows next nfa

theorem readsWithin_le (steps id : Nat) : nfa.readsWithin final steps id ≤ nfa.reads final id :=
  fun _ ⟨fewer, _, run⟩ => ⟨fewer, run⟩

theorem reads_self (accepts : whole.states[final]? = some (.accept terminal)) :
    whole.reads final final = 1 := by
  ext text
  rw [Language.mem_one]
  constructor
  · rintro ⟨steps, run⟩
    exact (eq_of_run_accept accepts run).2
  · rintro rfl
    exact ⟨0, .stop⟩

theorem reads_addRegex (accepts : whole.states[final]? = some (.accept terminal)) {regex : Regex}
    (made : regex.Made) (kept : ExtendsFrom nfa.states.size (addRegex regex final nfa).2 whole) :
    whole.reads final (addRegex regex final nfa).1 = regex.language := by
  have adds := adds_addRegex accepts regex made
  refine le_antisymm (fun text read => ?_) ?_
  · obtain ⟨steps, run⟩ := read
    have own := adds.sound final nfa kept steps ⟨steps, Nat.le_refl _, run⟩
    rw [← mul_one regex.language, ← reads_self accepts]
    exact mul_le_mul_right (readsWithin_le steps final) _ own
  · calc regex.language
      _ = regex.language * whole.reads final final := by rw [reads_self accepts, mul_one]
      _ ≤ _ := adds.complete final nfa kept

end Nfa

end IncrementalGlr
