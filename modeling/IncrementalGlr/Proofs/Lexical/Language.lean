import Mathlib.Computability.Language
import IncrementalGlr.Proofs.Lexical.Ranges

/-!
# What expressions match

The meaning of a regular expression as a language, by recursion on the expression: a set matches its
characters, a sequence the products, alternatives the unions, and a repetition the powers within its
bounds.
-/

abbrev Texts := Language Char

namespace IncrementalGlr

open Computability

def CharSet.language (set : CharSet) : Texts :=
  {text | ∃ c : Char, set.Has c.toNat ∧ text = [c]}

def powersWithin (language : Texts) (low : Nat) (high : Option Nat) : Texts :=
  {text | ∃ count, low ≤ count ∧ (∀ bound ∈ high, count ≤ bound) ∧ text ∈ language ^ count}

namespace Regex

mutual

def language : Regex → Texts
  | .empty => 1
  | .set chars => chars.language
  | .seq items => languageOfSeq items
  | .alt alternatives => languageOfAlt alternatives
  | .repetition inner low high => powersWithin inner.language low high

def languageOfSeq : List Regex → Texts
  | [] => 1
  | item :: rest => item.language * languageOfSeq rest

def languageOfAlt : List Regex → Texts
  | [] => 0
  | alternative :: rest => alternative.language + languageOfAlt rest

end

end Regex

variable {language : Texts} {low high count : Nat} {text : List Char}

theorem Char.toNat_le_lastCodePoint (c : Char) : c.toNat ≤ lastCodePoint := by
  rcases c.valid with below | ⟨_, below⟩
  · exact Nat.le_of_lt (Nat.lt_trans below (by decide))
  · exact Nat.le_of_lt_succ below

theorem CharSet.has_single {c d : Char} : (CharSet.single c).Has d.toNat ↔ d = c := by
  simp only [CharSet.Has, CharSet.single, List.mem_singleton, exists_eq_left]
  refine ⟨fun between => Char.toNat_inj.1 (Nat.le_antisymm between.2 between.1), ?_⟩
  rintro rfl
  exact ⟨Nat.le_refl _, Nat.le_refl _⟩

theorem Regex.mem_language_literal {text : String} {word : List Char} :
    word ∈ (Regex.literal text).language ↔ word = text.toList := by
  rw [Regex.literal, Regex.language]
  generalize text.toList = chars
  induction chars generalizing word with
  | nil => exact Language.mem_one word
  | cons c chars ih =>
    rw [List.map_cons, Regex.languageOfSeq, Language.mem_mul]
    constructor
    · rintro ⟨_, ⟨d, has, rfl⟩, rest, read, rfl⟩
      rw [CharSet.has_single.1 has, ih.1 read]
      rfl
    · rintro rfl
      exact ⟨[c], ⟨c, CharSet.has_single.2 rfl, rfl⟩, chars, ih.2 rfl, rfl⟩

def optionalPowers (language : Texts) : Nat → Texts → Texts
  | 0, behind => behind
  | count + 1, behind => optionalPowers language count (language * behind + 1)

theorem mem_optionalPowers {first : Nat} {behind : Texts}
    (start : ∀ text, text ∈ behind ↔ ∃ power ≤ first, text ∈ language ^ power) :
    text ∈ optionalPowers language count behind ↔
      ∃ power ≤ first + count, text ∈ language ^ power := by
  induction count generalizing first behind with
  | zero => exact start text
  | succ count ih =>
    have longer : ∀ text, text ∈ language * behind + 1 ↔
        ∃ power ≤ first + 1, text ∈ language ^ power := by
      intro text
      rw [Language.mem_add, Language.mem_mul, Language.mem_one]
      constructor
      · rintro (⟨front, own, rest, read, rfl⟩ | rfl)
        · obtain ⟨power, bounded, read⟩ := (start rest).1 read
          refine ⟨power + 1, Nat.succ_le_succ bounded, ?_⟩
          rw [pow_succ']
          exact Language.append_mem_mul own read
        · exact ⟨0, Nat.zero_le _, rfl⟩
      · rintro ⟨_ | power, bounded, read⟩
        · exact .inr read
        · rw [pow_succ', Language.mem_mul] at read
          obtain ⟨front, own, rest, read, rfl⟩ := read
          exact .inl ⟨front, own, rest,
            (start rest).2 ⟨power, Nat.le_of_succ_le_succ bounded, read⟩, rfl⟩
    rw [optionalPowers, ih longer, Nat.add_right_comm first 1 count, ← Nat.add_assoc]

theorem powersWithin_none : powersWithin language low none = language ^ low * language∗ := by
  ext text
  rw [Language.kstar_eq_iSup_pow, Language.mul_iSup, Language.mem_iSup]
  constructor
  · rintro ⟨count, least, -, read⟩
    refine ⟨count - low, ?_⟩
    rwa [← pow_add, Nat.add_sub_cancel' least]
  · rintro ⟨more, read⟩
    rw [← pow_add] at read
    exact ⟨low + more, Nat.le_add_right .., by simp, read⟩

theorem powersWithin_some (bounds : low ≤ high) :
    powersWithin language low (some high) =
      language ^ low * optionalPowers language (high - low) 1 := by
  have start : ∀ text, text ∈ (1 : Texts) ↔ ∃ power ≤ 0, text ∈ language ^ power := by
    intro text
    simp
  ext text
  constructor
  · rintro ⟨count, least, most, read⟩
    rw [← Nat.add_sub_cancel' least, pow_add, Language.mem_mul] at read
    obtain ⟨front, own, rest, read, rfl⟩ := read
    refine Language.append_mem_mul own ((mem_optionalPowers start).2 ⟨count - low, ?_, read⟩)
    have := most high rfl
    omega
  · intro read
    obtain ⟨front, own, rest, behind, rfl⟩ := Language.mem_mul.1 read
    obtain ⟨power, bounded, read⟩ := (mem_optionalPowers start).1 behind
    refine ⟨low + power, Nat.le_add_right .., fun bound member => ?_, ?_⟩
    · cases member
      omega
    · rw [pow_add]
      exact Language.append_mem_mul own read

end IncrementalGlr
