import Mathlib
import IncrementalGlr.Grammar.Basic

/-!
# What rules mean

The meaning of a grammar as it is written: every rule has a language, and together these languages
are the least solution of the rules read as equations. The letters of the language are the tokens of
the grammar.
-/

abbrev Words (α : Type) := Language α

namespace IncrementalGlr

open Computability

/-- A token of a grammar: a rule or an external token of that name, a string in a rule, or a pattern
or a marked token in a rule. -/
inductive Lexeme where
  | named (name : String)
  | string (text : String)
  | token (rule : Rule)

variable {α β : Type}

namespace Rule

mutual

/-- The language of a rule whose names have the languages `env`, in the spelling `spell`. -/
def language (spell : Lexeme → α) (env : String → Words α) : Rule → Words α
  | .blank => 1
  | .string text => {[spell (.string text)]}
  | .pattern source => {[spell (.token (.pattern source))]}
  | .symbol name => env name
  | .seq rules => languageOfSeq spell env rules
  | .choice rules => languageOfChoice spell env rules
  | .repeat1 inner => inner.language spell env * (inner.language spell env)∗
  | .withMetadata metadata inner =>
    if metadata.token then {[spell (.token (.withMetadata metadata inner))]}
    else inner.language spell env

def languageOfSeq (spell : Lexeme → α) (env : String → Words α) : List Rule → Words α
  | [] => 1
  | rule :: rest => rule.language spell env * languageOfSeq spell env rest

def languageOfChoice (spell : Lexeme → α) (env : String → Words α) : List Rule → Words α
  | [] => 0
  | rule :: rest => rule.language spell env + languageOfChoice spell env rest

end

mutual

def lexemes : Rule → List Lexeme
  | .blank => []
  | .string text => [.string text]
  | .pattern source => [.token (.pattern source)]
  | .symbol _ => []
  | .seq rules => lexemesOf rules
  | .choice rules => lexemesOf rules
  | .repeat1 inner => inner.lexemes
  | .withMetadata metadata inner =>
    if metadata.token then [.token (.withMetadata metadata inner)] else inner.lexemes

def lexemesOf : List Rule → List Lexeme
  | [] => []
  | rule :: rest => rule.lexemes ++ lexemesOf rest

end

mutual

theorem language_mono {spell : Lexeme → α} {env other : String → Words α}
    (le : ∀ name, env name ≤ other name) (rule : Rule) :
    rule.language spell env ≤ rule.language spell other := by
  cases rule with
  | blank => exact le_rfl
  | string text => exact le_rfl
  | pattern source => exact le_rfl
  | symbol name => exact le name
  | seq rules => exact languageOfSeq_mono le rules
  | choice rules => exact languageOfChoice_mono le rules
  | repeat1 inner =>
    have below : inner.language spell env ≤ inner.language spell other := language_mono le inner
    exact mul_le_mul' below (kstar_mono below)
  | withMetadata metadata inner =>
    rw [language, language]
    split
    · exact le_rfl
    · exact language_mono le inner

theorem languageOfSeq_mono {spell : Lexeme → α} {env other : String → Words α}
    (le : ∀ name, env name ≤ other name) (rules : List Rule) :
    languageOfSeq spell env rules ≤ languageOfSeq spell other rules := by
  cases rules with
  | nil => exact le_rfl
  | cons rule rest => exact mul_le_mul' (language_mono le rule) (languageOfSeq_mono le rest)

theorem languageOfChoice_mono {spell : Lexeme → α} {env other : String → Words α}
    (le : ∀ name, env name ≤ other name) (rules : List Rule) :
    languageOfChoice spell env rules ≤ languageOfChoice spell other rules := by
  cases rules with
  | nil => exact le_rfl
  | cons rule rest => exact add_le_add (language_mono le rule) (languageOfChoice_mono le rest)

end

theorem map_singleton (f : α → β) (word : List α) :
    Language.map f {word} = ({word.map f} : Words β) :=
  Set.image_singleton

mutual

theorem map_language (f : α → β) (spell : Lexeme → α) (env : String → Words α) (rule : Rule) :
    Language.map f (rule.language spell env)
      = rule.language (f ∘ spell) fun name => Language.map f (env name) := by
  cases rule with
  | blank => exact map_one (Language.map f)
  | string text => exact map_singleton f _
  | pattern source => exact map_singleton f _
  | symbol name => rfl
  | seq rules => exact map_languageOfSeq f spell env rules
  | choice rules => exact map_languageOfChoice f spell env rules
  | repeat1 inner =>
    rw [language, language, map_mul, Language.map_kstar, map_language f spell env inner]
  | withMetadata metadata inner =>
    rw [language, language]
    split
    · exact map_singleton f _
    · exact map_language f spell env inner

theorem map_languageOfSeq (f : α → β) (spell : Lexeme → α) (env : String → Words α)
    (rules : List Rule) : Language.map f (languageOfSeq spell env rules)
      = languageOfSeq (f ∘ spell) (fun name => Language.map f (env name)) rules := by
  cases rules with
  | nil => exact map_one (Language.map f)
  | cons rule rest =>
    rw [languageOfSeq, languageOfSeq, map_mul, map_language f spell env rule,
      map_languageOfSeq f spell env rest]

theorem map_languageOfChoice (f : α → β) (spell : Lexeme → α) (env : String → Words α)
    (rules : List Rule) : Language.map f (languageOfChoice spell env rules)
      = languageOfChoice (f ∘ spell) (fun name => Language.map f (env name)) rules := by
  cases rules with
  | nil => exact map_zero (Language.map f)
  | cons rule rest =>
    rw [languageOfChoice, languageOfChoice, map_add, map_language f spell env rule,
      map_languageOfChoice f spell env rest]

end

end Rule

namespace Grammar

variable {grammar : Grammar}

def NamesToken (grammar : Grammar) (name : String) : Prop :=
  (∃ rule, (name, rule) ∈ grammar.rules ∧ rule.isToken = true) ∨
    Rule.symbol name ∈ grammar.externals

inductive Mentions (grammar : Grammar) : Lexeme → Prop
  | named {name : String} (names : grammar.NamesToken name) : Mentions grammar (.named name)
  | inside {name : String} {rule : Rule} {lexeme : Lexeme} (member : (name, rule) ∈ grammar.rules)
      (compound : rule.isToken = false) (there : lexeme ∈ rule.lexemes) : Mentions grammar lexeme

def meaning (grammar : Grammar) (spell : Lexeme → α) (env : String → Words α) (name : String) :
    Words α :=
  {word | (∃ rule, (name, rule) ∈ grammar.rules ∧ rule.isToken = false ∧
      word ∈ rule.language spell env) ∨
    (grammar.NamesToken name ∧ word = [spell (.named name)])}

def equations (grammar : Grammar) (spell : Lexeme → α) :
    (String → Words α) →o (String → Words α) where
  toFun env := grammar.meaning spell env
  monotone' env other le name word := by
    rintro (⟨rule, member, compound, there⟩ | there)
    · exact .inl ⟨rule, member, compound, Rule.language_mono le rule there⟩
    · exact .inr there

def languages (grammar : Grammar) (spell : Lexeme → α) : String → Words α :=
  OrderHom.lfp (grammar.equations spell)

def language (grammar : Grammar) (name : String) : Words Lexeme := grammar.languages id name

theorem meaning_languages (grammar : Grammar) (spell : Lexeme → α) (name : String) :
    grammar.meaning spell (grammar.languages spell) name = grammar.languages spell name :=
  congrFun (OrderHom.map_lfp (grammar.equations spell)) name

theorem languages_le {spell : Lexeme → α} {env : String → Words α}
    (closed : ∀ name, grammar.meaning spell env name ≤ env name) (name : String) :
    grammar.languages spell name ≤ env name :=
  OrderHom.lfp_le (grammar.equations spell) (fun name => closed name) name

theorem map_meaning (f : α → β) (spell : Lexeme → α) (env : String → Words α) (name : String) :
    Language.map f (grammar.meaning spell env name)
      = grammar.meaning (f ∘ spell) (fun name => Language.map f (env name)) name := by
  ext word
  constructor
  · rintro ⟨word, ⟨rule, member, compound, there⟩ | ⟨names, rfl⟩, rfl⟩
    · refine .inl ⟨rule, member, compound, ?_⟩
      rw [← Rule.map_language]
      exact ⟨word, there, rfl⟩
    · exact .inr ⟨names, rfl⟩
  · rintro (⟨rule, member, compound, there⟩ | ⟨names, rfl⟩)
    · rw [← Rule.map_language] at there
      obtain ⟨word, there, rfl⟩ := there
      exact ⟨word, .inl ⟨rule, member, compound, there⟩, rfl⟩
    · exact ⟨_, .inr ⟨names, rfl⟩, rfl⟩

theorem map_languages (f : α → β) (spell : Lexeme → α) (name : String) :
    Language.map f (grammar.languages spell name) = grammar.languages (f ∘ spell) name := by
  refine le_antisymm ?_ ?_
  · let back : String → Words α := fun name =>
      {word | word.map f ∈ grammar.languages (f ∘ spell) name}
    have below : ∀ name, Language.map f (back name) ≤ grammar.languages (f ∘ spell) name := by
      rintro name _ ⟨word, there, rfl⟩
      exact there
    have least : ∀ name, grammar.languages spell name ≤ back name := by
      refine fun name => languages_le (fun name word there => ?_) name
      have mapped : word.map f ∈ Language.map f (grammar.meaning spell back name) :=
        ⟨word, there, rfl⟩
      rw [map_meaning] at mapped
      change word.map f ∈ grammar.languages (f ∘ spell) name
      rw [← meaning_languages]
      exact (grammar.equations (f ∘ spell)).monotone below name mapped
    rintro _ ⟨word, there, rfl⟩
    exact least name there
  · have closed : ∀ name, grammar.meaning (f ∘ spell)
        (fun name => Language.map f (grammar.languages spell name)) name
          ≤ Language.map f (grammar.languages spell name) := by
      intro name
      rw [← map_meaning, meaning_languages]
    exact languages_le closed name

end Grammar

end IncrementalGlr
