import Mathlib
import IncrementalGlr.Proofs.Grammar.Names
import IncrementalGlr.Proofs.Grammar.Solution

/-!
# What flattening makes of a rule

The productions of a rule stand for its language, whatever the languages of the nonterminals and of
the names are: the two are related as those languages are, by one inclusion or the other. For that
the language of a helper is related to one or more of what it repeats, and the productions of a
helper stand for that in turn.
-/

namespace IncrementalGlr

open Computability

/-! ## Equal rules -/

namespace Rule

theorem eq_of_beq_true : (∀ a b : Rule, a.beq b = true → a = b) ∧
    ∀ as bs : List Rule, beqList as bs = true → as = bs := by
  apply Rule.beq.mutual_induct
  case case8 =>
    intro p a q b inner same
    rw [beq, Bool.and_eq_true, beq_iff_eq] at same
    rw [same.1, inner same.2]
  case case11 =>
    intro a as b bs first rest same
    rw [beqList, Bool.and_eq_true] at same
    rw [first same.1, rest same.2]
  all_goals simp_all [beq, beqList]

mutual

theorem beq_self (rule : Rule) : rule.beq rule = true := by
  cases rule with
  | blank => rfl
  | seq rules => exact beqList_self rules
  | choice rules => exact beqList_self rules
  | repeat1 inner => exact beq_self inner
  | withMetadata metadata inner =>
    rw [beq, beq_self inner, beq_self_eq_true, Bool.and_true]
  | _ => exact beq_self_eq_true _

theorem beqList_self (rules : List Rule) : beqList rules rules = true := by
  cases rules with
  | nil => rfl
  | cons rule rest => rw [beqList, beq_self rule, beqList_self rest, Bool.and_true]

end

instance : LawfulBEq Rule where
  rfl {rule} := beq_self rule
  eq_of_beq {a b} same := eq_of_beq_true.1 a b same

end Rule

/-! ## Terminals of tokens -/

def Lexeme.Fits (terminal : Terminal) : Lexeme → Prop
  | .named name => terminal.name = name ∧ terminal.named = true
  | .string text => terminal.name = text ∧ terminal.named = false ∧
      (terminal.isExternal = false → terminal.regex = some (Regex.literal text))
  | .token rule => terminal.visible = false ∧ terminal.precedence = rule.lexicalPrecedence ∧
      terminal.immediate = rule.isImmediate ∧
      ∃ label regex, rule.toRegex label = .ok regex ∧ terminal.regex = some regex

namespace Preparation

namespace Draft

def place? (draft : Draft) : Lexeme → Option Nat
  | .named name => (draft.byName.lookup name).bind fun symbol =>
    match symbol with
    | .terminal place => some place
    | .nonterminal _ => none
  | .string text => draft.strings.lookup text
  | .token rule => draft.tokens.lookup rule

def number (draft : Draft) (lexeme : Lexeme) : Nat := (draft.place? lexeme).getD 0

def productionsAt (draft : Draft) (index : Nat) : List FlatProduction :=
  (draft.nonterminals[index]?).elim [] (·.productions)

structure Placed (draft : Draft) : Prop where
  fits : ∀ lexeme place, draft.place? lexeme = some place →
    ∃ terminal, draft.terminals[place]? = some terminal ∧ lexeme.Fits terminal
  apart : ∀ lexeme other place, draft.place? lexeme = some place →
    draft.place? other = some place → lexeme = other

variable {draft next last : Draft}

theorem place?_named {name : String} {place : Nat} :
    draft.place? (.named name) = some place ↔
      draft.byName.lookup name = some (.terminal place) := by
  rw [place?, Option.bind_eq_some_iff]
  constructor
  · rintro ⟨symbol, found, same⟩
    cases symbol with
    | terminal other =>
      cases same
      exact found
    | nonterminal other => contradiction
  · exact fun found => ⟨_, found, rfl⟩

theorem Placed.inside (placed : draft.Placed) {lexeme : Lexeme} {place : Nat}
    (found : draft.place? lexeme = some place) : place < draft.terminals.size := by
  obtain ⟨terminal, there, _⟩ := placed.fits lexeme place found
  exact (Array.getElem?_eq_some_iff.1 there).1

theorem Placed.keep (placed : draft.Placed)
    (terminals : ∀ (place : Nat) terminal, draft.terminals[place]? = some terminal →
      ∃ other : Terminal, next.terminals[place]? = some other ∧
        ∀ lexeme : Lexeme, lexeme.Fits terminal → lexeme.Fits other)
    (places : ∀ lexeme place, next.place? lexeme = some place →
      draft.place? lexeme = some place) : next.Placed where
  fits lexeme place found := by
    obtain ⟨terminal, there, fits⟩ := placed.fits lexeme place (places lexeme place found)
    obtain ⟨other, here, keeps⟩ := terminals place terminal there
    exact ⟨other, here, keeps lexeme fits⟩
  apart lexeme other place found found' :=
    placed.apart lexeme other place (places _ _ found) (places _ _ found')

theorem Placed.congr (placed : draft.Placed) (terminals : next.terminals = draft.terminals)
    (places : ∀ lexeme, next.place? lexeme = draft.place? lexeme) : next.Placed :=
  placed.keep (fun _ terminal there => ⟨terminal, terminals ▸ there, fun _ => id⟩)
    fun lexeme _ found => places lexeme ▸ found

theorem Placed.push (placed : draft.Placed) {terminal : Terminal} {new : Lexeme}
    (terminals : next.terminals = draft.terminals.push terminal) (fits : new.Fits terminal)
    (places : ∀ lexeme place, next.place? lexeme = some place →
      lexeme = new ∧ place = draft.terminals.size ∨ draft.place? lexeme = some place) :
    next.Placed where
  fits lexeme place found := by
    rw [terminals]
    rcases places lexeme place found with ⟨rfl, rfl⟩ | old
    · exact ⟨terminal, Array.getElem?_push_size, fits⟩
    · obtain ⟨other, there, own⟩ := placed.fits lexeme place old
      have inside := placed.inside old
      exact ⟨other, by rw [Array.getElem?_push, if_neg (Nat.ne_of_lt inside), there], own⟩
  apart lexeme other place found found' := by
    rcases places lexeme place found with ⟨rfl, rfl⟩ | old
    · rcases places other _ found' with ⟨rfl, _⟩ | old'
      · rfl
      · exact absurd (placed.inside old') (Nat.lt_irrefl _)
    · rcases places other place found' with ⟨rfl, rfl⟩ | old'
      · exact absurd (placed.inside old) (Nat.lt_irrefl _)
      · exact placed.apart lexeme other place old old'

theorem Placed.string (placed : draft.Placed) {text : String} {terminal : Terminal}
    (fits : (Lexeme.string text).Fits terminal) :
    Placed { draft with
      terminals := draft.terminals.push terminal
      strings := (text, draft.terminals.size) :: draft.strings } := by
  refine placed.push rfl fits fun lexeme place found => ?_
  cases lexeme with
  | named name => exact .inr found
  | token rule => exact .inr found
  | string other =>
    refine (of_lookup_cons found).imp (fun here => ?_) id
    exact ⟨congrArg Lexeme.string here.1, here.2⟩

/-! ## What stays known -/

structure Known (draft next : Draft) : Prop where
  names : ∀ name symbol, draft.byName.lookup name = some symbol →
    next.byName.lookup name = some symbol
  strings : ∀ text place, draft.strings.lookup text = some place →
    next.strings.lookup text = some place
  tokens : ∀ rule place, draft.tokens.lookup rule = some place →
    next.tokens.lookup rule = some place
  repeats : ∀ key helper, draft.repeats.lookup key = some helper →
    next.repeats.lookup key = some helper

theorem Known.refl (draft : Draft) : draft.Known draft :=
  ⟨fun _ _ => id, fun _ _ => id, fun _ _ => id, fun _ _ => id⟩

theorem Known.trans (first : draft.Known next) (second : next.Known last) : draft.Known last where
  names _ _ found := second.names _ _ (first.names _ _ found)
  strings _ _ found := second.strings _ _ (first.strings _ _ found)
  tokens _ _ found := second.tokens _ _ (first.tokens _ _ found)
  repeats _ _ found := second.repeats _ _ (first.repeats _ _ found)

theorem Known.place? (known : draft.Known next) {lexeme : Lexeme} {place : Nat}
    (found : draft.place? lexeme = some place) : next.place? lexeme = some place := by
  cases lexeme with
  | named name => exact place?_named.2 (known.names _ _ (place?_named.1 found))
  | string text => exact known.strings _ _ found
  | token rule => exact known.tokens _ _ found

theorem Known.number (known : draft.Known next) {lexeme : Lexeme} {place : Nat}
    (found : draft.place? lexeme = some place) : next.number lexeme = place := by
  rw [Draft.number, known.place? found, Option.getD_some]

/-! ## Productions that stand for languages -/

structure Congruent (r : Words Nat → Words Nat → Prop) : Prop where
  refl : ∀ a, r a a
  add : ∀ {a b c d}, r a b → r c d → r (a + c) (b + d)
  mul : ∀ {a b c d}, r a b → r c d → r (a * c) (b * d)

/-- Symbols are related to the languages of their names, and helpers of rules below the size to one
or more of those rules. -/
structure Relates (draft : Draft) (r : Words Nat → Words Nat → Prop)
    (own : Nat → Words Nat) (env : String → Words Nat) (size : Nat) : Prop where
  names : ∀ name symbol, draft.byName.lookup name = some symbol →
    r (symbol.language own) (env name)
  repeats : ∀ (inner : Rule) context helper, draft.repeats.lookup (inner, context) = some helper →
    sizeOf inner < size →
      r (own helper) (inner.language draft.number env * (inner.language draft.number env)∗)

structure Stands (draft : Draft) (productions : List FlatProduction) (size : Nat)
    (lexemes : List Lexeme)
    (language : (Lexeme → Nat) → (String → Words Nat) → Words Nat) : Prop where
  relates : ∀ last, draft.Known last → ∀ r, Congruent r → ∀ own env, last.Relates r own env size →
    r (languageOfAlternatives own productions) (language last.number env)
  placed : ∀ lexeme ∈ lexemes, (draft.place? lexeme).isSome = true

abbrev Means (draft : Draft) (productions : List FlatProduction) (rule : Rule) : Prop :=
  draft.Stands productions (sizeOf rule) rule.lexemes rule.language

def Settled (draft : Draft) (inner : Rule) (helper : Nat) : Prop :=
  helper < draft.nonterminals.size ∧ ∃ body,
    draft.productionsAt helper = (repeatProductions helper body).eraseDups ∧
      draft.Means body inner

def Opened (draft : Draft) (size : Nat) : Prop :=
  ∀ inner context helper, draft.repeats.lookup (inner, context) = some helper →
    draft.Settled inner helper ∨ size ≤ sizeOf inner

section Stands

variable {productions : List FlatProduction} {size : Nat} {lexemes : List Lexeme}
  {language : (Lexeme → Nat) → (String → Words Nat) → Words Nat}
  {r : Words Nat → Words Nat → Prop} {own : Nat → Words Nat}
  {env : String → Words Nat}

theorem Relates.mono {more : Nat} (relates : draft.Relates r own env more) (le : size ≤ more) :
    draft.Relates r own env size where
  names := relates.names
  repeats inner context helper found less :=
    relates.repeats inner context helper found (Nat.lt_of_lt_of_le less le)

theorem Stands.mono {more : Nat} (stands : draft.Stands productions size lexemes language)
    (known : draft.Known next) (le : size ≤ more) :
    next.Stands productions more lexemes language where
  relates last later r congruent own env relates :=
    stands.relates last (known.trans later) r congruent own env (relates.mono le)
  placed lexeme member := by
    obtain ⟨place, found⟩ := Option.isSome_iff_exists.1 (stands.placed lexeme member)
    rw [known.place? found]
    rfl

theorem Stands.mul {others : List FlatProduction} {more : List Lexeme}
    {language' : (Lexeme → Nat) → (String → Words Nat) → Words Nat}
    (front : draft.Stands productions size lexemes language)
    (back : next.Stands others size more language') (known : draft.Known next) :
    next.Stands (productions.flatMap fun head => others.map head.append) size (lexemes ++ more)
      fun spell env => language spell env * language' spell env where
  relates last later r congruent own env relates := by
    rw [languageOfAlternatives_flatMap]
    exact congruent.mul (front.relates last (known.trans later) r congruent own env relates)
      (back.relates last later r congruent own env relates)
  placed lexeme member := (List.mem_append.1 member).elim
    ((front.mono known (Nat.le_refl _)).placed lexeme) (back.placed lexeme)

theorem Stands.add {others : List FlatProduction} {more : List Lexeme}
    {language' : (Lexeme → Nat) → (String → Words Nat) → Words Nat}
    (first : draft.Stands productions size lexemes language)
    (second : draft.Stands others size more language') :
    draft.Stands (productions ++ others) size (lexemes ++ more)
      fun spell env => language spell env + language' spell env where
  relates last known r congruent own env relates := by
    rw [languageOfAlternatives_append]
    exact congruent.add (first.relates last known r congruent own env relates)
      (second.relates last known r congruent own env relates)
  placed lexeme member := (List.mem_append.1 member).elim (first.placed lexeme)
    (second.placed lexeme)

theorem Settled.keep {inner : Rule} {helper : Nat} (settled : draft.Settled inner helper)
    (known : draft.Known next) (size : draft.nonterminals.size ≤ next.nonterminals.size)
    (same : next.productionsAt helper = draft.productionsAt helper) :
    next.Settled inner helper := by
  obtain ⟨inside, body, productions, means⟩ := settled
  exact ⟨Nat.lt_of_lt_of_le inside size, body, same.trans productions,
    means.mono known (Nat.le_refl _)⟩

theorem stands_token {lexeme : Lexeme} {place : Nat} (context : StepContext)
    (found : draft.place? lexeme = some place) :
    draft.Stands [.single (context.step (.terminal place))] size [lexeme]
      fun spell _ => {[spell lexeme]} where
  relates last known r congruent own env _ := by
    rw [languageOfAlternatives_single, known.number found]
    exact congruent.refl _
  placed other member := by
    rw [List.mem_singleton.1 member, found]
    rfl

theorem language_repeatProductions (helper : Nat) (body : List FlatProduction) :
    languageOfAlternatives own (repeatProductions helper body)
      = own helper * languageOfAlternatives own body + languageOfAlternatives own body := by
  have first : languageOfAlternatives own (body.map fun alternative =>
      ⟨Step.plain (.nonterminal helper) :: alternative.steps, alternative.dynamicPrecedence⟩)
        = own helper * languageOfAlternatives own body := by
    ext word
    rw [Language.mem_mul]
    constructor
    · rintro ⟨_, member, there⟩
      obtain ⟨alternative, inside, rfl⟩ := List.mem_map.1 member
      obtain ⟨front, here, back, behind, rfl⟩ := Language.mem_mul.1 there
      exact ⟨front, here, back, ⟨alternative, inside, behind⟩, rfl⟩
    · rintro ⟨front, here, back, ⟨alternative, inside, behind⟩, rfl⟩
      exact ⟨_, List.mem_map_of_mem inside, Language.mem_mul.2 ⟨front, here, back, behind, rfl⟩⟩
  rw [repeatProductions, languageOfAlternatives_append, first]

end Stands

/-! ## Drafts that grow -/

structure Grows (draft next : Draft) : Prop where
  known : draft.Known next
  ranked : next.rankedRules = draft.rankedRules
  size : draft.nonterminals.size ≤ next.nonterminals.size
  older : ∀ index < draft.nonterminals.size, next.nonterminals[index]? = draft.nonterminals[index]?
  names : ∀ name symbol, next.byName.lookup name = some symbol →
    draft.byName.lookup name = some symbol
  repeats : ∀ inner context helper, next.repeats.lookup (inner, context) = some helper →
    draft.repeats.lookup (inner, context) = some helper ∨
      draft.nonterminals.size ≤ helper ∧ next.Settled inner helper
  placed : draft.Placed → next.Placed

theorem Grows.productionsAt (grows : draft.Grows next) {index : Nat}
    (inside : index < draft.nonterminals.size) :
    next.productionsAt index = draft.productionsAt index := by
  rw [Draft.productionsAt, Draft.productionsAt, grows.older index inside]

theorem Grows.settled (grows : draft.Grows next) {inner : Rule} {helper : Nat}
    (settled : draft.Settled inner helper) : next.Settled inner helper :=
  settled.keep grows.known grows.size (grows.productionsAt settled.1)

theorem Grows.refl (draft : Draft) : draft.Grows draft where
  known := .refl draft
  ranked := rfl
  size := Nat.le_refl _
  older _ _ := rfl
  names _ _ := id
  repeats _ _ _ := .inl
  placed := id

theorem Grows.trans (first : draft.Grows next) (second : next.Grows last) : draft.Grows last where
  known := first.known.trans second.known
  ranked := second.ranked.trans first.ranked
  size := Nat.le_trans first.size second.size
  older index inside :=
    (second.older index (Nat.lt_of_lt_of_le inside first.size)).trans (first.older index inside)
  names _ _ found := first.names _ _ (second.names _ _ found)
  repeats inner context helper found := by
    rcases second.repeats inner context helper found with found | ⟨new, settled⟩
    · rcases first.repeats inner context helper found with found | ⟨new, settled⟩
      · exact .inl found
      · exact .inr ⟨new, second.settled settled⟩
    · exact .inr ⟨Nat.le_trans first.size new, settled⟩
  placed := second.placed ∘ first.placed

theorem Grows.opened (grows : draft.Grows next) {size : Nat} (opened : draft.Opened size) :
    next.Opened size := by
  intro inner context helper found
  rcases grows.repeats inner context helper found with found | ⟨_, settled⟩
  · exact (opened inner context helper found).imp_left grows.settled
  · exact .inl settled

theorem Opened.mono {size less : Nat} (opened : draft.Opened size) (le : less ≤ size) :
    draft.Opened less :=
  fun inner context helper found =>
    (opened inner context helper found).imp_right (Nat.le_trans le)

theorem grows_of_terminals (known : draft.Known next)
    (ranked : next.rankedRules = draft.rankedRules)
    (nonterminals : next.nonterminals = draft.nonterminals) (names : next.byName = draft.byName)
    (repeats : next.repeats = draft.repeats) (placed : draft.Placed → next.Placed) :
    draft.Grows next where
  known := known
  ranked := ranked
  size := Nat.le_of_eq (congrArg Array.size nonterminals.symm)
  older _ _ := by rw [nonterminals]
  names _ _ found := names ▸ found
  repeats _ _ _ found := .inl (repeats ▸ found)
  placed := placed

def noteHelper (draft : Draft) (key : Rule × StepContext) (nonterminal : Nonterminal) : Draft :=
  { draft with
    nonterminals := draft.nonterminals.push nonterminal
    repeats := (key, draft.nonterminals.size) :: draft.repeats }

section NoteHelper

variable {inner : Rule} {context : StepContext} {nonterminal : Nonterminal}

theorem known_noteHelper (fresh : draft.repeats.lookup (inner, context) = none) :
    draft.Known (draft.noteHelper (inner, context) nonterminal) :=
  ⟨fun _ _ => id, fun _ _ => id, fun _ _ => id, fun _ _ => lookup_cons_of_fresh fresh⟩

theorem Opened.noteHelper (opened : draft.Opened (sizeOf inner))
    (fresh : draft.repeats.lookup (inner, context) = none) :
    (draft.noteHelper (inner, context) nonterminal).Opened (sizeOf inner) := by
  intro rule other helper found
  rcases of_lookup_cons found with ⟨same, rfl⟩ | found
  · cases same
    exact .inr (Nat.le_refl _)
  · refine (opened rule other helper found).imp_left fun settled => ?_
    refine settled.keep (known_noteHelper fresh) (by simp [Draft.noteHelper]) ?_
    rw [Draft.productionsAt, Draft.productionsAt, Draft.noteHelper, Array.getElem?_push,
      if_neg (Nat.ne_of_lt settled.1)]

end NoteHelper

theorem grows_of_helper {inner : Rule} {context : StepContext} {nonterminal : Nonterminal}
    {body : List FlatProduction} {after : Draft}
    (fresh : draft.repeats.lookup (inner, context) = none)
    (grows : (draft.noteHelper (inner, context) nonterminal).Grows after)
    (means : after.Means body inner)
    (filled : next = { after with
      nonterminals := after.nonterminals.modify draft.nonterminals.size fun nonterminal =>
        { nonterminal with
          productions := (repeatProductions draft.nonterminals.size body).eraseDups } }) :
    draft.Grows next := by
  have last : after.Known next := by
    rw [filled]
    exact ⟨fun _ _ => id, fun _ _ => id, fun _ _ => id, fun _ _ => id⟩
  have noted : (draft.noteHelper (inner, context) nonterminal).nonterminals.size
      = draft.nonterminals.size + 1 := Array.size_push _
  have more : draft.nonterminals.size < after.nonterminals.size :=
    Nat.lt_of_lt_of_le (noted ▸ Nat.lt_succ_self _) grows.size
  have size : after.nonterminals.size = next.nonterminals.size := by simp [filled]
  have others : ∀ index ≠ draft.nonterminals.size,
      next.nonterminals[index]? = after.nonterminals[index]? := by
    intro index other
    rw [filled, Array.getElem?_modify, if_neg (Ne.symm other)]
  constructor
  · exact ((known_noteHelper fresh).trans grows.known).trans last
  · rw [filled]
    exact grows.ranked
  · exact Nat.le_of_lt (size ▸ more)
  · intro index inside
    rw [others index (Nat.ne_of_lt inside), grows.older index (noted ▸ Nat.lt_succ_of_lt inside),
      noteHelper, Array.getElem?_push, if_neg (Nat.ne_of_lt inside)]
  · intro name symbol found
    rw [filled] at found
    exact grows.names name symbol found
  · intro rule other helper found
    rw [filled] at found
    rcases grows.repeats rule other helper found with found | ⟨new, settled⟩
    · rcases of_lookup_cons found with ⟨same, rfl⟩ | found
      · cases same
        refine .inr ⟨Nat.le_refl _, size ▸ more, body, ?_, means.mono last (Nat.le_refl _)⟩
        rw [Draft.productionsAt, filled, Array.getElem?_modify, if_pos rfl,
          Array.getElem?_eq_getElem more]
        rfl
      · exact .inl found
    · have apart : draft.nonterminals.size < helper :=
        Nat.lt_of_lt_of_le (noted ▸ Nat.lt_succ_self _) new
      refine .inr ⟨Nat.le_of_lt apart, settled.keep last (Nat.le_of_eq size) ?_⟩
      rw [Draft.productionsAt, Draft.productionsAt, others helper (Nat.ne_of_gt apart)]
  · intro placed
    have placed : (draft.noteHelper (inner, context) nonterminal).Placed :=
      placed.congr rfl fun lexeme => by cases lexeme <;> rfl
    rw [filled]
    exact (grows.placed placed).congr rfl fun lexeme => by cases lexeme <;> rfl

end Draft

open Draft

variable {draft next : Draft}

/-! ## Flattening -/

theorem internString_grows {text : String} {terminal : Nat}
    (h : internString text draft = .ok (terminal, next)) :
    draft.Grows next ∧ next.place? (.string text) = some terminal := by
  obtain ⟨found, _, ran, h⟩ := run_bind h
  obtain ⟨rfl, rfl⟩ := run_get ran
  cases there : draft.strings.lookup text with
  | some known =>
    rw [there] at h
    cases h
    exact ⟨.refl _, there⟩
  | none =>
    rw [there] at h
    obtain ⟨pushed, _, ran, h⟩ := run_bind h
    cases ran
    obtain ⟨_, _, ran, done⟩ := run_bind h
    cases ran
    cases done
    refine ⟨grows_of_terminals ⟨fun _ _ => id, fun _ _ => lookup_cons_of_fresh there,
      fun _ _ => id, fun _ _ => id⟩ rfl rfl rfl rfl fun placed => ?_, List.lookup_cons_self⟩
    exact placed.string ⟨rfl, rfl, fun _ => rfl⟩

theorem internToken_grows {owner : String} {rule : Rule} {terminal : Nat}
    (plain : rule.tokenBody = rule) (h : internToken owner rule draft = .ok (terminal, next)) :
    draft.Grows next ∧ next.place? (.token rule) = some terminal := by
  obtain ⟨found, _, ran, h⟩ := run_bind h
  obtain ⟨rfl, rfl⟩ := run_get ran
  rw [plain] at h
  cases there : draft.tokens.lookup rule with
  | some known =>
    rw [there] at h
    cases h
    exact ⟨.refl _, there⟩
  | none =>
    rw [there] at h
    obtain ⟨regex, _, ran, h⟩ := run_bind h
    obtain ⟨read, rfl⟩ := run_lift ran
    obtain ⟨pushed, _, ran, h⟩ := run_bind h
    cases ran
    obtain ⟨_, _, ran, done⟩ := run_bind h
    cases ran
    cases done
    refine ⟨grows_of_terminals ⟨fun _ _ => id, fun _ _ => id,
      fun _ _ => lookup_cons_of_fresh there, fun _ _ => id⟩ rfl rfl rfl rfl fun placed => ?_,
      List.lookup_cons_self⟩
    refine placed.push rfl
      (show (Lexeme.token rule).Fits _ from ⟨rfl, rfl, rfl, _, regex, read, rfl⟩)
      fun lexeme place found => ?_
    cases lexeme with
    | named name => exact .inr found
    | string text => exact .inr found
    | token other =>
      refine (of_lookup_cons found).imp (fun here => ?_) id
      exact ⟨congrArg Lexeme.token here.1, here.2⟩

theorem stands_empty (draft : Draft) (size : Nat) :
    draft.Stands [.empty] size [] fun _ _ => 1 where
  relates last known r congruent own env _ := by
    rw [languageOfAlternatives_empty]
    exact congruent.refl _
  placed := by simp

theorem means_repeat1 {inner : Rule} {context : StepContext} {helper : Nat} {step : Step}
    (symbol : step.symbol = .nonterminal helper)
    (noted : draft.repeats.lookup (inner, context) = some helper)
    (placed : ∀ lexeme ∈ inner.lexemes, (draft.place? lexeme).isSome = true) :
    draft.Means [.single step] inner.repeat1 := by
  refine ⟨fun last known r congruent own env relates => ?_, placed⟩
  rw [languageOfAlternatives_single, symbol]
  exact relates.repeats inner context helper (known.repeats _ _ noted) (by simp)

theorem means_token {metadata : Metadata} {inner : Rule} {place : Nat} (context : StepContext)
    (token : metadata.token = true)
    (found : draft.place? (.token (.withMetadata metadata inner)) = some place) :
    draft.Means [.single (context.step (.terminal place))] (.withMetadata metadata inner) := by
  have stands : draft.Stands _ (sizeOf (Rule.withMetadata metadata inner)) _ _ :=
    stands_token context found
  rw [Draft.Means, Rule.lexemes, if_pos token]
  refine ⟨fun last known r congruent own env relates => ?_, stands.placed⟩
  rw [Rule.language, if_pos token]
  exact stands.relates last known r congruent own env relates

theorem Draft.Stands.withMetadata {metadata : Metadata} {inner : Rule}
    {productions : List FlatProduction} {dynamic : FlatProduction → Int16}
    (plain : ¬ metadata.token = true) (means : draft.Means productions inner) :
    draft.Means (productions.map fun production =>
      { production with dynamicPrecedence := dynamic production })
      (.withMetadata metadata inner) := by
  rw [Draft.Means, Rule.lexemes, if_neg plain]
  refine ⟨fun last known r congruent own env relates => ?_, means.placed⟩
  rw [Rule.language, if_neg plain, languageOfAlternatives_map]
  · exact means.relates last known r congruent own env (relates.mono (by simp))
  · exact fun _ => rfl

mutual

theorem flatten_means {owner : String} {context : StepContext} {productions : List FlatProduction}
    {draft next : Draft} (rule : Rule) (opened : draft.Opened (sizeOf rule))
    (h : flatten owner context rule draft = .ok (productions, next)) :
    draft.Grows next ∧ next.Means productions rule := by
  match rule with
  | .blank =>
    rw [flatten] at h
    cases h
    exact ⟨.refl _, stands_empty _ _⟩
  | .string text =>
    rw [flatten] at h
    obtain ⟨terminal, _, ran, h⟩ := run_bind h
    cases h
    obtain ⟨grows, found⟩ := internString_grows ran
    exact ⟨grows, stands_token context found⟩
  | .pattern source =>
    rw [flatten] at h
    obtain ⟨terminal, _, ran, h⟩ := run_bind h
    cases h
    obtain ⟨grows, found⟩ := internToken_grows rfl ran
    exact ⟨grows, stands_token context found⟩
  | .symbol name =>
    rw [flatten] at h
    obtain ⟨found, _, ran, h⟩ := run_bind h
    obtain ⟨rfl, there⟩ := run_symbolOf? ran
    split at h
    · next symbol =>
      cases h
      refine ⟨.refl _, fun last known r congruent own env relates => ?_, by simp [Rule.lexemes]⟩
      rw [languageOfAlternatives_single]
      exact relates.names name symbol (known.names name symbol there)
    · contradiction
  | .seq rules =>
    rw [flatten] at h
    have less : sizeOf rules ≤ sizeOf (Rule.seq rules) := by simp
    obtain ⟨grows, stands⟩ := flattenSeq_stands rules opened less (stands_empty draft _) h
    refine ⟨grows, fun last known r congruent own env relates => ?_, stands.placed⟩
    have related := stands.relates last known r congruent own env relates
    rwa [one_mul] at related
  | .choice rules =>
    rw [flatten] at h
    have less : sizeOf rules ≤ sizeOf (Rule.choice rules) := by simp
    obtain ⟨grows, stands⟩ := flattenChoice_stands rules (opened.mono less) h
    exact ⟨grows, stands.mono (.refl _) less⟩
  | .repeat1 inner =>
    rw [flatten] at h
    obtain ⟨found, _, ran, h⟩ := run_bind h
    obtain ⟨rfl, rfl⟩ := run_get ran
    generalize there : draft.repeats.lookup (inner, context) = known at h
    dsimp only at h
    have less : sizeOf inner < sizeOf inner.repeat1 := by simp
    split at h
    · cases h
      refine ⟨.refl _, means_repeat1 rfl there ?_⟩
      obtain ⟨_, body, _, means⟩ :=
        (opened inner context _ there).resolve_right (Nat.not_le.2 less)
      exact means.placed
    · obtain ⟨helper, _, ran, h⟩ := run_bind h
      cases ran
      obtain ⟨_, _, ran, h⟩ := run_bind h
      cases ran
      obtain ⟨body, _, ran, h⟩ := run_bind h
      obtain ⟨grows, means⟩ := flatten_means inner
        ((opened.mono (Nat.le_of_lt less)).noteHelper there) ran
      obtain ⟨_, _, ran, h⟩ := run_bind h
      cases ran
      cases h
      have noted := grows.known.repeats _ _ List.lookup_cons_self
      exact ⟨grows_of_helper there grows means rfl, means_repeat1 rfl noted means.placed⟩
  | .withMetadata metadata inner =>
    rw [flatten] at h
    split at h
    · next token =>
      obtain ⟨terminal, _, ran, h⟩ := run_bind h
      cases h
      obtain ⟨grows, found⟩ := internToken_grows (by simp [Rule.tokenBody, token]) ran
      exact ⟨grows, means_token (context.apply metadata) token found⟩
    · next plain =>
      have less : sizeOf inner ≤ sizeOf (Rule.withMetadata metadata inner) := by simp
      have rest : ∀ {last : Draft}, (do
          let alternatives ← flatten owner (context.apply metadata) inner
          return alternatives.map fun production =>
            { production with
              dynamicPrecedence := FlatProduction.stronger production.dynamicPrecedence
                metadata.dynamicPrecedence } : M (List FlatProduction)) draft
            = .ok (productions, last) →
          draft.Grows last ∧ last.Means productions (.withMetadata metadata inner) := by
        intro last h
        obtain ⟨alternatives, _, ran, h⟩ := run_bind h
        cases h
        obtain ⟨grows, means⟩ := flatten_means inner (opened.mono less) ran
        exact ⟨grows, means.withMetadata plain⟩
      dsimp only at h
      generalize metadata.precedence = precedence at h
      split at h
      · obtain ⟨_, _, ran, h⟩ := run_bind h
        obtain ⟨rfl, rfl⟩ := run_get ran
        split at h
        · obtain ⟨_, _, ran, _⟩ := run_bind h
          contradiction
        · exact rest h
      · exact rest h

theorem flattenSeq_stands {owner : String} {context : StepContext}
    {heads productions : List FlatProduction} {draft next : Draft} {size : Nat}
    {lexemes : List Lexeme} {language : (Lexeme → Nat) → (String → Words Nat) → Words Nat}
    (rules : List Rule) (opened : draft.Opened size) (less : sizeOf rules ≤ size)
    (front : draft.Stands heads size lexemes language)
    (h : flattenSeq owner context heads rules draft = .ok (productions, next)) :
    draft.Grows next ∧ next.Stands productions size (lexemes ++ Rule.lexemesOf rules)
      fun spell env => language spell env * Rule.languageOfSeq spell env rules := by
  match rules with
  | [] =>
    rw [flattenSeq] at h
    cases h
    refine ⟨.refl _, fun last known r congruent own env relates => ?_, ?_⟩
    · rw [Rule.languageOfSeq, mul_one]
      exact front.relates last known r congruent own env relates
    · rw [Rule.lexemesOf, List.append_nil]
      exact front.placed
  | rule :: rules =>
    rw [flattenSeq] at h
    obtain ⟨tails, _, ran, h⟩ := run_bind h
    have parts : sizeOf (rule :: rules) = 1 + sizeOf rule + sizeOf rules := rfl
    have own : sizeOf rule ≤ size := by omega
    have others : sizeOf rules ≤ size := by omega
    obtain ⟨first, means⟩ := flatten_means rule (opened.mono own) ran
    have front := front.mul (means.mono (.refl _) own) first.known
    obtain ⟨second, stands⟩ := flattenSeq_stands rules (first.opened opened) others front h
    refine ⟨first.trans second, ?_⟩
    simpa only [Rule.languageOfSeq, Rule.lexemesOf, mul_assoc, List.append_assoc] using stands

theorem flattenChoice_stands {owner : String} {context : StepContext}
    {productions : List FlatProduction} {draft next : Draft} (rules : List Rule)
    (opened : draft.Opened (sizeOf rules))
    (h : flattenChoice owner context rules draft = .ok (productions, next)) :
    draft.Grows next ∧ next.Stands productions (sizeOf rules) (Rule.lexemesOf rules)
      fun spell env => Rule.languageOfChoice spell env rules := by
  match rules with
  | [] =>
    rw [flattenChoice] at h
    cases h
    refine ⟨.refl _, fun last known r congruent own env relates => ?_, by simp [Rule.lexemesOf]⟩
    rw [languageOfAlternatives_nil, Rule.languageOfChoice]
    exact congruent.refl _
  | rule :: rules =>
    rw [flattenChoice] at h
    obtain ⟨own, _, ran, h⟩ := run_bind h
    obtain ⟨others, _, ran', h⟩ := run_bind h
    cases h
    have parts : sizeOf (rule :: rules) = 1 + sizeOf rule + sizeOf rules := rfl
    have less : sizeOf rule ≤ sizeOf (rule :: rules) := by omega
    have less' : sizeOf rules ≤ sizeOf (rule :: rules) := by omega
    obtain ⟨first, means⟩ := flatten_means rule (opened.mono less) ran
    obtain ⟨second, stands⟩ := flattenChoice_stands rules (first.opened (opened.mono less')) ran'
    exact ⟨first.trans second, (means.mono second.known less).add (stands.mono (.refl _) less')⟩

end

end Preparation

end IncrementalGlr
