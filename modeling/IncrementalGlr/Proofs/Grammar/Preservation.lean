import Mathlib
import IncrementalGlr.Proofs.Grammar.Declarations
import IncrementalGlr.Proofs.Table.Consistency

/-!
# Preparation preserves the language

What the nonterminal of a rule derives is the language of the rule, with its tokens written as
terminals. So a grammar that passes all other checks is rejected exactly when its start rule has no
words.
-/

namespace IncrementalGlr

open Computability

namespace Preparation

open Draft

namespace Draft

variable {first draft next : Draft} {done : List (String × Rule)}

structure Reads (first draft : Draft) (done : List (String × Rule)) : Prop where
  known : first.Known draft
  names : ∀ name symbol, draft.byName.lookup name = some symbol →
    first.byName.lookup name = some symbol
  size : first.nonterminals.size ≤ draft.nonterminals.size
  labels : ∀ index < first.nonterminals.size,
    (draft.nonterminals[index]?).map (·.name) = (first.nonterminals[index]?).map (·.name)
  helpers : ∀ inner context helper, draft.repeats.lookup (inner, context) = some helper →
    first.nonterminals.size ≤ helper ∧ draft.Settled inner helper
  rules : ∀ name rule index, (name, rule) ∈ done →
    first.byName.lookup name = some (.nonterminal index) → ∃ productions,
      draft.productionsAt index = productions.eraseDups ∧ draft.Means productions rule
  placed : draft.Placed

theorem Reads.opened (reads : first.Reads draft done) (size : Nat) : draft.Opened size :=
  fun inner context helper found => .inl (reads.helpers inner context helper found).2

theorem reads_nil (none : first.repeats = []) (placed : first.Placed) : first.Reads first [] where
  known := .refl first
  names _ _ := id
  size := Nat.le_refl _
  labels _ _ := rfl
  helpers inner context helper found := by simp [none] at found
  rules := by simp
  placed := placed

theorem Reads.skip (reads : first.Reads draft done) {name : String} {rule : Rule}
    (other : ∀ index, first.byName.lookup name ≠ some (.nonterminal index)) :
    first.Reads draft (done ++ [(name, rule)]) where
  known := reads.known
  names := reads.names
  size := reads.size
  labels := reads.labels
  helpers := reads.helpers
  rules name' rule' index member found := by
    rcases List.mem_append.1 member with member | member
    · exact reads.rules name' rule' index member found
    · cases List.mem_singleton.1 member
      exact absurd found (other index)
  placed := reads.placed

def fill (draft : Draft) (index : Nat) (productions : List FlatProduction) : Draft :=
  { draft with
    nonterminals := draft.nonterminals.modify index fun nonterminal =>
      { nonterminal with productions := productions.eraseDups } }

section Fill

variable {index : Nat} {productions : List FlatProduction}

theorem known_fill : draft.Known (draft.fill index productions) :=
  ⟨fun _ _ => id, fun _ _ => id, fun _ _ => id, fun _ _ => id⟩

theorem size_fill : (draft.fill index productions).nonterminals.size = draft.nonterminals.size :=
  Array.size_modify

theorem productionsAt_fill (inside : index < draft.nonterminals.size) :
    (draft.fill index productions).productionsAt index = productions.eraseDups := by
  rw [productionsAt, fill, Array.getElem?_modify, if_pos rfl, Array.getElem?_eq_getElem inside]
  rfl

theorem productionsAt_fill_of_ne {other : Nat} (ne : other ≠ index) :
    (draft.fill index productions).productionsAt other = draft.productionsAt other := by
  rw [productionsAt, productionsAt, fill, Array.getElem?_modify, if_neg (Ne.symm ne)]

theorem name_fill (other : Nat) :
    ((draft.fill index productions).nonterminals[other]?).map (·.name)
      = (draft.nonterminals[other]?).map (·.name) := by
  rw [fill, Array.getElem?_modify]
  split <;> cases draft.nonterminals[other]? <;> rfl

theorem Placed.fill (placed : draft.Placed) : (draft.fill index productions).Placed :=
  placed.congr rfl fun lexeme => by cases lexeme <;> rfl

end Fill

section Declared

variable {rules : List (String × Rule)} {externals : List Rule}

theorem Declares.inside (declares : first.Declares rules externals) {name : String} {index : Nat}
    (found : first.byName.lookup name = some (.nonterminal index)) :
    index < first.nonterminals.size := by
  obtain ⟨rule, there⟩ := (declares.compounds index name).1 found
  rw [declares.size]
  exact (List.getElem?_eq_some_iff.1 there).1

theorem Declares.injective (declares : first.Declares rules externals) {name other : String}
    {index : Nat} (found : first.byName.lookup name = some (.nonterminal index))
    (found' : first.byName.lookup other = some (.nonterminal index)) : name = other := by
  obtain ⟨rule, there⟩ := (declares.compounds index name).1 found
  obtain ⟨rule', there'⟩ := (declares.compounds index other).1 found'
  rw [there] at there'
  cases there'
  rfl

theorem Reads.fill {middle : Draft} (reads : first.Reads draft done)
    (declares : first.Declares rules externals) (grows : draft.Grows middle) {name : String}
    {rule : Rule} {index : Nat} {productions : List FlatProduction}
    (found : first.byName.lookup name = some (.nonterminal index))
    (fresh : ∀ other, (name, other) ∉ done) (means : middle.Means productions rule) :
    first.Reads (middle.fill index productions) (done ++ [(name, rule)]) where
  known := (reads.known.trans grows.known).trans known_fill
  names name symbol found := reads.names name symbol (grows.names name symbol found)
  size := by
    rw [size_fill]
    exact Nat.le_trans reads.size grows.size
  labels other inside := by
    rw [name_fill, grows.older other (Nat.lt_of_lt_of_le inside reads.size),
      reads.labels other inside]
  helpers inner context helper noted := by
    have helper : first.nonterminals.size ≤ helper ∧ middle.Settled inner helper := by
      rcases grows.repeats inner context helper noted with noted | ⟨new, settled⟩
      · obtain ⟨behind, settled⟩ := reads.helpers inner context helper noted
        exact ⟨behind, grows.settled settled⟩
      · exact ⟨Nat.le_trans reads.size new, settled⟩
    have other := Nat.ne_of_gt (Nat.lt_of_lt_of_le (declares.inside found) helper.1)
    exact ⟨helper.1, helper.2.keep known_fill (Nat.le_of_eq size_fill.symm)
      (productionsAt_fill_of_ne other)⟩
  rules name' rule' index' member found' := by
    rcases List.mem_append.1 member with member | member
    · obtain ⟨others, own, stands⟩ := reads.rules name' rule' index' member found'
      have other : index' ≠ index := by
        rintro rfl
        cases declares.injective found found'
        exact fresh rule' member
      have before := Nat.lt_of_lt_of_le (declares.inside found') reads.size
      refine ⟨others, ?_, stands.mono (grows.known.trans known_fill) (Nat.le_refl _)⟩
      rw [productionsAt_fill_of_ne other, grows.productionsAt before, own]
    · cases List.mem_singleton.1 member
      cases found.symm.trans found'
      have inside := Nat.lt_of_lt_of_le (declares.inside found)
        (Nat.le_trans reads.size grows.size)
      exact ⟨productions, productionsAt_fill inside, means.mono known_fill (Nat.le_refl _)⟩
  placed := (grows.placed reads.placed).fill

end Declared

end Draft

variable {first draft next : Draft} {done : List (String × Rule)}

theorem flattenRule_reads {rules : List (String × Rule)} {externals : List Rule} {name : String}
    {rule : Rule} {u : Unit} (declares : first.Declares rules externals)
    (reads : first.Reads draft done) (fresh : ∀ other, (name, other) ∉ done)
    (h : flattenRule name rule draft = .ok (u, next)) :
    first.Reads next (done ++ [(name, rule)]) := by
  obtain ⟨found, _, ran, h⟩ := run_bind h
  obtain ⟨rfl, there⟩ := run_symbolOf? ran
  split at h
  · obtain ⟨_, _, ran, h⟩ := run_bind h
    obtain ⟨rfl, rfl⟩ := run_get ran
    obtain ⟨productions, _, ran, h⟩ := run_bind h
    obtain ⟨grows, means⟩ := flatten_means rule (reads.opened _) ran
    cases h
    exact reads.fill declares grows (reads.names _ _ there) fresh means
  · next other =>
    cases h
    exact reads.skip fun index known => other index (there.symm.trans (reads.known.names _ _ known))

def readRules (grammar : Grammar) : M (List Nat × List Nat × Option Nat) := do
  for (name, rule) in grammar.rules do
    declareRule name rule
  for entries in grammar.precedences do
    for entry in entries do
      declareLevel entry
  let externals ← grammar.externals.mapM declareExternal
  let extras ← declareExtras grammar.extras 0
  let word ← grammar.word.mapM wordTerminal
  for name in grammar.supertypes do
    declareSupertype name
  for (name, rule) in grammar.rules do
    flattenRule name rule
  return (externals, extras, word)

def assemble (grammar : Grammar) (answer : List Nat × List Nat × Option Nat) (draft : Draft) :
    PreparedGrammar where
  name := grammar.name
  terminals := draft.terminals
  nonterminals := draft.nonterminals
  extras := answer.2.1
  externals := answer.1
  word := answer.2.2
  reserved := grammar.reserved
  precedences := grammar.precedences

theorem prepareWith_eq (grammar : Grammar) (start : String) :
    prepareWith grammar start = do
      let answer ← readRules grammar
      let draft ← get
      if !(productive draft.nonterminals).getD 0 false then throw (.unreachableStart start)
      return assemble grammar answer draft := by
  simp only [prepareWith, readRules, bind_assoc, pure_bind]
  rfl

theorem readRules_reads {grammar : Grammar} {answer : List Nat × List Nat × Option Nat}
    {last : Draft} (h : readRules grammar Draft.empty = .ok (answer, last)) :
    ∃ first : Draft, first.Declares grammar.rules grammar.externals ∧
      first.Reads last grammar.rules := by
  unfold readRules at h
  obtain ⟨_, _, ran, h⟩ := run_bind h
  have declares := run_each_of_done (p := fun done draft => draft.Declares done [])
    (fun done entry _ _ _ _ _ known ran => declareRule_declares known ran) declares_empty ran
  obtain ⟨_, _, ran, h⟩ := run_bind h
  have declares := run_each (p := (Declares · grammar.rules []))
    (fun entries _ _ _ _ known ran => run_each (p := (Declares · grammar.rules []))
      (fun entry _ _ _ _ known ran => declareLevel_declares known ran) known ran) declares ran
  obtain ⟨externals, _, ran, h⟩ := run_bind h
  have declares := run_mapM_of_done (p := fun done draft => draft.Declares grammar.rules done)
    (fun done rule _ _ _ _ _ known ran => declareExternal_declares known ran) declares ran
  obtain ⟨extras, _, ran, h⟩ := run_bind h
  have declares := declareExtras_declares declares ran
  obtain ⟨word, _, ran, h⟩ := run_bind h
  rw [← (run_word ran).1] at h
  obtain ⟨_, first, ran, h⟩ := run_bind h
  have declares := run_each (p := (Declares · grammar.rules grammar.externals))
    (fun name _ _ _ _ known ran => declareSupertype_declares known ran) declares ran
  obtain ⟨_, _, ran, h⟩ := run_bind h
  cases h
  refine ⟨first, declares, ?_⟩
  refine run_each_of_done (p := fun done draft => first.Reads draft done)
    (fun done entry rest whole draft _ _ reads ran => ?_)
    (reads_nil declares.repeats declares.placed) ran
  refine flattenRule_reads declares reads (fun other member => ?_) ran
  -- no two rules have one name
  have distinct := declares.distinct
  rw [whole, List.map_append, List.nodup_append] at distinct
  exact distinct.2.2 entry.1 (List.mem_map_of_mem (f := fun entry => entry.1) member) entry.1
    (by simp) rfl

section Solution

variable {grammar : Grammar} {answer : List Nat × List Nat × Option Nat} {first last : Draft}

theorem congruent_le : Congruent (· ≤ ·) := ⟨fun _ => le_rfl, add_le_add, mul_le_mul'⟩

theorem congruent_ge : Congruent (· ≥ ·) := ⟨fun _ => le_rfl, add_le_add, mul_le_mul'⟩

/-- The languages of the rules as a solution of the productions: a nonterminal is below the names
that stand for it and below the repetitions that it helps with. -/
def upper (grammar : Grammar) (draft : Draft) (index : Nat) : Words Nat :=
  {word | (∀ name, draft.byName.lookup name = some (.nonterminal index) →
      word ∈ grammar.languages draft.number name) ∧
    ∀ (inner : Rule) context, draft.repeats.lookup (inner, context) = some index →
      word ∈ inner.language draft.number (grammar.languages draft.number) *
        (inner.language draft.number (grammar.languages draft.number))∗}

def lower (grammar : PreparedGrammar) (draft : Draft) (name : String) : Words Nat :=
  (draft.byName.lookup name).elim 0 (Sym.language grammar.languageOf)

theorem meaning_le_languages {spell : Lexeme → Nat} {name : String} :
    grammar.meaning spell (grammar.languages spell) name ≤ grammar.languages spell name :=
  le_of_eq (grammar.meaning_languages spell name)

theorem relates_upper (declares : first.Declares grammar.rules grammar.externals)
    (reads : first.Reads last grammar.rules) (size : Nat) :
    last.Relates (· ≤ ·) (upper grammar last) (grammar.languages last.number) size where
  names name symbol found := by
    cases symbol with
    | nonterminal index => exact fun word there => there.1 name found
    | terminal place =>
      intro word there
      cases Set.mem_singleton_iff.1 there
      have token := (declares.tokens name).1 ⟨place, reads.names _ _ found⟩
      refine meaning_le_languages (.inr ⟨token, ?_⟩)
      rw [(Known.refl last).number (place?_named.2 found)]
  repeats inner context helper found _ := fun word there => there.2 inner context found

theorem upper_closed (declares : first.Declares grammar.rules grammar.externals)
    (reads : first.Reads last grammar.rules) (index : Nat) :
    languageOfAlternatives (upper grammar last) (last.productionsAt index)
      ≤ upper grammar last index := by
  have relates := relates_upper declares reads
  intro word there
  constructor
  · intro name found
    have found := reads.names _ _ found
    obtain ⟨rule, place⟩ := (declares.compounds index name).1 found
    obtain ⟨member, compound⟩ := mem_of_getElem?_compoundRules place
    obtain ⟨productions, own, means⟩ := reads.rules name rule index member found
    rw [own, languageOfAlternatives_eraseDups] at there
    exact meaning_le_languages (.inl ⟨rule, member, compound,
      means.relates last (.refl _) _ congruent_le _ _ (relates _) there⟩)
  · intro inner context found
    obtain ⟨_, _, body, own, means⟩ := reads.helpers inner context index found
    have once := means.relates last (.refl _) _ congruent_le _ _ (relates _)
    have more : upper grammar last index ≤ inner.language last.number
        (grammar.languages last.number) *
          (inner.language last.number (grammar.languages last.number))∗ :=
      fun word there => there.2 inner context found
    rw [own, languageOfAlternatives_eraseDups, language_repeatProductions] at there
    generalize inner.language last.number (grammar.languages last.number) = l at once more ⊢
    have whole : l * l∗ * l + l ≤ l * l∗ := by
      refine add_le ?_ (le_mul_of_one_le_right' one_le_kstar)
      rw [mul_assoc]
      exact mul_le_mul_right kstar_mul_le_kstar l
    exact whole (add_le_add (mul_le_mul' more once) once there)

theorem relates_lower (reads : first.Reads last grammar.rules) (size : Nat) :
    last.Relates (· ≥ ·) (assemble grammar answer last).languageOf
      (lower (assemble grammar answer last) last) size := by
  induction size with
  | zero =>
    refine ⟨fun name symbol found => ?_, fun _ _ _ _ less => absurd less (Nat.not_lt_zero _)⟩
    rw [lower, found]
    exact le_rfl
  | succ size ih =>
    refine ⟨ih.names, fun inner context helper found less => ?_⟩
    obtain ⟨_, _, body, own, means⟩ := reads.helpers inner context helper found
    have once := means.relates last (.refl _) _ congruent_ge _ _
      (ih.mono (Nat.le_of_lt_succ less))
    have solves := (assemble grammar answer last).languageOfAlternatives_le helper
    rw [show (assemble grammar answer last).productionsOf helper = last.productionsAt helper from
      rfl, own, languageOfAlternatives_eraseDups, language_repeatProductions] at solves
    generalize languageOfAlternatives (assemble grammar answer last).languageOf body = l
      at once solves
    generalize (assemble grammar answer last).languageOf helper = whole at solves ⊢
    have below : l * l∗ ≤ whole := mul_kstar_le (le_trans le_add_self solves)
      (le_trans le_self_add solves)
    exact le_trans (mul_le_mul' once (kstar_mono once)) below

theorem lower_closed (declares : first.Declares grammar.rules grammar.externals)
    (reads : first.Reads last grammar.rules) (name : String) :
    grammar.meaning last.number (lower (assemble grammar answer last) last) name
      ≤ lower (assemble grammar answer last) last name := by
  rintro word (⟨rule, member, compound, there⟩ | ⟨token, rfl⟩)
  · have inside : (name, rule) ∈ compoundRules grammar.rules := by
      simp [compoundRules, member, compound]
    obtain ⟨index, place⟩ := List.mem_iff_getElem?.1 inside
    have found := (declares.compounds index name).2 ⟨rule, place⟩
    obtain ⟨productions, own, means⟩ := reads.rules name rule index member found
    have below := means.relates last (.refl _) _ congruent_ge _ _ (relates_lower reads _) there
    rw [← languageOfAlternatives_eraseDups, ← own] at below
    rw [lower, reads.known.names _ _ found]
    exact (assemble grammar answer last).languageOfAlternatives_le index below
  · obtain ⟨place, found⟩ := (declares.tokens name).2 token
    have found := reads.known.names _ _ found
    rw [lower, found, (Known.refl last).number (place?_named.2 found)]
    exact rfl

theorem languageOf_assemble (declares : first.Declares grammar.rules grammar.externals)
    (reads : first.Reads last grammar.rules) {index : Nat} {name : String} {rule : Rule}
    (there : (compoundRules grammar.rules)[index]? = some (name, rule)) :
    (assemble grammar answer last).languageOf index
      = Language.map last.number (grammar.language name) := by
  have found := reads.known.names _ _ ((declares.compounds index name).2 ⟨rule, there⟩)
  rw [Grammar.language, Grammar.map_languages]
  refine le_antisymm (fun word derived => ?_) ?_
  · exact (PreparedGrammar.languageOf_le (upper_closed declares reads) index derived).1 name found
  · have below :
        grammar.languages last.number name ≤ lower (assemble grammar answer last) last name :=
      Grammar.languages_le (lower_closed declares reads) name
    rwa [lower, found] at below

theorem name_assemble (declares : first.Declares grammar.rules grammar.externals)
    (reads : first.Reads last grammar.rules) {index : Nat} {name : String} {rule : Rule}
    (there : (compoundRules grammar.rules)[index]? = some (name, rule)) :
    ((assemble grammar answer last).nonterminals[index]?).map (·.name) = some name := by
  have inside : index < first.nonterminals.size := by
    rw [declares.size]
    exact (List.getElem?_eq_some_iff.1 there).1
  refine (reads.labels index inside).trans ?_
  have labels := congrArg (·[index]?) declares.labels
  simpa [there] using labels

theorem exists_place (declares : first.Declares grammar.rules grammar.externals)
    (reads : first.Reads last grammar.rules) {lexeme : Lexeme}
    (mentions : grammar.Mentions lexeme) : ∃ place, last.place? lexeme = some place := by
  cases mentions with
  | named names =>
    obtain ⟨place, found⟩ := (declares.tokens _).2 names
    exact ⟨place, place?_named.2 (reads.known.names _ _ found)⟩
  | @inside name rule _ member compound there =>
    have inside : (name, rule) ∈ compoundRules grammar.rules := by
      simp [compoundRules, member, compound]
    obtain ⟨index, place⟩ := List.mem_iff_getElem?.1 inside
    obtain ⟨_, _, means⟩ := reads.rules name rule index member
      ((declares.compounds index name).2 ⟨rule, place⟩)
    exact Option.isSome_iff_exists.1 (means.placed lexeme there)

end Solution

end Preparation

open Preparation

/-- Different tokens of the grammar are different terminals, each of which fits its token. -/
structure Grammar.Numbers (grammar : Grammar) (prepared : PreparedGrammar) (number : Lexeme → Nat) :
    Prop where
  apart : Set.InjOn number {lexeme | grammar.Mentions lexeme}
  fits : ∀ lexeme, grammar.Mentions lexeme →
    ∃ terminal, prepared.terminals[number lexeme]? = some terminal ∧ lexeme.Fits terminal

/-- The grammar, whose start rule has this name, passes all checks of its preparation but the last
one. -/
def Grammar.PassesChecks (grammar : Grammar) (start : String) : Prop :=
  ∃ rule rest, grammar.rules = (start, rule) :: rest ∧ rule.isToken = false ∧
    ∃ answer draft, readRules grammar Draft.empty = .ok (answer, draft)

theorem Preparation.numbers_assemble {grammar : Grammar}
    {answer : List Nat × List Nat × Option Nat} {first last : Draft}
    (declares : first.Declares grammar.rules grammar.externals)
    (reads : first.Reads last grammar.rules) :
    grammar.Numbers (assemble grammar answer last) last.number where
  apart lexeme mentions other mentions' same := by
    obtain ⟨place, found⟩ := exists_place declares reads mentions
    obtain ⟨place', found'⟩ := exists_place declares reads mentions'
    rw [(Draft.Known.refl last).number found, (Draft.Known.refl last).number found'] at same
    exact reads.placed.apart lexeme other place found (same ▸ found')
  fits lexeme mentions := by
    obtain ⟨place, found⟩ := exists_place declares reads mentions
    rw [(Draft.Known.refl last).number found]
    exact reads.placed.fits lexeme place found

theorem Grammar.prepare_of_read {grammar : Grammar} {start : String} {rule : Rule}
    {rest : List (String × Rule)} {answer : List Nat × List Nat × Option Nat} {last : Draft}
    (rules : grammar.rules = (start, rule) :: rest) (compound : rule.isToken = false)
    (ran : readRules grammar Draft.empty = .ok (answer, last)) :
    grammar.prepare = if (productive last.nonterminals).getD 0 false then
        .ok (assemble grammar answer last)
      else .error (.unreachableStart start) := by
  have whole : prepareWith grammar start Draft.empty
      = if (productive last.nonterminals).getD 0 false then .ok (assemble grammar answer last, last)
        else .error (.unreachableStart start) := by
    rw [prepareWith_eq]
    change (readRules grammar Draft.empty >>= fun read => _) = _
    rw [ran]
    change (if !(productive last.nonterminals).getD 0 false then
        throw (.unreachableStart start) >>= fun _ => pure (assemble grammar answer last)
      else pure (assemble grammar answer last) : M PreparedGrammar) last = _
    cases (productive last.nonterminals).getD 0 false <;> rfl
  rw [Grammar.prepare, rules]
  simp only [compound]
  rw [if_neg Bool.false_ne_true, StateT.run'_eq, StateT.run, whole]
  split <;> rfl

theorem Grammar.exists_read {grammar : Grammar} {prepared : PreparedGrammar}
    (h : grammar.prepare = .ok prepared) : ∃ answer last,
      readRules grammar Draft.empty = .ok (answer, last) ∧
        prepared = assemble grammar answer last := by
  obtain ⟨start, next, ran⟩ := Grammar.exists_prepareWith h
  rw [prepareWith_eq] at ran
  obtain ⟨answer, last, read, ran⟩ := run_bind ran
  obtain ⟨_, _, same, ran⟩ := run_bind ran
  obtain ⟨rfl, rfl⟩ := run_get same
  refine ⟨answer, last, read, ?_⟩
  split at ran
  · obtain ⟨_, _, ran, _⟩ := run_bind ran
    contradiction
  · cases ran
    rfl

/-- Preparation preserves the language: every rule that is no token has a nonterminal, in the order
of the grammar, that derives what the rule means, with the tokens written as their terminals. A
grammar that passes the other checks is rejected if and only if its start rule means nothing. -/
theorem Grammar.prepare_preserves (grammar : Grammar) :
    (∀ prepared, grammar.prepare = .ok prepared → ∃ number, grammar.Numbers prepared number ∧
      ∀ index name rule, (compoundRules grammar.rules)[index]? = some (name, rule) →
        (prepared.nonterminals[index]?).map (·.name) = some name ∧
        prepared.languageOf index = Language.map number (grammar.language name)) ∧
    ∀ start, grammar.PassesChecks start →
      (grammar.prepare = .error (.unreachableStart start) ↔ grammar.language start = 0) := by
  constructor
  · intro prepared h
    obtain ⟨answer, last, ran, rfl⟩ := Grammar.exists_read h
    obtain ⟨first, declares, reads⟩ := readRules_reads ran
    exact ⟨last.number, numbers_assemble declares reads, fun index name rule there =>
      ⟨name_assemble declares reads there, languageOf_assemble declares reads there⟩⟩
  · rintro start ⟨rule, rest, rules, compound, answer, last, ran⟩
    obtain ⟨first, declares, reads⟩ := readRules_reads ran
    have there : (compoundRules grammar.rules)[0]? = some (start, rule) := by
      simp [compoundRules, rules, compound]
    have derives :
        (assemble grammar answer last).languageOf 0 = 0 ↔ grammar.language start = 0 := by
      rw [languageOf_assemble declares reads there]
      exact Set.image_eq_empty
    rw [← derives, Grammar.prepare_of_read rules compound ran]
    have productive := @productive_iff (assemble grammar answer last) 0
    rw [← not_iff_not, ← ne_eq, ← ne_eq, ← productive, assemble]
    cases (Preparation.productive last.nonterminals).getD 0 false <;> simp

def listGrammar : Grammar where
  name := "lists"
  rules := [("list", .repeat1 (.symbol "item")),
    ("item", .choice [.string "a", .seq [.string "(", .symbol "list", .string ")"]])]
  extras := []
  externals := []
  word := none
  supertypes := []
  reserved := []
  precedences := []

def endlessGrammar : Grammar :=
  { listGrammar with rules := [("list", .seq [.symbol "list", .string "a"])] }

theorem Grammar.prepare_preserves_lists :
    (∃ prepared, listGrammar.prepare = .ok prepared ∧ ∃ number,
      prepared.languageOf 0 = Language.map number (listGrammar.language "list") ∧
      prepared.languageOf 1 = Language.map number (listGrammar.language "item")) ∧
    endlessGrammar.PassesChecks "list" ∧ endlessGrammar.language "list" = 0 := by
  have runs : (listGrammar.prepare.toOption).isSome = true := by cbv
  obtain ⟨prepared, prepare⟩ := Option.isSome_iff_exists.1 runs
  have prepare := ok_of_toOption prepare
  obtain ⟨number, _, derives⟩ := (prepare_preserves listGrammar).1 prepared prepare
  have reads : ((readRules endlessGrammar Draft.empty).toOption).isSome = true := by cbv
  obtain ⟨⟨answer, last⟩, reads⟩ := Option.isSome_iff_exists.1 reads
  have passes : endlessGrammar.PassesChecks "list" :=
    ⟨_, _, rfl, rfl, answer, last, ok_of_toOption reads⟩
  refine ⟨⟨prepared, prepare, number, (derives 0 "list" _ rfl).2, (derives 1 "item" _ rfl).2⟩,
    passes, ((prepare_preserves endlessGrammar).2 "list" passes).1 ?_⟩
  rw [Grammar.prepare_of_read rfl rfl (ok_of_toOption reads)]
  have unproductive : ((readRules endlessGrammar Draft.empty).toOption.map fun read =>
      (productive read.2.nonterminals).getD 0 false) = some false := by cbv
  rw [reads] at unproductive
  have unproductive : (productive last.nonterminals).getD 0 false = false :=
    Option.some.inj unproductive
  rw [unproductive]
  rfl

end IncrementalGlr
