import Mathlib
import IncrementalGlr.Proofs.Fixpoint
import IncrementalGlr.Proofs.Grammar.Derivation
import IncrementalGlr.Proofs.Grammar.Meaning
import IncrementalGlr.Proofs.Grammar.Preparation

/-!
# Productions as equations

What the nonterminals of a prepared grammar derive is the least solution of their productions. The
productive nonterminals are those that derive something.
-/

namespace IncrementalGlr

/-- The words of a symbol, where nonterminals have the languages `own`. -/
def Sym.language (own : Nat → Words Nat) : Sym → Words Nat
  | .terminal index => {[index]}
  | .nonterminal index => own index

def FlatProduction.language (own : Nat → Words Nat) (production : FlatProduction) :
    Words Nat :=
  (production.symbols.map (Sym.language own)).prod

def languageOfAlternatives (own : Nat → Words Nat) (productions : List FlatProduction) :
    Words Nat :=
  {word | ∃ production ∈ productions, word ∈ production.language own}

section Alternatives

variable {own : Nat → Words Nat} {productions others : List FlatProduction} {word : List Nat}

theorem mem_languageOfAlternatives : word ∈ languageOfAlternatives own productions ↔
    ∃ production ∈ productions, word ∈ production.language own := Iff.rfl

theorem languageOfAlternatives_nil : languageOfAlternatives own [] = 0 := by
  ext word
  simp [mem_languageOfAlternatives]

theorem languageOfAlternatives_append : languageOfAlternatives own (productions ++ others)
    = languageOfAlternatives own productions + languageOfAlternatives own others := by
  ext word
  rw [Language.mem_add]
  simp only [mem_languageOfAlternatives, List.mem_append, or_and_right, exists_or]

theorem languageOfAlternatives_eraseDups :
    languageOfAlternatives own productions.eraseDups = languageOfAlternatives own productions := by
  ext word
  simp only [mem_languageOfAlternatives, List.mem_eraseDups]

theorem languageOfAlternatives_map {f : FlatProduction → FlatProduction}
    (same : ∀ production, (f production).steps = production.steps) :
    languageOfAlternatives own (productions.map f) = languageOfAlternatives own productions := by
  ext word
  simp [mem_languageOfAlternatives, FlatProduction.language, FlatProduction.symbols, same]

theorem languageOfAlternatives_single (step : Step) :
    languageOfAlternatives own [.single step] = step.symbol.language own := by
  ext word
  simp [mem_languageOfAlternatives, FlatProduction.language, FlatProduction.symbols,
    FlatProduction.single]

theorem languageOfAlternatives_empty : languageOfAlternatives own [.empty] = 1 := by
  ext word
  simp [mem_languageOfAlternatives, FlatProduction.language, FlatProduction.symbols,
    FlatProduction.empty]

theorem language_append (head tail : FlatProduction) :
    (head.append tail).language own = head.language own * tail.language own := by
  simp [FlatProduction.language, FlatProduction.symbols, FlatProduction.append]

theorem languageOfAlternatives_flatMap :
    languageOfAlternatives own (productions.flatMap fun head => others.map head.append)
      = languageOfAlternatives own productions * languageOfAlternatives own others := by
  ext word
  rw [Language.mem_mul]
  constructor
  · rintro ⟨_, member, there⟩
    obtain ⟨head, first, member⟩ := List.mem_flatMap.1 member
    obtain ⟨tail, second, rfl⟩ := List.mem_map.1 member
    rw [language_append, Language.mem_mul] at there
    obtain ⟨front, here, back, behind, rfl⟩ := there
    exact ⟨front, ⟨head, first, here⟩, back, ⟨tail, second, behind⟩, rfl⟩
  · rintro ⟨front, ⟨head, first, here⟩, back, ⟨tail, second, behind⟩, rfl⟩
    refine ⟨head.append tail, List.mem_flatMap.2 ⟨head, first, List.mem_map_of_mem second⟩, ?_⟩
    rw [language_append]
    exact Language.mem_mul.2 ⟨front, here, back, behind, rfl⟩

end Alternatives

namespace PreparedGrammar

variable {grammar : PreparedGrammar}

def languageOf (grammar : PreparedGrammar) (index : Nat) : Words Nat :=
  {word | grammar.cfg.Derives [.nonterminal index] (word.map .terminal)}

theorem mem_languageOf {index : Nat} {word : List Nat} :
    word ∈ grammar.languageOf index ↔ grammar.Yields [.nonterminal index] word :=
  (yields_iff_derives : grammar.Yields [.nonterminal index] word ↔ _).symm

theorem Yields.mem_prod {own : Nat → Words Nat}
    (closed : ∀ index, languageOfAlternatives own (grammar.productionsOf index) ≤ own index)
    {symbols : List Sym} {word : List Nat} (yields : grammar.Yields symbols word) :
    word ∈ (symbols.map (Sym.language own)).prod := by
  induction yields with
  | nil => exact Language.nil_mem_one
  | terminal index rest ih => exact Language.mem_mul.2 ⟨[index], rfl, _, ih, rfl⟩
  | nonterminal member inner rest own' ih =>
    exact Language.mem_mul.2 ⟨_, closed _ ⟨_, member, own'⟩, _, ih, rfl⟩

theorem languageOf_le {own : Nat → Words Nat}
    (closed : ∀ index, languageOfAlternatives own (grammar.productionsOf index) ≤ own index)
    (index : Nat) : grammar.languageOf index ≤ own index := by
  intro word there
  have whole := (mem_languageOf.1 there).mem_prod closed
  rwa [List.map_singleton, List.prod_singleton] at whole

theorem yields_of_mem_prod {symbols : List Sym} {word : List Nat}
    (there : word ∈ (symbols.map (Sym.language grammar.languageOf)).prod) :
    grammar.Yields symbols word := by
  induction symbols generalizing word with
  | nil =>
    cases (Language.mem_one word).1 there
    exact .nil
  | cons symbol symbols ih =>
    obtain ⟨front, here, back, behind, rfl⟩ := Language.mem_mul.1 there
    have first : grammar.Yields [symbol] front := by
      cases symbol with
      | terminal index =>
        cases Set.mem_singleton_iff.1 here
        exact .terminal index .nil
      | nonterminal index => exact mem_languageOf.1 here
    exact first.append (ih behind)

theorem languageOfAlternatives_le (index : Nat) :
    languageOfAlternatives grammar.languageOf (grammar.productionsOf index)
      ≤ grammar.languageOf index := by
  rintro word ⟨production, member, there⟩
  refine mem_languageOf.2 ?_
  rw [← List.append_nil word]
  exact .nonterminal member (yields_of_mem_prod there) .nil

end PreparedGrammar

namespace Preparation

variable {grammar : PreparedGrammar} {flags : Array Bool}

theorem derives_iff {nonterminal : Nonterminal} : derives flags nonterminal = true ↔
    ∃ production ∈ nonterminal.productions, ∀ index, .nonterminal index ∈ production.symbols →
      flags.getD index false = true := by
  rw [derives, List.any_eq_true]
  refine exists_congr fun production => and_congr_right fun _ => ?_
  rw [List.all_eq_true]
  constructor
  · intro all index there
    obtain ⟨step, member, symbol⟩ := List.mem_map.1 there
    have own := all step member
    rwa [symbol] at own
  · intro all step member
    cases symbol : step.symbol with
    | terminal index => rfl
    | nonterminal index => exact all index (List.mem_map.2 ⟨step, member, symbol⟩)

theorem getD_map_derives {index : Nat} :
    (grammar.nonterminals.map (derives flags)).getD index false = true ↔
      ∃ production ∈ grammar.productionsOf index, ∀ other,
        .nonterminal other ∈ production.symbols → flags.getD other false = true := by
  rw [Array.getD_eq_getD_getElem?, Array.getElem?_map, PreparedGrammar.productionsOf]
  cases found : grammar.nonterminals[index]? with
  | none => simp
  | some nonterminal => simpa using derives_iff

def flagMembers (grammar : PreparedGrammar) : Members (Array Bool) Nat where
  valid flags := flags.size = grammar.nonterminals.size
  mem flags index := flags.getD index false
  all := Finset.range grammar.nonterminals.size
  ext := by
    intro flags others size size' same
    refine Array.ext (size.trans size'.symm) fun index inside inside' => ?_
    have here := same index (Finset.mem_range.2 (size ▸ inside))
    simpa [Array.getD_eq_getD_getElem?, inside, inside'] using here

theorem productive_spec (grammar : PreparedGrammar) :
    grammar.nonterminals.map (derives (productive grammar.nonterminals))
      = productive grammar.nonterminals := by
  refine ((flagMembers grammar).stabilize_of (grammar.nonterminals.size + 1)
    (f := fun flags => grammar.nonterminals.map (derives flags))
    (x := grammar.nonterminals.map fun _ => false) (p := fun flags =>
      (flagMembers grammar).valid flags ∧
        (flagMembers grammar).Le flags (grammar.nonterminals.map (derives flags)))
    ?_ ?_ ?_).2.1
  · rintro flags ⟨size, le⟩
    refine ⟨⟨by simp [flagMembers], fun index member => ?_⟩, size, le⟩
    obtain ⟨production, there, all⟩ := getD_map_derives.1 member
    exact getD_map_derives.2 ⟨production, there, fun other inside => le other (all other inside)⟩
  · simp only [flagMembers, Finset.card_range]
    omega
  · refine ⟨by simp [flagMembers], fun index member => ?_⟩
    simp only [flagMembers, Array.getD_eq_getD_getElem?, Array.getElem?_map] at member
    cases found : grammar.nonterminals[index]? <;> simp [found] at member

theorem exists_yields_of_productive {index : Nat}
    (h : (productive grammar.nonterminals).getD index false = true) :
    ∃ word, grammar.Yields [.nonterminal index] word := by
  have keeps : ∀ index, (productive grammar.nonterminals).getD index false = true →
      ∃ word, grammar.Yields [.nonterminal index] word := by
    refine stabilize_keeps (p := fun flags : Array Bool => ∀ index,
      flags.getD index false = true → ∃ word, grammar.Yields [.nonterminal index] word) ?_ ?_
    · intro flags known index member
      obtain ⟨production, there, all⟩ := getD_map_derives.1 member
      have whole : ∀ symbols : List Sym, (∀ other, .nonterminal other ∈ symbols →
          flags.getD other false = true) → ∃ word, grammar.Yields symbols word := by
        intro symbols all
        induction symbols with
        | nil => exact ⟨[], .nil⟩
        | cons symbol symbols ih =>
          obtain ⟨back, rest⟩ := ih fun other inside => all other (List.mem_cons_of_mem _ inside)
          cases symbol with
          | terminal index => exact ⟨_, .terminal index rest⟩
          | nonterminal index =>
            obtain ⟨front, first⟩ := known index (all index (List.mem_cons_self ..))
            exact ⟨front ++ back, first.append rest⟩
      obtain ⟨word, inner⟩ := whole production.symbols all
      exact ⟨word ++ [], .nonterminal there inner .nil⟩
    · intro index member
      rw [Array.getD_eq_getD_getElem?, Array.getElem?_map] at member
      cases found : grammar.nonterminals[index]? <;> simp [found] at member
  exact keeps index h

theorem productive_of_yields {symbols : List Sym} {word : List Nat}
    (h : grammar.Yields symbols word) : ∀ index, .nonterminal index ∈ symbols →
      (productive grammar.nonterminals).getD index false = true := by
  induction h with
  | nil => simp
  | terminal index _ ih =>
    intro other member
    exact ih other (by simpa using member)
  | nonterminal member _ _ inner ih =>
    intro other there
    rcases List.mem_cons.1 there with same | there
    · cases same
      rw [← productive_spec]
      exact getD_map_derives.2 ⟨_, member, inner⟩
    · exact ih other there

theorem productive_iff {index : Nat} :
    (productive grammar.nonterminals).getD index false = true ↔ grammar.languageOf index ≠ 0 := by
  constructor
  · intro h none
    obtain ⟨word, yields⟩ := exists_yields_of_productive h
    have there := PreparedGrammar.mem_languageOf.2 yields
    rw [none] at there
    exact there
  · intro some
    obtain ⟨word, there⟩ := Set.nonempty_iff_ne_empty.2 some
    exact productive_of_yields (PreparedGrammar.mem_languageOf.1 there) index
      (List.mem_singleton_self _)

end Preparation

end IncrementalGlr
