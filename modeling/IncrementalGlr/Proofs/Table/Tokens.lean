import Mathlib
import IncrementalGlr.Proofs.Lexical.Acceptance
import IncrementalGlr.Proofs.Table.Recognition

/-!
# The tokens of a compiled table

The lexical automaton of a table accepts exactly what the expressions of the terminals match that
are not among the keywords.
-/

namespace IncrementalGlr

/-- The state of the lexical automaton after a text, if it does not get stuck. -/
def Table.lexStateAfter? (table : Table) (text : List Char) : Option UInt32 :=
  text.foldlM (fun state c => (table.lexState state).next? c) table.lexStart

namespace PreparedGrammar

variable {grammar : PreparedGrammar} {table : Table} {twice : String → Prop} {place : Nat}

/-- The terminal has an expression that matches the text, and it is not listed as a keyword. -/
def MatchesPlainly (grammar : PreparedGrammar) (table : Table) (text : List Char) (place : Nat) :
    Prop :=
  ∃ terminal regex, grammar.terminals[place]? = some terminal ∧ terminal.regex = some regex ∧
    (∀ keyword ∈ table.keywords, keyword.symbol ≠ grammar.symbolId (.terminal place)) ∧
    text ∈ regex.language

theorem listed_iff_isKeyword (generated : Generated grammar table)
    (keywords : table.keywords = grammar.keywords) {terminal : Terminal}
    (found : grammar.terminals[place]? = some terminal) :
    (∃ keyword ∈ table.keywords, keyword.symbol = grammar.symbolId (.terminal place)) ↔
      grammar.isKeyword terminal = true := by
  have inside := (Array.getElem?_eq_some_iff.1 found).1
  rw [keywords]
  constructor
  · rintro ⟨keyword, listed, same⟩
    obtain ⟨place', terminal', found', isKeyword, rfl⟩ := mem_keywords_iff.1 listed
    have inside' := (Array.getElem?_eq_some_iff.1 found').1
    cases generated.symbolId_injective (.terminal place') (.terminal place) inside' inside same
    cases found.symm.trans found'
    exact isKeyword
  · intro isKeyword
    exact ⟨_, mem_keywords_iff.2 ⟨place, terminal, found, isKeyword, rfl⟩, rfl⟩

theorem lexes_iff (generated : Generated grammar table)
    (keywords : table.keywords = grammar.keywords) {text : List Char} :
    grammar.Lexes text place ↔ grammar.MatchesPlainly table text place := by
  refine exists_congr fun terminal => exists_congr fun regex => and_congr_right fun found =>
    and_congr_right fun _ => and_congr_left fun _ => ?_
  rw [← Bool.not_eq_true, ← listed_iff_isKeyword generated keywords found]
  simp only [not_exists, not_and]

end PreparedGrammar

def PreparedGrammar.wordRegex? (grammar : PreparedGrammar) : Option Regex :=
  (grammar.word.bind fun word => grammar.terminals[word]?).bind (·.regex)

theorem PreparedGrammar.lexStateAfter?_spec {grammar : Grammar} {compiled : Compiled}
    {prepared : PreparedGrammar} (compile : grammar.compile = .ok compiled)
    (prepare : grammar.prepare = .ok prepared) (text : List Char) :
    match compiled.table.lexStateAfter? text with
    | none => ∀ place, ¬ prepared.MatchesPlainly compiled.table text place
    | some state => ∃ places : List Nat,
        (compiled.table.lexState state).accepts
          = places.map (fun place => prepared.symbolId (.terminal place)) ∧
        places.Pairwise prepared.Before ∧
        ∀ place, place ∈ places ↔ prepared.MatchesPlainly compiled.table text place := by
  obtain ⟨other, prepare', laidOut⟩ := laidOut_of_compile compile
  cases prepare.symm.trans prepare'
  have generated := laidOut.generated (Grammar.prepare_sound prepare).1
  have exact := lexStates_exact (Grammar.prepare_named prepare) laidOut.lexStates text
  simp only [lexes_iff generated laidOut.keywords] at exact
  rw [Table.lexStateAfter?, laidOut.lexStart]
  exact exact

/-- The lexical automaton of a table is exact. After a text it accepts the terminals outside of the
keywords whose expressions match the text, each once, by lexical precedence, then strings before
others, then in the order of the grammar; it is stuck only where there is no such terminal. That the
expressions match by their language is also what matching decides. -/
theorem lexStateAfter?_exact {grammar : Grammar} {compiled : Compiled} {prepared : PreparedGrammar}
    (compile : grammar.compile = .ok compiled) (prepare : grammar.prepare = .ok prepared) :
    (∀ text, match compiled.table.lexStateAfter? text with
      | none => ∀ place, ¬ prepared.MatchesPlainly compiled.table text place
      | some state => ∃ places : List Nat,
          (compiled.table.lexState state).accepts
            = places.map (fun place => prepared.symbolId (.terminal place)) ∧
          places.Pairwise prepared.Before ∧
          ∀ place, place ∈ places ↔ prepared.MatchesPlainly compiled.table text place) ∧
    (∀ terminal ∈ prepared.terminals, ∀ regex ∈ terminal.regex, regex.Made) ∧
    ∀ regex : Regex, regex.Made →
      ∀ text : String, regex.matches text = true ↔ text.toList ∈ regex.language := by
  refine ⟨PreparedGrammar.lexStateAfter?_spec compile prepare, fun terminal member => ?_,
    fun regex made text => Regex.matches_iff made⟩
  obtain ⟨place, found⟩ := Array.getElem?_of_mem member
  exact ((Grammar.prepare_named prepare).sound place terminal found).made

theorem lexStateAfter?_exact_letters : ∃ compiled prepared,
    letterGrammar.compile = .ok compiled ∧ letterGrammar.prepare = .ok prepared ∧
      ∃ state, ∃ places : List Nat, compiled.table.lexStateAfter? ['a'] = some state ∧
        (compiled.table.lexState state).accepts
          = places.map (fun place => prepared.symbolId (.terminal place)) ∧
        places.Pairwise prepared.Before ∧
        ∀ place, place ∈ places ↔ prepared.MatchesPlainly compiled.table ['a'] place := by
  have runs : (letterGrammar.compile.toOption.bind fun compiled =>
      compiled.table.lexStateAfter? ['a']).isSome = true := by cbv
  obtain ⟨state, runs⟩ := Option.isSome_iff_exists.1 runs
  obtain ⟨compiled, compile, after⟩ := Option.bind_eq_some_iff.1 runs
  obtain ⟨prepared, prepare, _⟩ := laidOut_of_compile (ok_of_toOption compile)
  have exact := (lexStateAfter?_exact (ok_of_toOption compile) prepare).1 ['a']
  rw [after] at exact
  obtain ⟨places, same⟩ := exact
  exact ⟨compiled, prepared, ok_of_toOption compile, prepare, state, places, after, same⟩

namespace PreparedGrammar

variable {grammar : PreparedGrammar} {twice : String → Prop}

theorem isKeyword_iff (named : grammar.Named twice) {terminal : Terminal} :
    grammar.isKeyword terminal = true ↔ ∃ word, grammar.wordRegex? = some word ∧
      terminal.isString = true ∧ terminal.isExternal = false ∧
        terminal.name.toList ∈ word.language := by
  rw [isKeyword, ← wordRegex?]
  cases found : grammar.wordRegex? with
  | none => simp
  | some word =>
    obtain ⟨token, there, expression⟩ := Option.bind_eq_some_iff.1 found
    obtain ⟨place, _, there⟩ := Option.bind_eq_some_iff.1 there
    have made : word.Made := (named.sound place token there).made word expression
    simp [Regex.matches_iff made, and_assoc]

end PreparedGrammar

/-- Every keyword is a string that the word token matches. -/
theorem isString_of_keyword {grammar : Grammar} {compiled : Compiled} {prepared : PreparedGrammar}
    (compile : grammar.compile = .ok compiled) (prepare : grammar.prepare = .ok prepared)
    {keyword : Keyword} (listed : keyword ∈ compiled.table.keywords) :
    ∃ place terminal word, prepared.terminals[place]? = some terminal ∧
      keyword.symbol = prepared.symbolId (.terminal place) ∧ keyword.text = terminal.name ∧
      terminal.isString = true ∧ terminal.isExternal = false ∧
      prepared.wordRegex? = some word ∧ keyword.text.toList ∈ word.language := by
  obtain ⟨other, prepare', laidOut⟩ := laidOut_of_compile compile
  cases prepare.symm.trans prepare'
  rw [laidOut.keywords] at listed
  obtain ⟨place, terminal, found, isKeyword, rfl⟩ := PreparedGrammar.mem_keywords_iff.1 listed
  obtain ⟨word, expression, isString, isExternal, matched⟩ :=
    (PreparedGrammar.isKeyword_iff (Grammar.prepare_named prepare)).1 isKeyword
  exact ⟨place, terminal, word, found, rfl, rfl, isString, isExternal, expression, matched⟩

/-- What a terminal matches is accepted by the lexical automaton, or the terminal is a keyword. A
keyword of the rules matches its own text only. A string among the extras has a name that is not its
text, so where the word token matches the name, the text is lost. -/
theorem accepts_or_keyword {grammar : Grammar} {compiled : Compiled} {prepared : PreparedGrammar}
    (compile : grammar.compile = .ok compiled) (prepare : grammar.prepare = .ok prepared)
    {place : Nat} {terminal : Terminal} {regex : Regex} {text : List Char}
    (found : prepared.terminals[place]? = some terminal) (expression : terminal.regex = some regex)
    (matched : text ∈ regex.language) :
    (∃ state, compiled.table.lexStateAfter? text = some state ∧
      prepared.symbolId (.terminal place) ∈ (compiled.table.lexState state).accepts) ∨
    ∃ keyword ∈ compiled.table.keywords, keyword.symbol = prepared.symbolId (.terminal place) ∧
      (terminal.named = false → text = keyword.text.toList) := by
  obtain ⟨other, prepare', laidOut⟩ := laidOut_of_compile compile
  cases prepare.symm.trans prepare'
  have named := Grammar.prepare_named prepare
  cases isKeyword : prepared.isKeyword terminal with
  | true =>
    refine .inr ⟨_, laidOut.keywords ▸ PreparedGrammar.mem_keywords_iff.2
      ⟨place, terminal, found, isKeyword, rfl⟩, rfl, fun anonymous => ?_⟩
    obtain ⟨_, _, isString, isExternal, _⟩ := (PreparedGrammar.isKeyword_iff named).1 isKeyword
    have literal := (named.sound place terminal found).literal isString anonymous isExternal
    cases expression.symm.trans literal
    exact Regex.mem_language_literal.1 matched
  | false =>
    have generated := laidOut.generated (Grammar.prepare_sound prepare).1
    have plainly : prepared.MatchesPlainly compiled.table text place :=
      (PreparedGrammar.lexes_iff generated laidOut.keywords).1
        ⟨terminal, regex, found, expression, isKeyword, matched⟩
    have exact := PreparedGrammar.lexStateAfter?_spec compile prepare text
    split at exact
    · exact absurd plainly (exact place)
    · next state after =>
      obtain ⟨places, accepts, _, members⟩ := exact
      exact .inl ⟨state, after, accepts ▸ List.mem_map_of_mem ((members place).2 plainly)⟩

def spacedGrammar : Grammar where
  name := "spaced"
  rules := [("source", .repeat1 (.symbol "word")), ("word", .pattern "[a-z0-9_]+")]
  extras := [.string " "]
  externals := []
  word := some "word"
  supertypes := []
  reserved := []
  precedences := []

/-- The space is taken for a keyword under the name of its terminal, and so out of the automaton. -/
theorem keywords_spaced : (spacedGrammar.prepare.toOption.map fun prepared =>
    prepared.keywords.map fun keyword => (keyword.text, keyword.symbol))
      = some [("_extra_token1", ⟨2⟩)] := by
  cbv

end IncrementalGlr
