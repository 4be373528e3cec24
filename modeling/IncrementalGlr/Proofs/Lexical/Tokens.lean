import IncrementalGlr.Lexical.Tokens
import IncrementalGlr.Proofs.Grammar.Names
import IncrementalGlr.Proofs.Lexical.Automaton

/-!
# The lexer of a prepared grammar

The lexical automaton of a grammar is complete, and it accepts terminals of the grammar. So are the
keywords.
-/

namespace IncrementalGlr

namespace PreparedGrammar

variable {grammar : PreparedGrammar} {twice : String → Prop}

theorem fits_nfaOf {terminals : Nat} {tokens : List (Terminal × Nat)} {entries : List Nat}
    {nfa : Nfa} (h : nfa.Fits terminals)
    (inside : ∀ token ∈ tokens, token.2 < terminals ∧ ∀ regex ∈ token.1.regex, regex.Made) :
    (nfaOf tokens entries nfa).2.Fits terminals := by
  induction tokens generalizing entries nfa with
  | nil => exact h
  | cons token tokens ih =>
    obtain ⟨terminal, index⟩ := token
    obtain ⟨⟨known, made⟩, rest⟩ := List.forall_mem_cons.1 inside
    rw [nfaOf]
    split
    · exact ih h rest
    · next regex found =>
      have accepts : (NfaState.accept index).Fits terminals := known
      exact ih (Nfa.fits_addRegex regex (made regex found) (h.push accepts) _) rest

theorem lexStates_spec (named : grammar.Named twice) {states : Array LexState}
    (h : grammar.lexStates = .ok states) : 0 < states.size ∧
      ∀ state ∈ states, state.Whole states.size ∧ ∀ accepted ∈ state.accepts,
        ∃ terminal < grammar.terminals.size, accepted = grammar.symbolId (.terminal terminal) := by
  unfold lexStates at h
  obtain ⟨_, _, h⟩ := bind_ok h
  obtain ⟨_, _, h⟩ := bind_ok h
  cases h
  refine ClosedNfa.Fits.determinize (ClosedNfa.fits_ofNfa ?_) _ _ _
  refine Nfa.Fits.push (fits_nfaOf Nfa.fits_empty fun token member => ?_) (NfaState.fits_split _)
  have found := List.mem_zipIdx_iff_getElem?.1 (List.mem_of_mem_filter member)
  rw [Array.getElem?_toList] at found
  exact ⟨(Array.getElem?_eq_some_iff.1 found).1, (named.sound _ _ found).made⟩

theorem mem_keywords_iff {keyword : Keyword} : keyword ∈ grammar.keywords ↔
    ∃ place terminal, grammar.terminals[place]? = some terminal ∧
      grammar.isKeyword terminal = true ∧ keyword = ⟨terminal.name,
        grammar.symbolId (.terminal place), grammar.reserved.contains terminal.name⟩ := by
  simp only [keywords, List.mem_map, List.mem_filter, Prod.exists, List.mem_zipIdx_iff_getElem?,
    Array.getElem?_toList, and_assoc]
  rw [exists_comm]
  simp only [eq_comm]

theorem mem_keywords {keyword : Keyword} (h : keyword ∈ grammar.keywords) :
    ∃ terminal < grammar.terminals.size,
      keyword.symbol = grammar.symbolId (.terminal terminal) := by
  obtain ⟨place, _, found, _, rfl⟩ := mem_keywords_iff.1 h
  exact ⟨place, (Array.getElem?_eq_some_iff.1 found).1, rfl⟩

end PreparedGrammar

end IncrementalGlr
