import IncrementalGlr.Proofs.Lexer.Locality

/-!
# Which token is selected

The lexer looks for a token that is not valid only where nothing valid matches. The word token and
the keywords are apart: the word token may be matched for a keyword that is valid, and a reserved
keyword is found where only the word token is valid.
-/

namespace IncrementalGlr

namespace Table

variable {table : Table} {wanted : SymbolId → Bool}

theorem wanted_walk {state : UInt32} {cursor : Cursor} {best : Option Match}
    (before : ∀ found ∈ best, wanted found.symbol = true) :
    ∀ found ∈ (table.walk wanted state cursor best).1, wanted found.symbol = true := by
  fun_induction walk table wanted state cursor best with
  | case1 => exact before
  | case2 => exact before
  | case3 state cursor best c looked next moved best' =>
      rename_i ih
      refine ih fun found member => ?_
      simp only [best'] at member
      split at member
      · next symbol accepted =>
          cases member
          exact List.find?_some accepted
      · exact before found member

theorem wanted_longestMatch {cursor : Cursor} :
    ∀ found ∈ (table.longestMatch wanted cursor).1, wanted found.symbol = true :=
  wanted_walk (by simp)

end Table

namespace Language

variable {language : Language} {mode : LexMode} {matched : SymbolId}

def IsWord (language : Language) (symbol : SymbolId) : Prop :=
  language.wordToken? = some symbol ∨ ∃ keyword ∈ language.table.keywords, keyword.symbol = symbol

theorem resolveKeyword_cases (language : Language) (mode : LexMode) (matched : SymbolId)
    (text : String) : language.resolveKeyword mode matched text = matched ∨
      language.IsWord (language.resolveKeyword mode matched text) := by
  unfold resolveKeyword
  split
  · split
    · next keyword found =>
        split
        · exact .inr (.inr ⟨keyword, mem_of_findRev? found, rfl⟩)
        · exact .inl rfl
    · exact .inl rfl
  · exact .inl rfl

theorem isValid_of_isWanted (wanted : language.isWanted mode matched = true) :
    mode.isValid matched = true ∨ language.IsWord matched := by
  rcases Bool.or_eq_true_iff.1 wanted with valid | word
  · exact .inl valid
  · exact .inr (.inl (beq_iff_eq.1 (Bool.and_eq_true_iff.1 word).2))

end Language

namespace Lexer

variable {lexer : Lexer} {id : LexModeId} {mode : LexMode} {carried : Option ScannerState}

def Lacks (lexer : Lexer) (mode : LexMode) : Prop :=
  (lexer.language.table.longestMatch (lexer.language.isWanted mode) lexer.cursor).1 = none

theorem lacks_of_internal (invalid : mode.isValid (lexer.internal id mode).symbol = false)
    (noWord : ¬ lexer.language.IsWord (lexer.internal id mode).symbol) : lexer.Lacks mode := by
  cases atEnd : lexer.cursor.isAtEnd with
  | true =>
    have nothing : lexer.cursor.lookahead = none := by
      cases seen : lexer.cursor.lookahead with
      | none => rfl
      | some c =>
        have inside := Cursor.offset_lt_size_of_lookahead seen
        rw [Cursor.isAtEnd, decide_eq_true_iff] at atEnd
        omega
    rw [Lacks, Table.longestMatch, Table.walk_of_end nothing]
  | false =>
    rw [Lacks, Option.eq_none_iff_forall_ne_some]
    intro found matched
    -- Whatever the keywords make of a match, it is a word or has the symbol that was matched.
    rw [internal_of_valid atEnd (Prod.ext matched rfl)] at invalid noWord
    rcases lexer.language.resolveKeyword_cases mode found.symbol
      (lexer.cursor.slice lexer.cursor.offset found.stop.bytes) with same | word
    · rw [token, same] at invalid noWord
      rcases Language.isValid_of_isWanted (Table.wanted_longestMatch found matched) with
        valid | word
      · rw [valid] at invalid
        contradiction
      · exact noWord word
    · exact noWord word

theorem lacks_of_next (invalid : mode.isValid (lexer.next id mode carried).symbol = false)
    (noWord : ¬ lexer.language.IsWord (lexer.next id mode carried).symbol) :
    lexer.Lacks mode := by
  rcases lexer.next_cases id mode carried with external | internal
  · obtain ⟨_, _, _, symbol, _, _, _, _, valid, found⟩ := external?_eq_some external
    rw [found, token, valid] at invalid
    contradiction
  · rw [internal] at invalid noWord
    exact lacks_of_internal invalid noWord

end Lexer

end IncrementalGlr
