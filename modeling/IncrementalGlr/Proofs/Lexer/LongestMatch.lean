import IncrementalGlr.Proofs.Lexer.Selection
import IncrementalGlr.Proofs.Table.Tokens

/-!
# The token at a place

What the lexer finds, said of the text alone. Of the beginnings of the text after which the lexical
automaton accepts a terminal that is wanted, the longest one is the token: first among the terminals
that are usable in the mode, then among those that may be lexed after an error. Where neither has a
match, the text is skipped up to the next place with a match of the second kind.
-/

namespace IncrementalGlr

namespace Table

def LexesAs (table : Table) (wanted : SymbolId → Prop) (text : List Char) (symbol : SymbolId) :
    Prop :=
  ∃ state front back, table.lexStateAfter? text = some state ∧
    (table.lexState state).accepts = front ++ symbol :: back ∧ wanted symbol ∧
    ∀ other ∈ front, ¬ wanted other

def Matches (table : Table) (wanted : SymbolId → Prop) (text : List Char) : Prop :=
  ∃ piece symbol, piece <+: text ∧ piece ≠ [] ∧ table.LexesAs wanted piece symbol

structure Munches (table : Table) (wanted : SymbolId → Prop) (text piece : List Char)
    (symbol : SymbolId) : Prop where
  front : piece <+: text
  nonempty : piece ≠ []
  accepts : table.LexesAs wanted piece symbol
  longest : ∀ other matched, other <+: text → table.LexesAs wanted other matched →
    other.length ≤ piece.length

variable {table : Table} {wanted : SymbolId → Bool} {text passed : List Char} {c : Char}
  {state next : UInt32} {symbol : SymbolId}

theorem lexesAs_iff (after : table.lexStateAfter? text = some state) :
    table.LexesAs (wanted · = true) text symbol ↔
      (table.lexState state).accepts.find? wanted = some symbol := by
  rw [List.find?_eq_some_iff_append]
  constructor
  · rintro ⟨other, front, back, known, accepts, here, before⟩
    cases after.symm.trans known
    exact ⟨here, front, back, accepts, by simpa using before⟩
  · rintro ⟨here, front, back, accepts, before⟩
    exact ⟨state, front, back, after, accepts, here, by simpa using before⟩

theorem lexStateAfter?_concat (after : table.lexStateAfter? passed = some state) :
    table.lexStateAfter? (passed ++ [c]) = (table.lexState state).next? c := by
  rw [lexStateAfter?] at after ⊢
  rw [List.foldlM_append, after]
  simp

theorem not_lexesAs_of_stuck (stuck : table.lexStateAfter? passed = none) (rest : List Char) :
    ¬ table.LexesAs (wanted · = true) (passed ++ rest) symbol := by
  rintro ⟨state, _, _, after, _⟩
  rw [lexStateAfter?] at stuck after
  rw [List.foldlM_append, stuck] at after
  contradiction

def Finds (table : Table) (wanted : SymbolId → Bool) (pre text : List Char) :
    Option Match → Prop
  | none => ¬ table.Matches (wanted · = true) text
  | some found => ∃ piece, table.Munches (wanted · = true) text piece found.symbol ∧
      found.stop = Length.ofChars (pre ++ piece)

variable {pre : List Char} {best : Option Match}

theorem Finds.extend {more : List Char} (found : table.Finds wanted pre passed best)
    (none : ∀ other matched, other <+: passed ++ more →
      table.LexesAs (wanted · = true) other matched → other <+: passed) :
    table.Finds wanted pre (passed ++ more) best := by
  cases best with
  | none =>
      rintro ⟨piece, symbol, front, nonempty, accepts⟩
      exact found ⟨piece, symbol, none piece symbol front accepts, nonempty, accepts⟩
  | some best =>
      obtain ⟨piece, munches, stop⟩ := found
      refine ⟨piece, ⟨munches.front.trans (List.prefix_append ..), munches.nonempty,
        munches.accepts, fun other matched front accepts => ?_⟩, stop⟩
      exact munches.longest other matched (none other matched front accepts) accepts

theorem Finds.stuck (found : table.Finds wanted pre passed best)
    (after : table.lexStateAfter? passed = some state)
    (stop : (table.lexState state).next? c = none) (rest : List Char) :
    table.Finds wanted pre (passed ++ c :: rest) best := by
  refine found.extend fun other matched front accepts => ?_
  rcases List.prefix_or_prefix_of_prefix front (List.prefix_append passed _) with short | long
  · exact short
  obtain ⟨more, rfl⟩ := long
  cases more with
  | nil => simp
  | cons d more =>
      -- any longer beginning starts with the character at which the automaton is stuck
      obtain ⟨rfl, -⟩ := List.cons_prefix_cons.1 ((List.prefix_append_right_inj passed).1 front)
      rw [List.append_cons] at accepts
      exact absurd accepts (not_lexesAs_of_stuck ((lexStateAfter?_concat after).trans stop) more)

theorem Finds.step (found : table.Finds wanted pre passed best)
    (after : table.lexStateAfter? (passed ++ [c]) = some next) :
    table.Finds wanted pre (passed ++ [c])
      (match (table.lexState next).accepts.find? wanted with
        | some symbol => some ⟨symbol, Length.ofChars (pre ++ (passed ++ [c]))⟩
        | none => best) := by
  split
  · next symbol here =>
      exact ⟨passed ++ [c], ⟨List.prefix_rfl, by simp, (lexesAs_iff after).2 here,
        fun other _ front _ => front.length_le⟩, rfl⟩
  · next missing =>
      refine found.extend fun other matched front accepts => ?_
      rcases List.prefix_concat_iff.1 front with rfl | short
      · rw [lexesAs_iff after, missing] at accepts
        contradiction
      · exact short

theorem finds_walk {cursor : Cursor} {rest : List Char}
    (between : cursor.Between (pre ++ passed) rest)
    (after : table.lexStateAfter? passed = some state)
    (found : table.Finds wanted pre passed best) :
    table.Finds wanted pre (passed ++ rest) (table.walk wanted state cursor best).1 := by
  fun_induction walk table wanted state cursor best generalizing passed rest with
  | case1 state cursor best looked =>
      rw [between.lookahead, List.head?_eq_none_iff] at looked
      rwa [looked, List.append_nil]
  | case2 state cursor best c looked stop =>
      obtain ⟨behind, rfl⟩ := between.ofLookahead looked
      exact found.stuck after stop behind
  | case3 state cursor best c looked next moved best' =>
      rename_i ih
      obtain ⟨behind, rfl⟩ := between.ofLookahead looked
      have further := between.advance
      rw [List.append_assoc] at further
      have after := (lexStateAfter?_concat after).trans moved
      rw [List.append_cons]
      refine ih further after ?_
      have step := found.step after
      rwa [← further.position] at step

theorem finds_longestMatch {cursor : Cursor} (between : cursor.Between pre text) :
    table.Finds wanted pre text (table.longestMatch wanted cursor).1 := by
  have none : table.Finds wanted pre [] none := by
    rintro ⟨piece, symbol, front, nonempty, _⟩
    exact nonempty (List.prefix_nil.1 front)
  exact finds_walk (by rwa [List.append_nil]) rfl none

theorem matches_iff {cursor : Cursor} (between : cursor.Between pre text) :
    table.Matches (wanted · = true) text ↔ (table.longestMatch wanted cursor).1.isSome = true := by
  have found : table.Finds wanted pre text (table.longestMatch wanted cursor).1 :=
    finds_longestMatch between
  cases best : (table.longestMatch wanted cursor).1 with
  | none =>
      rw [best] at found
      simpa [Finds] using found
  | some best' =>
      rw [best] at found
      obtain ⟨piece, munches, _⟩ := found
      simpa using ⟨piece, _, munches.front, munches.nonempty, munches.accepts⟩

end Table

structure Table.Skips (table : Table) (wanted : SymbolId → Prop) (text piece : List Char) :
    Prop where
  stops : ∃ rest, text = piece ++ rest ∧ (rest = [] ∨ table.Matches wanted rest)
  first : ∀ front rest, text = front ++ rest → front.length < piece.length →
    rest ≠ [] ∧ ¬ table.Matches wanted rest

theorem skips_skipToMatch {table : Table} {wanted : SymbolId → Bool} {cursor : Cursor}
    {reach : Nat} {pre text : List Char} (between : cursor.Between pre text) :
    ∃ piece, table.Skips (wanted · = true) text piece ∧
      (skipToMatch table wanted cursor reach).1.position = Length.ofChars (pre ++ piece) := by
  have none : ∀ front : List Char, ¬ front.length < ([] : List Char).length := by simp
  have here : cursor.position = Length.ofChars (pre ++ []) := by
    rw [List.append_nil, between.position]
  fun_induction skipToMatch table wanted cursor reach generalizing pre text with
  | case1 cursor reach more found examined longest isSome =>
      have matched : table.Matches (wanted · = true) text :=
        (Table.matches_iff between).2 (by rwa [longest])
      exact ⟨[], ⟨⟨text, rfl, .inr matched⟩, fun front _ _ less => absurd less (none front)⟩, here⟩
  | case2 cursor reach more found examined longest reach' missing =>
      rename_i ih
      have unmatched : ¬ table.Matches (wanted · = true) text := by
        rwa [Table.matches_iff between, longest]
      obtain ⟨c, text, rfl⟩ : ∃ c rest, text = c :: rest := by
        refine List.exists_cons_of_ne_nil fun ends => ?_
        have atEnd := between.size
        simp only [ends, Length.ofChars_nil, Length.bytes_zero] at atEnd
        omega
      obtain ⟨piece, skips, stop⟩ := ih between.advance (by
        rw [List.append_nil, between.advance.position])
      obtain ⟨rest, rfl, stops⟩ := skips.stops
      refine ⟨c :: piece, ⟨⟨rest, rfl, stops⟩, fun front back whole less => ?_⟩,
        by simpa using stop⟩
      cases front with
      | nil =>
          rw [List.nil_append] at whole
          subst whole
          exact ⟨List.cons_ne_nil _ _, unmatched⟩
      | cons d front =>
          obtain ⟨rfl, inner⟩ := List.cons_eq_cons.1 (whole.trans List.cons_append)
          exact skips.first front back inner (Nat.lt_of_succ_lt_succ less)
  | case3 cursor reach atEnd =>
      have ends : text = [] := between.isAtEnd.1 (by simpa [Cursor.isAtEnd] using atEnd)
      exact ⟨[], ⟨⟨[], ends, .inl rfl⟩, fun front _ _ less => absurd less (none front)⟩, here⟩

namespace Language

variable {language : Language} {mode : LexMode} {matched : SymbolId} {text : String}

def Usable (language : Language) (mode : LexMode) (symbol : SymbolId) : Prop :=
  mode.isValid symbol = true ∨ language.wordToken? = some symbol ∧
    ∃ keyword ∈ language.table.keywords, mode.isValid keyword.symbol = true

theorem isWanted_eq (language : Language) (mode : LexMode) :
    (language.isWanted mode · = true) = language.Usable mode := by
  funext symbol
  simp only [isWanted, isWordUsable, Usable, eq_iff_iff, Bool.or_eq_true, Bool.and_eq_true,
    beq_iff_eq]
  refine or_congr_right' fun invalid => ?_
  rw [and_comm]
  refine and_congr_right fun word => ?_
  simp [word, invalid]

def IsKeyword (language : Language) (text : String) (keyword : Keyword) : Prop :=
  ∃ front back, language.table.keywords = front ++ keyword :: back ∧ keyword.text = text ∧
    ∀ other ∈ back, other.text ≠ text

theorem keyword?_eq_some_iff {keyword : Keyword} :
    language.keyword? text = some keyword ↔ language.IsKeyword text keyword := by
  rw [keyword?, List.findRev?_eq_find?_reverse, List.find?_eq_some_iff_append]
  constructor
  · rintro ⟨same, back, front, whole, others⟩
    refine ⟨front.reverse, back.reverse, ?_, beq_iff_eq.1 same, by simpa using others⟩
    simpa using congrArg List.reverse whole
  · rintro ⟨front, back, whole, same, others⟩
    exact ⟨beq_iff_eq.2 same, back.reverse, front.reverse, by simp [whole], by simpa using others⟩

inductive Becomes (language : Language) (mode : LexMode) (matched : SymbolId) (text : String) :
    SymbolId → Prop
  | keyword {keyword : Keyword} (word : language.wordToken? = some matched)
      (known : language.IsKeyword text keyword)
      (usable : keyword.reserved = true ∨ mode.isValid keyword.symbol = true) :
      Becomes language mode matched text keyword.symbol
  | same (others : language.wordToken? = some matched → ∀ keyword, language.IsKeyword text keyword →
      ¬ (keyword.reserved = true ∨ mode.isValid keyword.symbol = true)) :
      Becomes language mode matched text matched

theorem becomes_resolveKeyword (language : Language) (mode : LexMode) (matched : SymbolId)
    (text : String) :
    language.Becomes mode matched text (language.resolveKeyword mode matched text) := by
  unfold resolveKeyword
  split
  · next word =>
      split
      · next keyword found =>
          have known := keyword?_eq_some_iff.1 found
          split
          · next usable =>
              exact .keyword (beq_iff_eq.1 word) known (Bool.or_eq_true_iff.1 usable)
          · next unusable =>
              refine .same fun _ other known' => ?_
              cases found.symm.trans (keyword?_eq_some_iff.2 known')
              rwa [← Bool.or_eq_true]
      · next missing =>
          refine .same fun _ other known => ?_
          rw [keyword?_eq_some_iff.2 known] at missing
          contradiction
  · next other =>
      exact .same fun word => absurd (beq_iff_eq.2 word) other

end Language

namespace Lexer

/-- The token that a text begins with, in a mode without external tokens. -/
inductive Selects (language : Language) (mode : LexMode) (text : List Char) (token : Token) : Prop
  | atEnd (ends : text = []) (symbol : token.symbol = SymbolId.endOfInput)
      (size : token.size = Length.zero)
  | usable {piece : List Char} {matched : SymbolId}
      (munches : language.table.Munches (language.Usable mode) text piece matched)
      (symbol : language.Becomes mode matched (String.ofList piece) token.symbol)
      (size : token.size = Length.ofChars piece)
  | recovered {piece : List Char} {matched : SymbolId}
      (missing : ¬ language.table.Matches (language.Usable mode) text)
      (munches : language.table.Munches (language.isErrorLexable · = true) text piece matched)
      (symbol : language.Becomes mode matched (String.ofList piece) token.symbol)
      (size : token.size = Length.ofChars piece)
  | skipped {c : Char} {rest piece : List Char} (more : text = c :: rest)
      (missing : ¬ language.table.Matches (language.Usable mode) text)
      (unmatched : ¬ language.table.Matches (language.isErrorLexable · = true) text)
      (symbol : token.symbol = SymbolId.error)
      (skips : language.table.Skips (language.isErrorLexable · = true) rest piece)
      (size : token.size = Length.ofChars (c :: piece))

variable {lexer : Lexer} {id : LexModeId} {mode : LexMode} {pre text piece : List Char}

theorem size_token (between : lexer.cursor.Between pre text) (symbol : SymbolId)
    (piece : List Char) (reach : Nat) :
    (lexer.token symbol (Length.ofChars (pre ++ piece)) reach id none).size
      = Length.ofChars piece := by
  rw [token, between.position, Length.ofChars_append_sub]

theorem slice_piece (between : lexer.cursor.Between pre text) (front : piece <+: text) :
    lexer.cursor.slice lexer.cursor.offset (Length.ofChars (pre ++ piece)).bytes
      = String.ofList piece := by
  obtain ⟨rest, rfl⟩ := front
  rw [Cursor.slice, between.offset, Source.slice_cut between.text]

theorem selects_internal (between : lexer.cursor.Between pre text) :
    Selects lexer.language mode text (lexer.internal id mode) := by
  cases atEnd : lexer.cursor.isAtEnd with
  | true =>
      rw [internal_of_end atEnd]
      refine .atEnd (between.isAtEnd.1 atEnd) rfl ?_
      rw [between.position]
      simpa using size_token between SymbolId.endOfInput [] (lexer.cursor.offset + 1)
  | false =>
      have usable : lexer.language.table.Finds (lexer.language.isWanted mode) pre text _ :=
        Table.finds_longestMatch between
      have fallback : lexer.language.table.Finds lexer.language.isErrorLexable pre text _ :=
        Table.finds_longestMatch between
      -- how a match, by one of the two walks, becomes the token
      have named : ∀ {wanted : SymbolId → Prop} {found : Match} {piece : List Char} {reach : Nat},
          lexer.language.table.Munches wanted text piece found.symbol →
          found.stop = Length.ofChars (pre ++ piece) →
          let token := lexer.token (lexer.language.resolveKeyword mode found.symbol
            (lexer.cursor.slice lexer.cursor.offset found.stop.bytes)) found.stop reach id none
          lexer.language.Becomes mode found.symbol (String.ofList piece) token.symbol ∧
            token.size = Length.ofChars piece := by
        intro wanted found piece reach munches stop
        rw [stop, slice_piece between munches.front]
        exact ⟨lexer.language.becomes_resolveKeyword mode _ _, size_token between _ _ _⟩
      obtain ⟨found, reach, matched⟩ : ∃ found reach, lexer.language.table.longestMatch
          (lexer.language.isWanted mode) lexer.cursor = (found, reach) := ⟨_, _, rfl⟩
      rw [matched, Table.Finds.eq_def, Language.isWanted_eq] at usable
      cases found with
      | some found =>
          obtain ⟨piece, munches, stop⟩ := usable
          rw [internal_of_valid atEnd matched]
          exact .usable munches (named munches stop).1 (named munches stop).2
      | none =>
          obtain ⟨found, other, tried⟩ : ∃ found other, lexer.language.table.longestMatch
              lexer.language.isErrorLexable lexer.cursor = (found, other) := ⟨_, _, rfl⟩
          rw [tried] at fallback
          cases found with
          | some found =>
              obtain ⟨piece, munches, stop⟩ := fallback
              rw [internal_of_other atEnd matched tried]
              exact .recovered usable munches (named munches stop).1 (named munches stop).2
          | none =>
              obtain ⟨c, rest, rfl⟩ : ∃ c rest, text = c :: rest := by
                refine List.exists_cons_of_ne_nil fun ends => ?_
                rw [between.isAtEnd.2 ends] at atEnd
                contradiction
              obtain ⟨next, last, skipped⟩ : ∃ next last, skipToMatch lexer.language.table
                lexer.language.isErrorLexable lexer.cursor.advance (max reach other)
                  = (next, last) := ⟨_, _, rfl⟩
              obtain ⟨piece, skips, stop⟩ : ∃ piece, lexer.language.table.Skips
                  (lexer.language.isErrorLexable · = true) rest piece ∧
                  (skipToMatch lexer.language.table lexer.language.isErrorLexable
                    lexer.cursor.advance (max reach other)).1.position
                      = Length.ofChars ((pre ++ [c]) ++ piece) :=
                skips_skipToMatch between.advance
              rw [skipped, List.append_assoc] at stop
              rw [internal_of_error atEnd matched tried skipped]
              refine .skipped rfl usable fallback rfl skips ?_
              rw [stop]
              exact size_token between _ _ _

/-- The lexer finds the token that the text in front of it begins with. -/
theorem selects_next (plain : mode.hasExternals = false) (between : lexer.cursor.Between pre text)
    (carried : Option ScannerState) :
    (lexer.next id mode carried).start = lexer.cursor.position ∧
      Selects lexer.language mode text (lexer.next id mode carried) := by
  refine ⟨start_next lexer id mode carried, ?_⟩
  rw [next, plain]
  exact selects_internal between

end Lexer

def wordTable : Table where
  name := "words"
  symbols := #[⟨"end", false, true, false⟩, ⟨"word", true, true, false⟩, ⟨"in", true, false, false⟩,
    ⟨"s", true, true, false⟩]
  terminalCount := 3
  ruleCount := 1
  startSymbol := ⟨3⟩
  fieldNames := #[]
  productions := #[⟨⟨3⟩, 0, [⟨none, none⟩, ⟨none, none⟩]⟩]
  stateCount := 4
  actionIndex := #[0, 0, 1, 0, 2, 0, 3, 0, 0, 4, 0, 0]
  actionLists := #[[], [.shift ⟨1⟩], [.shift ⟨2⟩], [.reduce ⟨3⟩ 2 0 ⟨0⟩], [.accept]]
  gotos := #[⟨3⟩, StateId.none, StateId.none, StateId.none]
  allowsExtras := Array.replicate 4 true
  extras := []
  externalTokens := #[]
  wordToken := some ⟨1⟩
  keywords := [⟨"in", ⟨2⟩, false⟩]
  lexStates := #[⟨#[⟨97, 122, 1⟩], []⟩, ⟨#[⟨97, 122, 1⟩], [⟨1⟩]⟩]
  lexStart := 0

def wordLanguage : Language :=
  (Language.ofTable wordTable none 1).toOption.get (by decide +kernel)

/-- Where the keyword is valid, the word `in` is the keyword; behind it, it is a word. -/
theorem Lexer.selects_next_words :
    (wordLanguage.lexMode 0).hasExternals = false ∧
    ((ofText wordLanguage "é?in in" (Length.ofChars ['é', '?'])).next 0
      (wordLanguage.lexMode 0) none).symbol = ⟨2⟩ ∧
    ((ofText wordLanguage "é?in in" (Length.ofChars ['é', '?'])).next 1
      (wordLanguage.lexMode 1) none).symbol = ⟨1⟩ ∧
    Selects wordLanguage (wordLanguage.lexMode 0) ['i', 'n', ' ', 'i', 'n']
      ((ofText wordLanguage "é?in in" (Length.ofChars ['é', '?'])).next 0
        (wordLanguage.lexMode 0) none) := by
  have plain : (wordLanguage.lexMode 0).hasExternals = false := by decide +kernel
  have cut : "é?in in".toList = ['é', '?'] ++ ['i', 'n', ' ', 'i', 'n'] := rfl
  refine ⟨plain, by decide +kernel, by decide +kernel, ?_⟩
  exact (selects_next plain (between_ofText wordLanguage cut) none).2

end IncrementalGlr
