import IncrementalGlr.Proofs.Table.Consistency
import IncrementalGlr.Proofs.Text.Cursor
import IncrementalGlr.Lexer.Basic

/-!
# Tokens cover text

Whatever the lexer answers, a token of the automaton, of the scanner or of an error, it covers
characters right behind the lexer's place, and only the end of the text is the end of input.
-/

namespace IncrementalGlr

def EndsWithin (pre post : List Char) (stop : Length) : Prop :=
  ∃ piece rest, post = piece ++ rest ∧ stop = Length.ofChars (pre ++ piece)

theorem Cursor.Between.endsWithin {cursor : Cursor} {pre seen rest : List Char}
    (h : cursor.Between (pre ++ seen) rest) : EndsWithin pre (seen ++ rest) cursor.position :=
  ⟨seen, rest, rfl, h.position⟩

structure Token.Covers (token : Token) (table : Table) (post : List Char) : Prop where
  size : ∃ piece rest, post = piece ++ rest ∧ token.size = Length.ofChars piece
  last : token.isEnd = true → post = []
  lexed : table.isRule token.symbol = false

namespace Table

variable {table : Table} {pre post : List Char}

theorem isToken_of_accepts (consistent : table.Consistent) {id : UInt32} {symbol : SymbolId}
    (accepted : symbol ∈ (table.lexState id).accepts) : table.isToken symbol = true := by
  unfold lexState at accepted
  rw [Array.getD_eq_getD_getElem?] at accepted
  cases found : table.lexStates[id.toNat]? with
  | none =>
      rw [found] at accepted
      exact absurd accepted List.not_mem_nil
  | some state =>
      rw [found] at accepted
      exact consistent.lexed state (Array.mem_of_getElem? found) symbol accepted

theorem isToken_walk (consistent : table.Consistent) {wanted : SymbolId → Bool} {state : UInt32}
    {cursor : Cursor} {best : Option Match}
    (before : ∀ found ∈ best, table.isToken found.symbol = true) :
    ∀ found ∈ (table.walk wanted state cursor best).1, table.isToken found.symbol = true := by
  fun_induction walk table wanted state cursor best with
  | case1 => exact before
  | case2 => exact before
  | case3 state cursor best c looked next moved best' =>
      rename_i ih
      refine ih fun found member => ?_
      simp only [best'] at member
      split at member
      · next symbol accepted =>
          cases member
          exact isToken_of_accepts consistent (List.mem_of_find?_eq_some accepted)
      · exact before found member

theorem isToken_longestMatch (consistent : table.Consistent) {wanted : SymbolId → Bool}
    {cursor : Cursor} {found : Match} (matched : (table.longestMatch wanted cursor).1 = some found) :
    table.isToken found.symbol = true :=
  isToken_walk consistent (by simp) found matched

theorem endsWithin_walk {wanted : SymbolId → Bool} {state : UInt32}
    {cursor : Cursor} {best : Option Match} (seen : List Char) {rest : List Char}
    (between : cursor.Between (pre ++ seen) rest)
    (before : ∀ found ∈ best, EndsWithin pre (seen ++ rest) found.stop) :
    ∀ found ∈ (table.walk wanted state cursor best).1,
      EndsWithin pre (seen ++ rest) found.stop := by
  fun_induction walk table wanted state cursor best generalizing seen rest with
  | case1 => exact before
  | case2 => exact before
  | case3 state cursor best c looked next moved best' =>
      rename_i ih
      obtain ⟨behind, rfl⟩ := between.ofLookahead looked
      have further : cursor.advance.Between (pre ++ (seen ++ [c])) behind := by
        rw [← List.append_assoc]
        exact between.advance
      have whole : seen ++ [c] ++ behind = seen ++ c :: behind := by simp
      rw [← whole] at before ⊢
      refine ih (seen ++ [c]) further ?_
      intro found member
      simp only [best'] at member
      split at member
      · cases member
        exact further.endsWithin
      · exact before found member

theorem endsWithin_longestMatch {wanted : SymbolId → Bool} {cursor : Cursor}
    (between : cursor.Between pre post) {found : Match}
    (matched : (table.longestMatch wanted cursor).1 = some found) :
    EndsWithin pre post found.stop :=
  endsWithin_walk [] (by rwa [List.append_nil]) (by simp) found matched

end Table

theorem between_skipToMatch {table : Table} {wanted : SymbolId → Bool} {cursor : Cursor}
    {reach : Nat} {pre : List Char} (seen : List Char) {rest : List Char}
    (between : cursor.Between (pre ++ seen) rest) :
    EndsWithin pre (seen ++ rest) (skipToMatch table wanted cursor reach).1.position := by
  fun_induction skipToMatch table wanted cursor reach generalizing seen rest with
  | case1 => exact between.endsWithin
  | case2 cursor reach more found examined longest reach' missing =>
      rename_i ih
      cases rest with
      | nil =>
          have atEnd := between.size
          simp at atEnd
          omega
      | cons c rest =>
          have whole : seen ++ [c] ++ rest = seen ++ c :: rest := by simp
          rw [← whole]
          refine ih (seen ++ [c]) ?_
          rw [← List.append_assoc]
          exact between.advance
  | case3 => exact between.endsWithin

structure ScanContext.Within (context : ScanContext) (pre post : List Char) : Prop where
  cursor : ∃ seen rest, post = seen ++ rest ∧ context.cursor.Between (pre ++ seen) rest
  marked : ∀ stop ∈ context.markedEnd, EndsWithin pre post stop

namespace ScanContext.Within

variable {context last : ScanContext} {pre post : List Char}

theorem ofCursor {cursor : Cursor} (between : cursor.Between pre post) :
    (ScanContext.ofCursor cursor).Within pre post := by
  refine ⟨⟨[], post, rfl, by rwa [List.append_nil]⟩, ?_⟩
  intro stop marked
  cases marked

theorem leads (h : context.Within pre post) (leads : context.Leads last) :
    last.Within pre post := by
  induction leads with
  | refl => exact h
  | lookahead _ ih => exact ⟨ih.cursor, ih.marked⟩
  | advance _ ih =>
      obtain ⟨seen, rest, rfl, between⟩ := ih.cursor
      cases rest with
      | nil =>
          refine ⟨⟨seen, [], rfl, ?_⟩, ih.marked⟩
          simpa only [ScanContext.advance, between.advance_end] using between
      | cons c rest =>
          refine ⟨⟨seen ++ [c], rest, by simp, ?_⟩, ih.marked⟩
          rw [← List.append_assoc]
          exact between.advance
  | markEnd _ ih =>
      refine ⟨ih.cursor, ?_⟩
      intro stop marked
      cases marked
      obtain ⟨seen, rest, rfl, between⟩ := ih.cursor
      exact between.endsWithin
  | setResult _ _ ih => exact ⟨ih.cursor, ih.marked⟩

theorem finish (h : context.Within pre post) {accepted : Bool} {scanned : ScannedToken}
    (found : (context.finish accepted).1 = some scanned) : EndsWithin pre post scanned.stop := by
  unfold ScanContext.finish at found
  split at found
  · cases found
    cases marked : context.markedEnd with
    | some stop => exact h.marked stop marked
    | none =>
        obtain ⟨seen, rest, rfl, between⟩ := h.cursor
        exact between.endsWithin
  · contradiction

end ScanContext.Within

namespace Lexer

variable {lexer : Lexer} {pre post : List Char} {id : LexModeId} {mode : LexMode}

theorem covers_token (between : lexer.cursor.Between pre post) {symbol : SymbolId}
    {stop : Length} {reach : Nat} {state : Option ScannerState}
    (ends : EndsWithin pre post stop) (last : symbol = SymbolId.endOfInput → post = [])
    (lexed : lexer.language.table.isRule symbol = false) :
    (lexer.token symbol stop reach id state).Covers lexer.language.table post := by
  obtain ⟨piece, rest, whole, rfl⟩ := ends
  refine ⟨⟨piece, rest, whole, ?_⟩, ?_, lexed⟩
  · rw [token, between.position, Length.ofChars_append_sub]
  · intro isEnd
    exact last (by simpa [token, Token.isEnd] using isEnd)

theorem external?_eq_some {carried : Option ScannerState} {token : Token}
    (found : lexer.external? id mode carried = some token) :
    ∃ scanner outcome scanned symbol, lexer.language.scanner = some scanner ∧
      scanner.scan (carried.getD []) mode.externalValid (ScanContext.ofCursor lexer.cursor)
        = outcome ∧
      (outcome.context.finish outcome.accepted).1 = some scanned ∧
      lexer.language.externalTokens[scanned.index]? = some symbol ∧
      mode.isValid symbol = true ∧
      token = lexer.token symbol scanned.stop scanned.reach id (some outcome.state) := by
  unfold external? at found
  simp only [Option.bind_eq_bind, Option.bind_eq_some_iff] at found
  obtain ⟨scanner, known, scanned, finished, symbol, numbered, found⟩ := found
  split at found
  · next valid => exact ⟨scanner, _, scanned, symbol, known, rfl, finished, numbered, valid,
      (Option.some.inj found).symm⟩
  · contradiction

theorem covers_external? (consistent : lexer.language.table.Consistent)
    (between : lexer.cursor.Between pre post) {carried : Option ScannerState} {token : Token}
    (found : lexer.external? id mode carried = some token) :
    token.Covers lexer.language.table post := by
  obtain ⟨scanner, _, scanned, symbol, _, rfl, finished, numbered, _, rfl⟩ :=
    external?_eq_some found
  have within := (ScanContext.Within.ofCursor between).leads
    (scanner.scan_leads (carried.getD []) mode.externalValid _)
  have isToken := consistent.externals symbol (Array.mem_of_getElem? numbered)
  exact covers_token between (within.finish finished)
    (fun isEnd => absurd isEnd (Table.ne_end_of_isToken isToken))
    (Table.isRule_of_isToken isToken)

end Lexer

theorem mem_of_findRev? {α : Type} {p : α → Bool} {xs : List α} {x : α}
    (found : xs.findRev? p = some x) : x ∈ xs := by
  rw [List.findRev?_eq_find?_reverse] at found
  exact List.mem_reverse.1 (List.mem_of_find?_eq_some found)

theorem Language.isToken_resolveKeyword {language : Language} {matched : SymbolId}
    (consistent : language.table.Consistent) (isToken : language.table.isToken matched = true)
    (mode : LexMode) (text : String) :
    language.table.isToken (language.resolveKeyword mode matched text) = true := by
  unfold resolveKeyword
  split
  · split
    · next keyword found =>
        split
        · exact consistent.keywords keyword (mem_of_findRev? found)
        · exact isToken
    · exact isToken
  · exact isToken

namespace Lexer

variable {lexer : Lexer} {pre post : List Char} {id : LexModeId} {mode : LexMode}

theorem covers_internal (consistent : lexer.language.table.Consistent)
    (between : lexer.cursor.Between pre post) : (lexer.internal id mode).Covers
      lexer.language.table post := by
  unfold internal
  dsimp only
  split
  · next atEnd =>
      have none := between.isAtEnd.1 atEnd
      refine covers_token between ⟨[], post, rfl, ?_⟩ (fun _ => none)
        (Table.isRule_of_isTerminal consistent.isTerminal_end)
      rw [List.append_nil, between.position]
  · next notEnd =>
      have named (wanted : SymbolId → Bool) (found : Match)
          (matched : (lexer.language.table.longestMatch wanted lexer.cursor).1 = some found)
          (text : String) (reach : Nat) :
          (lexer.token (lexer.language.resolveKeyword mode found.symbol text) found.stop reach id
            none).Covers lexer.language.table post := by
        have isToken := Language.isToken_resolveKeyword consistent
          (Table.isToken_longestMatch consistent matched) mode text
        exact covers_token between (Table.endsWithin_longestMatch between matched)
          (fun isEnd => absurd isEnd (Table.ne_end_of_isToken isToken))
          (Table.isRule_of_isToken isToken)
      cases valid : (lexer.language.table.longestMatch (lexer.language.isWanted mode)
          lexer.cursor).1 with
      | some found =>
          exact named _ found valid _ _
      | none =>
          cases other : (lexer.language.table.longestMatch lexer.language.isErrorLexable
              lexer.cursor).1 with
          | some found =>
              dsimp only
              exact named _ found other _ _
          | none =>
              dsimp only
              obtain ⟨c, rest, rfl⟩ : ∃ c rest, post = c :: rest := by
                cases post with
                | nil => exact absurd (between.isAtEnd.2 rfl) notEnd
                | cons c rest => exact ⟨c, rest, rfl⟩
              exact covers_token between (between_skipToMatch [c] between.advance)
                (fun isEnd => absurd isEnd (by decide)) consistent.isRule_error

theorem next_cases (lexer : Lexer) (id : LexModeId) (mode : LexMode)
    (carried : Option ScannerState) :
    lexer.external? id mode carried = some (lexer.next id mode carried) ∨
      lexer.next id mode carried = lexer.internal id mode := by
  unfold next
  split
  · next token found =>
      split at found
      · exact .inl found
      · contradiction
  · exact .inr rfl

theorem covers_next (consistent : lexer.language.table.Consistent)
    (between : lexer.cursor.Between pre post) (carried : Option ScannerState) :
    (lexer.next id mode carried).Covers lexer.language.table post := by
  rcases lexer.next_cases id mode carried with external | internal
  · exact covers_external? consistent between external
  · rw [internal]
    exact covers_internal consistent between

theorem exists_eq_token (lexer : Lexer) (id : LexModeId) (mode : LexMode)
    (carried : Option ScannerState) : ∃ symbol stop reach state,
      lexer.next id mode carried = lexer.token symbol stop reach id state := by
  rcases lexer.next_cases id mode carried with external | internal
  · obtain ⟨_, _, _, _, _, _, _, _, _, found⟩ := external?_eq_some external
    exact ⟨_, _, _, _, found⟩
  · rw [internal, Lexer.internal]
    dsimp only
    split
    · exact ⟨_, _, _, _, rfl⟩
    · split <;> exact ⟨_, _, _, _, rfl⟩

theorem isRule_next (consistent : lexer.language.table.Consistent) (id : LexModeId)
    (mode : LexMode) (carried : Option ScannerState) :
    lexer.language.table.isRule (lexer.next id mode carried).symbol = false := by
  rcases lexer.next_cases id mode carried with external | internal
  · obtain ⟨_, _, _, symbol, _, _, _, numbered, _, same⟩ := external?_eq_some external
    rw [same]
    exact Table.isRule_of_isToken (consistent.externals symbol (Array.mem_of_getElem? numbered))
  · have named (wanted : SymbolId → Bool) (found : Match)
        (matched : (lexer.language.table.longestMatch wanted lexer.cursor).1 = some found)
        (text : String) :
        lexer.language.table.isRule (lexer.language.resolveKeyword mode found.symbol text) = false :=
      Table.isRule_of_isToken (Language.isToken_resolveKeyword consistent
        (Table.isToken_longestMatch consistent matched) mode text)
    rw [internal, Lexer.internal]
    dsimp only
    split
    · exact Table.isRule_of_isTerminal consistent.isTerminal_end
    · cases valid : (lexer.language.table.longestMatch (lexer.language.isWanted mode)
          lexer.cursor).1 with
      | some found => exact named _ found valid _
      | none =>
        cases other : (lexer.language.table.longestMatch lexer.language.isErrorLexable
            lexer.cursor).1 with
        | some found => exact named _ found other _
        | none => exact consistent.isRule_error

theorem start_next (lexer : Lexer) (id : LexModeId) (mode : LexMode)
    (carried : Option ScannerState) :
    (lexer.next id mode carried).start = lexer.cursor.position := by
  obtain ⟨_, _, _, _, found⟩ := lexer.exists_eq_token id mode carried
  rw [found, token]

theorem lexMode_next (lexer : Lexer) (id : LexModeId) (mode : LexMode)
    (carried : Option ScannerState) : (lexer.next id mode carried).lexMode = id := by
  obtain ⟨_, _, _, _, found⟩ := lexer.exists_eq_token id mode carried
  rw [found, token]

theorem scannerState_internal (lexer : Lexer) (id : LexModeId) (mode : LexMode) :
    (lexer.internal id mode).scannerState = none := by
  unfold internal
  dsimp only
  split
  · rfl
  · split <;> rfl

theorem external?_of_scannerState {carried : Option ScannerState} {state : ScannerState}
    (found : (lexer.next id mode carried).scannerState = some state) :
    lexer.external? id mode carried = some (lexer.next id mode carried) := by
  rcases lexer.next_cases id mode carried with external | internal
  · exact external
  · rw [internal, scannerState_internal] at found
    contradiction

theorem isToken_of_scannerState (consistent : lexer.language.table.Consistent)
    {carried : Option ScannerState} {state : ScannerState}
    (found : (lexer.next id mode carried).scannerState = some state) :
    lexer.language.table.isToken (lexer.next id mode carried).symbol = true := by
  obtain ⟨_, _, scanned, symbol, _, _, _, numbered, _, same⟩ :=
    external?_eq_some (external?_of_scannerState found)
  rw [same]
  exact consistent.externals symbol (Array.mem_of_getElem? numbered)

end Lexer

end IncrementalGlr
