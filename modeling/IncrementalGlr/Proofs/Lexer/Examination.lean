import IncrementalGlr.Proofs.Lexer.Locality
import IncrementalGlr.Proofs.Scan.Observation

/-!
# What is examined where a scanner is asked

A token is known by what was examined of the text, also in lex modes with external tokens: by the
scanner first, and by the automaton if the scanner finds nothing that is valid. The reach of a token
of the scanner counts all of that. The reach of a token of the automaton does not count what a
scanner examined that then declined.
-/

namespace IncrementalGlr

def Language.scannerIn (language : Language) (mode : LexMode) : Option Scanner :=
  if mode.hasExternals then language.scanner else none

namespace Lexer

variable {lexer lexer' : Lexer} {pre pre' post post' : List Char} {id : LexModeId}
  {mode : LexMode} {carried : Option ScannerState}

def scanned? (lexer : Lexer) (mode : LexMode) (carried : Option ScannerState) :
    Option ScanOutcome :=
  (lexer.language.scannerIn mode).map fun scanner =>
    scanner.scan (carried.getD []) mode.externalValid (ScanContext.ofCursor lexer.cursor)

def examined (lexer : Lexer) (id : LexModeId) (mode : LexMode) (carried : Option ScannerState) :
    Nat :=
  max (lexer.next id mode carried).reach
    ((lexer.scanned? mode carried).elim 0 (·.context.reach))

def accepted? (lexer : Lexer) (id : LexModeId) (mode : LexMode) (outcome : ScanOutcome) :
    Option Token := do
  let scanned ← (outcome.context.finish outcome.accepted).1
  let symbol ← lexer.language.externalTokens[scanned.index]?
  if mode.isValid symbol then
    some (lexer.token symbol scanned.stop scanned.reach id (some outcome.state))
  else none

theorem next_eq (lexer : Lexer) (id : LexModeId) (mode : LexMode)
    (carried : Option ScannerState) :
    lexer.next id mode carried = ((lexer.scanned? mode carried).bind
      (lexer.accepted? id mode)).getD (lexer.internal id mode) := by
  unfold next scanned? Language.scannerIn
  cases mode.hasExternals with
  | false => rfl
  | true =>
      unfold external?
      cases lexer.language.scanner with
      | none => rfl
      | some scanner =>
          simp only [if_true, Option.map_some, Option.bind_some]
          split
          · next token found =>
              rw [show lexer.accepted? id mode _ = some token from found]
              rfl
          · next found =>
              rw [show lexer.accepted? id mode _ = none from found]
              rfl

theorem accepted?_agree {outcome outcome' : ScanOutcome}
    (language : lexer'.language = lexer.language) (here : lexer.cursor.Between pre post)
    (there : lexer'.cursor.Between pre' post')
    (alike : ScanOutcome.Alike pre pre' post post' outcome outcome') :
    lexer'.accepted? id mode outcome' = (lexer.accepted? id mode outcome).map fun token =>
      { token with start := lexer'.cursor.position } := by
  simp only [accepted?, language, alike.accepted, alike.state]
  rcases alike.context.finish outcome.accepted with ⟨index, piece, found, found'⟩ | ⟨none, none'⟩
  · have shifted := alike.context.reach
    rw [← here.offset, ← there.offset] at shifted
    simp only [found, found', Option.bind_eq_bind, Option.bind_some]
    cases lexer.language.externalTokens[index]? with
    | none => rfl
    | some symbol =>
        simp only [Option.bind_some]
        split
        · rw [token_shifted here there shifted]
          rfl
        · rfl
  · rw [none, none']
    rfl

theorem scanned?_agree (language : lexer'.language = lexer.language)
    (scanners : ∀ scanner ∈ lexer.language.scannerIn mode, scanner.IsLocal)
    (here : lexer.cursor.Between pre post) (there : lexer'.cursor.Between pre' post')
    {outcome : ScanOutcome} (scanned : lexer.scanned? mode carried = some outcome)
    (agree : Agree (outcome.context.reach - lexer.cursor.offset) post post') :
    ∃ outcome', lexer'.scanned? mode carried = some outcome' ∧
      ScanOutcome.Alike pre pre' post post' outcome outcome' := by
  obtain ⟨scanner, known, rfl⟩ := Option.map_eq_some_iff.1 scanned
  refine ⟨_, ?_, scanners scanner known _ _ here there agree⟩
  rw [scanned?, language, known]
  rfl

theorem size_le_examined (lexer : Lexer) (id : LexModeId) (mode : LexMode)
    (carried : Option ScannerState) :
    (lexer.next id mode carried).size.bytes + (lexer.next id mode carried).lookahead
      ≤ lexer.examined id mode carried - lexer.cursor.offset := by
  have reach : (lexer.next id mode carried).reach ≤ lexer.examined id mode carried :=
    Nat.le_max_left _ _
  rw [Token.reach, start_next] at reach
  simp only [Cursor.offset]
  omega

theorem next_agree_of_examined (language : lexer'.language = lexer.language)
    (scanners : ∀ scanner ∈ lexer.language.scannerIn mode, scanner.IsLocal)
    (here : lexer.cursor.Between pre post) (there : lexer'.cursor.Between pre' post')
    (agree : Agree (lexer.examined id mode carried - lexer.cursor.offset) post post') :
    lexer'.next id mode carried
      = { lexer.next id mode carried with start := lexer'.cursor.position } := by
  have read := agree.mono (size_le_examined lexer id mode carried)
  have first := next_eq lexer id mode carried
  have second := next_eq lexer' id mode carried
  cases scanned : lexer.scanned? mode carried with
  | none =>
      have scanned' : lexer'.scanned? mode carried = none := by
        rw [scanned?, Option.map_eq_none_iff] at scanned ⊢
        rwa [language]
      rw [scanned] at first
      rw [scanned'] at second
      rw [first] at read ⊢
      rw [second]
      exact internal_agree language here there read
  | some outcome =>
      -- Both scans end alike, so the two lexers accept the same token or both turn to the
      -- automaton, for which the bytes that it reads itself are enough.
      have less : outcome.context.reach ≤ lexer.examined id mode carried := by
        rw [examined, scanned]
        exact Nat.le_max_right _ _
      obtain ⟨outcome', scanned', alike⟩ := scanned?_agree language scanners here there scanned
        (agree.mono (Nat.sub_le_sub_right less _))
      have accepted : lexer'.accepted? id mode outcome' = (lexer.accepted? id mode outcome).map _ :=
        accepted?_agree language here there alike
      rw [scanned, Option.bind_some] at first
      rw [scanned', Option.bind_some, accepted] at second
      rw [first] at read ⊢
      rw [second]
      cases found : lexer.accepted? id mode outcome with
      | none =>
          rw [found] at read
          exact internal_agree language here there read
      | some token => rfl

theorem reach_le_of_accepted? {outcome : ScanOutcome} {token : Token}
    (found : lexer.accepted? id mode outcome = some token) :
    outcome.context.reach ≤ token.reach := by
  simp only [accepted?, Option.bind_eq_bind, Option.bind_eq_some_iff] at found
  obtain ⟨scanned, finished, symbol, -, found⟩ := found
  have reach : scanned.reach = outcome.context.reach := by
    unfold ScanContext.finish at finished
    split at finished
    · cases finished
      rfl
    · contradiction
  split at found
  · cases found
    simp only [Token.reach, Lexer.token, Length.bytes_sub]
    omega
  · contradiction

theorem examined_of_scannerState {state : ScannerState}
    (found : (lexer.next id mode carried).scannerState = some state) :
    lexer.examined id mode carried = (lexer.next id mode carried).reach := by
  have select := next_eq lexer id mode carried
  cases scanned : lexer.scanned? mode carried with
  | none =>
      rw [scanned, Option.bind_none, Option.getD_none] at select
      rw [select, scannerState_internal] at found
      contradiction
  | some outcome =>
      rw [scanned, Option.bind_some] at select
      cases accepted : lexer.accepted? id mode outcome with
      | none =>
          rw [accepted, Option.getD_none] at select
          rw [select, scannerState_internal] at found
          contradiction
      | some token =>
          rw [accepted] at select
          have counted := reach_le_of_accepted? accepted
          rw [examined, scanned, select]
          exact Nat.max_eq_left counted

theorem next_agree_of_scannerState (language : lexer'.language = lexer.language)
    (scanners : ∀ scanner ∈ lexer.language.scannerIn mode, scanner.IsLocal)
    (here : lexer.cursor.Between pre post) (there : lexer'.cursor.Between pre' post')
    {state : ScannerState} (found : (lexer.next id mode carried).scannerState = some state)
    (agree : Agree ((lexer.next id mode carried).size.bytes
      + (lexer.next id mode carried).lookahead) post post') :
    lexer'.next id mode carried
      = { lexer.next id mode carried with start := lexer'.cursor.position } := by
  refine next_agree_of_examined language scanners here there ?_
  rw [examined_of_scannerState found, Token.reach, start_next]
  refine agree.mono ?_
  simp only [Cursor.offset]
  omega

end Lexer

def groupTable : Table where
  name := "groups"
  symbols := #[⟨"end", false, true, false⟩, ⟨"(", true, false, false⟩, ⟨"group", true, true, false⟩,
    ⟨"s", true, true, false⟩]
  terminalCount := 3
  ruleCount := 1
  startSymbol := ⟨3⟩
  fieldNames := #[]
  productions := #[⟨⟨3⟩, 0, [⟨none, none⟩]⟩, ⟨⟨3⟩, 0, [⟨none, none⟩]⟩]
  stateCount := 4
  actionIndex := #[0, 1, 2, 3, 0, 0, 4, 0, 0, 5, 0, 0]
  actionLists := #[[], [.shift ⟨2⟩], [.shift ⟨3⟩], [.accept], [.reduce ⟨3⟩ 1 0 ⟨0⟩],
    [.reduce ⟨3⟩ 1 0 ⟨1⟩]]
  gotos := #[⟨1⟩, StateId.none, StateId.none, StateId.none]
  allowsExtras := Array.replicate 4 true
  extras := []
  externalTokens := #[⟨2⟩]
  wordToken := none
  keywords := []
  lexStates := #[⟨#[⟨40, 40, 1⟩], []⟩, ⟨#[], [⟨1⟩]⟩]
  lexStart := 0

def groupRule : ScanRule where
  index := 0
  result := 0
  opening := some '('
  closing := some ')'
  before := []
  acceptsEnd := false
  nested := false
  forced := false
  marksEnd := false
  overrun := 0
  limit := 255

def groupLanguage : Language :=
  (Language.ofTable groupTable (some (Scanner.ofRules [groupRule])) 1).toOption.get
    (by decide +kernel)

/-- The reach of a token of the automaton does not count what the scanner examined before it
declined. In `(a` it looks for the end of the group up to the end of the text; the reach of `(` is
2, but a `)` behind that makes another token. -/
theorem Lexer.reach_lt_examined_groups :
    ((ofText groupLanguage "(a" Length.zero).next 0 (groupLanguage.lexMode 0) none).symbol = ⟨1⟩ ∧
    ((ofText groupLanguage "(a" Length.zero).next 0 (groupLanguage.lexMode 0) none).reach = 2 ∧
    (ofText groupLanguage "(a" Length.zero).examined 0 (groupLanguage.lexMode 0) none = 3 ∧
    ((ofText groupLanguage "(a)" Length.zero).next 0 (groupLanguage.lexMode 0) none).symbol = ⟨2⟩ := by
  decide +kernel

end IncrementalGlr
