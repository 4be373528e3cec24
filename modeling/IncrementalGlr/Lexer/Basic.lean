import IncrementalGlr.Token
import IncrementalGlr.Lexer.LongestMatch

/-!
# The lexer

Tokens are lexed on demand, in the lex mode of the parser's state, so that one text may lex in
different ways at different places. A token is selected in this order:

1. the external scanner, when the mode has valid external tokens;
2. the longest match among the valid terminals, equal lengths by priority;
3. the longest match among the terminals that may be lexed after an error;
4. an error token up to the next place where the third step would match.

The text of the word token is then looked up among the keywords.
-/

namespace IncrementalGlr

namespace Language

def isWordUsable (language : Language) (mode : LexMode) : Bool :=
  match language.wordToken? with
  | none => false
  | some word =>
    mode.isValid word || language.table.keywords.any fun keyword => mode.isValid keyword.symbol

/-- The keyword that a matched word is, if it is reserved or valid here. -/
def resolveKeyword (language : Language) (mode : LexMode) (matched : SymbolId) (text : String) :
    SymbolId :=
  if language.wordToken? == some matched then
    match language.keyword? text with
    | some keyword =>
      if keyword.reserved || mode.isValid keyword.symbol then keyword.symbol else matched
    | none => matched
  else matched

def isWanted (language : Language) (mode : LexMode) (symbol : SymbolId) : Bool :=
  mode.isValid symbol
    || (language.isWordUsable mode && language.wordToken? == some symbol)

end Language

/-- From the cursor on, the first place where the text ends or a token matches, with the end of the
bytes that were examined. -/
def skipToMatch (table : Table) (wanted : SymbolId → Bool) (cursor : Cursor) (reach : Nat) :
    Cursor × Nat :=
  if _h : cursor.offset < cursor.source.size then
    let (found, examined) := table.longestMatch wanted cursor
    let reach := max reach examined
    if found.isSome then (cursor, reach) else skipToMatch table wanted cursor.advance reach
  else (cursor, reach)
termination_by cursor.source.size - cursor.offset
decreasing_by exact Cursor.remaining_advance_lt _h

structure Lexer where
  language : Language
  cursor : Cursor

namespace Lexer

def ofSource (language : Language) (source : Source) : Lexer :=
  ⟨language, Cursor.ofSource source⟩

def seek (lexer : Lexer) (position : Length) : Lexer :=
  { lexer with cursor := lexer.cursor.reset position }

def token (lexer : Lexer) (symbol : SymbolId) (stop : Length) (reach : Nat) (mode : LexModeId)
    (scannerState : Option ScannerState) : Token :=
  let start := lexer.cursor.position
  ⟨symbol, start, stop - start, reach - stop.bytes, mode, scannerState⟩

def external? (lexer : Lexer) (id : LexModeId) (mode : LexMode)
    (carried : Option ScannerState) : Option Token := do
  let scanner ← lexer.language.scanner
  let outcome := scanner.scan (carried.getD []) mode.externalValid
    (ScanContext.ofCursor lexer.cursor)
  let scanned ← (outcome.context.finish outcome.accepted).1
  let symbol ← lexer.language.externalTokens[scanned.index]?
  if mode.isValid symbol then
    some (lexer.token symbol scanned.stop scanned.reach id (some outcome.state))
  else none

def internal (lexer : Lexer) (id : LexModeId) (mode : LexMode) : Token :=
  let language := lexer.language
  let cursor := lexer.cursor
  if cursor.isAtEnd then
    lexer.token SymbolId.endOfInput cursor.position (cursor.offset + 1) id none
  else
    let (valid, validReach) := language.table.longestMatch (language.isWanted mode) cursor
    let (found, reach) := match valid with
      | some found => (some found, validReach)
      | none =>
        let (found, reach) := language.table.longestMatch language.isErrorLexable cursor
        (found, max validReach reach)
    match found with
    | some found =>
      let text := cursor.slice cursor.offset found.stop.bytes
      lexer.token (language.resolveKeyword mode found.symbol text) found.stop reach id none
    | none =>
      let (next, reach) :=
        skipToMatch language.table language.isErrorLexable cursor.advance reach
      lexer.token SymbolId.error next.position (max reach (next.offset + 1)) id none

/-- The token at the lexer's place. `carried` is the scanner's state after the last external token
before it. -/
def next (lexer : Lexer) (id : LexModeId) (mode : LexMode) (carried : Option ScannerState) :
    Token :=
  match if mode.hasExternals then lexer.external? id mode carried else none with
  | some token => token
  | none => lexer.internal id mode

end Lexer

end IncrementalGlr
