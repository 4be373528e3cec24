import IncrementalGlr.Table.Consistency
import IncrementalGlr.Table.Codec
import IncrementalGlr.Scan.Context
import IncrementalGlr.Text.Quoted

/-!
# Languages

A `Language` is a table that passed its checks, with what parsers and lexers look up all the time:
the lex mode of every state, the extras, and the terminals that may be lexed after an error.
-/

namespace IncrementalGlr

inductive LoadError where
  | truncated (size : Nat)
  | badMagic
  | unsupportedVersion (found : UInt16)
  | checksumMismatch (expected found : UInt64)
  | undecodable
  | inconsistent (cause : Inconsistency)
  | missingScanner (language : String) (count : Nat)
  deriving DecidableEq, Repr

namespace LoadError

def message : LoadError → String
  | truncated size =>
    s!"grammar table is truncated ({size} bytes, header needs {Table.headerSize})"
  | badMagic => "not a sam grammar table (bad magic bytes)"
  | unsupportedVersion found =>
    s!"grammar table version {found.toNat} is not supported "
      ++ s!"(supported: {Table.oldestVersion.toNat}..={Table.formatVersion.toNat})"
  | checksumMismatch expected found =>
    s!"grammar table checksum mismatch (expected {Checksum.display expected}, "
      ++ s!"found {Checksum.display found})"
  | undecodable => "grammar table payload could not be decoded"
  | inconsistent (.duplicateSymbol name) =>
    s!"grammar table declares symbol `{name}` more than once"
  | inconsistent cause => s!"grammar table is inconsistent: {cause.message}"
  | missingScanner language count =>
    s!"grammar `{language}` declares {count} external tokens but no external scanner was supplied"

end LoadError

abbrev LexModeId := UInt16

def unionLexMode : LexModeId := 0xFFFF

structure LexMode where
  valid : Array Bool
  externalValid : Array Bool
  allowsExtras : Bool
  deriving DecidableEq, Repr, Inhabited

def orAll (xs ys : Array Bool) : Array Bool :=
  xs.mapIdx fun i x => x || ys.getD i false

namespace LexMode

def union (mode other : LexMode) : LexMode :=
  ⟨orAll mode.valid other.valid, orAll mode.externalValid other.externalValid,
    mode.allowsExtras || other.allowsExtras⟩

def isValid (mode : LexMode) (symbol : SymbolId) : Bool :=
  mode.valid.getD symbol.index false

def hasExternals (mode : LexMode) : Bool :=
  mode.externalValid.any id

/-- The terminals that a state has an action on, and the extras where they are allowed. The end of
input is never a token to be lexed. -/
def ofState (table : Table) (isExtra : Array Bool) (state : StateId) : LexMode :=
  let allowsExtras := table.allowsExtras.getD state.index false
  let valid := Array.ofFn fun (terminal : Fin table.terminalCount.toNat) =>
    terminal.val != 0
      && (!(table.actions state (SymbolId.ofNat terminal.val)).isEmpty
        || (allowsExtras && isExtra.getD terminal.val false))
  ⟨valid, table.externalTokens.map fun symbol => valid.getD symbol.index false, allowsExtras⟩

/-- The different modes of the states from 0 to `count`, and for each state the place of its
mode. -/
def ofStates (table : Table) (isExtra : Array Bool) (count : Nat) :
    Array LexMode × Array LexModeId :=
  (List.range count).foldl
    (fun (modes, byState) state =>
      let mode := ofState table isExtra (StateId.ofNat state)
      match modes.findIdx? (· == mode) with
      | some id => (modes, byState.push (UInt16.ofNat id))
      | none => (modes.push mode, byState.push (UInt16.ofNat modes.size)))
    (#[], #[])

end LexMode

structure Language where
  table : Table
  version : UInt16
  isExtraSymbol : Array Bool
  lexModes : Array LexMode
  stateLexModes : Array LexModeId
  errorLexable : Array Bool
  scanner : Option Scanner
  /-- Languages with different stamps count as different, even for equal tables. -/
  stamp : Nat
  deriving Inhabited

namespace Language

/-- The language of a table that was read at some format version. Tables with external tokens need
a scanner. -/
def build (table : Table) (version : UInt16) (scanner : Option Scanner) (stamp : Nat) :
    Except LoadError Language := do
  match table.check with
  | .error cause => throw (.inconsistent cause)
  | .ok () => pure ()
  if table.externalTokens.size > 0 && scanner.isNone then
    throw (.missingScanner table.name table.externalTokens.size)
  let isExtraSymbol := table.extras.foldl
    (fun flags symbol => flags.setIfInBounds symbol.index true)
    (Array.replicate table.symbols.size false)
  let (lexModes, stateLexModes) := LexMode.ofStates table isExtraSymbol table.stateCount.toNat
  let errorLexable := (lexModes.filter (·.allowsExtras)).foldl
    (fun flags mode => orAll flags mode.valid) (Array.replicate table.terminalCount.toNat false)
  return { table, version, isExtraSymbol, lexModes, stateLexModes, errorLexable, scanner, stamp }

def ofTable (table : Table) (scanner : Option Scanner) (stamp : Nat) :
    Except LoadError Language :=
  build table Table.formatVersion scanner stamp

def load (bytes : List UInt8) (scanner : Option Scanner) (stamp : Nat) :
    Except LoadError Language := do
  let size := bytes.length
  if size < Table.headerSize then throw (.truncated size)
  if bytes.take 4 != Table.magic then throw .badMagic
  let version := UInt16.ofNat (natOfBytes ((bytes.drop 4).take 2))
  if version < Table.oldestVersion || Table.formatVersion < version then
    throw (.unsupportedVersion version)
  let expected := UInt64.ofNat (natOfBytes ((bytes.drop 6).take 8))
  let payload := bytes.drop Table.headerSize
  let found := Checksum.ofBytes payload
  if expected != found then throw (.checksumMismatch expected found)
  match Codec.table.read payload with
  | none => throw .undecodable
  | some (table, _) => build table version scanner stamp

def name (language : Language) : String := language.table.name

def symbolCount (language : Language) : Nat := language.table.symbols.size

def stateCount (language : Language) : Nat := language.table.stateCount.toNat

def fieldCount (language : Language) : Nat := language.table.fieldNames.size

def isSame (language other : Language) : Bool := language.stamp == other.stamp

def describe (language : Language) : String :=
  "Language \x7b name: " ++ quoted language.name
    ++ s!", version: {language.version.toNat}, states: {language.stateCount}, "
    ++ s!"symbols: {language.symbolCount}, .. \x7d"

def symbolInfo? (language : Language) (symbol : SymbolId) : Option SymbolInfo :=
  language.table.symbols[symbol.index]?

def symbolName (language : Language) (symbol : SymbolId) : String :=
  if symbol.isError then "ERROR"
  else (language.symbolInfo? symbol).elim "" (·.name)

def isVisible (language : Language) (symbol : SymbolId) : Bool :=
  symbol.isError || (language.symbolInfo? symbol).any (·.visible)

def isNamed (language : Language) (symbol : SymbolId) : Bool :=
  symbol.isError || (language.symbolInfo? symbol).any (·.named)

def isExtra (language : Language) (symbol : SymbolId) : Bool :=
  language.isExtraSymbol.getD symbol.index false

def isTerminal (language : Language) (symbol : SymbolId) : Bool :=
  language.table.isTerminal symbol

/-- The symbol of a kind of nodes: the first one of that name, the end of input excluded. -/
def symbolOfKind? (language : Language) (name : String) (named : Bool) : Option SymbolId :=
  if named && name == "ERROR" then some SymbolId.error
  else
    ((language.table.symbols.toList.drop 1).findIdx? fun info =>
      info.name == name && info.named == named).map fun i => SymbolId.ofNat (i + 1)

def fieldName? (language : Language) (field : FieldId) : Option String :=
  language.table.fieldNames[field.index]?

def fieldOfName? (language : Language) (name : String) : Option FieldId :=
  (language.table.fieldNames.findIdx? (· == name)).map FieldId.ofNat

def actions (language : Language) (state : StateId) (terminal : SymbolId) : List Action :=
  language.table.actions state terminal

def goto? (language : Language) (state : StateId) (rule : SymbolId) : Option StateId :=
  language.table.goto? state rule

def lexModeOfState (language : Language) (state : StateId) : LexModeId :=
  language.stateLexModes.getD state.index 0

/-- The mode with this number; the last one stands for numbers that no mode has. -/
def lexMode (language : Language) (id : LexModeId) : LexMode :=
  language.lexModes.getD (min id.toNat (language.lexModes.size - 1)) default

/-- Whether the lexer may produce the terminal where nothing valid matches. Terminals that are valid
only where extras are not, such as the contents of strings, do not qualify. -/
def isErrorLexable (language : Language) (symbol : SymbolId) : Bool :=
  language.errorLexable.getD symbol.index false

/-- The keyword with this text; of several, the last. -/
def keyword? (language : Language) (text : String) : Option Keyword :=
  language.table.keywords.findRev? fun keyword => keyword.text == text

def wordToken? (language : Language) : Option SymbolId := language.table.wordToken

def externalTokens (language : Language) : Array SymbolId := language.table.externalTokens

end Language

end IncrementalGlr
