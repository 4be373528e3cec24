import IncrementalGlr.Table.Basic

/-!
# Consistency of tables

Every index that a parser or a lexer follows in a table is checked once, before the table is used:
`Table.check` accepts a table exactly when none of the causes of `Inconsistency` is present.
-/

namespace IncrementalGlr

inductive Inconsistency where
  | noTerminals
  | noRules
  | symbolCount (symbols terminals rules : Nat)
  | tooManySymbols (count : Nat)
  | startSymbol (symbol : SymbolId)
  | duplicateField (name : String)
  | extraNotTerminal (symbol : SymbolId)
  | externalNotTerminal (symbol : SymbolId)
  | wordNotTerminal (symbol : SymbolId)
  | keywordNotTerminal (text : String) (symbol : SymbolId)
  | tooManyProductions (count : Nat)
  | productionOfNonRule (production : Nat) (symbol : SymbolId)
  | unknownAlias (production : Nat) (symbol : SymbolId)
  | unknownField (production : Nat) (field : FieldId)
  | noStates
  | tooManyStates (count : Nat)
  | actionMatrixSize (found expected : Nat)
  | gotoMatrixSize (found expected : Nat)
  | extrasFlagCount (found expected : Nat)
  | firstActionList
  | missingActionList (state column list : Nat)
  | misplacedAccept (state : Nat)
  | shiftTarget (list : Nat) (state : StateId)
  | mismatchedReduction (list : Nat) (symbol : SymbolId) (childCount : UInt16)
      (production : ProductionId)
  | noAccept
  | gotoTarget (state : Nat) (target : StateId)
  | lexStart (start : UInt32) (states : Nat)
  | invertedRange (lexState : Nat)
  | unsortedRanges (lexState : Nat)
  | lexTarget (lexState : Nat) (target : UInt32)
  | lexAccept (lexState : Nat) (symbol : SymbolId)
  /-- Two visible symbols with one name that are both named or both anonymous. -/
  | duplicateSymbol (name : String)
  deriving DecidableEq, Repr

namespace Inconsistency

def message : Inconsistency → String
  | noTerminals => "a table needs at least the end symbol"
  | noRules => "a table needs at least one rule"
  | symbolCount symbols terminals rules =>
    s!"{symbols} symbols declared but {terminals} terminals and {rules} nonterminals counted"
  | tooManySymbols count => s!"too many symbols ({count})"
  | startSymbol symbol => s!"start symbol {symbol.describe} is not a nonterminal"
  | duplicateField name => s!"field `{name}` declared twice"
  | extraNotTerminal symbol => s!"extra {symbol.describe} is not a terminal"
  | externalNotTerminal symbol => s!"external token {symbol.describe} is not a terminal"
  | wordNotTerminal symbol => s!"word token {symbol.describe} is not a terminal"
  | keywordNotTerminal text symbol =>
    s!"keyword `{text}` maps to non-terminal {symbol.describe}"
  | tooManyProductions count => s!"too many productions ({count})"
  | productionOfNonRule production symbol =>
    s!"production {production} reduces to non-rule {symbol.describe}"
  | unknownAlias production symbol =>
    s!"production {production} aliases to unknown symbol {symbol.describe}"
  | unknownField production field =>
    s!"production {production} uses unknown field {field.describe}"
  | noStates => "a table needs at least one state"
  | tooManyStates count => s!"too many states ({count})"
  | actionMatrixSize found expected =>
    s!"action matrix has {found} cells, expected {expected}"
  | gotoMatrixSize found expected => s!"goto matrix has {found} cells, expected {expected}"
  | extrasFlagCount found expected => s!"extras flags cover {found} states, expected {expected}"
  | firstActionList => "action list 0 must be the empty list"
  | missingActionList state column list =>
    s!"state {state} column {column} points at missing action list {list}"
  | misplacedAccept state => s!"accept action outside the end-of-input column in state {state}"
  | shiftTarget list state => s!"action list {list} shifts to missing state {state.describe}"
  | mismatchedReduction list symbol childCount production =>
    s!"action list {list} reduces {symbol.describe}/{childCount.toNat} with mismatched production "
      ++ production.describe
  | noAccept => "no state accepts the input"
  | gotoTarget state target => s!"goto in state {state} leads to missing state {target.describe}"
  | lexStart start states => s!"lexer start state {start.toNat} out of {states} states"
  | invertedRange lexState => s!"lexer state {lexState} has an inverted range"
  | unsortedRanges lexState => s!"lexer state {lexState} has unsorted or overlapping ranges"
  | lexTarget lexState target =>
    s!"lexer state {lexState} jumps to missing state {target.toNat}"
  | lexAccept lexState symbol =>
    s!"lexer state {lexState} accepts non-terminal {symbol.describe}"
  | duplicateSymbol name => s!"it declares symbol `{name}` more than once"

end Inconsistency

def ensure (condition : Bool) (cause : Inconsistency) : Except Inconsistency Unit :=
  if condition then .ok () else .error cause

/-- The first element that an earlier element equals. -/
def firstRepeat? {α : Type} [BEq α] (xs : List α) : Option α :=
  go xs []
where
  go : List α → List α → Option α
    | [], _ => none
    | x :: rest, seen => if seen.contains x then some x else go rest (x :: seen)

namespace Table

def isToken (table : Table) (symbol : SymbolId) : Bool :=
  symbol != SymbolId.endOfInput && table.isTerminal symbol

def checkSymbols (table : Table) : Except Inconsistency Unit := do
  let terminals := table.terminalCount.toNat
  let rules := table.ruleCount.toNat
  let symbols := table.symbols.size
  ensure (terminals ≥ 1) .noTerminals
  ensure (rules ≥ 1) .noRules
  ensure (symbols ≥ terminals + rules) (.symbolCount symbols terminals rules)
  ensure (symbols < 0xFFFF) (.tooManySymbols symbols)
  ensure (table.isRule table.startSymbol) (.startSymbol table.startSymbol)
  let visible := (table.symbols.toList.drop 1).filter (·.visible)
  match firstRepeat? (visible.map fun info => (info.name, info.named)) with
  | some (name, _) => throw (.duplicateSymbol name)
  | none => pure ()
  match firstRepeat? table.fieldNames.toList with
  | some name => throw (.duplicateField name)
  | none => pure ()
  for extra in table.extras do
    ensure (table.isToken extra) (.extraNotTerminal extra)
  for external in table.externalTokens do
    ensure (table.isToken external) (.externalNotTerminal external)
  for word in table.wordToken.toList do
    ensure (table.isToken word) (.wordNotTerminal word)
  for keyword in table.keywords do
    ensure (table.isToken keyword.symbol) (.keywordNotTerminal keyword.text keyword.symbol)

def checkProductions (table : Table) : Except Inconsistency Unit := do
  ensure (table.productions.size < 0xFFFF) (.tooManyProductions table.productions.size)
  for (production, id) in table.productions.toList.zipIdx do
    ensure (table.isRule production.lhs) (.productionOfNonRule id production.lhs)
    for step in production.steps do
      for symbol in step.aliasSymbol.toList do
        ensure (symbol.index < table.symbols.size && symbol != SymbolId.endOfInput)
          (.unknownAlias id symbol)
      for field in step.field.toList do
        ensure (field.index < table.fieldNames.size) (.unknownField id field)

def checkAction (table : Table) (list : Nat) : Action → Except Inconsistency Unit
  | .shift state => ensure (state.index < table.stateCount.toNat) (.shiftTarget list state)
  | .reduce symbol childCount _ production =>
    ensure
      (match table.productions[production.index]? with
        | some p => p.lhs == symbol && p.steps.length == childCount.toNat
        | none => false)
      (.mismatchedReduction list symbol childCount production)
  | .accept => .ok ()

def checkParseTable (table : Table) : Except Inconsistency Unit := do
  let states := table.stateCount.toNat
  let terminals := table.terminalCount.toNat
  let rules := table.ruleCount.toNat
  ensure (states ≥ 1) .noStates
  ensure (states < 0xFFFF) (.tooManyStates states)
  ensure (table.actionIndex.size == states * terminals)
    (.actionMatrixSize table.actionIndex.size (states * terminals))
  ensure (table.gotos.size == states * rules) (.gotoMatrixSize table.gotos.size (states * rules))
  ensure (table.allowsExtras.size == states) (.extrasFlagCount table.allowsExtras.size states)
  ensure (table.actionLists[0]? == some []) .firstActionList
  for (list, cell) in table.actionIndex.toList.zipIdx do
    let state := cell / terminals
    let column := cell % terminals
    ensure (list.toNat < table.actionLists.size) (.missingActionList state column list.toNat)
    ensure (column == 0 || !(table.actionLists.getD list.toNat []).any (·.isAccept))
      (.misplacedAccept state)
  for (actions, list) in table.actionLists.toList.zipIdx do
    for action in actions do
      table.checkAction list action
  ensure (table.actionLists.any fun actions => actions.any (·.isAccept)) .noAccept
  for (target, cell) in table.gotos.toList.zipIdx do
    ensure (target.isNone || target.index < states) (.gotoTarget (cell / max rules 1) target)

def checkTransitions (table : Table) (id : Nat) :
    List LexTransition → Option UInt32 → Except Inconsistency Unit
  | [], _ => .ok ()
  | transition :: rest, previous => do
    ensure (transition.low ≤ transition.high) (.invertedRange id)
    ensure (previous.all fun high => high < transition.low) (.unsortedRanges id)
    ensure (transition.target.toNat < table.lexStates.size) (.lexTarget id transition.target)
    checkTransitions table id rest (some transition.high)

def checkLexTable (table : Table) : Except Inconsistency Unit := do
  ensure (table.lexStart.toNat < table.lexStates.size)
    (.lexStart table.lexStart table.lexStates.size)
  for (state, id) in table.lexStates.toList.zipIdx do
    table.checkTransitions id state.transitions.toList none
    for symbol in state.accepts do
      ensure (table.isToken symbol) (.lexAccept id symbol)

def check (table : Table) : Except Inconsistency Unit := do
  table.checkSymbols
  table.checkProductions
  table.checkParseTable
  table.checkLexTable

end Table

end IncrementalGlr
