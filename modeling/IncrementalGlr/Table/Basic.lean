import IncrementalGlr.Symbol

/-!
# Grammar tables

A compiled grammar: symbols and productions, the parse table as two dense matrices, and the lexical
automaton. Look-ups answer "nothing" outside the matrices.
-/

namespace IncrementalGlr

inductive Action where
  | shift (state : StateId)
  | reduce (symbol : SymbolId) (childCount : UInt16) (dynamicPrecedence : Int16)
      (production : ProductionId)
  | accept
  deriving DecidableEq, Repr, Inhabited

namespace Action

def shiftTarget? : Action → Option StateId
  | shift state => some state
  | _ => none

def isAccept : Action → Bool
  | accept => true
  | _ => false

end Action

structure ProductionStep where
  aliasSymbol : Option SymbolId
  field : Option FieldId
  deriving DecidableEq, Repr, Inhabited

structure Production where
  lhs : SymbolId
  dynamicPrecedence : Int16
  steps : List ProductionStep
  deriving DecidableEq, Repr, Inhabited

/-- A transition of the lexical automaton on an inclusive range of code points. -/
structure LexTransition where
  low : UInt32
  high : UInt32
  target : UInt32
  deriving DecidableEq, Repr, Inhabited

/-- A state of the lexical automaton: sorted transitions, and the accepted terminals by priority. -/
structure LexState where
  transitions : Array LexTransition
  accepts : List SymbolId
  deriving DecidableEq, Repr, Inhabited

/-- The number of leading elements that satisfy `p`, by bisection; the elements that satisfy `p`
come first. -/
def partitionPoint {α : Type} (xs : Array α) (p : α → Bool) : Nat :=
  go 0 xs.size
where
  go (low high : Nat) : Nat :=
    if _h : low < high then
      let middle := (low + high) / 2
      match xs[middle]? with
      | some x => if p x then go (middle + 1) high else go low middle
      | none => low
    else low
  termination_by high - low

def LexState.next? (state : LexState) (c : Char) : Option UInt32 :=
  match state.transitions[partitionPoint state.transitions fun t => t.high < c.val]? with
  | some t => if t.low ≤ c.val then some t.target else none
  | none => none

/-- A word that the lexer recognizes in the text of the word token. A reserved one is recognized
even where it is not valid. -/
structure Keyword where
  text : String
  symbol : SymbolId
  reserved : Bool
  deriving DecidableEq, Repr, Inhabited

structure Table where
  name : String
  symbols : Array SymbolInfo
  terminalCount : UInt16
  ruleCount : UInt16
  startSymbol : SymbolId
  fieldNames : Array String
  productions : Array Production
  stateCount : UInt16
  /-- For each state and terminal, the place of its actions in `actionLists`. -/
  actionIndex : Array UInt16
  actionLists : Array (List Action)
  gotos : Array StateId
  allowsExtras : Array Bool
  extras : List SymbolId
  externalTokens : Array SymbolId
  wordToken : Option SymbolId
  keywords : List Keyword
  lexStates : Array LexState
  lexStart : UInt32
  deriving DecidableEq, Repr, Inhabited

namespace Table

def isTerminal (table : Table) (symbol : SymbolId) : Bool :=
  symbol.index < table.terminalCount.toNat

def isRule (table : Table) (symbol : SymbolId) : Bool :=
  !table.isTerminal symbol
    && symbol.index < table.terminalCount.toNat + table.ruleCount.toNat

def actions (table : Table) (state : StateId) (terminal : SymbolId) : List Action :=
  if table.isTerminal terminal && state.index < table.stateCount.toNat then
    let cell := state.index * table.terminalCount.toNat + terminal.index
    table.actionLists.getD (table.actionIndex.getD cell 0).toNat []
  else []

def goto? (table : Table) (state : StateId) (rule : SymbolId) : Option StateId :=
  if table.isRule rule && state.index < table.stateCount.toNat then
    let cell := state.index * table.ruleCount.toNat
      + (rule.index - table.terminalCount.toNat)
    let target := table.gotos.getD cell StateId.none
    if target.isNone then none else some target
  else none

end Table

end IncrementalGlr
