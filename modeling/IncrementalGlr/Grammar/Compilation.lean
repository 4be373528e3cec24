import IncrementalGlr.Grammar.Preparation
import IncrementalGlr.Lalr.Resolution
import IncrementalGlr.Lexical.Tokens
import IncrementalGlr.Table.Codec

/-!
# From grammars to tables

A grammar is prepared, its automaton is built and laid out as a table. Equal action lists are stored
once, in the order in which they first occur.
-/

namespace IncrementalGlr

structure Compiled where
  table : Table
  conflicts : List Conflict
  deriving Repr

namespace PreparedGrammar

def tableAction (productions : Array Production) : LrAction → Except GrammarError Action
  | .shift target => do return .shift ⟨← checkSize .parseStates target⟩
  | .reduce id => do
    let production := productions.getD id default
    let count ← checkSize .productionSteps production.steps.length
    return .reduce production.lhs count production.dynamicPrecedence
      ⟨← checkSize .productions id⟩
  | .accept => .ok .accept

def numberOfList (lists : Array (List Action)) (list : List Action) :
    Except GrammarError (UInt16 × Array (List Action)) := do
  match lists.findIdx? (· == list) with
  | some id => return (UInt16.ofNat id, lists)
  | none => return (← checkSize .actionLists lists.size, lists.push list)

def actionRow (grammar : PreparedGrammar) (productions : Array Production)
    (lists : Array (List Action)) (state : LrGrammar.StateActions) :
    Except GrammarError (Array UInt16 × Array (List Action)) :=
  state.actions.foldlM
    (fun (row, lists) (terminal, actions) => do
      let (id, lists) ← numberOfList lists (← actions.mapM (tableAction productions))
      return (row.setIfInBounds terminal id, lists))
    (Array.replicate grammar.terminalCount 0, lists)

def gotoRow (grammar : PreparedGrammar) (state : LrGrammar.StateActions) :
    Except GrammarError (Array StateId) :=
  state.gotos.foldlM
    (fun row (nonterminal, target) => do
      return row.setIfInBounds nonterminal ⟨← checkSize .parseStates target⟩)
    (Array.replicate grammar.nonterminals.size StateId.none)

def allowsExtras (grammar : PreparedGrammar) (state : LrGrammar.StateActions) : Bool :=
  !state.actions.any fun (terminal, _) =>
    terminal > 0 && (grammar.terminals[terminal - 1]?).any (·.immediate)

def table (grammar : PreparedGrammar) (lr : LrGrammar)
    (automaton : Array LrGrammar.StateActions) : Except GrammarError Table := do
  let terminalCount ← checkSize .terminals grammar.terminalCount
  let symbols ← grammar.symbols
  let ruleCount ← checkSize .rules grammar.nonterminals.size
  let stateCount ← checkSize .parseStates automaton.size
  let _ ← checkSize .symbols symbols.size
  let fieldNames := grammar.fieldNames
  let _ ← checkSize .fields fieldNames.length
  let _ ← checkSize .productions lr.productions.size
  let productions := lr.productions.map fun (nonterminal, production) =>
    grammar.tableProduction symbols fieldNames nonterminal production
  let (actionIndex, actionLists, gotos) ← automaton.foldlM
    (fun (index, lists, gotos) state => do
      let (row, lists) ← grammar.actionRow productions lists state
      return (index ++ row, lists, gotos ++ (← grammar.gotoRow state)))
    (#[], #[[]], #[])
  let lexStates ← grammar.lexStates
  return {
    name := grammar.name
    symbols, terminalCount, ruleCount
    startSymbol := grammar.symbolId (.nonterminal 0)
    fieldNames := fieldNames.toArray
    productions, stateCount, actionIndex, actionLists, gotos
    allowsExtras := automaton.map grammar.allowsExtras
    extras := grammar.extras.map fun index => grammar.symbolId (.terminal index)
    externalTokens := (grammar.externals.map fun index =>
      grammar.symbolId (.terminal index)).toArray
    wordToken := grammar.word.map fun index => grammar.symbolId (.terminal index)
    keywords := grammar.keywords
    lexStates
    lexStart := 0 }

end PreparedGrammar

def Grammar.compile (grammar : Grammar) : Except GrammarError Compiled := do
  let prepared ← grammar.prepare
  let lr := LrGrammar.ofGrammar prepared
  let automaton := lr.automaton
  let table ← prepared.table lr automaton
  return ⟨table, automaton.toList.flatMap (·.conflicts)⟩

end IncrementalGlr
