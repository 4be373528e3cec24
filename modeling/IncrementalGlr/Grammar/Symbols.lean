import IncrementalGlr.Grammar.Prepared
import IncrementalGlr.Table.Basic

/-!
# The symbols of a table

A table lists the end of input, the terminals, the nonterminals, and then the names that occur as
aliases only. An alias with the name of a visible symbol of the same kind is that symbol.
-/

namespace IncrementalGlr

def checkSize (part : TablePart) (count : Nat) : Except GrammarError UInt16 :=
  if count < 0xFFFF then .ok (UInt16.ofNat count) else .error (.tooLarge part count)

def aliasPlace? (infos : Array SymbolInfo) (shown : Alias) : Option Nat :=
  ((infos.toList.drop 1).findIdx? fun info =>
    info.visible && info.named == shown.named && info.name == shown.value).map (· + 1)

namespace PreparedGrammar

def allSteps (grammar : PreparedGrammar) : List Step :=
  grammar.nonterminals.toList.flatMap fun nonterminal =>
    nonterminal.productions.flatMap (·.steps)

def terminalCount (grammar : PreparedGrammar) : Nat := grammar.terminals.size + 1

def symbolId (grammar : PreparedGrammar) : Sym → SymbolId
  | .terminal index => SymbolId.ofNat (index + 1)
  | .nonterminal index => SymbolId.ofNat (grammar.terminalCount + index)

def ownSymbols (grammar : PreparedGrammar) : Array SymbolInfo :=
  #[SymbolInfo.ofHidden "end"]
    ++ grammar.terminals.map (fun terminal =>
      ⟨terminal.name, terminal.visible, terminal.named, false⟩)
    ++ grammar.nonterminals.map (fun nonterminal =>
      ⟨nonterminal.name, nonterminal.visible, true, nonterminal.supertype⟩)

/-- Adds the symbol of an alias, unless a visible symbol has its name. -/
def addAlias (infos : Array SymbolInfo) (shown : Alias) :
    Except GrammarError (Array SymbolInfo) := do
  match aliasPlace? infos shown with
  | some place =>
    let _ ← checkSize .symbols place
    return infos
  | none =>
    let _ ← checkSize .symbols infos.size
    return infos.push ⟨shown.value, true, shown.named, false⟩

def symbols (grammar : PreparedGrammar) : Except GrammarError (Array SymbolInfo) :=
  (grammar.allSteps.filterMap (·.shownAs)).foldlM addAlias grammar.ownSymbols

def fieldNames (grammar : PreparedGrammar) : List String :=
  (grammar.allSteps.filterMap (·.field)).eraseDups.mergeSort (· ≤ ·)

def tableProduction (grammar : PreparedGrammar) (infos : Array SymbolInfo)
    (fields : List String) (nonterminal : Nat) (production : FlatProduction) : Production where
  lhs := grammar.symbolId (.nonterminal nonterminal)
  dynamicPrecedence := production.dynamicPrecedence
  steps := production.steps.map fun step =>
    ⟨step.shownAs.bind fun shown => (aliasPlace? infos shown).map SymbolId.ofNat,
      step.field.bind fun field => (fields.findIdx? (· == field)).map FieldId.ofNat⟩

end PreparedGrammar

end IncrementalGlr
