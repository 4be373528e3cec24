import IncrementalGlr.Grammar.Prepared
import IncrementalGlr.BitSet
import IncrementalGlr.Fixpoint

/-!
# First sets

For each nonterminal the terminals that can begin what it derives, and whether it derives nothing.
Terminals are numbered as in tables: 0 is the end of input, and terminal `t` of the grammar is
`t + 1`.
-/

namespace IncrementalGlr

structure FirstSets where
  first : Array BitSet
  nullable : Array Bool
  deriving DecidableEq, Repr, Inhabited

namespace FirstSets

def ofSteps (sets : FirstSets) : List Step → BitSet × Bool
  | [] => (BitSet.empty, true)
  | step :: rest =>
    match step.symbol with
    | .terminal terminal => (BitSet.singleton (terminal + 1), false)
    | .nonterminal index =>
      let own := sets.first.getD index BitSet.empty
      if sets.nullable.getD index false then
        let (first, nullable) := sets.ofSteps rest
        (own.union first, nullable)
      else (own, false)

def ofProductions (sets : FirstSets) (productions : List FlatProduction) : BitSet × Bool :=
  productions.foldl
    (fun (first, nullable) production =>
      let (own, empty) := sets.ofSteps production.steps
      (first.union own, nullable || empty))
    (BitSet.empty, false)

def extend (grammar : PreparedGrammar) (sets : FirstSets) : FirstSets :=
  let both := grammar.nonterminals.map fun nonterminal => sets.ofProductions nonterminal.productions
  ⟨both.map (·.1), both.map (·.2)⟩

def ofGrammar (grammar : PreparedGrammar) : FirstSets :=
  stabilize (extend grammar)
    (grammar.nonterminals.size * (grammar.terminals.size + 2) + 1)
    ⟨grammar.nonterminals.map fun _ => BitSet.empty, grammar.nonterminals.map fun _ => false⟩

def startsWith (sets : FirstSets) (symbol : Sym) (terminal : Nat) : Bool :=
  match symbol with
  | .terminal t => t + 1 == terminal
  | .nonterminal index => (sets.first.getD index BitSet.empty).contains terminal

end FirstSets

end IncrementalGlr
