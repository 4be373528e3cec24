import IncrementalGlr.Lexical.Regex

/-!
# Prepared grammars

A prepared grammar has terminals, each with its regular expression, and nonterminals, each with its
productions as flat sequences of steps.
-/

namespace IncrementalGlr

inductive Sym where
  | terminal (index : Nat)
  | nonterminal (index : Nat)
  deriving DecidableEq, Hashable, Repr, Inhabited

namespace Sym

def le : Sym → Sym → Bool
  | terminal a, terminal b => a ≤ b
  | terminal _, nonterminal _ => true
  | nonterminal _, terminal _ => false
  | nonterminal a, nonterminal b => a ≤ b

end Sym

structure Terminal where
  name : String
  visible : Bool
  named : Bool
  regex : Option Regex
  precedence : Int
  immediate : Bool
  isString : Bool
  isExternal : Bool
  deriving Repr, Inhabited

structure Step where
  symbol : Sym
  precedence : Precedence
  associativity : Option Associativity
  field : Option String
  shownAs : Option Alias
  deriving DecidableEq, Repr, Inhabited

def Step.plain (symbol : Sym) : Step := ⟨symbol, .none, none, none, none⟩

structure FlatProduction where
  steps : List Step
  dynamicPrecedence : Int16
  deriving DecidableEq, Repr, Inhabited

namespace FlatProduction

def empty : FlatProduction := ⟨[], 0⟩

def single (step : Step) : FlatProduction := ⟨[step], 0⟩

/-- Of two dynamic precedences the one farther from zero; the first, if they are equally far. -/
def stronger (a b : Int16) : Int16 :=
  if a.toInt.natAbs < b.toInt.natAbs then b else a

def append (head tail : FlatProduction) : FlatProduction :=
  ⟨head.steps ++ tail.steps, stronger head.dynamicPrecedence tail.dynamicPrecedence⟩

end FlatProduction

structure Nonterminal where
  name : String
  visible : Bool
  supertype : Bool
  productions : List FlatProduction
  deriving Repr, Inhabited

structure PreparedGrammar where
  name : String
  terminals : Array Terminal
  nonterminals : Array Nonterminal
  extras : List Nat
  externals : List Nat
  word : Option Nat
  reserved : List String
  precedences : List (List PrecedenceEntry)
  deriving Repr, Inhabited

namespace PreparedGrammar

def productionsOf (grammar : PreparedGrammar) (nonterminal : Nat) : List FlatProduction :=
  (grammar.nonterminals[nonterminal]?).elim [] (·.productions)

end PreparedGrammar

end IncrementalGlr
