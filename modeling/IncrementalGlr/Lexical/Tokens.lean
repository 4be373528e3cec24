import IncrementalGlr.Grammar.Symbols
import IncrementalGlr.Lexical.Automaton

/-!
# The tokens of a grammar

Literal strings that the word token matches too become keywords; all other terminals with a regular
expression go into one lexical automaton.
-/

namespace IncrementalGlr

namespace PreparedGrammar

def isKeyword (grammar : PreparedGrammar) (terminal : Terminal) : Bool :=
  match (grammar.word.bind fun word => grammar.terminals[word]?).bind (·.regex) with
  | some word => terminal.isString && !terminal.isExternal && word.matches terminal.name
  | none => false

def keywords (grammar : PreparedGrammar) : List Keyword :=
  (grammar.terminals.toList.zipIdx.filter fun (terminal, _) => grammar.isKeyword terminal).map
    fun (terminal, index) =>
      ⟨terminal.name, grammar.symbolId (.terminal index),
        grammar.reserved.contains terminal.name⟩

/-- Whether terminal `a` is preferred to `b`, or as good, where both match the same text: by
lexical precedence, then strings before others, then in the order of the grammar. -/
def preferred (a b : Terminal × Nat) : Bool :=
  if a.1.precedence ≠ b.1.precedence then b.1.precedence < a.1.precedence
  else if a.1.isString != b.1.isString then a.1.isString
  else a.2 ≤ b.2

def ranks (grammar : PreparedGrammar) : Array Nat :=
  let order := (grammar.terminals.toList.zipIdx.mergeSort preferred).zipIdx
  order.foldl (fun ranks ((_, index), rank) => ranks.setIfInBounds index rank)
    (Array.replicate grammar.terminals.size 0)

def nfaOf : List (Terminal × Nat) → List Nat → Nfa → List Nat × Nfa
  | [], entries, nfa => (entries.reverse, nfa)
  | (terminal, index) :: rest, entries, nfa =>
    match terminal.regex with
    | none => nfaOf rest entries nfa
    | some regex =>
      let (accept, nfa) := nfa.push (.accept index)
      let (entry, nfa) := nfa.addRegex regex accept
      nfaOf rest (entry :: entries) nfa

def checkNonEmpty (terminal : Terminal) : Except GrammarError Unit :=
  if terminal.regex.any (·.matches "") then .error (.emptyToken terminal.name) else .ok ()

def lexStates (grammar : PreparedGrammar) : Except GrammarError (Array LexState) := do
  for terminal in grammar.terminals do
    checkNonEmpty terminal
  let plain := grammar.terminals.toList.zipIdx.filter fun (terminal, _) =>
    !grammar.isKeyword terminal
  let (entries, nfa) := nfaOf plain [] Nfa.empty
  let (start, nfa) := nfa.push (.split entries)
  let ranks := grammar.ranks
  let states := (ClosedNfa.ofNfa nfa).determinize start
    (fun terminal => grammar.symbolId (.terminal terminal)) (fun terminal => ranks.getD terminal 0)
  let _ ← checkSize .lexerStates states.size
  return states

end PreparedGrammar

end IncrementalGlr
