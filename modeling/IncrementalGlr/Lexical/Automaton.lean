import IncrementalGlr.Lexical.Nfa
import IncrementalGlr.Table.Basic

/-!
# The lexical automaton

Subset construction. The states of the deterministic automaton are sets of states of the
nondeterministic one, numbered in the order in which they are found.
-/

namespace IncrementalGlr

def dedupSorted {α : Type} [BEq α] : List α → List α
  | [] => []
  | [x] => [x]
  | x :: y :: rest => if x == y then dedupSorted (y :: rest) else x :: dedupSorted (y :: rest)

/-- The code points at which some range starts or has just ended, in ascending order. Between two
of them every set contains all code points or none. -/
def cutPoints (moves : List (CharSet × Nat)) : List Nat :=
  dedupSorted ((moves.flatMap fun move =>
    move.1.ranges.flatMap fun range => [range.1, range.2 + 1]).mergeSort (· ≤ ·))

/-- Adds a transition behind the others, which are listed last first. One that continues the last
one is joined to it. -/
def pushTransition (transitions : List LexTransition) (low high target : Nat) :
    List LexTransition :=
  let new : LexTransition := ⟨UInt32.ofNat low, UInt32.ofNat high, UInt32.ofNat target⟩
  match transitions with
  | [] => [new]
  | last :: rest =>
    if last.target.toNat == target && last.high.toNat + 1 == low then
      { last with high := UInt32.ofNat high } :: rest
    else new :: last :: rest

def numberOf (sets : Array BitSet) (set : BitSet) : Nat × Array BitSet :=
  match sets.findIdx? (· == set) with
  | some id => (id, sets)
  | none => (sets.size, sets.push set)

namespace ClosedNfa

def transitions (closed : ClosedNfa) (sets : Array BitSet) (set : BitSet) :
    Array LexTransition × Array BitSet :=
  let moves := closed.moves set
  let points := cutPoints moves
  let (transitions, sets) := (points.zip points.tail).foldl
    (fun (transitions, sets) (low, next) =>
      let targets := (moves.filter fun move => move.1.contains low).map (·.2)
      if targets.isEmpty then (transitions, sets)
      else
        let (target, sets) := numberOf sets (closed.closure targets)
        (pushTransition transitions low (next - 1) target, sets))
    ([], sets)
  (transitions.reverse.toArray, sets)

def explore (closed : ClosedNfa) (accepts : BitSet → List SymbolId) :
    Nat → Nat → Array BitSet → Array LexState → Array LexState
  | 0, _, _, states => states
  | fuel + 1, index, sets, states =>
    match sets[index]? with
    | none => states
    | some set =>
      let (transitions, sets) := closed.transitions sets set
      explore closed accepts fuel (index + 1) sets (states.push ⟨transitions, accepts set⟩)

/-- The deterministic automaton from `entry` on, in which state 0 is the start. Terminals of lower
rank come first where several are accepted. There are no more states than sets. -/
def determinize (closed : ClosedNfa) (entry : Nat) (symbol : Nat → SymbolId) (rank : Nat → Nat) :
    Array LexState :=
  let accepts (set : BitSet) : List SymbolId :=
    (dedupSorted ((closed.accepted set).mergeSort fun a b => rank a ≤ rank b)).map symbol
  closed.explore accepts (1 <<< closed.nfa.states.size) 0 #[closed.closure [entry]] #[]

end ClosedNfa

end IncrementalGlr
