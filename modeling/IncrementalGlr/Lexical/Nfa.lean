import IncrementalGlr.Lexical.Regex
import IncrementalGlr.BitSet
import IncrementalGlr.Fixpoint

/-!
# Nondeterministic automata

Regular expressions become one automaton with an accepting state for each terminal. Expressions are
added back to front, so that every state knows its successor when it is made.
-/

namespace IncrementalGlr

inductive NfaState where
  | advance (chars : CharSet) (next : Nat)
  | split (targets : List Nat)
  | accept (terminal : Nat)
  deriving Repr, Inhabited

structure Nfa where
  states : Array NfaState
  deriving Repr, Inhabited

namespace Nfa

def empty : Nfa := ⟨#[]⟩

def push (nfa : Nfa) (state : NfaState) : Nat × Nfa :=
  (nfa.states.size, ⟨nfa.states.push state⟩)

def pushTimes (piece : Nat → Nfa → Nat × Nfa) : Nat → Nat → Nfa → Nat × Nfa
  | 0, next, nfa => (next, nfa)
  | count + 1, next, nfa =>
    let (entry, nfa) := piece next nfa
    pushTimes piece count entry nfa

def pushOptional (piece : Nat → Nfa → Nat × Nfa) (next : Nat) : Nat → Nat → Nfa → Nat × Nfa
  | 0, entry, nfa => (entry, nfa)
  | count + 1, entry, nfa =>
    let (body, nfa) := piece entry nfa
    let (entry, nfa) := nfa.push (.split [body, next])
    pushOptional piece next count entry nfa

mutual

def addRegex : Regex → Nat → Nfa → Nat × Nfa
  | .empty, next, nfa => (next, nfa)
  | .set chars, next, nfa => nfa.push (.advance chars next)
  | .seq items, next, nfa => addSeq items next nfa
  | .alt alternatives, next, nfa =>
    let (entries, nfa) := addAlternatives alternatives next nfa
    nfa.push (.split entries)
  | .repetition inner min max, next, nfa =>
    let (tail, nfa) := match max with
      | none =>
        let (hub, nfa) := nfa.push (.split [])
        let (body, nfa) := addRegex inner hub nfa
        (hub, ⟨nfa.states.setIfInBounds hub (.split [body, next])⟩)
      | some max => pushOptional (addRegex inner) next (max - min) next nfa
    pushTimes (addRegex inner) min tail nfa

def addSeq : List Regex → Nat → Nfa → Nat × Nfa
  | [], next, nfa => (next, nfa)
  | item :: rest, next, nfa =>
    let (next, nfa) := addSeq rest next nfa
    addRegex item next nfa

def addAlternatives : List Regex → Nat → Nfa → List Nat × Nfa
  | [], _, nfa => ([], nfa)
  | alternative :: rest, next, nfa =>
    let (entry, nfa) := addRegex alternative next nfa
    let (entries, nfa) := addAlternatives rest next nfa
    (entry :: entries, nfa)

end

def state (nfa : Nfa) (id : Nat) : NfaState := nfa.states.getD id default

def targets (nfa : Nfa) (id : Nat) : List Nat :=
  match nfa.state id with
  | .split targets => targets
  | _ => []

def extendReachable (nfa : Nfa) (reachable : Array BitSet) : Array BitSet :=
  (List.range nfa.states.size).foldl
    (fun reachable id =>
      let set := (nfa.targets id).foldl
        (fun (set : BitSet) target => set.union (reachable.getD target BitSet.empty))
        (reachable.getD id BitSet.empty)
      reachable.setIfInBounds id set)
    reachable

def reachable (nfa : Nfa) : Array BitSet :=
  stabilize nfa.extendReachable (nfa.states.size + 1)
    (Array.ofFn fun (id : Fin nfa.states.size) => BitSet.singleton id.val)

end Nfa

structure ClosedNfa where
  nfa : Nfa
  reachable : Array BitSet

namespace ClosedNfa

def ofNfa (nfa : Nfa) : ClosedNfa := ⟨nfa, nfa.reachable⟩

def closure (closed : ClosedNfa) (states : List Nat) : BitSet :=
  states.foldl (fun (set : BitSet) id => set.union (closed.reachable.getD id BitSet.empty))
    BitSet.empty

def moves (closed : ClosedNfa) (set : BitSet) : List (CharSet × Nat) :=
  set.toList.filterMap fun id =>
    match closed.nfa.state id with
    | .advance chars next => some (chars, next)
    | _ => none

def step (closed : ClosedNfa) (set : BitSet) (c : Nat) : BitSet :=
  closed.closure (((closed.moves set).filter fun move => move.1.contains c).map (·.2))

def accepted (closed : ClosedNfa) (set : BitSet) : List Nat :=
  set.toList.filterMap fun id =>
    match closed.nfa.state id with
    | .accept terminal => some terminal
    | _ => none

end ClosedNfa

def Regex.matches (regex : Regex) (text : String) : Bool :=
  let (accept, nfa) := Nfa.empty.push (.accept 0)
  let (entry, nfa) := Nfa.addRegex regex accept nfa
  let closed := ClosedNfa.ofNfa nfa
  let final := text.toList.foldl (fun set c => closed.step set c.toNat) (closed.closure [entry])
  final.contains accept

end IncrementalGlr
