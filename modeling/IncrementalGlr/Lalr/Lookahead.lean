import IncrementalGlr.Lalr.Items

/-!
# Lookaheads

The terminals that may follow an item in a state, for the items of the kernels. They are the least
sets that hold the end of input for the start and are closed under passing lookaheads on within a
state and along its transitions.
-/

namespace IncrementalGlr

abbrev Lookaheads := Array (List BitSet)

namespace LrGrammar

def follow (lr : LrGrammar) (item : Item) (lookahead : BitSet) : Option (Nat × BitSet) :=
  match lr.rest item with
  | [] => none
  | step :: rest =>
    match step.symbol with
    | .terminal _ => none
    | .nonterminal index =>
      let (first, nullable) := lr.first.ofSteps rest
      some (index, if nullable then first.union lookahead else first)

def addFollows (lr : LrGrammar) (follows : Array BitSet) (items : List (Item × BitSet)) :
    Array BitSet :=
  items.foldl
    (fun follows (item, lookahead) => match lr.follow item lookahead with
      | some (index, set) => follows.modify index fun old => old.union set
      | none => follows)
    follows

/-- The lookaheads of the items at the start of productions in the state of a kernel, by
nonterminal. `called` are the nonterminals whose productions start there. -/
def startLookaheads (lr : LrGrammar) (kernel : List (Item × BitSet)) (called : List Nat) :
    Array BitSet :=
  let size := lr.grammar.nonterminals.size
  let follows := lr.addFollows (Array.replicate size BitSet.empty) kernel
  stabilize
    (fun follows => called.foldl
      (fun follows index =>
        let lookahead := follows.getD index BitSet.empty
        lr.addFollows follows ((lr.startItems index).map fun item => (item, lookahead)))
      follows)
    (size * (lr.grammar.terminals.size + 1) + 1) follows

def lookaheadOf (lr : LrGrammar) (kernel : List (Item × BitSet)) (starts : Array BitSet)
    (item : Item) : BitSet :=
  match kernel.lookup item with
  | some lookahead => lookahead
  | none =>
    match lr.productions[item.production]? with
    | some (nonterminal, _) => starts.getD nonterminal BitSet.empty
    | none => BitSet.empty

def kernelWith (state : LrState) (lookaheads : List BitSet) : List (Item × BitSet) :=
  state.kernel.zip lookaheads

def propagate (lr : LrGrammar) (states : Array LrState) (called : Array (List Nat))
    (lookaheads : Lookaheads) (id : Nat) : Lookaheads :=
  match states[id]? with
  | none => lookaheads
  | some state =>
    let kernel := kernelWith state (lookaheads.getD id [])
    let starts := lr.startLookaheads kernel (called.getD id [])
    state.transitions.foldl
      (fun lookaheads (_, target) =>
        match states[target]? with
        | none => lookaheads
        | some next =>
          let passed := next.kernel.map fun item =>
            lr.lookaheadOf kernel starts ⟨item.production, item.dot - 1⟩
          lookaheads.modify target fun old => List.zipWith BitSet.union old passed)
      lookaheads

def initialLookaheads (states : Array LrState) : Lookaheads :=
  states.mapIdx fun id state =>
    state.kernel.map fun _ => if id = 0 then BitSet.singleton 0 else BitSet.empty

def lookaheads (lr : LrGrammar) (states : Array LrState) : Lookaheads :=
  let called := states.map fun state => (lr.called state.kernel).toList
  let kernelItems := states.foldl (fun count state => count + state.kernel.length) 0
  stabilize
    (fun lookaheads => (List.range states.size).foldl (lr.propagate states called) lookaheads)
    (kernelItems * (lr.grammar.terminals.size + 1) + 1)
    (initialLookaheads states)

end LrGrammar

end IncrementalGlr
