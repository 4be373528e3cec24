import IncrementalGlr.Lalr.Lookahead
import IncrementalGlr.Lalr.Ranking

/-!
# Actions of the automaton

Where a state could do several things on a terminal, precedence and associativity decide. What they
leave undecided stays in the table as a conflict, for a parser that follows all of it.
-/

namespace IncrementalGlr

inductive LrAction where
  | shift (target : Nat)
  | reduce (production : Nat)
  | accept
  deriving DecidableEq, Repr, Inhabited

structure Conflict where
  state : Nat
  lookahead : String
  actions : List String
  deriving DecidableEq, Repr

def Conflict.message (conflict : Conflict) : String :=
  s!"state {conflict.state} on `{conflict.lookahead}`: " ++ " / ".intercalate conflict.actions

namespace LrGrammar

def reducePrecedence (lr : LrGrammar) (production : Nat) :
    Precedence × Option Associativity :=
  match (lr.stepsOf production).getLast? with
  | some step => (step.precedence, step.associativity)
  | none => (.none, none)

def compare (lr : LrGrammar) (a b : Precedence) : Ordering :=
  comparePrecedence lr.grammar.precedences a b

def strongest (lr : LrGrammar) (reduces : List Nat) : List Nat :=
  reduces.filter fun production =>
    !reduces.any fun other =>
      lr.compare (lr.reducePrecedence other).1 (lr.reducePrecedence production).1 == .gt

/-- The precedence of shifting a terminal: those of the steps before it in the items that can read
it, and none if there are no such items. -/
def shiftPrecedences (lr : LrGrammar) (kernel : List Item) (terminal : Nat) : List Precedence :=
  let found := kernel.filterMap fun item =>
    let steps := lr.stepsOf item.production
    match steps[item.dot]? with
    | some next =>
      if item.dot > 0 && lr.first.startsWith next.symbol terminal then
        (steps[item.dot - 1]?).map (·.precedence)
      else none
    | none => none
  if found.isEmpty then [.none] else found

inductive Verdict where
  | shiftOnly
  | reduceOnly
  | both
  deriving DecidableEq, Repr

def verdict (lr : LrGrammar) (shifts : List Precedence) (production : Nat) : Verdict :=
  let (precedence, associativity) := lr.reducePrecedence production
  let orders := shifts.map fun shift => lr.compare shift precedence
  if orders.all (· == .gt) then .shiftOnly
  else if orders.all (· == .lt) then .reduceOnly
  else if orders.all (· == .eq) then
    match associativity with
    | some .left => .reduceOnly
    | some .right => .shiftOnly
    | none => .both
  else .both

def resolve (lr : LrGrammar) (kernel : List Item) (terminal : Nat) (shift : Option Nat)
    (reduces : List Nat) : List LrAction :=
  let reduces := lr.strongest reduces
  match shift with
  | none => reduces.map .reduce
  | some target =>
    let shifts := lr.shiftPrecedences kernel terminal
    let kept := reduces.filter fun production => lr.verdict shifts production != .shiftOnly
    let dropped := reduces.any fun production => lr.verdict shifts production == .reduceOnly
    (if dropped then [] else [.shift target]) ++ kept.map .reduce

structure StateActions where
  /-- The terminals, as numbered in tables, with something to do on them, in ascending order. -/
  actions : List (Nat × List LrAction)
  gotos : List (Nat × Nat)
  conflicts : List Conflict
  deriving Repr, Inhabited

def describeAction (lr : LrGrammar) : LrAction → String
  | .shift _ => "shift"
  | .reduce production =>
    match lr.productions[production]? with
    | some (index, production) =>
      let name := (lr.grammar.nonterminals[index]?).elim "" (·.name)
      s!"reduce {name} ({production.steps.length} children)"
    | none => "reduce"
  | .accept => "accept"

def terminalName (lr : LrGrammar) : Nat → String
  | 0 => "end"
  | terminal + 1 => (lr.grammar.terminals[terminal]?).elim "" (·.name)

def completeItems (lr : LrGrammar) (kernel : List (Item × BitSet)) (called : List Nat) :
    List (Nat × BitSet) :=
  let starts := lr.startLookaheads kernel called
  let items := kernel.map (·.1) ++ called.flatMap lr.startItems
  ((items.filter fun item => lr.isComplete item && item.production != lr.augmented).map
    fun item => (item.production, lr.lookaheadOf kernel starts item)).mergeSort
      fun a b => a.1 ≤ b.1

def stateActions (lr : LrGrammar) (id : Nat) (state : LrState) (lookaheads : List BitSet) :
    StateActions :=
  let complete := lr.completeItems (kernelWith state lookaheads) (lr.called state.kernel).toList
  let accepts := state.kernel.contains ⟨lr.augmented, 1⟩
  let cells := (List.range (lr.grammar.terminals.size + 1)).map fun terminal =>
    let accept : List LrAction := if terminal == 0 && accepts then [.accept] else []
    let shift := if terminal == 0 then none
      else state.transitions.lookup (.terminal (terminal - 1))
    let reduces := (complete.filter fun (_, lookahead) => lookahead.contains terminal).map (·.1)
    (terminal, accept, lr.resolve state.kernel terminal shift reduces)
  { actions := (cells.map fun (terminal, accept, resolved) =>
      (terminal, accept ++ resolved)).filter fun (_, actions) => !actions.isEmpty
    gotos := state.transitions.filterMap fun (symbol, target) =>
      match symbol with
      | .terminal _ => none
      | .nonterminal index => some (index, target)
    conflicts := (cells.filter fun (_, _, resolved) => resolved.length > 1).map
      fun (terminal, _, resolved) =>
        ⟨id, lr.terminalName terminal, resolved.map lr.describeAction⟩ }

def automaton (lr : LrGrammar) : Array StateActions :=
  let states := lr.states
  let lookaheads := lr.lookaheads states
  states.mapIdx fun id state => lr.stateActions id state (lookaheads.getD id [])

end LrGrammar

end IncrementalGlr
