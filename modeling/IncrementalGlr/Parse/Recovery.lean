import IncrementalGlr.Parse.Version

/-!
# Error recovery

When no version has an action on its lookahead, the best version is mended in the first way that
applies:

1. Tokens that are not in the text are inserted, so that the lookahead fits behind them. An inserted
   token costs `ErrorCost.missingTree + ErrorCost.recovery`. This way is only taken if it costs at
   most `ErrorCost.recovery` more than the second.
2. The subtrees on top of the stack go into an ERROR node, so that the lookahead fits the state
   below them, or the lookahead itself goes into an ERROR node; the cheaper of the two.
3. At the end of the text, where neither is possible, everything becomes one ERROR node.

Whether a token fits is tried on the stack and states above it, without building trees.
-/

namespace IncrementalGlr

def Action.reduction? : Action → Option (SymbolId × UInt16 × ProductionId)
  | .reduce symbol childCount _ production => some (symbol, childCount, production)
  | _ => none

structure Simulation where
  base : Stack
  pushed : List StateId

namespace Simulation

def ofStack (stack : Stack) : Simulation := ⟨stack, []⟩

def state (simulation : Simulation) : StateId :=
  simulation.pushed.head?.getD simulation.base.state

/-- Takes one state off. Extras on the stack go with the subtree below them. -/
def popOne (simulation : Simulation) : Option Simulation :=
  match simulation.pushed with
  | _ :: pushed => some { simulation with pushed }
  | [] =>
    match simulation.base.dropWhile (·.subtree.isExtra) with
    | _ :: below => some ⟨below, []⟩
    | [] => none

def pop : Nat → Simulation → Option Simulation
  | 0, simulation => some simulation
  | count + 1, simulation => simulation.popOne.bind (pop count)

def push (simulation : Simulation) (state : StateId) : Simulation :=
  { simulation with pushed := state :: simulation.pushed }

def reduce? (language : Language) (actions : List Action) (simulation : Simulation) :
    Option Simulation := do
  let (symbol, childCount, _) ← actions.findSome? Action.reduction?
  let below ← simulation.pop childCount.toNat
  let next ← language.goto? below.state symbol
  return below.push next

def shift? (language : Language) (terminal : SymbolId) : Nat → Simulation → Option Simulation
  | 0, _ => none
  | budget + 1, simulation =>
    let actions := language.actions simulation.state terminal
    match actions.findSome? Action.shiftTarget? with
    | some next => some (simulation.push next)
    | none =>
      match simulation.reduce? language actions with
      | some reduced => shift? language terminal budget reduced
      | none => none

def fits (language : Language) (terminal : SymbolId) : Nat → Simulation → Bool
  | 0, _ => false
  | budget + 1, simulation =>
    let actions := language.actions simulation.state terminal
    actions.any (fun action => action.shiftTarget?.isSome || action.isAccept)
      || match simulation.reduce? language actions with
        | some reduced => fits language terminal budget reduced
        | none => false

end Simulation

namespace ParseInput

def insertable (input : ParseInput) : List SymbolId :=
  ((List.range input.language.table.terminalCount.toNat).drop 1).map SymbolId.ofNat
    |>.filter fun terminal => !input.language.isExtra terminal

/-- The first `count` terminals, in the order of their numbers, that let `wanted` fit behind
them. -/
def insertion? (input : ParseInput) (wanted : SymbolId) :
    Nat → Simulation → Option (List SymbolId)
  | 0, simulation =>
    if simulation.fits input.language wanted input.options.maxReduceSteps then some [] else none
  | count + 1, simulation =>
    input.insertable.findSome? fun terminal => do
      let next ← simulation.shift? input.language terminal input.options.maxReduceSteps
      let rest ← insertion? input wanted count next
      return terminal :: rest

def shortestInsertion? (input : ParseInput) (wanted : SymbolId) (simulation : Simulation) :
    Nat → Nat → Option (List SymbolId)
  | 0, _ => none
  | choices + 1, count =>
    match input.insertion? wanted count simulation with
    | some terminals => some terminals
    | none => shortestInsertion? input wanted simulation choices (count + 1)

/-- The cheapest ERROR node of subtrees on top of the stack below which `wanted` fits, of equally
cheap ones the smallest. -/
def cheapestFold? (input : ParseInput) (wanted : SymbolId) (stack : Stack) :
    Option (Stack × Subtree) :=
  (List.range (min input.options.maxPopDepth stack.length)).foldl
    (fun best depth =>
      match stack.popEntries (depth + 1) with
      | some (children, below) =>
        if (Simulation.ofStack below).fits input.language wanted input.options.maxReduceSteps then
          let error := Subtree.errorNode input.language children
          if best.all fun other => error.errorCost < other.2.errorCost then some (below, error)
          else best
        else best
      | none => best)
    none

def insertMissing (input : ParseInput) (terminal : SymbolId) (reach : Nat) : Nat → Stack → Stack
  | 0, stack => stack
  | budget + 1, stack =>
    let actions := input.language.actions stack.state terminal
    match actions.findSome? Action.shiftTarget? with
    | some next => stack.push (Subtree.missing input.language terminal stack.state) next
    | none =>
      match actions.findSome? Action.reduction? with
      | some (symbol, childCount, production) =>
        match input.reduce stack reach true symbol childCount production with
        | some reduced => insertMissing input terminal reach budget reduced
        | none => stack
      | none => stack

/-- Puts a token into an ERROR node. An ERROR node on top of the stack is extended, together with
the extras behind it. -/
def skip (input : ParseInput) (version : Version) (token : Token) : Version :=
  let stack := version.stack
  let leaf := Subtree.leaf input.language token stack.state false
  let isPassed (entry : StackEntry) : Bool := entry.subtree.isExtra && !entry.subtree.isError
  let single := version.shift (Subtree.errorNode input.language [leaf]) stack.state
  match stack.dropWhile isPassed with
  | top :: below =>
    if top.subtree.isError && !top.subtree.isLeaf then
      let children := top.subtree.children ++ Stack.subtrees (stack.takeWhile isPassed) ++ [leaf]
      { version with stack := below }.shift (Subtree.errorNode input.language children)
        (Stack.state below)
    else single
  | [] => single

inductive Mended where
  | version (version : Version)
  | root (root : Subtree)

def skipCost? (input : ParseInput) (state : StateId) (token : Token) : Option Nat :=
  if token.isEnd then none
  else some (Subtree.errorNode input.language
    [Subtree.leaf input.language token state false]).errorCost

def giveUp (input : ParseInput) (version : Version) (token : Token)
    (fold : Option (Stack × Subtree)) (skipCost : Option Nat) : Mended :=
  match fold, skipCost with
  | some (below, error), skipCost =>
    if skipCost.any (· < error.errorCost) then .version (input.skip version token)
    else .version { version with stack := below.push error below.state }
  | none, some _ => .version (input.skip version token)
  | none, none => .root (input.errorRoot version.stack)

def nextToken (input : ParseInput) (version : Version) : Token :=
  match version.lookahead with
  | some (.token token) => token
  | _ => input.lex version.stack (version.nextLexMode input.language)

def recover (input : ParseInput) (version : Version) : Mended :=
  let stack := version.stack
  let token := input.nextToken version
  if token.isError then
    .version (version.shift (Subtree.leaf input.language token stack.state true) stack.state)
  else
    let version := { version with lookahead := some (.token token) }
    let insertion :=
      input.shortestInsertion? token.symbol (Simulation.ofStack stack) input.options.maxMissing 1
    let fold := input.cheapestFold? token.symbol stack
    let skipCost := input.skipCost? stack.state token
    let costs := (fold.map (·.2.errorCost)).toList ++ skipCost.toList
    let affordable (terminals : List SymbolId) : Bool :=
      costs.all fun cost =>
        toWord ((ErrorCost.missingTree + ErrorCost.recovery) * terminals.length)
          ≤ toWord (cost + ErrorCost.recovery)
    match insertion with
    | some terminals =>
      if affordable terminals then
        .version { version with
          stack := terminals.foldl
            (fun stack terminal =>
              input.insertMissing terminal token.reach input.options.maxReduceSteps stack)
            stack }
      else input.giveUp version token fold skipCost
    | none => input.giveUp version token fold skipCost

end ParseInput

end IncrementalGlr
