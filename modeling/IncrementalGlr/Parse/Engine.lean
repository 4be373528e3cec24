import IncrementalGlr.Parse.Recovery
import IncrementalGlr.Parse.Reuse

/-!
# The parsing engine

A parse goes in rounds. In a round every version reduces until it shifts one lookahead, is accepted,
or has no action. A cell of the table with several actions forks the version. After the round,
versions without an action are dropped if another version shifted; if none did and none was
accepted, the best of them is mended. Versions that agree in all that follows are merged.

The engine works in small steps, each of which changes the first waiting version, and `run` repeats
them.
-/

namespace IncrementalGlr

inductive Outcome where
  | shifted
  | stuck
  | accepted
  deriving DecidableEq, Repr

structure Engine where
  passed : List (Outcome × Version)
  waiting : List Version
  reductions : Nat
  reuse : Option ReuseCursor
  blockedAt : Option Nat
  stats : ReuseStats
  finished : Option Subtree

namespace Engine

def start (reuse : Option ReuseCursor) (stats : ReuseStats) : Engine where
  passed := []
  waiting := [Version.start]
  reductions := 0
  reuse
  blockedAt := none
  stats
  finished := none

def versionCount (engine : Engine) : Nat := engine.passed.length + engine.waiting.length

/-! ## The current version

The functions below take the current version, as it is now, and the versions that wait behind it. -/

def settle (engine : Engine) (outcome : Outcome) (version : Version) (rest : List Version) :
    Engine :=
  { engine with passed := engine.passed ++ [(outcome, version)], waiting := rest, reductions := 0 }

def proceed (engine : Engine) (version : Version) (rest : List Version) : Engine :=
  { engine with waiting := version :: rest }

/-- The versions that wait, with forks of the current version behind them. There are at most four
times as many versions as are kept after a round; what is more is dropped. -/
def fork (engine : Engine) (input : ParseInput) (version : Version) (pushed : List Stack)
    (rest : List Version) : List Version :=
  let room := 4 * input.options.maxVersions - engine.versionCount
  rest ++ (pushed.take room).map fun stack => { version with stack }

/-- Keeps the better one of the accepted roots, the first of equals. -/
def finish (engine : Engine) (root : Subtree) : Engine :=
  if engine.finished.all fun other => root.rank.beats other.rank then
    { engine with finished := some root }
  else engine

/-- Whether the parser would build a subtree of the old tree again, as far as can be told before
its actions are tried. `scannerState` is what the subtree was lexed with, `expected` what it would
be lexed with now. -/
def isReusable (input : ParseInput) (mode : LexModeId) (expected : Option ScannerState)
    (subtree : Subtree) (scannerState : Option ScannerState) : Bool :=
  let first := subtree.firstLeaf
  !subtree.isChanged && subtree.errorCost == 0 && !subtree.isFragile && !subtree.size.isZero
    && (subtree.isLeaf || !first.isExtra) && input.language.isTerminal first.symbol
    && first.lexMode == mode && scannerState == expected

def lastDescendant : Nat → Subtree → Subtree
  | 0, subtree => subtree
  | fuel + 1, subtree =>
    match subtree.children.reverse.find? fun child => !child.isExtra with
    | some child => lastDescendant fuel child
    | none => subtree

/-- The lex mode behind a subtree of the old tree: that of the state that its last token was
shifted to. -/
def followMode? (language : Language) (subtree : Subtree) : Option LexModeId :=
  let last := lastDescendant subtree.height subtree
  if last.isLeaf && language.isTerminal last.symbol then
    ((language.actions last.parseState last.symbol).findSome? Action.shiftTarget?).map
      language.lexModeOfState
  else none

def takeOver (engine : Engine) (version : Version) (rest : List Version) (subtree : Subtree)
    (next : StateId) (lexMode : Option LexModeId) : Engine :=
  let shifted := version.shift subtree next
  { engine with
    stats := engine.stats.record subtree
    reuse := engine.reuse.map ReuseCursor.advance }.settle .shifted
      { shifted with lexMode := lexMode.or shifted.lexMode } rest

/-- Turns a subtree of the old tree down. The first of its children is offered next, if it has
one; if not, nothing more is taken over at this position. -/
def turnDown (engine : Engine) (version : Version) (rest : List Version) : Engine :=
  let engine := engine.proceed { version with lookahead := none } rest
  match engine.reuse.bind ReuseCursor.descend? with
  | some cursor => { engine with reuse := some cursor }
  | none => { engine with blockedAt := some version.stack.position.bytes }

/-- A subtree of the old tree for the current version, if there is one, and the place in the old
tree after looking for it. It is taken only while there is a single version. -/
def offer (engine : Engine) (input : ParseInput) (version : Version) (mode : LexModeId) :
    Option Subtree × Option ReuseCursor :=
  let position := version.stack.position.bytes
  if engine.versionCount == 1 && engine.blockedAt != some position then
    match engine.reuse with
    | some cursor =>
      let (found, cursor) := cursor.search position
        (isReusable input mode (input.scannerState version.stack))
      (found, some cursor)
    | none => (none, none)
  else (none, engine.reuse)

def look (engine : Engine) (input : ParseInput) (version : Version) (rest : List Version) :
    Engine :=
  let mode := version.nextLexMode input.language
  let (found, reuse) := engine.offer input version mode
  let lookahead := match found with
    | some subtree => Lookahead.reused subtree
    | none => Lookahead.token (input.lex version.stack mode)
  { engine with reuse }.proceed
    { version with lookahead := some lookahead, lexMode := some mode } rest

/-- Performs the actions on the lookahead: reductions first, each on the stack as it was, then the
shift. -/
def act (engine : Engine) (input : ParseInput) (version : Version) (rest : List Version)
    (lookahead : Lookahead) (actions : List Action) : Engine :=
  let stack := version.stack
  let reach := lookahead.reach stack.position
  let isFragile := actions.length > 1 || engine.versionCount > 1
  let reductions := actions.filterMap Action.reduction?
  let reduced := reductions.filterMap fun (symbol, childCount, production) =>
    input.reduce stack reach isFragile symbol childCount production
  let count := engine.reductions + reductions.length
  if actions.any (·.isAccept) then
    (engine.finish (input.root stack)).settle .accepted version rest
  else if count > input.options.maxReduceSteps then engine.settle .stuck version rest
  else
    match (actions.filterMap Action.shiftTarget?).getLast? with
    | some next =>
      let rest := engine.fork input version reduced rest
      match lookahead with
      | .token token =>
        engine.settle .shifted
          (version.shift (Subtree.leaf input.language token stack.state false) next) rest
      | .reused subtree =>
        engine.takeOver version rest ((subtree.withParseState stack.state).withExtra false) next
          none
    | none =>
      match reduced with
      | first :: others =>
        let rest := engine.fork input version others rest
        { engine with reductions := count }.proceed { version with stack := first } rest
      | [] => engine.settle .stuck version rest

/-- Advances a version in front of a token. A token without an action is shifted if it is an extra,
and lexed anew if reductions led to a state with another lex mode. -/
def advanceToken (engine : Engine) (input : ParseInput) (version : Version) (rest : List Version)
    (token : Token) : Engine :=
  let language := input.language
  let state := version.state
  match language.actions state token.symbol with
  | [] =>
    let mode := language.lexModeOfState state
    if language.isExtra token.symbol then
      engine.settle .shifted (version.shift (Subtree.leaf language token state true) state) rest
    else if !token.isEnd && token.lexMode != mode then
      engine.proceed
        { version with lookahead := some (.token (input.lex version.stack mode))
                       lexMode := some mode } rest
    else engine.settle .stuck version rest
  | actions => engine.act input version rest (.token token) actions

/-- Advances a version in front of a subtree of the old tree. What the table does not decide alone
is turned down. A whole node is shifted where it was built in the same state. -/
def advanceReused (engine : Engine) (input : ParseInput) (version : Version) (rest : List Version)
    (subtree : Subtree) : Engine :=
  let language := input.language
  let state := version.state
  match language.actions state subtree.firstLeaf.symbol with
  | [] =>
    if subtree.isLeaf && language.isExtra subtree.symbol then
      engine.takeOver version rest ((subtree.withParseState state).withExtra true) state none
    else engine.turnDown version rest
  | [action] =>
    if !subtree.isLeaf && action.shiftTarget?.isSome then
      let next := if state == subtree.parseState then language.goto? state subtree.symbol else none
      match next, followMode? language subtree with
      | some next, some mode => engine.takeOver version rest subtree next (some mode)
      | _, _ => engine.turnDown version rest
    else engine.act input version rest (.reused subtree) [action]
  | _ => engine.turnDown version rest

def advance (engine : Engine) (input : ParseInput) (version : Version) (rest : List Version) :
    Engine :=
  match version.lookahead with
  | none => engine.look input version rest
  | some (.token token) => engine.advanceToken input version rest token
  | some (.reused subtree) => engine.advanceReused input version rest subtree

/-- The best version, the first of equals. -/
def best? (versions : List Version) : Option Version :=
  versions.foldl
    (fun best version =>
      if best.all fun other : Version => version.stack.rank.beats other.stack.rank then
        some version
      else best)
    none

/-- Two versions that will do the same from here on. -/
def isDuplicate (version other : Version) : Bool :=
  version.state == other.state
    && version.stack.position.bytes == other.stack.position.bytes
    && version.stack.sameStates other.stack

def mergeInto : List Version → Version → List Version
  | [], version => [version]
  | other :: rest, version =>
    if isDuplicate other version then
      (if version.stack.rank.beats other.stack.rank then version else other) :: rest
    else other :: mergeInto rest version

/-- Merges duplicates and keeps the best versions, at least one. -/
def condense (input : ParseInput) (versions : List Version) : List Version :=
  let merged := versions.foldl mergeInto []
  if merged.length > input.options.maxVersions then
    (merged.mergeSort fun a b => !b.stack.rank.beats a.stack.rank).take
      (max input.options.maxVersions 1)
  else merged

def survivors (engine : Engine) (input : ParseInput) : Engine × List Version :=
  let alive := engine.passed.filter fun (outcome, _) => outcome != .accepted
  match (alive.filter fun (outcome, _) => outcome == .shifted).map (·.2) with
  | first :: others => (engine, first :: others)
  | [] =>
    if engine.finished.isSome then (engine, [])
    else
      match best? (alive.map (·.2)) with
      | none => (engine, [])
      | some version =>
        match input.recover version with
        | .version mended => (engine, [mended])
        | .root root => (engine.finish root, [])

/-- Ends a round and starts the next one. Versions that cannot be better than the accepted root are
dropped. -/
def endRound (engine : Engine) (input : ParseInput) : Engine :=
  let (engine, versions) := engine.survivors input
  let versions := versions.filter fun version =>
    engine.finished.all fun root => version.stack.errorCost < root.errorCost
  { engine with passed := [], waiting := condense input versions, reductions := 0 }

def isDone (engine : Engine) : Bool := engine.passed.isEmpty && engine.waiting.isEmpty

def step (engine : Engine) (input : ParseInput) : Engine :=
  match engine.waiting with
  | version :: rest => engine.advance input version rest
  | [] => engine.endRound input

def result (engine : Engine) (input : ParseInput) : Subtree :=
  engine.finished.getD (Subtree.errorNode input.language [])

def run (input : ParseInput) : Nat → Engine → Option Engine
  | 0, _ => none
  | fuel + 1, engine =>
    if engine.isDone then some engine else run input fuel (engine.step input)

end Engine

end IncrementalGlr
