import Mathlib.Logic.Relation
import IncrementalGlr.Proofs.Parse.Paths

/-!
# A machine with a single stack

What a version of the engine does, with all choices left open: a machine with one stack of states
that lexes on demand, shifts extras in place and performs any one of the actions of a cell. It has
no trees, no limits and no recovery.
-/

namespace IncrementalGlr

namespace Machine

structure Config where
  states : StateTrace
  position : Length
  /-- The mode of the next token: that of the state that the last token was shifted to, extras left
  out. -/
  mode : LexModeId
  token : Option Token
  deriving DecidableEq, Repr

def start (language : Language) : Config :=
  ⟨[], Length.zero, language.lexModeOfState StateId.start, none⟩

def lexAt (input : ParseInput) (position : Length) (mode : LexModeId) : Token :=
  ((Lexer.ofSource input.language input.source).seek position).next mode
    (input.language.lexMode mode) none

def perform (language : Language) (config : Config) (token : Token) : Action → Option Config
  | .shift next =>
    some ⟨next :: config.states, config.position + token.size, language.lexModeOfState next, none⟩
  | .reduce symbol childCount _ _ =>
    let below : StateTrace := config.states.drop childCount.toNat
    if childCount.toNat ≤ config.states.length then
      (language.goto? below.state symbol).map fun next => { config with states := next :: below }
    else none
  | .accept => none

/-- The configurations after one move. A token without an action is shifted if it is an extra, and
lexed anew if reductions led to a state with another lex mode. -/
def successors (input : ParseInput) (config : Config) : List Config :=
  match config.token with
  | none => [{ config with token := some (lexAt input config.position config.mode) }]
  | some token =>
    match input.language.actions config.states.state token.symbol with
    | [] =>
      let mode := input.language.lexModeOfState config.states.state
      if input.language.isExtra token.symbol then
        [{ config with position := config.position + token.size, token := none }]
      else if !token.isEnd && token.lexMode != mode then
        [{ config with mode, token := some (lexAt input config.position mode) }]
      else []
    | actions => actions.filterMap (perform input.language config token)

def isAccepting (language : Language) (config : Config) : Bool :=
  config.token.any fun token =>
    (language.actions config.states.state token.symbol).any (·.isAccept)

def Accepts (input : ParseInput) (config : Config) : Prop :=
  ∃ last, Relation.ReflTransGen (fun before after => after ∈ successors input before) config last ∧
    isAccepting input.language last = true

inductive AcceptsWithin (input : ParseInput) : Nat → Config → Prop
  | here {n : Nat} {config : Config} (accepts : isAccepting input.language config = true) :
      AcceptsWithin input n config
  | move {n : Nat} {config next : Config} (move : next ∈ successors input config)
      (token : next.token.isSome = true) (rest : AcceptsWithin input n next) :
      AcceptsWithin input n config
  | shift {n : Nat} {config next : Config} (move : next ∈ successors input config)
      (spent : next.token = none) (rest : AcceptsWithin input n next) :
      AcceptsWithin input (n + 1) config

theorem Accepts.within {input : ParseInput} {config : Config} (h : Accepts input config) :
    ∃ n, AcceptsWithin input n config := by
  obtain ⟨last, run, accepts⟩ := h
  induction run using Relation.ReflTransGen.head_induction_on with
  | refl => exact ⟨0, .here accepts⟩
  | @head config next move _ ih =>
    obtain ⟨n, rest⟩ := ih
    cases token : next.token with
    | none => exact ⟨n + 1, .shift move token rest⟩
    | some token' => exact ⟨n, .move move (by simp [token]) rest⟩

section Moves

variable {input : ParseInput} {n : Nat} {config : Config} {token : Token}

theorem AcceptsWithin.of_unread (h : AcceptsWithin input n config) (unread : config.token = none) :
    AcceptsWithin input n
      { config with token := some (lexAt input config.position config.mode) } := by
  have only : successors input config
      = [{ config with token := some (lexAt input config.position config.mode) }] := by
    rw [successors, unread]
  cases h with
  | here accepts => simp [isAccepting, unread] at accepts
  | move move _ rest =>
    rw [only, List.mem_singleton] at move
    exact move ▸ rest
  | shift move spent =>
    rw [only, List.mem_singleton] at move
    rw [move] at spent
    contradiction

theorem AcceptsWithin.of_lacking (h : AcceptsWithin input n config)
    (here : config.token = some token)
    (lacking : input.language.actions config.states.state token.symbol = []) :
    input.language.isExtra token.symbol = true ∧
      (∃ m < n, AcceptsWithin input m
        { config with position := config.position + token.size, token := none }) ∨
    input.language.isExtra token.symbol = false ∧
      (!token.isEnd && token.lexMode != input.language.lexModeOfState config.states.state) = true ∧
      AcceptsWithin input n
        { config with
          mode := input.language.lexModeOfState config.states.state
          token := some (lexAt input config.position
            (input.language.lexModeOfState config.states.state)) } := by
  cases h with
  | here accepts => simp [isAccepting, here, lacking] at accepts
  | move move unspent rest =>
    rw [successors, here] at move
    simp only [lacking] at move
    split at move
    · rw [List.mem_singleton.1 move] at unspent
      contradiction
    · next noExtra =>
      split at move
      · next other =>
        rw [List.mem_singleton.1 move] at rest
        exact .inr ⟨by simpa using noExtra, other, rest⟩
      · contradiction
  | shift move spent rest =>
    rw [successors, here] at move
    simp only [lacking] at move
    split at move
    · next isExtra =>
      rw [List.mem_singleton.1 move] at rest
      exact .inl ⟨isExtra, _, Nat.lt_succ_self _, rest⟩
    · split at move
      · rw [List.mem_singleton.1 move] at spent
        contradiction
      · contradiction

theorem AcceptsWithin.of_actions (h : AcceptsWithin input n config)
    (here : config.token = some token)
    (filled : input.language.actions config.states.state token.symbol ≠ []) :
    isAccepting input.language config = true ∨
      ∃ action ∈ input.language.actions config.states.state token.symbol, ∃ next,
        perform input.language config token action = some next ∧
          (next.token.isSome = true ∧ AcceptsWithin input n next ∨
            next.token = none ∧ ∃ m < n, AcceptsWithin input m next) := by
  have all : successors input config = (input.language.actions config.states.state
      token.symbol).filterMap (perform input.language config token) := by
    rw [successors, here]
    dsimp only
    split
    · next lacking => exact absurd lacking filled
    · rfl
  cases h with
  | here accepts => exact .inl accepts
  | move move token rest =>
    rw [all] at move
    obtain ⟨action, chosen, performed⟩ := List.mem_filterMap.1 move
    exact .inr ⟨action, chosen, _, performed, .inl ⟨token, rest⟩⟩
  | shift move spent rest =>
    rw [all] at move
    obtain ⟨action, chosen, performed⟩ := List.mem_filterMap.1 move
    exact .inr ⟨action, chosen, _, performed, .inr ⟨spent, _, Nat.lt_succ_self _, rest⟩⟩

end Moves

def search (input : ParseInput) : Nat → Config → Bool
  | 0, config => isAccepting input.language config
  | moves + 1, config =>
    isAccepting input.language config || (successors input config).any (search input moves)

theorem accepts_of_search {input : ParseInput} {moves : Nat} {config : Config}
    (h : search input moves config = true) : Accepts input config := by
  induction moves generalizing config with
  | zero => exact ⟨config, .refl, h⟩
  | succ moves ih =>
    rcases Bool.or_eq_true_iff.1 h with here | later
    · exact ⟨config, .refl, here⟩
    · obtain ⟨next, move, found⟩ := List.any_eq_true.1 later
      obtain ⟨last, run, accepts⟩ := ih found
      exact ⟨last, .head move run, accepts⟩

end Machine

def Lookahead.token? : Lookahead → Option Token
  | .token lexed => some lexed
  | .reused _ => none

def Version.config (version : Version) (language : Language) : Machine.Config :=
  ⟨version.stack.states, version.stack.position, version.nextLexMode language,
    version.lookahead.bind Lookahead.token?⟩

theorem ParseInput.lex_eq_lexAt {input : ParseInput}
    (none : input.language.externalTokens.isEmpty = true) (stack : Stack) (mode : LexModeId) :
    input.lex stack mode = Machine.lexAt input stack.position mode := by
  rw [lex, scannerState, if_pos none]
  rfl

end IncrementalGlr
