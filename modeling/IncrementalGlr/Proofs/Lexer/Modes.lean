import IncrementalGlr.Proofs.Table.Automaton
import IncrementalGlr.Lexer.Basic

/-!
# Lex modes of states

The lex mode that a language keeps for a state holds the terminals that the state has actions on,
and the extras where they are allowed. No extra is allowed where a token is expected that has to
follow the one before it directly.
-/

namespace IncrementalGlr

namespace LexMode

variable {table : Table} {isExtra : Array Bool}

structure Numbers (table : Table) (isExtra : Array Bool) (count : Nat) (modes : Array LexMode)
    (byState : Array LexModeId) : Prop where
  states : byState.size = count
  few : modes.size ≤ count
  mode : ∀ s < count, ∃ id, byState[s]? = some id ∧
    modes[id.toNat]? = some (ofState table isExtra (StateId.ofNat s))

theorem Numbers.push {count : Nat} {modes grown : Array LexMode} {byState : Array LexModeId}
    (h : Numbers table isExtra count modes byState) {id : LexModeId}
    (few : grown.size ≤ count + 1)
    (kept : ∀ (i : Nat) mode, modes[i]? = some mode → grown[i]? = some mode)
    (known : grown[id.toNat]? = some (ofState table isExtra (StateId.ofNat count))) :
    Numbers table isExtra (count + 1) grown (byState.push id) := by
  refine ⟨by rw [Array.size_push, h.states], few, fun s inside => ?_⟩
  rcases Nat.lt_succ_iff_lt_or_eq.1 inside with old | rfl
  · obtain ⟨other, found, mode⟩ := h.mode s old
    refine ⟨other, ?_, kept _ _ mode⟩
    rwa [Array.getElem?_push_lt (h.states ▸ old), ← Array.getElem?_eq_getElem]
  · refine ⟨id, ?_, known⟩
    rw [← h.states, Array.getElem?_push_size]

theorem numbers_ofStates {count : Nat} (bound : count ≤ 0xFFFF) :
    Numbers table isExtra count (ofStates table isExtra count).1
      (ofStates table isExtra count).2 := by
  induction count with
  | zero => exact ⟨rfl, Nat.le_refl _, fun s absent => absurd absent (Nat.not_lt_zero s)⟩
  | succ count ih =>
    have before := ih (by omega)
    unfold ofStates at before ⊢
    rw [List.range_succ, List.foldl_append]
    generalize (List.range count).foldl _ _ = found at before ⊢
    obtain ⟨modes, byState⟩ := found
    have few := before.few
    dsimp only [List.foldl_cons, List.foldl_nil] at few before ⊢
    split
    · next id known =>
        obtain ⟨inside, same, _⟩ := Array.findIdx?_eq_some_iff_getElem.1 known
        refine before.push (Nat.le_succ_of_le few) (fun _ _ there => there) ?_
        rw [toNat_ofNat (by omega), Array.getElem?_eq_getElem inside, eq_of_beq same]
    · refine before.push (by rw [Array.size_push]; omega)
        (fun _ _ => getElem?_push_of_eq_some) ?_
      rw [toNat_ofNat (by omega), Array.getElem?_push_size]

theorem isValid_ofState {state : StateId} {symbol : SymbolId} :
    (ofState table isExtra state).isValid symbol = true ↔
      symbol.index < table.terminalCount.toNat ∧ symbol ≠ SymbolId.endOfInput ∧
        (table.actions state symbol ≠ [] ∨
          table.allowsExtras.getD state.index false = true ∧
            isExtra.getD symbol.index false = true) := by
  have back : SymbolId.ofNat symbol.index = symbol := by simp [SymbolId.ofNat, SymbolId.index]
  have ends : symbol.index = 0 ↔ symbol = SymbolId.endOfInput :=
    ⟨fun zero => SymbolId.ext_index zero, fun atEnd => by rw [atEnd]; rfl⟩
  rw [isValid, ofState, Array.getD_eq_getD_getElem?, Array.getElem?_ofFn]
  split
  · next inside =>
      simp only [Option.getD_some, Bool.and_eq_true, Bool.or_eq_true, bne_iff_ne, ne_eq, ends,
        Bool.not_eq_true', List.isEmpty_eq_false_iff, back, inside, true_and]
  · next outside => simp [outside]

end LexMode

namespace Language

variable {language : Language}

theorem IsBuilt.lexModes (h : language.IsBuilt) :
    LexMode.Numbers language.table language.isExtraSymbol language.table.stateCount.toNat
      language.lexModes language.stateLexModes := by
  obtain ⟨table, version, scanner, stamp, built⟩ := h
  obtain ⟨_, rfl, _, modes⟩ := build_ok built
  have numbers := @LexMode.numbers_ofStates language.table language.isExtraSymbol _
    (Nat.le_of_lt_succ language.table.stateCount.toNat_lt)
  rwa [← modes] at numbers

theorem IsBuilt.lexMode_eq (h : language.IsBuilt) {state : StateId}
    (inside : state.index < language.table.stateCount.toNat) :
    language.lexMode (language.lexModeOfState state) =
      LexMode.ofState language.table language.isExtraSymbol state := by
  obtain ⟨id, found, mode⟩ := h.lexModes.mode state.index inside
  have known := (Array.getElem?_eq_some_iff.1 mode).1
  rw [lexModeOfState, Array.getD_eq_getD_getElem?, found, Option.getD_some, lexMode,
    Nat.min_eq_left (by omega), Array.getD_eq_getD_getElem?, mode, Option.getD_some,
    StateId.ofNat_index]

end Language

namespace PreparedGrammar

theorem allowsExtras_of_table {grammar : PreparedGrammar} {lr : LrGrammar}
    {automaton : Array LrGrammar.StateActions} {table : Table}
    (h : grammar.table lr automaton = .ok table) :
    table.allowsExtras = automaton.map grammar.allowsExtras := by
  unfold PreparedGrammar.table at h
  obtain ⟨_, _, h⟩ := bind_ok h
  obtain ⟨_, _, h⟩ := bind_ok h
  obtain ⟨_, _, h⟩ := bind_ok h
  obtain ⟨_, _, h⟩ := bind_ok h
  obtain ⟨_, _, h⟩ := bind_ok h
  obtain ⟨_, _, h⟩ := bind_ok h
  obtain ⟨_, _, h⟩ := bind_ok h
  obtain ⟨_, _, h⟩ := bind_ok h
  obtain ⟨_, _, h⟩ := bind_ok h
  cases h
  rfl

/-- The state has an action on a token that has to follow the one before it directly. -/
def Expects (grammar : PreparedGrammar) (table : Table) (state : StateId) : Prop :=
  ∃ (t : Nat) (terminal : Terminal), grammar.terminals[t]? = some terminal ∧
    terminal.immediate = true ∧ table.actions state (grammar.symbolId (.terminal t)) ≠ []

end PreparedGrammar

theorem allowsExtras_of_expects {grammar : Grammar} {prepared : PreparedGrammar}
    {compiled : Compiled} (prepares : grammar.prepare = .ok prepared)
    (compiles : grammar.compile = .ok compiled) {state : StateId}
    (expects : prepared.Expects compiled.table state) :
    compiled.table.allowsExtras.getD state.index false = false := by
  obtain ⟨other, prepares', generated⟩ := generated_of_compile compiles
  cases prepares.symm.trans prepares'
  obtain ⟨t, terminal, known, immediate, acts⟩ := expects
  have inside := (Array.getElem?_eq_some_iff.1 known).1
  obtain ⟨lrState, found, below⟩ := generated.actions_outside acts
  rw [generated.actions_eq found below, generated.index_terminal inside] at acts
  have flags : compiled.table.allowsExtras =
      (LrGrammar.ofGrammar prepared).automaton.map prepared.allowsExtras := by
    unfold Grammar.compile at compiles
    obtain ⟨same, prepares', h⟩ := bind_ok compiles
    cases prepares.symm.trans prepares'
    obtain ⟨table, laidOut, h⟩ := bind_ok h
    cases h
    exact PreparedGrammar.allowsExtras_of_table laidOut
  have here := Generated.automaton_eq found
  rw [Array.getElem?_toList] at here
  rw [flags, Array.getD_eq_getD_getElem?, Array.getElem?_map, here, Option.map_some,
    Option.getD_some, PreparedGrammar.allowsExtras, Bool.not_eq_false', List.any_eq_true]
  refine ⟨(t + 1, (LrGrammar.ofGrammar prepared).cell lrState (Generated.row prepared state)
    (t + 1)), ?_, by simp [known, immediate]⟩
  rw [LrGrammar.actions_stateActions]
  refine List.mem_filter.2 ⟨List.mem_map.2 ⟨t + 1, List.mem_range.2 ?_, rfl⟩, ?_⟩
  · exact Nat.succ_lt_succ inside
  · simpa using acts

theorem isValid_of_expects {grammar : Grammar} {prepared : PreparedGrammar}
    {compiled : Compiled} (prepares : grammar.prepare = .ok prepared)
    (compiles : grammar.compile = .ok compiled) {language : Language} (built : language.IsBuilt)
    (table : language.table = compiled.table) {state : StateId}
    (expects : prepared.Expects language.table state) {symbol : SymbolId}
    (lacking : language.actions state symbol = []) :
    (language.lexMode (language.lexModeOfState state)).isValid symbol = false := by
  have inside : state.index < language.table.stateCount.toNat := by
    obtain ⟨_, _, _, _, acts⟩ := expects
    unfold Table.actions at acts
    split at acts
    · next inside => exact of_decide_eq_true (Bool.and_eq_true_iff.1 inside).2
    · contradiction
  rw [built.lexMode_eq inside, Bool.eq_false_iff, ne_eq, LexMode.isValid_ofState]
  rintro ⟨_, _, acts | ⟨allows, _⟩⟩
  · exact acts lacking
  · rw [table] at allows expects
    rw [allowsExtras_of_expects prepares compiles expects] at allows
    contradiction

end IncrementalGlr
