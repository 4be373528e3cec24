import Mathlib
import IncrementalGlr.Proofs.Table.Automaton

/-!
# Reported conflicts

The report of a compiled grammar, read off its table. It lists the cells in which more than one
action is left beside accepting, state by state and terminal by terminal, and describes those
actions in their order. So it has every cell with more than one action but those of two actions of
which one accepts.
-/

namespace IncrementalGlr

namespace Table

variable (table : Table)

def symbolName (symbol : SymbolId) : String := (table.symbols[symbol.index]?).elim "" (·.name)

def describeAction : Action → String
  | .shift _ => "shift"
  | .reduce symbol childCount _ _ =>
    s!"reduce {table.symbolName symbol} ({childCount.toNat} children)"
  | .accept => "accept"

def cells : List (StateId × SymbolId) :=
  (List.range table.stateCount.toNat).flatMap fun state =>
    (List.range table.terminalCount.toNat).map fun terminal =>
      (StateId.ofNat state, SymbolId.ofNat terminal)

def report (state : StateId) (terminal : SymbolId) (actions : List Action) : Conflict :=
  ⟨state.index, table.symbolName terminal, actions.map table.describeAction⟩

def conflict? (state : StateId) (terminal : SymbolId) : Option Conflict :=
  if 1 < (table.actions state terminal).length then
    some (table.report state terminal (table.actions state terminal))
  else none

/-- The report of a cell with more than one action beside accepting. -/
def conflictBesideAccept? (state : StateId) (terminal : SymbolId) : Option Conflict :=
  let actions := (table.actions state terminal).filter fun action => !action.isAccept
  if 1 < actions.length then some (table.report state terminal actions) else none

end Table

namespace PreparedGrammar

variable {grammar : PreparedGrammar} {infos symbols : Array SymbolInfo} {shown : Alias}

theorem getElem?_addAlias {place : Nat} {info : SymbolInfo} (known : infos[place]? = some info)
    (h : addAlias infos shown = .ok symbols) : symbols[place]? = some info := by
  unfold addAlias at h
  split at h
  · obtain ⟨_, _, h⟩ := bind_ok h
    cases h
    exact known
  · obtain ⟨_, _, h⟩ := bind_ok h
    cases h
    have inside := (Array.getElem?_eq_some_iff.1 known).1
    rw [← known, Array.getElem?_push, if_neg (Nat.ne_of_lt inside)]

theorem getElem?_symbols {place : Nat} {info : SymbolInfo}
    (known : grammar.ownSymbols[place]? = some info) (h : grammar.symbols = .ok symbols) :
    symbols[place]? = some info :=
  foldlM_keeps (p := fun infos => infos[place]? = some info)
    (fun _ _ _ _ known ran => getElem?_addAlias known ran) known h

theorem name_ownSymbols_terminal {terminal : Nat} (inside : terminal < grammar.terminalCount) :
    ∃ info, grammar.ownSymbols[terminal]? = some info ∧
      info.name = (LrGrammar.ofGrammar grammar).terminalName terminal := by
  cases terminal with
  | zero => exact ⟨SymbolInfo.ofHidden "end", by simp [ownSymbols], rfl⟩
  | succ place =>
    have inside : place < grammar.terminals.size := Nat.lt_of_succ_lt_succ inside
    refine ⟨⟨grammar.terminals[place].name, grammar.terminals[place].visible,
      grammar.terminals[place].named, false⟩, ?_, ?_⟩
    · simp [ownSymbols, Array.getElem?_append, inside]
    · simp [LrGrammar.terminalName, LrGrammar.ofGrammar, inside]

theorem name_ownSymbols_nonterminal {nonterminal : Nat}
    (inside : nonterminal < grammar.nonterminals.size) :
    ∃ info, grammar.ownSymbols[grammar.terminalCount + nonterminal]? = some info ∧
      info.name = (grammar.nonterminals[nonterminal]?).elim "" (·.name) := by
  refine ⟨⟨grammar.nonterminals[nonterminal].name, grammar.nonterminals[nonterminal].visible,
    true, grammar.nonterminals[nonterminal].supertype⟩, ?_, by simp [inside]⟩
  simp [ownSymbols, terminalCount, Array.getElem?_append, inside]

end PreparedGrammar

namespace LrGrammar

variable {lr : LrGrammar} {id terminal : Nat} {state : LrState} {row : List BitSet}

def resolved (lr : LrGrammar) (state : LrState) (row : List BitSet) (terminal : Nat) :
    List LrAction :=
  lr.resolve state.kernel terminal (shift? state terminal) (lr.reductions state row terminal)

theorem conflicts_stateActions : (lr.stateActions id state row).conflicts =
    (List.range (lr.grammar.terminals.size + 1)).filterMap fun terminal =>
      if 1 < (lr.resolved state row terminal).length then
        some ⟨id, lr.terminalName terminal,
          (lr.resolved state row terminal).map lr.describeAction⟩
      else none := by
  rw [stateActions]
  dsimp only
  rw [List.filter_map, List.map_map, ← List.filterMap_eq_map, List.filterMap_filter]
  refine List.filterMap_congr fun terminal _ => ?_
  simp only [Function.comp_apply, decide_eq_true_eq]
  rfl

end LrGrammar

namespace Generated

variable {grammar : PreparedGrammar} {table : Table} {s : StateId} {state : LrState}

theorem actions_beside_accept (generated : Generated grammar table) (found : At grammar s state)
    {x : SymbolId} (inside : x.index < grammar.terminals.size + 1) :
    ((table.actions s x).filter fun action => !action.isAccept) =
      ((LrGrammar.ofGrammar grammar).resolved state (row grammar s) x.index).map
        (LrAction.lower table.productions) := by
  have kept : ∀ action ∈ ((LrGrammar.ofGrammar grammar).resolved state (row grammar s)
      x.index).map (LrAction.lower table.productions), (!action.isAccept) = true := by
    intro action member
    obtain ⟨lrAction, there, rfl⟩ := List.mem_map.1 member
    rcases LrGrammar.of_mem_resolve there with ⟨_, _, rfl⟩ | ⟨_, _, rfl⟩ <;> rfl
  rw [generated.actions_eq found inside, LrGrammar.cell, ← LrGrammar.resolved, List.map_append,
    List.filter_append, List.filter_eq_self.2 kept]
  split <;> rfl

theorem symbolName_eq (named : grammar.symbols = .ok table.symbols) {x : SymbolId}
    (inside : x.index < grammar.terminals.size + 1) :
    table.symbolName x = (LrGrammar.ofGrammar grammar).terminalName x.index := by
  obtain ⟨info, known, name⟩ := PreparedGrammar.name_ownSymbols_terminal inside
  rw [Table.symbolName, PreparedGrammar.getElem?_symbols known named]
  exact name

theorem describeAction_lower (generated : Generated grammar table)
    (named : grammar.symbols = .ok table.symbols) {terminal : Nat} {action : LrAction}
    (fits : action.Fits table.productions)
    (justified : (LrGrammar.ofGrammar grammar).Justified state terminal action) :
    table.describeAction (action.lower table.productions)
      = (LrGrammar.ofGrammar grammar).describeAction action := by
  cases justified with
  | shift => rfl
  | accept => rfl
  | @reduce production known complete =>
    obtain ⟨⟨nonterminal, flat⟩, numbered⟩ :
        ∃ entry, (LrGrammar.ofGrammar grammar).productions[production]? = some entry :=
      ⟨_, Array.getElem?_eq_getElem known⟩
    obtain ⟨_, lower, _, short⟩ := generated.lower_reduce numbered fits
    have inside := (generated.of_numbered numbered).2.1
    obtain ⟨info, listed, name⟩ := PreparedGrammar.name_ownSymbols_nonterminal inside
    rw [lower, Table.describeAction, Table.symbolName, generated.index_nonterminal inside,
      LrGrammar.describeAction, numbered, toNat_ofNat short]
    rw [PreparedGrammar.terminalCount] at listed
    rw [PreparedGrammar.getElem?_symbols listed named, Option.elim_some, name]
    rfl

theorem conflicts_row (generated : Generated grammar table)
    (named : grammar.symbols = .ok table.symbols) (found : At grammar s state) :
    ((LrGrammar.ofGrammar grammar).stateActions s.index state (row grammar s)).conflicts =
      (List.range table.terminalCount.toNat).filterMap fun terminal =>
        table.conflictBesideAccept? s (SymbolId.ofNat terminal) := by
  have symbols := generated.lowers.symbols
  rw [LrGrammar.conflicts_stateActions, generated.lowers.terminals]
  refine List.filterMap_congr fun terminal member => ?_
  have inside : terminal < grammar.terminals.size + 1 := List.mem_range.1 member
  have index : (SymbolId.ofNat terminal).index = terminal := SymbolId.index_ofNat (by omega)
  have left := generated.actions_beside_accept found (x := SymbolId.ofNat terminal) (by rwa [index])
  rw [index] at left
  have described : (((LrGrammar.ofGrammar grammar).resolved state (row grammar s) terminal).map
      (LrAction.lower table.productions)).map table.describeAction
        = ((LrGrammar.ofGrammar grammar).resolved state (row grammar s) terminal).map
            (LrGrammar.ofGrammar grammar).describeAction := by
    rw [List.map_map]
    refine List.map_congr_left fun action there => ?_
    have member : action ∈ (LrGrammar.ofGrammar grammar).cell state (row grammar s) terminal :=
      List.mem_append_right _ there
    exact generated.describeAction_lower named (generated.fits_of_mem_cell found inside member)
      (LrGrammar.justified_of_mem_cell generated.closed.numbered (generated.isAutomaton.proper found)
        (generated.length_row found) (generated.nodup_transitions found) member)
  rw [Table.conflictBesideAccept?, left, List.length_map, Table.report, described,
    symbolName_eq named (by rwa [index]), index]

theorem conflicts_automaton_eq (generated : Generated grammar table)
    (named : grammar.symbols = .ok table.symbols) :
    (LrGrammar.ofGrammar grammar).automaton.toList.flatMap (·.conflicts) =
      table.cells.filterMap fun cell => table.conflictBesideAccept? cell.1 cell.2 := by
  have rows : (LrGrammar.ofGrammar grammar).automaton.toList.map (·.conflicts) =
      (List.range table.stateCount.toNat).map fun id =>
        (List.range table.terminalCount.toNat).filterMap fun terminal =>
          table.conflictBesideAccept? (StateId.ofNat id) (SymbolId.ofNat terminal) := by
    have states := generated.lowers.states
    refine List.ext_getElem? fun id => ?_
    rw [List.getElem?_map, List.getElem?_map]
    by_cases below : id < table.stateCount.toNat
    · have bound := generated.lowers.stateBound
      have index : (StateId.ofNat id).index = id := StateId.index_ofNat (by omega)
      obtain ⟨state, found⟩ := generated.exists_at (s := StateId.ofNat id) (by rwa [index])
      have entry := automaton_eq found
      have reported := generated.conflicts_row named found
      rw [index] at entry reported
      rw [entry, Option.map_some, reported, List.getElem?_range below, Option.map_some]
    · rw [List.getElem?_eq_none_iff.2 (by simpa [← states] using below),
        List.getElem?_eq_none_iff.2 (by simpa using below)]
      rfl
  rw [List.flatMap_def, rows, ← List.flatMap_def, Table.cells, List.filterMap_flatMap]
  refine List.flatMap_congr fun id _ => ?_
  rw [List.filterMap_map]
  rfl

end Generated

variable {grammar : Grammar} {compiled : Compiled}

/-- The conflicts of a compiled grammar are the cells of its table with more than one action beside
accepting, in the order of the table. -/
theorem conflicts_eq (h : grammar.compile = .ok compiled) :
    compiled.conflicts =
      compiled.table.cells.filterMap fun cell =>
        compiled.table.conflictBesideAccept? cell.1 cell.2 := by
  obtain ⟨prepared, prepare, laidOut⟩ := laidOut_of_compile h
  rw [conflicts_of_compile prepare h]
  exact (laidOut.generated (Grammar.prepare_sound prepare).1).conflicts_automaton_eq
    laidOut.symbols.1

/-- Where accepting has its cells for itself, the conflicts are the cells of the table with more
than one action, with all of their actions. -/
theorem conflicts_eq_of_accept_alone (h : grammar.compile = .ok compiled)
    (alone : ∀ s x, Action.accept ∈ compiled.table.actions s x →
      compiled.table.actions s x = [Action.accept]) :
    compiled.conflicts =
      compiled.table.cells.filterMap fun cell => compiled.table.conflict? cell.1 cell.2 := by
  rw [conflicts_eq h]
  refine List.filterMap_congr fun cell _ => ?_
  obtain ⟨s, x⟩ := cell
  by_cases accepts : Action.accept ∈ compiled.table.actions s x
  · simp [Table.conflictBesideAccept?, Table.conflict?, alone s x accepts, Action.isAccept]
  · have whole : ((compiled.table.actions s x).filter fun action => !action.isAccept)
        = compiled.table.actions s x := by
      refine List.filter_eq_self.2 fun action member => ?_
      cases action with
      | shift => rfl
      | reduce => rfl
      | accept => exact absurd member accepts
    rw [Table.conflictBesideAccept?, whole, Table.conflict?]

def cyclicGrammar : Grammar where
  name := "cyclic"
  rules := [("s", .choice [.symbol "s", .string "a"])]
  extras := []
  externals := []
  word := none
  supertypes := []
  reserved := []
  precedences := []

set_option maxRecDepth 4000 in
/-- Behind an `s`, the end of input is accepted or makes another `s` of it, and nothing is reported.
-/
theorem conflicts_cyclic : ∃ compiled, cyclicGrammar.compile = .ok compiled ∧
    compiled.conflicts = [] ∧ (compiled.table.actions ⟨2⟩ SymbolId.endOfInput).length = 2 := by
  have runs : (cyclicGrammar.compile.toOption.map fun compiled =>
      (compiled.conflicts, (compiled.table.actions ⟨2⟩ SymbolId.endOfInput).length))
        = some ([], 2) := by cbv
  obtain ⟨compiled, compile, same⟩ := Option.map_eq_some_iff.1 runs
  obtain ⟨none, two⟩ := Prod.mk.inj same
  exact ⟨compiled, ok_of_toOption compile, none, two⟩

end IncrementalGlr
