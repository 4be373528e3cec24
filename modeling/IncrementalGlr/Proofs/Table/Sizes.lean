import IncrementalGlr.Proofs.Lexical.Acceptance
import IncrementalGlr.Proofs.Table.Automaton

/-!
# The sizes of a table

Behind the preparation of a grammar there are two reasons for not having a table: a token that
matches the empty text, and a part of the table that is too large for the format. A grammar of
moderate size has one.
-/

namespace IncrementalGlr

structure FailsBySize {α : Type} (result : Except GrammarError α) : Prop where
  tooLarge : ∀ {cause}, result = .error cause → ∃ part count, cause = .tooLarge part count

namespace FailsBySize

variable {α β : Type}

theorem pure (a : α) : FailsBySize (Pure.pure a : Except GrammarError α) := ⟨nofun⟩

theorem bind {x : Except GrammarError α} {f : α → Except GrammarError β} (first : FailsBySize x)
    (rest : ∀ a, FailsBySize (f a)) : FailsBySize (x >>= f) := by
  cases x with
  | error cause =>
    refine ⟨?_⟩
    rintro _ ⟨⟩
    exact first.tooLarge rfl
  | ok a => exact rest a

theorem checkSize (part : TablePart) (count : Nat) :
    FailsBySize (checkSize part count) := by
  unfold IncrementalGlr.checkSize
  split
  · exact ⟨nofun⟩
  · refine ⟨?_⟩
    rintro _ ⟨⟩
    exact ⟨part, count, rfl⟩

theorem foldlM {xs : List α} {f : β → α → Except GrammarError β} (each : ∀ b x, FailsBySize (f b x))
    (first : β) : FailsBySize (xs.foldlM f first) := by
  induction xs generalizing first with
  | nil => exact pure first
  | cons x xs ih =>
    rw [List.foldlM_cons]
    exact (each first x).bind ih

theorem mapM {xs : List α} {f : α → Except GrammarError β} (each : ∀ x, FailsBySize (f x)) :
    FailsBySize (xs.mapM f) := by
  induction xs with
  | nil => exact pure []
  | cons x xs ih =>
    rw [List.mapM_cons]
    exact (each x).bind fun y => ih.bind fun ys => pure (y :: ys)

end FailsBySize

namespace PreparedGrammar

variable (grammar : PreparedGrammar)

theorem failsBySize_addAlias (infos : Array SymbolInfo) (shown : Alias) :
    FailsBySize (addAlias infos shown) := by
  unfold addAlias
  split
  · exact (FailsBySize.checkSize ..).bind fun _ => .pure _
  · exact (FailsBySize.checkSize ..).bind fun _ => .pure _

theorem failsBySize_tableAction (productions : Array Production) (action : LrAction) :
    FailsBySize (tableAction productions action) := by
  cases action with
  | shift target => exact (FailsBySize.checkSize ..).bind fun _ => .pure _
  | reduce id =>
    exact (FailsBySize.checkSize ..).bind fun _ => (FailsBySize.checkSize ..).bind fun _ => .pure _
  | accept => exact .pure _

theorem failsBySize_numberOfList (lists : Array (List Action)) (list : List Action) :
    FailsBySize (numberOfList lists list) := by
  unfold numberOfList
  split
  · exact .pure _
  · exact (FailsBySize.checkSize ..).bind fun _ => .pure _

theorem failsBySize_actionRow (productions : Array Production) (lists : Array (List Action))
    (state : LrGrammar.StateActions) :
    FailsBySize (grammar.actionRow productions lists state) :=
  .foldlM (fun _ _ => (FailsBySize.mapM (failsBySize_tableAction productions)).bind fun _ =>
    (failsBySize_numberOfList ..).bind fun _ => .pure _) _

theorem failsBySize_gotoRow (state : LrGrammar.StateActions) :
    FailsBySize (grammar.gotoRow state) :=
  .foldlM (fun _ _ => (FailsBySize.checkSize ..).bind fun _ => .pure _) _

theorem checkNonEmpty_each (nonEmpty : ∀ terminal ∈ grammar.terminals,
    checkNonEmpty terminal = .ok ()) : (forIn grammar.terminals PUnit.unit fun terminal _ => do
      checkNonEmpty terminal
      return .yield PUnit.unit : Except GrammarError PUnit) = .ok ⟨⟩ := by
  rw [← Array.forIn_toList]
  exact loop_of fun terminal member =>
    bind_of_ok (nonEmpty terminal (Array.mem_toList_iff.1 member)) rfl

theorem failsBySize_lexStates (nonEmpty : ∀ terminal ∈ grammar.terminals,
    checkNonEmpty terminal = .ok ()) : FailsBySize grammar.lexStates := by
  unfold lexStates
  refine FailsBySize.bind ?_ fun _ => (FailsBySize.checkSize ..).bind fun _ => .pure _
  exact grammar.checkNonEmpty_each nonEmpty ▸ .pure _

theorem failsBySize_table (nonEmpty : ∀ terminal ∈ grammar.terminals,
    checkNonEmpty terminal = .ok ()) (lr : LrGrammar) (automaton : Array LrGrammar.StateActions) :
    FailsBySize (grammar.table lr automaton) := by
  have size := FailsBySize.checkSize
  refine (size ..).bind fun _ => ?_
  refine (FailsBySize.foldlM (fun _ _ => failsBySize_addAlias ..) _).bind fun _ => ?_
  refine (size ..).bind fun _ => (size ..).bind fun _ => (size ..).bind fun _ =>
    (size ..).bind fun _ => (size ..).bind fun _ => ?_
  dsimp only
  rw [← Array.foldlM_toList]
  refine (FailsBySize.foldlM (fun _ state => ?_) _).bind fun _ =>
    (grammar.failsBySize_lexStates nonEmpty).bind fun _ => .pure _
  exact (grammar.failsBySize_actionRow ..).bind fun _ =>
    (grammar.failsBySize_gotoRow state).bind fun _ => .pure _

end PreparedGrammar

theorem Grammar.failsBySize_compile {grammar : Grammar} {prepared : PreparedGrammar}
    (prepare : grammar.prepare = .ok prepared)
    (nonEmpty : ∀ terminal ∈ prepared.terminals,
      PreparedGrammar.checkNonEmpty terminal = .ok ()) : FailsBySize grammar.compile := by
  unfold Grammar.compile
  rw [prepare]
  exact (prepared.failsBySize_table nonEmpty _ _).bind fun _ => .pure _

theorem checkSize_of {part : TablePart} {count : Nat} (few : count < 0xFFFF) :
    checkSize part count = .ok (UInt16.ofNat count) := if_pos few

section Loops

variable {ε α β : Type}

theorem exists_mapM {xs : List α} {f : α → Except ε β} (each : ∀ x ∈ xs, ∃ y, f x = .ok y) :
    ∃ ys, xs.mapM f = .ok ys := by
  induction xs with
  | nil => exact ⟨[], rfl⟩
  | cons x xs ih =>
    rw [List.forall_mem_cons] at each
    obtain ⟨⟨y, first⟩, each⟩ := each
    obtain ⟨ys, rest⟩ := ih each
    exact ⟨y :: ys, by rw [List.mapM_cons, first, rest]; rfl⟩

theorem exists_foldlM {xs : List α} {f : β → α → Except ε β} (size : β → Nat) {cost limit : Nat}
    {first : β} (each : ∀ b, ∀ x ∈ xs, size b + cost ≤ limit →
      ∃ next, f b x = .ok next ∧ size next ≤ size b + cost)
    (enough : size first + xs.length * cost ≤ limit) :
    ∃ last, xs.foldlM f first = .ok last ∧ size last ≤ size first + xs.length * cost := by
  induction xs generalizing first with
  | nil => exact ⟨first, rfl, Nat.le_add_right _ _⟩
  | cons x xs ih =>
    rw [List.length_cons, Nat.succ_mul] at enough ⊢
    obtain ⟨next, ran, grown⟩ := each first x (List.mem_cons_self ..) (by omega)
    have enough : size next + xs.length * cost ≤ limit := by omega
    obtain ⟨last, rest, bound⟩ := ih (fun b y member => each b y (.tail _ member)) enough
    refine ⟨last, ?_, by omega⟩
    rw [List.foldlM_cons]
    exact bind_of_ok ran rest

theorem exists_foldlM_of {xs : List α} {f : β → α → Except ε β}
    (each : ∀ b, ∀ x ∈ xs, ∃ next, f b x = .ok next) (first : β) :
    ∃ last, xs.foldlM f first = .ok last := by
  obtain ⟨last, ran, _⟩ := exists_foldlM (fun _ : β => 0)
    (fun b x member _ => (each b x member).imp fun _ ran => ⟨ran, Nat.le_refl _⟩)
    (Nat.le_refl (0 + xs.length * 0))
  exact ⟨last, ran⟩

end Loops

namespace PreparedGrammar

variable {grammar : PreparedGrammar} {productions : Array Production}

theorem tableAction_of {action : LrAction} (fits : action.Fits productions) :
    tableAction productions action = .ok (action.lower productions) := by
  cases action with
  | shift target => exact bind_of_ok (checkSize_of fits) rfl
  | reduce id => exact bind_of_ok (checkSize_of fits.2) (bind_of_ok (checkSize_of fits.1) rfl)
  | accept => rfl

theorem exists_numberOfList {lists : Array (List Action)} (list : List Action)
    (few : lists.size < 0xFFFF) : ∃ id next, numberOfList lists list = .ok (id, next) ∧
      next.size ≤ lists.size + 1 := by
  unfold numberOfList
  cases lists.findIdx? (· == list) with
  | some id => exact ⟨_, lists, rfl, Nat.le_succ _⟩
  | none =>
    exact ⟨_, lists.push list, bind_of_ok (checkSize_of few) rfl, (Array.size_push ..).le⟩

theorem exists_actionRow {lists : Array (List Action)} {state : LrGrammar.StateActions}
    (fits : ∀ entry ∈ state.actions, ∀ action ∈ entry.2, action.Fits productions)
    (few : lists.size + state.actions.length ≤ 0xFFFF) :
    ∃ laid, grammar.actionRow productions lists state = .ok laid ∧
      laid.2.size ≤ lists.size + state.actions.length := by
  rw [← Nat.mul_one state.actions.length] at few ⊢
  refine exists_foldlM (fun laid : Array UInt16 × Array (List Action) => laid.2.size) ?_ few
  rintro ⟨row, lists⟩ ⟨terminal, actions⟩ member small
  obtain ⟨lowered, mapped⟩ := exists_mapM fun action inside =>
    ⟨_, tableAction_of (fits _ member action inside)⟩
  obtain ⟨id, next, numbered, bound⟩ := exists_numberOfList lowered small
  exact ⟨_, bind_of_ok mapped (bind_of_ok numbered rfl), bound⟩

theorem exists_gotoRow {state : LrGrammar.StateActions}
    (fits : ∀ entry ∈ state.gotos, entry.2 < 0xFFFF) :
    ∃ row, grammar.gotoRow state = .ok row := by
  refine exists_foldlM_of (fun row entry member => ?_) _
  exact ⟨_, bind_of_ok (checkSize_of (fits entry member)) rfl⟩

theorem exists_matrices {automaton : Array LrGrammar.StateActions}
    (fits : ∀ state ∈ automaton, state.actions.length ≤ grammar.terminalCount ∧
      (∀ entry ∈ state.actions, ∀ action ∈ entry.2, action.Fits productions) ∧
      ∀ entry ∈ state.gotos, entry.2 < 0xFFFF)
    (cells : automaton.size * grammar.terminalCount < 0xFFFF) :
    ∃ laid, automaton.foldlM (fun (index, lists, gotos) state => do
        let (row, lists) ← grammar.actionRow productions lists state
        return (index ++ row, lists, gotos ++ (← grammar.gotoRow state)))
      ((#[], #[[]], #[]) : Array UInt16 × Array (List Action) × Array StateId) = .ok laid := by
  have enough : (#[[]] : Array (List Action)).size
      + automaton.toList.length * grammar.terminalCount ≤ 0xFFFF := by
    rw [Array.length_toList, Nat.add_comm]
    exact cells
  rw [← Array.foldlM_toList]
  refine (exists_foldlM
    (fun laid : Array UInt16 × Array (List Action) × Array StateId => laid.2.1.size)
    ?_ enough).imp fun _ => And.left
  rintro ⟨index, lists, goes⟩ state member small
  obtain ⟨few, actions, gotos⟩ := fits state (Array.mem_toList_iff.1 member)
  have inside : lists.size + state.actions.length ≤ 0xFFFF :=
    (Nat.add_le_add_left few _).trans small
  obtain ⟨⟨row, next⟩, ran, bound⟩ := exists_actionRow actions inside
  obtain ⟨gotoRow, ran'⟩ := exists_gotoRow gotos
  exact ⟨_, bind_of_ok ran (bind_of_ok ran' rfl), bound.trans (Nat.add_le_add_left few _)⟩

theorem exists_lexStates {twice : String → Prop} (named : grammar.Named twice)
    (nonEmpty : ∀ terminal ∈ grammar.terminals, checkNonEmpty terminal = .ok ())
    (few : 1 <<< grammar.lexNfa.2.states.size < 0xFFFF) :
    ∃ states, grammar.lexStates = .ok states := by
  obtain ⟨sets, exploring, _, size⟩ :=
    (ClosedNfa.fits_ofNfa (fits_lexNfa named)).exploring_determinize grammar.lexNfa.1
      (fun place => grammar.symbolId (.terminal place)) (grammar.ranks.getD · 0)
  have small := Nat.lt_of_le_of_lt exploring.distinct.size_le few
  rw [size] at small
  exact ⟨_, bind_of_ok (grammar.checkNonEmpty_each nonEmpty) (bind_of_ok (checkSize_of small) rfl)⟩

structure Moderate (grammar : PreparedGrammar) : Prop where
  symbols : ∃ infos, grammar.symbols = .ok infos ∧ infos.size < 0xFFFF
  fields : grammar.fieldNames.length < 0xFFFF
  productions : (LrGrammar.ofGrammar grammar).productions.size < 0xFFFF
  steps : ∀ {id nonterminal : Nat} {flat : FlatProduction},
    (LrGrammar.ofGrammar grammar).productions[id]? = some (nonterminal, flat) →
      flat.steps.length < 0xFFFF
  cells : (LrGrammar.ofGrammar grammar).states.size * grammar.terminalCount < 0xFFFF
  lexer : 1 <<< grammar.lexNfa.2.states.size < 0xFFFF

namespace Moderate

open LrGrammar

variable {state : LrState} {id : Nat} {row : List BitSet}

theorem states (moderate : Moderate grammar) : (ofGrammar grammar).states.size < 0xFFFF :=
  Nat.lt_of_le_of_lt (Nat.le_mul_of_pos_right _ (Nat.succ_pos _)) moderate.cells

theorem target (moderate : Moderate grammar) (wellFormed : grammar.WellFormed)
    (found : (ofGrammar grammar).states[id]? = some state) {symbol : Sym} {target : Nat}
    (transition : (symbol, target) ∈ state.transitions) : target < 0xFFFF := by
  obtain ⟨next, known, _⟩ :=
    (closed_ofGrammar wellFormed).numbered.automaton.target found transition
  exact Nat.lt_trans (Array.getElem?_eq_some_iff.1 known).1 moderate.states

theorem fits (moderate : Moderate grammar) (wellFormed : grammar.WellFormed)
    (found : (ofGrammar grammar).states[id]? = some state) {infos : Array SymbolInfo}
    {fields : List String} {terminal : Nat} {action : LrAction}
    (justified : (ofGrammar grammar).Justified state terminal action) :
    action.Fits ((ofGrammar grammar).productions.map fun (nonterminal, production) =>
      grammar.tableProduction infos fields nonterminal production) := by
  cases justified with
  | shift _ transition => exact moderate.target wellFormed found transition
  | @reduce production known _ =>
    refine ⟨Nat.lt_trans known moderate.productions, ?_⟩
    rw [Array.getD_eq_getD_getElem?, Array.getElem?_map, Array.getElem?_eq_getElem known,
      Option.map_some, Option.getD_some]
    exact (List.length_map ..).symm ▸ moderate.steps (Array.getElem?_eq_getElem known)
  | accept _ _ => trivial

theorem fits_automaton (moderate : Moderate grammar) (wellFormed : grammar.WellFormed)
    (infos : Array SymbolInfo) (fields : List String) {actions : StateActions}
    (member : actions ∈ (ofGrammar grammar).automaton) :
    actions.actions.length ≤ grammar.terminalCount ∧
      (∀ entry ∈ actions.actions, ∀ action ∈ entry.2, action.Fits
        ((ofGrammar grammar).productions.map fun (nonterminal, production) =>
          grammar.tableProduction infos fields nonterminal production)) ∧
      ∀ entry ∈ actions.gotos, entry.2 < 0xFFFF := by
  have closed := closed_ofGrammar wellFormed
  obtain ⟨id, inside, rfl⟩ := Array.mem_iff_getElem.1 member
  rw [Generated.size_automaton] at inside
  have found := Array.getElem?_eq_getElem inside
  have length := (closed.complete _).suit.length found
  have nodup : ((ofGrammar grammar).states[id].transitions.map (·.1)).Nodup := by
    rw [closed.numbered.automaton.symbols found]
    exact nodup_symbolsAt
  simp only [automaton, Array.getElem_mapIdx]
  refine ⟨?_, fun entry there action listed => ?_, fun entry there =>
    moderate.target wellFormed found (Generated.mem_gotos.1 there)⟩
  · rw [actions_stateActions]
    refine (List.length_filter_le ..).trans (Nat.le_of_eq ?_)
    rw [List.length_map, List.length_range]
    rfl
  · rw [actions_stateActions] at there
    obtain ⟨terminal, _, rfl⟩ := List.mem_map.1 (List.mem_filter.1 there).1
    exact moderate.fits wellFormed found (justified_of_mem_cell closed.numbered
      (closed.numbered.automaton.proper found) length nodup listed)

theorem exists_table {twice : String → Prop} (moderate : Moderate grammar)
    (wellFormed : grammar.WellFormed) (named : grammar.Named twice)
    (nonEmpty : ∀ terminal ∈ grammar.terminals, checkNonEmpty terminal = .ok ()) :
    ∃ table, grammar.table (ofGrammar grammar) (ofGrammar grammar).automaton = .ok table := by
  obtain ⟨infos, symbols, few⟩ := moderate.symbols
  have parts := size_symbols symbols
  have terminals : grammar.terminalCount < 0xFFFF := by omega
  have rules : grammar.nonterminals.size < 0xFFFF := by omega
  have size := Generated.size_automaton grammar
  have states : (ofGrammar grammar).automaton.size < 0xFFFF := size ▸ moderate.states
  have fits : ∀ actions ∈ (ofGrammar grammar).automaton, _ := fun _ member =>
    moderate.fits_automaton wellFormed infos grammar.fieldNames member
  obtain ⟨_, filled⟩ := exists_matrices fits (size ▸ moderate.cells)
  obtain ⟨_, lexed⟩ := exists_lexStates named nonEmpty moderate.lexer
  unfold PreparedGrammar.table
  exact ⟨_, bind_of_ok (checkSize_of terminals) <| bind_of_ok symbols <|
    bind_of_ok (checkSize_of rules) <| bind_of_ok (checkSize_of states) <|
    bind_of_ok (checkSize_of few) <| bind_of_ok (checkSize_of moderate.fields) <|
    bind_of_ok (checkSize_of moderate.productions) <| bind_of_ok filled <|
    bind_of_ok lexed rfl⟩

end Moderate

end PreparedGrammar

theorem Grammar.exists_compile {grammar : Grammar} {prepared : PreparedGrammar}
    (prepare : grammar.prepare = .ok prepared) (nonEmpty : ∀ terminal ∈ prepared.terminals,
      PreparedGrammar.checkNonEmpty terminal = .ok ()) (moderate : prepared.Moderate) :
    ∃ compiled, grammar.compile = .ok compiled := by
  obtain ⟨table, laid⟩ := moderate.exists_table (Grammar.prepare_sound prepare).1
    (Grammar.prepare_named prepare) nonEmpty
  exact ⟨_, bind_of_ok prepare (bind_of_ok laid rfl)⟩

end IncrementalGlr
