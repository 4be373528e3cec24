import Mathlib.Data.Set.Basic
import IncrementalGlr.Proofs.Lalr.States

/-!
# States are cores

The symbols that are read lead to items. What they lead to, but for the items that are there because
others call their nonterminals, is the kernel of one state, and the automaton has no other states.
-/

namespace IncrementalGlr

namespace LrGrammar

variable {lr : LrGrammar} {item : Item} {kernel : List Item} {symbols : List Sym} {symbol : Sym}
  {id : Nat} {state : LrState}

inductive Reaches (lr : LrGrammar) : List Sym → Item → Prop
  | start : Reaches lr [] ⟨lr.augmented, 0⟩
  | call {symbols : List Sym} {item : Item} {nonterminal production : Nat} {flat : FlatProduction}
      (caller : Reaches lr symbols item)
      (called : lr.symbolAt? item = some (.nonterminal nonterminal))
      (numbered : lr.productions[production]? = some (nonterminal, flat)) :
      Reaches lr symbols ⟨production, 0⟩
  | read {symbols : List Sym} {item : Item} {symbol : Sym} (before : Reaches lr symbols item)
      (at_ : lr.symbolAt? item = some symbol) : Reaches lr (symbols ++ [symbol]) item.next

/-- What the symbols lead to, without the items that are called there. -/
def core (lr : LrGrammar) (symbols : List Sym) : Set Item :=
  {item | lr.Reaches symbols item ∧ (item = ⟨lr.augmented, 0⟩ ∨ 0 < item.dot)}

theorem eq_nil_or_of_mem_core (inCore : item ∈ lr.core symbols) : (symbols = [] ∧
    item = ⟨lr.augmented, 0⟩) ∨ ∃ front before symbol, lr.Reaches front before ∧
      lr.symbolAt? before = some symbol ∧ symbols = front ++ [symbol] ∧ item = before.next := by
  obtain ⟨reaches, place⟩ := inCore
  cases reaches with
  | start => exact .inl ⟨rfl, rfl⟩
  | @call _ _ _ production _ _ _ numbered =>
    rcases place with start | behind
    · have known := (Array.getElem?_eq_some_iff.1 numbered).1
      cases start
      exact absurd known (Nat.lt_irrefl _)
    · exact absurd behind (Nat.lt_irrefl 0)
  | read before at_ => exact .inr ⟨_, _, _, before, at_, rfl, rfl⟩

theorem mem_core_nil : item ∈ lr.core [] ↔ item = ⟨lr.augmented, 0⟩ := by
  constructor
  · intro inCore
    rcases eq_nil_or_of_mem_core inCore with ⟨_, start⟩ | ⟨front, _, symbol, _, _, same, _⟩
    · exact start
    · simp at same
  · rintro rfl
    exact ⟨.start, .inl rfl⟩

theorem mem_core_append : item ∈ lr.core (symbols ++ [symbol]) ↔
    ∃ before, lr.Reaches symbols before ∧ lr.symbolAt? before = some symbol ∧
      before.next = item := by
  constructor
  · intro inCore
    rcases eq_nil_or_of_mem_core inCore with
      ⟨same, _⟩ | ⟨front, before, other, there, at_, same, rfl⟩
    · simp at same
    · obtain ⟨rfl, last⟩ := List.append_inj' same rfl
      cases last
      exact ⟨before, there, at_, rfl⟩
  · rintro ⟨before, there, at_, rfl⟩
    exact ⟨.read there at_, .inr (Nat.succ_pos _)⟩

theorem Numbered.forall_items (numbered : lr.Numbered) {p : Item → Prop}
    (own : ∀ item ∈ kernel, p item)
    (call : ∀ item nonterminal production flat, p item →
      lr.symbolAt? item = some (.nonterminal nonterminal) →
      lr.productions[production]? = some (nonterminal, flat) → p ⟨production, 0⟩) :
    ∀ item ∈ lr.items kernel, p item := by
  have called : ∀ n, (lr.called kernel).contains n = true →
      ∃ item, p item ∧ lr.symbolAt? item = some (.nonterminal n) := numbered.called_le
    (fun item member n at_ => ⟨item, own item member, at_⟩)
    (fun n production flat ⟨item, holds, at_⟩ known m at_' =>
      ⟨_, call item n production flat holds at_ known, at_'⟩)
  intro item member
  rcases mem_items.1 member with old | ⟨nonterminal, contained, start⟩
  · exact own item old
  · obtain ⟨caller, holds, at_⟩ := called nonterminal contained
    obtain ⟨production, dot⟩ := item
    obtain ⟨rfl, flat, known⟩ := numbered.mem_startItems.1 start
    exact call caller nonterminal production flat holds at_ known

theorem Closed.mem_items_iff_reaches (closed : lr.Closed)
    (same : {item | item ∈ kernel} = lr.core symbols) :
    item ∈ lr.items kernel ↔ lr.Reaches symbols item := by
  have own : ∀ item, item ∈ kernel ↔ item ∈ lr.core symbols := Set.ext_iff.1 same
  constructor
  · intro member
    exact closed.numbered.forall_items (p := lr.Reaches symbols)
      (fun item there => ((own item).1 there).1)
      (fun _ _ _ _ caller called numbered => .call caller called numbered) item member
  · intro reaches
    clear same
    induction reaches with
    | start => exact mem_items.2 (.inl ((own _).2 ⟨.start, .inl rfl⟩))
    | call _ called numbered ih => exact closed.mem_items_start (ih own) called numbered
    | read before at_ _ =>
      exact mem_items.2 (.inl ((own _).2 ⟨.read before at_, .inr (Nat.succ_pos _)⟩))

inductive Leads (lr : LrGrammar) : List Sym → Nat → Prop
  | start : Leads lr [] 0
  | read {symbols : List Sym} {symbol : Sym} {id target : Nat} {state : LrState}
      (before : Leads lr symbols id) (found : lr.states[id]? = some state)
      (transition : (symbol, target) ∈ state.transitions) : Leads lr (symbols ++ [symbol]) target

theorem Leads.nil (leads : lr.Leads [] id) : id = 0 := by
  generalize none : ([] : List Sym) = symbols at leads
  cases leads with
  | start => rfl
  | read => simp at none

theorem Leads.append {target : Nat} (leads : lr.Leads (symbols ++ [symbol]) target) :
    ∃ id state, lr.Leads symbols id ∧ lr.states[id]? = some state ∧
      (symbol, target) ∈ state.transitions := by
  generalize whole : symbols ++ [symbol] = all at leads
  cases leads with
  | start => simp at whole
  | read before found transition =>
    obtain ⟨rfl, last⟩ := List.append_inj' whole rfl
    cases last
    exact ⟨_, _, before, found, transition⟩

theorem Leads.kernel_eq (leads : lr.Leads symbols id) (closed : lr.Closed)
    (found : lr.states[id]? = some state) : {item | item ∈ state.kernel} = lr.core symbols := by
  have automaton := closed.numbered.automaton
  induction leads generalizing state with
  | start =>
    obtain ⟨first, there, kernel⟩ := automaton.start
    cases found.symm.trans there
    ext item
    rw [Set.mem_ofPred_eq, mem_core_nil, kernel, startKernel, List.mem_singleton]
  | @read symbols symbol id target before _ there transition ih =>
    obtain ⟨_, found', kernel⟩ := automaton.target there transition
    cases found.symm.trans found'
    ext item
    rw [Set.mem_ofPred_eq, mem_core_append, kernel, mem_goto]
    exact exists_congr fun before => and_congr_left fun _ => closed.mem_items_iff_reaches (ih there)

theorem Leads.mem_items_iff (leads : lr.Leads symbols id) (closed : lr.Closed)
    (found : lr.states[id]? = some state) :
    item ∈ lr.items state.kernel ↔ lr.Reaches symbols item :=
  closed.mem_items_iff_reaches (leads.kernel_eq closed found)

theorem Leads.exists_state (leads : lr.Leads symbols id) (closed : lr.Closed) :
    ∃ state, lr.states[id]? = some state := by
  have automaton := closed.numbered.automaton
  cases leads with
  | start =>
    obtain ⟨state, found, _⟩ := automaton.start
    exact ⟨state, found⟩
  | read _ found transition =>
    obtain ⟨next, there, _⟩ := automaton.target found transition
    exact ⟨next, there⟩

theorem Reaches.exists_leads (reaches : lr.Reaches symbols item) (closed : lr.Closed) :
    ∃ id, lr.Leads symbols id := by
  induction reaches with
  | start => exact ⟨0, .start⟩
  | call _ _ _ ih => exact ih
  | @read symbols item symbol before at_ ih =>
    obtain ⟨id, leads⟩ := ih
    obtain ⟨state, found⟩ := leads.exists_state closed
    have there : symbol ∈ state.transitions.map (·.1) := by
      rw [closed.numbered.automaton.symbols found]
      exact mem_symbolsAt.2 ⟨item, (leads.mem_items_iff closed found).2 before, at_⟩
    obtain ⟨⟨_, target⟩, transition, rfl⟩ := List.mem_map.1 there
    exact ⟨target, leads.read found transition⟩

theorem Closed.exists_leads (closed : lr.Closed) (found : lr.states[id]? = some state) :
    ∃ symbols, lr.Leads symbols id := by
  have automaton := closed.numbered.automaton
  have led : ∃ symbols id' state', lr.Leads symbols id' ∧ lr.states[id']? = some state' ∧
      state'.kernel = state.kernel := by
    refine forall_states (p := fun kernel => ∃ symbols id' state', lr.Leads symbols id' ∧
      lr.states[id']? = some state' ∧ state'.kernel = kernel) ?_ ?_ found
    · obtain ⟨first, there, kernel⟩ := automaton.start
      exact ⟨[], 0, first, .start, there, kernel⟩
    · rintro _ symbol ⟨symbols, id, state, leads, found, rfl⟩ there
      rw [← automaton.symbols found] at there
      obtain ⟨⟨_, target⟩, transition, rfl⟩ := List.mem_map.1 there
      obtain ⟨next, found', kernel⟩ := automaton.target found transition
      exact ⟨_, target, next, leads.read found transition, found', kernel⟩
  obtain ⟨symbols, id', state', leads, found', same⟩ := led
  obtain rfl := closed.numbered.eq_of_kernel_eq found' found same
  exact ⟨symbols, leads⟩

theorem Leads.nonempty_core (leads : lr.Leads symbols id) (closed : lr.Closed) :
    (lr.core symbols).Nonempty := by
  cases leads with
  | start => exact ⟨_, mem_core_nil.2 rfl⟩
  | @read symbols symbol _ _ state before found transition =>
    have there : symbol ∈ lr.symbolsAt (lr.items state.kernel) := by
      rw [← closed.numbered.automaton.symbols found]
      exact List.mem_map_of_mem transition
    obtain ⟨item, member, at_⟩ := mem_symbolsAt.1 there
    exact ⟨_, mem_core_append.2 ⟨item, (before.mem_items_iff closed found).1 member, at_, rfl⟩⟩

theorem Closed.exists_core (closed : lr.Closed) (found : lr.states[id]? = some state) :
    ∃ symbols, (lr.core symbols).Nonempty ∧ {item | item ∈ state.kernel} = lr.core symbols := by
  obtain ⟨symbols, leads⟩ := closed.exists_leads found
  exact ⟨symbols, leads.nonempty_core closed, leads.kernel_eq closed found⟩

theorem Closed.existsUnique_state (closed : lr.Closed) (nonempty : (lr.core symbols).Nonempty) :
    ∃! id : Nat, ∃ state, lr.states[id]? = some state ∧
      {item | item ∈ state.kernel} = lr.core symbols := by
  obtain ⟨item, inCore⟩ := nonempty
  obtain ⟨id, leads⟩ := inCore.1.exists_leads closed
  obtain ⟨state, found⟩ := leads.exists_state closed
  have kernel := leads.kernel_eq closed found
  refine ⟨id, ⟨state, found, kernel⟩, ?_⟩
  rintro other ⟨state', found', kernel'⟩
  have automaton := closed.numbered.automaton
  refine closed.numbered.eq_of_kernel_eq found' found ?_
  exact (automaton.proper found').ext (automaton.proper found)
    (Set.ext_iff.1 (kernel'.trans kernel.symm))

end LrGrammar

end IncrementalGlr
