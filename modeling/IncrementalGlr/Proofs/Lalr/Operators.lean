import IncrementalGlr.Proofs.Grammar.Expressions
import IncrementalGlr.Proofs.Lalr.Follow
import IncrementalGlr.Proofs.Lalr.Resolution

/-!
# The automaton of a grammar of operators

Its states are known by what was read last: nothing, a number, an operator, or an expression at the
start or behind an operator. In front of an operator, an expression behind another one is where
shifting and reducing compete.
-/

namespace IncrementalGlr

namespace Operator

open LrGrammar

variable {operators : List Operator} {item : Item} {kernel : List Item}

abbrev lr (operators : List Operator) : LrGrammar := LrGrammar.ofGrammar (prepared operators)

/-! ## Productions -/

theorem productions_lr (operators : List Operator) : (lr operators).productions
    = ((0, single (.nonterminal 1)) ::
        (productions operators 1 ++ [single (.terminal 0)]).map ((1, ·))).toArray := by
  simp [LrGrammar.ofGrammar, prepared]

theorem production_source (operators : List Operator) :
    (lr operators).productions[0]? = some (0, single (.nonterminal 1)) := by
  simp [productions_lr]

theorem production_operator (i : Fin operators.length) : (lr operators).productions[i.val + 1]?
    = some (1, operators[i].production (i + 1)) := by
  have inside : i.val < (productions operators 1).length := by simp [productions]
  rw [productions_lr, List.getElem?_toArray, List.getElem?_cons_succ, List.getElem?_map,
    List.getElem?_append_left inside]
  simp [productions, Nat.add_comm]

theorem production_number (operators : List Operator) :
    (lr operators).productions[operators.length + 1]? = some (1, single (.terminal 0)) := by
  simp [productions_lr, productions]

theorem augmented_lr (operators : List Operator) :
    (lr operators).augmented = operators.length + 2 := by
  simp [LrGrammar.augmented, productions_lr, productions]

theorem production_none {p : Nat} (outside : operators.length + 2 ≤ p) :
    (lr operators).productions[p]? = none := by
  rw [← augmented_lr] at outside
  exact Array.getElem?_eq_none outside

theorem cases_production {p : Nat} (inside : p ≤ operators.length + 2) :
    p = 0 ∨ (∃ i : Fin operators.length, p = i + 1) ∨ p = operators.length + 1 ∨
      p = operators.length + 2 := by
  rcases Nat.eq_zero_or_pos p with zero | positive
  · exact .inl zero
  rcases Nat.lt_or_ge p (operators.length + 1) with below | above
  · exact .inr (.inl ⟨⟨p - 1, by omega⟩, by dsimp only; omega⟩)
  · omega

theorem stepsOf_of_production {p nonterminal : Nat} {flat : FlatProduction}
    (found : (lr operators).productions[p]? = some (nonterminal, flat)) :
    (lr operators).stepsOf p = flat.steps := by
  rw [stepsOf, found]

theorem stepsOf_none {p : Nat} (outside : operators.length + 2 ≤ p) :
    (lr operators).stepsOf p = [Step.plain (.nonterminal 0)] := by
  rw [stepsOf, production_none outside]

def Stands (count production dot : Nat) : Sym → Prop
  | .nonterminal 0 => production = count + 2 ∧ dot = 0
  | .nonterminal 1 => dot = 0 ∧ production ≤ count ∨ dot = 2 ∧ 1 ≤ production ∧ production ≤ count
  | .nonterminal (_ + 2) => False
  | .terminal 0 => production = count + 1 ∧ dot = 0
  | .terminal (i + 1) => production = i + 1 ∧ i < count ∧ dot = 1

theorem symbolAt?_eq_some {p dot : Nat} {symbol : Sym} (inside : p ≤ operators.length + 2) :
    (lr operators).symbolAt? ⟨p, dot⟩ = some symbol ↔ Stands operators.length p dot symbol := by
  have here : (lr operators).symbolAt? ⟨p, dot⟩
      = ((lr operators).stepsOf p)[dot]?.map (·.symbol) := by
    rw [symbolAt?, LrGrammar.rest, List.head?_drop]
  rw [here]
  rcases cases_production inside with rfl | ⟨i, rfl⟩ | rfl | rfl
  · rw [stepsOf_of_production (production_source operators)]
    rcases dot with _ | dot <;> rcases symbol with (_ | _) | (_ | _ | _) <;>
      simp [Stands, single, FlatProduction.single, Step.plain]
  · have below := i.isLt
    rw [stepsOf_of_production (production_operator i)]
    rcases dot with _ | _ | _ | dot <;> rcases symbol with (_ | k) | (_ | _ | _) <;>
      simp [Stands, production, step] <;> omega
  · rw [stepsOf_of_production (production_number operators)]
    rcases dot with _ | dot <;> rcases symbol with (_ | _) | (_ | _ | _) <;>
      simp [Stands, single, FlatProduction.single, Step.plain]
    all_goals omega
  · rw [stepsOf_none (Nat.le_refl _)]
    rcases dot with _ | dot <;> rcases symbol with (_ | _) | (_ | _ | _) <;>
      simp [Stands, Step.plain]
    all_goals omega

/-! ## States -/

inductive Place (count : Nat) where
  | start
  | accept
  | number
  | whole
  | operator (i : Fin count)
  | operand (i : Fin count)

namespace Place

variable {count : Nat}

def Kernel : Place count → Item → Prop
  | start, item => item = ⟨count + 2, 0⟩
  | accept, item => item = ⟨count + 2, 1⟩
  | number, item => item = ⟨count + 1, 1⟩
  | whole, item => item.dot = 1 ∧ item.production ≤ count
  | operator i, item => item = ⟨i + 1, 2⟩
  | operand i, item =>
    item = ⟨i + 1, 3⟩ ∨ item.dot = 1 ∧ 1 ≤ item.production ∧ item.production ≤ count

def Starts : Place count → Nat → Prop
  | start, p => p ≤ count + 1
  | operator _, p => 1 ≤ p ∧ p ≤ count + 1
  | _, _ => False

def Calls : Place count → Nat → Prop
  | start, nonterminal => nonterminal ≤ 1
  | operator _, nonterminal => nonterminal = 1
  | _, _ => False

def next? : Place count → Sym → Option (Place count)
  | start, .nonterminal 0 => some accept
  | start, .nonterminal 1 => some whole
  | start, .terminal 0 => some number
  | operator i, .nonterminal 1 => some (operand i)
  | operator _, .terminal 0 => some number
  | whole, .terminal (i + 1) => if inside : i < count then some (operator ⟨i, inside⟩) else none
  | operand _, .terminal (i + 1) => if inside : i < count then some (operator ⟨i, inside⟩) else none
  | _, _ => none

def complete? : Place count → Option Nat
  | number => some (count + 1)
  | whole => some 0
  | operand i => some (i + 1)
  | _ => none

theorem Kernel.le {place : Place count} {p dot : Nat} (h : place.Kernel ⟨p, dot⟩) :
    p ≤ count + 2 := by
  cases place <;> simp only [Kernel, Item.mk.injEq] at h <;> omega

end Place

def IsAt (operators : List Operator) (place : Place operators.length) (kernel : List Item) : Prop :=
  ∀ item, item ∈ kernel ↔ place.Kernel item

variable {place next : Place operators.length} {symbol : Sym}

theorem wellFormed_prepared (operators : List Operator) : (prepared operators).WellFormed where
  start := by simp [prepared]
  steps {nonterminal} production member step inside := by
    rcases nonterminal with _ | _ | nonterminal
    · obtain rfl : production = single (.nonterminal 1) := List.mem_singleton.1 member
      rw [List.mem_singleton.1 inside]
      exact Nat.one_lt_two
    · rcases List.mem_append.1 member with own | last
      · obtain ⟨⟨operator, terminal⟩, there, rfl⟩ := List.mem_map.1 own
        have below := List.snd_lt_of_mem_zipIdx there
        simp only [Operator.production, List.mem_cons, List.not_mem_nil, or_false] at inside
        rcases inside with rfl | rfl | rfl
        · exact Nat.one_lt_two
        · simpa [PreparedGrammar.Has, prepared, Operator.step] using by omega
        · exact Nat.one_lt_two
      · rw [List.mem_singleton.1 last] at inside
        rw [List.mem_singleton.1 inside]
        simp [PreparedGrammar.Has, prepared, Step.plain]
    · simp [PreparedGrammar.productionsOf, prepared] at member

theorem closed_lr (operators : List Operator) : (lr operators).Closed :=
  closed_ofGrammar (wellFormed_prepared operators)

theorem exists_production {p : Nat} (positive : 1 ≤ p) (below : p ≤ operators.length + 1) :
    ∃ flat, (lr operators).productions[p]? = some (1, flat) := by
  rcases cases_production (Nat.le_succ_of_le below) with rfl | ⟨i, rfl⟩ | rfl | rfl
  · omega
  · exact ⟨_, production_operator i⟩
  · exact ⟨_, production_number operators⟩
  · omega

theorem nonterminal_of_production {p nonterminal : Nat} {flat : FlatProduction}
    (found : (lr operators).productions[p]? = some (nonterminal, flat)) :
    p ≤ operators.length + 1 ∧ (p = 0 ∧ nonterminal = 0 ∨ 1 ≤ p ∧ nonterminal = 1) := by
  have below : p ≤ operators.length + 1 := by
    refine Nat.le_of_not_lt fun above => ?_
    cases found.symm.trans (production_none above)
  refine ⟨below, ?_⟩
  rcases Nat.eq_zero_or_pos p with rfl | positive
  · cases found.symm.trans (production_source operators)
    exact .inl ⟨rfl, rfl⟩
  · obtain ⟨_, other⟩ := exists_production positive below
    cases found.symm.trans other
    exact .inr ⟨positive, rfl⟩

theorem IsAt.calls (isAt : IsAt operators place kernel) {nonterminal : Nat}
    (called : ((lr operators).called kernel).contains nonterminal = true) :
    place.Calls nonterminal := by
  -- called by an item of the kernel, or by a production of what is called already
  refine (closed_lr operators).numbered.called_le (fun item member n here => ?_)
    (fun n p flat called found m here => ?_) nonterminal called
  · have old := (isAt _).1 member
    have stands := (symbolAt?_eq_some old.le).1 here
    rcases item with ⟨p, dot⟩
    rcases n with _ | _ | n <;> cases place <;>
      simp only [Place.Kernel, Item.mk.injEq, Stands, Place.Calls] at old stands ⊢ <;> omega
  · have known := (nonterminal_of_production found).1
    have stands := (symbolAt?_eq_some (Nat.le_succ_of_le known)).1 here
    rcases m with _ | _ | m <;> cases place <;>
      simp only [Stands, Place.Calls] at stands called ⊢ <;> omega

theorem IsAt.mem_items_start (isAt : IsAt operators place kernel) {p : Nat}
    (starts : place.Starts p) : ⟨p, 0⟩ ∈ (lr operators).items kernel := by
  have old : ∀ {item}, place.Kernel item → item ∈ (lr operators).items kernel :=
    fun there => LrGrammar.mem_items.2 (.inl ((isAt _).2 there))
  have started : ∀ {p q dot m : Nat} {flat : FlatProduction},
      ⟨q, dot⟩ ∈ (lr operators).items kernel → q ≤ operators.length + 2 →
      (lr operators).productions[p]? = some (m, flat) →
      Stands operators.length q dot (.nonterminal m) →
        ⟨p, 0⟩ ∈ (lr operators).items kernel := fun member inside found stands =>
    (closed_lr operators).mem_items_start member ((symbolAt?_eq_some inside).2 stands) found
  cases place with
  | start =>
    have source := started (old rfl) (Nat.le_refl _) (production_source operators) ⟨rfl, rfl⟩
    rcases Nat.eq_zero_or_pos p with rfl | positive
    · exact source
    · obtain ⟨flat, found⟩ := exists_production positive starts
      exact started source (Nat.zero_le _) found (.inl ⟨rfl, Nat.zero_le _⟩)
  | operator i =>
    obtain ⟨flat, found⟩ := exists_production starts.1 starts.2
    exact started (old rfl) (by omega) found (.inr ⟨rfl, by omega, by omega⟩)
  | accept => exact starts.elim
  | number => exact starts.elim
  | whole => exact starts.elim
  | operand i => exact starts.elim

theorem IsAt.mem_items (isAt : IsAt operators place kernel) : item ∈ (lr operators).items kernel ↔
    place.Kernel item ∨ item.dot = 0 ∧ place.Starts item.production := by
  constructor
  · intro member
    rcases LrGrammar.mem_items.1 member with old | ⟨nonterminal, called, start⟩
    · exact .inl ((isAt item).1 old)
    · obtain ⟨zero, flat, found⟩ := (closed_lr operators).numbered.mem_startItems.1 start
      have known := nonterminal_of_production found
      have called := isAt.calls called
      refine .inr ⟨zero, ?_⟩
      cases place <;> simp only [Place.Calls, Place.Starts] at called ⊢ <;> omega
  · rintro (old | ⟨zero, starts⟩)
    · exact LrGrammar.mem_items.2 (.inl ((isAt item).2 old))
    · obtain ⟨p, dot⟩ := item
      cases zero
      exact isAt.mem_items_start starts

theorem Place.Starts.le {count : Nat} {place : Place count} {p : Nat} (h : place.Starts p) :
    p ≤ count + 1 := by
  cases place <;> simp only [Starts] at h <;> omega

theorem IsAt.symbolAt? (isAt : IsAt operators place kernel) {p dot : Nat} :
    (⟨p, dot⟩ ∈ (lr operators).items kernel ∧
      (lr operators).symbolAt? ⟨p, dot⟩ = some symbol) ↔
      (place.Kernel ⟨p, dot⟩ ∨ dot = 0 ∧ place.Starts p) ∧
        Stands operators.length p dot symbol := by
  rw [isAt.mem_items]
  refine and_congr_right fun there => symbolAt?_eq_some ?_
  rcases there with old | ⟨_, starts⟩
  · exact old.le
  · exact Nat.le_succ_of_le starts.le

theorem IsAt.goto (isAt : IsAt operators place kernel) (leads : place.next? symbol = some next) :
    IsAt operators next ((lr operators).goto ((lr operators).items kernel) symbol) := by
  rintro ⟨p, dot⟩
  have back : ⟨p, dot⟩ ∈ (lr operators).goto ((lr operators).items kernel) symbol ↔
      1 ≤ dot ∧ (place.Kernel ⟨p, dot - 1⟩ ∨ dot - 1 = 0 ∧ place.Starts p) ∧
        Stands operators.length p (dot - 1) symbol := by
    rw [LrGrammar.mem_goto, ← isAt.symbolAt?]
    constructor
    · rintro ⟨⟨q, before⟩, member, here, same⟩
      cases same
      exact ⟨Nat.succ_pos _, member, here⟩
    · rintro ⟨behind, member, here⟩
      refine ⟨_, member, here, ?_⟩
      rw [Item.next, Nat.sub_add_cancel behind]
  rw [back]
  rcases symbol with (_ | k) | (_ | _ | _) <;> cases place <;>
    simp only [Place.next?, Option.dite_none_right_eq_some, Option.some.injEq, reduceCtorEq]
      at leads
  case terminal.succ.whole | terminal.succ.operand =>
    obtain ⟨inside, rfl⟩ := leads
    simp only [Place.Kernel, Place.Starts, Stands, Item.mk.injEq]
    omega
  all_goals
    subst leads
    simp only [Place.Kernel, Place.Starts, Stands, Item.mk.injEq]
    omega

theorem IsAt.exists_next (isAt : IsAt operators place kernel)
    (there : symbol ∈ (lr operators).symbolsAt ((lr operators).items kernel)) :
    ∃ next, place.next? symbol = some next := by
  obtain ⟨⟨p, dot⟩, member, here⟩ := LrGrammar.mem_symbolsAt.1 there
  obtain ⟨there, stands⟩ := isAt.symbolAt?.1 ⟨member, here⟩
  rcases symbol with (_ | k) | (_ | _ | _) <;> cases place <;>
    simp only [Place.Kernel, Place.Starts, Stands, Item.mk.injEq, and_false, or_false]
      at there stands
  case terminal.succ.whole | terminal.succ.operand => exact ⟨_, dif_pos stands.2.1⟩
  case terminal.zero.start | terminal.zero.operator => exact ⟨_, rfl⟩
  case nonterminal.zero.start | nonterminal.succ.zero.start => exact ⟨_, rfl⟩
  case nonterminal.succ.zero.operator => exact ⟨_, rfl⟩
  all_goals omega

theorem IsAt.exists_item (isAt : IsAt operators place kernel)
    (leads : place.next? symbol = some next) :
    ∃ item ∈ (lr operators).items kernel, (lr operators).symbolAt? item = some symbol := by
  suffices ∃ p dot, (place.Kernel ⟨p, dot⟩ ∨ dot = 0 ∧ place.Starts p) ∧
      Stands operators.length p dot symbol by
    obtain ⟨p, dot, both⟩ := this
    exact ⟨_, isAt.symbolAt?.2 both⟩
  rcases symbol with (_ | k) | (_ | _ | _) <;> cases place <;>
    simp only [Place.next?, Option.dite_none_right_eq_some, Option.some.injEq, reduceCtorEq]
      at leads
  case terminal.succ.whole =>
    obtain ⟨inside, rfl⟩ := leads
    exact ⟨k + 1, 1, .inl ⟨rfl, inside⟩, rfl, inside, rfl⟩
  case terminal.succ.operand =>
    obtain ⟨inside, rfl⟩ := leads
    exact ⟨k + 1, 1, .inl (.inr ⟨rfl, Nat.succ_pos k, inside⟩), rfl, inside, rfl⟩
  case terminal.zero.start =>
    exact ⟨operators.length + 1, 0, .inr ⟨rfl, Nat.le_refl _⟩, rfl, rfl⟩
  case terminal.zero.operator =>
    exact ⟨operators.length + 1, 0, .inr ⟨rfl, Nat.succ_pos _, Nat.le_refl _⟩, rfl, rfl⟩
  case nonterminal.zero.start => exact ⟨operators.length + 2, 0, .inl rfl, rfl, rfl⟩
  case nonterminal.succ.zero.start =>
    exact ⟨0, 0, .inr ⟨rfl, Nat.zero_le _⟩, .inl ⟨rfl, Nat.zero_le _⟩⟩
  case nonterminal.succ.zero.operator i =>
    exact ⟨i + 1, 2, .inl rfl, .inr ⟨rfl, Nat.succ_pos _, i.isLt⟩⟩

theorem isAt_startKernel (operators : List Operator) :
    IsAt operators .start (lr operators).startKernel := by
  intro item
  rw [LrGrammar.startKernel, augmented_lr, List.mem_singleton]
  rfl

theorem exists_place {id : Nat} {state : LrState}
    (found : (lr operators).states[id]? = some state) :
    ∃ place, IsAt operators place state.kernel := by
  refine forall_states (p := fun kernel => ∃ place, IsAt operators place kernel)
    ⟨_, isAt_startKernel operators⟩ (fun kernel symbol ⟨place, isAt⟩ there => ?_) found
  obtain ⟨next, leads⟩ := isAt.exists_next there
  exact ⟨next, isAt.goto leads⟩

/-! ## What follows -/

theorem rest_of_source {item : Item} {step : Step} {rest : List Step}
    (here : (lr operators).rest item = step :: rest) (source : step.symbol = .nonterminal 0) :
    operators.length + 2 ≤ item.production ∧ rest = [] := by
  obtain ⟨p, dot⟩ := item
  have symbol : (lr operators).symbolAt? ⟨p, dot⟩ = some (.nonterminal 0) := by
    rw [LrGrammar.symbolAt?, here, ← source]
    rfl
  have outside : operators.length + 2 ≤ p := by
    refine Nat.le_of_not_lt fun below => ?_
    have stands := (symbolAt?_eq_some (Nat.le_of_lt below)).1 symbol
    exact Nat.ne_of_lt below stands.1
  rw [LrGrammar.rest, stepsOf_none outside] at here
  refine ⟨outside, ?_⟩
  cases dot with
  | zero => exact (List.cons.inj here).2.symm
  | succ dot => simp at here

theorem upper_lr (operators : List Operator) : (lr operators).Upper (lr operators).states
    fun _ item terminal => item.production = 0 ∨ operators.length + 2 ≤ item.production →
      terminal = 0 where
  start _ := rfl
  begins {id state item step rest nonterminal production flat terminal} found there here symbol
      numbered member := by
    rintro (rfl | outside)
    · cases (production_source operators).symm.trans numbered
      rw [(rest_of_source here symbol).2] at member
      simp [FirstSets.ofSteps] at member
    · rw [production_none outside] at numbered
      contradiction
  ends {id state item step rest nonterminal production flat terminal} found there here symbol
      numbered _ allows := by
    rintro (rfl | outside)
    · cases (production_source operators).symm.trans numbered
      exact allows (.inr (rest_of_source here symbol).1)
    · rw [production_none outside] at numbered
      contradiction
  passes _ _ _ _ allows := allows

variable {id : Nat} {state : LrState} {terminal : Nat}

abbrev followsIn (operators : List Operator) (id : Nat) (state : LrState) (item : Item) : BitSet :=
  (lr operators).lookaheadIn ((lr operators).lookaheads (lr operators).states) id state item

theorem eq_zero_of_follows_source (found : (lr operators).states[id]? = some state) {dot : Nat}
    (there : ⟨0, dot⟩ ∈ (lr operators).items state.kernel)
    (follows : (followsIn operators id state ⟨0, dot⟩).contains terminal = true) :
    terminal = 0 :=
  (upper_lr operators).bounds_lookaheads (closed_lr operators)
    (closed_lr operators).numbered.automaton found there terminal follows (.inl rfl)

def Needs (count p terminal : Nat) : Prop :=
  terminal = 0 ∨ 1 ≤ p ∧ p ≤ count + 1 ∧ ∃ k < count, terminal = k + 2

theorem follows_called (found : (lr operators).states[id]? = some state) {caller : Item}
    {step : Step} {nonterminal p : Nat} {flat : FlatProduction}
    (there : caller ∈ (lr operators).items state.kernel)
    (here : (lr operators).rest caller = [step]) (called : step.symbol = .nonterminal nonterminal)
    (numbered : (lr operators).productions[p]? = some (nonterminal, flat))
    (follows : (followsIn operators id state caller).contains terminal = true) :
    (followsIn operators id state ⟨p, 0⟩).contains terminal = true :=
  ((closed_lr operators).complete _).calls (closed_lr operators)
    (closed_lr operators).numbered.automaton found there here called numbered (.inr ⟨rfl, follows⟩)

theorem follows_start (found : (lr operators).states[id]? = some state)
    (isAt : IsAt operators .start state.kernel) (first : (followsIn operators id state
      ⟨operators.length + 2, 0⟩).contains 0 = true) {p : Nat} (below : p ≤ operators.length + 1)
    (needs : Needs operators.length p terminal) :
    (followsIn operators id state ⟨p, 0⟩).contains terminal = true := by
  have whole : (lr operators).rest ⟨operators.length + 2, 0⟩ = [Step.plain (.nonterminal 0)] := by
    rw [LrGrammar.rest, stepsOf_none (Nat.le_refl _)]
    rfl
  have expr : (lr operators).rest ⟨0, 0⟩ = [Step.plain (.nonterminal 1)] := by
    rw [LrGrammar.rest, stepsOf_of_production (production_source operators)]
    rfl
  have source := follows_called found (isAt.mem_items.2 (.inl rfl)) whole rfl
    (production_source operators) first
  rcases Nat.eq_zero_or_pos p with rfl | positive
  · rcases needs with rfl | needs
    · exact source
    · exact absurd needs.1 (Nat.not_succ_le_zero 0)
  obtain ⟨flat, numbered⟩ := exists_production positive below
  rcases needs with rfl | ⟨_, _, k, inside, rfl⟩
  · exact follows_called found (isAt.mem_items_start (Nat.zero_le _)) expr rfl numbered source
  · -- the left operand of the operator is followed by it
    have expected : (lr operators).rest ⟨k + 1, 0⟩ = (operators[k].production (k + 1)).steps := by
      rw [LrGrammar.rest, stepsOf_of_production (production_operator ⟨k, inside⟩)]
      rfl
    refine ((closed_lr operators).complete _).calls (closed_lr operators)
      (closed_lr operators).numbered.automaton found
      (isAt.mem_items_start (Nat.succ_le_succ (Nat.le_of_lt inside))) expected rfl numbered
      (.inl ?_)
    simp [FirstSets.ofSteps, step]

theorem follows_of_kernel (found : (lr operators).states[id]? = some state)
    (isAt : IsAt operators place state.kernel)
    (kernel : ∀ item ∈ state.kernel, ∀ terminal, Needs operators.length item.production terminal →
      (followsIn operators id state item).contains terminal = true) :
    ∀ item ∈ (lr operators).items state.kernel, ∀ terminal,
      Needs operators.length item.production terminal →
        (followsIn operators id state item).contains terminal = true := by
  rintro ⟨p, dot⟩ member terminal needs
  rcases isAt.mem_items.1 member with there | ⟨rfl, starts⟩
  · exact kernel _ ((isAt _).2 there) terminal needs
  cases place with
  | start => exact follows_start found isAt (kernel _ ((isAt _).2 rfl) 0 (.inl rfl)) starts needs
  | operator i =>
    obtain ⟨flat, numbered⟩ := exists_production starts.1 starts.2
    have expected : (lr operators).rest ⟨i + 1, 2⟩ = [operators[i].step (.nonterminal 1)] := by
      rw [LrGrammar.rest, stepsOf_of_production (production_operator i)]
      rfl
    have inside : i.val + 1 ≤ operators.length + 1 := Nat.succ_le_succ (Nat.le_of_lt i.isLt)
    refine follows_called found (isAt.mem_items.2 (.inl rfl)) expected rfl numbered
      (kernel _ ((isAt _).2 rfl) terminal ?_)
    exact needs.imp_right fun needs => ⟨Nat.succ_pos _, inside, needs.2.2⟩
  | accept => exact starts.elim
  | number => exact starts.elim
  | whole => exact starts.elim
  | operand i => exact starts.elim

/-! ## Reductions -/

theorem length_stepsOf (operators : List Operator) (p : Nat) : ((lr operators).stepsOf p).length
    = if 1 ≤ p ∧ p ≤ operators.length then 3 else 1 := by
  rcases Nat.lt_or_ge p (operators.length + 2) with below | outside
  · rcases cases_production (Nat.le_of_lt below) with rfl | ⟨i, rfl⟩ | rfl | rfl
    · rw [stepsOf_of_production (production_source operators)]
      rfl
    · rw [stepsOf_of_production (production_operator i), if_pos (by omega)]
      rfl
    · rw [stepsOf_of_production (production_number operators), if_neg (by omega)]
      rfl
    · omega
  · rw [stepsOf_none outside, if_neg (by omega)]
    rfl

theorem IsAt.complete? (isAt : IsAt operators place kernel) {p dot : Nat} :
    (⟨p, dot⟩ ∈ (lr operators).items kernel ∧ (lr operators).isComplete ⟨p, dot⟩ = true ∧
      p ≠ (lr operators).augmented) ↔
      place.complete? = some p ∧ dot = ((lr operators).stepsOf p).length := by
  rw [isAt.mem_items, isComplete_iff, augmented_lr, length_stepsOf]
  cases place <;> simp only [Place.Kernel, Place.Starts, Place.complete?, Item.mk.injEq, and_false,
    or_false, Option.some.injEq, reduceCtorEq, false_and, iff_false] <;> split <;> omega

abbrev row (operators : List Operator) (id : Nat) : List BitSet :=
  ((lr operators).lookaheads (lr operators).states).getD id []

def followsComplete (operators : List Operator) (id : Nat) (state : LrState) (p : Nat) : BitSet :=
  followsIn operators id state ⟨p, ((lr operators).stepsOf p).length⟩

theorem mem_reductions_iff (found : (lr operators).states[id]? = some state)
    (isAt : IsAt operators place state.kernel) {p : Nat} :
    p ∈ (lr operators).reductions state (row operators id) terminal ↔
      place.complete? = some p ∧
        (followsComplete operators id state p).contains terminal = true := by
  have length : (row operators id).length = state.kernel.length :=
    ((closed_lr operators).complete _).suit.length found
  rw [LrGrammar.mem_reductions length]
  constructor
  · rintro ⟨other, ⟨q, dot⟩, member, rfl, complete, follows⟩
    obtain ⟨known, rfl⟩ := isAt.complete?.1 ⟨member, complete, other⟩
    exact ⟨known, follows⟩
  · rintro ⟨known, follows⟩
    obtain ⟨member, complete, other⟩ := isAt.complete?.2 ⟨known, rfl⟩
    exact ⟨other, _, member, rfl, complete, follows⟩

theorem length_reductions_le_one (found : (lr operators).states[id]? = some state)
    (isAt : IsAt operators place state.kernel) :
    ((lr operators).reductions state (row operators id) terminal).length ≤ 1 := by
  have length : (row operators id).length = state.kernel.length :=
    ((closed_lr operators).complete _).suit.length found
  have numbered := (closed_lr operators).numbered
  refine (LrGrammar.length_reductions_le length).trans ?_
  have only : ((lr operators).items state.kernel).filter (fun item =>
      (lr operators).isComplete item && item.production != (lr operators).augmented) ⊆
        (place.complete?.map fun p => Item.mk p ((lr operators).stepsOf p).length).toList := by
    rintro ⟨p, dot⟩ member
    rw [List.mem_filter, Bool.and_eq_true, bne_iff_ne] at member
    obtain ⟨known, rfl⟩ := isAt.complete?.1 member
    rw [known]
    exact List.mem_singleton_self _
  have nodup := ((numbered.automaton.proper found).nodup_items numbered).filter fun item =>
    (lr operators).isComplete item && item.production != (lr operators).augmented
  refine (List.subperm_of_subset nodup only).length_le.trans ?_
  cases place.complete? with
  | none => exact Nat.zero_le _
  | some p => exact Nat.le_refl _

theorem eq_toList_of_mem_iff {α : Type} {xs : List α} {found : Option α} (few : xs.length ≤ 1)
    (mem : ∀ x, x ∈ xs ↔ found = some x) : xs = found.toList := by
  match xs with
  | [] =>
    cases found with
    | none => rfl
    | some x => exact absurd ((mem x).2 rfl) List.not_mem_nil
  | [x] => rw [(mem x).1 (List.mem_singleton_self x), Option.toList_some]
  | _ :: _ :: _ => exact absurd few (by simp)

theorem reductions_eq (found : (lr operators).states[id]? = some state)
    (isAt : IsAt operators place state.kernel) :
    (lr operators).reductions state (row operators id) terminal = (place.complete?.filter
      fun p => (followsComplete operators id state p).contains terminal).toList := by
  refine eq_toList_of_mem_iff (length_reductions_le_one found isAt) fun p => ?_
  rw [mem_reductions_iff found isAt, Option.filter_eq_some_iff]

/-! ## Shifting or reducing -/

theorem shiftPrecedence?_operator (k : Fin operators.length) :
    (lr operators).shiftPrecedence? (k + 2) ⟨k + 1, 1⟩ = some (.integer operators[k].level) := by
  simp only [shiftPrecedence?, stepsOf_of_production (production_operator k)]
  simp [production, step, FirstSets.startsWith]

theorem eq_of_shiftPrecedence? {i : Fin operators.length} (there : (Place.operand i).Kernel item)
    {k : Fin operators.length} {precedence : Precedence}
    (found : (lr operators).shiftPrecedence? (k + 2) item = some precedence) :
    precedence = .integer operators[k].level := by
  obtain ⟨p, dot⟩ := item
  -- behind the whole alternative of `i` nothing is read; any other item is behind its left operand
  rcases there with same | ⟨one, positive, below⟩
  · cases same
    simp only [shiftPrecedence?, stepsOf_of_production (production_operator i)] at found
    simp [production] at found
  · dsimp only at one positive below
    obtain ⟨j, rfl⟩ : ∃ j : Fin operators.length, p = j + 1 :=
      ⟨⟨p - 1, by omega⟩, (Nat.sub_add_cancel positive).symm⟩
    cases one
    by_cases same : j = k
    · subst same
      rw [shiftPrecedence?_operator] at found
      exact (Option.some.inj found).symm
    · have other : ¬ j.val = k.val := fun h => same (Fin.ext h)
      simp only [shiftPrecedence?, stepsOf_of_production (production_operator j)] at found
      simp [production, step, FirstSets.startsWith, other] at found

theorem shiftPrecedences_operand {i : Fin operators.length}
    (isAt : IsAt operators (.operand i) kernel) (k : Fin operators.length) :
    (lr operators).shiftPrecedences kernel (k + 2) ≠ [] ∧
      ∀ precedence ∈ (lr operators).shiftPrecedences kernel (k + 2),
        precedence = .integer operators[k].level := by
  have member : ⟨k + 1, 1⟩ ∈ kernel := (isAt _).2 (.inr ⟨rfl, Nat.succ_pos _, k.isLt⟩)
  have own := shiftPrecedence?_operator k
  rw [shiftPrecedences_eq member own]
  refine ⟨List.ne_nil_of_mem (List.mem_filterMap.2 ⟨_, member, own⟩), fun precedence there => ?_⟩
  obtain ⟨item, inside, found⟩ := List.mem_filterMap.1 there
  exact eq_of_shiftPrecedence? ((isAt item).1 inside) found

theorem reducePrecedence_operator (i : Fin operators.length) :
    (lr operators).reducePrecedence (i + 1)
      = (.integer operators[i].level, some operators[i].associativity) := by
  rw [reducePrecedence, stepsOf_of_production (production_operator i)]
  rfl

theorem compare_integer (a b : Int) :
    (lr operators).compare (.integer a) (.integer b) = Ord.compare a b := rfl

theorem all_beq_of_alike {α : Type} [BEq α] [LawfulBEq α] {xs : List α} {x : α} (nonempty : xs ≠ [])
    (alike : ∀ y ∈ xs, y = x) (y : α) : xs.all (· == y) = (x == y) := by
  obtain ⟨first, xs, rfl⟩ := List.exists_cons_of_ne_nil nonempty
  rw [List.forall_mem_cons] at alike
  rw [List.all_cons, alike.1, Bool.and_eq_left_iff_imp]
  intro same
  exact List.all_eq_true.2 fun other member => alike.2 other member ▸ same

theorem verdict_eq {i k : Fin operators.length} {shifts : List Precedence} (nonempty : shifts ≠ [])
    (same : ∀ precedence ∈ shifts, precedence = .integer operators[k].level) :
    (lr operators).verdict shifts (i + 1)
      = if operators[i].MayBeRight operators[k] then .shiftOnly else .reduceOnly := by
  have orders : ∀ order ∈ shifts.map fun shift =>
      (lr operators).compare shift (.integer operators[i].level),
      order = Ord.compare operators[k].level operators[i].level := by
    intro order member
    obtain ⟨precedence, there, rfl⟩ := List.mem_map.1 member
    rw [same precedence there, compare_integer]
  rw [LrGrammar.verdict, reducePrecedence_operator]
  simp only [all_beq_of_alike (mt List.map_eq_nil_iff.1 nonempty) orders]
  generalize operators[k] = inner, operators[i] = outer
  -- the associativity counts on equal levels only
  rcases Int.lt_trichotomy inner.level outer.level with less | same | more
  · have closes : ¬ outer.MayBeRight inner := by
      unfold MayBeRight
      omega
    rw [Std.compare_eq_lt.2 less, if_neg closes]
    rfl
  · rw [Std.compare_eq_iff_eq.2 same]
    cases declared : outer.associativity <;> simp [MayBeRight, same, declared]
  · have takes : outer.MayBeRight inner := .inl more
    rw [Std.compare_eq_gt.2 more, if_pos takes]
    rfl

theorem resolve_operand {i k : Fin operators.length} (isAt : IsAt operators (.operand i) kernel)
    (target : Nat) : (lr operators).resolve kernel (k + 2) (some target) [i.val + 1]
      = if operators[i].MayBeRight operators[k] then [.shift target] else [.reduce (i + 1)] := by
  obtain ⟨nonempty, same⟩ := shiftPrecedences_operand isAt k
  rw [resolve, strongest_singleton]
  simp only [verdict_eq nonempty same, List.filter_cons, List.any_cons]
  split <;> rfl

/-! ## Cells -/

variable {target : Nat}

theorem shift?_eq_some_iff (found : (lr operators).states[id]? = some state) :
    shift? state terminal = some target ↔
      ∃ index, terminal = index + 1 ∧ (.terminal index, target) ∈ state.transitions := by
  refine LrGrammar.shift?_eq_some ?_
  rw [(closed_lr operators).numbered.automaton.symbols found]
  exact nodup_symbolsAt

theorem exists_next_of_transition (found : (lr operators).states[id]? = some state)
    (isAt : IsAt operators place state.kernel) (transition : (symbol, target) ∈ state.transitions) :
    ∃ next, place.next? symbol = some next := by
  refine isAt.exists_next ?_
  rw [← (closed_lr operators).numbered.automaton.symbols found]
  exact List.mem_map_of_mem transition

theorem accepts_iff (isAt : IsAt operators place kernel) :
    kernel.contains ⟨(lr operators).augmented, 1⟩ = true ↔ place = .accept := by
  rw [List.contains_iff_mem, isAt, augmented_lr]
  cases place with
  | accept => exact ⟨fun _ => rfl, fun _ => rfl⟩
  | _ => simp [Place.Kernel]

theorem reductions_eq_nil (found : (lr operators).states[id]? = some state)
    (isAt : IsAt operators place state.kernel)
    (shifts : place.complete? = none ∨ place = .whole ∧ terminal ≠ 0) :
    (lr operators).reductions state (row operators id) terminal = [] := by
  rw [reductions_eq found isAt]
  rcases shifts with none | ⟨rfl, other⟩
  · rw [none]
    rfl
  · obtain ⟨there, _⟩ := isAt.complete?.2 ⟨rfl, rfl⟩
    have absent : ¬ (followsComplete operators id state 0).contains terminal = true :=
      fun follows => other (eq_zero_of_follows_source found there follows)
    rw [Place.complete?, Option.filter_some, if_neg absent]
    rfl

theorem reductions_of_next (found : (lr operators).states[id]? = some state)
    (isAt : IsAt operators place state.kernel) {index : Nat}
    (leads : place.next? (.terminal index) = some next) :
    (lr operators).reductions state (row operators id) (index + 1) = [] ∨
      ∃ i k : Fin operators.length, place = .operand i ∧ index = k + 1 ∧
        (lr operators).reductions state (row operators id) (index + 1) = [i.val + 1] := by
  cases place with
  | start => exact .inl (reductions_eq_nil found isAt (.inl rfl))
  | accept => contradiction
  | number => contradiction
  | whole => exact .inl (reductions_eq_nil found isAt (.inr ⟨rfl, Nat.succ_ne_zero index⟩))
  | operator i => exact .inl (reductions_eq_nil found isAt (.inl rfl))
  | operand i =>
    obtain ⟨k, rfl⟩ : ∃ k : Fin operators.length, index = k + 1 := by
      cases index with
      | zero => contradiction
      | succ k =>
        simp only [Place.next?, Option.dite_none_right_eq_some] at leads
        exact ⟨⟨k, leads.1⟩, rfl⟩
    rw [reductions_eq found isAt, Place.complete?, Option.filter_some]
    split
    · exact .inr ⟨i, k, rfl, rfl, rfl⟩
    · exact .inl rfl

theorem length_cell_le (found : (lr operators).states[id]? = some state) :
    ((lr operators).cell state (row operators id) terminal).length ≤ 1 := by
  obtain ⟨place, isAt⟩ := exists_place found
  rw [cell, List.length_append]
  by_cases accepts : place = .accept
  · subst accepts
    have none : shift? state terminal = none := by
      refine Option.eq_none_iff_forall_ne_some.2 fun target shift => ?_
      obtain ⟨index, _, transition⟩ := (shift?_eq_some_iff found).1 shift
      obtain ⟨_, leads⟩ := exists_next_of_transition found isAt transition
      contradiction
    rw [reductions_eq_nil found isAt (.inl rfl), resolve_nil, none]
    split <;> simp
  · have other : state.kernel.contains ⟨(lr operators).augmented, 1⟩ = false := by
      rw [← Bool.not_eq_true, accepts_iff isAt]
      exact accepts
    rw [other, Bool.and_false, if_neg Bool.false_ne_true, List.length_nil, Nat.zero_add]
    cases shift : shift? state terminal with
    | none =>
      rw [resolve, List.length_map]
      exact (List.length_filter_le ..).trans (length_reductions_le_one found isAt)
    | some target =>
      obtain ⟨index, rfl, transition⟩ := (shift?_eq_some_iff found).1 shift
      obtain ⟨next, leads⟩ := exists_next_of_transition found isAt transition
      rcases reductions_of_next found isAt leads with none | ⟨i, k, rfl, rfl, one⟩
      · rw [none, resolve_nil]
        exact Nat.le_refl _
      · rw [one, resolve_operand isAt]
        split <;> exact Nat.le_refl _

theorem shift_mem_cell (found : (lr operators).states[id]? = some state)
    (isAt : IsAt operators place state.kernel) {index : Nat}
    (transition : (.terminal index, target) ∈ state.transitions)
    (takes : ∀ i k : Fin operators.length, place = .operand i → index = k + 1 →
      operators[i].MayBeRight operators[k]) :
    .shift target ∈ (lr operators).cell state (row operators id) (index + 1) := by
  have shift := (shift?_eq_some_iff found).2 ⟨index, rfl, transition⟩
  obtain ⟨next, leads⟩ := exists_next_of_transition found isAt transition
  refine List.mem_append_right _ ?_
  rw [shift]
  rcases reductions_of_next found isAt leads with none | ⟨i, k, rfl, rfl, one⟩
  · rw [none, resolve_nil]
    exact List.mem_singleton_self _
  · rw [one, resolve_operand isAt, if_pos (takes i k rfl rfl)]
    exact List.mem_singleton_self _

theorem reduce_mem_cell (found : (lr operators).states[id]? = some state)
    (isAt : IsAt operators place state.kernel) {p : Nat} (complete : place.complete? = some p)
    (follows : (followsComplete operators id state p).contains terminal = true)
    (closes : ∀ index, terminal = index + 1 → place.next? (.terminal index) = none ∨
      ∃ i k : Fin operators.length, place = .operand i ∧ index = k + 1 ∧
        ¬ operators[i].MayBeRight operators[k]) :
    .reduce p ∈ (lr operators).cell state (row operators id) terminal := by
  refine List.mem_append_right _ ?_
  rw [reductions_eq found isAt, complete, Option.filter_some, if_pos follows, Option.toList_some]
  cases shift : shift? state terminal with
  | none =>
    rw [resolve, strongest_singleton]
    exact List.mem_singleton_self _
  | some target =>
    obtain ⟨index, rfl, transition⟩ := (shift?_eq_some_iff found).1 shift
    obtain ⟨next, leads⟩ := exists_next_of_transition found isAt transition
    rcases closes index rfl with none | ⟨i, k, rfl, rfl, leaves⟩
    · cases leads.symm.trans none
    · cases complete
      rw [resolve_operand isAt, if_neg leaves]
      exact List.mem_singleton_self _

end Operator

end IncrementalGlr
