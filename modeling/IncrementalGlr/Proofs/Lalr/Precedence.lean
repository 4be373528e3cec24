import Mathlib
import IncrementalGlr.Proofs.Grammar.Preparation
import IncrementalGlr.Proofs.Lalr.Cores
import IncrementalGlr.Proofs.Lalr.Resolution
import IncrementalGlr.Proofs.Table.Consistency

/-!
# What precedence leaves in a cell

Precedences are only partly ordered: numbers and levels of one list compare, all else counts as
equal. Still some reduction is above all others that it compares with, and of a shift and the
reductions at least one side stays, so that no cell loses all of its actions.
-/

namespace IncrementalGlr

section Ranking

variable (lists : List (List PrecedenceEntry))

def Outranks : Precedence → Precedence → Prop
  | .name a, .name b => ∃ list place below, placeOfLevel? lists a = some (list, place) ∧
      placeOfLevel? lists b = some (list, below) ∧ place < below
  | .name _, _ => False
  | _, .name _ => False
  | a, b => b.number < a.number

variable {lists} {a b c : Precedence}

theorem comparePrecedence_eq_gt : comparePrecedence lists a b = .gt ↔ Outranks lists a b := by
  cases a <;> cases b <;>
    simp only [comparePrecedence, Outranks, reduceCtorEq, Int.compare_eq_gt]
  next a b =>
    cases placeOfLevel? lists a with
    | none => simp
    | some placeA =>
      cases placeOfLevel? lists b with
      | none => simp
      | some placeB =>
        obtain ⟨listA, placeA⟩ := placeA
        obtain ⟨listB, placeB⟩ := placeB
        by_cases same : listA = listB
        · subst same
          simp [Nat.compare_eq_gt]
        · simp [same, Ne.symm same]

theorem comparePrecedence_swap (lists : List (List PrecedenceEntry)) (a b : Precedence) :
    (comparePrecedence lists a b).swap = comparePrecedence lists b a := by
  cases a <;> cases b <;> simp only [comparePrecedence, Ordering.swap_eq, Int.compare_swap]
  next a b =>
    cases placeOfLevel? lists a with
    | none => cases placeOfLevel? lists b <;> rfl
    | some placeA =>
      cases placeOfLevel? lists b with
      | none => rfl
      | some placeB =>
        by_cases same : placeA.1 = placeB.1
        · simp [same, Nat.compare_swap]
        · simp [same, Ne.symm same]

theorem not_outranks_self : ¬ Outranks lists a a := by
  intro above
  cases a with
  | none => exact Int.lt_irrefl _ above
  | integer value => exact Int.lt_irrefl _ above
  | name level =>
    obtain ⟨_, _, _, here, there, below⟩ := above
    cases here.symm.trans there
    exact Nat.lt_irrefl _ below

theorem Outranks.trans (h : Outranks lists a b) (h' : Outranks lists b c) :
    Outranks lists a c := by
  cases a <;> cases b <;> cases c <;> simp only [Outranks] at h h' ⊢
  case name.name.name =>
    obtain ⟨list, place, middle, first, second, below⟩ := h
    obtain ⟨_, _, last, second', third, below'⟩ := h'
    cases second.symm.trans second'
    exact ⟨list, place, last, first, third, Nat.lt_trans below below'⟩
  all_goals omega

end Ranking

namespace LrGrammar

variable {lr : LrGrammar} {terminal production : Nat} {shifts : List Precedence}
  {kernel : List Item} {reduces : List Nat} {shift : Option Nat}

theorem compare_swap (lr : LrGrammar) (a b : Precedence) :
    (lr.compare a b).swap = lr.compare b a :=
  comparePrecedence_swap _ a b

theorem compare_eq_lt {a b : Precedence} : lr.compare a b = .lt ↔ lr.compare b a = .gt := by
  rw [← lr.compare_swap a b, Ordering.swap_eq_gt]

theorem compare_eq_comm {a b : Precedence} : lr.compare a b = .eq ↔ lr.compare b a = .eq := by
  rw [← lr.compare_swap a b, Ordering.swap_eq_eq]

def ReducesAbove (lr : LrGrammar) (production other : Nat) : Prop :=
  lr.compare (lr.reducePrecedence production).1 (lr.reducePrecedence other).1 = .gt

theorem isStrictOrder_reducesAbove (lr : LrGrammar) : IsStrictOrder Nat lr.ReducesAbove where
  irrefl _ above := not_outranks_self (comparePrecedence_eq_gt.1 above)
  trans _ _ _ above above' := comparePrecedence_eq_gt.2
    ((comparePrecedence_eq_gt.1 above).trans (comparePrecedence_eq_gt.1 above'))

theorem mem_strongest : production ∈ lr.strongest reduces ↔
    production ∈ reduces ∧ ∀ other ∈ reduces, ¬ lr.ReducesAbove other production := by
  simp [strongest, ReducesAbove]

theorem strongest_ne_nil (some : reduces ≠ []) : lr.strongest reduces ≠ [] := by
  have := lr.isStrictOrder_reducesAbove
  have founded := (List.finite_toSet reduces).wellFoundedOn (r := lr.ReducesAbove)
  obtain ⟨first, there⟩ := List.exists_mem_of_ne_nil reduces some
  obtain ⟨⟨top, member⟩, -, least⟩ := founded.has_min Set.univ ⟨⟨first, there⟩, trivial⟩
  exact List.ne_nil_of_mem (mem_strongest.2
    ⟨member, fun other there above => least ⟨other, there⟩ trivial above⟩)

theorem strongest_eq_self
    (equal : ∀ production ∈ reduces, ∀ other ∈ reduces,
      lr.compare (lr.reducePrecedence other).1 (lr.reducePrecedence production).1 = .eq) :
    lr.strongest reduces = reduces := by
  refine List.filter_eq_self.2 fun production member => ?_
  simp only [Bool.not_eq_true', List.any_eq_false]
  intro other there
  simp [equal production member other there]

theorem verdict_eq_reduceOnly (only : lr.verdict shifts production = .reduceOnly) :
    (∀ shift ∈ shifts, lr.compare (lr.reducePrecedence production).1 shift = .gt) ∨
      (∀ shift ∈ shifts, lr.compare (lr.reducePrecedence production).1 shift = .eq) ∧
        (lr.reducePrecedence production).2 = some .left := by
  simp only [verdict, List.all_map, List.all_eq_true, Function.comp_apply, beq_iff_eq] at only
  split at only
  · contradiction
  · split at only
    · next below => exact .inl fun shift member => compare_eq_lt.1 (below shift member)
    · split at only
      · next equal =>
        split at only
        · next left => exact .inr ⟨fun shift member => compare_eq_comm.1 (equal shift member), left⟩
        · contradiction
        · contradiction
      · contradiction

theorem verdict_eq_both (some : shifts ≠ [])
    (equal : ∀ shift ∈ shifts, lr.compare shift (lr.reducePrecedence production).1 = .eq)
    (plain : (lr.reducePrecedence production).2 = none) :
    lr.verdict shifts production = .both := by
  obtain ⟨first, rest, rfl⟩ := List.exists_cons_of_ne_nil some
  have here := equal first (List.mem_cons_self ..)
  have all : ∀ order, order ≠ .eq → ((first :: rest).map fun shift =>
      lr.compare shift (lr.reducePrecedence production).1).all (· == order) = false := by
    intro order other
    simp [here, Ne.symm other]
  have whole : ((first :: rest).map fun shift =>
      lr.compare shift (lr.reducePrecedence production).1).all (· == .eq) = true := by
    simpa using equal
  rw [verdict]
  dsimp only
  rw [all .gt (by decide), all .lt (by decide), whole, plain]
  rfl

variable {item : Item} {precedence : Precedence} {id : Nat} {state : LrState}

def ShiftsAt (lr : LrGrammar) (terminal : Nat) (item : Item) (precedence : Precedence) : Prop :=
  ∃ dot before next, item.dot = dot + 1 ∧
    (lr.stepsOf item.production)[dot]? = some before ∧
    (lr.stepsOf item.production)[dot + 1]? = some next ∧
    lr.grammar.Begins [next.symbol] terminal ∧ before.precedence = precedence

/-- What a shift counts as: the precedences of the items that shift. Where no item is behind a step,
a shift has no precedence. -/
def CountsAs (lr : LrGrammar) (items : List Item) (terminal : Nat) (precedence : Precedence) :
    Prop :=
  (∃ item ∈ items, lr.ShiftsAt terminal item precedence) ∨
    (∀ item ∈ items, ∀ other, ¬ lr.ShiftsAt terminal item other) ∧ precedence = .none

theorem startsWith_iff (closed : lr.Closed) (sound : lr.first.Sound lr.grammar) {symbol : Sym} :
    lr.first.startsWith symbol terminal = true ↔ lr.grammar.Begins [symbol] terminal := by
  have begins : (lr.first.ofSteps [.plain symbol]).1.contains terminal = true ↔
      lr.grammar.Begins [symbol] terminal := FirstSets.begins_iff closed.first sound
  refine Iff.trans ?_ begins
  cases symbol with
  | terminal index => simp [FirstSets.startsWith, FirstSets.ofSteps, Step.plain]
  | nonterminal index => exact (FirstSets.mem_ofSteps_nonterminal rfl).symm

theorem shiftPrecedence?_eq_some (closed : lr.Closed) (sound : lr.first.Sound lr.grammar) :
    lr.shiftPrecedence? terminal item = some precedence ↔
      lr.ShiftsAt terminal item precedence := by
  obtain ⟨production, dot⟩ := item
  simp only [shiftPrecedence?, ShiftsAt, ← startsWith_iff closed sound]
  cases dot with
  | zero =>
    simp only [Nat.lt_irrefl, decide_false, Bool.false_and, Bool.false_eq_true, if_false]
    split <;> simp
  | succ dot =>
    cases goesOn : (lr.stepsOf production)[dot + 1]? with
    | none => simp [goesOn]
    | some next =>
      by_cases starts : lr.first.startsWith next.symbol terminal = true <;> simp [starts, goesOn]

theorem mem_shiftPrecedences (closed : lr.Closed) (sound : lr.first.Sound lr.grammar) :
    precedence ∈ lr.shiftPrecedences kernel terminal ↔
      lr.CountsAs (lr.items kernel) terminal precedence := by
  have whole : lr.shiftPrecedences kernel terminal
      = if (kernel.filterMap (lr.shiftPrecedence? terminal)).isEmpty then [.none]
        else kernel.filterMap (lr.shiftPrecedence? terminal) := rfl
  -- the items that are called are behind no step
  have own : ∀ other, (∃ item ∈ lr.items kernel, lr.ShiftsAt terminal item other) ↔
      ∃ item ∈ kernel, lr.shiftPrecedence? terminal item = some other := by
    intro other
    simp only [shiftPrecedence?_eq_some closed sound]
    refine ⟨?_, fun ⟨item, member, shifts⟩ => ⟨item, mem_items.2 (.inl member), shifts⟩⟩
    rintro ⟨item, member, shifts⟩
    rcases mem_items.1 member with old | ⟨_, _, start⟩
    · exact ⟨item, old, shifts⟩
    · obtain ⟨dot, _, _, behind, _⟩ := shifts
      rw [(closed.numbered.mem_startItems.1 start).1] at behind
      contradiction
  have none : (∀ item ∈ lr.items kernel, ∀ other, ¬ lr.ShiftsAt terminal item other) ↔
      kernel.filterMap (lr.shiftPrecedence? terminal) = [] := by
    rw [List.eq_nil_iff_forall_not_mem]
    simp only [List.mem_filterMap, ← own]
    exact ⟨fun never other ⟨item, member, shifts⟩ => never item member other shifts,
      fun never item member other shifts => never other ⟨item, member, shifts⟩⟩
  rw [CountsAs, own, none, whole, ← List.mem_filterMap]
  cases kernel.filterMap (lr.shiftPrecedence? terminal) <;> simp

theorem shiftPrecedences_ne_nil (lr : LrGrammar) (kernel : List Item) (terminal : Nat) :
    lr.shiftPrecedences kernel terminal ≠ [] := by
  rw [shiftPrecedences]
  dsimp only
  split
  · simp
  · next found => simpa using found

theorem exists_shiftsAt (closed : lr.Closed) (found : lr.states[id]? = some state)
    (later : id ≠ 0) (shifts : shift? state terminal ≠ none) :
    ∃ item ∈ lr.items state.kernel, ∃ precedence, lr.ShiftsAt terminal item precedence := by
  have called : ∀ item ∈ lr.items state.kernel, ∀ symbol, lr.symbolAt? item = some symbol →
      lr.grammar.Begins [symbol] terminal → ∃ first ∈ state.kernel, ∃ symbol,
        lr.symbolAt? first = some symbol ∧ lr.grammar.Begins [symbol] terminal := by
    refine closed.numbered.forall_items
      (fun item member symbol at_ begins => ⟨item, member, symbol, at_, begins⟩) ?_
    intro item nonterminal production flat ih at_ numbered symbol first begins
    have listed := (closed.numbered.mem_productionsOf nonterminal flat).2 ⟨production, numbered⟩
    refine ih _ at_ (PreparedGrammar.Begins.of_production ?_ listed)
    obtain ⟨step, rfl, here⟩ := rest_of_symbolAt? first
    have steps : flat.steps = step :: lr.rest ⟨production, 1⟩ := by
      have whole : lr.stepsOf production = flat.steps := by rw [stepsOf, numbered]
      exact whole.symm.trans here
    rw [FlatProduction.symbols, steps, List.map_cons]
    exact begins.append _
  obtain ⟨target, there⟩ := Option.ne_none_iff_exists'.1 shifts
  have nodup : (state.transitions.map (·.1)).Nodup := by
    rw [closed.numbered.automaton.symbols found]
    exact nodup_symbolsAt
  obtain ⟨index, rfl, transition⟩ := (shift?_eq_some nodup).1 there
  have symbol : .terminal index ∈ lr.symbolsAt (lr.items state.kernel) := by
    rw [← closed.numbered.automaton.symbols found]
    exact List.mem_map_of_mem transition
  obtain ⟨item, member, at_⟩ := mem_symbolsAt.1 symbol
  obtain ⟨first, own, symbol, at_, begins⟩ :=
    called item member _ at_ ⟨index, [], rfl, .refl _⟩
  obtain ⟨symbols, leads⟩ := closed.exists_leads found
  have inCore : first ∈ lr.core symbols := leads.kernel_eq closed found ▸ own
  refine ⟨first, mem_items.2 (.inl own), ?_⟩
  rcases eq_nil_or_of_mem_core inCore with ⟨rfl, -⟩ | ⟨_, behind, _, -, -, -, rfl⟩
  · exact absurd leads.nil later
  · obtain ⟨next, rfl, here⟩ := rest_of_symbolAt? at_
    have place : (lr.stepsOf behind.production)[behind.dot + 1]? = some next := by
      rw [← List.head?_drop]
      exact congrArg List.head? here
    have inside := (List.getElem?_eq_some_iff.1 place).1
    exact ⟨_, behind.dot, _, next, rfl, List.getElem?_eq_getElem (Nat.lt_of_succ_lt inside), place,
      begins, rfl⟩

def Decides (lr : LrGrammar) (state : LrState) (terminal : Nat) (shift : Option Nat)
    (reduces : List Nat) (precedence : Precedence) : Prop :=
  shift ≠ none ∧ lr.CountsAs (lr.items state.kernel) terminal precedence ∨
    ∃ production ∈ reduces, (lr.reducePrecedence production).1 = precedence

structure Settled (lr : LrGrammar) (id : Nat) (state : LrState) (terminal : Nat)
    (shift : Option Nat) (reduces : List Nat) (kept : List LrAction) : Prop where
  ne_nil : kept ≠ []
  sublist : kept.Sublist ((shift.map LrAction.shift).toList ++ reduces.map .reduce)
  shifts : shift ≠ none → id ≠ 0 →
    ∃ item ∈ lr.items state.kernel, ∃ precedence, lr.ShiftsAt terminal item precedence
  /-- A shift is left out for a reduction that stays, and is above the shift or as high and left
  associative. -/
  left_out : ∀ target ∈ shift, .shift target ∉ kept → ∃ production, .reduce production ∈ kept ∧
    ((∀ precedence, lr.CountsAs (lr.items state.kernel) terminal precedence →
        lr.compare (lr.reducePrecedence production).1 precedence = .gt) ∨
      (∀ precedence, lr.CountsAs (lr.items state.kernel) terminal precedence →
        lr.compare (lr.reducePrecedence production).1 precedence = .eq) ∧
        (lr.reducePrecedence production).2 = some .left)
  undecided : (∀ a b, lr.Decides state terminal shift reduces a →
      lr.Decides state terminal shift reduces b → lr.compare a b = .eq) →
    (∀ production ∈ reduces, (lr.reducePrecedence production).2 = none) →
    kept = (shift.map LrAction.shift).toList ++ reduces.map .reduce

theorem sublist_resolve (lr : LrGrammar) (kernel : List Item) (terminal : Nat)
    (shift : Option Nat) (reduces : List Nat) : (lr.resolve kernel terminal shift reduces).Sublist
      ((shift.map LrAction.shift).toList ++ reduces.map .reduce) := by
  have strongest : (lr.strongest reduces).Sublist reduces := List.filter_sublist
  cases shift with
  | none => exact strongest.map _
  | some target =>
    refine List.Sublist.append ?_ ((List.filter_sublist.trans strongest).map _)
    split
    · exact List.nil_sublist _
    · exact List.Sublist.refl _

theorem exists_reduceOnly {target : Nat}
    (gone : .shift target ∉ lr.resolve kernel terminal (some target) reduces) :
    ∃ production, .reduce production ∈ lr.resolve kernel terminal (some target) reduces ∧
      lr.verdict (lr.shiftPrecedences kernel terminal) production = .reduceOnly := by
  simp only [resolve] at gone ⊢
  split at gone
  · next dropped =>
    obtain ⟨production, member, only⟩ := List.any_eq_true.1 dropped
    have only := eq_of_beq only
    refine ⟨production, List.mem_append_right _ (List.mem_map_of_mem (List.mem_filter.2
      ⟨member, ?_⟩)), only⟩
    rw [only]
    rfl
  · simp at gone

theorem resolve_ne_nil (lr : LrGrammar) (kernel : List Item) (terminal : Nat)
    (candidate : shift ≠ none ∨ reduces ≠ []) :
    lr.resolve kernel terminal shift reduces ≠ [] := by
  cases shift with
  | none =>
    have left : lr.strongest reduces ≠ [] :=
      strongest_ne_nil (candidate.resolve_left fun none => none rfl)
    simpa [resolve] using left
  | some target =>
    intro none
    have gone : .shift target ∉ lr.resolve kernel terminal (some target) reduces := by simp [none]
    obtain ⟨production, member, -⟩ := exists_reduceOnly gone
    rw [none] at member
    contradiction

theorem resolve_eq_of_equal
    (equal : ∀ production ∈ reduces, ∀ other ∈ reduces,
      lr.compare (lr.reducePrecedence other).1 (lr.reducePrecedence production).1 = .eq)
    (level : shift ≠ none → ∀ precedence ∈ lr.shiftPrecedences kernel terminal,
      ∀ production ∈ reduces, lr.compare precedence (lr.reducePrecedence production).1 = .eq)
    (plain : ∀ production ∈ reduces, (lr.reducePrecedence production).2 = none) :
    lr.resolve kernel terminal shift reduces
      = (shift.map LrAction.shift).toList ++ reduces.map .reduce := by
  cases shift with
  | none => simp [resolve, strongest_eq_self equal]
  | some target =>
    have both : ∀ production ∈ reduces,
        lr.verdict (lr.shiftPrecedences kernel terminal) production = .both :=
      fun production member => verdict_eq_both (lr.shiftPrecedences_ne_nil kernel terminal)
        (fun precedence there => level (by simp) precedence there production member)
        (plain production member)
    have all : (reduces.filter fun production =>
        lr.verdict (lr.shiftPrecedences kernel terminal) production != .shiftOnly) = reduces :=
      List.filter_eq_self.2 fun production member => by rw [both production member]; rfl
    have none : (reduces.any fun production =>
        lr.verdict (lr.shiftPrecedences kernel terminal) production == .reduceOnly) = false := by
      rw [List.any_eq_false]
      intro production member
      rw [both production member]
      decide
    simp only [resolve, strongest_eq_self equal, all, none]
    rfl

def reducesOn (lr : LrGrammar) (id : Nat) (state : LrState) (terminal : Nat) : List Nat :=
  lr.reductions state ((lr.lookaheads lr.states).getD id []) terminal

/-- In every state of a grammar's automaton, a terminal on which something can be done keeps
something. -/
theorem settled_of_prepare {grammar : Grammar} {prepared : PreparedGrammar}
    (prepare : grammar.prepare = .ok prepared)
    (found : (ofGrammar prepared).states[id]? = some state)
    (candidate : shift? state terminal ≠ none ∨
      (ofGrammar prepared).reducesOn id state terminal ≠ []) :
    (ofGrammar prepared).Settled id state terminal (shift? state terminal)
      ((ofGrammar prepared).reducesOn id state terminal)
      ((ofGrammar prepared).resolve state.kernel terminal (shift? state terminal)
        ((ofGrammar prepared).reducesOn id state terminal)) := by
  have closed := closed_ofGrammar (Grammar.prepare_sound prepare).1
  have sound := FirstSets.sound_ofGrammar prepared
  refine ⟨resolve_ne_nil _ _ _ candidate, sublist_resolve _ _ _ _ _, fun shifts later => ?_,
    fun target shifts gone => ?_, fun equal plain => ?_⟩
  · exact exists_shiftsAt closed found later shifts
  · rw [Option.mem_def.1 shifts] at gone ⊢
    obtain ⟨production, kept, only⟩ := exists_reduceOnly gone
    refine ⟨production, kept, ?_⟩
    simp only [← mem_shiftPrecedences closed sound]
    exact verdict_eq_reduceOnly only
  · refine resolve_eq_of_equal (fun production member other there => ?_)
      (fun shifts precedence counts production member => ?_) plain
    · exact equal _ _ (.inr ⟨other, there, rfl⟩) (.inr ⟨production, member, rfl⟩)
    · exact equal _ _ (.inl ⟨shifts, (mem_shiftPrecedences closed sound).1 counts⟩)
        (.inr ⟨production, member, rfl⟩)

def sumGrammar : Grammar where
  name := "sums"
  rules := [("sum", .choice [.precLeft (.integer 1)
    (.seq [.symbol "sum", .string "+", .symbol "sum"]), .string "n"])]
  extras := []
  externals := []
  word := none
  supertypes := []
  reserved := []
  precedences := []

/-- Behind two sums, a plus can be shifted, and is settled against the reductions there. -/
theorem settled_sums : ∃ prepared state, sumGrammar.prepare = .ok prepared ∧
    (ofGrammar prepared).states[4]? = some state ∧ shift? state 1 = some 3 ∧
    (ofGrammar prepared).Settled 4 state 1 (shift? state 1)
      ((ofGrammar prepared).reducesOn 4 state 1)
      ((ofGrammar prepared).resolve state.kernel 1 (shift? state 1)
        ((ofGrammar prepared).reducesOn 4 state 1)) := by
  have runs : (sumGrammar.prepare.toOption.bind fun prepared =>
      ((ofGrammar prepared).states[4]?).map fun state => shift? state 1) = some (some 3) := by cbv
  obtain ⟨prepared, prepare, there⟩ := Option.bind_eq_some_iff.1 runs
  obtain ⟨state, found, shifts⟩ := Option.map_eq_some_iff.1 there
  exact ⟨prepared, state, ok_of_toOption prepare, found, shifts,
    settled_of_prepare (ok_of_toOption prepare) found (.inl (by simp [shifts]))⟩

end LrGrammar

end IncrementalGlr
