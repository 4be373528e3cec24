import Mathlib.Data.Finset.Powerset
import Mathlib.Data.List.Sort
import IncrementalGlr.Proofs.Interning
import IncrementalGlr.Proofs.Lalr.Items

/-!
# All states are found

A kernel is a sorted list of different items, so there are no more kernels than sets of items, and
the exploration reaches its end: every state has its transitions, and every transition leads to the
state whose kernel is reached along its symbol.
-/

namespace IncrementalGlr

theorem Item.le_iff {a b : Item} : a.le b = true ↔
    a.production < b.production ∨ a.production = b.production ∧ a.dot ≤ b.dot := by
  simp [Item.le]

namespace LrGrammar

variable {lr : LrGrammar} {item : Item} {items kernel : List Item} {symbol : Sym}

def allItems (lr : LrGrammar) : List Item :=
  (List.range (lr.productions.size + 1)).flatMap fun production =>
    (List.range ((lr.stepsOf production).length + 1)).map (Item.mk production)

theorem mem_allItems : item ∈ lr.allItems ↔
    item.production ≤ lr.productions.size ∧ item.dot ≤ (lr.stepsOf item.production).length := by
  simp only [allItems, List.mem_flatMap, List.mem_range, List.mem_map]
  constructor
  · rintro ⟨production, known, dot, inside, rfl⟩
    exact ⟨Nat.lt_succ_iff.1 known, Nat.lt_succ_iff.1 inside⟩
  · rintro ⟨known, inside⟩
    exact ⟨item.production, Nat.lt_succ_of_le known, item.dot, Nat.lt_succ_of_le inside, rfl⟩

theorem length_allItems (lr : LrGrammar) : lr.allItems.length = lr.itemCount := by
  have total : ∀ (productions : List (Nat × FlatProduction)) (start : Nat),
      productions.foldl (fun count entry => count + entry.2.steps.length + 1) start
        = start + (productions.map fun production => production.2.steps.length + 1).sum := by
    intro productions
    induction productions with
    | nil => simp
    | cons production productions ih =>
      intro start
      rw [List.foldl_cons, ih]
      simp
      omega
  have steps : (List.range lr.productions.size).map (fun p => (lr.stepsOf p).length + 1)
      = lr.productions.toList.map fun production => production.2.steps.length + 1 := by
    refine List.ext_getElem (by simp) fun p inside _ => ?_
    have known : p < lr.productions.size := by simpa using inside
    simp [stepsOf, known]
  rw [itemCount, ← Array.foldl_toList, total, allItems, List.length_flatMap, List.range_succ,
    List.map_append, List.sum_append]
  simp only [List.length_map, List.length_range]
  rw [steps]
  simp [stepsOf, Nat.add_comm]

/-- What all kernels have in common: they are sorted sets of items, and but for the start kernel
their items are behind a symbol. -/
structure Proper (lr : LrGrammar) (kernel : List Item) : Prop where
  sorted : kernel.Pairwise fun a b => a.le b = true
  nodup : kernel.Nodup
  inside : ∀ item ∈ kernel, item ∈ lr.allItems
  dots : kernel = lr.startKernel ∨ ∀ item ∈ kernel, 0 < item.dot

theorem proper_startKernel (lr : LrGrammar) : lr.Proper lr.startKernel where
  sorted := List.pairwise_singleton ..
  nodup := List.nodup_singleton _
  inside item member := by
    rw [List.mem_singleton.1 member]
    exact mem_allItems.2 ⟨Nat.le_refl _, Nat.zero_le _⟩
  dots := .inl rfl

theorem Proper.not_mem_start (proper : lr.Proper kernel) {production : Nat}
    (known : production < lr.productions.size) : ⟨production, 0⟩ ∉ kernel := by
  intro member
  rcases proper.dots with rfl | dots
  · have := congrArg Item.production (List.mem_singleton.1 member)
    simp only [augmented] at this
    omega
  · exact Nat.lt_irrefl 0 (dots _ member)

theorem Numbered.lt_of_mem_startItems (numbered : lr.Numbered) {nonterminal : Nat}
    (member : item ∈ lr.startItems nonterminal) :
    item.dot = 0 ∧ item.production < lr.productions.size := by
  obtain ⟨start, _, found⟩ := numbered.mem_startItems.1 member
  exact ⟨start, (Array.getElem?_eq_some_iff.1 found).1⟩

theorem Proper.nodup_items (proper : lr.Proper kernel) (numbered : lr.Numbered) :
    (lr.items kernel).Nodup := by
  rw [LrGrammar.items, List.nodup_append]
  refine ⟨proper.nodup, List.nodup_flatMap.2 ⟨fun nonterminal _ => ?_, ?_⟩, ?_⟩
  · refine List.Nodup.map ?_ (numbered.nodup nonterminal)
    exact fun a b same => congrArg Item.production same
  · refine (BitSet.nodup_toList _).imp fun different => ?_
    intro item member member'
    obtain ⟨_, _, found⟩ := numbered.mem_startItems.1 member
    obtain ⟨_, _, found'⟩ := numbered.mem_startItems.1 member'
    rw [found] at found'
    cases found'
    exact different rfl
  · rintro item member other member' rfl
    obtain ⟨nonterminal, _, start⟩ := List.mem_flatMap.1 member'
    obtain ⟨zero, known⟩ := numbered.lt_of_mem_startItems start
    refine proper.not_mem_start known ?_
    rwa [← zero]

theorem Proper.mem_allItems (proper : lr.Proper kernel) (numbered : lr.Numbered)
    (member : item ∈ lr.items kernel) : item ∈ lr.allItems := by
  rcases mem_items.1 member with old | ⟨nonterminal, _, start⟩
  · exact proper.inside item old
  · obtain ⟨zero, known⟩ := numbered.lt_of_mem_startItems start
    exact LrGrammar.mem_allItems.2 ⟨Nat.le_of_lt known, zero ▸ Nat.zero_le _⟩

theorem Proper.goto (proper : lr.Proper kernel) (numbered : lr.Numbered) (symbol : Sym) :
    lr.Proper (lr.goto (lr.items kernel) symbol) where
  sorted := by
    refine List.pairwise_mergeSort (fun a b c => ?_) (fun a b => ?_) _
    · simp only [Item.le_iff]
      omega
    · simp only [Bool.or_eq_true, Item.le_iff]
      omega
  nodup := by
    rw [LrGrammar.goto, (List.mergeSort_perm _ _).nodup_iff]
    refine List.Nodup.map ?_ ((proper.nodup_items numbered).filter _)
    rintro ⟨p, d⟩ ⟨q, e⟩ same
    simpa [Item.next] using same
  inside item member := by
    obtain ⟨before, there, found, rfl⟩ := mem_goto.1 member
    obtain ⟨known, _⟩ := LrGrammar.mem_allItems.1 (proper.mem_allItems numbered there)
    refine LrGrammar.mem_allItems.2 ⟨known, ?_⟩
    obtain ⟨step, _, rest⟩ := rest_of_symbolAt? found
    have := congrArg List.length rest
    rw [LrGrammar.rest, List.length_drop, List.length_cons] at this
    simp only [Item.next]
    omega
  dots := by
    refine .inr fun item member => ?_
    obtain ⟨before, _, _, rfl⟩ := mem_goto.1 member
    exact Nat.succ_pos _

theorem Proper.ext {other : List Item} (proper : lr.Proper kernel) (proper' : lr.Proper other)
    (same : ∀ item, item ∈ kernel ↔ item ∈ other) : kernel = other := by
  refine List.Perm.eq_of_pairwise (fun x y _ _ h h' => ?_) proper.sorted proper'.sorted
    ((List.perm_ext_iff_of_nodup proper.nodup proper'.nodup).2 same)
  rw [Item.le_iff] at h h'
  cases x
  cases y
  simp only [Item.mk.injEq]
  dsimp only at h h'
  omega

theorem length_kernels_le {kernels : List (List Item)} (nodup : kernels.Nodup)
    (proper : ∀ kernel ∈ kernels, lr.Proper kernel) : kernels.length ≤ 2 ^ lr.itemCount := by
  have distinct : (kernels.map List.toFinset).Nodup := by
    refine nodup.map_on fun a memberA b memberB same => ?_
    refine (proper a memberA).ext (proper b memberB) fun item => ?_
    rw [← List.mem_toFinset, same, List.mem_toFinset]
  have subsets : (kernels.map List.toFinset).toFinset ⊆ lr.allItems.toFinset.powerset := by
    intro set member
    obtain ⟨kernel, inKernels, rfl⟩ := List.mem_map.1 (List.mem_toFinset.1 member)
    refine Finset.mem_powerset.2 fun item inside => ?_
    exact List.mem_toFinset.2
      ((proper kernel inKernels).inside item (List.mem_toFinset.1 inside))
  calc kernels.length = (kernels.map List.toFinset).toFinset.card := by
        rw [List.toFinset_card_of_nodup distinct, List.length_map]
    _ ≤ 2 ^ lr.allItems.toFinset.card := by
        rw [← Finset.card_powerset]
        exact Finset.card_le_card subsets
    _ ≤ 2 ^ lr.itemCount :=
        Nat.pow_le_pow_right (by decide) (lr.length_allItems ▸ List.toFinset_card_le _)

def Kept (kernels next : Array (List Item)) : Prop :=
  ∀ (i : Nat) (kernel : List Item), kernels[i]? = some kernel → next[i]? = some kernel

structure Distinct (lr : LrGrammar) (kernels : Array (List Item)) : Prop where
  nodup : kernels.toList.Nodup
  proper : ∀ kernel ∈ kernels, lr.Proper kernel

variable {kernels : Array (List Item)}

theorem numberOfKernel_spec (distinct : lr.Distinct kernels) (proper : lr.Proper kernel) :
    lr.Distinct (numberOfKernel kernels kernel).2 ∧
      Kept kernels (numberOfKernel kernels kernel).2 ∧
      (numberOfKernel kernels kernel).2[(numberOfKernel kernels kernel).1]? = some kernel := by
  have interned : Interned kernels kernel (numberOfKernel kernels kernel) :=
    interned_findIdx? kernels kernel
  refine ⟨⟨interned.nodup distinct.nodup, fun other member => ?_⟩, interned.kept, interned.here⟩
  rcases interned.mem other member with member | rfl
  · exact distinct.proper other member
  · exact proper

theorem transitions_spec (distinct : lr.Distinct kernels) (numbered : lr.Numbered)
    (proper : lr.Proper kernel) :
    lr.Distinct (lr.transitions kernels kernel).2 ∧
      Kept kernels (lr.transitions kernels kernel).2 ∧
      (lr.transitions kernels kernel).1.map (·.1) = lr.symbolsAt (lr.items kernel) ∧
      ∀ symbol target, (symbol, target) ∈ (lr.transitions kernels kernel).1 →
        (lr.transitions kernels kernel).2[target]? = some (lr.goto (lr.items kernel) symbol) := by
  let next (state : List (Sym × Nat) × Array (List Item)) (symbol : Sym) :=
    let numbered := numberOfKernel state.2 (lr.goto (lr.items kernel) symbol)
    ((symbol, numbered.1) :: state.1, numbered.2)
  -- what is found for a part of the symbols, from any kernels on
  have collected : ∀ (symbols : List Sym) (found : List (Sym × Nat)) (kernels : Array (List Item)),
      lr.Distinct kernels →
      (∀ symbol target, (symbol, target) ∈ found →
        kernels[target]? = some (lr.goto (lr.items kernel) symbol)) →
      lr.Distinct (symbols.foldl next (found, kernels)).2 ∧
        Kept kernels (symbols.foldl next (found, kernels)).2 ∧
        (symbols.foldl next (found, kernels)).1.map (·.1) = symbols.reverse ++ found.map (·.1) ∧
        ∀ symbol target, (symbol, target) ∈ (symbols.foldl next (found, kernels)).1 →
          (symbols.foldl next (found, kernels)).2[target]?
            = some (lr.goto (lr.items kernel) symbol) := by
    intro symbols
    induction symbols with
    | nil =>
      exact fun found kernels distinct known => ⟨distinct, fun _ _ there => there, rfl, known⟩
    | cons symbol symbols ih =>
      intro found kernels distinct known
      obtain ⟨distinct, kept, here⟩ :=
        numberOfKernel_spec distinct (proper.goto numbered symbol)
      obtain ⟨distinct', kept', names, targets⟩ := ih ((symbol, _) :: found) _ distinct
        (fun other target member => by
          rcases List.mem_cons.1 member with same | member
          · cases same
            exact here
          · exact kept _ _ (known other target member))
      refine ⟨distinct', fun i k there => kept' i k (kept i k there), ?_, targets⟩
      rw [List.foldl_cons]
      exact names.trans (by simp)
  obtain ⟨distinct, kept, names, targets⟩ :=
    collected (lr.symbolsAt (lr.items kernel)) [] kernels distinct (by simp)
  refine ⟨distinct, kept, ?_, fun symbol target member => targets symbol target ?_⟩
  · rw [LrGrammar.transitions]
    change (List.reverse _).map _ = _
    rw [List.map_reverse]
    exact (congrArg List.reverse names).trans (by simp)
  · exact List.mem_reverse.1 member

structure Exploring (lr : LrGrammar) (kernels : Array (List Item)) (states : Array LrState) :
    Prop where
  distinct : lr.Distinct kernels
  start : kernels[0]? = some lr.startKernel
  ahead : states.size ≤ kernels.size
  states : ∀ (i : Nat) (state : LrState), states[i]? = some state → kernels[i]? = some state.kernel ∧
    state.transitions.map (·.1) = lr.symbolsAt (lr.items state.kernel) ∧
    ∀ symbol target, (symbol, target) ∈ state.transitions →
      kernels[target]? = some (lr.goto (lr.items state.kernel) symbol)

theorem Exploring.step {states : Array LrState} (exploring : lr.Exploring kernels states)
    (numbered : lr.Numbered) (found : kernels[states.size]? = some kernel) :
    lr.Exploring (lr.transitions kernels kernel).2
      (states.push ⟨kernel, (lr.transitions kernels kernel).1⟩) := by
  have proper := exploring.distinct.proper kernel (Array.mem_of_getElem? found)
  obtain ⟨distinct, kept, names, targets⟩ :=
    transitions_spec exploring.distinct numbered proper
  have inside := (Array.getElem?_eq_some_iff.1 (kept _ _ found)).1
  refine ⟨distinct, kept _ _ exploring.start, (Array.size_push ..).trans_le inside,
    fun i state there => ?_⟩
  rw [Array.getElem?_push] at there
  split at there
  · cases there
    subst i
    exact ⟨kept _ _ found, names, targets⟩
  · obtain ⟨here, names, targets⟩ := exploring.states i state there
    exact ⟨kept _ _ here, names, fun symbol target member =>
      kept _ _ (targets symbol target member)⟩

theorem Exploring.explore {states : Array LrState} {fuel : Nat}
    (exploring : lr.Exploring kernels states) (numbered : lr.Numbered)
    (enough : 2 ^ lr.itemCount ≤ states.size + fuel) :
    ∃ all, lr.Exploring all (lr.explore fuel states.size kernels states) ∧
      all.size = (lr.explore fuel states.size kernels states).size := by
  induction fuel generalizing kernels states with
  | zero =>
    have bound := length_kernels_le exploring.distinct.nodup
      (fun kernel member => exploring.distinct.proper kernel (Array.mem_toList_iff.1 member))
    rw [Array.length_toList] at bound
    exact ⟨kernels, exploring, Nat.le_antisymm (by simp only [LrGrammar.explore]; omega)
      exploring.ahead⟩
  | succ fuel ih =>
    rw [LrGrammar.explore]
    split
    · next none =>
      have := Array.getElem?_eq_none_iff.1 none
      exact ⟨kernels, exploring, Nat.le_antisymm this exploring.ahead⟩
    · next kernel found =>
      have := ih (exploring.step numbered found) (by simp; omega)
      rwa [Array.size_push] at this

structure Automaton (lr : LrGrammar) (states : Array LrState) : Prop where
  start : ∃ state, states[0]? = some state ∧ state.kernel = lr.startKernel
  proper : ∀ {id : Nat} {state : LrState}, states[id]? = some state → lr.Proper state.kernel
  symbols : ∀ {id : Nat} {state : LrState}, states[id]? = some state →
    state.transitions.map (·.1) = lr.symbolsAt (lr.items state.kernel)
  target : ∀ {id : Nat} {state : LrState}, states[id]? = some state →
    ∀ {symbol : Sym} {target : Nat}, (symbol, target) ∈ state.transitions →
      ∃ next, states[target]? = some next ∧
        next.kernel = lr.goto (lr.items state.kernel) symbol

theorem Numbered.exists_kernels (numbered : lr.Numbered) :
    ∃ all, lr.Exploring all lr.states ∧ all.size = lr.states.size := by
  have start : lr.Exploring #[lr.startKernel] #[] := by
    refine ⟨⟨by simp, fun kernel member => ?_⟩, rfl, Nat.zero_le _, by simp⟩
    rw [show kernel = lr.startKernel by simpa using member]
    exact lr.proper_startKernel
  exact start.explore numbered
    (by simp [Nat.one_shiftLeft] : 2 ^ lr.itemCount ≤ _ + 1 <<< lr.itemCount)

theorem Numbered.automaton (numbered : lr.Numbered) : lr.Automaton lr.states := by
  obtain ⟨all, exploring, size⟩ := numbered.exists_kernels
  have state : ∀ {i : Nat} {kernel : List Item}, all[i]? = some kernel →
      ∃ state, lr.states[i]? = some state ∧ state.kernel = kernel := by
    intro i kernel found
    have inside : i < lr.states.size := size ▸ (Array.getElem?_eq_some_iff.1 found).1
    have known := Array.getElem?_eq_getElem inside
    refine ⟨lr.states[i], known, ?_⟩
    rw [(exploring.states i _ known).1] at found
    exact Option.some.inj found
  exact ⟨state exploring.start,
    fun found => exploring.distinct.proper _
      (Array.mem_of_getElem? (exploring.states _ _ found).1),
    fun found => (exploring.states _ _ found).2.1,
    fun found _ _ member => state ((exploring.states _ _ found).2.2 _ _ member)⟩

theorem Numbered.eq_of_kernel_eq (numbered : lr.Numbered) {id id' : Nat} {state state' : LrState}
    (found : lr.states[id]? = some state) (found' : lr.states[id']? = some state')
    (same : state.kernel = state'.kernel) : id = id' := by
  obtain ⟨all, exploring, _⟩ := numbered.exists_kernels
  have here := (exploring.states id state found).1
  have here' := (exploring.states id' state' found').1
  rw [← same] at here'
  rw [← Array.getElem?_toList] at here here'
  exact (List.getElem?_inj (List.getElem?_eq_some_iff.1 here).1 exploring.distinct.nodup).1
    (here.trans here'.symm)

theorem forall_states {p : List Item → Prop} (start : p lr.startKernel)
    (next : ∀ kernel symbol, p kernel → symbol ∈ lr.symbolsAt (lr.items kernel) →
      p (lr.goto (lr.items kernel) symbol)) {id : Nat} {state : LrState}
    (found : lr.states[id]? = some state) : p state.kernel := by
  have interned : ∀ {kernels : Array (List Item)} {kernel : List Item},
      (∀ other ∈ kernels, p other) → p kernel →
        ∀ other ∈ (numberOfKernel kernels kernel).2, p other := by
    intro kernels kernel known new other member
    rcases (interned_findIdx? kernels kernel).mem other member with old | rfl
    · exact known other old
    · exact new
  have step : ∀ {kernels : Array (List Item)} {kernel : List Item}, (∀ other ∈ kernels, p other) →
      p kernel → ∀ other ∈ (lr.transitions kernels kernel).2, p other := by
    intro kernels kernel known own
    let reached (found : List (Sym × Nat) × Array (List Item)) : Prop := ∀ other ∈ found.2, p other
    refine List.foldlRecOn (motive := reached) _ _ known fun found all symbol there => ?_
    exact interned all (next kernel symbol own there)
  have explored : ∀ fuel index (kernels : Array (List Item)) (states : Array LrState),
      (∀ kernel ∈ kernels, p kernel) → (∀ state ∈ states, p state.kernel) →
        ∀ state ∈ lr.explore fuel index kernels states, p state.kernel := by
    intro fuel
    induction fuel with
    | zero => exact fun _ _ _ _ known => known
    | succ fuel ih =>
      intro index kernels states all known
      rw [LrGrammar.explore]
      split
      · exact known
      · next kernel here =>
        have own := all kernel (Array.mem_of_getElem? here)
        refine ih _ _ _ (step all own) fun state member => ?_
        rcases Array.mem_push.1 member with old | rfl
        · exact known state old
        · exact own
  exact explored _ _ _ _ (by simpa using start) (by simp) state (Array.mem_of_getElem? found)

end LrGrammar

end IncrementalGlr
