import IncrementalGlr.Lalr.First
import IncrementalGlr.Proofs.BitSet
import IncrementalGlr.Proofs.Grammar.Derivation
import IncrementalGlr.Proofs.Grammar.Preparation

/-!
# First sets are complete

The iteration ends in sets that the productions do not extend any more. Such sets hold every
terminal that can begin what is derived.
-/

namespace IncrementalGlr

namespace FirstSets

variable {grammar : PreparedGrammar} {sets other : FirstSets} {steps : List Step}

structure Le (sets other : FirstSets) : Prop where
  first : ∀ index terminal, (sets.first.getD index BitSet.empty).contains terminal = true →
    (other.first.getD index BitSet.empty).contains terminal = true
  nullable : ∀ index, sets.nullable.getD index false = true →
    other.nullable.getD index false = true

theorem ofSteps_mono (le : sets.Le other) (steps : List Step) :
    (∀ terminal, (sets.ofSteps steps).1.contains terminal = true →
      (other.ofSteps steps).1.contains terminal = true) ∧
    ((sets.ofSteps steps).2 = true → (other.ofSteps steps).2 = true) := by
  induction steps with
  | nil => exact ⟨fun _ => id, id⟩
  | cons step rest ih =>
    simp only [ofSteps]
    cases step.symbol with
    | terminal index => exact ⟨fun _ => id, id⟩
    | nonterminal index =>
      have own := le.first index
      have empty := le.nullable index
      dsimp only
      by_cases nullable : sets.nullable.getD index false = true
      · rw [if_pos nullable, if_pos (empty nullable)]
        refine ⟨fun terminal => ?_, ih.2⟩
        simp only [BitSet.contains_union, Bool.or_eq_true]
        exact Or.imp (own terminal) (ih.1 terminal)
      · rw [if_neg nullable]
        refine ⟨fun terminal member => ?_, fun h => absurd h Bool.false_ne_true⟩
        split
        · exact (BitSet.contains_union ..).trans (by rw [own terminal member, Bool.true_or])
        · exact own terminal member

theorem mem_ofProductions {productions : List FlatProduction} {terminal : Nat} :
    (sets.ofProductions productions).1.contains terminal = true ↔
      ∃ production ∈ productions, (sets.ofSteps production.steps).1.contains terminal = true := by
  suffices collected : ∀ start : BitSet × Bool,
      (productions.foldl (fun collected production =>
        (collected.1.union (sets.ofSteps production.steps).1,
          collected.2 || (sets.ofSteps production.steps).2)) start).1.contains terminal = true ↔
        start.1.contains terminal = true ∨ ∃ production ∈ productions,
          (sets.ofSteps production.steps).1.contains terminal = true from
    (collected (BitSet.empty, false)).trans (by simp)
  induction productions with
  | nil => simp
  | cons production productions ih =>
    intro start
    rw [List.foldl_cons, ih]
    simp [or_assoc]

theorem nullable_ofProductions {productions : List FlatProduction} :
    (sets.ofProductions productions).2 = true ↔
      ∃ production ∈ productions, (sets.ofSteps production.steps).2 = true := by
  suffices collected : ∀ start : BitSet × Bool,
      (productions.foldl (fun collected production =>
        (collected.1.union (sets.ofSteps production.steps).1,
          collected.2 || (sets.ofSteps production.steps).2)) start).2 = true ↔
        start.2 = true ∨ ∃ production ∈ productions,
          (sets.ofSteps production.steps).2 = true from
    (collected (BitSet.empty, false)).trans (by simp)
  induction productions with
  | nil => simp
  | cons production productions ih =>
    intro start
    rw [List.foldl_cons, ih]
    simp [or_assoc]

theorem first_extend {index terminal : Nat} :
    ((extend grammar sets).first.getD index BitSet.empty).contains terminal = true ↔
      ∃ production ∈ grammar.productionsOf index,
        (sets.ofSteps production.steps).1.contains terminal = true := by
  rw [← mem_ofProductions, PreparedGrammar.productionsOf, extend, Array.getD_eq_getD_getElem?]
  cases found : grammar.nonterminals[index]? <;> simp [found, ofProductions]

theorem nullable_extend {index : Nat} :
    (extend grammar sets).nullable.getD index false = true ↔
      ∃ production ∈ grammar.productionsOf index, (sets.ofSteps production.steps).2 = true := by
  rw [← nullable_ofProductions, PreparedGrammar.productionsOf, extend, Array.getD_eq_getD_getElem?]
  cases found : grammar.nonterminals[index]? <;> simp [found, ofProductions]

theorem extend_mono (le : sets.Le other) : (extend grammar sets).Le (extend grammar other) where
  first _ _ member := by
    obtain ⟨production, there, own⟩ := first_extend.1 member
    exact first_extend.2 ⟨production, there, (ofSteps_mono le _).1 _ own⟩
  nullable _ member := by
    obtain ⟨production, there, own⟩ := nullable_extend.1 member
    exact nullable_extend.2 ⟨production, there, (ofSteps_mono le _).2 own⟩

/-- Sets for the nonterminals of a grammar, with terminals of the grammar. -/
structure Fits (grammar : PreparedGrammar) (sets : FirstSets) : Prop where
  first : sets.first.size = grammar.nonterminals.size
  nullable : sets.nullable.size = grammar.nonterminals.size
  within : ∀ index, (sets.first.getD index BitSet.empty).Within (grammar.terminals.size + 1)

/-- The members of the sets; behind the terminals of a nonterminal comes its nullable mark. -/
def members (grammar : PreparedGrammar) : Members FirstSets (Nat × Nat) where
  valid sets := sets.Fits grammar
  mem sets place :=
    if place.2 = grammar.terminals.size + 1 then sets.nullable.getD place.1 false
    else (sets.first.getD place.1 BitSet.empty).contains place.2
  all := Finset.range grammar.nonterminals.size ×ˢ Finset.range (grammar.terminals.size + 2)
  ext := by
    rintro ⟨firstX, nullableX⟩ ⟨firstY, nullableY⟩ fitsX fitsY same
    have first : firstX = firstY := by
      refine (BitSet.inArray grammar.nonterminals.size (grammar.terminals.size + 1)).ext
        ⟨fitsX.first, fitsX.within⟩ ⟨fitsY.first, fitsY.within⟩ fun place inside => ?_
      simp only [BitSet.inArray, Finset.mem_product, Finset.mem_range] at inside
      have here := same place (by simp; omega)
      rwa [if_neg (by omega), if_neg (by omega)] at here
    have nullable : nullableX = nullableY := by
      have sizeX : nullableX.size = _ := fitsX.nullable
      have sizeY : nullableY.size = _ := fitsY.nullable
      refine Array.ext (sizeX.trans sizeY.symm) fun i inX inY => ?_
      have here := same (i, grammar.terminals.size + 1) (by simp; omega)
      simpa [Array.getD_eq_getD_getElem?, inX, inY] using here
    rw [first, nullable]

theorem within_ofSteps (fits : sets.Fits grammar)
    (has : ∀ step ∈ steps, grammar.Has step.symbol) :
    (sets.ofSteps steps).1.Within (grammar.terminals.size + 1) := by
  induction steps with
  | nil => exact BitSet.within_empty _
  | cons step rest ih =>
    have rest := ih fun step member => has step (List.mem_cons_of_mem _ member)
    have own := has step (List.mem_cons_self ..)
    rw [ofSteps]
    cases symbol : step.symbol with
    | terminal index =>
      rw [symbol] at own
      exact BitSet.within_singleton (Nat.succ_lt_succ own)
    | nonterminal index =>
      dsimp only
      split
      · exact (fits.within index).union rest
      · exact fits.within index

theorem fits_extend (wellFormed : grammar.WellFormed) (fits : sets.Fits grammar) :
    (extend grammar sets).Fits grammar where
  first := by simp [extend]
  nullable := by simp [extend]
  within index terminal member := by
    obtain ⟨production, there, own⟩ := first_extend.1 member
    exact within_ofSteps fits (wellFormed.steps production there) terminal own

theorem members_of_le (le : sets.Le other) : (members grammar).Le sets other := by
  intro place
  simp only [members]
  split
  · exact le.nullable place.1
  · exact le.first place.1 place.2

theorem ofGrammar_spec (wellFormed : grammar.WellFormed) :
    (ofGrammar grammar).Fits grammar ∧ extend grammar (ofGrammar grammar) = ofGrammar grammar := by
  have start : ∀ (index : Nat), ((grammar.nonterminals.map fun _ => BitSet.empty).getD index
      BitSet.empty) = BitSet.empty := by
    intro index
    rw [Array.getD_eq_getD_getElem?, Array.getElem?_map]
    cases grammar.nonterminals[index]? <;> rfl
  have start' : ∀ (index : Nat), ((grammar.nonterminals.map fun _ => false).getD index false)
      = false := by
    intro index
    rw [Array.getD_eq_getD_getElem?, Array.getElem?_map]
    cases grammar.nonterminals[index]? <;> rfl
  obtain ⟨⟨fits, _⟩, fixed, _⟩ := (members grammar).stabilize_of
    (grammar.nonterminals.size * (grammar.terminals.size + 2) + 1)
    (f := extend grammar) (p := fun sets => sets.Fits grammar ∧ sets.Le (extend grammar sets))
    (x := ⟨grammar.nonterminals.map fun _ => BitSet.empty, grammar.nonterminals.map fun _ => false⟩)
    (fun sets ⟨fits, le⟩ => ⟨⟨fits_extend wellFormed fits, extend_mono le⟩, fits, members_of_le le⟩)
    (by simp [members]; omega)
    ⟨⟨by simp, by simp, fun index => by rw [start]; exact BitSet.within_empty _⟩,
      fun index terminal member => by simp [start] at member,
      fun index member => by simp [start'] at member⟩
  exact ⟨fits, fixed⟩

theorem mem_ofSteps_append {others : List Step} {terminal : Nat} :
    (sets.ofSteps (steps ++ others)).1.contains terminal = true ↔
      (sets.ofSteps steps).1.contains terminal = true ∨
        (sets.ofSteps steps).2 = true ∧ (sets.ofSteps others).1.contains terminal = true := by
  induction steps with
  | nil => simp [ofSteps]
  | cons step rest ih =>
    rw [List.cons_append, ofSteps, ofSteps]
    cases step.symbol with
    | terminal index => simp
    | nonterminal index =>
      dsimp only
      split
      · simp [ih, or_assoc]
      · simp

theorem nullable_ofSteps_append {others : List Step} :
    (sets.ofSteps (steps ++ others)).2 = true ↔
      (sets.ofSteps steps).2 = true ∧ (sets.ofSteps others).2 = true := by
  induction steps with
  | nil => simp [ofSteps]
  | cons step rest ih =>
    rw [List.cons_append, ofSteps, ofSteps]
    cases step.symbol with
    | terminal index => simp
    | nonterminal index =>
      dsimp only
      split
      · exact ih
      · simp

theorem mem_ofSteps_nonterminal {step : Step} {index terminal : Nat}
    (symbol : step.symbol = .nonterminal index) :
    (sets.ofSteps [step]).1.contains terminal = true ↔
      (sets.first.getD index BitSet.empty).contains terminal = true := by
  rw [ofSteps, symbol]
  dsimp only
  split <;> simp [ofSteps]

theorem nullable_ofSteps_nonterminal {step : Step} {index : Nat}
    (symbol : step.symbol = .nonterminal index) :
    (sets.ofSteps [step]).2 = true ↔ sets.nullable.getD index false = true := by
  rw [ofSteps, symbol]
  dsimp only
  split <;> simp_all [ofSteps]

/-- The sets hold what the productions say about their nonterminals. -/
def Closed (grammar : PreparedGrammar) (sets : FirstSets) : Prop := extend grammar sets = sets

theorem Closed.nullable_of_production (closed : sets.Closed grammar) {index : Nat}
    {production : FlatProduction} (member : production ∈ grammar.productionsOf index)
    (empty : (sets.ofSteps production.steps).2 = true) :
    sets.nullable.getD index false = true := by
  rw [← closed]
  exact nullable_extend.2 ⟨production, member, empty⟩

theorem Closed.first_of_production (closed : sets.Closed grammar) {index terminal : Nat}
    {production : FlatProduction} (member : production ∈ grammar.productionsOf index)
    (begins : (sets.ofSteps production.steps).1.contains terminal = true) :
    (sets.first.getD index BitSet.empty).contains terminal = true := by
  rw [← closed]
  exact first_extend.2 ⟨production, member, begins⟩

theorem Closed.of_derives (closed : sets.Closed grammar) {before after : List (Symbol Nat Nat)}
    (h : grammar.cfg.Derives before after) {steps : List Step}
    (same : (steps.map (·.symbol)).map Sym.toSymbol = before) :
    (after = [] → (sets.ofSteps steps).2 = true) ∧
      ∀ index rest, after = .terminal index :: rest →
        (sets.ofSteps steps).1.contains (index + 1) = true := by
  rw [List.map_map] at same
  induction h using Relation.ReflTransGen.head_induction_on generalizing steps with
  | refl =>
    subst same
    refine ⟨fun none => ?_, fun index rest whole => ?_⟩
    · rw [List.map_eq_nil_iff.1 none]
      rfl
    · obtain ⟨step, steps, rfl, symbol, _⟩ := List.map_eq_cons_iff.1 whole
      have symbol : step.symbol = .terminal index := Sym.toSymbol_injective symbol
      simp [ofSteps, symbol]
  | head produces _ ih =>
    obtain ⟨index, production, member, left, right, rfl, rfl⟩ :=
      PreparedGrammar.produces_iff.1 produces
    obtain ⟨start, back, rfl, sameStart, rfl⟩ := List.map_eq_append_iff.1 same
    obtain ⟨front, one, rfl, rfl, sameOne⟩ := List.map_eq_append_iff.1 sameStart
    obtain ⟨step, rfl, symbol⟩ := List.map_eq_singleton_iff.1 sameOne
    have symbol : step.symbol = .nonterminal index := Sym.toSymbol_injective symbol
    obtain ⟨empty, begins⟩ := @ih (front ++ production.steps ++ back)
      (by simp [FlatProduction.symbols, Function.comp_def])
    simp only [nullable_ofSteps_append, mem_ofSteps_append, nullable_ofSteps_nonterminal symbol,
      mem_ofSteps_nonterminal symbol] at empty begins ⊢
    have nullable := closed.nullable_of_production member
    refine ⟨fun none => ?_, fun terminal rest whole => ?_⟩
    · obtain ⟨⟨before, own⟩, behind⟩ := empty none
      exact ⟨⟨before, nullable own⟩, behind⟩
    · rcases begins terminal rest whole with (before | ⟨before, own⟩) | ⟨⟨before, own⟩, behind⟩
      · exact .inl (.inl before)
      · exact .inl (.inr ⟨before, closed.first_of_production member own⟩)
      · exact .inr ⟨⟨before, nullable own⟩, behind⟩

theorem Closed.of_yields (closed : sets.Closed grammar) {symbols : List Sym} {word : List Nat}
    (h : grammar.Yields symbols word) {steps : List Step} (same : steps.map (·.symbol) = symbols) :
    (word = [] → (sets.ofSteps steps).2 = true) ∧
      ∀ terminal ∈ word.head?, (sets.ofSteps steps).1.contains (terminal + 1) = true := by
  obtain ⟨empty, begins⟩ := closed.of_derives h.derives
    (congrArg (List.map Sym.toSymbol) same)
  refine ⟨fun none => empty (by rw [none]; rfl), fun terminal head => ?_⟩
  obtain ⟨rest, rfl⟩ := List.head?_eq_some_iff.1 head
  exact begins terminal (rest.map .terminal) rfl

structure Sound (grammar : PreparedGrammar) (sets : FirstSets) : Prop where
  first : ∀ index terminal, (sets.first.getD index BitSet.empty).contains terminal = true →
    grammar.Begins [.nonterminal index] terminal
  nullable : ∀ index, sets.nullable.getD index false = true →
    grammar.Vanishes [.nonterminal index]

theorem Sound.ofSteps (sound : sets.Sound grammar) (steps : List Step) :
    (∀ terminal, (sets.ofSteps steps).1.contains terminal = true →
      grammar.Begins (steps.map (·.symbol)) terminal) ∧
    ((sets.ofSteps steps).2 = true → grammar.Vanishes (steps.map (·.symbol))) := by
  induction steps with
  | nil => exact ⟨by simp [FirstSets.ofSteps], fun _ => PreparedGrammar.Rewrites.refl []⟩
  | cons step rest ih =>
    rw [FirstSets.ofSteps, List.map_cons]
    cases step.symbol with
    | terminal index =>
      refine ⟨fun terminal member => ?_, fun h => absurd h Bool.false_ne_true⟩
      have same : index + 1 = terminal := by simpa using member
      exact ⟨index, _, same.symm, .refl _⟩
    | nonterminal index =>
      have own := fun terminal member => (sound.first index terminal member).append
        (rest.map (·.symbol))
      dsimp only
      split
      · next nullable =>
        have none := sound.nullable index nullable
        refine ⟨fun terminal member => ?_, fun later => none.append (ih.2 later)⟩
        rw [BitSet.contains_union, Bool.or_eq_true] at member
        exact member.elim (own terminal) fun later => none.begins (ih.1 terminal later)
      · exact ⟨own, fun h => absurd h Bool.false_ne_true⟩

theorem Sound.extend (sound : sets.Sound grammar) : (extend grammar sets).Sound grammar where
  first _ terminal member := by
    obtain ⟨production, there, own⟩ := first_extend.1 member
    exact ((sound.ofSteps production.steps).1 terminal own).of_production there
  nullable _ member := by
    obtain ⟨production, there, own⟩ := nullable_extend.1 member
    exact PreparedGrammar.Rewrites.of_production ((sound.ofSteps production.steps).2 own) there

theorem sound_ofGrammar (grammar : PreparedGrammar) : (ofGrammar grammar).Sound grammar := by
  refine stabilize_keeps (fun sets sound => sound.extend)
    ⟨fun index terminal member => ?_, fun index member => ?_⟩
  · rw [Array.getD_eq_getD_getElem?, Array.getElem?_map] at member
    cases found : grammar.nonterminals[index]? <;> simp [found] at member
  · rw [Array.getD_eq_getD_getElem?, Array.getElem?_map] at member
    cases found : grammar.nonterminals[index]? <;> simp [found] at member

theorem begins_iff (closed : sets.Closed grammar) (sound : sets.Sound grammar) {terminal : Nat} :
    (sets.ofSteps steps).1.contains terminal = true ↔
      grammar.Begins (steps.map (·.symbol)) terminal := by
  refine ⟨(sound.ofSteps steps).1 terminal, ?_⟩
  rintro ⟨index, rest, rfl, derives⟩
  exact (closed.of_derives derives rfl).2 index (rest.map Sym.toSymbol) rfl

theorem vanishes_iff (closed : sets.Closed grammar) (sound : sets.Sound grammar) :
    (sets.ofSteps steps).2 = true ↔ grammar.Vanishes (steps.map (·.symbol)) :=
  ⟨(sound.ofSteps steps).2, fun derives => (closed.of_derives derives rfl).1 rfl⟩

end FirstSets

end IncrementalGlr
