import IncrementalGlr.Proofs.Lalr.Precedence

/-!
# First sets in sweeps

The first sets can also be had by going through the productions one at a time, each adding in place
what it says, until a whole sweep adds nothing. A sweep only adds, so it ends, and it ends in the
same sets. They hold exactly the terminals that can begin what is derived, and mark exactly what
derives nothing.
-/

namespace IncrementalGlr

namespace FirstSets

variable {grammar : PreparedGrammar} {sets other : FirstSets} {steps : List Step}

def gather (sets : FirstSets) : List Step → BitSet → BitSet × Bool
  | [], out => (out, true)
  | step :: rest, out =>
    match step.symbol with
    | .terminal terminal => (out.insert (terminal + 1), false)
    | .nonterminal index =>
      let out := out.union (sets.first.getD index BitSet.empty)
      if sets.nullable.getD index false then sets.gather rest out else (out, false)

def learn (sets : FirstSets) (index : Nat) (production : FlatProduction) : FirstSets :=
  let (own, empty) := sets.gather production.steps BitSet.empty
  ⟨sets.first.modify index (·.union own), sets.nullable.modify index (· || empty)⟩

/-- One production after the other, each with what was learnt before. -/
def sweep (grammar : PreparedGrammar) (sets : FirstSets) : FirstSets :=
  (List.range grammar.nonterminals.size).foldl
    (fun sets index => (grammar.productionsOf index).foldl (·.learn index ·) sets) sets

def blank (grammar : PreparedGrammar) : FirstSets :=
  ⟨grammar.nonterminals.map fun _ => BitSet.empty, grammar.nonterminals.map fun _ => false⟩

def swept (grammar : PreparedGrammar) : FirstSets :=
  stabilize (sweep grammar) (grammar.nonterminals.size * (grammar.terminals.size + 2) + 1)
    (blank grammar)

theorem gather_eq (sets : FirstSets) (steps : List Step) (out : BitSet) :
    sets.gather steps out = (out.union (sets.ofSteps steps).1, (sets.ofSteps steps).2) := by
  induction steps generalizing out with
  | nil => simp [gather, ofSteps, BitSet.union, BitSet.empty]
  | cons step rest ih =>
    rw [gather, ofSteps]
    cases step.symbol with
    | terminal index => rfl
    | nonterminal index =>
      dsimp only
      split
      · simp [ih, BitSet.union, Nat.or_assoc]
      · rfl

theorem learn_eq (sets : FirstSets) (index : Nat) (production : FlatProduction) :
    sets.learn index production =
      ⟨sets.first.modify index (·.union (sets.ofSteps production.steps).1),
        sets.nullable.modify index (· || (sets.ofSteps production.steps).2)⟩ := by
  simp [learn, gather_eq, BitSet.union, BitSet.empty]

theorem first_learn {index place terminal : Nat} {production : FlatProduction} :
    ((sets.learn index production).first.getD place BitSet.empty).contains terminal = true ↔
      (sets.first.getD place BitSet.empty).contains terminal = true ∨
        (index = place ∧ place < sets.first.size) ∧
          (sets.ofSteps production.steps).1.contains terminal = true := by
  rw [learn_eq, LrGrammar.getD_modify_union]
  split <;> simp [*]

theorem nullable_learn {index place : Nat} {production : FlatProduction} :
    (sets.learn index production).nullable.getD place false = true ↔
      sets.nullable.getD place false = true ∨
        (index = place ∧ place < sets.nullable.size) ∧
          (sets.ofSteps production.steps).2 = true := by
  rw [learn_eq, Array.getD_eq_getD_getElem?, Array.getElem?_modify, Array.getD_eq_getD_getElem?]
  by_cases inside : place < sets.nullable.size <;> by_cases same : index = place <;>
    simp [inside, same]

theorem fits_learn (wellFormed : grammar.WellFormed) (fits : sets.Fits grammar) {index : Nat}
    {production : FlatProduction} (member : production ∈ grammar.productionsOf index) :
    (sets.learn index production).Fits grammar := by
  have own := within_ofSteps fits (wellFormed.steps production member)
  rw [learn_eq]
  refine ⟨by simp [fits.first], by simp [fits.nullable], fun place => ?_⟩
  rw [LrGrammar.getD_modify_union]
  split
  · exact (fits.within place).union own
  · exact fits.within place

theorem le_learn (sets : FirstSets) (index : Nat) (production : FlatProduction) :
    sets.Le (sets.learn index production) :=
  ⟨fun _ _ member => first_learn.2 (.inl member), fun _ marked => nullable_learn.2 (.inl marked)⟩

theorem grows_learn (wellFormed : grammar.WellFormed) {index : Nat} :
    ∀ production ∈ grammar.productionsOf index,
      (members grammar).Grows fun sets => sets.learn index production :=
  fun _ member sets fits => ⟨fits_learn wellFormed fits member, members_of_le (le_learn sets _ _)⟩

theorem grows_learnAll (wellFormed : grammar.WellFormed) (index : Nat) :
    (members grammar).Grows fun sets =>
      (grammar.productionsOf index).foldl (·.learn index ·) sets :=
  Members.Grows.foldl (grows_learn wellFormed)

theorem grows_sweep (wellFormed : grammar.WellFormed) :
    (members grammar).Grows (sweep grammar) :=
  Members.Grows.foldl fun index _ => grows_learnAll wellFormed index

theorem first_blank (grammar : PreparedGrammar) (index : Nat) :
    (blank grammar).first.getD index BitSet.empty = BitSet.empty := by
  rw [blank, Array.getD_eq_getD_getElem?, Array.getElem?_map]
  cases grammar.nonterminals[index]? <;> rfl

theorem nullable_blank (grammar : PreparedGrammar) (index : Nat) :
    (blank grammar).nullable.getD index false = false := by
  rw [blank, Array.getD_eq_getD_getElem?, Array.getElem?_map]
  cases grammar.nonterminals[index]? <;> rfl

theorem fits_blank (grammar : PreparedGrammar) : (blank grammar).Fits grammar :=
  ⟨by simp [blank], by simp [blank],
    fun index => by rw [first_blank]; exact BitSet.within_empty _⟩

theorem blank_le (sets : FirstSets) : (blank grammar).Le sets :=
  ⟨fun index terminal member => by rw [first_blank, BitSet.contains_empty] at member; contradiction,
    fun index marked => by rw [nullable_blank] at marked; contradiction⟩

theorem swept_spec (wellFormed : grammar.WellFormed) :
    (swept grammar).Fits grammar ∧ sweep grammar (swept grammar) = swept grammar := by
  obtain ⟨fits, fixed, _⟩ := (grows_sweep wellFormed).stabilize
    (grammar.nonterminals.size * (grammar.terminals.size + 2) + 1) (by simp [members])
    (fits_blank grammar)
  exact ⟨fits, fixed⟩

theorem index_lt_of_mem_productionsOf {index : Nat} {production : FlatProduction}
    (member : production ∈ grammar.productionsOf index) : index < grammar.nonterminals.size := by
  by_contra outside
  rw [PreparedGrammar.productionsOf, Array.getElem?_eq_none (by omega)] at member
  contradiction

theorem learn_swept (wellFormed : grammar.WellFormed) {index : Nat} {production : FlatProduction}
    (member : production ∈ grammar.productionsOf index) :
    (swept grammar).learn index production = swept grammar := by
  obtain ⟨fits, fixed⟩ := swept_spec wellFormed
  have whole := Members.foldl_fixed (fun other _ => grows_learnAll wellFormed other) fits fixed index
    (List.mem_range.2 (index_lt_of_mem_productionsOf member))
  exact Members.foldl_fixed (grows_learn wellFormed) fits whole production member

theorem learn_le (closed : other.Closed grammar) (le : sets.Le other) {index : Nat}
    {production : FlatProduction} (member : production ∈ grammar.productionsOf index) :
    (sets.learn index production).Le other := by
  obtain ⟨begins, empty⟩ := ofSteps_mono le production.steps
  refine ⟨fun place terminal there => ?_, fun place marked => ?_⟩
  · rcases first_learn.1 there with old | ⟨⟨rfl, _⟩, own⟩
    · exact le.first place terminal old
    · exact closed.first_of_production member (begins terminal own)
  · rcases nullable_learn.1 marked with old | ⟨⟨rfl, _⟩, own⟩
    · exact le.nullable place old
    · exact closed.nullable_of_production member (empty own)

theorem swept_le (wellFormed : grammar.WellFormed) : (swept grammar).Le (ofGrammar grammar) := by
  have closed : (ofGrammar grammar).Closed grammar := (ofGrammar_spec wellFormed).2
  refine stabilize_keeps (p := (FirstSets.Le · (ofGrammar grammar))) (fun sets le => ?_)
    (blank_le _)
  refine List.foldlRecOn (motive := (FirstSets.Le · (ofGrammar grammar))) _ _ le
    fun sets le index _ => ?_
  exact List.foldlRecOn (motive := (FirstSets.Le · (ofGrammar grammar))) _ _ le
    fun sets le production member => learn_le closed le member

theorem le_swept (wellFormed : grammar.WellFormed) : (ofGrammar grammar).Le (swept grammar) := by
  have fits := (swept_spec wellFormed).1
  refine stabilize_keeps (p := (FirstSets.Le · (swept grammar)))
    (fun sets le => ⟨fun index terminal there => ?_, fun index marked => ?_⟩) (blank_le _)
  · obtain ⟨production, member, own⟩ := first_extend.1 there
    have inside := index_lt_of_mem_productionsOf member
    rw [← learn_swept wellFormed member]
    exact first_learn.2 (.inr ⟨⟨rfl, fits.first ▸ inside⟩, (ofSteps_mono le _).1 terminal own⟩)
  · obtain ⟨production, member, own⟩ := nullable_extend.1 marked
    have inside := index_lt_of_mem_productionsOf member
    rw [← learn_swept wellFormed member]
    exact nullable_learn.2 (.inr ⟨⟨rfl, fits.nullable ▸ inside⟩, (ofSteps_mono le _).2 own⟩)

theorem swept_eq (wellFormed : grammar.WellFormed) : swept grammar = ofGrammar grammar := by
  have below : (members grammar).Le (swept grammar) (ofGrammar grammar) :=
    members_of_le (swept_le wellFormed)
  exact below.antisymm (swept_spec wellFormed).1 (ofGrammar_spec wellFormed).1
    (members_of_le (le_swept wellFormed))

theorem mem_first_iff (closed : sets.Closed grammar) (sound : sets.Sound grammar)
    {index terminal : Nat} :
    (sets.first.getD index BitSet.empty).contains terminal = true ↔
      grammar.Begins [.nonterminal index] terminal :=
  have alone : (Step.plain (.nonterminal index)).symbol = .nonterminal index := rfl
  (mem_ofSteps_nonterminal alone).symm.trans (begins_iff closed sound)

theorem nullable_iff (closed : sets.Closed grammar) (sound : sets.Sound grammar) {index : Nat} :
    sets.nullable.getD index false = true ↔ grammar.Vanishes [.nonterminal index] :=
  have alone : (Step.plain (.nonterminal index)).symbol = .nonterminal index := rfl
  (nullable_ofSteps_nonterminal alone).symm.trans (vanishes_iff closed sound)

theorem mem_gather_iff (closed : sets.Closed grammar) (sound : sets.Sound grammar) {out : BitSet}
    {terminal : Nat} :
    (sets.gather steps out).1.contains terminal = true ↔
      out.contains terminal = true ∨ grammar.Begins (steps.map (·.symbol)) terminal := by
  rw [gather_eq, BitSet.contains_union, Bool.or_eq_true, begins_iff closed sound]

/-- The sets answer for nonterminals, for symbols and for steps what the grammar derives. -/
structure Exact (grammar : PreparedGrammar) (sets : FirstSets) : Prop where
  first : ∀ index terminal, (sets.first.getD index BitSet.empty).contains terminal = true ↔
    grammar.Begins [.nonterminal index] terminal
  nullable : ∀ index, sets.nullable.getD index false = true ↔ grammar.Vanishes [.nonterminal index]
  gathered : ∀ steps out terminal, (sets.gather steps out).1.contains terminal = true ↔
    out.contains terminal = true ∨ grammar.Begins (steps.map (·.symbol)) terminal
  vanishing : ∀ steps out, (sets.gather steps out).2 = true ↔
    grammar.Vanishes (steps.map (·.symbol))
  starting : ∀ symbol terminal, sets.startsWith symbol terminal = true ↔
    grammar.Begins [symbol] terminal

/-- The sets that a whole sweep leaves as they are, are the sets of the grammar, and they are
exact. -/
theorem exact_swept {grammar : Grammar} {prepared : PreparedGrammar}
    (prepare : grammar.prepare = .ok prepared) :
    sweep prepared (swept prepared) = swept prepared ∧ swept prepared = ofGrammar prepared ∧
      (swept prepared).Exact prepared := by
  have wellFormed := (Grammar.prepare_sound prepare).1
  have lr := LrGrammar.closed_ofGrammar wellFormed
  have sound := sound_ofGrammar prepared
  refine ⟨(swept_spec wellFormed).2, swept_eq wellFormed, ?_⟩
  rw [swept_eq wellFormed]
  refine ⟨fun _ _ => mem_first_iff lr.first sound, fun _ => nullable_iff lr.first sound,
    fun _ _ _ => mem_gather_iff lr.first sound, fun steps out => ?_,
    fun _ _ => LrGrammar.startsWith_iff lr sound⟩
  rw [gather_eq]
  exact vanishes_iff lr.first sound

def frontGrammar : Grammar where
  name := "fronts"
  rules := [("s", .seq [.symbol "a", .symbol "b", .string "c"]),
    ("a", .choice [.seq [.symbol "b", .string "x"], .blank]),
    ("b", .choice [.seq [.symbol "a", .string "y"], .blank])]
  extras := []
  externals := []
  word := none
  supertypes := []
  reserved := []
  precedences := []

theorem exact_swept_fronts : ∃ prepared, frontGrammar.prepare = .ok prepared ∧
    sweep prepared (swept prepared) = swept prepared ∧ swept prepared = ofGrammar prepared ∧
      (swept prepared).Exact prepared := by
  obtain ⟨prepared, prepare⟩ : ∃ prepared, frontGrammar.prepare = .ok prepared :=
    (Option.isSome_iff_exists.1 (by decide +kernel)).imp fun _ => ok_of_toOption
  exact ⟨prepared, prepare, exact_swept prepare⟩

end FirstSets

end IncrementalGlr
