import IncrementalGlr.Proofs.Grammar.Flattening

/-!
# What the declarations of a grammar leave

When all declarations have been read, the nonterminals are those of the rules that are no tokens, in
the order of the grammar, and the names of terminals are those of token rules and of external
tokens.
-/

namespace IncrementalGlr

def compoundRules (rules : List (String × Rule)) : List (String × Rule) :=
  rules.filter fun entry => !entry.2.isToken

theorem compoundRules_append {rules others : List (String × Rule)} :
    compoundRules (rules ++ others) = compoundRules rules ++ compoundRules others :=
  List.filter_append ..

theorem mem_of_getElem?_compoundRules {rules : List (String × Rule)} {index : Nat} {name : String}
    {rule : Rule} (found : (compoundRules rules)[index]? = some (name, rule)) :
    (name, rule) ∈ rules ∧ rule.isToken = false := by
  simpa [compoundRules] using List.mem_of_getElem? found

namespace Preparation

section Running

variable {α β : Type} {draft last : Draft}

theorem run_each_of_done {whole : List α} {f : α → M PUnit} {u v : PUnit}
    {p : List α → Draft → Prop}
    (keeps : ∀ done x rest, whole = done ++ x :: rest → ∀ draft u next, p done draft →
      f x draft = .ok (u, next) → p (done ++ [x]) next)
    (start : p [] draft)
    (h : (forIn whole u fun x _ => do
      f x
      pure (ForInStep.yield PUnit.unit)) draft = .ok (v, last)) : p whole last := by
  have rounds : ∀ (rest done : List α) (draft : Draft) (u : PUnit), whole = done ++ rest →
      p done draft → (forIn rest u fun x _ => do
        f x
        pure (ForInStep.yield PUnit.unit)) draft = .ok (v, last) → p whole last := by
    intro rest
    induction rest with
    | nil =>
      intro done draft u parts start h
      cases h
      rwa [parts, List.append_nil]
    | cons x rest ih =>
      intro done draft u parts start h
      rw [List.forIn_cons] at h
      obtain ⟨outcome, next, ran, rest'⟩ := run_bind h
      obtain ⟨w, _, ran, finished⟩ := run_bind ran
      cases finished
      exact ih (done ++ [x]) next _ (by simpa using parts)
        (keeps done x rest parts draft w next start ran) rest'
  exact rounds whole [] draft u rfl start h

theorem run_mapM_of_done {whole : List α} {f : α → M β} {answers : List β}
    {p : List α → Draft → Prop}
    (keeps : ∀ done x rest, whole = done ++ x :: rest → ∀ draft y next, p done draft →
      f x draft = .ok (y, next) → p (done ++ [x]) next)
    (start : p [] draft) (h : whole.mapM f draft = .ok (answers, last)) : p whole last := by
  have rounds : ∀ (rest done : List α) (draft : Draft) (answers : List β), whole = done ++ rest →
      p done draft → rest.mapM f draft = .ok (answers, last) → p whole last := by
    intro rest
    induction rest with
    | nil =>
      intro done draft answers parts start h
      cases h
      rwa [parts, List.append_nil]
    | cons x rest ih =>
      intro done draft answers parts start h
      rw [List.mapM_cons] at h
      obtain ⟨y, next, ran, rest'⟩ := run_bind h
      obtain ⟨others, final, ran', finished⟩ := run_bind rest'
      cases finished
      exact ih (done ++ [x]) next _ (by simpa using parts)
        (keeps done x rest parts draft y next start ran) ran'
  exact rounds whole [] draft answers rfl start h

end Running

namespace Draft

structure Declares (draft : Draft) (rules : List (String × Rule)) (externals : List Rule) :
    Prop where
  distinct : (rules.map (·.1)).Nodup
  labels : draft.nonterminals.toList.map (·.name) = (compoundRules rules).map (·.1)
  compounds : ∀ (index : Nat) (name : String),
    draft.byName.lookup name = some (.nonterminal index) ↔
      ∃ rule, (compoundRules rules)[index]? = some (name, rule)
  tokens : ∀ name : String, (∃ place, draft.byName.lookup name = some (.terminal place)) ↔
    (∃ rule, (name, rule) ∈ rules ∧ rule.isToken = true) ∨ Rule.symbol name ∈ externals
  repeats : draft.repeats = []
  placed : draft.Placed

variable {draft next : Draft} {rules : List (String × Rule)} {externals : List Rule}

theorem declares_empty : empty.Declares [] [] where
  distinct := List.nodup_nil
  labels := rfl
  compounds := by simp [empty, compoundRules]
  tokens := by simp [empty]
  repeats := rfl
  placed := by
    constructor
    · rintro (name | text | rule) place found <;> simp [place?, empty] at found
    · rintro (name | text | rule) other place found _ <;> simp [place?, empty] at found

theorem Declares.keep (declares : draft.Declares rules externals)
    (labels : next.nonterminals.toList.map (·.name) = draft.nonterminals.toList.map (·.name))
    (names : next.byName = draft.byName) (repeats : next.repeats = draft.repeats)
    (placed : next.Placed) : next.Declares rules externals where
  distinct := declares.distinct
  labels := labels.trans declares.labels
  compounds := names ▸ declares.compounds
  tokens := names ▸ declares.tokens
  repeats := repeats.trans declares.repeats
  placed := placed

theorem Declares.size (declares : draft.Declares rules externals) :
    draft.nonterminals.size = (compoundRules rules).length := by
  simpa using congrArg List.length declares.labels

theorem Declares.fresh (declares : draft.Declares rules externals) {name : String}
    (free : draft.byName.lookup name = none) : ∀ rule, (name, rule) ∉ rules := by
  intro rule member
  cases token : rule.isToken with
  | true =>
    obtain ⟨place, found⟩ := (declares.tokens name).2 (.inl ⟨rule, member, token⟩)
    rw [free] at found
    contradiction
  | false =>
    have inside : (name, rule) ∈ compoundRules rules := by simp [compoundRules, member, token]
    obtain ⟨index, there⟩ := List.mem_iff_getElem?.1 inside
    have found := (declares.compounds index name).2 ⟨rule, there⟩
    rw [free] at found
    contradiction

theorem Declares.distinct_concat (declares : draft.Declares rules externals) {name : String}
    {rule : Rule} (free : draft.byName.lookup name = none) :
    ((rules ++ [(name, rule)]).map (·.1)).Nodup := by
  rw [List.map_append, List.nodup_append]
  refine ⟨declares.distinct, by simp, ?_⟩
  rintro other member _ last rfl
  obtain ⟨⟨_, old⟩, inside, rfl⟩ := List.mem_map.1 member
  cases List.mem_singleton.1 last
  exact declares.fresh free old inside

section NewName

variable {byName : List (String × Sym)} {new name : String}

theorem lookup_cons_iff_of_ne (free : byName.lookup new = none) {added symbol : Sym}
    (other : added ≠ symbol) :
    ((new, added) :: byName).lookup name = some symbol ↔ byName.lookup name = some symbol := by
  refine ⟨fun found => ?_, lookup_cons_of_fresh free⟩
  rcases of_lookup_cons found with ⟨_, same⟩ | old
  · exact absurd same.symm other
  · exact old

theorem exists_terminal_cons_iff (free : byName.lookup new = none) {terminal : Nat} :
    (∃ place, ((new, Sym.terminal terminal) :: byName).lookup name = some (.terminal place)) ↔
      (∃ place, byName.lookup name = some (.terminal place)) ∨ name = new := by
  constructor
  · rintro ⟨place, found⟩
    exact (of_lookup_cons found).elim (fun own => .inr own.1) fun old => .inl ⟨place, old⟩
  · rintro (⟨place, found⟩ | rfl)
    · exact ⟨place, lookup_cons_of_fresh free found⟩
    · exact ⟨terminal, List.lookup_cons_self⟩

end NewName

theorem Placed.name (placed : draft.Placed) {terminal : Terminal}
    (named : terminal.named = true) :
    Placed { draft with
      terminals := draft.terminals.push terminal
      byName := (terminal.name, .terminal draft.terminals.size) :: draft.byName } := by
  refine placed.push rfl (show (Lexeme.named terminal.name).Fits terminal from ⟨rfl, named⟩)
    fun lexeme place found => ?_
  cases lexeme with
  | named name =>
    rcases of_lookup_cons (place?_named.1 found) with ⟨rfl, same⟩ | old
    · cases same
      exact .inl ⟨rfl, rfl⟩
    · exact .inr (place?_named.2 old)
  | string text => exact .inr found
  | token rule => exact .inr found

theorem Placed.compound (placed : draft.Placed) {nonterminal : Nonterminal} :
    Placed { draft with
      nonterminals := draft.nonterminals.push nonterminal
      byName := (nonterminal.name, .nonterminal draft.nonterminals.size) :: draft.byName } := by
  refine placed.keep (fun _ terminal there => ⟨terminal, there, fun _ => id⟩)
    fun lexeme place found => ?_
  cases lexeme with
  | named name =>
    rcases of_lookup_cons (place?_named.1 found) with ⟨_, same⟩ | old
    · contradiction
    · exact place?_named.2 old
  | string text => exact found
  | token rule => exact found

theorem Declares.token (declares : draft.Declares rules externals) {terminal : Terminal}
    {rule : Rule} (free : draft.byName.lookup terminal.name = none)
    (named : terminal.named = true) (token : rule.isToken = true) :
    Declares { draft with
      terminals := draft.terminals.push terminal
      byName := (terminal.name, .terminal draft.terminals.size) :: draft.byName }
      (rules ++ [(terminal.name, rule)]) externals where
  distinct := declares.distinct_concat free
  labels := by
    rw [compoundRules_append]
    simpa [compoundRules, token] using declares.labels
  compounds index name := by
    rw [compoundRules_append, show compoundRules [(terminal.name, rule)] = [] by
      simp [compoundRules, token], List.append_nil, ← declares.compounds]
    exact lookup_cons_iff_of_ne free Sym.noConfusion
  tokens name := by
    have own : (∃ other, (name, other) ∈ [(terminal.name, rule)] ∧ other.isToken = true) ↔
        name = terminal.name := by
      simp [token]
    simp only [List.mem_append, or_and_right, exists_or, own]
    rw [exists_terminal_cons_iff free, declares.tokens, or_right_comm]
  repeats := declares.repeats
  placed := declares.placed.name named

theorem Declares.compound (declares : draft.Declares rules externals) {nonterminal : Nonterminal}
    {rule : Rule} (free : draft.byName.lookup nonterminal.name = none)
    (compound : rule.isToken = false) :
    Declares { draft with
      nonterminals := draft.nonterminals.push nonterminal
      byName := (nonterminal.name, .nonterminal draft.nonterminals.size) :: draft.byName }
      (rules ++ [(nonterminal.name, rule)]) externals where
  distinct := declares.distinct_concat free
  labels := by
    rw [compoundRules_append]
    simpa [compoundRules, compound] using declares.labels
  compounds index name := by
    rw [compoundRules_append, show compoundRules [(nonterminal.name, rule)]
      = [(nonterminal.name, rule)] by simp [compoundRules, compound]]
    constructor
    · intro found
      rcases of_lookup_cons found with ⟨rfl, same⟩ | old
      · cases same
        exact ⟨rule, by simp [declares.size]⟩
      · obtain ⟨other, there⟩ := (declares.compounds index name).1 old
        have inside := (List.getElem?_eq_some_iff.1 there).1
        exact ⟨other, by rw [List.getElem?_append_left inside, there]⟩
    · rintro ⟨other, there⟩
      rw [List.getElem?_append] at there
      split at there
      · exact lookup_cons_of_fresh free ((declares.compounds index name).2 ⟨other, there⟩)
      · obtain ⟨last, same⟩ := List.getElem?_eq_some_iff.1 there
        have place : index = draft.nonterminals.size := by
          rw [List.length_singleton] at last
          rw [declares.size]
          omega
        subst place
        simp only [List.getElem_singleton, Prod.mk.injEq] at same
        rw [← same.1]
        exact List.lookup_cons_self
  tokens name := by
    have none : ¬ ∃ other, (name, other) ∈ [(nonterminal.name, rule)] ∧ other.isToken = true := by
      simp [compound]
    simp only [List.mem_append, or_and_right, exists_or, none, or_false]
    rw [← declares.tokens]
    exact exists_congr fun _ => lookup_cons_iff_of_ne free Sym.noConfusion
  repeats := declares.repeats
  placed := declares.placed.compound

theorem Declares.external (declares : draft.Declares rules externals) {terminal : Terminal}
    (free : draft.byName.lookup terminal.name = none) (named : terminal.named = true) :
    Declares { draft with
      terminals := draft.terminals.push terminal
      byName := (terminal.name, .terminal draft.terminals.size) :: draft.byName }
      rules (externals ++ [.symbol terminal.name]) where
  distinct := declares.distinct
  labels := declares.labels
  compounds index name := by
    rw [← declares.compounds]
    exact lookup_cons_iff_of_ne free Sym.noConfusion
  tokens name := by
    rw [exists_terminal_cons_iff free, declares.tokens]
    simp [or_assoc]
  repeats := declares.repeats
  placed := declares.placed.name named

theorem Declares.external_of_known (declares : draft.Declares rules externals) {rule : Rule}
    (known : ∀ name, rule = .symbol name →
      ∃ place, draft.byName.lookup name = some (.terminal place)) :
    draft.Declares rules (externals ++ [rule]) where
  distinct := declares.distinct
  labels := declares.labels
  compounds := declares.compounds
  tokens name := by
    simp only [List.mem_append, List.mem_singleton, ← or_assoc, ← declares.tokens name]
    exact ⟨.inl, Or.rec id fun same => known name same.symm⟩
  repeats := declares.repeats
  placed := declares.placed

theorem Placed.extra (placed : draft.Placed) {terminal : Terminal} :
    Placed { draft with terminals := draft.terminals.push terminal } := by
  refine placed.keep (fun place other there => ⟨other, ?_, fun _ => id⟩)
    fun lexeme place found => ?_
  · have inside := (Array.getElem?_eq_some_iff.1 there).1
    rw [Array.getElem?_push, if_neg (Nat.ne_of_lt inside), there]
  · cases lexeme <;> exact found

theorem Placed.mark (placed : draft.Placed) (index : Nat) :
    Placed { draft with
      terminals := draft.terminals.modify index fun terminal =>
        { terminal with isExternal := true } } := by
  refine placed.keep (fun place terminal there => ?_) fun lexeme place found => ?_
  · by_cases same : index = place
    · refine ⟨{ terminal with isExternal := true }, ?_, fun lexeme fits => ?_⟩
      · rw [Array.getElem?_modify, if_pos same, there, Option.map_some]
      · cases lexeme with
        | named name => exact fits
        | string text => exact ⟨fits.1, fits.2.1, by simp⟩
        | token rule => exact fits
    · exact ⟨terminal, by rw [Array.getElem?_modify, if_neg same, there], fun _ => id⟩
  · cases lexeme <;> exact found

end Draft

open Draft

variable {draft next : Draft} {rules : List (String × Rule)} {externals : List Rule}

theorem declareRule_declares {name : String} {rule : Rule} {u : Unit}
    (declares : draft.Declares rules externals)
    (h : declareRule name rule draft = .ok (u, next)) :
    next.Declares (rules ++ [(name, rule)]) externals := by
  unfold declareRule at h
  obtain ⟨found, _, ran, h⟩ := run_bind h
  cases ran
  dsimp only at h
  split at h
  · obtain ⟨_, _, ran, _⟩ := run_bind h
    contradiction
  next free =>
  have fresh : draft.byName.lookup name = none := Option.not_isSome_iff_eq_none.1 free
  split at h
  · next token =>
    obtain ⟨regex, _, ran, h⟩ := run_bind h
    obtain ⟨_, rfl⟩ := run_lift ran
    obtain ⟨terminal, _, pushed, h⟩ := run_bind h
    cases pushed
    cases h
    exact declares.token fresh rfl token
  · next compound =>
    obtain ⟨nonterminal, _, pushed, h⟩ := run_bind h
    cases pushed
    cases h
    exact declares.compound fresh (Bool.not_eq_true _ ▸ compound)

theorem declareLevel_declares {entry : PrecedenceEntry} {u : Unit}
    (declares : draft.Declares rules externals) (h : declareLevel entry draft = .ok (u, next)) :
    next.Declares rules externals := by
  have placed : ∀ levels rankedRules,
      Placed { draft with levels := levels, rankedRules := rankedRules } := by
    intro levels rankedRules
    exact declares.placed.congr rfl fun lexeme => by cases lexeme <;> rfl
  cases entry with
  | name level =>
    cases h
    exact declares.keep rfl rfl rfl (placed _ _)
  | symbol rule =>
    obtain ⟨found, _, ran, h⟩ := run_bind h
    cases ran
    dsimp only at h
    split at h
    · obtain ⟨_, _, ran, _⟩ := run_bind h
      contradiction
    · cases h
      exact declares.keep rfl rfl rfl (placed _ _)

theorem declareExternal_declares {rule : Rule} {index : Nat}
    (declares : draft.Declares rules externals)
    (h : declareExternal rule draft = .ok (index, next)) :
    next.Declares rules (externals ++ [rule]) := by
  unfold declareExternal at h
  obtain ⟨⟨name, visible, isNamed⟩, _, ran, h⟩ := run_bind h
  obtain ⟨answer, rfl⟩ := run_lift ran
  have kind : rule = .symbol name ∧ isNamed = true ∨ rule = .string name ∧ isNamed = false := by
    unfold externalName at answer
    split at answer
    · cases answer
      exact .inl ⟨rfl, rfl⟩
    · cases answer
      exact .inr ⟨rfl, rfl⟩
    · contradiction
  obtain ⟨found, _, ran, h⟩ := run_bind h
  obtain ⟨rfl, there⟩ := run_symbolOf? ran
  dsimp only at h
  split at h
  · contradiction
  · cases h
    refine Declares.external_of_known ?_ fun other same => ?_
    · exact declares.keep rfl rfl rfl (declares.placed.mark _)
    · rcases kind with ⟨rfl, _⟩ | ⟨rfl, _⟩
      · cases same
        exact ⟨_, there⟩
      · contradiction
  · obtain ⟨terminal, _, pushed, h⟩ := run_bind h
    cases pushed
    rcases kind with ⟨rfl, rfl⟩ | ⟨rfl, rfl⟩
    · obtain ⟨_, _, ran, done⟩ := run_bind h
      cases ran
      cases done
      exact declares.external there rfl
    · obtain ⟨_, _, ran, done⟩ := run_bind h
      cases ran
      cases done
      refine Declares.external_of_known ?_ fun other same => ?_
      · exact declares.keep rfl rfl rfl (declares.placed.string ⟨rfl, rfl, by simp⟩)
      · contradiction

theorem declareExtra_declares {rule : Rule} {inline index : Nat}
    (declares : draft.Declares rules externals)
    (h : declareExtra rule inline draft = .ok (index, next)) : next.Declares rules externals := by
  unfold declareExtra at h
  split at h
  · obtain ⟨found, _, ran, h⟩ := run_bind h
    obtain ⟨rfl, _⟩ := run_symbolOf? ran
    split at h
    · cases h
      exact declares
    · contradiction
    · contradiction
  · split at h
    · obtain ⟨regex, _, ran, h⟩ := run_bind h
      obtain ⟨_, rfl⟩ := run_lift ran
      cases h
      exact declares.keep rfl rfl rfl declares.placed.extra
    · contradiction

theorem declareExtras_declares {extraRules : List Rule} {inline : Nat} {extras : List Nat}
    (declares : draft.Declares rules externals)
    (h : declareExtras extraRules inline draft = .ok (extras, next)) :
    next.Declares rules externals := by
  induction extraRules generalizing draft inline extras with
  | nil =>
    cases h
    exact declares
  | cons rule rest ih =>
    obtain ⟨extra, _, ran, h⟩ := run_bind h
    obtain ⟨others, _, ran', done⟩ := run_bind h
    cases done
    exact ih (declareExtra_declares declares ran) ran'

theorem declareSupertype_declares {name : String} {u : Unit}
    (declares : draft.Declares rules externals) (h : declareSupertype name draft = .ok (u, next)) :
    next.Declares rules externals := by
  obtain ⟨found, _, ran, h⟩ := run_bind h
  obtain ⟨rfl, _⟩ := run_symbolOf? ran
  split at h
  · next index =>
    cases h
    refine declares.keep ?_ rfl rfl ?_
    · refine List.ext_getElem? fun place => ?_
      rw [List.getElem?_map, List.getElem?_map, Array.getElem?_toList, Array.getElem?_toList,
        Array.getElem?_modify]
      split <;> cases draft.nonterminals[place]? <;> rfl
    · exact declares.placed.congr rfl fun lexeme => by cases lexeme <;> rfl
  · contradiction

end Preparation

end IncrementalGlr
