import IncrementalGlr.Proofs.Grammar.Preservation

/-!
# What names tell of visibility

Rules and tokens whose names begin with an underscore are hidden, and so are the tokens that get
their names from preparation. Supertypes and the helpers of repetitions are hidden as well, but no
rule behind a supertype has its name, and helpers come after all rules.
-/

namespace IncrementalGlr

open Preparation (isVisibleName)

def Terminal.IsSpelled (terminal : Terminal) : Prop :=
  terminal.visible = (!terminal.named || isVisibleName terminal.name)

def Nonterminal.IsSpelled (nonterminal : Nonterminal) : Prop :=
  nonterminal.visible = true → isVisibleName nonterminal.name = true

namespace Preparation

theorem isSpelled_of_underscore {terminal : Terminal} (hidden : terminal.visible = false)
    (named : terminal.named = true) (name : ['_'] <+: terminal.name.toList) :
    terminal.IsSpelled := by
  have starts : terminal.name.startsWith "_" = true := String.startsWith_string_iff.2 name
  rw [Terminal.IsSpelled, hidden, named, isVisibleName, starts]
  rfl

namespace Draft

structure Spelled (draft : Draft) : Prop where
  tokens : ∀ (i : Nat) (terminal : Terminal), draft.terminals[i]? = some terminal →
    terminal.IsSpelled
  rules : ∀ (i : Nat) (nonterminal : Nonterminal), draft.nonterminals[i]? = some nonterminal →
    nonterminal.IsSpelled

variable {draft next : Draft}

theorem spelled_empty : empty.Spelled where
  tokens i terminal found := by simp [empty] at found
  rules i nonterminal found := by simp [empty] at found

theorem Spelled.congr (h : draft.Spelled) (terminals : next.terminals = draft.terminals)
    (nonterminals : next.nonterminals = draft.nonterminals) : next.Spelled :=
  ⟨terminals ▸ h.tokens, nonterminals ▸ h.rules⟩

theorem Spelled.pushTerminal (h : draft.Spelled) {terminal : Terminal}
    (terminals : next.terminals = draft.terminals.push terminal)
    (nonterminals : next.nonterminals = draft.nonterminals) (spelled : terminal.IsSpelled) :
    next.Spelled :=
  ⟨terminals ▸ forall_getElem?_push h.tokens spelled, nonterminals ▸ h.rules⟩

theorem Spelled.pushNonterminal (h : draft.Spelled) {nonterminal : Nonterminal}
    (terminals : next.terminals = draft.terminals)
    (nonterminals : next.nonterminals = draft.nonterminals.push nonterminal)
    (spelled : nonterminal.IsSpelled) : next.Spelled :=
  ⟨terminals ▸ h.tokens, nonterminals ▸ forall_getElem?_push h.rules spelled⟩

theorem Spelled.change (h : draft.Spelled) (index : Nat) {f : Nonterminal → Nonterminal}
    (keeps : ∀ nonterminal : Nonterminal, nonterminal.IsSpelled → (f nonterminal).IsSpelled) :
    Spelled { draft with nonterminals := draft.nonterminals.modify index f } :=
  ⟨h.tokens, forall_getElem?_modify h.rules fun _ => keeps⟩

end Draft

open Draft

variable {draft next : Draft}

theorem declareRule_spelled {name : String} {rule : Rule} {u : Unit} (h : draft.Spelled)
    (ran : declareRule name rule draft = .ok (u, next)) : next.Spelled := by
  unfold declareRule at ran
  obtain ⟨found, _, looked, ran⟩ := run_bind ran
  cases looked
  dsimp only at ran
  split at ran
  · obtain ⟨_, _, failed, _⟩ := run_bind ran
    contradiction
  split at ran
  · obtain ⟨regex, _, read, ran⟩ := run_bind ran
    obtain ⟨_, rfl⟩ := run_lift read
    obtain ⟨terminal, _, pushed, ran⟩ := run_bind ran
    cases pushed
    cases ran
    exact h.pushTerminal rfl rfl rfl
  · obtain ⟨nonterminal, _, pushed, ran⟩ := run_bind ran
    cases pushed
    cases ran
    exact h.pushNonterminal rfl rfl id

theorem declareLevel_spelled {entry : PrecedenceEntry} {u : Unit} (h : draft.Spelled)
    (ran : declareLevel entry draft = .ok (u, next)) : next.Spelled := by
  cases entry with
  | name level =>
    cases ran
    exact h.congr rfl rfl
  | symbol rule =>
    obtain ⟨found, _, looked, ran⟩ := run_bind ran
    cases looked
    dsimp only at ran
    split at ran
    · obtain ⟨_, _, failed, _⟩ := run_bind ran
      contradiction
    · cases ran
      exact h.congr rfl rfl

theorem externalName_spelled {rule : Rule} {name : String} {visible named : Bool}
    (answer : externalName rule = .ok (name, visible, named)) :
    visible = (!named || isVisibleName name) := by
  unfold externalName at answer
  split at answer
  · cases answer
    rfl
  · cases answer
    rfl
  · contradiction

theorem declareExternal_spelled {rule : Rule} {index : Nat} (h : draft.Spelled)
    (ran : declareExternal rule draft = .ok (index, next)) : next.Spelled := by
  unfold declareExternal at ran
  obtain ⟨⟨name, visible, named⟩, _, read, ran⟩ := run_bind ran
  obtain ⟨answer, rfl⟩ := run_lift read
  have spelled := externalName_spelled answer
  obtain ⟨found, _, looked, ran⟩ := run_bind ran
  obtain ⟨rfl, _⟩ := run_symbolOf? looked
  dsimp only at ran
  split at ran
  · contradiction
  · cases ran
    exact ⟨forall_getElem?_modify h.tokens fun _ _ => id, h.rules⟩
  · obtain ⟨terminal, _, pushed, ran⟩ := run_bind ran
    cases pushed
    split at ran
    · obtain ⟨_, _, noted, done⟩ := run_bind ran
      cases noted
      cases done
      exact h.pushTerminal rfl rfl spelled
    · obtain ⟨_, _, noted, done⟩ := run_bind ran
      cases noted
      cases done
      exact h.pushTerminal rfl rfl spelled

theorem declareExtra_spelled {rule : Rule} {inline index : Nat} (h : draft.Spelled)
    (ran : declareExtra rule inline draft = .ok (index, next)) : next.Spelled := by
  unfold declareExtra at ran
  split at ran
  · obtain ⟨found, _, looked, ran⟩ := run_bind ran
    obtain ⟨rfl, _⟩ := run_symbolOf? looked
    split at ran
    · cases ran
      exact h
    · contradiction
    · contradiction
  · split at ran
    · obtain ⟨regex, _, read, ran⟩ := run_bind ran
      obtain ⟨_, rfl⟩ := run_lift read
      cases ran
      refine h.pushTerminal rfl rfl (isSpelled_of_underscore rfl rfl ?_)
      simp only [String.toList_append]
      exact List.prefix_append ['_'] _
    · contradiction

theorem declareExtras_spelled {rules : List Rule} {inline : Nat} {extras : List Nat}
    (h : draft.Spelled) (ran : declareExtras rules inline draft = .ok (extras, next)) :
    next.Spelled := by
  induction rules generalizing draft inline extras with
  | nil =>
    cases ran
    exact h
  | cons rule rules ih =>
    obtain ⟨extra, _, first, ran⟩ := run_bind ran
    obtain ⟨others, _, rest, done⟩ := run_bind ran
    cases done
    exact ih (declareExtra_spelled h first) rest

theorem declareSupertype_spelled {name : String} {u : Unit} (h : draft.Spelled)
    (ran : declareSupertype name draft = .ok (u, next)) : next.Spelled := by
  obtain ⟨found, _, looked, ran⟩ := run_bind ran
  obtain ⟨rfl, _⟩ := run_symbolOf? looked
  split at ran
  · cases ran
    exact h.change _ fun _ _ shown => absurd shown Bool.false_ne_true
  · contradiction

theorem internString_spelled {text : String} {terminal : Nat} (h : draft.Spelled)
    (ran : internString text draft = .ok (terminal, next)) : next.Spelled := by
  obtain ⟨found, _, looked, ran⟩ := run_bind ran
  obtain ⟨rfl, rfl⟩ := run_get looked
  generalize draft.strings.lookup text = interned at ran
  split at ran
  · cases ran
    exact h
  · obtain ⟨pushed, _, first, ran⟩ := run_bind ran
    cases first
    obtain ⟨_, _, noted, done⟩ := run_bind ran
    cases noted
    cases done
    exact h.pushTerminal rfl rfl rfl

theorem internToken_spelled {owner : String} {rule : Rule} {terminal : Nat} (h : draft.Spelled)
    (ran : internToken owner rule draft = .ok (terminal, next)) : next.Spelled := by
  obtain ⟨found, _, looked, ran⟩ := run_bind ran
  obtain ⟨rfl, rfl⟩ := run_get looked
  generalize draft.tokens.lookup rule.tokenBody = interned at ran
  split at ran
  · cases ran
    exact h
  · obtain ⟨regex, _, read, ran⟩ := run_bind ran
    obtain ⟨_, rfl⟩ := run_lift read
    obtain ⟨pushed, _, first, ran⟩ := run_bind ran
    cases first
    obtain ⟨_, _, noted, done⟩ := run_bind ran
    cases noted
    cases done
    refine h.pushTerminal rfl rfl (isSpelled_of_underscore rfl rfl ?_)
    simp only [String.toList_append]
    exact List.prefix_append ['_'] _

theorem keptByFlattening_spelled : KeptByFlattening Spelled where
  string h ran := internString_spelled h ran
  token h ran := internToken_spelled h ran
  helper h hidden ran := by
    cases ran
    exact h.pushNonterminal rfl rfl fun shown => by rw [hidden] at shown; contradiction
  note _ _ h := h.congr rfl rfl
  fill h ran := by
    cases ran
    exact h.change _ fun _ => id

theorem readRules_spelled {grammar : Grammar} {answer : List Nat × List Nat × Option Nat}
    (h : readRules grammar Draft.empty = .ok (answer, next)) : next.Spelled := by
  unfold readRules at h
  obtain ⟨_, _, ran, h⟩ := run_bind h
  have spelled := run_each (p := Spelled)
    (fun entry _ _ _ _ known ran => declareRule_spelled known ran) spelled_empty ran
  obtain ⟨_, _, ran, h⟩ := run_bind h
  have spelled := run_each (p := Spelled)
    (fun entries _ _ _ _ known ran => run_each (p := Spelled)
      (fun entry _ _ _ _ known ran => declareLevel_spelled known ran) known ran) spelled ran
  obtain ⟨externals, _, ran, h⟩ := run_bind h
  have spelled := run_mapM (p := Spelled)
    (fun rule _ _ _ _ known ran => declareExternal_spelled known ran) spelled ran
  obtain ⟨extras, _, ran, h⟩ := run_bind h
  have spelled := declareExtras_spelled spelled ran
  obtain ⟨word, _, ran, h⟩ := run_bind h
  rw [← (run_word ran).1] at h
  obtain ⟨_, _, ran, h⟩ := run_bind h
  have spelled := run_each (p := Spelled)
    (fun name _ _ _ _ known ran => declareSupertype_spelled known ran) spelled ran
  obtain ⟨_, _, ran, h⟩ := run_bind h
  have spelled := run_each (p := Spelled)
    (fun entry _ _ _ _ known ran => keptByFlattening_spelled.flattenRule known ran) spelled ran
  cases h
  exact spelled

end Preparation

structure PreparedGrammar.Spelled (grammar : PreparedGrammar) : Prop where
  tokens : ∀ (i : Nat) (terminal : Terminal), grammar.terminals[i]? = some terminal →
    terminal.IsSpelled
  rules : ∀ (i : Nat) (nonterminal : Nonterminal), grammar.nonterminals[i]? = some nonterminal →
    nonterminal.IsSpelled
  apart : ∀ (i j : Nat) (a b : Nonterminal), i < j → grammar.nonterminals[i]? = some a →
    grammar.nonterminals[j]? = some b → b.visible = true → a.name ≠ b.name

open Preparation in
theorem Grammar.prepare_spelled {grammar : Grammar} {prepared : PreparedGrammar}
    (h : grammar.prepare = .ok prepared) : prepared.Spelled := by
  obtain ⟨start, next, ran⟩ := Grammar.exists_prepareWith h
  have named := (prepareWith_named ran).1
  rw [prepareWith_eq] at ran
  obtain ⟨answer, last, read, ran⟩ := run_bind ran
  obtain ⟨_, _, same, ran⟩ := run_bind ran
  obtain ⟨rfl, rfl⟩ := run_get same
  split at ran
  · obtain ⟨_, _, ran, _⟩ := run_bind ran
    contradiction
  cases ran
  have spelled := readRules_spelled read
  obtain ⟨first, declares, reads⟩ := readRules_reads read
  refine ⟨spelled.tokens, spelled.rules, fun i j a b before atI atJ shown same => ?_⟩
  -- a visible rule is one of the grammar, not a helper
  have known := reads.names _ _ (named.rules j b atJ shown)
  obtain ⟨rule, there⟩ := (declares.compounds j b.name).1 known
  have inside := before.trans (List.getElem?_eq_some_iff.1 there).1
  have here : (compoundRules grammar.rules)[i]? =
      some ((compoundRules grammar.rules)[i].1, (compoundRules grammar.rules)[i].2) :=
    List.getElem?_eq_getElem inside
  have label : ((assemble grammar answer next).nonterminals[i]?).map (·.name) =
      some (compoundRules grammar.rules)[i].1 := name_assemble declares reads here
  rw [atI, Option.map_some, Option.some.injEq, same] at label
  have earlier := (declares.compounds i b.name).2 ⟨_, label ▸ here⟩
  rw [known] at earlier
  cases earlier
  exact absurd before (Nat.lt_irrefl i)

end IncrementalGlr
