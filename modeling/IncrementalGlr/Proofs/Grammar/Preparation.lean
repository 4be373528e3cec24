import IncrementalGlr.Grammar.Preparation

/-!
# What preparation makes of a grammar

Every step of a prepared grammar names one of its terminals or nonterminals, and has a precedence
or an associativity only if the rules do.
-/

namespace IncrementalGlr

namespace Rule

mutual

def isUnranked : Rule → Bool
  | seq rules => areUnranked rules
  | choice rules => areUnranked rules
  | repeat1 rule => rule.isUnranked
  | withMetadata metadata rule =>
    metadata.precedence == .none && metadata.associativity.isNone && rule.isUnranked
  | _ => true

def areUnranked : List Rule → Bool
  | [] => true
  | rule :: rest => rule.isUnranked && areUnranked rest

end

end Rule

/-- The grammar ranks nothing: no precedences, no associativities and no precedence lists. -/
def Grammar.isUnranked (grammar : Grammar) : Bool :=
  grammar.precedences.isEmpty && grammar.rules.all fun (_, rule) => rule.isUnranked

namespace PreparedGrammar

def Has (grammar : PreparedGrammar) : Sym → Prop
  | .terminal index => index < grammar.terminals.size
  | .nonterminal index => index < grammar.nonterminals.size

structure WellFormed (grammar : PreparedGrammar) : Prop where
  start : 0 < grammar.nonterminals.size
  steps : ∀ {nonterminal : Nat}, ∀ production ∈ grammar.productionsOf nonterminal,
    ∀ step ∈ production.steps, grammar.Has step.symbol

structure Unranked (grammar : PreparedGrammar) : Prop where
  precedences : grammar.precedences = []
  steps : ∀ {nonterminal : Nat}, ∀ production ∈ grammar.productionsOf nonterminal,
    ∀ step ∈ production.steps, step.precedence = .none ∧ step.associativity = none

end PreparedGrammar

namespace Preparation

/-! ## Drafts -/

namespace Draft

def Has (draft : Draft) : Sym → Prop
  | .terminal index => index < draft.terminals.size
  | .nonterminal index => index < draft.nonterminals.size

def Suits (draft : Draft) (unranked : Prop) (production : FlatProduction) : Prop :=
  ∀ step ∈ production.steps, draft.Has step.symbol ∧
    (unranked → step.precedence = .none ∧ step.associativity = none)

structure Sound (draft : Draft) (unranked : Prop) : Prop where
  names : ∀ entry ∈ draft.byName, draft.Has entry.2
  strings : ∀ entry ∈ draft.strings, entry.2 < draft.terminals.size
  tokens : ∀ entry ∈ draft.tokens, entry.2 < draft.terminals.size
  repeats : ∀ entry ∈ draft.repeats, entry.2 < draft.nonterminals.size
  productions : ∀ nonterminal ∈ draft.nonterminals, ∀ production ∈ nonterminal.productions,
    draft.Suits unranked production
  ranked : unranked → draft.rankedRules = []

structure Extends (draft next : Draft) : Prop where
  terminals : draft.terminals.size ≤ next.terminals.size
  nonterminals : draft.nonterminals.size ≤ next.nonterminals.size

variable {draft next last : Draft} {unranked : Prop}

theorem Extends.refl (draft : Draft) : draft.Extends draft := ⟨Nat.le_refl _, Nat.le_refl _⟩

theorem Extends.trans (first : draft.Extends next) (second : next.Extends last) :
    draft.Extends last :=
  ⟨Nat.le_trans first.1 second.1, Nat.le_trans first.2 second.2⟩

theorem Extends.has (h : draft.Extends next) {symbol : Sym} (there : draft.Has symbol) :
    next.Has symbol := by
  cases symbol with
  | terminal index => exact Nat.lt_of_lt_of_le there h.terminals
  | nonterminal index => exact Nat.lt_of_lt_of_le there h.nonterminals

theorem Extends.suits (h : draft.Extends next) {production : FlatProduction}
    (suits : draft.Suits unranked production) : next.Suits unranked production :=
  fun step member => ⟨h.has (suits step member).1, (suits step member).2⟩

theorem suits_single (step : Step) (there : draft.Has step.symbol)
    (plain : unranked → step.precedence = .none ∧ step.associativity = none) :
    draft.Suits unranked (.single step) := by
  intro other member
  rw [List.mem_singleton.1 member]
  exact ⟨there, plain⟩

theorem Suits.append {head tail : FlatProduction} (h : draft.Suits unranked head)
    (h' : draft.Suits unranked tail) : draft.Suits unranked (head.append tail) :=
  fun step member => (List.mem_append.1 member).elim (h step) (h' step)

theorem Sound.update (sound : draft.Sound unranked) (grown : draft.Extends next)
    (names : ∀ entry ∈ next.byName, entry ∈ draft.byName ∨ next.Has entry.2)
    (strings : ∀ entry ∈ next.strings,
      entry ∈ draft.strings ∨ entry.2 < next.terminals.size)
    (tokens : ∀ entry ∈ next.tokens, entry ∈ draft.tokens ∨ entry.2 < next.terminals.size)
    (repeats : ∀ entry ∈ next.repeats,
      entry ∈ draft.repeats ∨ entry.2 < next.nonterminals.size)
    (productions : ∀ nonterminal ∈ next.nonterminals, ∀ production ∈ nonterminal.productions,
      (∃ other ∈ draft.nonterminals, production ∈ other.productions)
        ∨ next.Suits unranked production)
    (ranked : next.rankedRules = draft.rankedRules) : next.Sound unranked where
  names entry member := (names entry member).elim (grown.has <| sound.names entry ·) id
  strings entry member := (strings entry member).elim
    (fun old => Nat.lt_of_lt_of_le (sound.strings entry old) grown.terminals) id
  tokens entry member := (tokens entry member).elim
    (fun old => Nat.lt_of_lt_of_le (sound.tokens entry old) grown.terminals) id
  repeats entry member := (repeats entry member).elim
    (fun old => Nat.lt_of_lt_of_le (sound.repeats entry old) grown.nonterminals) id
  productions nonterminal member production there :=
    (productions nonterminal member production there).elim
      (fun ⟨other, old, here⟩ => grown.suits (sound.productions other old production here)) id
  ranked holds := ranked.trans (sound.ranked holds)

end Draft

open Draft

section Running

variable {α β : Type} {draft last : Draft}

theorem run_bind {x : M α} {f : α → M β} {b : β} (h : (x >>= f) draft = .ok (b, last)) :
    ∃ a next, x draft = .ok (a, next) ∧ f a next = .ok (b, last) := by
  change (x draft >>= fun (a, next) => f a next) = _ at h
  cases ran : x draft with
  | error cause =>
    rw [ran] at h
    contradiction
  | ok answer =>
    rw [ran] at h
    exact ⟨answer.1, answer.2, rfl, h⟩

theorem run_get {found : Draft} (h : (get : M Draft) draft = .ok (found, last)) :
    draft = found ∧ draft = last := by
  cases h
  exact ⟨rfl, rfl⟩

theorem run_lift {x : Except GrammarError α} {a : α}
    (h : (liftM x : M α) draft = .ok (a, last)) : x = .ok a ∧ draft = last := by
  cases x with
  | error cause => contradiction
  | ok b =>
    cases h
    exact ⟨rfl, rfl⟩

theorem run_each {xs : List α} {f : α → M PUnit} {u v : PUnit} {p : Draft → Prop}
    (keeps : ∀ x ∈ xs, ∀ draft u next, p draft → f x draft = .ok (u, next) → p next)
    (start : p draft)
    (h : (forIn xs u fun x _ => do
      f x
      pure (ForInStep.yield PUnit.unit)) draft = .ok (v, last)) : p last := by
  induction xs generalizing draft with
  | nil =>
    cases h
    exact start
  | cons x xs ih =>
    rw [List.forIn_cons] at h
    obtain ⟨outcome, next, ran, rest⟩ := run_bind h
    obtain ⟨w, _, ran, done⟩ := run_bind ran
    cases done
    have here := keeps x (List.mem_cons_self ..) _ w _ start ran
    exact ih (fun y member => keeps y (List.mem_cons_of_mem _ member)) here rest

theorem run_mapM {xs : List α} {f : α → M β} {ys : List β} {p : Draft → Prop}
    (keeps : ∀ x ∈ xs, ∀ draft y next, p draft → f x draft = .ok (y, next) → p next)
    (start : p draft) (h : xs.mapM f draft = .ok (ys, last)) : p last := by
  induction xs generalizing draft ys with
  | nil =>
    cases h
    exact start
  | cons x xs ih =>
    rw [List.mapM_cons] at h
    obtain ⟨y, next, ran, rest⟩ := run_bind h
    obtain ⟨others, final, ran', done⟩ := run_bind rest
    cases done
    exact ih (fun z member => keeps z (List.mem_cons_of_mem _ member))
      (keeps x (List.mem_cons_self ..) _ _ _ start ran) ran'

end Running

/-! ## Steps of preparation -/

variable {unranked : Prop} {draft next : Draft}

theorem pushTerminal_sound {terminal : Terminal} {index : Nat} (sound : draft.Sound unranked)
    (h : pushTerminal terminal draft = .ok (index, next)) :
    next.Sound unranked ∧ draft.Extends next ∧ index < next.terminals.size := by
  cases h
  have grown : draft.Extends { draft with terminals := draft.terminals.push terminal } :=
    ⟨by simp, Nat.le_refl _⟩
  exact ⟨sound.update grown (fun _ => .inl) (fun _ => .inl) (fun _ => .inl) (fun _ => .inl)
    (fun n member _ there => .inl ⟨n, member, there⟩) rfl, grown, by simp⟩

theorem pushNonterminal_sound {nonterminal : Nonterminal} {index : Nat}
    (sound : draft.Sound unranked) (empty : nonterminal.productions = [])
    (h : pushNonterminal nonterminal draft = .ok (index, next)) :
    next.Sound unranked ∧ draft.Extends next ∧ index < next.nonterminals.size := by
  cases h
  have grown : draft.Extends
      { draft with nonterminals := draft.nonterminals.push nonterminal } :=
    ⟨Nat.le_refl _, by simp⟩
  refine ⟨sound.update grown (fun _ => .inl) (fun _ => .inl) (fun _ => .inl) (fun _ => .inl)
    (fun n member production there => ?_) rfl, grown, by simp⟩
  rcases Array.mem_push.1 member with member | rfl
  · exact .inl ⟨n, member, there⟩
  · rw [empty] at there
    contradiction

theorem sound_modify {index : Nat} {f : Nonterminal → Nonterminal} (sound : draft.Sound unranked)
    (suits : ∀ nonterminal ∈ draft.nonterminals, ∀ production ∈ (f nonterminal).productions,
      draft.Suits unranked production) :
    Sound { draft with nonterminals := draft.nonterminals.modify index f } unranked ∧
      draft.Extends { draft with nonterminals := draft.nonterminals.modify index f } := by
  have grown : draft.Extends
      { draft with nonterminals := draft.nonterminals.modify index f } :=
    ⟨Nat.le_refl _, by simp⟩
  refine ⟨sound.update grown (fun _ => .inl) (fun _ => .inl) (fun _ => .inl) (fun _ => .inl)
    (fun other member production there => ?_) rfl, grown⟩
  obtain ⟨i, inside, rfl⟩ := Array.mem_iff_getElem.1 member
  have inside : i < draft.nonterminals.size := by simpa using inside
  have here : draft.nonterminals[i] ∈ draft.nonterminals := Array.getElem_mem _
  simp only [Array.getElem_modify] at there
  split at there
  · exact .inr (grown.suits (suits _ here production there))
  · exact .inl ⟨_, here, there⟩

theorem setProductions_sound {index : Nat} {productions : List FlatProduction} {u : Unit}
    (sound : draft.Sound unranked)
    (suits : ∀ production ∈ productions, draft.Suits unranked production)
    (h : setProductions index productions draft = .ok (u, next)) :
    next.Sound unranked ∧ draft.Extends next := by
  cases h
  exact sound_modify sound fun _ _ production member =>
    suits production (List.mem_eraseDups.1 member)

theorem mem_of_lookup {α β : Type} [BEq α] {key : α} {value : β} {entries : List (α × β)}
    (h : entries.lookup key = some value) : ∃ other, (other, value) ∈ entries := by
  induction entries with
  | nil => contradiction
  | cons entry entries ih =>
    rw [List.lookup_cons] at h
    split at h
    · cases h
      exact ⟨entry.1, List.mem_cons_self ..⟩
    · obtain ⟨other, member⟩ := ih h
      exact ⟨other, List.mem_cons_of_mem _ member⟩

theorem symbolOf?_eq {name : String} {found : Option Sym} (sound : draft.Sound unranked)
    (h : symbolOf? name draft = .ok (found, next)) :
    draft = next ∧ ∀ symbol ∈ found, draft.Has symbol := by
  cases h
  refine ⟨rfl, fun symbol there => ?_⟩
  obtain ⟨other, member⟩ := mem_of_lookup there
  exact sound.names _ member

theorem nameSymbol_sound {name : String} {symbol : Sym} {u : Unit} (sound : draft.Sound unranked)
    (h : nameSymbol name symbol draft = .ok (u, next)) (there : draft.Has symbol) :
    next.Sound unranked := by
  cases h
  refine sound.update ⟨Nat.le_refl _, Nat.le_refl _⟩ (fun entry member => ?_) (fun _ => .inl)
    (fun _ => .inl) (fun _ => .inl) (fun n member _ there => .inl ⟨n, member, there⟩) rfl
  rcases List.mem_cons.1 member with rfl | member
  · exact .inr there
  · exact .inl member

theorem declareRule_sound {name : String} {rule : Rule} {u : Unit} (sound : draft.Sound unranked)
    (h : declareRule name rule draft = .ok (u, next)) : next.Sound unranked := by
  unfold declareRule at h
  obtain ⟨found, _, ran, h⟩ := run_bind h
  cases ran
  dsimp only at h
  split at h
  · obtain ⟨_, _, ran, _⟩ := run_bind h
    contradiction
  split at h
  · obtain ⟨regex, _, ran, h⟩ := run_bind h
    obtain ⟨_, rfl⟩ := run_lift ran
    obtain ⟨terminal, _, ran, h⟩ := run_bind h
    obtain ⟨sound, _, inside⟩ := pushTerminal_sound sound ran
    exact nameSymbol_sound sound h inside
  · obtain ⟨nonterminal, _, ran, h⟩ := run_bind h
    obtain ⟨sound, _, inside⟩ := pushNonterminal_sound sound rfl ran
    exact nameSymbol_sound sound h inside

theorem declareLevel_sound {entry : PrecedenceEntry} {u : Unit} (sound : draft.Sound unranked)
    (ranked : ¬ unranked) (h : declareLevel entry draft = .ok (u, next)) :
    next.Sound unranked := by
  cases entry with
  | name level =>
    cases h
    exact sound.update ⟨Nat.le_refl _, Nat.le_refl _⟩ (fun _ => .inl) (fun _ => .inl)
      (fun _ => .inl) (fun _ => .inl) (fun n member _ there => .inl ⟨n, member, there⟩) rfl
  | symbol rule =>
    obtain ⟨found, _, ran, h⟩ := run_bind h
    cases ran
    dsimp only at h
    split at h
    · obtain ⟨_, _, ran, _⟩ := run_bind h
      contradiction
    · cases h
      exact ⟨sound.names, sound.strings, sound.tokens, sound.repeats, sound.productions,
        fun holds => absurd holds ranked⟩

theorem addString_sound {text : String} {terminal : Nat} {u : Unit} (sound : draft.Sound unranked)
    (inside : terminal < draft.terminals.size)
    (h : (modify fun draft => { draft with strings := (text, terminal) :: draft.strings } : M Unit)
      draft = .ok (u, next)) : next.Sound unranked ∧ draft.Extends next := by
  cases h
  have grown : draft.Extends { draft with strings := (text, terminal) :: draft.strings } :=
    ⟨Nat.le_refl _, Nat.le_refl _⟩
  refine ⟨sound.update grown (fun _ => .inl) (fun entry member => ?_) (fun _ => .inl)
    (fun _ => .inl) (fun n member _ there => .inl ⟨n, member, there⟩) rfl, grown⟩
  rcases List.mem_cons.1 member with rfl | member
  · exact .inr inside
  · exact .inl member

theorem addToken_sound {body : Rule} {terminal : Nat} {u : Unit} (sound : draft.Sound unranked)
    (inside : terminal < draft.terminals.size)
    (h : (modify fun draft => { draft with tokens := (body, terminal) :: draft.tokens } : M Unit)
      draft = .ok (u, next)) : next.Sound unranked ∧ draft.Extends next := by
  cases h
  have grown : draft.Extends { draft with tokens := (body, terminal) :: draft.tokens } :=
    ⟨Nat.le_refl _, Nat.le_refl _⟩
  refine ⟨sound.update grown (fun _ => .inl) (fun _ => .inl) (fun entry member => ?_)
    (fun _ => .inl) (fun n member _ there => .inl ⟨n, member, there⟩) rfl, grown⟩
  rcases List.mem_cons.1 member with rfl | member
  · exact .inr inside
  · exact .inl member

theorem addRepeat_sound {body : Rule × StepContext} {helper : Nat} {u : Unit}
    (sound : draft.Sound unranked) (inside : helper < draft.nonterminals.size)
    (h : (modify fun draft => { draft with repeats := (body, helper) :: draft.repeats } : M Unit)
      draft = .ok (u, next)) : next.Sound unranked ∧ draft.Extends next := by
  cases h
  have grown : draft.Extends { draft with repeats := (body, helper) :: draft.repeats } :=
    ⟨Nat.le_refl _, Nat.le_refl _⟩
  refine ⟨sound.update grown (fun _ => .inl) (fun _ => .inl) (fun _ => .inl)
    (fun entry member => ?_) (fun n member _ there => .inl ⟨n, member, there⟩) rfl, grown⟩
  rcases List.mem_cons.1 member with rfl | member
  · exact .inr inside
  · exact .inl member

theorem declareExternal_sound {rule : Rule} {index : Nat} (sound : draft.Sound unranked)
    (h : declareExternal rule draft = .ok (index, next)) : next.Sound unranked := by
  unfold declareExternal at h
  obtain ⟨⟨name, visible, named⟩, _, ran, h⟩ := run_bind h
  obtain ⟨_, rfl⟩ := run_lift ran
  obtain ⟨found, _, ran, h⟩ := run_bind h
  obtain ⟨rfl, there⟩ := symbolOf?_eq sound ran
  dsimp only at h
  split at h
  · contradiction
  · cases h
    exact sound.update ⟨by simp, Nat.le_refl _⟩ (fun _ => .inl) (fun _ => .inl) (fun _ => .inl)
      (fun _ => .inl) (fun n member _ there => .inl ⟨n, member, there⟩) rfl
  · obtain ⟨terminal, _, ran, h⟩ := run_bind h
    obtain ⟨sound, _, inside⟩ := pushTerminal_sound sound ran
    split at h
    · obtain ⟨_, _, ran, done⟩ := run_bind h
      cases done
      exact nameSymbol_sound sound ran inside
    · obtain ⟨_, _, ran, done⟩ := run_bind h
      cases done
      exact (addString_sound sound inside ran).1

theorem declareExtra_sound {rule : Rule} {inline index : Nat} (sound : draft.Sound unranked)
    (h : declareExtra rule inline draft = .ok (index, next)) : next.Sound unranked := by
  unfold declareExtra at h
  split at h
  · obtain ⟨found, _, ran, h⟩ := run_bind h
    obtain ⟨rfl, there⟩ := symbolOf?_eq sound ran
    split at h
    · cases h
      exact sound
    · contradiction
    · contradiction
  · split at h
    · obtain ⟨regex, _, ran, h⟩ := run_bind h
      obtain ⟨_, rfl⟩ := run_lift ran
      exact (pushTerminal_sound sound h).1
    · contradiction

theorem declareExtras_sound {rules : List Rule} {inline : Nat} {extras : List Nat}
    (sound : draft.Sound unranked) (h : declareExtras rules inline draft = .ok (extras, next)) :
    next.Sound unranked := by
  induction rules generalizing draft inline extras with
  | nil =>
    cases h
    exact sound
  | cons rule rules ih =>
    obtain ⟨extra, _, ran, h⟩ := run_bind h
    obtain ⟨others, _, ran', done⟩ := run_bind h
    cases done
    exact ih (declareExtra_sound sound ran) ran'

theorem wordTerminal_eq {name : String} {index : Nat}
    (h : wordTerminal name draft = .ok (index, next)) : next = draft := by
  unfold wordTerminal at h
  obtain ⟨_, _, ran, h⟩ := run_bind h
  obtain ⟨rfl, rfl⟩ := run_get ran
  generalize draft.byName.lookup name = found at h
  split at h
  · split at h
    · cases h
      rfl
    · contradiction
  · contradiction

theorem run_word {declared : Option String} {word : Option Nat}
    (h : declared.mapM wordTerminal draft = .ok (word, next)) :
    draft = next ∧ ∀ index ∈ word, ∃ name, wordTerminal name draft = .ok (index, draft) := by
  cases declared with
  | none =>
    cases h
    simp
  | some name =>
    change (wordTerminal name >>= fun word => pure (some word)) _ = _ at h
    obtain ⟨index, _, ran, done⟩ := run_bind h
    cases done
    cases wordTerminal_eq ran
    refine ⟨rfl, fun other member => ?_⟩
    cases member
    exact ⟨name, ran⟩

theorem declareSupertype_sound {name : String} {u : Unit} (sound : draft.Sound unranked)
    (h : declareSupertype name draft = .ok (u, next)) : next.Sound unranked := by
  obtain ⟨found, _, ran, h⟩ := run_bind h
  obtain ⟨rfl, there⟩ := symbolOf?_eq sound ran
  split at h
  · cases h
    let hide (nonterminal : Nonterminal) : Nonterminal :=
      { nonterminal with visible := false, supertype := true }
    exact (sound_modify (f := hide) sound fun n member => sound.productions n member).1
  · contradiction

/-! ## Flattening -/

theorem internString_sound {text : String} {terminal : Nat} (sound : draft.Sound unranked)
    (h : internString text draft = .ok (terminal, next)) :
    next.Sound unranked ∧ draft.Extends next ∧ terminal < next.terminals.size := by
  obtain ⟨found, _, ran, h⟩ := run_bind h
  obtain ⟨rfl, rfl⟩ := run_get ran
  generalize there : draft.strings.lookup text = interned at h
  split at h
  · cases h
    obtain ⟨other, member⟩ := mem_of_lookup there
    exact ⟨sound, .refl _, sound.strings _ member⟩
  · obtain ⟨pushed, _, ran, h⟩ := run_bind h
    obtain ⟨sound, first, inside⟩ := pushTerminal_sound sound ran
    obtain ⟨_, _, ran, done⟩ := run_bind h
    cases done
    obtain ⟨sound, second⟩ := addString_sound sound inside ran
    exact ⟨sound, first.trans second, Nat.lt_of_lt_of_le inside second.terminals⟩

theorem internToken_sound {owner : String} {rule : Rule} {terminal : Nat}
    (sound : draft.Sound unranked) (h : internToken owner rule draft = .ok (terminal, next)) :
    next.Sound unranked ∧ draft.Extends next ∧ terminal < next.terminals.size := by
  obtain ⟨found, _, ran, h⟩ := run_bind h
  obtain ⟨rfl, rfl⟩ := run_get ran
  generalize there : draft.tokens.lookup rule.tokenBody = interned at h
  split at h
  · cases h
    obtain ⟨other, member⟩ := mem_of_lookup there
    exact ⟨sound, .refl _, sound.tokens _ member⟩
  · obtain ⟨regex, _, ran, h⟩ := run_bind h
    obtain ⟨_, rfl⟩ := run_lift ran
    obtain ⟨pushed, _, ran, h⟩ := run_bind h
    obtain ⟨sound, first, inside⟩ := pushTerminal_sound sound ran
    obtain ⟨_, _, ran, done⟩ := run_bind h
    cases done
    obtain ⟨sound, second⟩ := addToken_sound sound inside ran
    exact ⟨sound, first.trans second, Nat.lt_of_lt_of_le inside second.terminals⟩

theorem suits_repeatProductions {helper : Nat} {body : List FlatProduction}
    (inside : helper < draft.nonterminals.size)
    (suits : ∀ production ∈ body, draft.Suits unranked production) :
    ∀ production ∈ repeatProductions helper body, draft.Suits unranked production := by
  intro production member
  rcases List.mem_append.1 member with member | member
  · obtain ⟨alternative, there, rfl⟩ := List.mem_map.1 member
    intro step place
    rcases List.mem_cons.1 place with rfl | place
    · exact ⟨inside, fun _ => ⟨rfl, rfl⟩⟩
    · exact suits alternative there step place
  · exact suits production member

def Plain (context : StepContext) (rule : Rule) : Prop :=
  context.precedence = .none ∧ context.associativity = none ∧ rule.isUnranked = true

theorem Plain.apply {context : StepContext} {metadata : Metadata} {rule : Rule}
    (plain : Plain context (.withMetadata metadata rule)) :
    Plain (context.apply metadata) rule := by
  obtain ⟨precedence, associativity, rule⟩ := plain
  simp only [Rule.isUnranked, Bool.and_eq_true, beq_iff_eq, Option.isNone_iff_eq_none] at rule
  simp [Plain, StepContext.apply, precedence, associativity, rule]

mutual

theorem flatten_sound {owner : String} {context : StepContext} {productions : List FlatProduction}
    {draft next : Draft} (rule : Rule) (sound : draft.Sound unranked)
    (plain : unranked → Plain context rule)
    (h : flatten owner context rule draft = .ok (productions, next)) :
    next.Sound unranked ∧ draft.Extends next ∧
      ∀ production ∈ productions, next.Suits unranked production := by
  have single : ∀ {last : Draft} (step : Step), last.Has step.symbol →
      step.precedence = context.precedence → step.associativity = context.associativity →
      ∀ production ∈ [FlatProduction.single step], last.Suits unranked production := by
    intro last step there precedence associativity production member
    rw [List.mem_singleton.1 member]
    exact suits_single step there fun holds =>
      ⟨precedence.trans (plain holds).1, associativity.trans (plain holds).2.1⟩
  match rule with
  | .blank =>
    rw [flatten] at h
    cases h
    refine ⟨sound, .refl _, fun production member => ?_⟩
    rw [List.mem_singleton.1 member]
    exact fun step place => absurd place List.not_mem_nil
  | .string text =>
    rw [flatten] at h
    obtain ⟨terminal, _, ran, h⟩ := run_bind h
    cases h
    obtain ⟨sound, grown, inside⟩ := internString_sound sound ran
    exact ⟨sound, grown, single (context.step (.terminal terminal)) inside rfl rfl⟩
  | .pattern source =>
    rw [flatten] at h
    obtain ⟨terminal, _, ran, h⟩ := run_bind h
    cases h
    obtain ⟨sound, grown, inside⟩ := internToken_sound sound ran
    exact ⟨sound, grown, single (context.step (.terminal terminal)) inside rfl rfl⟩
  | .symbol name =>
    rw [flatten] at h
    obtain ⟨found, _, ran, h⟩ := run_bind h
    obtain ⟨rfl, there⟩ := symbolOf?_eq sound ran
    split at h
    · cases h
      exact ⟨sound, .refl _, single (context.step _) (there _ rfl) rfl rfl⟩
    · contradiction
  | .seq rules =>
    rw [flatten] at h
    refine flattenSeq_sound rules sound (fun holds => ⟨(plain holds).1, (plain holds).2.1, ?_⟩)
      (fun production member => ?_) h
    · simpa [Rule.isUnranked] using (plain holds).2.2
    · rw [List.mem_singleton.1 member]
      exact fun step place => absurd place List.not_mem_nil
  | .choice rules =>
    rw [flatten] at h
    refine flattenChoice_sound rules sound (fun holds => ⟨(plain holds).1, (plain holds).2.1, ?_⟩) h
    simpa [Rule.isUnranked] using (plain holds).2.2
  | .repeat1 inner =>
    rw [flatten] at h
    obtain ⟨found, _, ran, h⟩ := run_bind h
    obtain ⟨rfl, rfl⟩ := run_get ran
    generalize there : draft.repeats.lookup (inner, context) = known at h
    dsimp only at h
    split at h
    · cases h
      obtain ⟨other, member⟩ := mem_of_lookup there
      exact ⟨sound, .refl _, single _ (sound.repeats _ member) rfl rfl⟩
    · obtain ⟨helper, _, ran, h⟩ := run_bind h
      obtain ⟨sound, first, inside⟩ := pushNonterminal_sound sound rfl ran
      obtain ⟨_, _, ran, h⟩ := run_bind h
      obtain ⟨sound, second⟩ := addRepeat_sound sound inside ran
      obtain ⟨body, _, ran, h⟩ := run_bind h
      obtain ⟨sound, third, suits⟩ := flatten_sound inner sound (fun holds => plain holds) ran
      have inside := Nat.lt_of_lt_of_le (Nat.lt_of_lt_of_le inside second.nonterminals)
        third.nonterminals
      obtain ⟨_, _, ran, h⟩ := run_bind h
      obtain ⟨sound, fourth⟩ :=
        setProductions_sound sound (suits_repeatProductions inside suits) ran
      cases h
      exact ⟨sound, ((first.trans second).trans third).trans fourth,
        single _ (Nat.lt_of_lt_of_le inside fourth.nonterminals) rfl rfl⟩
  | .withMetadata metadata inner =>
    rw [flatten] at h
    split at h
    · obtain ⟨terminal, _, ran, h⟩ := run_bind h
      cases h
      obtain ⟨sound, grown, inside⟩ := internToken_sound sound ran
      refine ⟨sound, grown, fun production member => ?_⟩
      rw [List.mem_singleton.1 member]
      exact suits_single ((context.apply metadata).step (.terminal terminal)) inside
        fun holds => ⟨(plain holds).apply.1, (plain holds).apply.2.1⟩
    · have rest : ∀ {last : Draft}, (do
          let alternatives ← flatten owner (context.apply metadata) inner
          return alternatives.map fun production =>
            { production with
              dynamicPrecedence := FlatProduction.stronger production.dynamicPrecedence
                metadata.dynamicPrecedence } : M (List FlatProduction)) draft
            = .ok (productions, last) →
          last.Sound unranked ∧ draft.Extends last ∧
            ∀ production ∈ productions, last.Suits unranked production := by
        intro last h
        obtain ⟨alternatives, _, ran, h⟩ := run_bind h
        cases h
        obtain ⟨sound, grown, suits⟩ :=
          flatten_sound inner sound (fun holds => (plain holds).apply) ran
        refine ⟨sound, grown, fun production member => ?_⟩
        obtain ⟨alternative, there, rfl⟩ := List.mem_map.1 member
        exact suits alternative there
      dsimp only at h
      generalize metadata.precedence = precedence at h
      split at h
      · obtain ⟨_, _, ran, h⟩ := run_bind h
        obtain ⟨rfl, rfl⟩ := run_get ran
        split at h
        · obtain ⟨_, _, ran, _⟩ := run_bind h
          contradiction
        · exact rest h
      · exact rest h

theorem flattenSeq_sound {owner : String} {context : StepContext}
    {heads productions : List FlatProduction} {draft next : Draft} (rules : List Rule)
    (sound : draft.Sound unranked)
    (plain : unranked → context.precedence = .none ∧ context.associativity = none ∧
      Rule.areUnranked rules = true)
    (suits : ∀ production ∈ heads, draft.Suits unranked production)
    (h : flattenSeq owner context heads rules draft = .ok (productions, next)) :
    next.Sound unranked ∧ draft.Extends next ∧
      ∀ production ∈ productions, next.Suits unranked production := by
  match rules with
  | [] =>
    rw [flattenSeq] at h
    cases h
    exact ⟨sound, .refl _, suits⟩
  | rule :: rules =>
    rw [flattenSeq] at h
    obtain ⟨tails, _, ran, h⟩ := run_bind h
    simp only [Rule.areUnranked, Bool.and_eq_true] at plain
    obtain ⟨sound, first, own⟩ := flatten_sound rule sound
      (fun holds => ⟨(plain holds).1, (plain holds).2.1, (plain holds).2.2.1⟩) ran
    obtain ⟨sound, second, all⟩ := flattenSeq_sound rules sound
      (fun holds => ⟨(plain holds).1, (plain holds).2.1, (plain holds).2.2.2⟩)
      (fun production member => by
        obtain ⟨head, inHeads, member⟩ := List.mem_flatMap.1 member
        obtain ⟨tail, inTails, rfl⟩ := List.mem_map.1 member
        exact (first.suits (suits head inHeads)).append (own tail inTails)) h
    exact ⟨sound, first.trans second, all⟩

theorem flattenChoice_sound {owner : String} {context : StepContext}
    {productions : List FlatProduction} {draft next : Draft} (rules : List Rule)
    (sound : draft.Sound unranked)
    (plain : unranked → context.precedence = .none ∧ context.associativity = none ∧
      Rule.areUnranked rules = true)
    (h : flattenChoice owner context rules draft = .ok (productions, next)) :
    next.Sound unranked ∧ draft.Extends next ∧
      ∀ production ∈ productions, next.Suits unranked production := by
  match rules with
  | [] =>
    rw [flattenChoice] at h
    cases h
    exact ⟨sound, .refl _, fun production member => absurd member List.not_mem_nil⟩
  | rule :: rules =>
    rw [flattenChoice] at h
    obtain ⟨own, _, ran, h⟩ := run_bind h
    obtain ⟨others, _, ran', h⟩ := run_bind h
    cases h
    simp only [Rule.areUnranked, Bool.and_eq_true] at plain
    obtain ⟨sound, first, suits⟩ := flatten_sound rule sound
      (fun holds => ⟨(plain holds).1, (plain holds).2.1, (plain holds).2.2.1⟩) ran
    obtain ⟨sound, second, all⟩ := flattenChoice_sound rules sound
      (fun holds => ⟨(plain holds).1, (plain holds).2.1, (plain holds).2.2.2⟩) ran'
    refine ⟨sound, first.trans second, fun production member => ?_⟩
    rcases List.mem_append.1 member with member | member
    · exact second.suits (suits production member)
    · exact all production member

end

theorem flattenRule_sound {name : String} {rule : Rule} {u : Unit} (sound : draft.Sound unranked)
    (plain : unranked → rule.isUnranked = true)
    (h : flattenRule name rule draft = .ok (u, next)) : next.Sound unranked := by
  obtain ⟨found, _, ran, h⟩ := run_bind h
  obtain ⟨rfl, there⟩ := symbolOf?_eq sound ran
  split at h
  · obtain ⟨_, _, ran, h⟩ := run_bind h
    obtain ⟨rfl, rfl⟩ := run_get ran
    obtain ⟨productions, _, ran, h⟩ := run_bind h
    obtain ⟨sound, _, suits⟩ := flatten_sound rule sound
      (fun holds => ⟨by simp [sound.ranked holds], rfl, plain holds⟩) ran
    exact (setProductions_sound sound suits h).1
  · cases h
    exact sound

/-! ## The whole grammar -/

theorem sound_empty (unranked : Prop) : Draft.empty.Sound unranked where
  names := by simp [Draft.empty]
  strings := by simp [Draft.empty]
  tokens := by simp [Draft.empty]
  repeats := by simp [Draft.empty]
  productions := by simp [Draft.empty]
  ranked _ := rfl

theorem prepareWith_sound {grammar : Grammar} {start : String} {prepared : PreparedGrammar}
    (h : prepareWith grammar start Draft.empty = .ok (prepared, next)) :
    next.Sound (grammar.isUnranked = true) ∧ prepared.nonterminals = next.nonterminals ∧
      prepared.terminals = next.terminals ∧ prepared.precedences = grammar.precedences ∧
      (productive next.nonterminals).getD 0 false = true := by
  have plain : grammar.isUnranked = true → grammar.precedences = [] ∧
      ∀ entry ∈ grammar.rules, entry.2.isUnranked = true := by
    simp [Grammar.isUnranked]
  unfold prepareWith at h
  obtain ⟨_, _, ran, h⟩ := run_bind h
  have sound := run_each (p := (Sound · (grammar.isUnranked = true)))
    (fun entry _ draft u next sound ran => declareRule_sound sound ran) (sound_empty _) ran
  obtain ⟨_, _, ran, h⟩ := run_bind h
  have sound := run_each (p := (Sound · (grammar.isUnranked = true)))
    (fun entries member draft u next sound ran =>
      run_each (p := (Sound · (grammar.isUnranked = true)))
        (fun entry _ draft u next sound ran => declareLevel_sound sound (fun holds => by
          rw [(plain holds).1] at member
          contradiction) ran) sound ran) sound ran
  obtain ⟨externals, _, ran, h⟩ := run_bind h
  have sound := run_mapM (p := (Sound · (grammar.isUnranked = true)))
    (fun rule _ draft index next sound ran => declareExternal_sound sound ran) sound ran
  obtain ⟨extras, _, ran, h⟩ := run_bind h
  have sound := declareExtras_sound sound ran
  obtain ⟨word, _, ran, h⟩ := run_bind h
  rw [← (run_word ran).1] at h
  obtain ⟨_, _, ran, h⟩ := run_bind h
  have sound := run_each (p := (Sound · (grammar.isUnranked = true)))
    (fun name _ draft u next sound ran => declareSupertype_sound sound ran) sound ran
  obtain ⟨_, _, ran, h⟩ := run_bind h
  have sound := run_each (p := (Sound · (grammar.isUnranked = true)))
    (fun entry member draft u next sound ran =>
      flattenRule_sound sound (fun holds => (plain holds).2 entry member) ran) sound ran
  obtain ⟨_, _, ran, h⟩ := run_bind h
  obtain ⟨rfl, rfl⟩ := run_get ran
  dsimp only at h
  split at h
  · obtain ⟨_, _, ran, _⟩ := run_bind h
    contradiction
  · next reached =>
    cases h
    exact ⟨sound, rfl, rfl, rfl, by simpa using reached⟩

theorem prepareWith_externals {grammar : Grammar} {start : String} {prepared : PreparedGrammar}
    (none : grammar.externals = [])
    (h : prepareWith grammar start draft = .ok (prepared, next)) : prepared.externals = [] := by
  unfold prepareWith at h
  rw [none] at h
  obtain ⟨_, _, _, h⟩ := run_bind h
  obtain ⟨_, _, _, h⟩ := run_bind h
  obtain ⟨externals, _, ran, h⟩ := run_bind h
  cases ran
  obtain ⟨_, _, _, h⟩ := run_bind h
  obtain ⟨_, _, _, h⟩ := run_bind h
  obtain ⟨_, _, _, h⟩ := run_bind h
  obtain ⟨_, _, _, h⟩ := run_bind h
  obtain ⟨_, _, _, h⟩ := run_bind h
  dsimp only at h
  split at h
  · obtain ⟨_, _, ran, _⟩ := run_bind h
    contradiction
  · cases h
    rfl

end Preparation

/-! ## Prepared grammars -/

theorem Grammar.exists_prepareWith {grammar : Grammar} {prepared : PreparedGrammar}
    (h : grammar.prepare = .ok prepared) : ∃ start next,
      Preparation.prepareWith grammar start Preparation.Draft.empty = .ok (prepared, next) := by
  unfold Grammar.prepare at h
  split at h
  · contradiction
  next start rule rest rules =>
  split at h
  · contradiction
  refine ⟨start, ?_⟩
  rw [StateT.run'_eq] at h
  cases ran : Preparation.prepareWith grammar start Preparation.Draft.empty with
  | error cause =>
    rw [StateT.run, ran] at h
    contradiction
  | ok answer =>
    rw [StateT.run, ran] at h
    cases h
    exact ⟨answer.2, rfl⟩

theorem Grammar.externals_of_prepare {grammar : Grammar} {prepared : PreparedGrammar}
    (none : grammar.externals = []) (h : grammar.prepare = .ok prepared) :
    prepared.externals = [] := by
  obtain ⟨start, next, ran⟩ := Grammar.exists_prepareWith h
  exact Preparation.prepareWith_externals none ran

theorem Grammar.prepare_sound {grammar : Grammar} {prepared : PreparedGrammar}
    (h : grammar.prepare = .ok prepared) :
    prepared.WellFormed ∧ (grammar.isUnranked = true → prepared.Unranked) := by
  obtain ⟨start, next, ran⟩ := Grammar.exists_prepareWith h
  obtain ⟨sound, nonterminals, terminals, precedences, reached⟩ :=
    Preparation.prepareWith_sound ran
  have has : ∀ symbol, next.Has symbol → prepared.Has symbol := by
    intro symbol there
    cases symbol with
    | terminal index => exact Nat.lt_of_lt_of_eq there (congrArg Array.size terminals.symm)
    | nonterminal index =>
      exact Nat.lt_of_lt_of_eq there (congrArg Array.size nonterminals.symm)
  have suits : ∀ {nonterminal : Nat}, ∀ production ∈ prepared.productionsOf nonterminal,
      next.Suits (grammar.isUnranked = true) production := by
    intro nonterminal production member
    rw [PreparedGrammar.productionsOf, nonterminals] at member
    cases found : next.nonterminals[nonterminal]? with
    | none => simp [found] at member
    | some n =>
      exact sound.productions n (Array.mem_of_getElem? found) production
        (by simpa [found] using member)
  refine ⟨⟨?_, fun production member step there =>
      has _ (suits production member step there).1⟩, fun holds => ⟨?_,
      fun production member step there => (suits production member step there).2 holds⟩⟩
  · rw [nonterminals, Nat.pos_iff_ne_zero]
    intro none
    rw [Array.size_eq_zero_iff.1 none] at reached
    simp [Preparation.productive, stabilize] at reached
  · rw [precedences]
    simp only [Grammar.isUnranked, Bool.and_eq_true, List.isEmpty_iff] at holds
    exact holds.1

end IncrementalGlr
