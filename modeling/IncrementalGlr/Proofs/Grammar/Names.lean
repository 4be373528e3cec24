import IncrementalGlr.Proofs.Grammar.Preparation
import IncrementalGlr.Proofs.Interning
import IncrementalGlr.Proofs.Lexical.Ranges

/-!
# The names of a prepared grammar

All that preparation does to a draft is a sequence of moves, and a name is given away in a move only
where it was free. So a visible symbol is found by its name, and two visible symbols of one kind
have different names. Strings that are declared external are the exception: each declaration makes a
token of its own.
-/

namespace IncrementalGlr

def Grammar.externalStrings (grammar : Grammar) : List String :=
  grammar.externals.filterMap fun rule =>
    match rule with
    | .string text => some text
    | _ => none

def Grammar.Redeclares (grammar : Grammar) (text : String) : Prop :=
  1 < grammar.externalStrings.count text

mutual

theorem Rule.made_toRegex {token : String} {regex : Regex} (rule : Rule)
    (h : rule.toRegex token = .ok regex) : regex.Made := by
  match rule with
  | .blank =>
    cases h
    exact .empty
  | .string text =>
    cases h
    exact Regex.made_literal text
  | .pattern source => exact Pattern.made_parse h
  | .symbol name => contradiction
  | .seq rules =>
    rw [Rule.toRegex] at h
    obtain ⟨regexes, read, h⟩ := bind_ok h
    cases h
    exact .seq (Rule.made_toRegexList rules read)
  | .choice rules =>
    rw [Rule.toRegex] at h
    obtain ⟨regexes, read, h⟩ := bind_ok h
    cases h
    exact .alt (Rule.made_toRegexList rules read)
  | .repeat1 inner =>
    rw [Rule.toRegex] at h
    obtain ⟨regex, read, h⟩ := bind_ok h
    cases h
    exact .repetition (Rule.made_toRegex inner read) (by simp)
  | .withMetadata _ inner =>
    rw [Rule.toRegex] at h
    exact Rule.made_toRegex inner h

theorem Rule.made_toRegexList {token : String} {regexes : List Regex} (rules : List Rule)
    (h : Rule.toRegexList token rules = .ok regexes) : ∀ regex ∈ regexes, regex.Made := by
  match rules with
  | [] =>
    cases h
    simp
  | rule :: rest =>
    rw [Rule.toRegexList] at h
    obtain ⟨regex, read, h⟩ := bind_ok h
    obtain ⟨others, read', h⟩ := bind_ok h
    cases h
    exact List.forall_mem_cons.2 ⟨Rule.made_toRegex rule read, Rule.made_toRegexList rest read'⟩

end

/-- The expression of a terminal was made by reading it, and that of a string in a rule is the
string. -/
structure Terminal.Sound (terminal : Terminal) : Prop where
  made : ∀ regex ∈ terminal.regex, regex.Made
  literal : terminal.isString = true → terminal.named = false → terminal.isExternal = false →
    terminal.regex = some (Regex.literal terminal.name)

theorem Terminal.sound_of_named {terminal : Terminal} (named : terminal.named = true)
    (made : ∀ regex ∈ terminal.regex, regex.Made) : terminal.Sound where
  made := made
  literal _ anonymous := nomatch named.symm.trans anonymous

namespace Preparation

/-! ## Moves -/

namespace Draft

inductive Moves (twice : String → Prop) : Draft → Draft → Prop
  | refl (draft : Draft) : Moves twice draft draft
  | trans {draft next last : Draft} (first : Moves twice draft next)
      (second : Moves twice next last) : Moves twice draft last
  | token {draft : Draft} {terminal : Terminal} (fresh : draft.byName.lookup terminal.name = none)
      (named : terminal.named = true) (sound : terminal.Sound) :
      Moves twice draft { draft with
        terminals := draft.terminals.push terminal
        byName := (terminal.name, .terminal draft.terminals.size) :: draft.byName }
  | rule {draft : Draft} {nonterminal : Nonterminal}
      (fresh : draft.byName.lookup nonterminal.name = none) :
      Moves twice draft { draft with
        nonterminals := draft.nonterminals.push nonterminal
        byName := (nonterminal.name, .nonterminal draft.nonterminals.size) :: draft.byName }
  | string {draft : Draft} {terminal : Terminal}
      (fresh : draft.strings.lookup terminal.name = none ∨ twice terminal.name)
      (anonymous : terminal.named = false) (sound : terminal.Sound) :
      Moves twice draft { draft with
        terminals := draft.terminals.push terminal
        strings := (terminal.name, draft.terminals.size) :: draft.strings }
  | hidden {draft : Draft} {terminal : Terminal} (hidden : terminal.visible = false)
      (sound : terminal.Sound) :
      Moves twice draft { draft with terminals := draft.terminals.push terminal }
  | helper {draft : Draft} {nonterminal : Nonterminal} (hidden : nonterminal.visible = false) :
      Moves twice draft { draft with nonterminals := draft.nonterminals.push nonterminal }
  | mark {draft : Draft} (index : Nat) :
      Moves twice draft { draft with
        terminals := draft.terminals.modify index fun terminal =>
          { terminal with isExternal := true } }
  | change {draft : Draft} (index : Nat) {f : Nonterminal → Nonterminal}
      (same : ∀ nonterminal, (f nonterminal).name = nonterminal.name)
      (shown : ∀ nonterminal, (f nonterminal).visible = true → nonterminal.visible = true) :
      Moves twice draft { draft with nonterminals := draft.nonterminals.modify index f }
  | note {draft next : Draft} (terminals : next.terminals = draft.terminals)
      (nonterminals : next.nonterminals = draft.nonterminals) (names : next.byName = draft.byName)
      (strings : next.strings = draft.strings) : Moves twice draft next

variable {twice : String → Prop} {draft next : Draft}

theorem Moves.terminals_le (moves : Moves twice draft next) :
    draft.terminals.size ≤ next.terminals.size := by
  induction moves with
  | refl => exact Nat.le_refl _
  | trans _ _ ih ih' => exact Nat.le_trans ih ih'
  | note terminals => exact Nat.le_of_eq (congrArg Array.size terminals.symm)
  | _ => simp

/-- Visible symbols are found by their names, but for strings of which there are several tokens. -/
structure Named (twice : String → Prop) (draft : Draft) : Prop where
  known : ∀ (name : String) (symbol : Sym), draft.byName.lookup name = some symbol →
    draft.Has symbol
  tokens : ∀ (i : Nat) (terminal : Terminal), draft.terminals[i]? = some terminal →
    terminal.visible = true → terminal.named = true →
      draft.byName.lookup terminal.name = some (.terminal i)
  rules : ∀ (i : Nat) (nonterminal : Nonterminal), draft.nonterminals[i]? = some nonterminal →
    nonterminal.visible = true → draft.byName.lookup nonterminal.name = some (.nonterminal i)
  strings : ∀ (i : Nat) (terminal : Terminal), draft.terminals[i]? = some terminal →
    terminal.visible = true → terminal.named = false →
      draft.strings.lookup terminal.name = some i ∨ twice terminal.name
  sound : ∀ (i : Nat) (terminal : Terminal), draft.terminals[i]? = some terminal → terminal.Sound

theorem named_empty (twice : String → Prop) : empty.Named twice where
  known name symbol found := by simp [empty] at found
  tokens i terminal found := by simp [empty] at found
  rules i nonterminal found := by simp [empty] at found
  strings i terminal found := by simp [empty] at found
  sound i terminal found := by simp [empty] at found

section Lookups

variable {κ α : Type} [BEq κ] [LawfulBEq κ] {entries : List (κ × α)} {name key : κ} {value new : α}

theorem lookup_cons_of_fresh (fresh : entries.lookup name = none)
    (found : entries.lookup key = some value) :
    ((name, new) :: entries).lookup key = some value := by
  have other : (key == name) = false := beq_false_of_ne fun same => by
    rw [same, fresh] at found
    contradiction
  rw [List.lookup_cons, other]
  exact found

theorem of_lookup_cons (found : ((name, new) :: entries).lookup key = some value) :
    key = name ∧ value = new ∨ entries.lookup key = some value := by
  rw [List.lookup_cons] at found
  split at found
  · next same => exact .inl ⟨eq_of_beq same, (Option.some.inj found).symm⟩
  · exact .inr found

end Lookups

section Pushes

variable {terminal : Terminal} {nonterminal : Nonterminal}

theorem extends_push_terminal :
    draft.Extends { draft with terminals := draft.terminals.push terminal } :=
  ⟨by simp, Nat.le_refl _⟩

theorem extends_push_nonterminal :
    draft.Extends { draft with nonterminals := draft.nonterminals.push nonterminal } :=
  ⟨Nat.le_refl _, by simp⟩

theorem Named.token (h : draft.Named twice) (fresh : draft.byName.lookup terminal.name = none)
    (named : terminal.named = true) (sound : terminal.Sound) :
    Named twice { draft with
      terminals := draft.terminals.push terminal
      byName := (terminal.name, .terminal draft.terminals.size) :: draft.byName } where
  known name symbol found := by
    rcases of_lookup_cons found with ⟨-, rfl⟩ | found
    · exact show draft.terminals.size < (draft.terminals.push terminal).size by simp
    · exact extends_push_terminal.has (h.known name symbol found)
  tokens := forall_getElem?_push
    (fun i t found visible named => lookup_cons_of_fresh fresh (h.tokens i t found visible named))
    (fun _ _ => List.lookup_cons_self)
  rules i n found visible := lookup_cons_of_fresh fresh (h.rules i n found visible)
  strings := forall_getElem?_push h.strings fun _ anonymous => by
    rw [named] at anonymous
    contradiction
  sound := forall_getElem?_push h.sound sound

theorem Named.rule (h : draft.Named twice)
    (fresh : draft.byName.lookup nonterminal.name = none) :
    Named twice { draft with
      nonterminals := draft.nonterminals.push nonterminal
      byName := (nonterminal.name, .nonterminal draft.nonterminals.size) :: draft.byName } where
  known name symbol found := by
    rcases of_lookup_cons found with ⟨-, rfl⟩ | found
    · exact show draft.nonterminals.size < (draft.nonterminals.push nonterminal).size by simp
    · exact extends_push_nonterminal.has (h.known name symbol found)
  tokens i t found visible named :=
    lookup_cons_of_fresh fresh (h.tokens i t found visible named)
  rules := forall_getElem?_push
    (fun i n found visible => lookup_cons_of_fresh fresh (h.rules i n found visible))
    (fun _ => List.lookup_cons_self)
  strings := h.strings
  sound := h.sound

theorem Named.string (h : draft.Named twice)
    (fresh : draft.strings.lookup terminal.name = none ∨ twice terminal.name)
    (anonymous : terminal.named = false) (sound : terminal.Sound) :
    Named twice { draft with
      terminals := draft.terminals.push terminal
      strings := (terminal.name, draft.terminals.size) :: draft.strings } where
  known name symbol found := extends_push_terminal.has (h.known name symbol found)
  tokens := forall_getElem?_push h.tokens fun _ named => by
    rw [anonymous] at named
    contradiction
  rules := h.rules
  strings := by
    refine forall_getElem?_push (fun i t found visible anonymous => ?_)
      fun _ _ => .inl List.lookup_cons_self
    rcases h.strings i t found visible anonymous with here | again
    · rcases fresh with free | again
      · exact .inl (lookup_cons_of_fresh free here)
      -- the older token of a repeated string is no longer found
      · by_cases same : t.name = terminal.name
        · exact .inr (same ▸ again)
        · rw [List.lookup_cons, beq_false_of_ne same]
          exact .inl here
    · exact .inr again
  sound := forall_getElem?_push h.sound sound

theorem Named.hidden (h : draft.Named twice) (hidden : terminal.visible = false)
    (sound : terminal.Sound) :
    Named twice { draft with terminals := draft.terminals.push terminal } where
  known name symbol found := extends_push_terminal.has (h.known name symbol found)
  tokens := forall_getElem?_push h.tokens fun visible => by
    rw [hidden] at visible
    contradiction
  rules := h.rules
  strings := forall_getElem?_push h.strings fun visible => by
    rw [hidden] at visible
    contradiction
  sound := forall_getElem?_push h.sound sound

theorem Named.helper (h : draft.Named twice) (hidden : nonterminal.visible = false) :
    Named twice { draft with nonterminals := draft.nonterminals.push nonterminal } where
  known name symbol found := extends_push_nonterminal.has (h.known name symbol found)
  tokens := h.tokens
  rules := forall_getElem?_push h.rules fun visible => by
    rw [hidden] at visible
    contradiction
  strings := h.strings
  sound := h.sound

end Pushes

theorem Named.mark (h : draft.Named twice) (index : Nat) :
    Named twice { draft with
      terminals := draft.terminals.modify index fun terminal =>
        { terminal with isExternal := true } } where
  known name symbol found := by
    have there := h.known name symbol found
    cases symbol <;> simpa [Draft.Has] using there
  tokens := forall_getElem?_modify h.tokens fun _ _ known => known
  rules := h.rules
  strings := forall_getElem?_modify h.strings fun _ _ known => known
  sound := forall_getElem?_modify h.sound fun _ _ known => ⟨known.made, fun _ _ => nofun⟩

theorem Named.change (h : draft.Named twice) (index : Nat) {f : Nonterminal → Nonterminal}
    (same : ∀ nonterminal, (f nonterminal).name = nonterminal.name)
    (shown : ∀ nonterminal, (f nonterminal).visible = true → nonterminal.visible = true) :
    Named twice { draft with nonterminals := draft.nonterminals.modify index f } where
  known name symbol found := by
    have there := h.known name symbol found
    cases symbol <;> simpa [Draft.Has] using there
  tokens := h.tokens
  rules := forall_getElem?_modify h.rules fun i n known visible => by
    rw [same]
    exact known (shown n visible)
  strings := h.strings
  sound := h.sound

theorem Moves.named (moves : Moves twice draft next) (h : draft.Named twice) :
    next.Named twice := by
  induction moves with
  | refl => exact h
  | trans _ _ ih ih' => exact ih' (ih h)
  | token fresh named sound => exact h.token fresh named sound
  | rule fresh => exact h.rule fresh
  | string fresh anonymous sound => exact h.string fresh anonymous sound
  | hidden hidden sound => exact h.hidden hidden sound
  | helper hidden => exact h.helper hidden
  | mark index => exact h.mark index
  | change index same shown => exact h.change index same shown
  | note terminals nonterminals names strings =>
    constructor
    · intro name symbol found
      have there := h.known name symbol (names ▸ found)
      cases symbol with
      | terminal index => exact Nat.lt_of_lt_of_eq there (congrArg Array.size terminals.symm)
      | nonterminal index => exact Nat.lt_of_lt_of_eq there (congrArg Array.size nonterminals.symm)
    · rw [terminals, names]
      exact h.tokens
    · rw [nonterminals, names]
      exact h.rules
    · rw [terminals, strings]
      exact h.strings
    · rw [terminals]
      exact h.sound

end Draft

open Draft

variable {twice : String → Prop} {draft next : Draft}

theorem run_symbolOf? {name : String} {found : Option Sym}
    (h : symbolOf? name draft = .ok (found, next)) :
    draft = next ∧ draft.byName.lookup name = found := by
  cases h
  exact ⟨rfl, rfl⟩

/-! ## Declarations -/

theorem declareRule_moves {name : String} {rule : Rule} {u : Unit}
    (h : declareRule name rule draft = .ok (u, next)) :
    Moves twice draft next ∧ next.strings = draft.strings := by
  unfold declareRule at h
  obtain ⟨found, _, ran, h⟩ := run_bind h
  cases ran
  dsimp only at h
  split at h
  · obtain ⟨_, _, ran, _⟩ := run_bind h
    contradiction
  next free =>
  have fresh : draft.byName.lookup name = none := Option.not_isSome_iff_eq_none.1 free
  split at h
  · obtain ⟨regex, _, ran, h⟩ := run_bind h
    obtain ⟨read, rfl⟩ := run_lift ran
    obtain ⟨terminal, _, pushed, h⟩ := run_bind h
    cases pushed
    cases h
    refine ⟨.token fresh rfl (Terminal.sound_of_named rfl fun other member => ?_), rfl⟩
    cases member
    exact rule.made_toRegex read
  · obtain ⟨nonterminal, _, pushed, h⟩ := run_bind h
    cases pushed
    cases h
    exact ⟨.rule fresh, rfl⟩

theorem declareLevel_moves {entry : PrecedenceEntry} {u : Unit}
    (h : declareLevel entry draft = .ok (u, next)) :
    Moves twice draft next ∧ next.strings = draft.strings := by
  cases entry with
  | name level =>
    cases h
    exact ⟨.note rfl rfl rfl rfl, rfl⟩
  | symbol rule =>
    obtain ⟨found, _, ran, h⟩ := run_bind h
    cases ran
    dsimp only at h
    split at h
    · obtain ⟨_, _, ran, _⟩ := run_bind h
      contradiction
    · cases h
      exact ⟨.note rfl rfl rfl rfl, rfl⟩

theorem declareExternal_moves {rule : Rule} {index : Nat} (named : draft.Named twice)
    (again : ∀ text, rule = .string text → (draft.strings.lookup text).isSome = true → twice text)
    (h : declareExternal rule draft = .ok (index, next)) :
    Moves twice draft next ∧ index < next.terminals.size ∧
      ∀ text, (next.strings.lookup text).isSome = true →
        (draft.strings.lookup text).isSome = true ∨ rule = .string text := by
  unfold declareExternal at h
  obtain ⟨⟨name, visible, isNamed⟩, _, ran, h⟩ := run_bind h
  obtain ⟨answer, rfl⟩ := run_lift ran
  obtain ⟨found, _, ran, h⟩ := run_bind h
  obtain ⟨rfl, there⟩ := run_symbolOf? ran
  dsimp only at h
  split at h
  · contradiction
  · cases h
    have inside := named.known name _ there
    exact ⟨.mark _, by simpa [Draft.Has] using inside, fun _ => .inl⟩
  · obtain ⟨terminal, _, pushed, h⟩ := run_bind h
    cases pushed
    split at h
    · next isTrue =>
      obtain ⟨_, _, ran, done⟩ := run_bind h
      cases ran
      cases done
      exact ⟨.token there isTrue (Terminal.sound_of_named isTrue (by simp)), by simp, fun _ => .inl⟩
    · next notNamed =>
      obtain ⟨_, _, ran, done⟩ := run_bind h
      cases ran
      cases done
      -- a token that is not named is a string
      have isString : rule = .string name := by
        unfold externalName at answer
        split at answer
        · cases answer
          exact absurd rfl notNamed
        · cases answer
          rfl
        · contradiction
      refine ⟨.string ?_ (by simpa using notNamed) ⟨by simp, fun _ _ => nofun⟩, by simp,
        fun text there => ?_⟩
      · cases known : draft.strings.lookup name with
        | none => exact .inl rfl
        | some _ => exact .inr (again name isString (by simp [known]))
      · rw [List.lookup_cons] at there
        split at there
        · next same =>
          rw [eq_of_beq same]
          exact .inr isString
        · exact .inl there

theorem declareExtra_moves {rule : Rule} {inline index : Nat} (named : draft.Named twice)
    (h : declareExtra rule inline draft = .ok (index, next)) :
    Moves twice draft next ∧ index < next.terminals.size := by
  unfold declareExtra at h
  split at h
  · obtain ⟨found, _, ran, h⟩ := run_bind h
    obtain ⟨rfl, there⟩ := run_symbolOf? ran
    split at h
    · cases h
      exact ⟨.refl _, named.known _ _ there⟩
    · contradiction
    · contradiction
  · split at h
    · obtain ⟨regex, _, ran, h⟩ := run_bind h
      obtain ⟨read, rfl⟩ := run_lift ran
      cases h
      refine ⟨.hidden rfl (Terminal.sound_of_named rfl fun other member => ?_), by simp⟩
      cases member
      exact Rule.made_toRegex _ read
    · contradiction

theorem declareExtras_moves {rules : List Rule} {inline : Nat} {extras : List Nat}
    (named : draft.Named twice) (h : declareExtras rules inline draft = .ok (extras, next)) :
    Moves twice draft next ∧ ∀ index ∈ extras, index < next.terminals.size := by
  induction rules generalizing draft inline extras with
  | nil =>
    cases h
    exact ⟨.refl _, by simp⟩
  | cons rule rules ih =>
    obtain ⟨extra, _, ran, h⟩ := run_bind h
    obtain ⟨others, _, ran', done⟩ := run_bind h
    cases done
    obtain ⟨first, inside⟩ := declareExtra_moves named ran
    obtain ⟨second, all⟩ := ih (first.named named) ran'
    exact ⟨first.trans second,
      List.forall_mem_cons.2 ⟨Nat.lt_of_lt_of_le inside second.terminals_le, all⟩⟩

theorem declareExternals_moves {grammar : Grammar} {rules done : List Rule} {indices : List Nat}
    (whole : done ++ rules = grammar.externals) (named : draft.Named grammar.Redeclares)
    (seen : ∀ text, (draft.strings.lookup text).isSome = true → .string text ∈ done)
    (h : rules.mapM declareExternal draft = .ok (indices, next)) :
    Moves grammar.Redeclares draft next ∧ ∀ index ∈ indices, index < next.terminals.size := by
  induction rules generalizing draft done indices with
  | nil =>
    cases h
    exact ⟨.refl _, by simp⟩
  | cons rule rules ih =>
    rw [List.mapM_cons] at h
    obtain ⟨index, middle, ran, h⟩ := run_bind h
    obtain ⟨others, _, ran', finished⟩ := run_bind h
    cases finished
    have again : ∀ text, rule = .string text →
        (draft.strings.lookup text).isSome = true → grammar.Redeclares text := by
      rintro text rfl there
      obtain ⟨before, after, rfl⟩ := List.append_of_mem (seen text there)
      rw [Grammar.Redeclares, Grammar.externalStrings, ← whole]
      simp [List.count_append, List.filterMap_append]
      omega
    obtain ⟨first, inside, strings⟩ := declareExternal_moves named again ran
    have whole : (done ++ [rule]) ++ rules = grammar.externals := by simpa using whole
    have seen : ∀ text, (middle.strings.lookup text).isSome = true →
        .string text ∈ done ++ [rule] := by
      intro text there
      rw [List.mem_append, List.mem_singleton]
      exact (strings text there).imp (seen text) Eq.symm
    obtain ⟨second, all⟩ := ih whole (first.named named) seen ran'
    exact ⟨first.trans second,
      List.forall_mem_cons.2 ⟨Nat.lt_of_lt_of_le inside second.terminals_le, all⟩⟩

theorem wordTerminal_lt {name : String} {index : Nat} (named : draft.Named twice)
    (h : wordTerminal name draft = .ok (index, next)) : index < draft.terminals.size := by
  unfold wordTerminal at h
  obtain ⟨_, _, ran, h⟩ := run_bind h
  obtain ⟨rfl, rfl⟩ := run_get ran
  cases there : draft.byName.lookup name with
  | none =>
    rw [there] at h
    contradiction
  | some symbol =>
    rw [there] at h
    cases symbol with
    | nonterminal _ => contradiction
    | terminal terminal =>
      dsimp only at h
      split at h
      · cases h
        exact named.known name _ there
      · contradiction

theorem declareSupertype_moves {name : String} {u : Unit}
    (h : declareSupertype name draft = .ok (u, next)) : Moves twice draft next := by
  obtain ⟨found, _, ran, h⟩ := run_bind h
  obtain ⟨rfl, _⟩ := run_symbolOf? ran
  split at h
  · cases h
    exact .change _ (fun _ => rfl) (fun _ shown => absurd shown (by simp))
  · contradiction

/-! ## Flattening -/

theorem internString_moves {text : String} {terminal : Nat}
    (h : internString text draft = .ok (terminal, next)) : Moves twice draft next := by
  obtain ⟨found, _, ran, h⟩ := run_bind h
  obtain ⟨rfl, rfl⟩ := run_get ran
  cases there : draft.strings.lookup text with
  | some known =>
    rw [there] at h
    cases h
    exact .refl _
  | none =>
    rw [there] at h
    obtain ⟨pushed, _, ran, h⟩ := run_bind h
    cases ran
    obtain ⟨_, _, ran, done⟩ := run_bind h
    cases ran
    cases done
    refine .string (.inl there) rfl ⟨fun regex member => ?_, fun _ _ _ => rfl⟩
    cases member
    exact Regex.made_literal text

theorem internToken_moves {owner : String} {rule : Rule} {terminal : Nat}
    (h : internToken owner rule draft = .ok (terminal, next)) : Moves twice draft next := by
  obtain ⟨found, _, ran, h⟩ := run_bind h
  obtain ⟨rfl, rfl⟩ := run_get ran
  generalize draft.tokens.lookup rule.tokenBody = interned at h
  split at h
  · cases h
    exact .refl _
  · obtain ⟨regex, _, ran, h⟩ := run_bind h
    obtain ⟨read, rfl⟩ := run_lift ran
    obtain ⟨pushed, _, ran, h⟩ := run_bind h
    cases ran
    obtain ⟨_, _, ran, done⟩ := run_bind h
    cases ran
    cases done
    refine .trans (.hidden rfl (Terminal.sound_of_named rfl fun other member => ?_))
      (.note rfl rfl rfl rfl)
    cases member
    exact Rule.made_toRegex _ read

theorem setProductions_moves {index : Nat} {productions : List FlatProduction} {u : Unit}
    (h : setProductions index productions draft = .ok (u, next)) : Moves twice draft next := by
  cases h
  exact .change _ (fun _ => rfl) (fun _ shown => shown)

structure KeptByFlattening (p : Draft → Prop) : Prop where
  string : ∀ {draft next : Draft} {text : String} {terminal : Nat}, p draft →
    internString text draft = .ok (terminal, next) → p next
  token : ∀ {draft next : Draft} {owner : String} {rule : Rule} {terminal : Nat}, p draft →
    internToken owner rule draft = .ok (terminal, next) → p next
  helper : ∀ {draft next : Draft} {nonterminal : Nonterminal} {index : Nat}, p draft →
    nonterminal.visible = false → pushNonterminal nonterminal draft = .ok (index, next) → p next
  note : ∀ {draft : Draft} (body : Rule × StepContext) (helper : Nat), p draft →
    p { draft with repeats := (body, helper) :: draft.repeats }
  fill : ∀ {draft next : Draft} {index : Nat} {productions : List FlatProduction} {u : Unit},
    p draft → setProductions index productions draft = .ok (u, next) → p next

section Flattening

variable {p : Draft → Prop} {owner : String}

mutual

theorem KeptByFlattening.flatten (keeps : KeptByFlattening p) {context : StepContext}
    {productions : List FlatProduction} {draft next : Draft} (start : p draft) (rule : Rule)
    (h : flatten owner context rule draft = .ok (productions, next)) : p next := by
  match rule with
  | .blank =>
    rw [Preparation.flatten] at h
    cases h
    exact start
  | .string text =>
    rw [Preparation.flatten] at h
    obtain ⟨terminal, _, ran, h⟩ := run_bind h
    cases h
    exact keeps.string start ran
  | .pattern source =>
    rw [Preparation.flatten] at h
    obtain ⟨terminal, _, ran, h⟩ := run_bind h
    cases h
    exact keeps.token start ran
  | .symbol name =>
    rw [Preparation.flatten] at h
    obtain ⟨found, _, ran, h⟩ := run_bind h
    obtain ⟨rfl, _⟩ := run_symbolOf? ran
    split at h
    · cases h
      exact start
    · contradiction
  | .seq rules =>
    rw [Preparation.flatten] at h
    exact keeps.flattenSeq start rules h
  | .choice rules =>
    rw [Preparation.flatten] at h
    exact keeps.flattenChoice start rules h
  | .repeat1 inner =>
    rw [Preparation.flatten] at h
    obtain ⟨found, _, ran, h⟩ := run_bind h
    obtain ⟨rfl, rfl⟩ := run_get ran
    generalize draft.repeats.lookup (inner, context) = known at h
    dsimp only at h
    split at h
    · cases h
      exact start
    · obtain ⟨helper, pushed, ran, h⟩ := run_bind h
      have pushed : p pushed := keeps.helper start rfl ran
      obtain ⟨_, noted, ran, h⟩ := run_bind h
      have noted : p noted := by
        cases ran
        exact keeps.note _ _ pushed
      obtain ⟨body, inside, ran, h⟩ := run_bind h
      have inside : p inside := keeps.flatten noted inner ran
      obtain ⟨_, filled, ran, h⟩ := run_bind h
      have filled : p filled := keeps.fill inside ran
      cases h
      exact filled
  | .withMetadata metadata inner =>
    rw [Preparation.flatten] at h
    split at h
    · obtain ⟨terminal, _, ran, h⟩ := run_bind h
      cases h
      exact keeps.token start ran
    · have rest : ∀ {last : Draft}, (do
          let alternatives ← Preparation.flatten owner (context.apply metadata) inner
          return alternatives.map fun production =>
            { production with
              dynamicPrecedence := FlatProduction.stronger production.dynamicPrecedence
                metadata.dynamicPrecedence } : M (List FlatProduction)) draft
            = .ok (productions, last) → p last := by
        intro last h
        obtain ⟨alternatives, _, ran, h⟩ := run_bind h
        cases h
        exact keeps.flatten start inner ran
      dsimp only at h
      generalize metadata.precedence = precedence at h
      split at h
      · obtain ⟨_, _, ran, h⟩ := run_bind h
        obtain ⟨rfl, rfl⟩ := run_get ran
        split at h
        · obtain ⟨_, _, ran, _⟩ := run_bind h
          contradiction
        · exact rest h
      · exact rest h

theorem KeptByFlattening.flattenSeq (keeps : KeptByFlattening p) {context : StepContext}
    {heads productions : List FlatProduction} {draft next : Draft} (start : p draft)
    (rules : List Rule)
    (h : flattenSeq owner context heads rules draft = .ok (productions, next)) : p next := by
  match rules with
  | [] =>
    rw [Preparation.flattenSeq] at h
    cases h
    exact start
  | rule :: rules =>
    rw [Preparation.flattenSeq] at h
    obtain ⟨tails, _, ran, h⟩ := run_bind h
    exact keeps.flattenSeq (keeps.flatten start rule ran) rules h

theorem KeptByFlattening.flattenChoice (keeps : KeptByFlattening p) {context : StepContext}
    {productions : List FlatProduction} {draft next : Draft} (start : p draft)
    (rules : List Rule)
    (h : flattenChoice owner context rules draft = .ok (productions, next)) : p next := by
  match rules with
  | [] =>
    rw [Preparation.flattenChoice] at h
    cases h
    exact start
  | rule :: rules =>
    rw [Preparation.flattenChoice] at h
    obtain ⟨own, _, ran, h⟩ := run_bind h
    obtain ⟨others, _, ran', h⟩ := run_bind h
    cases h
    exact keeps.flattenChoice (keeps.flatten start rule ran) rules ran'

end

theorem KeptByFlattening.flattenRule (keeps : KeptByFlattening p) {name : String} {rule : Rule}
    {u : Unit} (start : p draft) (h : flattenRule name rule draft = .ok (u, next)) : p next := by
  obtain ⟨found, _, ran, h⟩ := run_bind h
  obtain ⟨rfl, _⟩ := run_symbolOf? ran
  split at h
  · obtain ⟨_, _, ran, h⟩ := run_bind h
    obtain ⟨rfl, rfl⟩ := run_get ran
    obtain ⟨productions, _, ran, h⟩ := run_bind h
    exact keeps.fill (keeps.flatten start rule ran) h
  · cases h
    exact start

end Flattening

theorem keptByFlattening_moves (first : Draft) : KeptByFlattening (Moves twice first) where
  string moves ran := moves.trans (internString_moves ran)
  token moves ran := moves.trans (internToken_moves ran)
  helper moves hidden ran := by
    cases ran
    exact moves.trans (.helper hidden)
  note _ _ moves := moves.trans (.note rfl rfl rfl rfl)
  fill moves ran := moves.trans (setProductions_moves ran)

/-! ## The whole grammar -/

theorem prepareWith_named {grammar : Grammar} {start : String} {prepared : PreparedGrammar}
    (h : prepareWith grammar start Draft.empty = .ok (prepared, next)) :
    next.Named grammar.Redeclares ∧ prepared.terminals = next.terminals ∧
      prepared.nonterminals = next.nonterminals ∧
      (∀ index ∈ prepared.externals, index < next.terminals.size) ∧
      (∀ index ∈ prepared.extras, index < next.terminals.size) ∧
      ∀ index ∈ prepared.word, index < next.terminals.size := by
  unfold prepareWith at h
  obtain ⟨_, _, ran, h⟩ := run_bind h
  have first := run_each
    (p := fun draft => Moves grammar.Redeclares Draft.empty draft ∧ draft.strings = [])
    (fun entry _ draft u next known ran => by
      obtain ⟨moves, same⟩ := declareRule_moves ran
      exact ⟨known.1.trans moves, same.trans known.2⟩) ⟨.refl _, rfl⟩ ran
  obtain ⟨_, _, ran, h⟩ := run_bind h
  obtain ⟨first, strings⟩ := run_each
    (p := fun draft => Moves grammar.Redeclares Draft.empty draft ∧ draft.strings = [])
    (fun entries _ draft u next known ran => run_each
      (p := fun draft => Moves grammar.Redeclares Draft.empty draft ∧ draft.strings = [])
      (fun entry _ draft u next known ran => by
        obtain ⟨moves, same⟩ := declareLevel_moves ran
        exact ⟨known.1.trans moves, same.trans known.2⟩) known ran) first ran
  have named := first.named (named_empty _)
  obtain ⟨externals, _, ran, h⟩ := run_bind h
  obtain ⟨second, externalsInside⟩ := declareExternals_moves (List.nil_append _) named
    (by simp [strings]) ran
  have named := second.named named
  obtain ⟨extras, middle, ran, h⟩ := run_bind h
  obtain ⟨third, extrasInside⟩ := declareExtras_moves named ran
  have named := third.named named
  obtain ⟨word, _, ran, h⟩ := run_bind h
  obtain ⟨same, words⟩ := run_word ran
  rw [← same] at h
  have wordInside : ∀ index ∈ word, index < middle.terminals.size := by
    intro index member
    obtain ⟨name, found⟩ := words index member
    exact wordTerminal_lt named found
  obtain ⟨_, _, ran, h⟩ := run_bind h
  have last := run_each (p := Moves grammar.Redeclares middle)
    (fun name _ draft u next known ran => known.trans (declareSupertype_moves ran))
    (Moves.refl middle) ran
  obtain ⟨_, _, ran, h⟩ := run_bind h
  have last := run_each (p := Moves grammar.Redeclares middle)
    (fun entry _ draft u next known ran =>
      (keptByFlattening_moves middle).flattenRule known ran) last ran
  obtain ⟨_, _, ran, h⟩ := run_bind h
  obtain ⟨rfl, rfl⟩ := run_get ran
  dsimp only at h
  split at h
  · obtain ⟨_, _, ran, _⟩ := run_bind h
    contradiction
  · cases h
    have later := (third.trans last).terminals_le
    exact ⟨last.named named, rfl, rfl,
      fun index member => Nat.lt_of_lt_of_le (externalsInside index member) later,
      fun index member => Nat.lt_of_lt_of_le (extrasInside index member) last.terminals_le,
      fun index member => Nat.lt_of_lt_of_le (wordInside index member) last.terminals_le⟩

end Preparation

/-! ## Prepared grammars -/

structure PreparedGrammar.Named (grammar : PreparedGrammar) (twice : String → Prop) : Prop where
  tokens : ∀ (i j : Nat) (a b : Terminal), grammar.terminals[i]? = some a →
    grammar.terminals[j]? = some b → a.visible = true → b.visible = true → a.name = b.name →
      a.named = b.named → i = j ∨ a.named = false ∧ twice a.name
  rules : ∀ (i j : Nat) (a b : Nonterminal), grammar.nonterminals[i]? = some a →
    grammar.nonterminals[j]? = some b → a.visible = true → b.visible = true → a.name = b.name →
      i = j
  apart : ∀ (i j : Nat) (a : Terminal) (b : Nonterminal), grammar.terminals[i]? = some a →
    grammar.nonterminals[j]? = some b → a.visible = true → b.visible = true → a.named = true →
      a.name ≠ b.name
  sound : ∀ (i : Nat) (terminal : Terminal), grammar.terminals[i]? = some terminal → terminal.Sound
  externals : ∀ index ∈ grammar.externals, index < grammar.terminals.size
  extras : ∀ index ∈ grammar.extras, index < grammar.terminals.size
  word : ∀ index ∈ grammar.word, index < grammar.terminals.size

theorem Grammar.prepare_named {grammar : Grammar} {prepared : PreparedGrammar}
    (h : grammar.prepare = .ok prepared) : prepared.Named grammar.Redeclares := by
  obtain ⟨start, next, ran⟩ := Grammar.exists_prepareWith h
  obtain ⟨named, terminals, nonterminals, externals, extras, word⟩ :=
    Preparation.prepareWith_named ran
  rw [← terminals] at externals extras word
  refine ⟨?_, ?_, ?_, terminals ▸ named.sound, externals, extras, word⟩
  · rw [terminals]
    intro i j a b atI atJ shownA shownB sameName sameKind
    cases kind : a.named with
    | true =>
      have first := named.tokens i a atI shownA kind
      rw [sameName, named.tokens j b atJ shownB (sameKind ▸ kind)] at first
      cases first
      exact .inl rfl
    | false =>
      rcases named.strings i a atI shownA kind with first | again
      · rcases named.strings j b atJ shownB (sameKind ▸ kind) with second | again
        · rw [sameName, second] at first
          cases first
          exact .inl rfl
        · exact .inr ⟨rfl, sameName ▸ again⟩
      · exact .inr ⟨rfl, again⟩
  · rw [nonterminals]
    intro i j a b atI atJ shownA shownB sameName
    have first := named.rules i a atI shownA
    rw [sameName, named.rules j b atJ shownB] at first
    cases first
    rfl
  · rw [terminals, nonterminals]
    intro i j a b atI atJ shownA shownB kind sameName
    have first := named.tokens i a atI shownA kind
    rw [sameName, named.rules j b atJ shownB] at first
    cases first

end IncrementalGlr
