import IncrementalGlr.Language

/-!
# What a checked table promises

The facts that a parser relies on, read off `Table.check`: only the end of input is accepted, and
the end of input is never a token, a keyword or a rule.
-/

namespace IncrementalGlr

section Checks

variable {ε α β : Type}

theorem bind_ok {x : Except ε α} {f : α → Except ε β} {b : β} (h : (x >>= f) = .ok b) :
    ∃ a, x = .ok a ∧ f a = .ok b := by
  cases x with
  | error cause => contradiction
  | ok a => exact ⟨a, rfl, h⟩

theorem ok_of_toOption {x : Except ε α} {a : α} (h : x.toOption = some a) : x = .ok a := by
  cases x with
  | error cause => contradiction
  | ok other =>
    cases h
    rfl

theorem foldlM_keeps {xs : List α} {f : β → α → Except ε β} {first last : β} {p : β → Prop}
    (keeps : ∀ b, ∀ x ∈ xs, ∀ next, p b → f b x = .ok next → p next) (start : p first)
    (h : xs.foldlM f first = .ok last) : p last := by
  induction xs generalizing first with
  | nil =>
    cases h
    exact start
  | cons x xs ih =>
    rw [List.foldlM_cons] at h
    obtain ⟨next, ran, h⟩ := bind_ok h
    exact ih (fun b y member => keeps b y (.tail _ member))
      (keeps first x (.head _) next start ran) h

theorem ensure_ok {condition : Bool} {cause : Inconsistency} {u : Unit}
    (h : ensure condition cause = .ok u) : condition = true := by
  unfold ensure at h
  split at h
  · assumption
  · contradiction

theorem each_ok {xs : List α} (check : α → Except ε Unit) {u : Unit}
    (h : (forIn xs () fun x _ => do
      check x
      pure (ForInStep.yield ())) = .ok u) :
    ∀ x ∈ xs, check x = .ok () := by
  induction xs with
  | nil =>
    intro x member
    contradiction
  | cons first xs ih =>
    rw [List.forIn_cons] at h
    obtain ⟨outcome, ran, rest⟩ := bind_ok h
    obtain ⟨_, passed, yielded⟩ := bind_ok ran
    cases yielded
    intro x member
    rcases List.mem_cons.1 member with rfl | member
    · exact passed
    · exact ih rest x member

theorem bind_of_ok {x : Except ε α} {f : α → Except ε β} {a : α} {result : Except ε β}
    (h : x = .ok a) (rest : f a = result) : (x >>= f) = result := by
  rw [h]
  exact rest

theorem ensure_of {condition : Bool} {cause : Inconsistency} (h : condition = true) :
    ensure condition cause = .ok () :=
  if_pos h

theorem loop_of {xs : List α} {body : α → Unit → Except ε (ForInStep Unit)}
    (h : ∀ x ∈ xs, body x () = .ok (.yield ())) : forIn xs () body = .ok () := by
  induction xs with
  | nil => rfl
  | cons x xs ih =>
    rw [List.forall_mem_cons] at h
    rw [List.forIn_cons, h.1]
    exact ih h.2

end Checks

structure Table.Consistent (table : Table) : Prop where
  terminals : 1 ≤ table.terminalCount.toNat
  symbols : table.terminalCount.toNat + table.ruleCount.toNat < 0xFFFF
  start : table.isRule table.startSymbol = true
  externals : ∀ symbol ∈ table.externalTokens, table.isToken symbol
  keywords : ∀ keyword ∈ table.keywords, table.isToken keyword.symbol
  firstList : table.actionLists[0]? = some []
  accepts : ∀ cell list, table.actionIndex[cell]? = some list →
    cell % table.terminalCount.toNat = 0 ∨
      ∀ action ∈ table.actionLists.getD list.toNat [], action.isAccept = false
  lexed : ∀ state ∈ table.lexStates, ∀ symbol ∈ state.accepts, table.isToken symbol

namespace Table

variable {table : Table}

theorem checkSymbols_ok (h : table.checkSymbols = .ok ()) :
    1 ≤ table.terminalCount.toNat ∧
      table.terminalCount.toNat + table.ruleCount.toNat < 0xFFFF ∧
      table.isRule table.startSymbol = true ∧
      (∀ symbol ∈ table.externalTokens, table.isToken symbol) ∧
      ∀ keyword ∈ table.keywords, table.isToken keyword.symbol := by
  unfold checkSymbols at h
  obtain ⟨_, terminals, h⟩ := bind_ok h
  obtain ⟨_, _, h⟩ := bind_ok h
  obtain ⟨_, counted, h⟩ := bind_ok h
  obtain ⟨_, few, h⟩ := bind_ok h
  obtain ⟨_, start, h⟩ := bind_ok h
  dsimp only at h
  split at h
  · contradiction
  · split at h
    · contradiction
    · obtain ⟨_, _, h⟩ := bind_ok h
      obtain ⟨_, externals, h⟩ := bind_ok h
      obtain ⟨_, _, h⟩ := bind_ok h
      obtain ⟨_, keywords, _⟩ := bind_ok h
      have all := of_decide_eq_true (ensure_ok counted)
      have bound := of_decide_eq_true (ensure_ok few)
      refine ⟨of_decide_eq_true (ensure_ok terminals), Nat.lt_of_le_of_lt all bound,
        ensure_ok start, ?_, ?_⟩
      · intro symbol member
        rw [← Array.forIn_toList] at externals
        exact ensure_ok (each_ok _ externals symbol (Array.mem_toList_iff.2 member))
      · intro keyword member
        exact ensure_ok (each_ok _ keywords keyword member)

theorem size_symbols_of_check (h : table.check = .ok ()) :
    table.symbols.size < 0xFFFF := by
  unfold check at h
  obtain ⟨_, symbols, _⟩ := bind_ok h
  unfold checkSymbols at symbols
  obtain ⟨_, _, symbols⟩ := bind_ok symbols
  obtain ⟨_, _, symbols⟩ := bind_ok symbols
  obtain ⟨_, _, symbols⟩ := bind_ok symbols
  obtain ⟨_, few, _⟩ := bind_ok symbols
  exact of_decide_eq_true (ensure_ok few)

theorem checkParseTable_ok (h : table.checkParseTable = .ok ()) :
    table.actionLists[0]? = some [] ∧
      ∀ cell list, table.actionIndex[cell]? = some list →
        cell % table.terminalCount.toNat = 0 ∨
          ∀ action ∈ table.actionLists.getD list.toNat [], action.isAccept = false := by
  unfold checkParseTable at h
  obtain ⟨_, _, h⟩ := bind_ok h
  obtain ⟨_, _, h⟩ := bind_ok h
  obtain ⟨_, _, h⟩ := bind_ok h
  obtain ⟨_, _, h⟩ := bind_ok h
  obtain ⟨_, _, h⟩ := bind_ok h
  obtain ⟨_, first, h⟩ := bind_ok h
  obtain ⟨_, cells, _⟩ := bind_ok h
  refine ⟨by simpa using ensure_ok first, ?_⟩
  intro cell list found
  have member : (list, cell) ∈ table.actionIndex.toList.zipIdx := by
    simpa [List.mem_zipIdx_iff_getElem?] using found
  obtain ⟨_, _, placed⟩ := bind_ok (each_ok
    (fun (x : UInt16 × Nat) => do
      ensure (x.1.toNat < table.actionLists.size)
        (.missingActionList (x.2 / table.terminalCount.toNat) (x.2 % table.terminalCount.toNat)
          x.1.toNat)
      ensure (x.2 % table.terminalCount.toNat == 0
          || !(table.actionLists.getD x.1.toNat []).any (·.isAccept))
        (.misplacedAccept (x.2 / table.terminalCount.toNat)))
    (by simpa only [bind_assoc] using cells) _ member)
  simpa using ensure_ok placed

theorem checkLexTable_ok (h : table.checkLexTable = .ok ()) :
    ∀ state ∈ table.lexStates, ∀ symbol ∈ state.accepts, table.isToken symbol := by
  unfold checkLexTable at h
  obtain ⟨_, _, h⟩ := bind_ok h
  obtain ⟨_, states, _⟩ := bind_ok h
  intro state member symbol accepted
  obtain ⟨id, found⟩ := Array.getElem?_of_mem member
  have numbered : (state, id) ∈ table.lexStates.toList.zipIdx := by
    simpa [List.mem_zipIdx_iff_getElem?] using found
  obtain ⟨_, _, symbols⟩ := bind_ok (each_ok
    (fun (x : LexState × Nat) => do
      table.checkTransitions x.2 x.1.transitions.toList none
      for symbol in x.1.accepts do
        ensure (table.isToken symbol) (.lexAccept x.2 symbol))
    (by simpa only [bind_assoc, pure_bind] using states) _ numbered)
  obtain ⟨_, symbols, _⟩ := bind_ok symbols
  exact ensure_ok (each_ok _ symbols symbol accepted)

theorem consistent_of_check (h : table.check = .ok ()) : table.Consistent := by
  unfold check at h
  obtain ⟨_, symbols, h⟩ := bind_ok h
  obtain ⟨_, _, h⟩ := bind_ok h
  obtain ⟨_, parse, lex⟩ := bind_ok h
  obtain ⟨terminals, few, start, externals, keywords⟩ := checkSymbols_ok symbols
  obtain ⟨firstList, accepts⟩ := checkParseTable_ok parse
  exact ⟨terminals, few, start, externals, keywords, firstList, accepts, checkLexTable_ok lex⟩

namespace Consistent

theorem isTerminal_end (h : table.Consistent) : table.isTerminal SymbolId.endOfInput = true :=
  decide_eq_true (Nat.lt_of_lt_of_le Nat.zero_lt_one h.terminals)

theorem isRule_error (h : table.Consistent) : table.isRule SymbolId.error = false := by
  have outside : ¬ SymbolId.error.index < table.terminalCount.toNat + table.ruleCount.toNat :=
    Nat.not_lt.2 (Nat.le_of_lt h.symbols)
  simp [isRule, outside]

theorem ne_error_of_isRule (h : table.Consistent) {symbol : SymbolId}
    (rule : table.isRule symbol = true) : symbol ≠ SymbolId.error := by
  rintro rfl
  rw [h.isRule_error] at rule
  contradiction

theorem ne_end_of_goto? (h : table.Consistent) {state next : StateId} {symbol : SymbolId}
    (found : table.goto? state symbol = some next) : symbol ≠ SymbolId.endOfInput := by
  rintro rfl
  simp [goto?, isRule, h.isTerminal_end] at found

theorem eq_end_of_accept (h : table.Consistent) {state : StateId} {symbol : SymbolId}
    {action : Action} (member : action ∈ table.actions state symbol)
    (accepts : action.isAccept = true) : symbol = SymbolId.endOfInput := by
  unfold actions at member
  split at member
  · next inside =>
      have column : symbol.index < table.terminalCount.toNat := by
        simpa [isTerminal] using (Bool.and_eq_true_iff.1 inside).1
      cases found : table.actionIndex[state.index * table.terminalCount.toNat + symbol.index]? with
      | none =>
          simp [Array.getD_eq_getD_getElem?, found, h.firstList] at member
      | some list =>
          simp only [Array.getD_eq_getD_getElem?, found, Option.getD_some] at member
          rcases h.accepts _ list found with first | rejecting
          · rw [Nat.mul_comm, Nat.mul_add_mod, Nat.mod_eq_of_lt column] at first
            have word : symbol.val = 0 := UInt16.toNat_inj.1 first
            cases symbol
            exact congrArg SymbolId.mk word
          · rw [Array.getD_eq_getD_getElem?] at rejecting
            rw [rejecting action member] at accepts
            contradiction
  · contradiction

end Consistent

theorem isRule_of_goto? {state next : StateId} {symbol : SymbolId}
    (found : table.goto? state symbol = some next) : table.isRule symbol = true := by
  unfold goto? at found
  split at found
  · next inside => exact (Bool.and_eq_true_iff.1 inside).1
  · contradiction

theorem isTerminal_of_mem_actions {state : StateId} {symbol : SymbolId} {action : Action}
    (member : action ∈ table.actions state symbol) : table.isTerminal symbol = true := by
  unfold actions at member
  split at member
  · next inside => exact (Bool.and_eq_true_iff.1 inside).1
  · contradiction

theorem isRule_of_isTerminal {symbol : SymbolId} (h : table.isTerminal symbol = true) :
    table.isRule symbol = false := by
  simp [isRule, h]

theorem isRule_of_isToken {symbol : SymbolId} (h : table.isToken symbol = true) :
    table.isRule symbol = false :=
  isRule_of_isTerminal (Bool.and_eq_true_iff.1 h).2

theorem ne_end_of_isToken {symbol : SymbolId} (h : table.isToken symbol = true) :
    symbol ≠ SymbolId.endOfInput := by
  rintro rfl
  simp [isToken] at h

end Table

namespace Language

theorem build_ok {table : Table} {version : UInt16} {scanner : Option Scanner} {stamp : Nat}
    {language : Language} (h : build table version scanner stamp = .ok language) :
    table.check = .ok () ∧ language.table = table ∧ language.isExtraSymbol =
      table.extras.foldl (fun flags symbol => flags.setIfInBounds symbol.index true)
        (Array.replicate table.symbols.size false) ∧
      (language.lexModes, language.stateLexModes) =
        LexMode.ofStates table language.isExtraSymbol table.stateCount.toNat := by
  unfold build at h
  cases checked : table.check with
  | error cause =>
      rw [checked] at h
      contradiction
  | ok =>
      rw [checked] at h
      dsimp only at h
      split at h
      · contradiction
      · cases h
        exact ⟨rfl, rfl, rfl, rfl⟩

def IsBuilt (language : Language) : Prop :=
  ∃ table version scanner stamp, build table version scanner stamp = .ok language

theorem isBuilt_of_ofTable {table : Table} {scanner : Option Scanner} {stamp : Nat}
    {language : Language} (h : (ofTable table scanner stamp).toOption = some language) :
    language.IsBuilt ∧ language.table = table :=
  ⟨⟨_, _, _, _, ok_of_toOption h⟩, (build_ok (ok_of_toOption h)).2.1⟩

theorem IsBuilt.consistent {language : Language} (h : language.IsBuilt) :
    language.table.Consistent := by
  obtain ⟨table, version, scanner, stamp, built⟩ := h
  obtain ⟨checked, rfl, _⟩ := build_ok built
  exact Table.consistent_of_check checked

end Language

end IncrementalGlr
