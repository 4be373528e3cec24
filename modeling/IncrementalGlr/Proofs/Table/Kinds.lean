import IncrementalGlr.Proofs.Grammar.Visibility
import IncrementalGlr.Proofs.Table.Compilation
import IncrementalGlr.Proofs.Table.Conflicts

/-!
# Kinds of nodes

A kind is looked up by its name, and the first symbol of that name is found, whether nodes have it
or not. As no two visible symbols have one name, a visible symbol is found by its own name unless a
hidden one comes before it. In the language of a grammar that happens to aliases alone.
-/

namespace IncrementalGlr

theorem nodup_of_firstRepeat? {α : Type} [BEq α] [LawfulBEq α] {xs : List α}
    (h : firstRepeat? xs = none) : xs.Nodup := by
  have apart : ∀ (xs seen : List α), firstRepeat?.go xs seen = none →
      xs.Nodup ∧ ∀ x ∈ xs, x ∉ seen := by
    intro xs
    induction xs with
    | nil => simp
    | cons x rest ih =>
      intro seen found
      rw [firstRepeat?.go] at found
      split at found
      · contradiction
      · next fresh =>
        obtain ⟨nodup, others⟩ := ih (x :: seen) found
        rw [List.contains_iff_mem] at fresh
        refine ⟨List.nodup_cons.2 ⟨fun again => others x again List.mem_cons_self, nodup⟩, ?_⟩
        exact List.forall_mem_cons.2
          ⟨fresh, fun y member there => others y member (List.mem_cons_of_mem x there)⟩
  exact (apart xs [] h).1

theorem of_pairwise_drop {α : Type} {xs : Array α} {r : α → α → Prop}
    (pairwise : (xs.toList.drop 1).Pairwise r) {i j : Nat} {a b : α} (behind : 0 < i)
    (before : i < j) (there : xs[i]? = some a) (here : xs[j]? = some b) : r a b := by
  rw [List.pairwise_iff_getElem] at pairwise
  obtain ⟨_, rfl⟩ := Array.getElem?_eq_some_iff.1 there
  obtain ⟨_, rfl⟩ := Array.getElem?_eq_some_iff.1 here
  have apart := pairwise (i - 1) (j - 1) (by simp; omega) (by simp; omega) (by omega)
  simpa only [List.getElem_drop, Nat.add_sub_of_le behind,
    Nat.add_sub_of_le (Nat.lt_of_le_of_lt (Nat.zero_le i) before), Array.getElem_toList] using apart

namespace Table

variable {table : Table}

theorem nodup_of_check (h : table.check = .ok ()) :
    (((table.symbols.toList.drop 1).filter (·.visible)).map
      fun info => (info.name, info.named)).Nodup := by
  unfold check at h
  obtain ⟨_, symbols, _⟩ := bind_ok h
  unfold checkSymbols at symbols
  obtain ⟨_, _, symbols⟩ := bind_ok symbols
  obtain ⟨_, _, symbols⟩ := bind_ok symbols
  obtain ⟨_, _, symbols⟩ := bind_ok symbols
  obtain ⟨_, _, symbols⟩ := bind_ok symbols
  obtain ⟨_, _, symbols⟩ := bind_ok symbols
  dsimp only at symbols
  split at symbols
  · contradiction
  · next distinct => exact nodup_of_firstRepeat? distinct

theorem visible_eq_false_of_lt (checked : table.check = .ok ()) {i j : Nat}
    {info other : SymbolInfo} (behind : 0 < i) (before : i < j)
    (there : table.symbols[i]? = some other) (here : table.symbols[j]? = some info)
    (shown : info.visible = true) (sameName : other.name = info.name)
    (sameKind : other.named = info.named) : other.visible = false := by
  have apart := nodup_of_check checked
  rw [List.Nodup, List.pairwise_map, List.pairwise_filter] at apart
  have differ := of_pairwise_drop apart behind before there here
  rw [Bool.eq_false_iff]
  intro seen
  exact differ seen shown (by rw [sameName, sameKind])

end Table

namespace Language

variable {language : Language} {symbol : SymbolId} {name : String} {named : Bool}

structure IsFirst (language : Language) (name : String) (named : Bool) (symbol : SymbolId) :
    Prop where
  behind : 0 < symbol.index
  here : ∃ info, language.symbolInfo? symbol = some info ∧ info.name = name ∧ info.named = named
  first : ∀ i info, 0 < i → i < symbol.index → language.table.symbols[i]? = some info →
    ¬(info.name = name ∧ info.named = named)

theorem symbolOfKind?_eq_some_iff (few : language.table.symbols.size < 0xFFFF)
    (plain : ¬(named = true ∧ name = "ERROR")) :
    language.symbolOfKind? name named = some symbol ↔ language.IsFirst name named symbol := by
  have own : (named && name == "ERROR") = false := by simpa using plain
  rw [symbolOfKind?, own, if_neg Bool.false_ne_true, Option.map_eq_some_iff]
  constructor
  · rintro ⟨place, found, rfl⟩
    obtain ⟨inside, same, first⟩ := List.findIdx?_eq_some_iff_getElem.1 found
    rw [List.length_drop, Array.length_toList] at inside
    have index : (SymbolId.ofNat (place + 1)).index = place + 1 := SymbolId.index_ofNat (by omega)
    refine ⟨by omega, ?_, ?_⟩
    · refine ⟨language.table.symbols[place + 1], ?_, ?_⟩
      · rw [symbolInfo?, index]
        exact Array.getElem?_eq_getElem _
      · simpa [Nat.add_comm] using same
    · intro i info behind before there
      rw [index] at before
      obtain ⟨inside, rfl⟩ := Array.getElem?_eq_some_iff.1 there
      simpa [Nat.sub_add_cancel behind] using first (i - 1) (by omega)
  · rintro ⟨behind, ⟨info, here, rfl, rfl⟩, first⟩
    obtain ⟨inside, own⟩ := Array.getElem?_eq_some_iff.1 here
    refine ⟨symbol.index - 1, List.findIdx?_eq_some_iff_getElem.2 ⟨?_, ?_, ?_⟩, ?_⟩
    · rw [List.length_drop, Array.length_toList]
      omega
    · simp [Nat.sub_add_cancel behind, own]
    · intro i before
      have other := first (i + 1) language.table.symbols[i + 1] (by omega) (by omega)
        (Array.getElem?_eq_getElem _)
      simpa [Nat.add_comm] using other
    · rw [Nat.sub_add_cancel behind]
      exact congrArg SymbolId.mk UInt16.ofNat_toNat

/-- A hidden symbol of the same name and kind comes before this one. -/
def IsShadowed (language : Language) (symbol : SymbolId) : Prop :=
  ∃ i info, 0 < i ∧ i < symbol.index ∧ language.table.symbols[i]? = some info ∧
    info.visible = false ∧ info.name = language.symbolName symbol ∧
      info.named = language.isNamed symbol

/-- Looked up by its own name, a visible symbol behind the end of input is found unless a hidden one
is before it or its name is that of errors. -/
theorem symbolOfKind?_symbolName_iff (checked : language.table.check = .ok ())
    (visible : language.isVisible symbol = true) (behind : symbol ≠ SymbolId.endOfInput) :
    language.symbolOfKind? (language.symbolName symbol) (language.isNamed symbol) = some symbol ↔
      symbol.isError = true ∨ ¬language.IsShadowed symbol ∧
        ¬(language.isNamed symbol = true ∧ language.symbolName symbol = "ERROR") := by
  have few := Table.size_symbols_of_check checked
  cases error : symbol.isError with
  | true =>
    obtain rfl : symbol = SymbolId.error := eq_of_beq error
    exact iff_of_true rfl (.inl rfl)
  | false =>
    rw [isVisible, error, Bool.false_or] at visible
    obtain ⟨info, here, shown⟩ := (Option.any_eq_true _ _).1 visible
    have ownName : language.symbolName symbol = info.name := by simp [symbolName, error, here]
    have ownKind : language.isNamed symbol = info.named := by simp [isNamed, error, here]
    by_cases plain : language.isNamed symbol = true ∧ language.symbolName symbol = "ERROR"
    · have other : SymbolId.error ≠ symbol := fun same => by
        rw [← same] at error
        contradiction
      simp [symbolOfKind?, plain, other]
    · rw [symbolOfKind?_eq_some_iff few plain]
      simp only [Bool.false_eq_true, false_or, plain, not_false_eq_true, and_true]
      constructor
      · rintro first ⟨i, other, early, before, there, _, sameName, sameKind⟩
        exact first.first i other early before there ⟨sameName, sameKind⟩
      · intro unshadowed
        refine ⟨?_, ⟨info, here, ownName.symm, ownKind.symm⟩, ?_⟩
        · exact Nat.pos_of_ne_zero fun zero => behind (SymbolId.ext_index zero)
        · rintro i other early before there ⟨sameName, sameKind⟩
          refine unshadowed ⟨i, other, early, before, there, ?_, sameName, sameKind⟩
          exact Table.visible_eq_false_of_lt checked early before there here shown
            (sameName.trans ownName) (sameKind.trans ownKind)

end Language

namespace PreparedGrammar

variable {grammar : PreparedGrammar}

theorem visible_ownSymbols (spelled : grammar.Spelled) :
    (grammar.ownSymbols.toList.drop 1).Pairwise fun other info => info.visible = true →
      other.name = info.name → other.named = info.named → other.visible = true := by
  rw [drop_ownSymbols, List.pairwise_append]
  refine ⟨?_, ?_, ?_⟩
  · refine List.pairwise_map.2 (List.pairwise_of_forall_mem_list fun a inA b inB => ?_)
    intro shown sameName sameKind
    obtain ⟨i, atI⟩ := Array.getElem?_of_mem (Array.mem_toList_iff.1 inA)
    obtain ⟨j, atJ⟩ := Array.getElem?_of_mem (Array.mem_toList_iff.1 inB)
    have own := spelled.tokens i a atI
    have other := spelled.tokens j b atJ
    unfold Terminal.IsSpelled at own other
    dsimp only at sameName sameKind shown ⊢
    rw [own, sameName, sameKind, ← other, shown]
  · rw [List.pairwise_map, List.pairwise_iff_getElem]
    intro i j inI inJ before shown sameName _
    exact absurd sameName (spelled.apart i j _ _ before (by simp) (by simp) shown)
  · intro a inTerminals b inNonterminals shown sameName sameKind
    obtain ⟨terminal, member, rfl⟩ := List.mem_map.1 inTerminals
    obtain ⟨nonterminal, member', rfl⟩ := List.mem_map.1 inNonterminals
    obtain ⟨i, atI⟩ := Array.getElem?_of_mem (Array.mem_toList_iff.1 member)
    obtain ⟨j, atJ⟩ := Array.getElem?_of_mem (Array.mem_toList_iff.1 member')
    have own := spelled.tokens i terminal atI
    have other := spelled.rules j nonterminal atJ shown
    unfold Terminal.IsSpelled at own
    dsimp only at sameName sameKind ⊢
    rw [own, sameName, other, Bool.or_true]

theorem size_ownSymbols :
    grammar.ownSymbols.size = grammar.terminals.size + 1 + grammar.nonterminals.size := by
  simp [ownSymbols]
  omega

end PreparedGrammar

variable {grammar : Grammar} {compiled : Compiled} {language : Language} {symbol : SymbolId}

/-- In the language of a grammar, only a symbol that occurs as an alias alone comes behind a hidden
one of its name and kind. -/
theorem le_index_of_isShadowed (h : grammar.compile = .ok compiled)
    (same : language.table = compiled.table) (visible : language.isVisible symbol = true)
    (shadowed : language.IsShadowed symbol) :
    compiled.table.terminalCount.toNat + compiled.table.ruleCount.toNat ≤ symbol.index := by
  by_contra own
  obtain ⟨prepared, prepare, laidOut⟩ := laidOut_of_compile h
  have generated := laidOut.generated (Grammar.prepare_sound prepare).1
  obtain ⟨i, other, behind, before, there, hidden, sameName, sameKind⟩ := shadowed
  have size : prepared.ownSymbols.size =
      compiled.table.terminalCount.toNat + compiled.table.ruleCount.toNat := by
    rw [PreparedGrammar.size_ownSymbols, generated.lowers.terminals, generated.lowers.rules]
  have few := generated.lowers.symbols
  have error : symbol.isError = false := by
    rw [SymbolId.isError, beq_eq_false_iff_ne]
    rintro rfl
    rw [PreparedGrammar.size_ownSymbols] at size
    have : SymbolId.error.index = 0xFFFF := rfl
    omega
  rw [Language.isVisible, error, Bool.false_or] at visible
  obtain ⟨info, here, shown⟩ := (Option.any_eq_true _ _).1 visible
  rw [Language.symbolName, error, if_neg Bool.false_ne_true, here] at sameName
  rw [Language.isNamed, error, Bool.false_or, here] at sameKind
  rw [Language.symbolInfo?, same] at here
  rw [same] at there
  have first : ∀ place < prepared.ownSymbols.size, ∀ symbol, compiled.table.symbols[place]? =
      some symbol → prepared.ownSymbols[place]? = some symbol := by
    intro place inside symbol found
    have kept := PreparedGrammar.getElem?_symbols (Array.getElem?_eq_getElem inside)
      laidOut.symbols.1
    rw [Array.getElem?_eq_getElem inside, ← kept, found]
  have seen := of_pairwise_drop
    (PreparedGrammar.visible_ownSymbols (Grammar.prepare_spelled prepare)) behind before
    (first i (by omega) other there) (first symbol.index (by omega) info here) shown sameName
    sameKind
  rw [hidden] at seen
  contradiction

/-- A visible symbol of a grammar that does not occur as an alias alone is found by its own name,
unless that is the name of errors. -/
theorem symbolOfKind?_of_compile (h : grammar.compile = .ok compiled)
    (same : language.table = compiled.table) (checked : language.table.check = .ok ())
    (visible : language.isVisible symbol = true) (behind : symbol ≠ SymbolId.endOfInput)
    (own : symbol.index < compiled.table.terminalCount.toNat + compiled.table.ruleCount.toNat)
    (plain : ¬(language.isNamed symbol = true ∧ language.symbolName symbol = "ERROR")) :
    language.symbolOfKind? (language.symbolName symbol) (language.isNamed symbol) = some symbol :=
  (Language.symbolOfKind?_symbolName_iff checked visible behind).2 (.inr ⟨fun shadowed =>
    absurd own (Nat.not_lt.2 (le_index_of_isShadowed h same visible shadowed)), plain⟩)

def maskedGrammar : Grammar where
  name := "masked"
  rules := [
    ("source", .seq [.symbol "expression", .aliased "expression" (.symbol "word")]),
    ("expression", .symbol "word"),
    ("word", .string "a")]
  extras := []
  externals := []
  word := none
  supertypes := ["expression"]
  reserved := []
  precedences := []

set_option maxRecDepth 4000 in
/-- The kind of the word, looked up, is the hidden supertype. -/
theorem symbolOfKind?_masked : ∃ compiled language, maskedGrammar.compile = .ok compiled ∧
    Language.ofTable compiled.table none 0 = .ok language ∧
    language.symbolName ⟨4⟩ = "expression" ∧ language.isVisible ⟨4⟩ = true ∧
    language.isNamed ⟨4⟩ = true ∧ language.symbolOfKind? "expression" true = some ⟨3⟩ := by
  have runs : (maskedGrammar.compile.toOption.bind fun compiled =>
      (Language.ofTable compiled.table none 0).toOption.map fun language =>
        (language.symbolName ⟨4⟩, language.isVisible ⟨4⟩, language.isNamed ⟨4⟩,
          language.symbolOfKind? "expression" true)) =
      some ("expression", true, true, some ⟨3⟩) := by cbv
  obtain ⟨compiled, compile, loads⟩ := Option.bind_eq_some_iff.1 runs
  obtain ⟨language, loaded, same⟩ := Option.map_eq_some_iff.1 loads
  simp only [Prod.mk.injEq] at same
  exact ⟨compiled, language, ok_of_toOption compile, ok_of_toOption loaded, same⟩

end IncrementalGlr
