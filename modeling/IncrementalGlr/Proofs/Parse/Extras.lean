import IncrementalGlr.Proofs.Lexer.Modes
import IncrementalGlr.Proofs.Lexer.Selection
import IncrementalGlr.Proofs.Parse.Leaves

/-!
# Extras in front of immediate tokens

Where a state expects an immediate token, its mode holds no extras, so that the lexer passes over
one only if nothing else can be matched. Then it is shifted like any other extra, and the immediate
token may stand behind it.
-/

namespace IncrementalGlr

variable {language : Language} {options : ParserOptions} {text : String} {fuel : Nat}
  {parsed : Parsed} {leaf : Subtree} {start : Length}

theorem lacks_of_leaf (built : language.IsBuilt)
    (returned : parseWithin fuel language options text none = some parsed)
    (member : (leaf, start) ∈ parsed.tree.leaves) (read : ¬ leaf.IsVoid)
    (noWord : ¬ language.IsWord leaf.symbol)
    (invalid : (language.lexMode leaf.lexMode).isValid leaf.symbol = false) :
    ((Lexer.ofSource language (Source.clipped text)).seek start).Lacks
      (language.lexMode leaf.lexMode) := by
  have lexed : leaf.IsLexed (ParseInput.ofText language options text) start :=
    allLexed_of_parse built returned (leaf, start) member
  obtain ⟨token, ⟨carried, found⟩, same⟩ := lexed.resolve_left read
  obtain ⟨symbol, mode⟩ : leaf.symbol = token.symbol ∧ leaf.lexMode = token.lexMode := by
    rw [same]
    exact ⟨rfl, rfl⟩
  rw [symbol] at invalid noWord
  rw [mode] at invalid ⊢
  have symbols := congrArg Token.symbol found
  rw [← symbols] at invalid noWord
  exact Lexer.lacks_of_next invalid noWord

def spacedTable : Table where
  name := "spaced"
  symbols := #[⟨"end", false, true, false⟩, ⟨"_extra_token1", false, true, false⟩,
    ⟨"a", true, false, false⟩, ⟨"_s_token1", false, true, false⟩, ⟨"s", true, true, false⟩]
  terminalCount := 4
  ruleCount := 1
  startSymbol := ⟨4⟩
  fieldNames := #[]
  productions := #[⟨⟨4⟩, 0, [⟨none, none⟩, ⟨none, none⟩]⟩]
  stateCount := 4
  actionIndex := #[0, 0, 1, 0, 0, 0, 0, 2, 3, 0, 0, 0, 4, 0, 0, 0]
  actionLists := #[[], [.shift ⟨1⟩], [.shift ⟨3⟩], [.accept], [.reduce ⟨4⟩ 2 0 ⟨0⟩]]
  gotos := #[⟨2⟩] ++ Array.replicate 3 StateId.none
  allowsExtras := #[true, false, true, true]
  extras := [⟨1⟩]
  externalTokens := #[]
  wordToken := none
  keywords := []
  lexStates := #[⟨#[⟨32, 32, 1⟩, ⟨97, 97, 2⟩, ⟨98, 98, 3⟩], []⟩, ⟨#[], [⟨1⟩]⟩, ⟨#[], [⟨2⟩]⟩,
    ⟨#[], [⟨3⟩]⟩]
  lexStart := 0

def spacedLanguage : Option Language := (Language.ofTable spacedTable none 1).toOption

theorem lacks_of_leaf_spaced : ∃ language parsed leaf start, spacedLanguage = some language ∧
    parseWithin 100 language .standard "a b" none = some parsed ∧ parsed.tree.hasError = false ∧
      parsed.tree.leaves.map (·.1.symbol) = [⟨2⟩, ⟨1⟩, ⟨3⟩] ∧
      (leaf, start) ∈ parsed.tree.leaves ∧ leaf.isExtra = true ∧
      leaf.lexMode = language.lexModeOfState ⟨1⟩ ∧
      (Lexer.ofText language "a b" start).Lacks (language.lexMode leaf.lexMode) := by
  have runs : (spacedLanguage.any fun language =>
      (parseWithin 100 language .standard "a b" none).any fun parsed =>
        (!parsed.tree.hasError && parsed.tree.leaves.map (·.1.symbol) == [⟨2⟩, ⟨1⟩, ⟨3⟩]) &&
          parsed.tree.leaves.any fun entry =>
            entry.1.isExtra && decide (entry.1.size ≠ Length.zero ∧
              entry.1.lexMode = language.lexModeOfState ⟨1⟩ ∧
              (language.lexMode entry.1.lexMode).isValid entry.1.symbol = false)) = true := by
    decide +kernel
  obtain ⟨language, built, runs⟩ := (Option.any_eq_true _ _).1 runs
  obtain ⟨parsed, returned, runs⟩ := (Option.any_eq_true _ _).1 runs
  obtain ⟨shape, runs⟩ := Bool.and_eq_true_iff.1 runs
  obtain ⟨noError, symbols⟩ := Bool.and_eq_true_iff.1 shape
  obtain ⟨⟨leaf, start⟩, member, here⟩ := List.any_eq_true.1 runs
  obtain ⟨isExtra, here⟩ := Bool.and_eq_true_iff.1 here
  obtain ⟨size, mode, invalid⟩ := of_decide_eq_true here
  obtain ⟨isBuilt, table⟩ := Language.isBuilt_of_ofTable built
  refine ⟨language, parsed, leaf, start, built, returned, by simpa using noError,
    eq_of_beq symbols, member, isExtra, mode, ?_⟩
  rw [Lexer.ofText, ← @Source.clipped_of_short "a b" (by decide)]
  refine lacks_of_leaf isBuilt returned member (fun void => size void.size) ?_ invalid
  rw [Language.IsWord, Language.wordToken?, table]
  simp [spacedTable]

theorem lacks_of_extra {grammar : Grammar} {prepared : PreparedGrammar} {compiled : Compiled}
    (prepares : grammar.prepare = .ok prepared) (compiles : grammar.compile = .ok compiled)
    (built : language.IsBuilt) (table : language.table = compiled.table)
    (returned : parseWithin fuel language options text none = some parsed)
    (member : (leaf, start) ∈ parsed.tree.leaves) (read : ¬ leaf.IsVoid)
    (noWord : ¬ language.IsWord leaf.symbol) {state : StateId}
    (mode : leaf.lexMode = language.lexModeOfState state)
    (expects : prepared.Expects language.table state)
    (lacking : language.actions state leaf.symbol = []) :
    ((Lexer.ofSource language (Source.clipped text)).seek start).Lacks
      (language.lexMode (language.lexModeOfState state)) := by
  have invalid := isValid_of_expects prepares compiles built table expects lacking
  rw [← mode] at invalid ⊢
  exact lacks_of_leaf built returned member read noWord invalid

end IncrementalGlr
