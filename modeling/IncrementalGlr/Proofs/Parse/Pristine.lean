import IncrementalGlr.Proofs.Parse.Derivation
import IncrementalGlr.Proofs.Parse.Machine
import IncrementalGlr.Proofs.Tree.Faults

/-!
# Versions that were never mended

Until a version is mended, its stack holds no errors. Without an old tree, and if extras have no
actions, the mode that it lexes its next token in is that of its state, although it is not looked at
when versions are merged.
-/

namespace IncrementalGlr

open Generated

/-- The language was compiled from the grammar, and a version that was never mended is a
configuration of the machine: there are no external tokens, and no extra has an action. -/
structure Language.IsPlain (language : Language) (grammar : PreparedGrammar) : Prop where
  built : language.IsBuilt
  generated : Generated grammar language.table
  noExternals : language.externalTokens.isEmpty = true
  noActions : ∀ state symbol, language.isExtra symbol = true → language.actions state symbol = []

theorem size_setAll (symbols : List SymbolId) (flags : Array Bool) :
    (symbols.foldl (fun flags symbol => flags.setIfInBounds symbol.index true) flags).size
      = flags.size := by
  induction symbols generalizing flags with
  | nil => rfl
  | cons symbol symbols ih => rw [List.foldl_cons, ih, Array.size_setIfInBounds]

theorem Language.IsBuilt.isExtra_error {language : Language} (h : language.IsBuilt) :
    language.isExtra SymbolId.error = false := by
  obtain ⟨table, version, scanner, stamp, built⟩ := h
  obtain ⟨checked, _, flags, _⟩ := build_ok built
  rw [isExtra, flags, Array.getD_eq_getD_getElem?, Array.getElem?_eq_none]
  · rfl
  · rw [size_setAll, Array.size_replicate]
    exact Nat.le_of_lt (Table.size_symbols_of_check checked)

namespace Stack

def Clean (stack : Stack) : Prop := ∀ tree ∈ stack.subtrees, tree.IsFaultless

theorem Clean.push {stack : Stack} (h : stack.Clean) {tree : Subtree} (faultless : tree.IsFaultless)
    (state : StateId) : (stack.push tree state).Clean :=
  forall_push h faultless state

end Stack

namespace ParseInput

variable {grammar : PreparedGrammar} {input : ParseInput} {stack reduced : Stack}
  {symbols : List Sym}

theorem clean_reduce (consistent : input.language.table.Consistent) (h : stack.Clean) {reach : Nat}
    {isFragile : Bool} {symbol : SymbolId} {childCount : UInt16} {production : ProductionId}
    (done : input.reduce stack reach isFragile symbol childCount production = some reduced) :
    reduced.Clean := by
  obtain ⟨_, _, _, _, goes, _⟩ := reduce_eq_some done
  have noError : symbol ≠ SymbolId.error :=
    consistent.ne_error_of_isRule (Table.isRule_of_goto? goes)
  refine forall_reduce (p := Subtree.IsFaultless) h (fun popped node reach _ clean made => ?_) done
  have built := Subtree.isFaultless_ofProduction input.language noError production clean
  rw [made]
  split
  · exact (built.modify id).modify id
  · exact built.modify id

theorem isFaultless_root (consistent : input.language.table.Consistent)
    (generated : Generated grammar input.language.table) {x : SymbolId}
    (runs : stack.Runs grammar input.language.table symbols) (clean : stack.Clean)
    (accepts : .accept ∈ input.language.actions stack.state x) :
    (input.root stack).IsFaultless := by
  obtain ⟨top, below, found, start, _, _, root⟩ := root_of_accept generated runs accepts
  have entries : ∀ entry ∈ stack, entry.subtree.IsFaultless := fun entry member =>
    clean _ (Stack.mem_subtrees.2 ⟨entry, member, rfl⟩)
  have dropped : ∀ entry ∈ top :: below, entry ∈ stack := by
    rw [← found]
    exact fun entry member => (List.dropWhile_suffix _).subset member
  have noError : top.subtree.symbol ≠ SymbolId.error :=
    start ▸ consistent.ne_error_of_isRule consistent.start
  rw [root]
  refine Subtree.isFaultless_ofProduction _ noError _ fun tree member => ?_
  rcases List.mem_append.1 member with member | member
  · rcases List.mem_append.1 member with member | member
    · obtain ⟨entry, there, rfl⟩ := Stack.mem_subtrees.1 member
      exact entries entry (dropped entry (List.mem_cons_of_mem _ there))
    · exact (entries top (dropped top (List.mem_cons_self ..))).child member
  · obtain ⟨entry, there, rfl⟩ := Stack.mem_subtrees.1 member
    exact entries entry (List.takeWhile_subset _ there)

end ParseInput

structure Version.Pristine (version : Version) (language : Language) : Prop where
  clean : version.stack.Clean
  lexed : ∀ tree, version.lookahead ≠ some (.reused tree)
  unread : version.lookahead = none →
    version.nextLexMode language = language.lexModeOfState version.state
  read : ∀ token, version.lookahead = some (.token token) → version.lexMode = some token.lexMode ∧
    (language.isExtra token.symbol = true →
      token.lexMode = language.lexModeOfState version.state)

variable {grammar : PreparedGrammar} {input : ParseInput} {version next : Version}

theorem Version.pristine_start (language : Language) : start.Pristine language :=
  ⟨fun _ absent => absurd absent List.not_mem_nil, fun _ found => (by cases found), fun _ => rfl,
    fun _ found => (by cases found)⟩

theorem Version.Becomes.pristine {count : Nat} (plain : input.language.IsPlain grammar)
    (becomes : version.Becomes input none count next) (h : version.Pristine input.language) :
    next.Pristine input.language := by
  cases becomes with
  | waits => exact h
  | lexed fresh =>
    refine ⟨h.clean, fun _ found => (by cases found), fun none => (by cases none), ?_⟩
    rintro _ ⟨⟩
    rw [ParseInput.lex, Lexer.lexMode_next]
    exact ⟨rfl, fun _ => h.unread fresh⟩
  | lexedAnew here =>
    refine ⟨h.clean, fun _ found => (by cases found), fun none => (by cases none), ?_⟩
    rintro _ ⟨⟩
    rw [ParseInput.lex, Lexer.lexMode_next]
    exact ⟨rfl, fun _ => rfl⟩
  | offered mode here found => contradiction
  | turnedDown here => exact absurd here (h.lexed _)
  | @reduced lookahead _ _ _ _ _ _ here chosen done =>
    refine ⟨ParseInput.clean_reduce plain.built.consistent h.clean done, h.lexed,
      fun unread => ?_, fun token same => ?_⟩
    · rw [show version.lookahead = none from unread] at here
      contradiction
    · refine ⟨(h.read token same).1, fun isExtra => ?_⟩
      cases here.symm.trans same
      rw [show (Lookahead.token token).symbol = token.symbol from rfl,
        plain.noActions _ _ isExtra] at chosen
      contradiction
  | shifted here leaf chosen =>
    cases leaf with
    | token token =>
      obtain ⟨_, t, _, inside, symbol, _⟩ := plain.generated.of_shift_mem chosen
      have symbol : token.symbol = grammar.symbolId (.terminal t) := symbol
      refine ⟨h.clean.push (Subtree.isFaultless_leaf _ ?_ _ _) _, fun _ found => (by cases found),
        fun _ => rfl, fun _ found => (by cases found)⟩
      rw [symbol]
      exact plain.generated.symbolId_ne_error _ inside
    | reused => exact absurd here (h.lexed _)
  | extra here leaf lacking isExtra =>
    cases leaf with
    | token token =>
      obtain ⟨mode, same⟩ := h.read token here
      refine ⟨h.clean.push (Subtree.isFaultless_leaf _ ?_ _ _) _, fun _ found => (by cases found),
        fun _ => ?_, fun _ found => (by cases found)⟩
      · intro isError
        rw [show (Lookahead.token token).symbol = token.symbol from rfl, isError,
          plain.built.isExtra_error] at isExtra
        contradiction
      · change (version.lexMode.getD _) = _
        rw [mode]
        exact same isExtra
    | reused => exact absurd here (h.lexed _)
  | takenOver here goes => exact absurd here (h.lexed _)

theorem Version.EndsIn.isFaultless (plain : input.language.IsPlain grammar) {root : Subtree}
    (ends : version.EndsIn input root) (clean : version.stack.Clean)
    (derives : version.Derives grammar input.language) : root.IsFaultless := by
  cases ends with
  | accepted here chosen =>
    obtain ⟨symbols, runs⟩ := derives.runs
    exact ParseInput.isFaultless_root plain.built.consistent plain.generated runs clean chosen

end IncrementalGlr
