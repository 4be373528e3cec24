import IncrementalGlr.Proofs.Table.Lookups
import IncrementalGlr.Proofs.Lexer.Modes
import IncrementalGlr.Proofs.Lexer.Token

/-!
# Look-ups of a language stay inside

The extras, the lex modes and the keywords of a language are computed from its table, by look-ups
that are not tested either. They are written a second time here as in
`IncrementalGlr.Proofs.Table.Lookups`.
-/

namespace IncrementalGlr

section Loops

variable {α β : Type}

theorem mapM_eq_some (xs : List α) {f : α → Option β} {g : α → β}
    (each : ∀ x ∈ xs, f x = some (g x)) : xs.mapM f = some (xs.map g) := by
  induction xs with
  | nil => rfl
  | cons x xs ih =>
    rw [List.mapM_cons, each x (List.mem_cons_self ..),
      ih fun other member => each other (List.mem_cons_of_mem _ member)]
    rfl

theorem foldlM_eq_some {xs : List α} {f : β → α → Option β} {g : β → α → β} (holds : β → Prop)
    (each : ∀ acc, holds acc → ∀ x ∈ xs, f acc x = some (g acc x) ∧ holds (g acc x)) {acc : β}
    (initially : holds acc) : xs.foldlM f acc = some (xs.foldl g acc) := by
  induction xs generalizing acc with
  | nil => rfl
  | cons x xs ih =>
    obtain ⟨first, kept⟩ := each acc initially x (List.mem_cons_self ..)
    rw [List.foldlM_cons, first]
    exact ih (fun acc h other member => each acc h other (List.mem_cons_of_mem _ member)) kept

end Loops

def setInside? (flags : Array Bool) (place : Nat) : Option (Array Bool) :=
  if place < flags.size then some (flags.setIfInBounds place true) else none

namespace LexMode

def validInside? (table : Table) (isExtra : Array Bool) (state : StateId) (allowsExtras : Bool)
    (terminal : Nat) : Option Bool :=
  if terminal = 0 then some false
  else do
    let actions ← table.actionsInside? state (SymbolId.ofNat terminal)
    if !actions.isEmpty then some true
    else if allowsExtras then isExtra[terminal]? else some false

def ofStateInside? (table : Table) (isExtra : Array Bool) (state : StateId) : Option LexMode := do
  let allowsExtras ← table.allowsExtras[state.index]?
  let valid ← (List.range table.terminalCount.toNat).mapM
    (validInside? table isExtra state allowsExtras)
  let externalValid ← table.externalTokens.toList.mapM fun symbol => valid[symbol.index]?
  return ⟨valid.toArray, externalValid.toArray, allowsExtras⟩

def ofStatesInside? (table : Table) (isExtra : Array Bool) (count : Nat) :
    Option (Array LexMode × Array LexModeId) :=
  (List.range count).foldlM
    (fun (modes, byState) state => do
      let mode ← ofStateInside? table isExtra (StateId.ofNat state)
      match modes.findIdx? (· == mode) with
      | some id => return (modes, byState.push (UInt16.ofNat id))
      | none => return (modes.push mode, byState.push (UInt16.ofNat modes.size)))
    (#[], #[])

variable {table : Table} {isExtra : Array Bool} {state : StateId}

def validIn (table : Table) (isExtra : Array Bool) (state : StateId) (terminal : Nat) : Bool :=
  terminal != 0
    && (!(table.actions state (SymbolId.ofNat terminal)).isEmpty
      || (table.allowsExtras.getD state.index false && isExtra.getD terminal false))

theorem valid_ofState : (ofState table isExtra state).valid =
    ((List.range table.terminalCount.toNat).map (validIn table isExtra state)).toArray := by
  apply Array.ext_getElem?
  intro i
  rw [ofState, Array.getElem?_ofFn, List.getElem?_toArray, List.getElem?_map]
  by_cases inside : i < table.terminalCount.toNat
  · simp [inside, validIn]
  · simp [inside]

theorem validInside?_eq (h : table.Bounded) (flags : isExtra.size = table.symbols.size)
    {terminal : Nat} (inside : terminal < table.terminalCount.toNat) :
    validInside? table isExtra state (table.allowsExtras.getD state.index false) terminal
      = some (validIn table isExtra state terminal) := by
  have known : terminal < isExtra.size := by
    have := h.symbols
    omega
  by_cases first : terminal = 0
  · simp [first, validInside?, validIn]
  · simp only [validInside?, validIn, h.actionsInside?_eq, first, if_false, Option.bind_eq_bind,
      Option.bind_some]
    cases (table.actions state (SymbolId.ofNat terminal)).isEmpty <;>
      cases table.allowsExtras.getD state.index false <;>
      simp [first, known]

theorem ofStateInside?_eq (h : table.Bounded) (flags : isExtra.size = table.symbols.size)
    (inside : state.index < table.stateCount.toNat) :
    ofStateInside? table isExtra state = some (ofState table isExtra state) := by
  have flag : table.allowsExtras[state.index]? =
      some (table.allowsExtras.getD state.index false) := by
    have known : state.index < table.allowsExtras.size := h.extrasFlags ▸ inside
    simp [Array.getD_eq_getD_getElem?, known]
  have valid := mapM_eq_some (List.range table.terminalCount.toNat)
    fun terminal member => @validInside?_eq _ _ state h flags terminal (List.mem_range.1 member)
  have external : table.externalTokens.toList.mapM (fun symbol =>
      ((List.range table.terminalCount.toNat).map (validIn table isExtra state))[symbol.index]?)
      = some (table.externalTokens.map fun symbol =>
        (ofState table isExtra state).valid.getD symbol.index false).toList := by
    rw [Array.toList_map]
    apply mapM_eq_some
    intro symbol member
    have token := h.externals symbol (Array.mem_toList_iff.1 member)
    have known : symbol.index < table.terminalCount.toNat := by
      simpa [Table.isTerminal] using (Bool.and_eq_true_iff.1 token).2
    simp [valid_ofState, Array.getD_eq_getD_getElem?, known]
  simp only [ofStateInside?, flag, valid, external, Option.bind_eq_bind, Option.bind_some,
    ← valid_ofState, Array.toArray_toList]
  rfl

theorem ofStatesInside?_eq (h : table.Bounded) (flags : isExtra.size = table.symbols.size)
    {count : Nat} (few : count ≤ table.stateCount.toNat) :
    ofStatesInside? table isExtra count = some (ofStates table isExtra count) := by
  refine foldlM_eq_some (fun _ => True) (fun acc _ s member => ⟨?_, trivial⟩) trivial
  have below := List.mem_range.1 member
  have inside : (StateId.ofNat s).index < table.stateCount.toNat := by
    have := table.stateCount.toNat_lt
    simp only [StateId.ofNat, StateId.index]
    rw [toNat_ofNat (by omega)]
    omega
  obtain ⟨modes, byState⟩ := acc
  simp only [ofStateInside?_eq h flags inside, Option.bind_eq_bind, Option.bind_some]
  cases modes.findIdx? (· == ofState table isExtra (StateId.ofNat s)) <;> rfl

end LexMode

namespace Language

/-- `Language.build`, giving up outside of the flags and where `LexMode.ofStatesInside?` does. -/
def buildInside? (table : Table) (version : UInt16) (scanner : Option Scanner) (stamp : Nat) :
    Option (Except LoadError Language) :=
  match table.check with
  | .error cause => some (.error (.inconsistent cause))
  | .ok () =>
    if table.externalTokens.size > 0 && scanner.isNone then
      some (.error (.missingScanner table.name table.externalTokens.size))
    else do
      let isExtraSymbol ← table.extras.foldlM (fun flags symbol => setInside? flags symbol.index)
        (Array.replicate table.symbols.size false)
      let (lexModes, stateLexModes) ←
        LexMode.ofStatesInside? table isExtraSymbol table.stateCount.toNat
      let errorLexable := (lexModes.filter (·.allowsExtras)).foldl
        (fun flags mode => orAll flags mode.valid) (Array.replicate table.terminalCount.toNat false)
      return .ok
        { table, version, isExtraSymbol, lexModes, stateLexModes, errorLexable, scanner, stamp }

def lexModeInside? (language : Language) (id : LexModeId) : Option LexMode :=
  language.lexModes[min id.toNat (language.lexModes.size - 1)]?

def keywordPlace? (language : Language) (text : String) : Option Nat :=
  (language.table.keywords.zipIdx.findRev? fun (keyword, _) => keyword.text == text).map (·.2)

def keywordInside? (language : Language) (text : String) : Option (Option Keyword) :=
  match language.keywordPlace? text with
  | none => some none
  | some place => language.table.keywords[place]?.map some

theorem buildInside?_eq (table : Table) (version : UInt16) (scanner : Option Scanner)
    (stamp : Nat) :
    buildInside? table version scanner stamp = some (build table version scanner stamp) := by
  unfold buildInside? build
  cases checked : table.check with
  | error cause => rfl
  | ok =>
    have h := Table.bounded_of_check checked
    have extras : table.extras.foldlM (fun flags symbol => setInside? flags symbol.index)
        (Array.replicate table.symbols.size false) = some (table.extras.foldl
          (fun flags symbol => flags.setIfInBounds symbol.index true)
          (Array.replicate table.symbols.size false)) := by
      refine foldlM_eq_some (fun flags : Array Bool => flags.size = table.symbols.size)
        (fun flags size symbol member => ⟨if_pos ?_, by simpa using size⟩) (by simp)
      have token := (Bool.and_eq_true_iff.1 (h.extras symbol member)).2
      have terminal := of_decide_eq_true token
      have := h.symbols
      omega
    have flags : (table.extras.foldl (fun flags symbol => flags.setIfInBounds symbol.index true)
        (Array.replicate table.symbols.size false)).size = table.symbols.size :=
      List.foldlRecOn (motive := fun flags : Array Bool => flags.size = table.symbols.size)
        table.extras _ (by simp) fun flags size _ _ => by simpa using size
    dsimp only
    split
    · rfl
    · rw [extras]
      simp only [Option.bind_eq_bind, Option.bind_some, LexMode.ofStatesInside?_eq h flags
        (Nat.le_refl _)]
      rfl

variable {language : Language}

theorem IsBuilt.bounded (h : language.IsBuilt) : language.table.Bounded := by
  obtain ⟨table, version, scanner, stamp, built⟩ := h
  obtain ⟨checked, rfl, _⟩ := build_ok built
  exact Table.bounded_of_check checked

theorem IsBuilt.lexModeInside?_eq (h : language.IsBuilt) (id : LexModeId) :
    language.lexModeInside? id = some (language.lexMode id) := by
  obtain ⟨first, _, mode⟩ := h.lexModes.mode 0 h.bounded.states
  have some := (Array.getElem?_eq_some_iff.1 mode).1
  have inside : min id.toNat (language.lexModes.size - 1) < language.lexModes.size := by omega
  simp [lexModeInside?, lexMode, Array.getD_eq_getD_getElem?, inside]

theorem keywordInside?_eq (language : Language) (text : String) :
    language.keywordInside? text = some (language.keyword? text) := by
  unfold keywordInside? keywordPlace? keyword?
  have numbered : language.table.keywords = language.table.keywords.zipIdx.map (·.1) :=
    (List.zipIdx_map_fst ..).symm
  conv_rhs => rw [numbered, List.findRev?_eq_find?_reverse, ← List.map_reverse, List.find?_map,
    ← List.findRev?_eq_find?_reverse]
  cases found : language.table.keywords.zipIdx.findRev? fun x => x.1.text == text with
  | none => simp only [Function.comp_def, found, Option.map_none]
  | some entry =>
    obtain ⟨keyword, place⟩ := entry
    have member := mem_of_findRev? found
    rw [List.mem_zipIdx_iff_getElem?] at member
    simp only [Function.comp_def, found, Option.map_some, member]

end Language

end IncrementalGlr
