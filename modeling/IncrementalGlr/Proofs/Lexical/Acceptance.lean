import IncrementalGlr.Proofs.Lexical.Determinization
import IncrementalGlr.Proofs.Lexical.Tokens
import IncrementalGlr.Proofs.Table.Lowering

/-!
# What the lexical automaton accepts

After a text the automaton of a grammar accepts the terminals that match the text, in their order of
preference, and it is stuck where there is none.
-/

namespace IncrementalGlr

namespace Nfa

variable {whole nfa : Nfa} {final next id terminal other : Nat} {text : List Char}

theorem mem_reads_split (accepts : whole.states[final]? = some (.accept terminal))
    {targets : List Nat} (found : whole.states[id]? = some (.split targets)) :
    text ∈ whole.reads final id ↔ ∃ target ∈ targets, text ∈ whole.reads final target := by
  constructor
  · rintro ⟨steps, run⟩
    obtain ⟨target, listed, _, _, read⟩ :=
      exists_of_mem_readsWithin_split accepts found ⟨steps, Nat.le_refl _, run⟩
    exact ⟨target, listed, readsWithin_le _ _ read⟩
  · rintro ⟨target, listed, read⟩
    exact reads_le_of_split found listed read

theorem eq_of_mem_reads_addRegex (accepts : whole.states[final]? = some (.accept terminal))
    (behind : whole.states[next]? = some (.accept other)) {regex : Regex} (made : regex.Made)
    (kept : ExtendsFrom nfa.states.size (addRegex regex next nfa).2 whole)
    (read : text ∈ whole.reads final (addRegex regex next nfa).1) : next = final := by
  obtain ⟨steps, run⟩ := read
  have adds := adds_addRegex accepts regex made
  obtain ⟨_, _, _, ⟨_, _, rest⟩, _⟩ := Language.mem_mul.1
    (adds.sound next nfa kept steps ⟨steps, Nat.le_refl _, run⟩)
  exact (eq_of_run_accept behind rest).1

/-- The entry leads to an accepting state of the token, by reading what the token matches, and to no
other accepting state. -/
structure Recognizes (whole : Nfa) (token : Terminal × Nat) (regex : Regex) (entry accept : Nat) :
    Prop where
  expression : token.1.regex = some regex
  accepts : whole.states[accept]? = some (.accept token.2)
  reads : whole.reads accept entry = regex.language
  only : ∀ (final terminal : Nat) (text : List Char),
    whole.states[final]? = some (.accept terminal) → text ∈ whole.reads final entry →
      accept = final

def addToken (nfa : Nfa) (regex : Regex) (index : Nat) : Nat × Nfa :=
  addRegex regex nfa.states.size (nfa.push (.accept index)).2

theorem extends_addToken {regex : Regex} (made : regex.Made) (index : Nat) :
    nfa.Extends (nfa.addToken regex index).2 :=
  (extends_push _).trans (extends_addRegex made _ _)

theorem recognizes_addToken {token : Terminal × Nat} {regex : Regex}
    (found : token.1.regex = some regex) (made : regex.Made)
    (kept : ExtendsFrom nfa.states.size (nfa.addToken regex token.2).2 whole) :
    whole.Recognizes token regex (nfa.addToken regex token.2).1 nfa.states.size := by
  have behind := ((extends_addRegex made _ _).from kept).pushed
  have pushed : nfa.Extends (nfa.push (.accept token.2)).2 := extends_push _
  have inner := kept.mono pushed.size_le
  exact ⟨found, behind, reads_addRegex behind made inner,
    fun final terminal text accepts read =>
      eq_of_mem_reads_addRegex accepts behind made inner read⟩

end Nfa

namespace PreparedGrammar

variable {grammar : PreparedGrammar} {twice : String → Prop} {whole nfa : Nfa}
  {tokens : List (Terminal × Nat)} {entries : List Nat}

theorem nfaOf_cons {token : Terminal × Nat} {regex : Regex} (found : token.1.regex = some regex) :
    nfaOf (token :: tokens) entries nfa = nfaOf tokens
      ((nfa.addToken regex token.2).1 :: entries) (nfa.addToken regex token.2).2 := by
  obtain ⟨terminal, index⟩ := token
  rw [nfaOf, show terminal.regex = some regex from found]
  rfl

theorem nfaOf_cons_none {token : Terminal × Nat} (none : token.1.regex = none) :
    nfaOf (token :: tokens) entries nfa = nfaOf tokens entries nfa := by
  obtain ⟨terminal, index⟩ := token
  rw [nfaOf, show terminal.regex = .none from none]

theorem extends_nfaOf (made : ∀ token ∈ tokens, ∀ regex ∈ token.1.regex, regex.Made)
    (entries : List Nat) (nfa : Nfa) : nfa.Extends (nfaOf tokens entries nfa).2 := by
  induction tokens generalizing entries nfa with
  | nil => exact .refl nfa
  | cons token tokens ih =>
    obtain ⟨own, rest⟩ := List.forall_mem_cons.1 made
    cases found : token.1.regex with
    | none =>
      rw [nfaOf_cons_none found]
      exact ih rest entries nfa
    | some regex =>
      rw [nfaOf_cons found]
      exact (Nfa.extends_addToken (own regex found) token.2).trans (ih rest _ _)

structure Entries (whole : Nfa) (tokens : List (Terminal × Nat)) (before entries : List Nat) :
    Prop where
  kept : ∀ entry ∈ before, entry ∈ entries
  known : ∀ entry ∈ entries, entry ∈ before ∨
    ∃ token ∈ tokens, ∃ regex accept, whole.Recognizes token regex entry accept
  all : ∀ token ∈ tokens, ∀ regex, token.1.regex = some regex →
    ∃ entry ∈ entries, ∃ accept, whole.Recognizes token regex entry accept

theorem entries_nfaOf (made : ∀ token ∈ tokens, ∀ regex ∈ token.1.regex, regex.Made)
    (kept : Nfa.ExtendsFrom nfa.states.size (nfaOf tokens entries nfa).2 whole) :
    Entries whole tokens entries (nfaOf tokens entries nfa).1 := by
  induction tokens generalizing entries nfa with
  | nil => exact ⟨by simp [nfaOf], by simp [nfaOf], by simp⟩
  | cons token tokens ih =>
    obtain ⟨own, rest⟩ := List.forall_mem_cons.1 made
    cases found : token.1.regex with
    | none =>
      rw [nfaOf_cons_none found] at kept ⊢
      obtain ⟨before, known, all⟩ := ih rest kept
      refine ⟨before, fun entry member => (known entry member).imp_right ?_, ?_⟩
      · rintro ⟨token, listed, recognizes⟩
        exact ⟨token, List.mem_cons_of_mem _ listed, recognizes⟩
      · refine List.forall_mem_cons.2 ⟨fun regex found' => ?_, all⟩
        cases found.symm.trans found'
    | some regex =>
      have made := own regex found
      rw [nfaOf_cons found] at kept ⊢
      obtain ⟨before, known, all⟩ := ih rest (kept.mono (Nfa.extends_addToken made _).size_le)
      have here := Nfa.recognizes_addToken found made ((extends_nfaOf rest _ _).from kept)
      have member := before _ (List.mem_cons_self ..)
      refine ⟨fun entry listed => before entry (List.mem_cons_of_mem _ listed),
        fun entry listed => ?_, ?_⟩
      · rcases known entry listed with listed | ⟨token, listed, recognizes⟩
        · rcases List.mem_cons.1 listed with rfl | listed
          · exact .inr ⟨token, List.mem_cons_self .., regex, _, here⟩
          · exact .inl listed
        · exact .inr ⟨token, List.mem_cons_of_mem _ listed, recognizes⟩
      · refine List.forall_mem_cons.2 ⟨fun regex' found' => ?_, all⟩
        cases found.symm.trans found'
        exact ⟨_, member, _, here⟩

/-- The terminal at place `a` comes before the one at place `b`: by lexical precedence, then strings
before others, then in the order of the grammar. -/
def Before (grammar : PreparedGrammar) (a b : Nat) : Prop :=
  ∃ s t, grammar.terminals[a]? = some s ∧ grammar.terminals[b]? = some t ∧
    (t.precedence < s.precedence ∨ s.precedence = t.precedence ∧
      (s.isString = true ∧ t.isString = false ∨ s.isString = t.isString ∧ a < b))

theorem preferred_iff {a b : Terminal × Nat} : preferred a b = true ↔
    b.1.precedence < a.1.precedence ∨ a.1.precedence = b.1.precedence ∧
      (a.1.isString = true ∧ b.1.isString = false ∨ a.1.isString = b.1.isString ∧ a.2 ≤ b.2) := by
  unfold preferred
  split
  · next other => simp [other]
  · next same =>
    have same := Decidable.of_not_not same
    split
    · next other => cases hs : a.1.isString <;> cases ht : b.1.isString <;> simp_all
    · next alike => simp_all

def order (grammar : PreparedGrammar) : List (Terminal × Nat) :=
  grammar.terminals.toList.zipIdx.mergeSort preferred

theorem mem_order {terminal : Terminal} {place : Nat} :
    (terminal, place) ∈ grammar.order ↔ grammar.terminals[place]? = some terminal := by
  rw [order, List.mem_mergeSort, List.mem_zipIdx_iff_getElem?, Array.getElem?_toList]

theorem pairwise_order (grammar : PreparedGrammar) :
    grammar.order.Pairwise fun a b => preferred a b = true := by
  refine List.pairwise_mergeSort (fun a b c first second => ?_) (fun a b => ?_) _
  · rw [preferred_iff] at *
    grind
  · rw [Bool.or_eq_true, preferred_iff, preferred_iff]
    grind

theorem nodup_order (grammar : PreparedGrammar) : (grammar.order.map (·.2)).Nodup := by
  have places : (grammar.order.map (·.2)).Perm (List.range grammar.terminals.size) := by
    have whole := (List.mergeSort_perm grammar.terminals.toList.zipIdx preferred).map (·.2)
    rwa [List.zipIdx_map_snd, Array.length_toList, ← List.range_eq_range'] at whole
  exact places.nodup_iff.2 List.nodup_range

def storeRanks (ranks : Array Nat) (entries : List ((Terminal × Nat) × Nat)) : Array Nat :=
  entries.foldl (fun ranks ((_, place), rank) => ranks.setIfInBounds place rank) ranks

theorem ranks_eq (grammar : PreparedGrammar) : grammar.ranks =
    storeRanks (Array.replicate grammar.terminals.size 0) grammar.order.zipIdx := rfl

theorem getElem?_storeRanks_of_notMem {ranks : Array Nat}
    {entries : List ((Terminal × Nat) × Nat)} {place : Nat}
    (away : place ∉ entries.map (·.1.2)) : (storeRanks ranks entries)[place]? = ranks[place]? := by
  induction entries generalizing ranks with
  | nil => rfl
  | cons entry entries ih =>
    rw [List.map_cons, List.mem_cons, not_or] at away
    rw [storeRanks, List.foldl_cons]
    exact (ih away.2).trans (Array.getElem?_setIfInBounds_ne (Ne.symm away.1))

theorem getElem?_storeRanks {ranks : Array Nat} {entries : List ((Terminal × Nat) × Nat)}
    (nodup : (entries.map (·.1.2)).Nodup) {entry : (Terminal × Nat) × Nat}
    (listed : entry ∈ entries) (inside : entry.1.2 < ranks.size) :
    (storeRanks ranks entries)[entry.1.2]? = some entry.2 := by
  induction entries generalizing ranks with
  | nil => exact absurd listed List.not_mem_nil
  | cons first entries ih =>
    rw [List.map_cons, List.nodup_cons] at nodup
    rw [storeRanks, List.foldl_cons]
    rcases List.mem_cons.1 listed with rfl | listed
    · exact (getElem?_storeRanks_of_notMem nodup.1).trans
        (Array.getElem?_setIfInBounds_self_of_lt inside)
    · exact ih nodup.2 listed (by simpa using inside)

theorem getD_ranks {rank place : Nat} {terminal : Terminal}
    (found : grammar.order[rank]? = some (terminal, place)) :
    grammar.ranks.getD place 0 = rank := by
  have known := mem_order.1 (List.mem_of_getElem? found)
  have nodup : (grammar.order.zipIdx.map (·.1.2)).Nodup := by
    have same : grammar.order.zipIdx.map (·.1.2) = grammar.order.map (·.2) := by
      rw [← List.zipIdx_map_fst 0 grammar.order, List.map_map]
      simp
    exact same ▸ grammar.nodup_order
  have listed : ((terminal, place), rank) ∈ grammar.order.zipIdx :=
    List.mem_zipIdx_iff_getElem?.2 found
  rw [Array.getD_eq_getD_getElem?, ranks_eq, getElem?_storeRanks nodup listed, Option.getD_some]
  simpa using (Array.getElem?_eq_some_iff.1 known).1

theorem exists_rank {place : Nat} (known : place < grammar.terminals.size) :
    ∃ rank : Nat, grammar.order[rank]? = some (grammar.terminals[place], place) :=
  List.mem_iff_getElem?.1 (mem_order.2 (Array.getElem?_eq_getElem known))

theorem before_of_ranks_lt {a b : Nat} (knownA : a < grammar.terminals.size)
    (knownB : b < grammar.terminals.size)
    (less : grammar.ranks.getD a 0 < grammar.ranks.getD b 0) : grammar.Before a b := by
  obtain ⟨rankA, foundA⟩ := exists_rank knownA
  obtain ⟨rankB, foundB⟩ := exists_rank knownB
  rw [getD_ranks foundA, getD_ranks foundB] at less
  have other : a ≠ b := by
    rintro rfl
    exact Nat.ne_of_lt less ((getD_ranks foundA).symm.trans (getD_ranks foundB))
  obtain ⟨insideA, hereA⟩ := List.getElem?_eq_some_iff.1 foundA
  obtain ⟨insideB, hereB⟩ := List.getElem?_eq_some_iff.1 foundB
  have inOrder := List.pairwise_iff_getElem.1 grammar.pairwise_order _ _ insideA insideB less
  rw [hereA, hereB, preferred_iff] at inOrder
  refine ⟨_, _, Array.getElem?_eq_getElem knownA, Array.getElem?_eq_getElem knownB, ?_⟩
  exact inOrder.imp_right (And.imp_right (Or.imp_right (And.imp_right (Nat.lt_of_le_of_ne · other))))

theorem eq_of_ranks_eq {a b : Nat} (knownA : a < grammar.terminals.size)
    (knownB : b < grammar.terminals.size)
    (same : grammar.ranks.getD a 0 = grammar.ranks.getD b 0) : a = b := by
  obtain ⟨rankA, foundA⟩ := exists_rank knownA
  obtain ⟨rankB, foundB⟩ := exists_rank knownB
  rw [getD_ranks foundA, getD_ranks foundB] at same
  rw [same] at foundA
  exact congrArg Prod.snd (Option.some.inj (foundA.symm.trans foundB))

def Lexes (grammar : PreparedGrammar) (text : List Char) (place : Nat) : Prop :=
  ∃ terminal regex, grammar.terminals[place]? = some terminal ∧ terminal.regex = some regex ∧
    grammar.isKeyword terminal = false ∧ text ∈ regex.language

end PreparedGrammar

namespace ClosedNfa

theorem mem_accepted {closed : ClosedNfa} {set : BitSet} {terminal : Nat} :
    terminal ∈ closed.accepted set ↔
      ∃ id, set.contains id = true ∧ closed.nfa.states[id]? = some (.accept terminal) := by
  simp only [accepted, List.mem_filterMap, BitSet.mem_toList]
  refine exists_congr fun id => and_congr_right fun _ => ?_
  rw [Nfa.state, Array.getD_eq_getD_getElem?]
  cases found : closed.nfa.states[id]? with
  | none => simp [default, instInhabitedNfaState.default]
  | some state => cases state <;> simp

end ClosedNfa

namespace PreparedGrammar

variable {grammar : PreparedGrammar} {twice : String → Prop}

def plain (grammar : PreparedGrammar) : List (Terminal × Nat) :=
  grammar.terminals.toList.zipIdx.filter fun (terminal, _) => !grammar.isKeyword terminal

theorem mem_plain {terminal : Terminal} {place : Nat} : (terminal, place) ∈ grammar.plain ↔
    grammar.terminals[place]? = some terminal ∧ grammar.isKeyword terminal = false := by
  rw [plain, List.mem_filter, List.mem_zipIdx_iff_getElem?, Array.getElem?_toList,
    Bool.not_eq_true']

def lexNfa (grammar : PreparedGrammar) : Nat × Nfa :=
  (nfaOf grammar.plain [] Nfa.empty).2.push (.split (nfaOf grammar.plain [] Nfa.empty).1)

theorem regex_made (named : grammar.Named twice) :
    ∀ token ∈ grammar.plain, ∀ regex ∈ token.1.regex, regex.Made :=
  fun _ listed => (named.sound _ _ (mem_plain.1 listed).1).made

theorem fits_lexNfa (named : grammar.Named twice) :
    grammar.lexNfa.2.Fits grammar.terminals.size := by
  refine Nfa.Fits.push (fits_nfaOf Nfa.fits_empty fun token listed => ?_) (NfaState.fits_split _)
  exact ⟨(Array.getElem?_eq_some_iff.1 (mem_plain.1 listed).1).1, regex_made named token listed⟩

theorem mem_accepted_lexNfa (named : grammar.Named twice) {text : List Char} {place : Nat} :
    place ∈ (ClosedNfa.ofNfa grammar.lexNfa.2).accepted (text.foldl
        (fun set c => (ClosedNfa.ofNfa grammar.lexNfa.2).step set c.toNat)
        ((ClosedNfa.ofNfa grammar.lexNfa.2).closure [grammar.lexNfa.1])) ↔
      grammar.Lexes text place := by
  have fits := fits_lexNfa named
  have start : grammar.lexNfa.2.states[grammar.lexNfa.1]? =
      some (.split (nfaOf grammar.plain [] Nfa.empty).1) := Array.getElem?_push_size
  have entries : Entries grammar.lexNfa.2 grammar.plain [] (nfaOf grammar.plain [] Nfa.empty).1 :=
    entries_nfaOf (regex_made named) fun id state _ found => Nfa.extends_push _ id state found
  rw [ClosedNfa.mem_accepted]
  constructor
  · rintro ⟨id, contains, found⟩
    obtain ⟨_, here, read⟩ := (ClosedNfa.contains_foldl_step fits found).1 contains
    cases List.mem_singleton.1 here
    obtain ⟨entry, listed, read⟩ := (Nfa.mem_reads_split found start).1 read
    obtain ⟨token, member, regex, accept, recognizes⟩ :=
      (entries.known entry listed).resolve_left List.not_mem_nil
    cases recognizes.only id place text found read
    obtain ⟨known, plain⟩ := mem_plain.1 member
    cases found.symm.trans recognizes.accepts
    exact ⟨token.1, regex, known, recognizes.expression, plain, recognizes.reads ▸ read⟩
  · rintro ⟨terminal, regex, known, expression, plain, read⟩
    obtain ⟨entry, listed, accept, recognizes⟩ :=
      entries.all (terminal, place) (mem_plain.2 ⟨known, plain⟩) regex expression
    refine ⟨accept, (ClosedNfa.contains_foldl_step fits recognizes.accepts).2
      ⟨_, List.mem_singleton_self _, ?_⟩, recognizes.accepts⟩
    exact (Nfa.mem_reads_split recognizes.accepts start).2
      ⟨entry, listed, recognizes.reads.symm ▸ read⟩

theorem exists_acceptsOf (named : grammar.Named twice) (set : BitSet) :
    ∃ places : List Nat,
      (ClosedNfa.ofNfa grammar.lexNfa.2).acceptsOf
          (fun place => grammar.symbolId (.terminal place)) (grammar.ranks.getD · 0) set
        = places.map (fun place => grammar.symbolId (.terminal place)) ∧
      places.Pairwise grammar.Before ∧
      ∀ place, place ∈ places ↔ place ∈ (ClosedNfa.ofNfa grammar.lexNfa.2).accepted set := by
  let rank (place : Nat) : Nat := grammar.ranks.getD place 0
  have inside : ∀ place ∈ ((ClosedNfa.ofNfa grammar.lexNfa.2).accepted set).mergeSort
      (fun a b => rank a ≤ rank b), place < grammar.terminals.size := fun place member =>
    (ClosedNfa.fits_ofNfa (fits_lexNfa named)).accepted set place (List.mem_mergeSort.1 member)
  have ranked := pairwise_dedupSorted
    (fun a member b member' => eq_of_ranks_eq (inside a member) (inside b member'))
    (pairwise_mergeSort_le rank _)
  refine ⟨_, rfl, ranked.imp_of_mem fun member member' less => ?_, fun place => ?_⟩
  · exact before_of_ranks_lt (inside _ (mem_of_mem_dedupSorted member))
      (inside _ (mem_of_mem_dedupSorted member')) less
  · rw [mem_dedupSorted, List.mem_mergeSort]

theorem lexStates_eq {states : Array LexState} (h : grammar.lexStates = .ok states) :
    states = (ClosedNfa.ofNfa grammar.lexNfa.2).determinize grammar.lexNfa.1
      (fun place => grammar.symbolId (.terminal place)) (grammar.ranks.getD · 0) ∧
    states.size < 0xFFFF := by
  unfold lexStates at h
  obtain ⟨_, _, h⟩ := bind_ok h
  obtain ⟨_, checked, h⟩ := bind_ok h
  cases h
  exact ⟨rfl, (checkSize_ok checked).1⟩

theorem lexStates_exact (named : grammar.Named twice) {states : Array LexState}
    (h : grammar.lexStates = .ok states) (text : List Char) :
    match text.foldlM (fun (state : UInt32) c => (states.getD state.toNat default).next? c)
        (0 : UInt32) with
    | none => ∀ place, ¬ grammar.Lexes text place
    | some last => ∃ places : List Nat,
        (states.getD last.toNat default).accepts
          = places.map (fun place => grammar.symbolId (.terminal place)) ∧
        places.Pairwise grammar.Before ∧ ∀ place, place ∈ places ↔ grammar.Lexes text place := by
  obtain ⟨whole, few⟩ := lexStates_eq h
  obtain ⟨sets, exploring, first, size⟩ :=
    (ClosedNfa.fits_ofNfa (fits_lexNfa named)).exploring_determinize grammar.lexNfa.1
      (fun place => grammar.symbolId (.terminal place)) (grammar.ranks.getD · 0)
  rw [← whole] at exploring size
  have start : sets[(0 : UInt32).toNat]? = _ := first
  have carried := exploring.foldlM_next size (Nat.le_of_lt (Nat.lt_trans few (by decide))) text start
  split at carried
  · next last goes =>
    rw [goes]
    have inside : last.toNat < states.size := size ▸ (Array.getElem?_eq_some_iff.1 carried).1
    obtain ⟨_, own, there, accepts, _⟩ := exploring.states _ _ (Array.getElem?_eq_getElem inside)
    cases carried.symm.trans there
    obtain ⟨places, same, ordered, members⟩ := exists_acceptsOf named _
    refine ⟨places, ?_, ordered, fun place => (members place).trans (mem_accepted_lexNfa named)⟩
    rw [Array.getD_eq_getD_getElem?, Array.getElem?_eq_getElem inside, Option.getD_some, accepts,
      same]
  · next stuck =>
    rw [stuck]
    intro place lexes
    have accepted := (mem_accepted_lexNfa named).2 lexes
    rw [carried] at accepted
    obtain ⟨_, contains, _⟩ := ClosedNfa.mem_accepted.1 accepted
    exact Bool.false_ne_true ((BitSet.contains_empty _).symm.trans contains)

end PreparedGrammar

end IncrementalGlr
