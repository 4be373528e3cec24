import IncrementalGlr.Lexical.Pattern
import IncrementalGlr.Proofs.Table.Consistency

/-!
# Sets of characters of patterns

Every set of a pattern is made by the operations on sets. Its ranges have ends that are 32-bit
words, also where an escape names a number beyond the last code point, and whose successors are
words too. And up to the last code point the ranges are in order and apart, so that bisection finds
every character that lies in one of them.
-/

namespace IncrementalGlr

namespace CharSet

def FitsRange (range : Nat × Nat) : Prop :=
  range.1 < UInt32.size ∧ range.2 + 1 < UInt32.size

def Fits (set : CharSet) : Prop := ∀ range ∈ set.ranges, FitsRange range

variable {set other : CharSet} {ranges : List (Nat × Nat)}

theorem fits_joinRange {range : Nat × Nat} (h : ∀ r ∈ ranges, FitsRange r) (new : FitsRange range) :
    ∀ r ∈ joinRange ranges range, FitsRange r := by
  unfold joinRange
  split
  · simpa using new
  · next last rest =>
    simp only [List.forall_mem_cons] at h
    split
    · refine List.forall_mem_cons.2 ⟨⟨h.1.1, ?_⟩, h.2⟩
      rcases Nat.le_total last.2 range.2 with below | above
      · simpa [Nat.max_eq_right below] using new.2
      · simpa [Nat.max_eq_left above] using h.1.2
    · exact List.forall_mem_cons.2 ⟨new, List.forall_mem_cons.2 h⟩

theorem fits_normalize (h : ∀ r ∈ ranges, FitsRange r) : ∀ r ∈ normalize ranges, FitsRange r := by
  have joined : ∀ (ranges done : List (Nat × Nat)), (∀ r ∈ ranges, FitsRange r) →
      (∀ r ∈ done, FitsRange r) → ∀ r ∈ ranges.foldl joinRange done, FitsRange r := by
    intro ranges
    induction ranges with
    | nil => exact fun _ _ known => known
    | cons range ranges ih =>
      intro done h known
      rw [List.forall_mem_cons] at h
      exact ih _ h.2 (fits_joinRange known h.1)
  intro r member
  rw [normalize, List.mem_reverse] at member
  exact joined _ [] (fun r there => h r (List.mem_mergeSort.1 there)) (by simp) r member

theorem fits_empty : empty.Fits := by simp [Fits, empty]

theorem fits_single (c : Char) : (single c).Fits := by
  have small : c.toNat < 0x110000 := by
    rcases c.valid with low | ⟨_, high⟩
    · exact Nat.lt_trans low (by decide)
    · exact high
  intro range member
  rw [List.mem_singleton.1 member]
  constructor <;> simp only [UInt32.size] <;> omega

theorem Fits.addRange {low : Nat} (h : set.Fits) (start : low < UInt32.size) (high : Nat) :
    (set.addRange low high).Fits := by
  unfold CharSet.addRange
  split
  · exact h
  · refine fits_normalize fun r member => ?_
    rcases List.mem_append.1 member with member | member
    · exact h r member
    · rw [List.mem_singleton.1 member]
      refine ⟨start, ?_⟩
      simp only [lastCodePoint, UInt32.size]
      omega

theorem Fits.addSet (h : set.Fits) (h' : other.Fits) : (set.addSet other).Fits :=
  fits_normalize fun r member => (List.mem_append.1 member).elim (h r) (h' r)

theorem Fits.negated (h : set.Fits) : set.negated.Fits := by
  have last : lastCodePoint + 1 < UInt32.size := by decide
  have within : ∀ (ranges : List (Nat × Nat)) (next : Nat), next < UInt32.size →
      (∀ r ∈ ranges, FitsRange r) → ∀ r ∈ gaps next ranges, FitsRange r := by
    intro ranges
    induction ranges with
    | nil =>
      intro next small _ r member
      rw [gaps] at member
      split at member
      · rw [List.mem_singleton.1 member]
        exact ⟨small, last⟩
      · contradiction
    | cons range ranges ih =>
      intro next small fits
      rw [List.forall_mem_cons] at fits
      obtain ⟨⟨low, high⟩, rest⟩ := fits
      rw [gaps]
      split
      · next before =>
        refine List.forall_mem_cons.2 ⟨⟨small, ?_⟩, ih _ high rest⟩
        dsimp only
        omega
      · exact ih _ high rest
  exact within set.ranges 0 (by decide) h

/-- Ranges up to the last code point hold something, and end before the next one starts. A range
that starts beyond the last code point holds no character, wherever it ends. -/
structure Ordered (set : CharSet) : Prop where
  filled : ∀ range ∈ set.ranges, min range.1 lastCodePoint ≤ range.2
  apart : set.ranges.Pairwise fun a b => a.2 < b.1 ∨ lastCodePoint < b.1

def Has (set : CharSet) (c : Nat) : Prop := ∃ range ∈ set.ranges, range.1 ≤ c ∧ c ≤ range.2

theorem Ordered.contains_iff (h : set.Ordered) {c : Nat} (valid : c ≤ lastCodePoint) :
    set.contains c = true ↔ set.Has c := by
  obtain ⟨ranges⟩ := set
  have apart : ranges.Pairwise fun a b => a.2 < b.1 ∨ lastCodePoint < b.1 := h.apart
  clear h
  simp only [contains, Has]
  induction ranges with
  | nil => simp
  | cons first rest ih =>
    obtain ⟨behind, apart⟩ := List.pairwise_cons.1 apart
    simp only [List.find?_cons, List.mem_cons, exists_eq_or_imp]
    by_cases reached : c ≤ first.2
    · simp only [reached, decide_true, decide_eq_true_eq, and_true, iff_self_or]
      rintro ⟨range, member, low, _⟩
      have := behind range member
      omega
    · simp only [reached, decide_false, and_false, false_or]
      exact ih apart

theorem ordered_empty : empty.Ordered := ⟨by simp [empty], .nil⟩

theorem ordered_single (c : Char) : (single c).Ordered :=
  ⟨List.forall_mem_singleton.2 (Nat.min_le_left ..), List.pairwise_singleton ..⟩

theorem ordered_normalize (filled : ∀ range ∈ ranges, min range.1 lastCodePoint ≤ range.2) :
    Ordered ⟨normalize ranges⟩ := by
  have joined : ∀ ranges done : List (Nat × Nat),
      (∀ range ∈ ranges, min range.1 lastCodePoint ≤ range.2) → Ordered ⟨done.reverse⟩ →
        Ordered ⟨(ranges.foldl joinRange done).reverse⟩ := by
    intro ranges
    induction ranges with
    | nil => exact fun _ _ known => known
    | cons range ranges ih =>
      intro done filled known
      rw [List.forall_mem_cons] at filled
      refine ih _ filled.2 ?_
      obtain ⟨own, apart⟩ := known
      simp only [List.pairwise_reverse, List.mem_reverse] at own apart
      unfold joinRange
      split
      · exact ⟨by simpa using filled.1, by simp⟩
      · next last before =>
        obtain ⟨inFront, apart⟩ := List.pairwise_cons.1 apart
        obtain ⟨last', before'⟩ := List.forall_mem_cons.1 own
        split
        -- the last range is made longer
        · refine ⟨?_, ?_⟩
          · simp only [List.mem_reverse]
            exact List.forall_mem_cons.2 ⟨by dsimp only; omega, before'⟩
          · simp only [List.pairwise_reverse]
            exact List.pairwise_cons.2 ⟨inFront, apart⟩
        -- nothing before it reaches the new one either
        · refine ⟨?_, ?_⟩
          · simp only [List.mem_reverse]
            exact List.forall_mem_cons.2 ⟨filled.1, own⟩
          · simp only [List.pairwise_reverse]
            refine List.pairwise_cons.2
              ⟨List.forall_mem_cons.2 ⟨by omega, fun other member => ?_⟩,
                List.pairwise_cons.2 ⟨inFront, apart⟩⟩
            have := inFront other member
            omega
  exact joined _ [] (fun range member => filled range (List.mem_mergeSort.1 member))
    ⟨by simp, by simp⟩

theorem Ordered.addRange (h : set.Ordered) (low high : Nat) : (set.addRange low high).Ordered := by
  unfold CharSet.addRange
  split
  · exact h
  · refine ordered_normalize fun range member => ?_
    rcases List.mem_append.1 member with member | member
    · exact h.filled range member
    · rw [List.mem_singleton.1 member]
      dsimp only
      omega

theorem Ordered.addSet (h : set.Ordered) (h' : other.Ordered) : (set.addSet other).Ordered :=
  ordered_normalize fun range member =>
    (List.mem_append.1 member).elim (h.filled range) (h'.filled range)

theorem start_of_mem_gaps {next : Nat} {gap : Nat × Nat} (h : gap ∈ gaps next ranges) :
    gap.1 = next ∨ ∃ range ∈ ranges, gap.1 = range.2 + 1 := by
  induction ranges generalizing next with
  | nil =>
    rw [gaps] at h
    split at h
    · rw [List.mem_singleton.1 h]
      exact .inl rfl
    · contradiction
  | cons range ranges ih =>
    have later : gap ∈ gaps (range.2 + 1) ranges →
        gap.1 = next ∨ ∃ other ∈ range :: ranges, gap.1 = other.2 + 1 := by
      intro member
      rcases ih member with start | ⟨other, there, start⟩
      · exact .inr ⟨range, List.mem_cons_self .., start⟩
      · exact .inr ⟨other, List.mem_cons_of_mem _ there, start⟩
    rw [gaps] at h
    split at h
    · rcases List.mem_cons.1 h with rfl | member
      · exact .inl rfl
      · exact later member
    · exact later h

theorem Ordered.negated (h : set.Ordered) : set.negated.Ordered := by
  have between : ∀ (ranges : List (Nat × Nat)) (next : Nat), Ordered ⟨ranges⟩ →
      Ordered ⟨gaps next ranges⟩ := by
    intro ranges
    induction ranges with
    | nil =>
      intro next _
      rw [gaps]
      split
      · exact ⟨List.forall_mem_singleton.2 (Nat.min_le_right ..), List.pairwise_singleton ..⟩
      · exact ordered_empty
    | cons range ranges ih =>
      rintro next ⟨filled, apart⟩
      obtain ⟨behind, apart⟩ := List.pairwise_cons.1 apart
      obtain ⟨own, filled⟩ := List.forall_mem_cons.1 filled
      obtain ⟨rest, restApart⟩ := ih (range.2 + 1) ⟨filled, apart⟩
      rw [gaps]
      split
      · refine ⟨List.forall_mem_cons.2 ⟨by dsimp only; omega, rest⟩,
          List.pairwise_cons.2 ⟨fun gap member => ?_, restApart⟩⟩
        dsimp only
        rcases start_of_mem_gaps member with start | ⟨other, there, start⟩
        · omega
        · have := behind other there
          have := filled other there
          omega
      · exact ⟨rest, restApart⟩
  exact between set.ranges 0 h

/-- The sets that the operations make of each other, with bounds that are words. -/
inductive Made : CharSet → Prop
  | empty : Made CharSet.empty
  | single (c : Char) : Made (CharSet.single c)
  | addRange {set : CharSet} (made : Made set) {low : Nat} (word : low < UInt32.size)
      (high : Nat) : Made (set.addRange low high)
  | addSet {set other : CharSet} (made : Made set) (made' : Made other) : Made (set.addSet other)
  | negated {set : CharSet} (made : Made set) : Made set.negated

theorem Made.fits (h : set.Made) : set.Fits := by
  induction h with
  | empty => exact fits_empty
  | single c => exact fits_single c
  | addRange _ word high ih => exact ih.addRange word high
  | addSet _ _ ih ih' => exact ih.addSet ih'
  | negated _ ih => exact ih.negated

theorem Made.ordered (h : set.Made) : set.Ordered := by
  induction h with
  | empty => exact ordered_empty
  | single c => exact ordered_single c
  | addRange _ _ high ih => exact ih.addRange _ high
  | addSet _ _ ih ih' => exact ih.addSet ih'
  | negated _ ih => exact ih.negated

theorem made_range {low : Nat} (word : low < UInt32.size) (high : Nat) : (range low high).Made :=
  .addRange .empty word high

theorem made_digits : digits.Made := made_range (by decide) _

theorem made_word : word.Made := by
  unfold word addChar
  exact .addRange (.addRange (.addRange made_digits (by decide) _) (by decide) _) (by decide) _

theorem made_whitespace : whitespace.Made := by
  have added : ∀ (chars : List Nat) (set : CharSet), set.Made → (∀ c ∈ chars, c < UInt32.size) →
      (chars.foldl (fun set c => set.addRange c c) set).Made := by
    intro chars
    induction chars with
    | nil => exact fun _ h _ => h
    | cons c chars ih =>
      intro set h words
      rw [List.forall_mem_cons] at words
      exact ih _ (.addRange h words.1 c) words.2
  exact .addRange (added _ _ (made_range (by decide) _) (by decide)) (by decide) _

theorem Fits.lt_of_onlyMember? {low : Nat} (h : set.Fits) (only : set.onlyMember? = some low) :
    low < UInt32.size := by
  unfold onlyMember? at only
  split at only
  · next found =>
    split at only
    · cases only
      rw [Fits, found] at h
      exact (h _ (List.mem_cons_self ..)).1
    · contradiction
  · contradiction

end CharSet

/-- All sets of the expression are made by operations, and no repetition has inverted bounds. -/
inductive Regex.Made : Regex → Prop
  | empty : Made .empty
  | set {chars : CharSet} (made : chars.Made) : Made (.set chars)
  | seq {items : List Regex} (made : ∀ item ∈ items, Made item) : Made (.seq items)
  | alt {alternatives : List Regex} (made : ∀ alternative ∈ alternatives, Made alternative) :
      Made (.alt alternatives)
  | repetition {inner : Regex} {low : Nat} {high : Option Nat} (made : Made inner)
      (bounds : ∀ bound ∈ high, low ≤ bound) : Made (.repetition inner low high)

theorem Regex.made_literal (text : String) : (literal text).Made := by
  refine .seq fun item member => ?_
  obtain ⟨c, _, rfl⟩ := List.mem_map.1 member
  exact .set (.single c)

namespace Pattern

variable {input next : Input} {chars : CharSet}

theorem number?_lt {base value : Nat} {digits : List Char} (h : number? base digits = some value) :
    value < UInt32.size := by
  have small : ∀ found : Option Nat, (found.bind fun value =>
      if value < UInt32.size then some value else none) = some value → value < UInt32.size := by
    intro found there
    obtain ⟨number, _, there⟩ := Option.bind_eq_some_iff.1 there
    split at there
    · cases there
      assumption
    · contradiction
  unfold number? at h
  dsimp only at h
  -- with and without a plus sign
  split at h
  all_goals
    split at h
    · contradiction
    · exact small _ h

theorem made_hex {count : Nat} (h : hex input count = .ok (chars, next)) : chars.Made := by
  unfold hex at h
  dsimp only at h
  split at h
  · contradiction
  · split at h
    · next found =>
      cases h
      exact CharSet.made_range (number?_lt found) _
    · contradiction

theorem made_bracedHex (h : bracedHex input = .ok (chars, next)) : chars.Made := by
  unfold bracedHex at h
  dsimp only at h
  split at h
  · contradiction
  · split at h
    · next found =>
      cases h
      exact CharSet.made_range (number?_lt found) _
    · contradiction

theorem made_escape {inClass : Bool} (h : escape inClass input = .ok (chars, next)) :
    chars.Made := by
  unfold escape at h
  split at h
  · contradiction
  · dsimp only at h
    split at h
    case h_13 => exact made_hex h
    case h_14 =>
      split at h
      · exact made_bracedHex h
      · exact made_hex h
    case h_15 =>
      split at h
      · cases h
        exact .single _
      · contradiction
    case h_16 => contradiction
    case h_17 =>
      split at h
      · contradiction
      · cases h
        exact .single _
    -- the classes and the control characters
    all_goals cases h
    · exact CharSet.made_digits
    · exact .negated CharSet.made_digits
    · exact CharSet.made_whitespace
    · exact .negated CharSet.made_whitespace
    · exact CharSet.made_word
    · exact .negated CharSet.made_word
    all_goals exact .single _

theorem made_classItem {c : Char} (h : classItem c input = .ok (chars, next)) : chars.Made := by
  unfold classItem at h
  split at h
  · exact made_escape h
  · cases h
    exact .single c

theorem made_classItems {fuel : Nat} {set : CharSet} (start : set.Made)
    (h : classItems fuel set input = .ok (chars, next)) : chars.Made := by
  induction fuel generalizing set input with
  | zero => contradiction
  | succ fuel ih =>
    rw [classItems] at h
    split at h
    · contradiction
    · dsimp only at h
      split at h
      · cases h
        exact start
      · obtain ⟨⟨item, behind⟩, read, h⟩ := bind_ok h
        have item := made_classItem read
        dsimp only at h
        split at h
        · next low _ _ only _ =>
          split at h
          · exact ih (.addSet start item) h
          · obtain ⟨⟨highItem, behind⟩, _, h⟩ := bind_ok h
            dsimp only at h
            split at h
            · contradiction
            · split at h
              · contradiction
              · exact ih (.addRange start (item.fits.lt_of_onlyMember? only) _) h
        · exact ih (.addSet start item) h

theorem made_charClass (h : charClass input = .ok (chars, next)) : chars.Made := by
  obtain ⟨⟨set, behind⟩, read, h⟩ := bind_ok h
  have made := made_classItems .empty read
  cases h
  split
  · exact .negated made
  · exact made

theorem made_quantified {atom regex : Regex} (made : atom.Made)
    (h : quantified atom input = .ok (regex, next)) : regex.Made := by
  unfold quantified at h
  split at h
  · cases h
    exact made
  · split at h
    · contradiction
    · split at h
      · contradiction
      · next ordered =>
        cases h
        refine .repetition made fun bound member => ?_
        cases member
        simpa using ordered

theorem made_seqOf {items : List Regex} (made : ∀ item ∈ items, item.Made) :
    (seqOf items).Made := by
  unfold seqOf
  split
  · exact .empty
  · exact made _ (by simp)
  · exact .seq made

theorem made_altOf {alternatives : List Regex} (made : ∀ item ∈ alternatives, item.Made) :
    (altOf alternatives).Made := by
  unfold altOf
  split
  · exact made _ (by simp)
  · exact .alt made

mutual

theorem made_alternation {input next : Input} {regex : Regex} (fuel : Nat)
    (h : alternation fuel input = .ok (regex, next)) : regex.Made := by
  match fuel with
  | 0 => contradiction
  | fuel + 1 =>
    rw [alternation] at h
    obtain ⟨⟨found, behind⟩, read, h⟩ := bind_ok h
    cases h
    exact made_altOf (made_alternatives fuel read)

theorem made_alternatives {input next : Input} {regexes : List Regex} (fuel : Nat)
    (h : alternatives fuel input = .ok (regexes, next)) : ∀ regex ∈ regexes, regex.Made := by
  match fuel with
  | 0 => contradiction
  | fuel + 1 =>
    rw [alternatives] at h
    obtain ⟨⟨items, behind⟩, read, h⟩ := bind_ok h
    have first := made_seqOf (made_sequence fuel read)
    dsimp only at h
    split at h
    · cases h
      simpa using first
    · obtain ⟨⟨rest, behind⟩, read, h⟩ := bind_ok h
      cases h
      exact List.forall_mem_cons.2 ⟨first, made_alternatives fuel read⟩

theorem made_sequence {input next : Input} {regexes : List Regex} (fuel : Nat)
    (h : sequence fuel input = .ok (regexes, next)) : ∀ regex ∈ regexes, regex.Made := by
  match fuel with
  | 0 => contradiction
  | fuel + 1 =>
    rw [sequence] at h
    split at h
    · cases h
      simp
    · split at h
      · cases h
        simp
      · obtain ⟨⟨expr, behind⟩, read, h⟩ := bind_ok h
        obtain ⟨⟨item, behind⟩, repeated, h⟩ := bind_ok h
        obtain ⟨⟨rest, behind⟩, others, h⟩ := bind_ok h
        cases h
        exact List.forall_mem_cons.2
          ⟨made_quantified (made_atom fuel read) repeated, made_sequence fuel others⟩

theorem made_atom {c : Char} {input next : Input} {regex : Regex} (fuel : Nat)
    (h : atom fuel c input = .ok (regex, next)) : regex.Made := by
  match fuel with
  | 0 => contradiction
  | fuel + 1 =>
    rw [atom.eq_def] at h
    dsimp only at h
    split at h
    · split at h
      · exact made_group fuel h
      · split at h
        · contradiction
        · exact made_group fuel h
    · obtain ⟨⟨set, behind⟩, read, h⟩ := bind_ok h
      cases h
      exact .set (made_charClass read)
    · cases h
      exact .set (.negated (.single _))
    · obtain ⟨⟨set, behind⟩, read, h⟩ := bind_ok h
      cases h
      exact .set (made_escape read)
    · contradiction
    · contradiction
    · contradiction
    · contradiction
    · contradiction
    · cases h
      exact .set (.single _)

theorem made_group {input next : Input} {regex : Regex} (fuel : Nat)
    (h : group fuel input = .ok (regex, next)) : regex.Made := by
  match fuel with
  | 0 => contradiction
  | fuel + 1 =>
    rw [group] at h
    obtain ⟨⟨inner, behind⟩, read, h⟩ := bind_ok h
    dsimp only at h
    split at h
    · contradiction
    · cases h
      exact made_alternation fuel read

end

theorem made_parse {source : String} {regex : Regex} (h : parse source = .ok regex) :
    regex.Made := by
  unfold parse at h
  dsimp only at h
  split at h
  · contradiction
  · next read =>
    split at h
    · cases h
      exact made_alternation _ read
    · contradiction

end Pattern

end IncrementalGlr
