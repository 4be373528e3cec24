import IncrementalGlr.Proofs.Lexical.Ranges

/-!
# What classes denote

The operations on sets add, join and complement what the sets hold. A class is read in pieces, each
an item that stands alone or two items on the sides of a hyphen, and holds the union of its pieces.
Of the item behind a hyphen only the first range counts, and of that only where it starts.
-/

namespace IncrementalGlr

namespace CharSet

variable {set other : CharSet} {ranges : List (Nat × Nat)} {c : Nat}

theorem has_empty : ¬ empty.Has c := by simp [Has, empty]

theorem has_cons {range : Nat × Nat} :
    Has ⟨range :: ranges⟩ c ↔ (range.1 ≤ c ∧ c ≤ range.2) ∨ Has ⟨ranges⟩ c := by
  simp [Has]

theorem has_append {more : List (Nat × Nat)} :
    Has ⟨ranges ++ more⟩ c ↔ Has ⟨ranges⟩ c ∨ Has ⟨more⟩ c := by
  simp [Has, or_and_right, exists_or]

theorem has_foldl_joinRange {done : List (Nat × Nat)}
    (sorted : ranges.Pairwise fun a b => a.1 ≤ b.1)
    (behind : ∀ last ∈ done.head?, ∀ range ∈ ranges, last.1 ≤ range.1) :
    Has ⟨ranges.foldl joinRange done⟩ c ↔ Has ⟨done⟩ c ∨ Has ⟨ranges⟩ c := by
  induction ranges generalizing done with
  | nil => simp [Has]
  | cons range ranges ih =>
    obtain ⟨first, sorted⟩ := List.pairwise_cons.1 sorted
    rw [List.foldl_cons]
    cases done with
    | nil =>
      rw [joinRange, ih sorted (by simpa using first)]
      simp [Has]
    | cons last before =>
      have start : last.1 ≤ range.1 := behind last rfl range (List.mem_cons_self ..)
      rw [joinRange]
      split
      · rw [ih sorted (by simpa using fun a b member => Nat.le_trans start (first (a, b) member)),
          has_cons, has_cons, has_cons]
        grind
      · rw [ih sorted (by simpa using first)]
        simp only [has_cons, or_assoc, or_left_comm]

theorem has_normalize : Has ⟨normalize ranges⟩ c ↔ Has ⟨ranges⟩ c := by
  have sorted : (ranges.mergeSort rangeLe).Pairwise fun a b => a.1 ≤ b.1 := by
    refine (List.pairwise_mergeSort ?_ ?_ ranges).imp fun {a b} le => ?_
    · intro a b c
      simp only [rangeLe, Bool.or_eq_true, Bool.and_eq_true, decide_eq_true_eq, beq_iff_eq]
      omega
    · intro a b
      simp only [rangeLe, Bool.or_eq_true, Bool.and_eq_true, decide_eq_true_eq, beq_iff_eq]
      omega
    · simp only [rangeLe, Bool.or_eq_true, Bool.and_eq_true, decide_eq_true_eq, beq_iff_eq] at le
      omega
  have joined := @has_foldl_joinRange _ c [] sorted (by simp)
  simpa [Has, normalize, List.mem_mergeSort] using joined

theorem has_addSet : (set.addSet other).Has c ↔ set.Has c ∨ other.Has c := by
  rw [addSet, has_normalize, has_append]

theorem has_addRange {low high : Nat} (valid : c ≤ lastCodePoint) :
    (set.addRange low high).Has c ↔ set.Has c ∨ (low ≤ c ∧ c ≤ high) := by
  unfold addRange
  split
  · next none =>
    have : ¬ (low ≤ c ∧ c ≤ high) := by omega
    simp [this]
  · rw [has_normalize, has_append]
    have within : c ≤ min high lastCodePoint ↔ c ≤ high := by omega
    simp [Has, within]

theorem ranges_range {low high : Nat} (ordered : low ≤ high) (valid : high ≤ lastCodePoint) :
    (range low high).ranges = [(low, high)] := by
  simp [range, addRange, empty, normalize, joinRange, Nat.not_lt.2 ordered, Nat.min_eq_left valid]

theorem Ordered.has_gaps {next : Nat} (h : Ordered ⟨ranges⟩) (valid : c ≤ lastCodePoint)
    (above : ∀ range ∈ ranges, next ≤ range.1 ∨ lastCodePoint < range.1) :
    Has ⟨gaps next ranges⟩ c ↔ next ≤ c ∧ ¬ Has ⟨ranges⟩ c := by
  induction ranges generalizing next with
  | nil =>
    rw [gaps]
    split <;> simp [Has] <;> omega
  | cons range ranges ih =>
    obtain ⟨filled, apart⟩ := h
    obtain ⟨behind, apart⟩ := List.pairwise_cons.1 apart
    obtain ⟨own, filled⟩ := List.forall_mem_cons.1 filled
    have start := above range (List.mem_cons_self ..)
    have rest := @ih (range.2 + 1) ⟨filled, apart⟩ fun range member => behind range member
    -- what a later range holds lies behind this one
    have later : Has ⟨ranges⟩ c → range.2 < c := by
      rintro ⟨other, member, low, _⟩
      have := behind other member
      omega
    rw [gaps]
    split <;> simp only [has_cons, rest] <;> grind

theorem Ordered.has_negated (h : set.Ordered) (valid : c ≤ lastCodePoint) :
    set.negated.Has c ↔ ¬ set.Has c := by
  rw [CharSet.negated, Ordered.has_gaps h valid (by simp)]
  simp

end CharSet

namespace Pattern

inductive Piece where
  | item (chars : CharSet)
  | range (low : Nat) (high : CharSet)

def ItemAt (input : Input) (chars : CharSet) (behind : Input) : Prop :=
  ∃ c rest, input.rest = c :: rest ∧ c ≠ ']' ∧ classItem c (input.skip 1) = .ok (chars, behind)

def HyphenAt (input : Input) : Prop :=
  ∃ c rest, input.rest = '-' :: c :: rest ∧ c ≠ ']'

inductive Pieces : Input → List Piece → Input → Prop
  | close {input behind : Input} (bracket : input.eat? ']' = some behind) : Pieces input [] behind
  | item {input next behind : Input} {chars : CharSet} {pieces : List Piece}
      (read : ItemAt input chars next) (alone : chars.onlyMember? = none ∨ ¬ HyphenAt next)
      (rest : Pieces next pieces behind) : Pieces input (.item chars :: pieces) behind
  | range {input hyphen next behind : Input} {chars highItem : CharSet} {low : Nat}
      {pieces : List Piece} (read : ItemAt input chars hyphen)
      (only : chars.onlyMember? = some low) (joined : HyphenAt hyphen)
      (readHigh : ItemAt (hyphen.skip 1) highItem next) (rest : Pieces next pieces behind) :
      Pieces input (.range low highItem :: pieces) behind

def Piece.Covers : Piece → Nat → Prop
  | .item chars, c => chars.Has c
  | .range low high, c => ∃ first ∈ high.ranges.head?, low ≤ c ∧ c ≤ first.1

/-- What a piece stands for: all code points between two single ones, and otherwise each item for
its own code points and the hyphen for itself. -/
def Piece.Denotes : Piece → Nat → Prop
  | .item chars, c => chars.Has c
  | .range low high, c =>
    match high.onlyMember? with
    | some high => low ≤ c ∧ c ≤ high
    | none => c = low ∨ c = '-'.toNat ∨ high.Has c

/-- Nothing but a single code point stands behind the hyphen of a range. -/
def Piece.EndsSingle : Piece → Prop
  | .item _ => True
  | .range _ high => high.onlyMember?.isSome = true

theorem Piece.EndsSingle.covers_iff {piece : Piece} (h : piece.EndsSingle) {c : Nat} :
    piece.Covers c ↔ piece.Denotes c := by
  cases piece with
  | item chars => rfl
  | range low high =>
    obtain ⟨member, only⟩ := Option.isSome_iff_exists.1 h
    simp only [Covers, Denotes, only]
    unfold CharSet.onlyMember? at only
    split at only
    · next first last found =>
      split at only
      · cases only
        simp [found]
      · contradiction
    · contradiction

/-- The digits behind a hyphen count as their first. -/
theorem Piece.covers_range_digits {low c : Nat} :
    Piece.Covers (.range low CharSet.digits) c ↔ low ≤ c ∧ c ≤ '0'.toNat := by
  have digits : CharSet.digits.ranges = [('0'.toNat, '9'.toNat)] :=
    CharSet.ranges_range (by decide) (by decide)
  simp [Covers, digits]

variable {input behind : Input} {set chars : CharSet}

def Piece.addTo (set : CharSet) : Piece → CharSet
  | .item chars => set.addSet chars
  | .range low high => (high.ranges.head?.map fun first => set.addRange low first.1).getD set

theorem Piece.has_addTo {piece : Piece} {c : Nat} (valid : c ≤ lastCodePoint) :
    (piece.addTo set).Has c ↔ set.Has c ∨ piece.Covers c := by
  cases piece with
  | item chars => exact CharSet.has_addSet
  | range low high => cases found : high.ranges.head? <;>
      simp [addTo, Covers, found, CharSet.has_addRange valid]

theorem has_addPieces {pieces : List Piece} {c : Nat} (valid : c ≤ lastCodePoint) :
    (pieces.foldl Piece.addTo set).Has c ↔ set.Has c ∨ ∃ piece ∈ pieces, piece.Covers c := by
  induction pieces generalizing set with
  | nil => simp
  | cons piece pieces ih => simp [ih, Piece.has_addTo valid, or_assoc]

theorem pieces_classItems {fuel : Nat} (h : classItems fuel set input = .ok (chars, behind)) :
    ∃ pieces, Pieces input pieces behind ∧ chars = pieces.foldl Piece.addTo set := by
  induction fuel generalizing set input with
  | zero => contradiction
  | succ fuel ih =>
    rw [classItems] at h
    split at h
    · contradiction
    · next c rest start =>
      dsimp only at h
      split at h
      · next bracket =>
        cases h
        exact ⟨[], .close (by simp [Input.eat?, Input.peek, start, bracket]), rfl⟩
      · next inside =>
        obtain ⟨⟨item, next⟩, read, h⟩ := bind_ok h
        have read : ItemAt input item next := ⟨c, rest, start, inside, read⟩
        have addItem (alone : item.onlyMember? = none ∨ ¬ HyphenAt next)
            (h : classItems fuel (set.addSet item) next = .ok (chars, behind)) :
            ∃ pieces, Pieces input pieces behind ∧ chars = pieces.foldl Piece.addTo set := by
          obtain ⟨pieces, others, rfl⟩ := ih h
          exact ⟨.item item :: pieces, .item read alone others, rfl⟩
        dsimp only at h
        split at h
        · next low second rest only hyphen =>
          split at h
          · next bracket =>
            refine addItem (.inr ?_) h
            rintro ⟨other, _, found, inside⟩
            rw [hyphen] at found
            cases found
            exact inside bracket
          · next inside =>
            obtain ⟨⟨high, after⟩, readHigh, h⟩ := bind_ok h
            have readHigh : ItemAt (next.skip 1) high after :=
              ⟨second, rest, by simp [Input.skip, hyphen], inside,
                by simpa [Input.skip] using readHigh⟩
            dsimp only at h
            split at h
            · contradiction
            · next first last others found =>
              split at h
              · contradiction
              · obtain ⟨pieces, others, rfl⟩ := ih h
                refine ⟨.range low high :: pieces,
                  .range read only ⟨second, rest, hyphen, inside⟩ readHigh others, ?_⟩
                simp [Piece.addTo, found]
        · next apart =>
          refine addItem ?_ h
          cases only : item.onlyMember? with
          | none => exact .inl rfl
          | some low =>
            refine .inr ?_
            rintro ⟨second, rest, hyphen, _⟩
            exact apart low second rest only hyphen

/-- A class holds what its pieces cover, or behind `^` everything else. -/
theorem has_charClass (h : charClass input = .ok (chars, behind)) :
    ∃ pieces, Pieces ((input.eat? '^').getD input) pieces behind ∧ ∀ c ≤ lastCodePoint,
      (chars.Has c ↔ if (input.eat? '^').isSome then ¬ ∃ piece ∈ pieces, piece.Covers c
        else ∃ piece ∈ pieces, piece.Covers c) := by
  obtain ⟨⟨set, rest⟩, read, h⟩ := bind_ok h
  obtain ⟨pieces, written, made⟩ := pieces_classItems read
  have ordered : set.Ordered := (made_classItems .empty read).ordered
  have has : ∀ c ≤ lastCodePoint, set.Has c ↔ ∃ piece ∈ pieces, piece.Covers c := by
    intro c valid
    simp [made, has_addPieces valid, CharSet.has_empty]
  cases h
  refine ⟨pieces, written, fun c valid => ?_⟩
  split
  · rw [ordered.has_negated valid, has c valid]
  · exact has c valid

/-- A class holds what its pieces denote, or behind `^` everything else, if a single code point
stands behind every hyphen of a range. -/
theorem denotes_charClass (h : charClass input = .ok (chars, behind)) :
    ∃ pieces, Pieces ((input.eat? '^').getD input) pieces behind ∧
      ((∀ piece ∈ pieces, piece.EndsSingle) → ∀ c ≤ lastCodePoint,
        (chars.Has c ↔ if (input.eat? '^').isSome then ¬ ∃ piece ∈ pieces, piece.Denotes c
          else ∃ piece ∈ pieces, piece.Denotes c)) := by
  obtain ⟨pieces, written, has⟩ := has_charClass h
  refine ⟨pieces, written, fun single c valid => ?_⟩
  have same : (∃ piece ∈ pieces, piece.Covers c) ↔ ∃ piece ∈ pieces, piece.Denotes c :=
    exists_congr fun piece => and_congr_right fun member => (single piece member).covers_iff
  rw [has c valid, same]

example : ((charClass ⟨['!', '-', '\\', 'd', ']'], 0⟩).toOption.map fun read => read.1.ranges) =
    some [('!'.toNat, '0'.toNat)] := by cbv

example : ((charClass ⟨['\\', 'd', '-', '!', ']'], 0⟩).toOption.map fun read => read.1.ranges) =
    some [('!'.toNat, '!'.toNat), ('-'.toNat, '-'.toNat), ('0'.toNat, '9'.toNat)] := by cbv

end Pattern

end IncrementalGlr
