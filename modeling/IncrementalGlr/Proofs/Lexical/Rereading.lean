import IncrementalGlr.Proofs.Lexical.Printing

/-!
# Patterns of expressions are read back

The text of every expression is read by the function that reads such texts, up to what follows it:
code points and bounds as numbers, sets as classes, what is part of something as a class or a group,
and everything else as a choice. What follows must not go on with what was read: a part is not
followed by a quantifier, a sequence is followed by a bar or a parenthesis, and a choice by a
parenthesis.
-/

namespace IncrementalGlr.Pattern

open Regex

theorem digitValue?_digitChar {base digit : Nat} (small : digit < base) (most : base ≤ 16) :
    digitValue? base (Nat.digitChar digit) = some digit := by
  have known : ∀ digit < 16, digitValue? 16 (Nat.digitChar digit) = some digit := by decide
  have found := known digit (Nat.lt_of_lt_of_le small most)
  unfold digitValue? at found ⊢
  obtain ⟨value, valued, within⟩ := Option.bind_eq_some_iff.1 found
  refine Option.bind_eq_some_iff.2 ⟨value, valued, ?_⟩
  split at within
  · cases within
    exact if_pos small
  · contradiction

theorem mem_toDigits {base n : Nat} {c : Char} (several : 1 < base)
    (h : c ∈ Nat.toDigits base n) : ∃ digit < base, c = Nat.digitChar digit := by
  induction n using Nat.strongRecOn with
  | ind n ih =>
    rw [Nat.toDigits_eq_if several] at h
    split at h
    · next small => exact ⟨n, small, List.mem_singleton.1 h⟩
    · rcases List.mem_append.1 h with front | last
      · exact ih (n / base) (Nat.div_lt_self (by omega) several) front
      · exact ⟨n % base, Nat.mod_lt _ (by omega), List.mem_singleton.1 last⟩

theorem number?_toDigits {base n : Nat} (several : 1 < base) (most : base ≤ 16)
    (word : n < UInt32.size) : number? base (Nat.toDigits base n) = some n := by
  have folded : ∀ n, (Nat.toDigits base n).foldl
      (fun value c => value.bind fun value =>
        (digitValue? base c).map fun digit => value * base + digit) (some 0) = some n := by
    intro n
    induction n using Nat.strongRecOn with
    | ind n ih =>
      rw [Nat.toDigits_eq_if several]
      split
      · next small => simp [digitValue?_digitChar small most]
      · rw [List.foldl_append, ih (n / base) (Nat.div_lt_self (by omega) several)]
        simp [digitValue?_digitChar (Nat.mod_lt n (by omega)) most, Nat.div_add_mod']
  have signed : ∀ rest, Nat.toDigits base n ≠ '+' :: rest := by
    intro rest found
    obtain ⟨digit, small, same⟩ := mem_toDigits several (found ▸ List.mem_cons_self ..)
    have valued := digitValue?_digitChar small most
    rw [← same] at valued
    contradiction
  unfold number?
  split
  · next found => exact absurd found (signed _)
  · simp [Nat.toDigits_ne_nil, folded n, word]

theorem takeWhile_toDigits {base n : Nat} {p : Char → Bool} {stop : Char} {rest : List Char}
    (several : 1 < base) (digits : ∀ digit < base, p (Nat.digitChar digit) = true)
    (stops : p stop = false) :
    (Nat.toDigits base n ++ stop :: rest).takeWhile p = Nat.toDigits base n := by
  rw [List.takeWhile_append_of_pos, List.takeWhile_cons_of_neg (by simp [stops]), List.append_nil]
  intro c member
  obtain ⟨digit, small, rfl⟩ := mem_toDigits several member
  exact digits digit small

variable {rest : List Char} {offset : Nat}

theorem escape_printCodePoint {inClass : Bool} {c : Nat} (word : c < UInt32.size) :
    escape inClass ⟨(printCodePoint c).tail ++ rest, offset⟩ =
      .ok (CharSet.range c c, ⟨rest, offset + (printCodePoint c).tail.length⟩) := by
  have digits : (Nat.toDigits 16 c ++ '\x7d' :: rest).takeWhile
      (fun c => (digitValue? 16 c).isSome) = Nat.toDigits 16 c :=
    takeWhile_toDigits (by decide) (by decide) (by decide)
  have number := number?_toDigits (by decide : 1 < 16) (by decide) word
  simp only [printCodePoint, List.cons_append, List.append_assoc, List.nil_append, List.tail_cons]
  simp [escape, bracedHex, Input.eat?, Input.peek, Input.skip, digits, number]
  omega

theorem classItem_printCodePoint {c : Nat} (word : c < UInt32.size) :
    classItem '\\' ⟨(printCodePoint c).tail ++ rest, offset⟩ =
      .ok (CharSet.range c c, ⟨rest, offset + (printCodePoint c).tail.length⟩) := by
  rw [classItem, if_pos rfl, escape_printCodePoint word]

theorem classItems_printRange {fuel : Nat} {set : CharSet} {range : Nat × Nat}
    (ordered : range.1 ≤ range.2) (within : range.2 ≤ lastCodePoint) :
    classItems (fuel + 1) set ⟨printRange range ++ rest, offset⟩ =
      classItems fuel (set.addRange range.1 range.2)
        ⟨rest, offset + (printRange range).length⟩ := by
  have last : lastCodePoint < UInt32.size := by decide
  have low (rest : List Char) (offset : Nat) :=
    @classItem_printCodePoint rest offset range.1 (by omega)
  have high (rest : List Char) (offset : Nat) :=
    @classItem_printCodePoint rest offset range.2 (by omega)
  have written (c : Nat) : printCodePoint c = '\\' :: (printCodePoint c).tail := rfl
  have first : (CharSet.range range.1 range.1).onlyMember? = some range.1 := by
    simp [CharSet.onlyMember?, CharSet.ranges_range (Nat.le_refl _) (Nat.le_trans ordered within)]
  have second : (CharSet.range range.2 range.2).ranges = [(range.2, range.2)] :=
    CharSet.ranges_range (Nat.le_refl _) within
  rw [classItems, printRange, written range.1, written range.2]
  simp [Input.skip, low, high, first, second, Nat.not_lt.2 ordered, bind, Except.bind]
  grind

theorem classItems_printSet {fuel : Nat} {set : CharSet} {ranges : List (Nat × Nat)}
    (enough : ranges.length < fuel)
    (within : ∀ range ∈ ranges, range.1 ≤ range.2 ∧ range.2 ≤ lastCodePoint) :
    classItems fuel set ⟨ranges.flatMap printRange ++ ']' :: rest, offset⟩ =
      .ok (ranges.foldl (fun read range => read.addRange range.1 range.2) set,
        ⟨rest, offset + (ranges.flatMap printRange).length + 1⟩) := by
  induction ranges generalizing fuel set offset with
  | nil =>
    cases fuel with
    | zero => contradiction
    | succ fuel => simp [classItems, Input.skip]
  | cons range ranges ih =>
    cases fuel with
    | zero => contradiction
    | succ fuel =>
      obtain ⟨⟨ordered, inside⟩, within⟩ := List.forall_mem_cons.1 within
      rw [List.flatMap_cons, List.append_assoc, classItems_printRange ordered inside,
        ih (Nat.lt_of_succ_lt_succ enough) within, List.foldl_cons, List.length_append,
        Nat.add_assoc offset]

theorem length_le_flatMap_printRange (ranges : List (Nat × Nat)) :
    ranges.length ≤ (ranges.flatMap printRange).length := by
  induction ranges with
  | nil => exact Nat.zero_le _
  | cons range ranges ih =>
    simp only [List.length_cons, List.flatMap_cons, List.length_append, printRange]
    omega

theorem charClass_printSet {set : CharSet}
    (within : ∀ range ∈ set.ranges, range.1 ≤ range.2 ∧ range.2 ≤ lastCodePoint) :
    charClass ⟨(printSet set).tail ++ rest, offset⟩ =
      .ok (rereadSet set, ⟨rest, offset + (printSet set).tail.length⟩) := by
  have plain :
      (⟨set.ranges.flatMap printRange ++ ']' :: rest, offset⟩ : Input).eat? '^' = none := by
    cases set.ranges <;> simp [Input.eat?, Input.peek, printRange, printCodePoint]
  have enough := length_le_flatMap_printRange set.ranges
  have tail : (printSet set).tail ++ rest = set.ranges.flatMap printRange ++ ']' :: rest := by
    simp [printSet]
  rw [tail, charClass, plain]
  dsimp only [Option.getD_none]
  rw [classItems_printSet (by rw [List.length_append]; omega) within]
  simp [printSet, rereadSet, bind, Except.bind, pure, Except.pure, Nat.add_assoc]

theorem decimal?_toDigits {n : Nat} {stop : Char} (word : n < UInt32.size)
    (stops : ('0' ≤ stop && stop ≤ '9') = false) :
    decimal? ⟨Nat.toDigits 10 n ++ stop :: rest, offset⟩ =
      some (n, ⟨stop :: rest, offset + (Nat.toDigits 10 n).length⟩) := by
  have digits : (Nat.toDigits 10 n ++ stop :: rest).takeWhile (fun c => '0' ≤ c && c ≤ '9') =
      Nat.toDigits 10 n := takeWhile_toDigits (by decide) (by decide) stops
  have number := number?_toDigits (by decide : 1 < 10) (by decide) word
  simp [decimal?, digits, number, Input.skip]

theorem bounds?_printBounds {low : Nat} {high : Option Nat} (word : low < UInt32.size)
    (words : ∀ bound ∈ high, bound < UInt32.size) :
    bounds? ⟨(printBounds low high).tail ++ rest, offset⟩ =
      some (low, high, ⟨rest, offset + (printBounds low high).tail.length⟩) := by
  have first (rest : List Char) (offset : Nat) :=
    @decimal?_toDigits rest offset low ',' word (by decide)
  cases high with
  | none =>
    simp [printBounds, bounds?, first, Input.eat?, Input.peek, Input.skip]
    omega
  | some bound =>
    have second (rest : List Char) (offset : Nat) :=
      @decimal?_toDigits rest offset bound '\x7d' (words bound rfl) (by decide)
    have digit : (Nat.toDigits 10 bound).head?.getD '\x7d' ≠ '\x7d' := by
      obtain ⟨c, digits, written⟩ := List.exists_cons_of_ne_nil (@Nat.toDigits_ne_nil bound 10)
      obtain ⟨digit, small, rfl⟩ :=
        mem_toDigits (by decide : 1 < 10) (written ▸ List.mem_cons_self ..)
      rw [written]
      exact (by decide : ∀ digit < 10, Nat.digitChar digit ≠ '\x7d') digit small
    simp [printBounds, bounds?, first, second, digit, Input.eat?, Input.peek, Input.skip]
    omega

def Plain (rest : List Char) : Prop := ∀ c ∈ rest.head?, c ∉ ['*', '+', '?', '\x7b']

theorem quantified_plain {regex : Regex} (plain : Plain rest) :
    quantified regex ⟨rest, offset⟩ = .ok (regex, ⟨rest, offset⟩) := by
  have none : quantifier? ⟨rest, offset⟩ = none := by
    unfold quantifier?
    split
    all_goals first
      | rfl
      | next found =>
        have := plain _ found
        simp at this
  rw [quantified, none]

theorem quantified_printBounds {regex : Regex} {low : Nat} {high : Option Nat}
    (word : low < UInt32.size) (bounds : ∀ bound ∈ high, low ≤ bound ∧ bound < UInt32.size)
    (plain : Plain rest) : quantified regex ⟨printBounds low high ++ rest, offset⟩ =
      .ok (.repetition regex low high, ⟨rest, offset + (printBounds low high).length⟩) := by
  have read : quantifier? ⟨printBounds low high ++ rest, offset⟩ =
      some (low, high, ⟨rest, offset + (printBounds low high).length⟩) := by
    have written : printBounds low high = '\x7b' :: (printBounds low high).tail := rfl
    have read := @bounds?_printBounds rest (offset + 1) low high word fun b m => (bounds b m).2
    rw [written, List.cons_append, quantifier?]
    simp only [Input.peek, List.head?_cons, Input.skip, List.drop_one, List.tail_cons, read,
      List.length_cons]
    grind
  have eager : rest.head? ≠ some '?' := fun found => by simpa using plain _ found
  have ordered : high.any (· < low) = false := by
    cases high with
    | none => rfl
    | some bound => simpa using (bounds bound rfl).1
  rw [quantified, read]
  simp [Input.peek, eager, ordered]

def Stops (rest : List Char) : Prop := ∀ c ∈ rest.head?, c = '|' ∨ c = ')'

def Ends (rest : List Char) : Prop := ∀ c ∈ rest.head?, c = ')'

theorem Ends.stops (h : Ends rest) : Stops rest := fun c first => .inr (h c first)

theorem Stops.plain (h : Stops rest) : Plain rest := by
  intro c first
  rcases h c first with rfl | rfl <;> decide

theorem exists_part (regex : Regex) :
    ∃ c text, regex.part = c :: text ∧ (c = '[' ∨ c = '(') := by
  cases regex with
  | set chars => exact ⟨_, _, by rw [part, enclose, print, printSet, List.cons_append], .inl rfl⟩
  | _ => exact ⟨_, _, rfl, .inr rfl⟩

theorem plain_part (regex : Regex) : Plain (regex.part ++ rest) := by
  obtain ⟨first, text, written, bracket⟩ := exists_part regex
  intro c found
  rw [written] at found
  cases found
  rcases bracket with rfl | rfl <;> decide

def Reads (regex : Regex) : Prop :=
  ∀ fuel rest offset, 5 * regex.print.length + 3 ≤ fuel → Ends rest →
    alternation fuel ⟨regex.print ++ rest, offset⟩ =
      .ok (regex.reread, ⟨rest, offset + regex.print.length⟩)

def ReadsPart (regex : Regex) : Prop :=
  ∀ fuel c text rest offset, regex.part = c :: text → 5 * (text.length + 1) ≤ fuel →
    atom fuel c ⟨text ++ rest, offset⟩ = .ok (regex.reread, ⟨rest, offset + text.length⟩)

theorem readsPart_set {set : CharSet}
    (within : ∀ range ∈ set.ranges, range.1 ≤ range.2 ∧ range.2 ≤ lastCodePoint) :
    ReadsPart (.set set) := by
  intro fuel c text rest offset written enough
  obtain ⟨fuel, rfl⟩ : ∃ less, fuel = less + 1 := ⟨fuel - 1, by omega⟩
  have opened : part (.set set) = '[' :: (printSet set).tail := rfl
  rw [opened] at written
  cases written
  rw [atom, charClass_printSet within]
  rfl

theorem readsPart_group {regex : Regex} (reads : Reads regex)
    (grouped : regex.part = '(' :: '?' :: ':' :: (regex.print ++ [')'])) :
    ReadsPart regex := by
  intro fuel c text rest offset written enough
  rw [grouped] at written
  cases written
  simp only [List.length_append, List.length_cons, List.length_nil] at enough
  obtain ⟨fuel, rfl⟩ : ∃ less, fuel = less + 2 := ⟨fuel - 2, by omega⟩
  have read := reads fuel (')' :: rest) (offset + 1 + 1) (by omega) (by simp [Ends])
  rw [atom]
  simp only [Input.eat?, Input.peek, Input.skip, List.cons_append, List.append_assoc,
    List.nil_append, List.head?_cons, if_true, List.drop_one, List.tail_cons, group, read]
  simp [bind, Except.bind, pure, Except.pure, List.length_append]
  omega

theorem readsPart_of_writable {regex : Regex} (h : regex.Writable) (reads : Reads regex) :
    ReadsPart regex := by
  cases h with
  | set _ within => exact readsPart_set within
  | _ => exact readsPart_group reads rfl

/-! ### Sequences -/

theorem sequence_stop {fuel : Nat} (stops : Stops rest) :
    sequence (fuel + 1) ⟨rest, offset⟩ = .ok ([], ⟨rest, offset⟩) := by
  rw [sequence]
  cases rest with
  | nil => rfl
  | cons c rest =>
    rcases stops c rfl with rfl | rfl <;> rfl

theorem sequence_part {regex : Regex} {fuel : Nat} (reads : ReadsPart regex)
    (enough : 5 * regex.part.length ≤ fuel) :
    sequence (fuel + 1) ⟨regex.part ++ rest, offset⟩ = (do
      let (item, input) ← quantified regex.reread
        ⟨rest, offset + regex.part.length⟩
      let (items, input) ← sequence fuel input
      return (item :: items, input)) := by
  obtain ⟨c, text, written, bracket⟩ := exists_part regex
  have read := reads fuel c text rest (offset + 1) written
  have same : offset + 1 + text.length = offset + (c :: text).length := by
    rw [List.length_cons, Nat.add_right_comm, Nat.add_assoc]
  rw [written] at enough ⊢
  have inside : (decide (c = '|') || decide (c = ')')) = false := by
    rcases bracket with rfl | rfl <;> rfl
  rw [sequence]
  simp only [Input.peek, List.cons_append, List.head?_cons, inside, Input.skip, List.drop_one,
    List.tail_cons, read enough, same]
  rfl

theorem sequence_printSeq {items : List Regex} {fuel : Nat}
    (reads : ∀ item ∈ items, ReadsPart item) (enough : 5 * (printSeq items).length + 1 ≤ fuel)
    (stops : Stops rest) : sequence fuel ⟨printSeq items ++ rest, offset⟩ =
      .ok (rereadAll items, ⟨rest, offset + (printSeq items).length⟩) := by
  obtain ⟨fuel, rfl⟩ : ∃ less, fuel = less + 1 := ⟨fuel - 1, by omega⟩
  induction items generalizing fuel offset with
  | nil => exact sequence_stop stops
  | cons item items ih =>
    obtain ⟨first, others⟩ := List.forall_mem_cons.1 reads
    have plain : Plain (printSeq items ++ rest) := by
      cases items with
      | nil => exact stops.plain
      | cons next items =>
        rw [printSeq_cons, List.append_assoc]
        exact plain_part next
    have part : 0 < item.part.length := by
      obtain ⟨c, text, written, _⟩ := exists_part item
      rw [written]
      exact Nat.succ_pos _
    rw [printSeq_cons, List.length_append] at enough
    obtain ⟨fuel, rfl⟩ : ∃ less, fuel = less + 1 := ⟨fuel - 1, by omega⟩
    rw [printSeq_cons, List.append_assoc, sequence_part first (by omega), quantified_plain plain]
    simp [bind, Except.bind, pure, Except.pure, ih others fuel (by omega), rereadAll,
      Nat.add_assoc]

theorem sequence_alone {regex : Regex} {fuel : Nat} (reads : ReadsPart regex)
    (enough : 5 * regex.part.length + 1 ≤ fuel) (stops : Stops rest) :
    sequence fuel ⟨regex.part ++ rest, offset⟩ =
      .ok ([regex.reread], ⟨rest, offset + regex.part.length⟩) := by
  rw [← printSeq_singleton] at enough ⊢
  rw [sequence_printSeq (by simpa using reads) enough stops, rereadAll, rereadAll]

/-! ### Choices -/

theorem eat?_bar_of_ends (ends : Ends rest) : (⟨rest, offset⟩ : Input).eat? '|' = none := by
  refine if_neg fun found => ?_
  have := ends _ found
  contradiction

theorem alternation_sequence {fuel : Nat} {input : Input} {items : List Regex}
    (read : sequence fuel input = .ok (items, ⟨rest, offset⟩)) (ends : Ends rest) :
    alternation (fuel + 2) input = .ok (seqOf items, ⟨rest, offset⟩) := by
  simp [alternation, alternatives, read, eat?_bar_of_ends ends, altOf, bind, Except.bind, pure,
    Except.pure]

theorem alternatives_printAlternatives {choices : List Regex} {fuel : Nat}
    (filled : choices ≠ []) (reads : ∀ choice ∈ choices, ReadsPart choice)
    (enough : 5 * (printAlternatives choices).length + 2 ≤ fuel) (ends : Ends rest) :
    alternatives fuel ⟨printAlternatives choices ++ rest, offset⟩ =
      .ok (rereadAll choices, ⟨rest, offset + (printAlternatives choices).length⟩) := by
  obtain ⟨fuel, rfl⟩ : ∃ less, fuel = less + 1 := ⟨fuel - 1, by omega⟩
  induction choices generalizing fuel offset with
  | nil => contradiction
  | cons choice choices ih =>
    obtain ⟨first, others⟩ := List.forall_mem_cons.1 reads
    cases choices with
    | nil =>
      rw [printAlternatives_singleton] at enough ⊢
      rw [alternatives, sequence_alone first (by omega) ends.stops]
      simp [bind, Except.bind, pure, Except.pure, eat?_bar_of_ends ends, rereadAll, seqOf]
    | cons next choices =>
      have more : next :: choices ≠ [] := List.cons_ne_nil _ _
      have bar : Stops ('|' :: (printAlternatives (next :: choices) ++ rest)) := by simp [Stops]
      rw [printAlternatives_cons more] at enough ⊢
      rw [List.length_append, List.length_cons] at enough
      obtain ⟨fuel, rfl⟩ : ∃ less, fuel = less + 1 := ⟨fuel - 1, by omega⟩
      rw [List.append_assoc, List.cons_append, alternatives,
        sequence_alone first (by omega) bar]
      have read (offset : Nat) := @ih offset more others fuel (by omega)
      simp [Input.eat?, Input.peek, Input.skip, bind, Except.bind, pure, Except.pure, read,
        rereadAll, seqOf, Nat.add_assoc, Nat.add_comm 1]

/-! ### Whole patterns -/

theorem reads_of_writable {regex : Regex} (h : regex.Writable) : Reads regex := by
  induction h with
  | empty =>
    intro fuel rest offset enough ends
    obtain ⟨fuel, rfl⟩ : ∃ less, fuel = less + 3 := ⟨fuel - 3, by omega⟩
    exact alternation_sequence (sequence_stop ends.stops) ends
  | @set chars made within =>
    intro fuel rest offset enough ends
    obtain ⟨fuel, rfl⟩ : ∃ less, fuel = less + 2 := ⟨fuel - 2, by omega⟩
    have whole : print (.set chars) = part (.set chars) := rfl
    rw [whole] at enough ⊢
    exact alternation_sequence
      (sequence_alone (readsPart_set within) (by omega) ends.stops) ends
  | @seq items items' ih =>
    intro fuel rest offset enough ends
    obtain ⟨fuel, rfl⟩ : ∃ less, fuel = less + 2 := ⟨fuel - 2, by omega⟩
    rw [print] at enough ⊢
    have parts : ∀ item ∈ items, ReadsPart item := fun item member =>
      readsPart_of_writable (items' item member) (ih item member)
    exact alternation_sequence (sequence_printSeq parts (by omega) ends.stops) ends
  | @alt choices filled choices' ih =>
    intro fuel rest offset enough ends
    obtain ⟨fuel, rfl⟩ : ∃ less, fuel = less + 1 := ⟨fuel - 1, by omega⟩
    rw [print] at enough ⊢
    have parts : ∀ choice ∈ choices, ReadsPart choice := fun choice member =>
      readsPart_of_writable (choices' choice member) (ih choice member)
    rw [alternation, alternatives_printAlternatives filled parts (by omega) ends]
    rfl
  | @repetition inner low high inner' word bounds ih =>
    intro fuel rest offset enough ends
    have counted : 0 < (printBounds low high).length := Nat.succ_pos _
    have whole : print (.repetition inner low high) = inner.part ++ printBounds low high := rfl
    rw [whole, List.length_append] at enough
    obtain ⟨fuel, rfl⟩ : ∃ less, fuel = less + 4 := ⟨fuel - 4, by omega⟩
    refine @alternation_sequence rest _ (fuel + 2) _ [.repetition inner.reread low high] ?_ ends
    rw [whole, List.append_assoc, sequence_part (readsPart_of_writable inner' ih) (by omega),
      quantified_printBounds word bounds ends.stops.plain]
    simp [bind, Except.bind, pure, Except.pure, sequence_stop ends.stops,
      Nat.add_assoc]

/-- An expression is written as a pattern that reads back as one that matches the same texts. -/
theorem matches_of_print {regex : Regex} (h : regex.Writable) :
    ∃ read, parse (String.ofList regex.print) = .ok read ∧
      ∀ text, read.matches text = regex.matches text := by
  have reading : parse (String.ofList regex.print) = .ok regex.reread := by
    have read := reads_of_writable h (fuelFor ⟨regex.print, 0⟩) [] 0
      (by simp only [fuelFor]; omega) (by simp [Ends])
    rw [List.append_nil] at read
    simp [parse, read]
  refine ⟨regex.reread, reading, fun text => ?_⟩
  rw [Bool.eq_iff_iff, Regex.matches_iff (made_parse reading), Regex.matches_iff h.made,
    language_reread]

def digitsOrOther : Regex :=
  .alt [.repetition (.seq [.set CharSet.digits, .empty]) 2 (some 5),
    .seq [.alt [.set (CharSet.single '\n').negated], .repetition (.set CharSet.empty) 0 none]]

theorem writable_digitsOrOther : digitsOrOther.Writable := by
  have digits : Writable (.set CharSet.digits) := by
    refine .set CharSet.made_digits ?_
    rw [CharSet.digits, CharSet.ranges_range (by decide) (by decide)]
    decide
  have other : Writable (.set (CharSet.single '\n').negated) :=
    .set (.negated (.single _)) (by decide)
  have nothing : Writable (.set CharSet.empty) := .set .empty (by decide)
  have counted : Writable (.repetition (.seq [.set CharSet.digits, .empty]) 2 (some 5)) :=
    .repetition (.seq (by simpa using ⟨digits, .empty⟩)) (by decide) (by decide)
  have alone : Writable (.alt [.set (CharSet.single '\n').negated]) :=
    .alt (List.cons_ne_nil _ _) (by simpa using other)
  have rest : Writable (.repetition (.set CharSet.empty) 0 none) :=
    .repetition nothing (by decide) (by decide)
  have followed : Writable (.seq [.alt [.set (CharSet.single '\n').negated],
      .repetition (.set CharSet.empty) 0 none]) :=
    .seq (by simpa using ⟨alone, rest⟩)
  exact .alt (List.cons_ne_nil _ _) (by simpa using ⟨counted, followed⟩)

theorem matches_of_print_digitsOrOther : digitsOrOther.Writable ∧
    ∃ read, parse (String.ofList digitsOrOther.print) = .ok read ∧
      ∀ text, read.matches text = digitsOrOther.matches text :=
  ⟨writable_digitsOrOther, matches_of_print writable_digitsOrOther⟩

end IncrementalGlr.Pattern
