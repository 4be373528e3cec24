import IncrementalGlr.Proofs.Table.Consistency

/-!
# Written tables are read back

A codec is lawful if it reads back what it wrote, whatever stands behind it, and reads nothing but
what it would write. The codecs of tables are lawful, so that a table that passes its checks is
loaded again from its bytes, and bytes that can be loaded begin with the written form of the table
that they give.

A length is written in 64 bits. A value whose written form has fewer bytes than that can count has
no longer lists or texts in it, so this is all that reading back needs.
-/

namespace IncrementalGlr

@[simp] theorem length_bytesOfNat (width n : Nat) : (bytesOfNat width n).length = width := by
  induction width generalizing n with
  | zero => rfl
  | succ width ih => simp [bytesOfNat, ih]

theorem natOfBytes_cons (byte : UInt8) (bytes : List UInt8) :
    natOfBytes (byte :: bytes) = natOfBytes bytes * 256 + byte.toNat := rfl

theorem natOfBytes_bytesOfNat {width n : Nat} (small : n < Nat.pow 256 width) :
    natOfBytes (bytesOfNat width n) = n := by
  induction width generalizing n with
  | zero =>
    have none : n < 1 := small
    rw [Nat.lt_one_iff.1 none]
    rfl
  | succ width ih =>
    have high : n / 256 < Nat.pow 256 width := Nat.div_lt_of_lt_mul (by
      rwa [Nat.mul_comm])
    rw [bytesOfNat, natOfBytes_cons, ih high, UInt8.toNat_ofNat']
    omega

theorem natOfBytes_lt (bytes : List UInt8) : natOfBytes bytes < Nat.pow 256 bytes.length := by
  induction bytes with
  | nil => exact Nat.one_pos
  | cons byte bytes ih =>
    have low := byte.toNat_lt
    have high : Nat.pow 256 (byte :: bytes).length = Nat.pow 256 bytes.length * 256 := rfl
    rw [natOfBytes_cons, high]
    omega

theorem bytesOfNat_natOfBytes (bytes : List UInt8) :
    bytesOfNat bytes.length (natOfBytes bytes) = bytes := by
  induction bytes with
  | nil => rfl
  | cons byte bytes ih =>
    have low := byte.toNat_lt
    have first : UInt8.ofNat (natOfBytes bytes * 256 + byte.toNat) = byte := by
      apply UInt8.toNat_inj.1
      rw [UInt8.toNat_ofNat']
      omega
    have others : (natOfBytes bytes * 256 + byte.toNat) / 256 = natOfBytes bytes := by omega
    rw [natOfBytes_cons, List.length_cons, bytesOfNat, first, others, ih]

theorem splitBytes?_go (front rest taken : List UInt8) :
    splitBytes?.go front.length (front ++ rest) taken = some (taken.reverse ++ front, rest) := by
  induction front generalizing taken with
  | nil => simp [splitBytes?.go]
  | cons byte front ih => simp [splitBytes?.go, ih]

theorem splitBytes?_append (front rest : List UInt8) :
    splitBytes? front.length (front ++ rest) = some (front, rest) := splitBytes?_go front rest []

theorem splitBytes?_eq_some {count : Nat} {bytes front rest : List UInt8}
    (h : splitBytes? count bytes = some (front, rest)) :
    bytes = front ++ rest ∧ front.length = count := by
  by_cases enough : count ≤ bytes.length
  · have split := splitBytes?_append (bytes.take count) (bytes.drop count)
    rw [List.take_append_drop, List.length_take, Nat.min_eq_left enough, h] at split
    cases split
    simp [enough]
  · have short : ∀ (count : Nat) (bytes taken : List UInt8), bytes.length < count →
        splitBytes?.go count bytes taken = none := by
      intro count bytes
      induction bytes generalizing count with
      | nil =>
        intro taken less
        cases count with
        | zero => simp at less
        | succ count => rfl
      | cons byte bytes ih =>
        intro taken less
        cases count with
        | zero => simp at less
        | succ count => exact ih count _ (Nat.lt_of_succ_lt_succ less)
    rw [splitBytes?, short count bytes [] (Nat.lt_of_not_le enough)] at h
    contradiction

namespace Codec

variable {α β : Type} {codec : Codec α}

def ReadsBack (codec : Codec α) (value : α) : Prop :=
  ∀ rest, codec.read (codec.write value ++ rest) = some (value, rest)

structure Lawful (codec : Codec α) : Prop where
  pos : ∀ value, 0 < (codec.write value).length
  readsBack : ∀ value, (codec.write value).length < UInt64.size → codec.ReadsBack value
  exact : ∀ {bytes value rest}, codec.read bytes = some (value, rest) →
    bytes = codec.write value ++ rest ∧ codec.ReadsBack value

theorem readsBack_nat {width n : Nat} (small : n < Nat.pow 256 width) :
    (nat width).ReadsBack n := by
  intro rest
  have split := splitBytes?_append (bytesOfNat width n) rest
  rw [length_bytesOfNat] at split
  simp [nat, split, natOfBytes_bytesOfNat small]

theorem read_nat_append (width : Nat) {n : Nat} (small : n < Nat.pow 256 width)
    (rest : List UInt8) : (nat width).read (bytesOfNat width n ++ rest) = some (n, rest) :=
  readsBack_nat small rest

theorem exact_nat {width n : Nat} {bytes rest : List UInt8}
    (h : (nat width).read bytes = some (n, rest)) :
    bytes = bytesOfNat width n ++ rest ∧ n < Nat.pow 256 width := by
  obtain ⟨⟨front, behind⟩, split, same⟩ := Option.map_eq_some_iff.1 h
  cases same
  obtain ⟨rfl, rfl⟩ := splitBytes?_eq_some split
  exact ⟨by rw [bytesOfNat_natOfBytes], natOfBytes_lt front⟩

theorem lawful_nat {width : Nat} {of : Nat → β} {back : β → Nat} (pos : 0 < width)
    (small : ∀ value, back value < Nat.pow 256 width) (of_back : ∀ value, of (back value) = value)
    (back_of : ∀ n < Nat.pow 256 width, back (of n) = n) :
    ((nat width).map of back).Lawful := by
  have readsBack : ∀ value, ((nat width).map of back).ReadsBack value := by
    intro value rest
    simp only [map, readsBack_nat (small value) rest, Option.map_some, of_back]
  refine ⟨fun value => ?_, fun value _ => readsBack value, fun {bytes value rest} h => ?_⟩
  · simpa [map, nat] using pos
  · obtain ⟨⟨n, behind⟩, found, same⟩ := Option.map_eq_some_iff.1 h
    cases same
    obtain ⟨rfl, inside⟩ := exact_nat found
    refine ⟨?_, readsBack _⟩
    simp only [map, back_of n inside]
    rfl

theorem Lawful.map (lawful : codec.Lawful) {of : α → β} {back : β → α}
    (of_back : ∀ value, of (back value) = value) (back_of : ∀ value, back (of value) = value) :
    (codec.map of back).Lawful := by
  have readsBack : ∀ value, codec.ReadsBack (back value) →
      (codec.map of back).ReadsBack value := by
    intro value h rest
    simp only [Codec.map, h rest, Option.map_some, of_back]
  refine ⟨fun value => lawful.pos _, fun value small => readsBack value (lawful.readsBack _ small),
    fun {bytes value rest} h => ?_⟩
  obtain ⟨⟨other, behind⟩, found, same⟩ := Option.map_eq_some_iff.1 h
  cases same
  obtain ⟨rfl, back⟩ := lawful.exact found
  rw [← back_of other] at back
  refine ⟨?_, readsBack _ back⟩
  simp only [Codec.map, back_of]

theorem lawful_word16 : word16.Lawful :=
  lawful_nat (by decide) UInt16.toNat_lt (fun value => UInt16.ofNat_toNat)
    fun _ inside => UInt16.toNat_ofNat_of_lt' inside

theorem lawful_word32 : word32.Lawful :=
  lawful_nat (by decide) UInt32.toNat_lt (fun value => UInt32.ofNat_toNat)
    fun _ inside => UInt32.toNat_ofNat_of_lt' inside

theorem lawful_int16 : int16.Lawful :=
  lawful_word16.map Int16.toInt16_toUInt16 UInt16.toUInt16_toInt16

theorem lawful_symbolId : symbolId.Lawful := lawful_word16.map (fun _ => rfl) fun _ => rfl

theorem lawful_stateId : stateId.Lawful := lawful_word16.map (fun _ => rfl) fun _ => rfl

theorem lawful_fieldId : fieldId.Lawful := lawful_word16.map (fun _ => rfl) fun _ => rfl

theorem lawful_productionId : productionId.Lawful := lawful_word16.map (fun _ => rfl) fun _ => rfl

theorem Lawful.pair {first : Codec α} {second : Codec β} (lawful : first.Lawful)
    (lawful' : second.Lawful) : (first.pair second).Lawful := by
  have readsBack : ∀ value, first.ReadsBack value.1 → second.ReadsBack value.2 →
      (first.pair second).ReadsBack value := by
    intro value h h' rest
    simp only [Codec.pair, List.append_assoc, h (second.write value.2 ++ rest), Option.bind_some,
      h' rest, Option.map_some]
  refine ⟨fun value => ?_, fun value small => ?_, fun {bytes value rest} h => ?_⟩
  · have := lawful.pos value.1
    simp only [Codec.pair, List.length_append]
    omega
  · simp only [Codec.pair, List.length_append] at small
    exact readsBack value (lawful.readsBack _ (by omega)) (lawful'.readsBack _ (by omega))
  · obtain ⟨⟨a, behind⟩, found, h⟩ := Option.bind_eq_some_iff.1 h
    obtain ⟨⟨b, behind'⟩, found', same⟩ := Option.map_eq_some_iff.1 h
    cases same
    obtain ⟨rfl, back⟩ := lawful.exact found
    obtain ⟨rfl, back'⟩ := lawful'.exact found'
    exact ⟨by simp [Codec.pair], readsBack (a, b) back back'⟩

theorem lawful_bool : bool.Lawful := by
  have readsBack : ∀ value, bool.ReadsBack value := fun value rest => by cases value <;> rfl
  refine ⟨fun value => Nat.one_pos, fun value _ => readsBack value, fun {bytes value rest} h => ?_⟩
  cases bytes with
  | nil => contradiction
  | cons byte behind =>
    unfold bool at h
    dsimp only at h
    split at h
    · next zero =>
        cases h
        exact ⟨by rw [zero]; rfl, readsBack _⟩
    · split at h
      · next one =>
          cases h
          exact ⟨by rw [one]; rfl, readsBack _⟩
      · contradiction

theorem Lawful.option (lawful : codec.Lawful) : (option codec).Lawful := by
  have readsBack : ∀ value, codec.ReadsBack value → (Codec.option codec).ReadsBack (some value) := by
    intro value h rest
    simp [Codec.option, h rest]
  have absent : (Codec.option codec).ReadsBack none := fun rest => rfl
  refine ⟨fun value => ?_, fun value small => ?_, fun {bytes value rest} h => ?_⟩
  · cases value <;> simp [Codec.option]
  · cases value with
    | none => exact absent
    | some value =>
      simp only [Codec.option, List.length_cons] at small
      exact readsBack value (lawful.readsBack value (by omega))
  · cases bytes with
    | nil => contradiction
    | cons byte behind =>
      unfold Codec.option at h
      dsimp only at h
      split at h
      · next zero =>
          cases h
          exact ⟨by rw [zero]; rfl, absent⟩
      · split at h
        · next one =>
            obtain ⟨⟨inner, behind'⟩, found, same⟩ := Option.map_eq_some_iff.1 h
            cases same
            obtain ⟨rfl, back⟩ := lawful.exact found
            exact ⟨by rw [one]; rfl, readsBack inner back⟩
        · contradiction

theorem readMany_flatMap {values : List α} (back : ∀ value ∈ values, codec.ReadsBack value)
    (rest : List UInt8) (read : List α) :
    codec.readMany values.length (values.flatMap codec.write ++ rest) read
      = some (read.reverse ++ values, rest) := by
  induction values generalizing read with
  | nil => simp [readMany]
  | cons value values ih =>
    have first := back value (List.mem_cons_self ..)
    simp only [List.length_cons, List.flatMap_cons, List.append_assoc, readMany,
      first (values.flatMap codec.write ++ rest)]
    rw [ih fun other member => back other (List.mem_cons_of_mem _ member)]
    simp

theorem exact_readMany (lawful : codec.Lawful) {count : Nat} {bytes rest : List UInt8}
    {read values : List α} (h : codec.readMany count bytes read = some (values, rest)) :
    ∃ new, values = read.reverse ++ new ∧ new.length = count ∧
      bytes = new.flatMap codec.write ++ rest ∧ ∀ value ∈ new, codec.ReadsBack value := by
  induction count generalizing bytes read with
  | zero =>
    cases h
    exact ⟨[], by simp, rfl, rfl, by simp⟩
  | succ count ih =>
    unfold readMany at h
    split at h
    · next value behind found =>
        obtain ⟨rfl, back⟩ := lawful.exact found
        obtain ⟨new, rfl, rfl, rfl, others⟩ := ih h
        refine ⟨value :: new, by simp, rfl, by simp, fun other member => ?_⟩
        rcases List.mem_cons.1 member with rfl | member
        · exact back
        · exact others other member
    · contradiction

theorem length_le_flatMap (lawful : codec.Lawful) (values : List α) :
    values.length ≤ (values.flatMap codec.write).length := by
  induction values with
  | nil => exact Nat.le_refl _
  | cons value values ih =>
    have := lawful.pos value
    simp only [List.length_cons, List.flatMap_cons, List.length_append]
    omega

theorem length_le_of_mem (codec : Codec α) {values : List α} {value : α} (member : value ∈ values) :
    (codec.write value).length ≤ (values.flatMap codec.write).length :=
  (List.sublist_flatten_of_mem (List.mem_map_of_mem member)).length_le

theorem Lawful.list (lawful : codec.Lawful) : (list codec).Lawful := by
  have readsBack : ∀ values : List α, values.length < UInt64.size →
      (∀ value ∈ values, codec.ReadsBack value) → (Codec.list codec).ReadsBack values := by
    intro values short back rest
    have counted := read_nat_append 8 short
    simp only [Codec.list, List.append_assoc, counted, Option.bind_some,
      readMany_flatMap back, List.reverse_nil, List.nil_append]
  refine ⟨fun values => ?_, fun values small => ?_, fun {bytes values rest} h => ?_⟩
  · simp only [Codec.list, List.length_append, length_bytesOfNat]
    omega
  · simp only [Codec.list, List.length_append] at small
    have length := length_le_flatMap lawful values
    refine readsBack values (by omega) fun value member => lawful.readsBack value ?_
    have := length_le_of_mem codec member
    omega
  · obtain ⟨⟨count, behind⟩, found, many⟩ := Option.bind_eq_some_iff.1 h
    obtain ⟨rfl, inside⟩ := exact_nat found
    obtain ⟨new, same, rfl, rfl, back⟩ := exact_readMany lawful many
    rw [List.reverse_nil, List.nil_append] at same
    subst same
    exact ⟨by simp [Codec.list], readsBack values inside back⟩

theorem Lawful.array (lawful : codec.Lawful) : (array codec).Lawful :=
  lawful.list.map (fun _ => rfl) fun _ => rfl

theorem fromUTF8?_toUTF8 (text : String) : String.fromUTF8? text.toUTF8 = some text := by
  unfold String.fromUTF8?
  rw [dif_pos (show text.toUTF8.IsValidUTF8 from text.isValidUTF8)]
  rfl

theorem toUTF8_of_fromUTF8? {bytes : ByteArray} {text : String}
    (h : String.fromUTF8? bytes = some text) : text.toUTF8 = bytes := by
  unfold String.fromUTF8? at h
  split at h
  · cases h
    rfl
  · contradiction

theorem lawful_string : string.Lawful := by
  have readsBack : ∀ text : String, text.utf8ByteSize < UInt64.size →
      string.ReadsBack text := by
    intro text short rest
    have counted := read_nat_append 8 short
    have split : splitBytes? text.utf8ByteSize (text.toUTF8.data.toList ++ rest)
        = some (text.toUTF8.data.toList, rest) := splitBytes?_append _ rest
    have decoded : String.fromUTF8? ⟨text.toUTF8.data.toList.toArray⟩ = some text :=
      fromUTF8?_toUTF8 text
    simp only [string, List.append_assoc, counted, Option.bind_some, split, decoded,
      Option.map_some]
  refine ⟨fun text => ?_, fun text small => ?_, fun {bytes text rest} h => ?_⟩
  · simp only [string, List.length_append, length_bytesOfNat]
    omega
  · refine readsBack text ?_
    simp only [string, List.length_append] at small
    rw [show text.toUTF8.data.toList.length = text.utf8ByteSize from rfl] at small
    omega
  · obtain ⟨⟨count, behind⟩, found, h⟩ := Option.bind_eq_some_iff.1 h
    obtain ⟨⟨front, behind'⟩, split, h⟩ := Option.bind_eq_some_iff.1 h
    obtain ⟨_, decoded, same⟩ := Option.map_eq_some_iff.1 h
    cases same
    obtain ⟨rfl, inside⟩ := exact_nat found
    obtain ⟨rfl, rfl⟩ := splitBytes?_eq_some split
    have front_eq : text.toUTF8.data.toList = front := by rw [toUTF8_of_fromUTF8? decoded]
    have size : text.utf8ByteSize = front.length := congrArg List.length front_eq
    refine ⟨?_, readsBack text (size ▸ inside)⟩
    simp only [string, front_eq, size, List.append_assoc]

theorem lawful_symbolInfo : symbolInfo.Lawful :=
  (lawful_string.pair (lawful_bool.pair (lawful_bool.pair lawful_bool))).map (fun _ => rfl)
    fun _ => rfl

theorem lawful_reduction : reduction.Lawful :=
  lawful_symbolId.pair (lawful_word16.pair (lawful_int16.pair lawful_productionId))

theorem lawful_action : action.Lawful := by
  have shifts : ∀ state, stateId.ReadsBack state → action.ReadsBack (.shift state) := by
    intro state h rest
    have kind := read_nat_append 4 (show 0 < Nat.pow 256 4 by decide)
    simp only [action, List.append_assoc, kind, Option.bind_some, h rest, Option.map_some]
  have reduces : ∀ symbol count precedence production,
      reduction.ReadsBack (symbol, count, precedence, production) →
        action.ReadsBack (.reduce symbol count precedence production) := by
    intro symbol count precedence production h rest
    have kind := read_nat_append 4 (show 1 < Nat.pow 256 4 by decide)
    simp only [action, List.append_assoc, kind, Option.bind_some, h rest, Option.map_some]
  have accepts : action.ReadsBack .accept := fun rest => rfl
  refine ⟨fun value => ?_, fun value small => ?_, fun {bytes value rest} h => ?_⟩
  · cases value with
    | shift state => exact Nat.pos_of_ne_zero (by simp [action])
    | reduce symbol count precedence production => exact Nat.pos_of_ne_zero (by simp [action])
    | accept => simp [action]
  · cases value with
    | shift state =>
      simp only [action, List.length_append] at small
      exact shifts state (lawful_stateId.readsBack state (by omega))
    | reduce symbol count precedence production =>
      simp only [action, List.length_append] at small
      exact reduces _ _ _ _ (lawful_reduction.readsBack _ (by omega))
    | accept => exact accepts
  · obtain ⟨⟨kind, behind⟩, found, decoded⟩ := Option.bind_eq_some_iff.1 h
    obtain ⟨rfl, _⟩ := exact_nat found
    dsimp only at decoded
    split at decoded
    · obtain ⟨⟨state, behind'⟩, found, same⟩ := Option.map_eq_some_iff.1 decoded
      cases same
      obtain ⟨rfl, back⟩ := lawful_stateId.exact found
      exact ⟨by simp [action], shifts state back⟩
    · obtain ⟨⟨value, behind'⟩, found, same⟩ := Option.map_eq_some_iff.1 decoded
      cases same
      obtain ⟨rfl, back⟩ := lawful_reduction.exact found
      exact ⟨by simp [action], reduces _ _ _ _ back⟩
    · cases decoded
      exact ⟨rfl, accepts⟩
    · contradiction

theorem lawful_productionStep : productionStep.Lawful :=
  (lawful_symbolId.option.pair lawful_fieldId.option).map (fun _ => rfl) fun _ => rfl

theorem lawful_production : production.Lawful :=
  (lawful_symbolId.pair (lawful_int16.pair lawful_productionStep.list)).map (fun _ => rfl)
    fun _ => rfl

theorem lawful_lexTransition : lexTransition.Lawful :=
  (lawful_word32.pair (lawful_word32.pair lawful_word32)).map (fun _ => rfl) fun _ => rfl

theorem lawful_lexState : lexState.Lawful :=
  (lawful_lexTransition.array.pair lawful_symbolId.list).map (fun _ => rfl) fun _ => rfl

theorem lawful_keyword : keyword.Lawful :=
  (lawful_string.pair (lawful_symbolId.pair lawful_bool)).map (fun _ => rfl) fun _ => rfl

theorem lawful_table : table.Lawful :=
  (lawful_string.pair <| lawful_symbolInfo.array.pair <| lawful_word16.pair <|
    lawful_word16.pair <| lawful_symbolId.pair <| lawful_string.array.pair <|
    lawful_production.array.pair <| lawful_word16.pair <| lawful_word16.array.pair <|
    lawful_action.list.array.pair <| lawful_stateId.array.pair <| lawful_bool.array.pair <|
    lawful_symbolId.list.pair <| lawful_symbolId.array.pair <| lawful_symbolId.option.pair <|
    lawful_keyword.list.pair <| lawful_lexState.array.pair lawful_word32).map
    (fun _ => rfl) fun _ => rfl

end Codec

end IncrementalGlr
