import IncrementalGlr.Proofs.Table.Codec
import IncrementalGlr.Scan.Rules

/-!
# Loading of written tables

`Language.load` and `Table.toBytes` undo each other: a table that passes its checks is loaded from
its written form, and what is loaded has its own written form at the front of the payload. Bytes
behind that form are ignored, so the two are not inverse functions on bytes.
-/

namespace IncrementalGlr

namespace Table

variable {table : Table}

theorem length_magic : magic.length = 4 := rfl

theorem take_toBytes : table.toBytes.take 4 = magic := by
  simp only [toBytes, List.append_assoc]
  exact List.take_left' length_magic

theorem drop_toBytes : table.toBytes.drop 4 = bytesOfNat 2 formatVersion.toNat ++
    (bytesOfNat 8 (Checksum.ofBytes table.payload).toNat ++ table.payload) := by
  simp only [toBytes, List.append_assoc]
  exact List.drop_left' length_magic

theorem version_toBytes : (table.toBytes.drop 4).take 2 = bytesOfNat 2 formatVersion.toNat := by
  rw [drop_toBytes]
  exact List.take_left' (length_bytesOfNat ..)

theorem checksum_toBytes :
    (table.toBytes.drop 6).take 8 = bytesOfNat 8 (Checksum.ofBytes table.payload).toNat := by
  rw [← List.drop_drop (i := 2) (j := 4), drop_toBytes, List.drop_left' (length_bytesOfNat ..)]
  exact List.take_left' (length_bytesOfNat ..)

theorem payload_toBytes : table.toBytes.drop headerSize = table.payload := by
  simp only [toBytes]
  apply List.drop_left'
  simp [headerSize, length_magic]

theorem length_toBytes : table.toBytes.length = headerSize + table.payload.length := by
  simp [toBytes, headerSize, length_magic]
  omega

end Table

namespace Language

variable {table : Table} {bytes : List UInt8} {version : UInt16} {scanner : Option Scanner}
  {stamp : Nat} {language : Language}

theorem exists_build (checked : table.check = .ok ())
    (scans : 0 < table.externalTokens.size → scanner.isSome = true) :
    ∃ language, build table version scanner stamp = .ok language ∧ language.version = version ∧
      language.table = table := by
  have supplied : (decide (table.externalTokens.size > 0) && scanner.isNone) = false := by
    by_cases declares : 0 < table.externalTokens.size
    · cases scanner with
      | none => exact absurd (scans declares) (by simp)
      | some scanner => simp
    · simp [declares]
  unfold build
  rw [checked, supplied]
  exact ⟨_, rfl, rfl, rfl⟩

theorem load_toBytes (short : table.payload.length < UInt64.size) :
    load table.toBytes scanner stamp = build table Table.formatVersion scanner stamp := by
  have decoded : Codec.table.read table.payload = some (table, []) := by
    have back := Codec.lawful_table.readsBack table short []
    rwa [List.append_nil] at back
  have enough : ¬ table.toBytes.length < Table.headerSize := by
    rw [Table.length_toBytes]
    omega
  have supported : ¬ Table.formatVersion < Table.oldestVersion := by decide
  have version : UInt16.ofNat (natOfBytes (bytesOfNat 2 Table.formatVersion.toNat))
      = Table.formatVersion := rfl
  have checksum : UInt64.ofNat (natOfBytes (bytesOfNat 8 (Checksum.ofBytes table.payload).toNat))
      = Checksum.ofBytes table.payload := by
    rw [natOfBytes_bytesOfNat (UInt64.toNat_lt _), UInt64.ofNat_toNat]
  unfold load
  simp only [enough, Table.take_toBytes, Table.version_toBytes, version, Table.checksum_toBytes,
    checksum, Table.payload_toBytes, decoded]
  simp [supported]

theorem load_ok (h : load bytes scanner stamp = .ok language) :
    ∃ trailing version, Codec.table.read (bytes.drop Table.headerSize)
        = some (language.table, trailing) ∧
      build language.table version scanner stamp = .ok language := by
  unfold load at h
  dsimp only at h
  split at h
  · contradiction
  · split at h
    · contradiction
    · split at h
      · contradiction
      · split at h
        · contradiction
        · split at h
          · contradiction
          · next table trailing decoded =>
            obtain ⟨_, rfl, _⟩ := build_ok h
            exact ⟨trailing, _, decoded, h⟩

theorem payload_of_load (h : load bytes scanner stamp = .ok language) :
    (∃ trailing, bytes.drop Table.headerSize = language.table.payload ++ trailing) ∧
      Codec.table.ReadsBack language.table := by
  obtain ⟨trailing, _, decoded, _⟩ := load_ok h
  obtain ⟨split, back⟩ := Codec.lawful_table.exact decoded
  exact ⟨⟨trailing, split⟩, back⟩

/-- The format goes round in both directions. A table that passes its checks is loaded from its
written form, bytes that can be loaded have the written form of their table behind the header, and
the written form of one table does not stand there in bytes of another. A written form has fewer
bytes than a 64-bit length can count, as every sequence of bytes in memory has. -/
theorem load_written :
    (∀ (table : Table) (scanner : Option Scanner) (stamp : Nat), table.check = .ok () →
        (0 < table.externalTokens.size → scanner.isSome = true) →
        table.toBytes.length < UInt64.size →
        ∃ language, load table.toBytes scanner stamp = .ok language ∧ language.version = 1 ∧
          language.table = table) ∧
      (∀ bytes scanner stamp language, load bytes scanner stamp = .ok language →
        ∃ trailing, bytes.drop Table.headerSize = language.table.payload ++ trailing) ∧
      ∀ bytes bytes' scanner scanner' stamp stamp' language language',
        load bytes scanner stamp = .ok language → load bytes' scanner' stamp' = .ok language' →
        language.table ≠ language'.table →
        ¬ language.table.payload <+: bytes'.drop Table.headerSize := by
  refine ⟨?_, ?_, ?_⟩
  · intro table scanner stamp checked scans short
    have shorter : table.payload.length < UInt64.size := by
      rw [Table.length_toBytes] at short
      omega
    rw [load_toBytes shorter]
    exact exists_build checked scans
  · intro bytes scanner stamp language loaded
    exact (payload_of_load loaded).1
  · rintro bytes bytes' scanner scanner' stamp stamp' language language' loaded loaded' differ
      ⟨behind, front⟩
    obtain ⟨⟨trailing, split⟩, back⟩ := payload_of_load loaded'
    have one := (payload_of_load loaded).2 behind
    have other := back trailing
    -- Both tables are read from the front of the same bytes.
    have same : Codec.table.write language.table ++ behind
        = Codec.table.write language'.table ++ trailing := front.trans split
    rw [same, other] at one
    exact differ (congrArg Prod.fst (Option.some.inj one)).symm

/-- The table of `s → "let" word group`: words are of lower-case letters, `let` is reserved, a group
is left to a scanner, the word is seen by another name, and there may be spaces. -/
def bindingTable : Table where
  name := "bindings"
  symbols := #[⟨"end", false, true, false⟩, ⟨"word", true, true, false⟩,
    ⟨"let", true, false, false⟩, ⟨" ", false, true, false⟩, ⟨"group", true, true, false⟩,
    ⟨"s", true, true, false⟩, ⟨"name", true, true, false⟩]
  terminalCount := 5
  ruleCount := 1
  startSymbol := ⟨5⟩
  fieldNames := #["name", "value"]
  productions := #[⟨⟨5⟩, -1, [⟨none, none⟩, ⟨some ⟨6⟩, some ⟨0⟩⟩, ⟨none, some ⟨1⟩⟩]⟩]
  stateCount := 5
  actionIndex := #[0, 0, 1, 0, 0, 0, 2, 0, 0, 0, 0, 0, 0, 0, 3, 4, 0, 0, 0, 0, 5, 0, 0, 0, 0]
  actionLists := #[[], [.shift ⟨1⟩], [.shift ⟨2⟩], [.shift ⟨3⟩], [.reduce ⟨5⟩ 3 (-1) ⟨0⟩],
    [.accept]]
  gotos := #[⟨4⟩] ++ Array.replicate 4 StateId.none
  allowsExtras := Array.replicate 5 true
  extras := [⟨3⟩]
  externalTokens := #[⟨4⟩]
  wordToken := some ⟨1⟩
  keywords := [⟨"let", ⟨2⟩, true⟩]
  lexStates := #[⟨#[⟨32, 32, 2⟩, ⟨97, 122, 1⟩], []⟩, ⟨#[⟨97, 122, 1⟩], [⟨1⟩]⟩, ⟨#[], [⟨3⟩]⟩]
  lexStart := 0

/-- It is loaded from its written form, and its written form is not that of the same table under
another name. -/
theorem load_written_bindings :
    let scanner := some (Scanner.ofRules [])
    ∃ language other, load bindingTable.toBytes scanner 0 = .ok language ∧ language.version = 1 ∧
      language.table = bindingTable ∧
      (∃ trailing, bindingTable.toBytes.drop Table.headerSize = bindingTable.payload ++ trailing) ∧
      load { bindingTable with name := "nothing" }.toBytes scanner 0 = .ok other ∧
      ¬ bindingTable.payload <+:
        { bindingTable with name := "nothing" }.toBytes.drop Table.headerSize := by
  intro scanner
  have checked : bindingTable.check = .ok () := ok_of_toOption (by decide +kernel)
  have checked' : { bindingTable with name := "nothing" }.check = .ok () :=
    ok_of_toOption (by decide +kernel)
  obtain ⟨loads, front, apart⟩ := load_written
  obtain ⟨language, loaded, version, table⟩ :=
    loads bindingTable scanner 0 checked (fun _ => rfl) (by decide +kernel)
  obtain ⟨other, loaded', _, table'⟩ :=
    loads _ scanner 0 checked' (fun _ => rfl) (by decide +kernel)
  have differ : language.table ≠ other.table := by
    rw [table, table']
    decide
  have behind := front _ scanner 0 language loaded
  have missing := apart _ _ scanner scanner 0 0 language other loaded loaded' differ
  rw [table] at behind missing
  exact ⟨language, other, loaded, version, table, behind, loaded', missing⟩

end Language

end IncrementalGlr
