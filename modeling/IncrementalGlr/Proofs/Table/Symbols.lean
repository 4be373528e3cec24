import IncrementalGlr.Proofs.Grammar.Names
import IncrementalGlr.Proofs.Table.Lowering

/-!
# Symbols and fields of a compiled table

An alias takes the symbol of its name where there is one, and becomes a symbol of its own where
there is none. So the names of the visible symbols stay as different as those of the grammar are.
-/

namespace IncrementalGlr

theorem firstRepeat?_pairwise {α : Type} [BEq α] [LawfulBEq α] {p : α → α → Prop} {xs : List α}
    {x : α} (pairwise : xs.Pairwise p) (h : firstRepeat? xs = some x) : p x x := by
  have repeated : ∀ (xs seen : List α), (seen.reverse ++ xs).Pairwise p →
      firstRepeat?.go xs seen = some x → p x x := by
    intro xs
    induction xs with
    | nil =>
      intro seen _ found
      contradiction
    | cons y rest ih =>
      intro seen pairwise found
      rw [firstRepeat?.go] at found
      split at found
      · next again =>
        cases found
        rw [List.pairwise_append] at pairwise
        exact pairwise.2.2 x (List.mem_reverse.2 (List.contains_iff_mem.1 again)) x
          (List.mem_cons_self ..)
      · exact ih (y :: seen) (by simpa using pairwise) found
  exact repeated xs [] pairwise h

namespace PreparedGrammar

variable {grammar : PreparedGrammar} {twice : String → Prop} {infos symbols : Array SymbolInfo}
  {shown : Alias}

def Alike (twice : String → Prop) (a b : SymbolInfo) : Prop :=
  a.visible = true → b.visible = true → a.name = b.name → a.named = b.named →
    a.named = false ∧ twice a.name

structure DistinctNames (twice : String → Prop) (infos : Array SymbolInfo) : Prop where
  nonempty : 0 < infos.size
  pairwise : (infos.toList.drop 1).Pairwise (Alike twice)

theorem drop_ownSymbols : grammar.ownSymbols.toList.drop 1
    = grammar.terminals.toList.map (fun terminal =>
        ⟨terminal.name, terminal.visible, terminal.named, false⟩)
      ++ grammar.nonterminals.toList.map (fun nonterminal =>
        ⟨nonterminal.name, nonterminal.visible, true, nonterminal.supertype⟩) := by
  simp [ownSymbols]

theorem distinctNames_ownSymbols (named : grammar.Named twice) :
    DistinctNames twice grammar.ownSymbols := by
  have nonempty : 0 < grammar.ownSymbols.size := by
    rw [ownSymbols, Array.append_assoc, Array.size_append]
    exact Nat.lt_add_right _ Nat.zero_lt_one
  refine ⟨nonempty, ?_⟩
  rw [drop_ownSymbols, List.pairwise_append]
  refine ⟨?_, ?_, ?_⟩
  · rw [List.pairwise_map, List.pairwise_iff_getElem]
    intro i j inI inJ before shownA shownB sameName sameKind
    rcases named.tokens i j _ _ (by simp) (by simp) shownA shownB sameName sameKind
      with same | again
    · exact absurd same (Nat.ne_of_lt before)
    · exact again
  · rw [List.pairwise_map, List.pairwise_iff_getElem]
    intro i j inI inJ before shownA shownB sameName _
    have same := named.rules i j _ _ (by simp) (by simp) shownA shownB sameName
    exact absurd same (Nat.ne_of_lt before)
  · intro a inTerminals b inNonterminals shownA shownB sameName sameKind
    obtain ⟨terminal, member, rfl⟩ := List.mem_map.1 inTerminals
    obtain ⟨nonterminal, member', rfl⟩ := List.mem_map.1 inNonterminals
    obtain ⟨i, atI⟩ := Array.getElem?_of_mem (Array.mem_toList_iff.1 member)
    obtain ⟨j, atJ⟩ := Array.getElem?_of_mem (Array.mem_toList_iff.1 member')
    exact absurd sameName (named.apart i j _ _ atI atJ shownA shownB sameKind)

theorem distinctNames_addAlias (distinct : DistinctNames twice infos)
    (h : addAlias infos shown = .ok symbols) : DistinctNames twice symbols := by
  unfold addAlias at h
  split at h
  · obtain ⟨_, _, h⟩ := bind_ok h
    cases h
    exact distinct
  · next absent =>
    obtain ⟨_, _, h⟩ := bind_ok h
    cases h
    refine ⟨by simp, ?_⟩
    have behind : 1 ≤ infos.toList.length := Nat.succ_le_of_lt distinct.nonempty
    rw [Array.toList_push, List.drop_append_of_le_length behind, List.pairwise_append]
    refine ⟨distinct.pairwise, List.pairwise_singleton .., ?_⟩
    intro a member b last shownA _ sameName sameKind
    cases List.mem_singleton.1 last
    rw [aliasPlace?, Option.map_eq_none_iff, List.findIdx?_eq_none_iff] at absent
    simpa [shownA, sameName, sameKind] using absent a member

theorem distinctNames_symbols (named : grammar.Named twice) (h : grammar.symbols = .ok symbols) :
    DistinctNames twice symbols :=
  foldlM_keeps (fun _ _ _ _ distinct ran => distinctNames_addAlias distinct ran)
    (distinctNames_ownSymbols named) h

theorem DistinctNames.redeclared (distinct : DistinctNames twice infos) {key : String × Bool}
    (h : firstRepeat? (((infos.toList.drop 1).filter (·.visible)).map
      fun info => (info.name, info.named)) = some key) : twice key.1 := by
  have keys : (((infos.toList.drop 1).filter (·.visible)).map
      fun info => (info.name, info.named)).Pairwise fun a b => a = b → twice a.1 := by
    rw [List.pairwise_map, List.pairwise_filter]
    refine distinct.pairwise.imp fun alike shownA shownB same => ?_
    exact (alike shownA shownB (congrArg Prod.fst same) (congrArg Prod.snd same)).2
  exact firstRepeat?_pairwise keys h rfl

theorem aliasPlace?_spec {place : Nat} (h : aliasPlace? infos shown = some place) :
    0 < place ∧ place < infos.size := by
  obtain ⟨i, found, rfl⟩ := Option.map_eq_some_iff.1 h
  have inside := (List.findIdx?_eq_some_iff_findIdx_eq.1 found).1
  rw [List.length_drop, Array.length_toList] at inside
  omega

theorem visible_of_aliasPlace? {place : Nat} (h : aliasPlace? infos shown = some place) :
    ∃ info, infos[place]? = some info ∧ info.visible = true := by
  obtain ⟨i, found, rfl⟩ := Option.map_eq_some_iff.1 h
  obtain ⟨inside, same, _⟩ := List.findIdx?_eq_some_iff_getElem.1 found
  rw [List.getElem_drop, Bool.and_eq_true, Bool.and_eq_true] at same
  rw [List.length_drop, Array.length_toList] at inside
  refine ⟨infos[i + 1], Array.getElem?_eq_getElem (by omega), ?_⟩
  simpa [Nat.add_comm] using same.1.1

theorem firstRepeat?_fieldNames : firstRepeat? grammar.fieldNames = none := by
  have nodup : grammar.fieldNames.Nodup :=
    (List.mergeSort_perm _ _).nodup_iff.2 (nodup_eraseDups _)
  cases found : firstRepeat? grammar.fieldNames with
  | none => rfl
  | some name => exact absurd rfl (firstRepeat?_pairwise nodup found)

end PreparedGrammar

end IncrementalGlr
