import IncrementalGlr.Parse.Engine
import IncrementalGlr.Proofs.Parse.StackStates

/-!
# Classes of versions

Versions that will do the same form a class. At the end of a round one version of each class is
kept, and none of its class beats it. If there are too many classes, the best are kept.
-/

namespace IncrementalGlr

namespace Rank

variable {a b c : Rank}

theorem beats_iff {rank other : Rank} : rank.beats other = true ↔
    rank.errorCost < other.errorCost ∨
      rank.errorCost = other.errorCost ∧ other.dynamicPrecedence < rank.dynamicPrecedence := by
  rw [beats, Bool.or_eq_true, Bool.and_eq_true, decide_eq_true_iff, beq_iff_eq,
    decide_eq_true_iff]

theorem not_beats_self (rank : Rank) : ¬ rank.beats rank = true := by
  rw [beats_iff]
  omega

theorem not_beats_of_beats (h : a.beats b = true) : ¬ b.beats a = true := by
  rw [beats_iff] at h ⊢
  omega

theorem not_beats_trans (h : ¬ a.beats b = true) (h' : ¬ b.beats c = true) :
    ¬ a.beats c = true := by
  rw [beats_iff] at h h' ⊢
  omega

end Rank

structure Version.Matches (version other : Version) : Prop where
  position : version.stack.position = other.stack.position
  states : version.stack.states = other.stack.states

theorem Version.Matches.symm {version other : Version} (h : version.Matches other) :
    other.Matches version := ⟨h.position.symm, h.states.symm⟩

namespace Engine

variable {version v w : Version} {versions classes done kept : List Version}
  {same other : Version → Version → Prop}

theorem best?_cons (version : Version) (versions : List Version) :
    ∃ best, best? (version :: versions) = some best ∧ best ∈ version :: versions ∧
      ∀ v ∈ version :: versions, ¬ v.stack.rank.beats best.stack.rank = true := by
  -- What the walk has passed by stays beaten by the best that it goes on with.
  suffices walk : ∀ best : Version, ∃ last, versions.foldl
      (fun best version =>
        if best.all fun other : Version => version.stack.rank.beats other.stack.rank then
          some version
        else best) (some best) = some last ∧ last ∈ best :: versions ∧
      ∀ v ∈ best :: versions, ¬ v.stack.rank.beats last.stack.rank = true from walk version
  induction versions with
  | nil => exact fun best => ⟨best, rfl, List.mem_singleton_self _, by simp [Rank.not_beats_self]⟩
  | cons first versions ih =>
    intro best
    rw [List.foldl_cons, Option.all_some]
    split
    · next better =>
      obtain ⟨last, found, member, least⟩ := ih first
      refine ⟨last, found, List.mem_cons_of_mem _ member, fun v there => ?_⟩
      rcases List.mem_cons.1 there with rfl | there
      · exact Rank.not_beats_trans (Rank.not_beats_of_beats better)
          (least first (List.mem_cons_self ..))
      · exact least v there
    · next worse =>
      obtain ⟨last, found, member, least⟩ := ih best
      have first' := Rank.not_beats_trans worse (least best (List.mem_cons_self ..))
      simp only [List.mem_cons, forall_eq_or_imp] at member least ⊢
      exact ⟨last, found, member.imp_right .inr, least.1, first', least.2⟩

theorem best?_spec (h : best? versions = some version) : version ∈ versions ∧
    ∀ v ∈ versions, ¬ v.stack.rank.beats version.stack.rank = true := by
  cases versions with
  | nil => contradiction
  | cons first versions =>
    obtain ⟨best, found, spec⟩ := best?_cons first versions
    cases h.symm.trans found
    exact spec

theorem mem_of_best? (h : best? versions = some version) : version ∈ versions := (best?_spec h).1

theorem best?_eq_none (h : best? versions = none) : versions = [] := by
  cases versions with
  | nil => rfl
  | cons version versions =>
    obtain ⟨best, found, _⟩ := best?_cons version versions
    cases h.symm.trans found

structure Represents (same : Version → Version → Prop) (classes versions : List Version) :
    Prop where
  distinct : classes.Pairwise fun version other => ¬ same version other
  known : ∀ version ∈ classes, version ∈ versions
  each : ∀ version ∈ versions, ∃ kept ∈ classes, same kept version ∧
    ¬ version.stack.rank.beats kept.stack.rank = true

theorem Represents.congr (h : Represents same classes versions)
    (iff : ∀ v ∈ versions, ∀ w ∈ versions, same v w ↔ other v w) :
    Represents other classes versions where
  distinct := h.distinct.imp_of_mem fun first second different =>
    mt (iff _ (h.known _ first) _ (h.known _ second)).2 different
  known := h.known
  each version member := by
    obtain ⟨kept, there, stands, better⟩ := h.each version member
    exact ⟨kept, there, (iff kept (h.known kept there) version member).1 stands, better⟩

theorem isDuplicate_iff : isDuplicate v w = true ↔ v.state = w.state ∧
    v.stack.position.bytes = w.stack.position.bytes ∧ v.stack.states = w.stack.states := by
  rw [isDuplicate, Bool.and_eq_true, Bool.and_eq_true, beq_iff_eq, beq_iff_eq,
    Stack.sameStates_iff, and_assoc]

theorem equivalence_isDuplicate : Equivalence fun v w => isDuplicate v w = true where
  refl v := isDuplicate_iff.2 ⟨rfl, rfl, rfl⟩
  symm h := by
    obtain ⟨state, position, states⟩ := isDuplicate_iff.1 h
    exact isDuplicate_iff.2 ⟨state.symm, position.symm, states.symm⟩
  trans h h' := by
    obtain ⟨state, position, states⟩ := isDuplicate_iff.1 h
    obtain ⟨state', position', states'⟩ := isDuplicate_iff.1 h'
    exact isDuplicate_iff.2 ⟨state.trans state', position.trans position', states.trans states'⟩

theorem mem_mergeInto (member : v ∈ mergeInto kept version) : v = version ∨ v ∈ kept := by
  induction kept with
  | nil => exact .inl (List.mem_singleton.1 member)
  | cons first kept ih =>
    unfold mergeInto at member
    split at member
    · rcases List.mem_cons.1 member with rfl | member
      · split
        · exact .inl rfl
        · exact .inr (List.mem_cons_self ..)
      · exact .inr (List.mem_cons_of_mem _ member)
    · rcases List.mem_cons.1 member with rfl | member
      · exact .inr (List.mem_cons_self ..)
      · exact (ih member).imp_right (List.mem_cons_of_mem _)

theorem pairwise_mergeInto (distinct : kept.Pairwise fun v w => ¬ isDuplicate v w = true)
    (version : Version) :
    (mergeInto kept version).Pairwise fun v w => ¬ isDuplicate v w = true := by
  have eqv := equivalence_isDuplicate
  induction kept with
  | nil => exact List.pairwise_singleton _ _
  | cons first kept ih =>
    obtain ⟨others, distinct⟩ := List.pairwise_cons.1 distinct
    rw [mergeInto]
    split
    · next duplicate =>
      refine List.pairwise_cons.2 ⟨fun v member => ?_, distinct⟩
      split
      · exact fun same => others v member (eqv.trans duplicate same)
      · exact others v member
    · next different =>
      refine List.pairwise_cons.2 ⟨fun v member => ?_, ih distinct⟩
      rcases mem_mergeInto member with rfl | old
      · exact different
      · exact others v old

theorem exists_mergeInto_self (kept : List Version) (version : Version) :
    ∃ v ∈ mergeInto kept version, isDuplicate v version = true ∧
      ¬ version.stack.rank.beats v.stack.rank = true := by
  have eqv := equivalence_isDuplicate
  induction kept with
  | nil => exact ⟨version, List.mem_singleton_self _, eqv.refl _, Rank.not_beats_self _⟩
  | cons first kept ih =>
    rw [mergeInto]
    split
    · next duplicate =>
      refine ⟨_, List.mem_cons_self .., ?_⟩
      split
      · exact ⟨eqv.refl _, Rank.not_beats_self _⟩
      · next worse => exact ⟨duplicate, worse⟩
    · obtain ⟨v, member, spec⟩ := ih
      exact ⟨v, List.mem_cons_of_mem _ member, spec⟩

theorem exists_mergeInto (member : v ∈ kept) (version : Version) :
    ∃ w ∈ mergeInto kept version, isDuplicate w v = true ∧
      ¬ v.stack.rank.beats w.stack.rank = true := by
  have eqv := equivalence_isDuplicate
  induction kept with
  | nil => contradiction
  | cons first kept ih =>
    rw [mergeInto]
    split
    · next duplicate =>
      rcases List.mem_cons.1 member with rfl | member
      · refine ⟨_, List.mem_cons_self .., ?_⟩
        split
        · next better => exact ⟨eqv.symm duplicate, Rank.not_beats_of_beats better⟩
        · exact ⟨eqv.refl _, Rank.not_beats_self _⟩
      · exact ⟨v, List.mem_cons_of_mem _ member, eqv.refl _, Rank.not_beats_self _⟩
    · rcases List.mem_cons.1 member with rfl | member
      · exact ⟨v, List.mem_cons_self .., eqv.refl _, Rank.not_beats_self _⟩
      · obtain ⟨w, there, spec⟩ := ih member
        exact ⟨w, List.mem_cons_of_mem _ there, spec⟩

theorem represents_mergeInto (h : Represents (fun v w => isDuplicate v w = true) kept done)
    (version : Version) :
    Represents (fun v w => isDuplicate v w = true) (mergeInto kept version) (done ++ [version]) where
  distinct := pairwise_mergeInto h.distinct version
  known v member := by
    rcases mem_mergeInto member with rfl | old
    · exact List.mem_append_right _ (List.mem_singleton_self _)
    · exact List.mem_append_left _ (h.known v old)
  each v member := by
    rcases List.mem_append.1 member with old | new
    · obtain ⟨w, there, same, better⟩ := h.each v old
      obtain ⟨u, found, same', better'⟩ := exists_mergeInto there version
      exact ⟨u, found, equivalence_isDuplicate.trans same' same,
        Rank.not_beats_trans better better'⟩
    · rw [List.mem_singleton.1 new]
      exact exists_mergeInto_self kept version

theorem represents_merged (versions : List Version) :
    Represents (fun v w => isDuplicate v w = true) (versions.foldl mergeInto []) versions := by
  suffices walk : ∀ done kept, Represents (fun v w => isDuplicate v w = true) kept done →
      Represents (fun v w => isDuplicate v w = true) (versions.foldl mergeInto kept)
        (done ++ versions) from
    walk [] [] ⟨.nil, fun _ => id, fun _ absent => absurd absent List.not_mem_nil⟩
  induction versions with
  | nil =>
    intro done kept h
    rwa [List.append_nil]
  | cons version versions ih =>
    intro done kept h
    simpa using ih _ _ (represents_mergeInto h version)

theorem Represents.exists_best (h : Represents same classes versions) (nonempty : versions ≠ []) :
    ∃ kept ∈ classes, ∀ v ∈ versions, ¬ v.stack.rank.beats kept.stack.rank = true := by
  obtain ⟨first, rest, rfl⟩ := List.exists_cons_of_ne_nil nonempty
  obtain ⟨best, _, member, least⟩ := best?_cons first rest
  obtain ⟨kept, there, _, better⟩ := h.each best member
  exact ⟨kept, there, fun v known => Rank.not_beats_trans (least v known) better⟩

def sorted (versions : List Version) : List Version :=
  versions.mergeSort fun a b => !b.stack.rank.beats a.stack.rank

theorem perm_sorted (versions : List Version) : (sorted versions).Perm versions :=
  List.mergeSort_perm ..

theorem condense_eq (input : ParseInput) (versions : List Version) :
    condense input versions =
      if (versions.foldl mergeInto []).length > input.options.maxVersions then
        (sorted (versions.foldl mergeInto [])).take (max input.options.maxVersions 1)
      else versions.foldl mergeInto [] := rfl

theorem mem_of_mem_condense {input : ParseInput} (member : v ∈ condense input versions) :
    v ∈ versions := by
  apply (represents_merged versions).known
  rw [condense_eq] at member
  split at member
  · exact (perm_sorted _).mem_iff.1 (List.mem_of_mem_take member)
  · exact member

theorem condense_ne_nil {input : ParseInput} (nonempty : versions ≠ []) :
    condense input versions ≠ [] := by
  obtain ⟨kept, there, _⟩ := (represents_merged versions).exists_best nonempty
  have positive := List.length_pos_of_mem there
  rw [← List.length_pos_iff, condense_eq]
  split
  · rw [List.length_take, (perm_sorted _).length_eq]
    omega
  · exact positive

theorem mem_condense_of_room {input : ParseInput}
    (room : (versions.foldl mergeInto []).length ≤ max input.options.maxVersions 1)
    (member : v ∈ versions.foldl mergeInto []) : v ∈ condense input versions := by
  rw [condense_eq]
  split
  · rw [List.take_of_length_le (by rwa [(perm_sorted _).length_eq])]
    exact (perm_sorted _).mem_iff.2 member
  · exact member

end Engine

end IncrementalGlr
