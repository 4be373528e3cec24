import IncrementalGlr.Proofs.Parse.Classes
import IncrementalGlr.Proofs.Parse.Recovery
import IncrementalGlr.Proofs.Parse.Reuse
import IncrementalGlr.Parse.Parser

/-!
# Parses lose no text

Every step of the engine keeps all versions at places of the text, so that a parse that ends gives a
tree of all of it.
-/

namespace IncrementalGlr

/-- All versions are at places of the text, and a root covers all of it. -/
structure Engine.Fits (engine : Engine) (table : Table) (text : List Char) : Prop where
  passed : ∀ entry ∈ engine.passed, entry.2.Fits table text
  waiting : ∀ version ∈ engine.waiting, version.Fits table text
  reuse : ∀ cursor ∈ engine.reuse, cursor.Fits table text
  finished : ∀ root ∈ engine.finished, root.IsRootOf table text

namespace Engine

variable {engine : Engine} {input : ParseInput} {version : Version} {rest : List Version}
  {table : Table} {pre post text : List Char}

theorem finish_eq (engine : Engine) (root : Subtree) :
    ∃ finished, engine.finish root = { engine with finished := some finished } ∧
      (finished = root ∨ finished ∈ engine.finished) := by
  unfold finish
  split
  · exact ⟨root, rfl, .inl rfl⟩
  · next beaten =>
      cases found : engine.finished with
      | none => simp [found] at beaten
      | some other =>
        refine ⟨other, ?_, .inr rfl⟩
        rw [← found]

theorem Fits.settle (h : engine.Fits table text) {outcome : Outcome}
    (here : version.Fits table text) (others : ∀ other ∈ rest, other.Fits table text) :
    (engine.settle outcome version rest).Fits table text := by
  refine ⟨?_, others, h.reuse, h.finished⟩
  intro entry member
  rcases List.mem_append.1 member with member | member
  · exact h.passed entry member
  · rw [List.mem_singleton.1 member]
    exact here

theorem Fits.proceed (h : engine.Fits table text) (here : version.Fits table text)
    (others : ∀ other ∈ rest, other.Fits table text) :
    (engine.proceed version rest).Fits table text := by
  refine ⟨h.passed, ?_, h.reuse, h.finished⟩
  intro other member
  rcases List.mem_cons.1 member with rfl | member
  · exact here
  · exact others other member

theorem Fits.finish (h : engine.Fits table text) {root : Subtree}
    (covers : root.IsRootOf table text) : (engine.finish root).Fits table text := by
  unfold Engine.finish
  split
  · refine ⟨h.passed, h.waiting, h.reuse, ?_⟩
    intro other found
    cases found
    exact covers
  · exact h

theorem Fits.withReuse (h : engine.Fits table text) {reuse : Option ReuseCursor}
    (fits : ∀ cursor ∈ reuse, cursor.Fits table text) (stats : ReuseStats)
    (blockedAt : Option Nat) : ({ engine with reuse, stats, blockedAt } : Engine).Fits table text :=
  ⟨h.passed, h.waiting, fits, h.finished⟩

theorem fits_fork (engine : Engine) (input : ParseInput) (whole : text = pre ++ post)
    (here : version.Spells table pre post)
    (others : ∀ other ∈ rest, other.Fits table text) {pushed : List Stack}
    (spells : ∀ stack ∈ pushed, stack.Spells table pre post) :
    ∀ other ∈ engine.fork input version pushed rest, other.Fits table text := by
  intro other member
  rcases List.mem_append.1 member with member | member
  · exact others other member
  · obtain ⟨stack, taken, rfl⟩ := List.mem_map.1 member
    exact ⟨pre, post, whole, spells stack (List.mem_of_mem_take taken), here.lookahead⟩

theorem Fits.takeOver (h : engine.Fits table text) {tree : Subtree} {next : StateId}
    {mode : Option LexModeId} (shifted : (version.shift tree next).Fits table text)
    (others : ∀ other ∈ rest, other.Fits table text) :
    (engine.takeOver version rest tree next mode).Fits table text := by
  refine (h.withReuse ?_ _ engine.blockedAt).settle ?_ others
  · intro cursor found
    obtain ⟨before, here, rfl⟩ := Option.map_eq_some_iff.1 found
    exact ReuseCursor.fits_advance (h.reuse before here)
  · obtain ⟨first, second, whole, spells⟩ := shifted
    exact ⟨first, second, whole, spells.stack, spells.lookahead⟩

theorem Fits.turnDown (h : engine.Fits table text) (whole : text = pre ++ post)
    (here : version.stack.Spells table pre post)
    (others : ∀ other ∈ rest, other.Fits table text) :
    (engine.turnDown version rest).Fits table text := by
  have proceeded : (engine.proceed { version with lookahead := none } rest).Fits table text :=
    h.proceed ⟨pre, post, whole, here, fun _ found => nomatch found⟩ others
  unfold Engine.turnDown
  dsimp only
  split
  · next cursor found =>
      refine proceeded.withReuse ?_ _ _
      intro other same
      cases same
      obtain ⟨before, there, down⟩ := Option.bind_eq_some_iff.1 found
      exact ReuseCursor.fits_descend? (h.reuse before there) down
  · exact proceeded.withReuse h.reuse _ _

theorem offer_spec (h : engine.Fits input.language.table input.source.text.toList)
    (whole : input.source.text.toList = pre ++ post)
    (here : version.stack.Spells input.language.table pre post) (mode : LexModeId) :
    (∀ tree ∈ (engine.offer input version mode).1,
      (Lookahead.reused tree).Stands input.language.table post) ∧
    ∀ cursor ∈ (engine.offer input version mode).2,
      cursor.Fits input.language.table input.source.text.toList := by
  unfold offer
  dsimp only
  split
  · split
    · next cursor found =>
        obtain ⟨fits, offered⟩ := ReuseCursor.search_spec (h.reuse cursor found)
          version.stack.position.bytes
          (isReusable input mode (input.scannerState version.stack))
        refine ⟨?_, fun other same => Option.some.inj same ▸ fits⟩
        intro tree offer
        obtain ⟨reusable, start, place, first, own, behind, cut, rfl, spells, sound⟩ :=
          offered tree offer
        rw [here.position] at place
        obtain ⟨rfl, rfl⟩ := cut_unique (whole.symm.trans cut) place.symm
        simp only [isReusable, Bool.and_eq_true, Bool.not_eq_true'] at reusable
        obtain ⟨⟨⟨⟨⟨⟨⟨unchanged, _⟩, _⟩, nonempty⟩, _⟩, _⟩, _⟩, _⟩ := reusable
        have settled := sound.settled unchanged
        refine ⟨own, behind, rfl, spells, settled, ?_⟩
        intro isEnd
        obtain ⟨rfl, _⟩ := spells.eq_nil_of_firstLeaf settled.clean.firstLeaf.here isEnd
        rw [spells.size] at nonempty
        contradiction
    · exact ⟨fun _ found => (nomatch found), fun _ found => (nomatch found)⟩
  · exact ⟨fun _ found => (nomatch found), h.reuse⟩

section Steps

variable (consistent : input.language.table.Consistent)
  (h : engine.Fits input.language.table input.source.text.toList)
  (others : ∀ other ∈ rest, other.Fits input.language.table input.source.text.toList)
  (whole : input.source.text.toList = pre ++ post)

include consistent h others whole

theorem fits_look (here : version.Spells input.language.table pre post) :
    (engine.look input version rest).Fits input.language.table input.source.text.toList := by
  obtain ⟨offered, cursor⟩ := offer_spec h whole here.stack (version.nextLexMode input.language)
  have moved := h.withReuse cursor engine.stats engine.blockedAt
  refine moved.proceed ⟨pre, post, whole, here.stack, ?_⟩ others
  intro lookahead found
  cases found
  split
  · next tree found => exact offered tree found
  · exact ParseInput.covers_lex consistent whole here.stack _

theorem fits_act (here : version.Spells input.language.table pre post) {lookahead : Lookahead}
    (stands : lookahead.Stands input.language.table post) {actions : List Action}
    (last : (∃ action ∈ actions, action.isAccept = true) → post = []) :
    (engine.act input version rest lookahead actions).Fits input.language.table
      input.source.text.toList := by
  have fits : version.Fits input.language.table input.source.text.toList :=
    ⟨pre, post, whole, here⟩
  unfold act
  dsimp only
  generalize reductions : (actions.filterMap Action.reduction?).filterMap _ = reduced
  have spells : ∀ stack ∈ reduced, stack.Spells input.language.table pre post := by
    intro stack member
    rw [← reductions] at member
    obtain ⟨⟨symbol, childCount, production⟩, _, done⟩ := List.mem_filterMap.1 member
    exact ParseInput.spells_reduce consistent here.stack done
  split
  · next accepts =>
      have none := last (List.any_eq_true.1 accepts)
      subst none
      have root := ParseInput.isRootOf_root consistent here.stack
      rw [List.append_nil] at whole
      rw [← whole] at root
      exact (h.finish root).settle fits others
  · split
    · exact h.settle fits others
    · split
      · have forked := fits_fork engine input whole here others spells
        split
        · exact h.settle
            (Version.fits_shift_leaf input.language whole here.stack stands _ _ _) forked
        · obtain ⟨own, behind, rfl, tree, settled, _⟩ := stands
          refine h.takeOver (Version.fits_shift whole here.stack ?_ ?_ _) forked
          · exact (tree.modify rfl rfl rfl).modify rfl rfl rfl
          · exact (settled.withParseState _).withExtra _
      · split
        · next first more =>
            have forked := fits_fork engine input whole here others
              fun stack member => spells stack (List.mem_cons_of_mem _ member)
            have goesOn : ({ version with stack := first } : Version).Fits input.language.table
                input.source.text.toList :=
              ⟨pre, post, whole, spells first (List.mem_cons_self ..), here.lookahead⟩
            exact Fits.proceed ⟨h.passed, h.waiting, h.reuse, h.finished⟩ goesOn forked
        · exact h.settle fits others

theorem fits_advanceToken (here : version.Spells input.language.table pre post) {token : Token}
    (covers : token.Covers input.language.table post) :
    (engine.advanceToken input version rest token).Fits input.language.table
      input.source.text.toList := by
  unfold advanceToken
  dsimp only
  split
  · split
    · exact h.settle (Version.fits_shift_leaf input.language whole here.stack covers _ _ _) others
    · split
      · refine h.proceed ⟨pre, post, whole, here.stack, ?_⟩ others
        intro lookahead found
        cases found
        exact ParseInput.covers_lex consistent whole here.stack _
      · exact h.settle ⟨pre, post, whole, here⟩ others
  · have stands : (Lookahead.token token).Stands input.language.table post := covers
    refine fits_act consistent h others whole here stands ?_
    rintro ⟨action, member, accepts⟩
    exact covers.last (beq_iff_eq.2 (consistent.eq_end_of_accept member accepts))

theorem fits_advanceReused (here : version.Spells input.language.table pre post) {tree : Subtree}
    (stands : (Lookahead.reused tree).Stands input.language.table post) :
    (engine.advanceReused input version rest tree).Fits input.language.table
      input.source.text.toList := by
  have down := h.turnDown whole here.stack others
  have offered := stands
  obtain ⟨own, behind, cut, spells, settled, notEnd⟩ := offered
  subst cut
  unfold advanceReused
  dsimp only
  split
  · split
    · refine h.takeOver (Version.fits_shift whole here.stack ?_ ?_ _) others
      · exact (spells.modify rfl rfl rfl).modify rfl rfl rfl
      · exact (settled.withParseState _).withExtra _
    · exact down
  · next action only =>
      split
      · split
        · exact h.takeOver (Version.fits_shift whole here.stack spells settled _) others
        · exact down
      · refine fits_act consistent h others whole here stands ?_
        rintro ⟨other, member, accepts⟩
        rw [← only] at member
        exact absurd (consistent.eq_end_of_accept member accepts) notEnd
  · exact down

theorem fits_advance (here : version.Spells input.language.table pre post) :
    (engine.advance input version rest).Fits input.language.table input.source.text.toList := by
  unfold advance
  split
  · exact fits_look consistent h others whole here
  · next token found =>
      exact fits_advanceToken consistent h others whole here (here.lookahead _ found)
  · next tree found =>
      exact fits_advanceReused consistent h others whole here (here.lookahead _ found)

end Steps

theorem survivors_spec (consistent : input.language.table.Consistent)
    (h : engine.Fits input.language.table input.source.text.toList) :
    (engine.survivors input).1.Fits input.language.table input.source.text.toList ∧
      ∀ v ∈ (engine.survivors input).2,
        v.Fits input.language.table input.source.text.toList := by
  have alive : ∀ entry ∈ engine.passed.filter (fun entry => entry.1 != .accepted),
      entry.2.Fits input.language.table input.source.text.toList :=
    fun entry member => h.passed entry (List.mem_filter.1 member).1
  unfold survivors
  dsimp only
  split
  · next first others shifted =>
      refine ⟨h, fun v member => ?_⟩
      rw [← shifted] at member
      obtain ⟨entry, kept, rfl⟩ := List.mem_map.1 member
      exact alive entry (List.mem_filter.1 kept).1
  · split
    · exact ⟨h, fun _ absent => absurd absent List.not_mem_nil⟩
    · split
      · exact ⟨h, fun _ absent => absurd absent List.not_mem_nil⟩
      · next version best =>
          obtain ⟨entry, kept, rfl⟩ := List.mem_map.1 (mem_of_best? best)
          have mended := ParseInput.fits_recover consistent (alive entry kept)
          split
          · next goesOn recovered =>
              rw [recovered] at mended
              refine ⟨h, fun v member => ?_⟩
              rw [List.mem_singleton.1 member]
              exact mended
          · next root recovered =>
              rw [recovered] at mended
              exact ⟨h.finish mended, fun _ absent => absurd absent List.not_mem_nil⟩

theorem fits_endRound (consistent : input.language.table.Consistent)
    (h : engine.Fits input.language.table input.source.text.toList) :
    (engine.endRound input).Fits input.language.table input.source.text.toList := by
  obtain ⟨fits, versions⟩ := survivors_spec consistent h
  refine ⟨fun _ absent => absurd absent List.not_mem_nil, fun v member => ?_, fits.reuse,
    fits.finished⟩
  have kept : v ∈ condense input _ := member
  exact versions v (List.mem_filter.1 (mem_of_mem_condense kept)).1

theorem fits_step (consistent : input.language.table.Consistent)
    (h : engine.Fits input.language.table input.source.text.toList) :
    (engine.step input).Fits input.language.table input.source.text.toList := by
  unfold step
  split
  · next version rest waiting =>
      have fits := h.waiting
      rw [waiting] at fits
      obtain ⟨pre, post, whole, here⟩ := fits version (List.mem_cons_self ..)
      exact fits_advance consistent h (fun other member =>
        fits other (List.mem_cons_of_mem _ member)) whole here
  · exact fits_endRound consistent h

theorem run_preserves {motive : Engine → Prop}
    (kept : ∀ engine, motive engine → engine.isDone = false → motive (engine.step input))
    {fuel : Nat} {last : Engine} (h : motive engine) (ran : run input fuel engine = some last) :
    motive last ∧ last.isDone = true := by
  induction fuel generalizing engine with
  | zero => contradiction
  | succ fuel ih =>
    unfold run at ran
    split at ran
    · next done =>
        cases ran
        exact ⟨h, done⟩
    · next goesOn => exact ih (kept engine h (by simpa using goesOn)) ran

theorem fits_run (consistent : input.language.table.Consistent) {fuel : Nat} {last : Engine}
    (h : engine.Fits input.language.table input.source.text.toList)
    (ran : run input fuel engine = some last) :
    last.Fits input.language.table input.source.text.toList ∧ last.isDone = true :=
  run_preserves (motive := fun engine =>
    engine.Fits input.language.table input.source.text.toList)
    (fun _ kept _ => fits_step consistent kept) h ran

end Engine

end IncrementalGlr
