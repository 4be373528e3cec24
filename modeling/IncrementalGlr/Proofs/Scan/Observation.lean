import IncrementalGlr.Proofs.Text.Agreement
import IncrementalGlr.Proofs.Text.Cursor
import IncrementalGlr.Scan.Rules

/-!
# What a scanner observes

A scanner learns of the text only what it looked at, and the context records how far that was. In
two texts that agree as far as a scan examined the first one, the scan does the same. Scanners by
rules are of this kind.
-/

namespace IncrementalGlr

namespace ScanContext

variable {context context' last : ScanContext} {pre pre' post post' : List Char} {limit : Nat}

theorem Leads.reach_le (leads : context.Leads last) : context.reach ≤ last.reach := by
  induction leads with
  | refl => exact Nat.le_refl _
  | lookahead _ ih => exact Nat.le_trans ih (Nat.le_max_left _ _)
  | advance _ ih => exact Nat.le_trans ih (Nat.le_max_left _ _)
  | markEnd _ ih => exact ih
  | setResult _ _ ih => exact ih

structure Alike (pre pre' post post' : List Char) (context context' : ScanContext) : Prop where
  passed : ∃ seen rest rest', post = seen ++ rest ∧ post' = seen ++ rest' ∧
    context.cursor.Between (pre ++ seen) rest ∧ context'.cursor.Between (pre' ++ seen) rest'
  marked : ∃ piece : Option (List Char),
    context.markedEnd = piece.map (fun cs => Length.ofChars (pre ++ cs)) ∧
      context'.markedEnd = piece.map fun cs => Length.ofChars (pre' ++ cs)
  result : context'.result = context.result
  reach : context'.reach + (Length.ofChars pre).bytes = context.reach + (Length.ofChars pre').bytes

namespace Alike

theorem ofCursor {cursor cursor' : Cursor} (here : cursor.Between pre post)
    (there : cursor'.Between pre' post') :
    Alike pre pre' post post' (ScanContext.ofCursor cursor) (ScanContext.ofCursor cursor') where
  passed := ⟨[], post, post', rfl, rfl, by rwa [List.append_nil], by rwa [List.append_nil]⟩
  marked := ⟨none, rfl, rfl⟩
  result := rfl
  reach := by
    simp only [ScanContext.ofCursor, here.offset, there.offset]
    omega

theorem front (h : Alike pre pre' post post' context context') (agree : Agree limit post post')
    (examined : context.cursor.offset < (Length.ofChars pre).bytes + limit) :
    ∃ seen rest rest', post = seen ++ rest ∧ post' = seen ++ rest' ∧
      context.cursor.Between (pre ++ seen) rest ∧
      context'.cursor.Between (pre' ++ seen) rest' ∧ rest'.head? = rest.head? := by
  obtain ⟨seen, rest, rest', rfl, rfl, here, there⟩ := h.passed
  refine ⟨seen, rest, rest', rfl, rfl, here, there, ?_⟩
  rw [here.offset, Length.bytes_ofChars_append] at examined
  obtain ⟨other, same, left⟩ := agree.append (by omega)
  cases List.append_cancel_left same
  cases rest with
  | nil => rw [left.nil (by omega)]
  | cons c rest =>
      obtain ⟨behind, rfl, _⟩ := left.cons (by omega)
      rfl

theorem lookahead (h : Alike pre pre' post post' context context') (agree : Agree limit post post')
    (within : context.lookahead.2.reach ≤ (Length.ofChars pre).bytes + limit) :
    context'.lookahead.1 = context.lookahead.1 ∧
      Alike pre pre' post post' context.lookahead.2 context'.lookahead.2 := by
  have counted : context.cursor.offset + 1 ≤ context.lookahead.2.reach := Nat.le_max_right _ _
  obtain ⟨seen, rest, rest', whole, whole', here, there, head⟩ := h.front agree (by omega)
  refine ⟨?_, ?_⟩
  · simp only [ScanContext.lookahead, here.lookahead, there.lookahead, head]
  · have shifted := h.reach
    refine ⟨⟨seen, rest, rest', whole, whole', here, there⟩, h.marked, h.result, ?_⟩
    simp only [ScanContext.lookahead, here.offset, there.offset, Length.bytes_ofChars_append]
    omega

theorem advance (h : Alike pre pre' post post' context context') (agree : Agree limit post post')
    (examined : context.cursor.offset < context.reach)
    (within : context.reach ≤ (Length.ofChars pre).bytes + limit) :
    Alike pre pre' post post' context.advance context'.advance := by
  obtain ⟨seen, rest, rest', rfl, rfl, here, there, head⟩ := h.front agree (by omega)
  have shifted := h.reach
  have offset := here.offset
  have offset' := there.offset
  rw [Length.bytes_ofChars_append] at offset offset'
  cases rest with
  | nil =>
      have none : rest' = [] := List.head?_eq_none_iff.1 head
      subst none
      refine ⟨⟨seen, [], [], rfl, rfl, ?_, ?_⟩, h.marked, h.result, ?_⟩
      · simpa only [ScanContext.advance, here.advance_end] using here
      · simpa only [ScanContext.advance, there.advance_end] using there
      · simp only [ScanContext.advance, here.advance_end, there.advance_end]
        omega
  | cons c rest =>
      obtain ⟨rest', rfl⟩ : ∃ behind, rest' = c :: behind := List.head?_eq_some_iff.1 head
      have step := here.advance
      have step' := there.advance
      have further := step.offset
      have further' := step'.offset
      simp only [Length.bytes_ofChars_append] at further further'
      rw [List.append_assoc] at step step'
      refine ⟨⟨seen ++ [c], rest, rest', by simp, by simp, step, step'⟩, h.marked, h.result, ?_⟩
      simp only [ScanContext.advance]
      omega

theorem markEnd (h : Alike pre pre' post post' context context') :
    Alike pre pre' post post' context.markEnd context'.markEnd := by
  obtain ⟨seen, rest, rest', whole, whole', here, there⟩ := h.passed
  refine ⟨h.passed, ⟨some seen, ?_, ?_⟩, h.result, h.reach⟩
  · simp [ScanContext.markEnd, here.position]
  · simp [ScanContext.markEnd, there.position]

theorem setResult (h : Alike pre pre' post post' context context') (index : Nat) :
    Alike pre pre' post post' (context.setResult index) (context'.setResult index) :=
  ⟨h.passed, h.marked, rfl, h.reach⟩

theorem finish (h : Alike pre pre' post post' context context') (accepted : Bool) :
    (∃ index piece, (context.finish accepted).1
        = some ⟨index, Length.ofChars (pre ++ piece), context.reach⟩ ∧
      (context'.finish accepted).1
        = some ⟨index, Length.ofChars (pre' ++ piece), context'.reach⟩) ∨
    ((context.finish accepted).1 = none ∧ (context'.finish accepted).1 = none) := by
  obtain ⟨seen, rest, rest', -, -, here, there⟩ := h.passed
  obtain ⟨piece, marked, marked'⟩ := h.marked
  simp only [ScanContext.finish, h.result]
  cases accepted with
  | false => exact .inr ⟨rfl, rfl⟩
  | true =>
      cases context.result with
      | none => exact .inr ⟨rfl, rfl⟩
      | some index =>
          refine .inl ⟨index, piece.getD seen, ?_⟩
          cases piece with
          | none => simp [marked, marked', here.position, there.position]
          | some piece => simp [marked, marked']

end Alike

end ScanContext

structure ScanOutcome.Alike (pre pre' post post' : List Char) (outcome outcome' : ScanOutcome) :
    Prop where
  accepted : outcome'.accepted = outcome.accepted
  state : outcome'.state = outcome.state
  context : ScanContext.Alike pre pre' post post' outcome.context outcome'.context

def Scanner.IsLocal (scanner : Scanner) : Prop :=
  ∀ (state : ScannerState) (valid : Array Bool) {cursor cursor' : Cursor}
    {pre pre' post post' : List Char}, cursor.Between pre post → cursor'.Between pre' post' →
    Agree ((scanner.scan state valid (ScanContext.ofCursor cursor)).context.reach - cursor.offset)
      post post' →
    ScanOutcome.Alike pre pre' post post' (scanner.scan state valid (ScanContext.ofCursor cursor))
      (scanner.scan state valid (ScanContext.ofCursor cursor'))

namespace ScanRule

variable {context context' : ScanContext} {pre pre' post post' : List Char} {limit : Nat}

def left (context : ScanContext) : Nat := context.cursor.source.size - context.cursor.offset

theorem left_advance_lt {c : Char} (looked : context.lookahead.1 = some c) :
    left context.lookahead.2.advance < left context :=
  Cursor.remaining_advance_lt (Cursor.offset_lt_size_of_lookahead looked)

theorem left_advance_lt_size (context : ScanContext) :
    left context.advance < context.cursor.source.size + 1 := by
  simp only [left, ScanContext.advance, Cursor.source_advance]
  omega

theorem reach_lookahead_le_close (rule : ScanRule) (fuel depth : Nat) (context : ScanContext) :
    context.lookahead.2.reach ≤ (rule.close (fuel + 1) depth context).2.reach := by
  have further : context.lookahead.2.Leads context.lookahead.2.advance :=
    ScanContext.Leads.refl.advance
  unfold close
  dsimp only
  split
  · exact Nat.le_refl _
  · split
    · split
      · exact further.reach_le
      · exact (leads_close rule fuel (depth - 1) further).reach_le
    · split
      · exact (leads_close rule fuel (depth + 1) further).reach_le
      · exact (leads_close rule fuel depth further).reach_le

theorem close_alike {rule : ScanRule} {fuel fuel' depth : Nat}
    (alike : ScanContext.Alike pre pre' post post' context context')
    (agree : Agree limit post post') (enough : left context < fuel)
    (enough' : left context' < fuel')
    (within : (rule.close fuel depth context).2.reach ≤ (Length.ofChars pre).bytes + limit) :
    (rule.close fuel' depth context').1 = (rule.close fuel depth context).1 ∧
      ScanContext.Alike pre pre' post post' (rule.close fuel depth context).2
        (rule.close fuel' depth context').2 := by
  induction fuel generalizing fuel' depth context context' with
  | zero => contradiction
  | succ fuel ih =>
      obtain ⟨fuel', rfl⟩ := Nat.exists_eq_add_one.2 (Nat.zero_lt_of_lt enough')
      have looked := Nat.le_trans (reach_lookahead_le_close rule fuel depth context) within
      obtain ⟨same, behind⟩ := alike.lookahead agree looked
      have further := behind.advance agree (Nat.le_max_right _ _) looked
      unfold close at within ⊢
      dsimp only at within ⊢
      rw [same]
      cases seen : context.lookahead.1 with
      | none => exact ⟨rfl, behind⟩
      | some c =>
          have less := left_advance_lt seen
          have less' := left_advance_lt (same.trans seen)
          rw [seen] at within
          dsimp only at within ⊢
          split
          · next closing =>
              rw [if_pos closing] at within
              split
              · exact ⟨rfl, further⟩
              · next deep =>
                  rw [if_neg deep] at within
                  exact ih further (by omega) (by omega) within
          · next inside =>
              rw [if_neg inside] at within
              split
              · next opening =>
                  rw [if_pos opening] at within
                  exact ih further (by omega) (by omega) within
              · next other =>
                  rw [if_neg other] at within
                  exact ih further (by omega) (by omega) within

theorem overrunBy_alike {count : Nat}
    (alike : ScanContext.Alike pre pre' post post' context context')
    (agree : Agree limit post post')
    (within : (overrunBy count context).reach ≤ (Length.ofChars pre).bytes + limit) :
    ScanContext.Alike pre pre' post post' (overrunBy count context) (overrunBy count context') := by
  induction count generalizing context context' with
  | zero => exact alike
  | succ count ih =>
      have further : context.lookahead.2.Leads context.lookahead.2.advance :=
        ScanContext.Leads.refl.advance
      have looked := Nat.le_trans (leads_overrunBy count further).reach_le within
      obtain ⟨-, behind⟩ := alike.lookahead agree looked
      exact ih (behind.advance agree (Nat.le_max_right _ _) looked) within

theorem scan_alike (rules : List ScanRule) (state : ScannerState) (valid : Array Bool)
    (alike : ScanContext.Alike pre pre' post post' context context')
    (agree : Agree limit post post')
    (within : (scan rules state valid context).context.reach
      ≤ (Length.ofChars pre).bytes + limit) :
    ScanOutcome.Alike pre pre' post post' (scan rules state valid context)
      (scan rules state valid context') := by
  have looked := Nat.le_trans
    (leads_scan rules state valid (@ScanContext.Leads.refl context.lookahead.2)).reach_le within
  obtain ⟨same, behind⟩ := alike.lookahead agree looked
  have further := behind.advance agree (Nat.le_max_right _ _) looked
  unfold scan at within ⊢
  dsimp only at within ⊢
  rw [same]
  cases applied : rules.find? (·.applies valid (seenOfState state) context.lookahead.1) with
  | none => exact ⟨rfl, rfl, behind⟩
  | some rule =>
      rw [applied] at within
      dsimp only at within ⊢
      cases opening : rule.opening with
      | none => exact ⟨rfl, rfl, behind.markEnd.setResult rule.result⟩
      | some opening =>
          rw [opening] at within
          dsimp only at within ⊢
          obtain ⟨complete, last, closed⟩ : ∃ complete last, rule.close
              (context.lookahead.2.cursor.source.size + 1) 1 context.lookahead.2.advance
                = (complete, last) := ⟨_, _, rfl⟩
          obtain ⟨complete', last', closed'⟩ : ∃ complete last, rule.close
              (context'.lookahead.2.cursor.source.size + 1) 1 context'.lookahead.2.advance
                = (complete, last) := ⟨_, _, rfl⟩
          have enclosed : last.reach ≤ (Length.ofChars pre).bytes + limit := by
            rw [closed] at within
            cases complete with
            | false => exact within
            | true =>
                refine Nat.le_trans
                  (ScanContext.Leads.reach_le (leads_overrunBy rule.overrun ?_)) within
                split
                · exact ScanContext.Leads.refl.markEnd
                · exact ScanContext.Leads.refl
          obtain ⟨equal, ended⟩ := close_alike further agree
            (left_advance_lt_size context.lookahead.2) (left_advance_lt_size context'.lookahead.2)
            (by rwa [closed])
          rw [closed, closed'] at equal ended
          cases equal
          rw [closed] at within ⊢
          rw [closed']
          cases complete with
          | false => exact ⟨rfl, rfl, ended⟩
          | true =>
              refine ⟨rfl, rfl, ScanContext.Alike.setResult (overrunBy_alike ?_ agree within) _⟩
              split
              · exact ended.markEnd
              · exact ended

end ScanRule

theorem Scanner.isLocal_ofRules (rules : List ScanRule) : (Scanner.ofRules rules).IsLocal := by
  intro state valid cursor cursor' pre pre' post post' here there agree
  refine ScanRule.scan_alike rules state valid (ScanContext.Alike.ofCursor here there) agree ?_
  rw [here.offset]
  exact Nat.sub_le_iff_le_add'.1 (Nat.le_refl _)

end IncrementalGlr
