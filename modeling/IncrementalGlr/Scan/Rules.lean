import IncrementalGlr.Scan.Context

/-!
# Scanners by rules

A scanner that is described by a list of rules: each recognizes one external token, either of no
width in front of some character or between an opening and a closing character. The scanner counts
the tokens it found, modulo 256, and a rule can be limited to the first tokens of a text.
-/

namespace IncrementalGlr

structure ScanRule where
  /-- The external token that has to be valid for the rule to apply. -/
  index : Nat
  result : Nat
  opening : Option Char
  closing : Option Char
  /-- The characters in front of which a rule without an opening character applies. -/
  before : List Char
  /-- The end of the text counts as one of them, or as a closing character. -/
  acceptsEnd : Bool
  nested : Bool
  forced : Bool
  marksEnd : Bool
  overrun : Nat
  limit : Nat
  deriving Repr, Inhabited

namespace ScanRule

def applies (rule : ScanRule) (valid : Array Bool) (seen : UInt8) (c : Option Char) : Bool :=
  (rule.forced || valid.getD rule.index false) && seen.toNat < rule.limit
    && match rule.opening with
      | some opening => c == some opening
      | none => match c with
        | some c => rule.before.contains c
        | none => rule.acceptsEnd

/-- Reads up to the closing character that matches `depth` opening ones, and says whether the token
is complete. Each of the `fuel` steps passes one character. -/
def close (rule : ScanRule) : Nat → Nat → ScanContext → Bool × ScanContext
  | 0, _, context => (true, context)
  | fuel + 1, depth, context =>
    let (c, context) := context.lookahead
    match c with
    | none => (rule.acceptsEnd, context)
    | some c =>
      let context := context.advance
      if rule.closing == some c then
        if depth ≤ 1 then (true, context) else rule.close fuel (depth - 1) context
      else if rule.nested && rule.opening == some c then rule.close fuel (depth + 1) context
      else rule.close fuel depth context

def overrunBy : Nat → ScanContext → ScanContext
  | 0, context => context
  | count + 1, context => overrunBy count (context.lookahead.2.advance)

end ScanRule

def seenOfState (state : ScannerState) : UInt8 := state.headD 0

def ScanRule.scan (rules : List ScanRule) (state : ScannerState) (valid : Array Bool)
    (context : ScanContext) : ScanOutcome :=
  let seen := seenOfState state
  let (c, context) := context.lookahead
  match rules.find? (·.applies valid seen c) with
  | none => ⟨false, context, state⟩
  | some rule =>
    let accept (context : ScanContext) : ScanOutcome :=
      ⟨true, context.setResult rule.result, [seen + 1]⟩
    match rule.opening with
    | none => accept context.markEnd
    | some _ =>
      let size := context.cursor.source.size
      match rule.close (size + 1) 1 context.advance with
      | (false, context) => ⟨false, context, state⟩
      | (true, context) =>
        let context := if rule.marksEnd then context.markEnd else context
        accept (ScanRule.overrunBy rule.overrun context)

namespace ScanRule

theorem leads_close (rule : ScanRule) (fuel depth : Nat) {first context : ScanContext}
    (before : first.Leads context) : first.Leads (rule.close fuel depth context).2 := by
  induction fuel generalizing depth context with
  | zero => exact before
  | succ fuel ih =>
    unfold close
    dsimp only
    split
    · exact before.lookahead
    · have behind := before.lookahead.advance
      split
      · split
        · exact behind
        · exact ih _ behind
      · split
        · exact ih _ behind
        · exact ih _ behind

theorem leads_overrunBy (count : Nat) {first context : ScanContext}
    (before : first.Leads context) : first.Leads (overrunBy count context) := by
  induction count generalizing context with
  | zero => exact before
  | succ count ih => exact ih before.lookahead.advance

theorem leads_scan (rules : List ScanRule) (state : ScannerState) (valid : Array Bool)
    {first context : ScanContext} (looked : first.Leads context.lookahead.2) :
    first.Leads (scan rules state valid context).context := by
  unfold scan
  dsimp only
  split
  · exact looked
  · split
    · exact looked.markEnd.setResult _
    · next rule _ _ _ _ =>
        have behind := leads_close rule (context.lookahead.2.cursor.source.size + 1) 1
          looked.advance
        split
        · next closed =>
            rw [closed] at behind
            exact behind
        · next closed =>
            rw [closed] at behind
            refine (leads_overrunBy _ ?_).setResult _
            split
            · exact behind.markEnd
            · exact behind

end ScanRule

def Scanner.ofRules (rules : List ScanRule) : Scanner :=
  ⟨ScanRule.scan rules, fun state valid _ =>
    ScanRule.leads_scan rules state valid ScanContext.Leads.refl.lookahead⟩

end IncrementalGlr
