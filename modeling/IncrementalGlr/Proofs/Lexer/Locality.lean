import IncrementalGlr.Proofs.Lexer.Token
import IncrementalGlr.Proofs.Text.Agreement

/-!
# Lexing is local

The automaton finds the same token in two texts that agree as far as it examined the first one,
wherever in the texts the token starts. Reaches are exact here. As words they are the same, except
that the byte behind the end of a text of `2 ^ 32 - 1` bytes, the longest that words can measure, is
byte zero again.
-/

namespace IncrementalGlr

theorem Cursor.Between.offset_advance {cursor : Cursor} {pre post : List Char} {c : Char}
    (h : cursor.Between pre (c :: post)) : cursor.advance.offset = cursor.offset + c.utf8Size := by
  rw [h.advance.offset, h.offset, Length.bytes_ofChars_append]
  simp

theorem Cursor.Between.offset_lt_size {cursor : Cursor} {pre post : List Char} {c : Char}
    (h : cursor.Between pre (c :: post)) : cursor.offset < cursor.source.size := by
  have size := h.size
  have positive := c.utf8Size_pos
  rw [Length.ofChars_cons, Length.bytes_append, Length.bytes_ofChar] at size
  omega

/-! ## Slices -/

theorem filterMap_layout (cs : List Char) : (layout cs).filterMap id = cs := by
  induction cs with
  | nil => rfl
  | cons c cs ih =>
    have first : (cellsOfChar c).filterMap id = [c] := by simp [cellsOfChar]
    rw [show layout (c :: cs) = cellsOfChar c ++ layout cs from List.flatMap_cons ..,
      List.filterMap_append, first, ih, List.singleton_append]

theorem Source.isBoundary_cut {source : Source} {a b : List Char}
    (text : source.text.toList = a ++ b) :
    source.isBoundary (Length.ofChars a).bytes = true := by
  rw [isBoundary, charAt?_cut text, size_eq, text, Length.bytes_ofChars_append]
  cases b with
  | nil => simp
  | cons c b => simp

theorem Source.slice_cut {source : Source} {a b c : List Char}
    (text : source.text.toList = a ++ (b ++ c)) :
    source.slice (Length.ofChars a).bytes (Length.ofChars (a ++ b)).bytes = String.ofList b := by
  have size : source.size = (Length.ofChars a).bytes + (Length.ofChars b).bytes
      + (Length.ofChars c).bytes := by
    rw [size_eq, text, Length.bytes_ofChars_append, Length.bytes_ofChars_append,
      Nat.add_assoc]
  have stop : source.isBoundary (Length.ofChars (a ++ b)).bytes = true :=
    isBoundary_cut (by rw [text, List.append_assoc])
  rw [Length.bytes_ofChars_append] at stop
  have inside : min ((Length.ofChars a).bytes + (Length.ofChars b).bytes) source.size
      = (Length.ofChars a).bytes + (Length.ofChars b).bytes := by omega
  have start : min (Length.ofChars a).bytes
      ((Length.ofChars a).bytes + (Length.ofChars b).bytes) = (Length.ofChars a).bytes := by omega
  have cells : (source.cells.extract (Length.ofChars a).bytes
      ((Length.ofChars a).bytes + (Length.ofChars b).bytes)).toList = layout b := by
    rw [source.cells_eq, text, layout_append, layout_append, Array.toList_extract,
      List.extract_eq_take_drop, ← length_layout a, ← length_layout b]
    simp
  rw [slice, Length.bytes_ofChars_append, inside, start, isBoundary_cut text, stop, cells,
    filterMap_layout]
  rfl

namespace Table

inductive SameMatch (pre pre' post post' : List Char) : Option Match → Option Match → Prop
  | none : SameMatch pre pre' post post' none none
  | some (symbol : SymbolId) {piece rest rest' : List Char} (here : post = piece ++ rest)
      (there : post' = piece ++ rest') :
      SameMatch pre pre' post post' (some ⟨symbol, Length.ofChars (pre ++ piece)⟩)
        (some ⟨symbol, Length.ofChars (pre' ++ piece)⟩)

theorem SameMatch.isSome_eq {pre pre' post post' : List Char} {found found' : Option Match}
    (same : SameMatch pre pre' post post' found found') : found'.isSome = found.isSome := by
  cases same <;> rfl

section Walk

variable {table : Table} {wanted : SymbolId → Bool} {state next : UInt32} {cursor : Cursor}
  {best : Option Match} {c : Char}

theorem walk_of_end (h : cursor.lookahead = none) :
    table.walk wanted state cursor best = (best, cursor.offset + 1) := by
  rw [walk]
  split
  · rfl
  · next seen =>
      rw [h] at seen
      contradiction

theorem walk_of_stop (h : cursor.lookahead = some c)
    (stop : (table.lexState state).next? c = none) :
    table.walk wanted state cursor best = (best, cursor.offset + 1) := by
  rw [walk]
  split
  · rfl
  · next seen =>
      rw [h] at seen
      cases seen
      rw [stop]

theorem walk_of_next (h : cursor.lookahead = some c)
    (moved : (table.lexState state).next? c = some next) :
    table.walk wanted state cursor best = table.walk wanted next cursor.advance
      (match (table.lexState next).accepts.find? wanted with
        | some symbol => some ⟨symbol, cursor.advance.position⟩
        | none => best) := by
  rw [walk]
  split
  · next seen =>
      rw [h] at seen
      contradiction
  · next seen =>
      rw [h] at seen
      cases seen
      generalize (table.lexState state).next? c = found at moved
      cases moved
      rfl

theorem offset_lt_walk (table : Table) (wanted : SymbolId → Bool) (state : UInt32)
    (cursor : Cursor) (best : Option Match) :
    cursor.offset < (table.walk wanted state cursor best).2 := by
  fun_induction walk table wanted state cursor best with
  | case1 => exact Nat.lt_succ_self _
  | case2 => exact Nat.lt_succ_self _
  | case3 state cursor best c looked next moved best' =>
      rename_i ih
      exact Nat.lt_trans (Cursor.offset_lt_offset_advance
        (Cursor.offset_lt_size_of_lookahead looked)) ih

end Walk

theorem walk_agree {table : Table} {wanted : SymbolId → Bool} {state : UInt32}
    {cursor cursor' : Cursor} {best best' : Option Match} {pre pre' seen rest rest' : List Char}
    (here : cursor.Between (pre ++ seen) rest) (there : cursor'.Between (pre' ++ seen) rest')
    (same : SameMatch pre pre' (seen ++ rest) (seen ++ rest') best best')
    (agree : Agree ((table.walk wanted state cursor best).2 - cursor.offset) rest rest') :
    SameMatch pre pre' (seen ++ rest) (seen ++ rest') (table.walk wanted state cursor best).1
        (table.walk wanted state cursor' best').1 ∧
      (table.walk wanted state cursor' best').2 + cursor.offset
        = (table.walk wanted state cursor best).2 + cursor'.offset := by
  fun_induction walk table wanted state cursor best
    generalizing cursor' best' seen rest rest' with
  | case1 state cursor best looked =>
      have atEnd : rest = [] := by
        rw [here.lookahead] at looked
        simpa using looked
      subst atEnd
      have atEnd' : rest' = [] := agree.nil (by omega)
      subst atEnd'
      rw [walk_of_end there.lookahead]
      exact ⟨same, by omega⟩
  | case2 state cursor best c looked stop =>
      obtain ⟨behind, rfl⟩ := here.ofLookahead looked
      obtain ⟨behind', rfl, _⟩ := agree.cons (by omega)
      rw [walk_of_stop there.lookahead stop]
      exact ⟨same, by omega⟩
  | case3 state cursor best c looked next moved best'' =>
      rename_i ih
      obtain ⟨behind, rfl⟩ := here.ofLookahead looked
      have step := here.advance
      have further := here.offset_advance
      have examined := offset_lt_walk table wanted next cursor.advance best''
      obtain ⟨behind', rfl, left⟩ := agree.cons (by omega)
      have step' := there.advance
      have further' := there.offset_advance
      have whole : ∀ cs, seen ++ [c] ++ cs = seen ++ c :: cs := by simp
      rw [List.append_assoc] at step step'
      rw [Nat.sub_sub, ← further] at left
      rw [walk_of_next there.lookahead moved]
      rw [← whole behind, ← whole behind'] at same ⊢
      have found : SameMatch pre pre' (seen ++ [c] ++ behind) (seen ++ [c] ++ behind') best''
          (match (table.lexState next).accepts.find? wanted with
            | some symbol => some ⟨symbol, cursor'.advance.position⟩
            | none => best') := by
        simp only [best'']
        cases (table.lexState next).accepts.find? wanted with
        | none => exact same
        | some symbol =>
            dsimp only
            rw [step.position, step'.position]
            exact .some symbol rfl rfl
      obtain ⟨matched, reached⟩ := ih step step' found left
      exact ⟨matched, by omega⟩

theorem longestMatch_agree {table : Table} {wanted : SymbolId → Bool} {cursor cursor' : Cursor}
    {pre pre' post post' : List Char} (here : cursor.Between pre post)
    (there : cursor'.Between pre' post')
    (agree : Agree ((table.longestMatch wanted cursor).2 - cursor.offset) post post') :
    SameMatch pre pre' post post' (table.longestMatch wanted cursor).1
        (table.longestMatch wanted cursor').1 ∧
      (table.longestMatch wanted cursor').2 + cursor.offset
        = (table.longestMatch wanted cursor).2 + cursor'.offset :=
  walk_agree (by rwa [List.append_nil]) (by rwa [List.append_nil]) .none agree

section Agreeing

variable {table : Table} {wanted : SymbolId → Bool} {cursor cursor' : Cursor}
  {pre pre' post post' : List Char} {reach : Nat}

theorem offset_lt_of_longestMatch {found : Option Match}
    (matched : table.longestMatch wanted cursor = (found, reach)) : cursor.offset < reach := by
  have := offset_lt_walk table wanted table.lexStart cursor none
  rwa [← longestMatch, matched] at this

theorem longestMatch_some_agree (here : cursor.Between pre post)
    (there : cursor'.Between pre' post') {found : Match}
    (matched : table.longestMatch wanted cursor = (some found, reach))
    (agree : Agree (reach - cursor.offset) post post') :
    ∃ piece rest rest' reach', post = piece ++ rest ∧ post' = piece ++ rest' ∧
      found.stop = Length.ofChars (pre ++ piece) ∧
      table.longestMatch wanted cursor'
        = (some ⟨found.symbol, Length.ofChars (pre' ++ piece)⟩, reach') ∧
      reach' + cursor.offset = reach + cursor'.offset := by
  obtain ⟨same, shifted⟩ := longestMatch_agree here there (by rwa [matched])
  rw [matched] at same shifted
  cases matched' : table.longestMatch wanted cursor' with
  | mk found' reach' =>
      rw [matched'] at same shifted
      cases same with
      | some symbol whole whole' => exact ⟨_, _, _, reach', whole, whole', rfl, rfl, shifted⟩

theorem longestMatch_none_agree (here : cursor.Between pre post)
    (there : cursor'.Between pre' post')
    (missed : table.longestMatch wanted cursor = (none, reach))
    (agree : Agree (reach - cursor.offset) post post') :
    ∃ reach', table.longestMatch wanted cursor' = (none, reach') ∧
      reach' + cursor.offset = reach + cursor'.offset := by
  obtain ⟨same, shifted⟩ := longestMatch_agree here there (by rwa [missed])
  rw [missed] at same shifted
  cases missed' : table.longestMatch wanted cursor' with
  | mk found' reach' =>
      rw [missed'] at same shifted
      cases same with
      | none => exact ⟨reach', rfl, shifted⟩

end Agreeing

end Table

/-! ## Text that nothing matches -/

theorem le_skipToMatch (table : Table) (wanted : SymbolId → Bool) (cursor : Cursor)
    (reach : Nat) : reach ≤ (skipToMatch table wanted cursor reach).2 := by
  fun_induction skipToMatch table wanted cursor reach with
  | case1 => exact Nat.le_max_left _ _
  | case2 cursor reach more found examined longest reach' missing =>
      rename_i ih
      exact Nat.le_trans (Nat.le_max_left _ _) ih
  | case3 => exact Nat.le_refl _

section Skipping

variable {table : Table} {wanted : SymbolId → Bool} {cursor cursor' : Cursor} {reach reach' : Nat}
  {pre pre' seen post rest rest' : List Char} {c : Char}

theorem skipToMatch_of_end (here : cursor.Between pre []) :
    skipToMatch table wanted cursor reach = (cursor, reach) := by
  have size := here.size
  rw [Length.ofChars_nil, Length.bytes_zero] at size
  rw [skipToMatch, dif_neg (by omega)]

theorem skipToMatch_of_match (here : cursor.Between pre (c :: post))
    (found : (table.longestMatch wanted cursor).1.isSome = true) :
    skipToMatch table wanted cursor reach
      = (cursor, max reach (table.longestMatch wanted cursor).2) := by
  rw [skipToMatch, dif_pos here.offset_lt_size]
  exact if_pos found

theorem skipToMatch_of_miss (here : cursor.Between pre (c :: post))
    (missed : (table.longestMatch wanted cursor).1.isSome = false) :
    skipToMatch table wanted cursor reach
      = skipToMatch table wanted cursor.advance
          (max reach (table.longestMatch wanted cursor).2) := by
  rw [skipToMatch, dif_pos here.offset_lt_size]
  exact if_neg (Bool.eq_false_iff.1 missed)

theorem longestMatch_le_skipToMatch (here : cursor.Between pre (c :: post)) :
    (table.longestMatch wanted cursor).2 ≤ (skipToMatch table wanted cursor reach).2 := by
  refine Nat.le_trans (Nat.le_max_right reach _) ?_
  cases found : (table.longestMatch wanted cursor).1.isSome with
  | true => exact Nat.le_of_eq (congrArg Prod.snd (skipToMatch_of_match here found)).symm
  | false =>
      rw [skipToMatch_of_miss here found]
      exact le_skipToMatch ..

theorem skipToMatch_agree
    (here : cursor.Between (pre ++ seen) rest) (there : cursor'.Between (pre' ++ seen) rest')
    (shifted : reach' + cursor.offset = reach + cursor'.offset)
    (agree : Agree (max (skipToMatch table wanted cursor reach).2
      ((skipToMatch table wanted cursor reach).1.offset + 1) - cursor.offset) rest rest') :
    ∃ piece behind behind', rest = piece ++ behind ∧ rest' = piece ++ behind' ∧
      (skipToMatch table wanted cursor reach).1.position
        = Length.ofChars (pre ++ (seen ++ piece)) ∧
      (skipToMatch table wanted cursor' reach').1.position
        = Length.ofChars (pre' ++ (seen ++ piece)) ∧
      (skipToMatch table wanted cursor' reach').2 + cursor.offset
        = (skipToMatch table wanted cursor reach).2 + cursor'.offset := by
  induction rest generalizing cursor cursor' reach reach' seen rest' with
  | nil =>
      rw [skipToMatch_of_end here] at agree ⊢
      obtain rfl : rest' = [] := agree.nil (by dsimp only; omega)
      rw [skipToMatch_of_end there]
      refine ⟨[], [], [], rfl, rfl, ?_, ?_, shifted⟩
      · rw [here.position, List.append_nil]
      · rw [there.position, List.append_nil]
  | cons c behind ih =>
      have examined := @longestMatch_le_skipToMatch table wanted cursor reach _ _ _ here
      have read : cursor.offset < (table.longestMatch wanted cursor).2 :=
        Table.offset_lt_walk ..
      have first : Agree ((table.longestMatch wanted cursor).2 - cursor.offset) (c :: behind) rest' :=
        agree.mono (by omega)
      obtain ⟨same, reached⟩ := Table.longestMatch_agree here there first
      obtain ⟨behind', rfl, left⟩ := agree.cons (by omega)
      cases found : (table.longestMatch wanted cursor).1.isSome with
      | true =>
          rw [skipToMatch_of_match here found,
            skipToMatch_of_match there (same.isSome_eq.trans found)]
          refine ⟨[], _, _, rfl, rfl, ?_, ?_, by dsimp only; omega⟩
          · rw [here.position, List.append_nil]
          · rw [there.position, List.append_nil]
      | false =>
          rw [skipToMatch_of_miss here found] at left ⊢
          rw [skipToMatch_of_miss there (same.isSome_eq.trans found)]
          have step := here.advance
          have step' := there.advance
          have further := here.offset_advance
          have further' := there.offset_advance
          rw [List.append_assoc] at step step'
          rw [Nat.sub_sub, ← further] at left
          have shifted : max reach' (table.longestMatch wanted cursor').2 + cursor.advance.offset
              = max reach (table.longestMatch wanted cursor).2 + cursor'.advance.offset := by
            omega
          obtain ⟨piece, after, after', rfl, rfl, stop, stop', shift⟩ := ih step step' shifted left
          refine ⟨c :: piece, after, after', rfl, rfl, ?_, ?_, by omega⟩
          · simpa using stop
          · simpa using stop'

end Skipping

/-! ## Tokens -/

namespace Lexer

variable {lexer lexer' : Lexer} {pre pre' post post' : List Char} {id : LexModeId}
  {mode : LexMode} {reach reach' : Nat}

theorem reach_le_token (lexer : Lexer) (symbol : SymbolId) (stop : Length) (reach : Nat)
    (id : LexModeId) (state : Option ScannerState) :
    reach - lexer.cursor.offset ≤ (lexer.token symbol stop reach id state).size.bytes
      + (lexer.token symbol stop reach id state).lookahead := by
  simp only [token, Length.bytes_sub, Cursor.offset]
  omega

theorem token_shifted (here : lexer.cursor.Between pre post)
    (there : lexer'.cursor.Between pre' post')
    (shifted : reach' + lexer.cursor.offset = reach + lexer'.cursor.offset) (symbol : SymbolId)
    (piece : List Char) (id : LexModeId) (state : Option ScannerState) :
    lexer'.token symbol (Length.ofChars (pre' ++ piece)) reach' id state
      = { lexer.token symbol (Length.ofChars (pre ++ piece)) reach id state with
          start := lexer'.cursor.position } := by
  rw [here.offset, there.offset] at shifted
  simp only [token, here.position, there.position, Length.ofChars_append_sub,
    Length.bytes_ofChars_append, Token.mk.injEq, true_and, and_true]
  omega

theorem match_shifted {piece : List Char} (here : lexer.cursor.Between pre (piece ++ post))
    (there : lexer'.cursor.Between pre' (piece ++ post'))
    (shifted : reach' + lexer.cursor.offset = reach + lexer'.cursor.offset)
    (symbol : SymbolId) :
    lexer'.token (lexer.language.resolveKeyword mode symbol (lexer'.cursor.slice
        lexer'.cursor.offset (Length.ofChars (pre' ++ piece)).bytes))
        (Length.ofChars (pre' ++ piece)) reach' id none
      = { lexer.token (lexer.language.resolveKeyword mode symbol (lexer.cursor.slice
            lexer.cursor.offset (Length.ofChars (pre ++ piece)).bytes))
            (Length.ofChars (pre ++ piece)) reach id none with
          start := lexer'.cursor.position } := by
  rw [Cursor.slice, Cursor.slice, here.offset, there.offset, Source.slice_cut here.text,
    Source.slice_cut there.text]
  exact token_shifted here there shifted _ piece id none

theorem notEnd_of_agree {c : Char} {rest : List Char}
    (there : lexer'.cursor.Between pre' post') (agree : Agree reach (c :: rest) post')
    (pos : 0 < reach) : lexer'.cursor.isAtEnd = false := by
  obtain ⟨rest', rfl, _⟩ := agree.cons pos
  rw [Bool.eq_false_iff]
  intro atEnd
  exact absurd (there.isAtEnd.1 atEnd) (List.cons_ne_nil c rest')

section Internal

variable {found : Match} {next : Cursor} {valid other : Nat}

theorem internal_of_end (atEnd : lexer.cursor.isAtEnd = true) :
    lexer.internal id mode = lexer.token SymbolId.endOfInput lexer.cursor.position
      (lexer.cursor.offset + 1) id none := by
  rw [internal, if_pos atEnd]

theorem internal_of_valid (notEnd : lexer.cursor.isAtEnd = false)
    (matched : lexer.language.table.longestMatch (lexer.language.isWanted mode) lexer.cursor
      = (some found, reach)) :
    lexer.internal id mode = lexer.token (lexer.language.resolveKeyword mode found.symbol
      (lexer.cursor.slice lexer.cursor.offset found.stop.bytes)) found.stop reach id none := by
  simp [internal, notEnd, matched]

theorem internal_of_other (notEnd : lexer.cursor.isAtEnd = false)
    (missed : lexer.language.table.longestMatch (lexer.language.isWanted mode) lexer.cursor
      = (none, valid))
    (matched : lexer.language.table.longestMatch lexer.language.isErrorLexable lexer.cursor
      = (some found, other)) :
    lexer.internal id mode = lexer.token (lexer.language.resolveKeyword mode found.symbol
      (lexer.cursor.slice lexer.cursor.offset found.stop.bytes)) found.stop (max valid other)
      id none := by
  simp [internal, notEnd, missed, matched]

theorem internal_of_error (notEnd : lexer.cursor.isAtEnd = false)
    (missed : lexer.language.table.longestMatch (lexer.language.isWanted mode) lexer.cursor
      = (none, valid))
    (missed' : lexer.language.table.longestMatch lexer.language.isErrorLexable lexer.cursor
      = (none, other))
    (skipped : skipToMatch lexer.language.table lexer.language.isErrorLexable
      lexer.cursor.advance (max valid other) = (next, reach)) :
    lexer.internal id mode = lexer.token SymbolId.error next.position
      (max reach (next.offset + 1)) id none := by
  simp [internal, notEnd, missed, missed', skipped]

end Internal

theorem internal_agree (language : lexer'.language = lexer.language)
    (here : lexer.cursor.Between pre post) (there : lexer'.cursor.Between pre' post')
    (agree : Agree ((lexer.internal id mode).size.bytes + (lexer.internal id mode).lookahead)
      post post') :
    lexer'.internal id mode
      = { lexer.internal id mode with start := lexer'.cursor.position } := by
  cases atEnd : lexer.cursor.isAtEnd with
  | true =>
      have none : post = [] := here.isAtEnd.1 atEnd
      subst none
      rw [internal_of_end atEnd] at agree ⊢
      have ends := agree.nil (by simp [token, Cursor.offset])
      subst ends
      rw [internal_of_end (there.isAtEnd.2 rfl)]
      have same := token_shifted here there
        (show lexer'.cursor.offset + 1 + lexer.cursor.offset
          = lexer.cursor.offset + 1 + lexer'.cursor.offset by omega) SymbolId.endOfInput [] id none
      rwa [List.append_nil, List.append_nil, ← here.position, ← there.position] at same
  | false =>
      obtain ⟨c, rest, rfl⟩ : ∃ c rest, post = c :: rest := by
        cases post with
        | nil => simp [here.isAtEnd.2 rfl] at atEnd
        | cons c rest => exact ⟨c, rest, rfl⟩
      obtain ⟨found, valid, matched⟩ : ∃ found valid, lexer.language.table.longestMatch
          (lexer.language.isWanted mode) lexer.cursor = (found, valid) := ⟨_, _, rfl⟩
      have first := Table.offset_lt_of_longestMatch matched
      cases found with
      | some found =>
          rw [internal_of_valid atEnd matched] at agree ⊢
          have agree := agree.mono (reach_le_token _ _ _ _ _ _)
          have notEnd := notEnd_of_agree there agree (by omega)
          obtain ⟨piece, rest, rest', reach', whole, rfl, stop, matched', shifted⟩ :=
            Table.longestMatch_some_agree here there matched agree
          rw [whole] at here
          rw [← language] at matched'
          rw [internal_of_valid notEnd matched', stop, language]
          exact match_shifted here there shifted found.symbol
      | none =>
          obtain ⟨found, other, tried⟩ : ∃ found other, lexer.language.table.longestMatch
              lexer.language.isErrorLexable lexer.cursor = (found, other) := ⟨_, _, rfl⟩
          have second := Table.offset_lt_of_longestMatch tried
          cases found with
          | some found =>
              rw [internal_of_other atEnd matched tried] at agree ⊢
              have agree := agree.mono (reach_le_token _ _ _ _ _ _)
              have notEnd := notEnd_of_agree there agree (by omega)
              obtain ⟨valid', missed', shifted⟩ := Table.longestMatch_none_agree here there matched
                (agree.mono (by omega))
              obtain ⟨piece, rest, rest', other', whole, rfl, stop, tried', shifted'⟩ :=
                Table.longestMatch_some_agree here there tried (agree.mono (by omega))
              rw [whole] at here
              rw [← language] at missed' tried'
              rw [internal_of_other notEnd missed' tried', stop, language]
              exact match_shifted here there (by omega) found.symbol
          | none =>
              obtain ⟨next, reach, skipped⟩ : ∃ next reach, skipToMatch lexer.language.table
                lexer.language.isErrorLexable lexer.cursor.advance (max valid other)
                  = (next, reach) := ⟨_, _, rfl⟩
              have atLeast := le_skipToMatch lexer.language.table lexer.language.isErrorLexable
                lexer.cursor.advance (max valid other)
              rw [internal_of_error atEnd matched tried skipped] at agree ⊢
              rw [skipped] at atLeast
              have agree := agree.mono (reach_le_token _ _ _ _ _ _)
              have notEnd := notEnd_of_agree there agree (by omega)
              obtain ⟨valid', missed', shifted⟩ := Table.longestMatch_none_agree here there matched
                (agree.mono (by omega))
              obtain ⟨other', tried', shifted'⟩ := Table.longestMatch_none_agree here there tried
                (agree.mono (by omega))
              obtain ⟨rest', rfl, left⟩ := agree.cons (by omega)
              have further := here.offset_advance
              have further' := there.offset_advance
              rw [Nat.sub_sub, ← further] at left
              obtain ⟨piece, behind, behind', rfl, rfl, stop, stop', shifted''⟩ :=
                skipToMatch_agree here.advance there.advance
                  (show max valid' other' + lexer.cursor.advance.offset
                    = max valid other + lexer'.cursor.advance.offset by omega)
                  (by rwa [skipped])
              rw [skipped] at stop shifted''
              obtain ⟨next', reach', skipped'⟩ : ∃ next' reach', skipToMatch lexer.language.table
                lexer.language.isErrorLexable lexer'.cursor.advance (max valid' other')
                  = (next', reach') := ⟨_, _, rfl⟩
              rw [skipped'] at stop' shifted''
              rw [← language] at missed' tried' skipped'
              rw [internal_of_error notEnd missed' tried' skipped', stop, stop']
              refine token_shifted here there ?_ SymbolId.error ([c] ++ piece) id none
              have offset : next.offset
                  = lexer.cursor.offset + (Length.ofChars ([c] ++ piece)).bytes := by
                rw [here.offset, ← Length.bytes_ofChars_append, ← stop]
                rfl
              have offset' : next'.offset
                  = lexer'.cursor.offset + (Length.ofChars ([c] ++ piece)).bytes := by
                rw [there.offset, ← Length.bytes_ofChars_append, ← stop']
                rfl
              dsimp only at shifted''
              omega

theorem next_agree (language : lexer'.language = lexer.language)
    (here : lexer.cursor.Between pre post) (there : lexer'.cursor.Between pre' post')
    (plain : mode.hasExternals = false) (carried carried' : Option ScannerState)
    (agree : Agree ((lexer.next id mode carried).size.bytes
      + (lexer.next id mode carried).lookahead) post post') :
    lexer'.next id mode carried'
      = { lexer.next id mode carried with start := lexer'.cursor.position } := by
  simp only [next, plain, Bool.false_eq_true, if_false] at agree ⊢
  exact internal_agree language here there agree

/-! ## Tokens of a text -/

def ofText (language : Language) (text : String) (position : Length) : Lexer :=
  (ofSource language (Source.ofText text)).seek position

theorem between_ofText (language : Language) {text : String} (whole : text.toList = pre ++ post) :
    (ofText language text (Length.ofChars pre)).cursor.Between pre post :=
  ⟨whole, rfl⟩

/-- Recorded lookahead makes lexing local: in front of a text that begins with the characters that
start before the token's reach, and that ends where the first one does if the reach goes beyond its
end, the lexer finds the same token. -/
theorem next_eq_of_examined (language : Language) {text text' : String}
    (here : text.toList = pre ++ post) (there : text'.toList = pre' ++ post') {id : LexModeId}
    {mode : LexMode} (plain : mode.hasExternals = false) {carried carried' : Option ScannerState}
    {token : Token}
    (lexed : (ofText language text (Length.ofChars pre)).next id mode carried = token)
    (chars : startingBefore (token.reach - (Length.ofChars pre).bytes) post <+: post')
    (stop : (Length.ofChars text.toList).bytes < token.reach →
      (Length.ofChars post').bytes = (Length.ofChars post).bytes) :
    (ofText language text' (Length.ofChars pre')).next id mode carried'
      = { token with start := Length.ofChars pre' } := by
  have starts := start_next (ofText language text (Length.ofChars pre)) id mode carried
  have whole : (Length.ofChars text.toList).bytes
      = (Length.ofChars pre).bytes + (Length.ofChars post).bytes := by
    rw [here, Length.bytes_ofChars_append]
  have reach : token.reach = (Length.ofChars pre).bytes + (token.size.bytes + token.lookahead) := by
    rw [← lexed, Token.reach, starts, Nat.add_assoc]
    rfl
  have same : (ofText language text' (Length.ofChars pre')).language
      = (ofText language text (Length.ofChars pre)).language := rfl
  rw [reach, Nat.add_sub_cancel_left] at chars
  subst lexed
  exact next_agree same (between_ofText language here) (between_ofText language there) plain
    carried carried' (agree_of_examined chars fun beyond => stop (by omega))

end Lexer

def pairTable : Table where
  name := "pairs"
  symbols := #[⟨"end", false, true, false⟩, ⟨"ab", true, false, false⟩, ⟨";", true, false, false⟩,
    ⟨"s", true, true, false⟩]
  terminalCount := 3
  ruleCount := 1
  startSymbol := ⟨3⟩
  fieldNames := #[]
  productions := #[⟨⟨3⟩, 0, [⟨none, none⟩, ⟨none, none⟩]⟩]
  stateCount := 4
  actionIndex := #[0, 1, 0, 0, 0, 2, 3, 0, 0, 4, 0, 0]
  actionLists := #[[], [.shift ⟨1⟩], [.shift ⟨3⟩], [.accept], [.reduce ⟨3⟩ 2 0 ⟨0⟩]]
  gotos := #[⟨2⟩, StateId.none, StateId.none, StateId.none]
  allowsExtras := Array.replicate 4 true
  extras := []
  externalTokens := #[]
  wordToken := none
  keywords := []
  lexStates := #[⟨#[⟨59, 59, 1⟩, ⟨97, 97, 2⟩], []⟩, ⟨#[], [⟨2⟩]⟩, ⟨#[⟨98, 98, 3⟩], []⟩,
    ⟨#[], [⟨1⟩]⟩]
  lexStart := 0

def pairLanguage : Language :=
  (Language.ofTable pairTable none 1).toOption.get (by decide +kernel)

/-- An error token reaches up to the end of the `;` at which the lexer would go on. -/
theorem Lexer.next_eq_of_examined_pairs : ∃ token : Token,
    (ofText pairLanguage "?aa;;" Length.zero).next 0 (pairLanguage.lexMode 0) none = token ∧
      token.symbol = SymbolId.error ∧ token.reach = 5 ∧
      (ofText pairLanguage "é?aa;;;" (Length.ofChars ['é'])).next 0 (pairLanguage.lexMode 0) none
        = { token with start := ⟨2, 0, 2⟩ } := by
  obtain ⟨token, lexed⟩ : ∃ token,
      (ofText pairLanguage "?aa;;" Length.zero).next 0 (pairLanguage.lexMode 0) none = token :=
    ⟨_, rfl⟩
  have known : token.symbol = SymbolId.error ∧ token.reach = 5 := by
    rw [← lexed]
    decide +kernel
  have here : "?aa;;".toList = [] ++ ['?', 'a', 'a', ';', ';'] := rfl
  have there : "é?aa;;;".toList = ['é'] ++ ['?', 'a', 'a', ';', ';', ';'] := rfl
  refine ⟨token, lexed, known.1, known.2, ?_⟩
  refine next_eq_of_examined pairLanguage here there (by decide +kernel) lexed ?_ ?_
  · rw [known.2]
    decide
  · rw [known.2]
    decide

end IncrementalGlr
