import IncrementalGlr.Proofs.Parse.Stack

/-!
# Recovery loses no text

However a version is mended, its stack covers the text in front of its lookahead, and a root covers
all of it.
-/

namespace IncrementalGlr

def Lookahead.Stands (table : Table) : Lookahead → List Char → Prop
  | .token lexed, post => lexed.Covers table post
  | .reused tree, post =>
    ∃ own rest, post = own ++ rest ∧ tree.Spells own rest ∧ tree.Settled table
      ∧ tree.firstLeaf.symbol ≠ SymbolId.endOfInput

structure Version.Spells (version : Version) (table : Table) (pre post : List Char) : Prop where
  stack : version.stack.Spells table pre post
  lookahead : ∀ lookahead ∈ version.lookahead, lookahead.Stands table post

def Version.Fits (version : Version) (table : Table) (text : List Char) : Prop :=
  ∃ pre post, text = pre ++ post ∧ version.Spells table pre post

structure Subtree.IsRootOf (root : Subtree) (table : Table) (text : List Char) : Prop where
  spells : root.Spells text []
  settled : root.Settled table

theorem Action.eq_reduce_of_reduction? {action : Action} {symbol : SymbolId} {childCount : UInt16}
    {production : ProductionId} (h : action.reduction? = some (symbol, childCount, production)) :
    ∃ dynamicPrecedence, action = .reduce symbol childCount dynamicPrecedence production := by
  cases action with
  | reduce =>
    cases h
    exact ⟨_, rfl⟩
  | shift => contradiction
  | accept => contradiction

theorem Action.eq_shift_of_shiftTarget? {action : Action} {next : StateId}
    (h : action.shiftTarget? = some next) : action = .shift next := by
  cases action with
  | shift =>
    cases h
    rfl
  | reduce => contradiction
  | accept => contradiction

theorem Action.eq_accept_of_isAccept {action : Action} (h : action.isAccept = true) :
    action = .accept := by
  cases action with
  | accept => rfl
  | shift => contradiction
  | reduce => contradiction

namespace Version

variable {version : Version} {table : Table} {pre own post text : List Char} {tree : Subtree}

theorem fits_start (table : Table) (short : IsShort text) : start.Fits table text :=
  ⟨[], text, rfl, ⟨rfl, short⟩, fun _ found => nomatch found⟩

theorem fits_shift (whole : text = pre ++ (own ++ post))
    (h : version.stack.Spells table pre (own ++ post)) (spells : tree.Spells own post)
    (settled : tree.Settled table) (next : StateId) : (version.shift tree next).Fits table text :=
  ⟨pre ++ own, post, by simp [whole], h.push spells settled next, fun _ found => nomatch found⟩

theorem fits_shift_leaf (language : Language) (whole : text = pre ++ post)
    (h : version.stack.Spells table pre post) {token : Token} (covers : token.Covers table post)
    (state : StateId) (isExtra : Bool) (next : StateId) :
    (version.shift (Subtree.leaf language token state isExtra) next).Fits table text := by
  obtain ⟨own, rest, rfl, _, spells⟩ := Subtree.spells_leaf language covers state isExtra
  exact fits_shift whole h spells (Subtree.settled_leaf language covers.lexed state isExtra) next

end Version

namespace ParseInput

variable {input : ParseInput} {stack : Stack} {pre post text : List Char} {token : Token}
  {version : Version}

theorem covers_lex (consistent : input.language.table.Consistent)
    (whole : input.source.text.toList = pre ++ post)
    (h : stack.Spells input.language.table pre post) (mode : LexModeId) :
    (input.lex stack mode).Covers input.language.table post := by
  have between : ((Lexer.ofSource input.language input.source).seek stack.position).cursor.Between
      pre post := ⟨whole, h.position⟩
  exact Lexer.covers_next consistent between _

theorem isRootOf_errorRoot (h : stack.Spells input.language.table text []) :
    (input.errorRoot stack).IsRootOf input.language.table text := by
  obtain ⟨all, settled⟩ := h.all
  have inside : ∀ tree ∈ [Subtree.errorNode input.language stack.subtrees],
      tree.Settled input.language.table := by
    intro tree member
    rw [List.mem_singleton.1 member]
    exact Subtree.settled_errorNode input.language settled
  refine ⟨?_, Subtree.settled_ofProduction _ _ _ inside⟩
  exact Subtree.spells_ofProduction _ _ h.short.left
    (Subtree.spellAll_singleton.2 (Subtree.spells_errorNode input.language h.short.left all))
    fun _ => rfl

inductive BecomesRoot (input : ParseInput) (stack : Stack) : Subtree → Prop
  | opened {extras below : Stack} {top : StackEntry} (parts : stack = extras ++ top :: below)
      (start : top.subtree.symbol = input.language.table.startSymbol) :
      BecomesRoot input stack (Subtree.ofProduction input.language top.subtree.symbol
        top.subtree.production
        (Stack.subtrees below ++ top.subtree.children ++ Stack.subtrees extras))
  | error : BecomesRoot input stack (input.errorRoot stack)

theorem becomesRoot_root (input : ParseInput) (stack : Stack) :
    input.BecomesRoot stack (input.root stack) := by
  unfold root
  dsimp only
  split
  · next found =>
      split
      · next start => exact .opened (Stack.eq_of_dropWhile found) (beq_iff_eq.1 start)
      · exact .error
  · exact .error

theorem isRootOf_root (consistent : input.language.table.Consistent)
    (h : stack.Spells input.language.table text []) :
    (input.root stack).IsRootOf input.language.table text := by
  have becomes := becomesRoot_root input stack
  generalize input.root stack = root at becomes ⊢
  cases becomes with
  | @opened extras below top parts start =>
    have short := h.short.left
    rw [parts] at h
    obtain ⟨first, second, rfl, ⟨lower, own, rfl, bottom, spells, settled, _⟩, passed,
      settledPassed⟩ := h.split
    obtain ⟨left, settledLeft⟩ := bottom.all
    -- A childless top is the node of an empty production and covers nothing.
    have inside : Subtree.SpellAll top.subtree.children own (second ++ []) := by
      by_cases interior : top.subtree.children = []
      · have empty := settled.hollow.here settled.unchanged interior (by
          rw [show top.subtree.info.symbol = _ from start]
          exact consistent.start)
        rw [show top.subtree.info.size = _ from spells.size] at empty
        rw [interior, Length.eq_nil_of_bytes_ofChars (congrArg (·.bytes) empty)]
        rfl
      · exact spells.children interior
    refine ⟨Subtree.spells_ofProduction _ _ short ?_ fun _ => rfl,
      Subtree.settled_ofProduction _ _ _ ?_⟩
    · refine Subtree.spellAll_append.2 ⟨lower ++ own, second, rfl, ?_, passed⟩
      exact Subtree.spellAll_append.2 ⟨lower, own, rfl, left, inside⟩
    · intro tree member
      rcases List.mem_append.1 member with member | member
      · rcases List.mem_append.1 member with member | member
        · exact settledLeft tree member
        · exact settled.child member
      · exact settledPassed tree member
  | error => exact isRootOf_errorRoot h

theorem insertMissing_preserves {motive : Stack → Prop} {terminal : SymbolId} {reach : Nat}
    (push : ∀ stack next, motive stack →
      .shift next ∈ input.language.actions stack.state terminal →
        motive (stack.push (Subtree.missing input.language terminal stack.state) next))
    (reduce : ∀ stack reduced symbol childCount dynamicPrecedence production, motive stack →
      .reduce symbol childCount dynamicPrecedence production ∈
        input.language.actions stack.state terminal →
      input.reduce stack reach true symbol childCount production = some reduced → motive reduced)
    (budget : Nat) (h : motive stack) :
    motive (input.insertMissing terminal reach budget stack) := by
  induction budget generalizing stack with
  | zero => exact h
  | succ budget ih =>
    unfold insertMissing
    dsimp only
    split
    · next next found =>
        obtain ⟨action, chosen, isShift⟩ := List.exists_of_findSome?_eq_some found
        cases Action.eq_shift_of_shiftTarget? isShift
        exact push stack next h chosen
    · split
      · next symbol childCount production found =>
          obtain ⟨action, chosen, reduces⟩ := List.exists_of_findSome?_eq_some found
          obtain ⟨dynamicPrecedence, rfl⟩ := Action.eq_reduce_of_reduction? reduces
          split
          · next reduced done =>
              exact ih (reduce stack reduced symbol childCount _ production h chosen done)
          · exact h
      · exact h

theorem insertAll_preserves {motive : Stack → Prop} {terminals : List SymbolId} {reach : Nat}
    (push : ∀ terminal ∈ terminals, ∀ stack next, motive stack →
      .shift next ∈ input.language.actions stack.state terminal →
        motive (stack.push (Subtree.missing input.language terminal stack.state) next))
    (reduce : ∀ stack reduced symbol childCount production, motive stack →
      input.reduce stack reach true symbol childCount production = some reduced → motive reduced)
    (budget : Nat) (h : motive stack) :
    motive (terminals.foldl
      (fun stack terminal => input.insertMissing terminal reach budget stack) stack) :=
  List.foldlRecOn (motive := motive) terminals _ h fun _ h terminal member =>
    insertMissing_preserves (push terminal member)
      (fun stack reduced symbol childCount _ production h _ done =>
        reduce stack reduced symbol childCount production h done) budget h

theorem spells_insertMissing (consistent : input.language.table.Consistent) {terminal : SymbolId}
    (isToken : terminal ≠ SymbolId.endOfInput) {reach budget : Nat}
    (h : stack.Spells input.language.table pre post) :
    (input.insertMissing terminal reach budget stack).Spells input.language.table pre post := by
  refine insertMissing_preserves (motive := fun stack =>
    stack.Spells input.language.table pre post) (fun stack next h _ => ?_)
    (fun _ _ _ _ _ _ h _ done => spells_reduce consistent h done) budget h
  have spells : (Subtree.missing input.language terminal stack.state).Spells [] post :=
    Subtree.spells_missing input.language stack.state isToken
  have pushed := h.push spells
    (Subtree.settled_missing input.language terminal stack.state) next
  rwa [List.append_nil] at pushed

theorem ne_end_of_insertable {terminal : SymbolId} (member : terminal ∈ input.insertable) :
    terminal ≠ SymbolId.endOfInput := by
  rw [insertable, List.mem_filter, List.mem_map] at member
  obtain ⟨⟨i, member, rfl⟩, _⟩ := member
  obtain ⟨k, bound, found⟩ := List.getElem_of_mem member
  rw [List.getElem_drop, List.getElem_range] at found
  have few := input.language.table.terminalCount.toNat_lt
  simp only [List.length_drop, List.length_range] at bound
  intro isEnd
  have word : (UInt16.ofNat i).toNat = 0 := congrArg SymbolId.index isEnd
  rw [UInt16.toNat_ofNat', Nat.mod_eq_of_lt (by omega)] at word
  omega

theorem mem_insertable_of_insertion? {wanted : SymbolId} {count : Nat} {simulation : Simulation}
    {terminals : List SymbolId} (h : input.insertion? wanted count simulation = some terminals) :
    ∀ terminal ∈ terminals, terminal ∈ input.insertable := by
  induction count generalizing simulation terminals with
  | zero =>
    unfold insertion? at h
    split at h
    · cases h
      exact fun _ member => absurd member List.not_mem_nil
    · contradiction
  | succ count ih =>
    rw [insertion?, List.findSome?_eq_some_iff] at h
    obtain ⟨before, terminal, behind, whole, found, _⟩ := h
    rw [Option.bind_eq_bind, Option.bind_eq_some_iff] at found
    obtain ⟨next, _, found⟩ := found
    rw [Option.bind_eq_bind, Option.bind_eq_some_iff] at found
    obtain ⟨rest, more, found⟩ := found
    cases found
    intro other member
    rcases List.mem_cons.1 member with rfl | member
    · rw [whole]
      exact List.mem_append_right _ (List.mem_cons_self ..)
    · exact ih more other member

theorem mem_insertable_of_shortestInsertion? {wanted : SymbolId} {simulation : Simulation}
    {choices count : Nat} {terminals : List SymbolId}
    (h : input.shortestInsertion? wanted simulation choices count = some terminals) :
    ∀ terminal ∈ terminals, terminal ∈ input.insertable := by
  induction choices generalizing count with
  | zero => contradiction
  | succ choices ih =>
    unfold shortestInsertion? at h
    split at h
    · next found =>
        cases h
        exact mem_insertable_of_insertion? found
    · exact ih h

theorem spells_insertAll (consistent : input.language.table.Consistent) {reach budget : Nat}
    {terminals : List SymbolId} (insertable : ∀ terminal ∈ terminals, terminal ∈ input.insertable)
    (h : stack.Spells input.language.table pre post) :
    Stack.Spells input.language.table (terminals.foldl
      (fun stack terminal => input.insertMissing terminal reach budget stack) stack) pre post :=
  List.foldlRecOn (motive := fun stack : Stack => stack.Spells input.language.table pre post)
    terminals _ h fun _ spells terminal member =>
      spells_insertMissing consistent (ne_end_of_insertable (insertable terminal member)) spells

theorem cheapestFold?_eq_some {wanted : SymbolId} {below : Stack} {error : Subtree}
    (h : input.cheapestFold? wanted stack = some (below, error)) :
    ∃ upper, stack = upper ++ below
      ∧ error = Subtree.errorNode input.language upper.subtrees := by
  have found : ∀ fold ∈ input.cheapestFold? wanted stack, ∃ upper, stack = upper ++ fold.1
      ∧ fold.2 = Subtree.errorNode input.language upper.subtrees := by
    unfold cheapestFold?
    refine List.foldlRecOn (motive := fun best : Option (Stack × Subtree) => ∀ fold ∈ best,
      ∃ upper, stack = upper ++ fold.1 ∧ fold.2 = Subtree.errorNode input.language upper.subtrees)
      _ _ (fun fold found => nomatch found) ?_
    intro best before depth _
    split
    · next children below took =>
        split
        · dsimp only
          split
          · intro fold found
            cases found
            obtain ⟨upper, whole, rfl⟩ := Stack.popEntries_eq_some took
            exact ⟨upper, whole, rfl⟩
          · exact before
        · exact before
    · exact before
  exact found (below, error) h

theorem spells_fold {upper lower : Stack} (parts : stack = upper ++ lower)
    (h : stack.Spells input.language.table pre post) :
    Stack.Spells input.language.table
      (lower.push (Subtree.errorNode input.language upper.subtrees) lower.state) pre post := by
  rw [parts] at h
  obtain ⟨first, second, rfl, below, all, settled⟩ := h.split
  exact below.push (Subtree.spells_errorNode input.language h.short.left.right all)
    (Subtree.settled_errorNode input.language settled) _

inductive Skips (input : ParseInput) (version : Version) (leaf : Subtree) : Version → Prop
  | opened :
      Skips input version leaf
        (version.shift (Subtree.errorNode input.language [leaf]) version.stack.state)
  | extended {extras below : Stack} {top : StackEntry}
      (parts : version.stack = extras ++ top :: below) (interior : top.subtree.children ≠ []) :
      Skips input version leaf ({ version with stack := below }.shift
        (Subtree.errorNode input.language
          (top.subtree.children ++ Stack.subtrees extras ++ [leaf]))
        below.state)

theorem skips_skip (input : ParseInput) (version : Version) (token : Token) :
    input.Skips version (Subtree.leaf input.language token version.stack.state false)
      (input.skip version token) := by
  unfold skip
  dsimp only
  split
  · next found =>
      split
      · next error =>
          refine .extended (Stack.eq_of_dropWhile found) fun leaf => ?_
          simp [Subtree.isLeaf, leaf] at error
      · exact .opened
  · exact .opened

theorem fits_skip (whole : text = pre ++ post)
    (h : version.stack.Spells input.language.table pre post)
    (covers : token.Covers input.language.table post) :
    (input.skip version token).Fits input.language.table text := by
  obtain ⟨own, rest, rfl, _, spells⟩ :=
    Subtree.spells_leaf input.language covers version.stack.state false
  have settled := Subtree.settled_leaf input.language covers.lexed version.stack.state false
  have skips := skips_skip input version token
  generalize Subtree.leaf input.language token version.stack.state false = leaf
    at spells settled skips
  generalize input.skip version token = next at skips ⊢
  have short := h.short
  cases skips with
  | opened =>
    refine Version.fits_shift whole h
      (Subtree.spells_errorNode input.language short.right.left
        (Subtree.spellAll_singleton.2 spells))
      (Subtree.settled_errorNode input.language ?_) _
    intro tree member
    rwa [List.mem_singleton.1 member]
  | @extended extras below top parts interior =>
    rw [parts] at h
    obtain ⟨first, second, rfl, ⟨lower, middle, rfl, bottom, topSpells, topSettled, _⟩, passed,
      settledPassed⟩ := h.split
    have all : Subtree.SpellAll (top.subtree.children ++ Stack.subtrees extras ++ [leaf])
        (middle ++ second ++ own) rest := by
      refine Subtree.spellAll_append.2
        ⟨middle ++ second, own, rfl, ?_, Subtree.spellAll_singleton.2 spells⟩
      exact Subtree.spellAll_append.2
        ⟨middle, second, rfl, topSpells.children interior, passed⟩
    -- The new ERROR node covers what the old one did, the extras behind it and the token.
    rw [← List.append_assoc, ← List.append_assoc] at bottom
    have places : text = lower ++ (middle ++ second ++ own ++ rest) := by simp [whole]
    refine Version.fits_shift places bottom
      (Subtree.spells_errorNode input.language bottom.short.right.left all)
      (Subtree.settled_errorNode input.language ?_) _
    intro tree member
    rcases List.mem_append.1 member with member | member
    · rcases List.mem_append.1 member with member | member
      · exact topSettled.child member
      · exact settledPassed tree member
    · rwa [List.mem_singleton.1 member]

inductive Mends (input : ParseInput) (version : Version) (token : Token) : Mended → Prop
  | passed (isError : token.isError = true) :
      Mends input version token (.version (version.shift
        (Subtree.leaf input.language token version.stack.state true) version.stack.state))
  | inserted {terminals : List SymbolId}
      (insertable : ∀ terminal ∈ terminals, terminal ∈ input.insertable) :
      Mends input version token (.version { version with
        stack := terminals.foldl
          (fun stack terminal =>
            input.insertMissing terminal token.reach input.options.maxReduceSteps stack)
          version.stack
        lookahead := some (.token token) })
  | folded {upper lower : Stack} (parts : version.stack = upper ++ lower) :
      Mends input version token (.version { version with
        stack := lower.push (Subtree.errorNode input.language upper.subtrees) lower.state
        lookahead := some (.token token) })
  | skipped (inside : token.isEnd = false) :
      Mends input version token (.version (input.skip version token))
  | ended (isEnd : token.isEnd = true) :
      Mends input version token (.root (input.errorRoot version.stack))

theorem skipCost?_eq_none {state : StateId} :
    input.skipCost? state token = none ↔ token.isEnd = true := by
  simp [skipCost?]

theorem mends_giveUp (input : ParseInput) (version : Version) (token : Token)
    (wanted : SymbolId) :
    input.Mends version token (input.giveUp { version with lookahead := some (.token token) } token
      (input.cheapestFold? wanted version.stack)
      (input.skipCost? version.stack.state token)) := by
  have skipped (cost : input.skipCost? version.stack.state token ≠ none) :
      input.Mends version token
        (.version (input.skip { version with lookahead := some (.token token) } token)) :=
    .skipped (Bool.eq_false_iff.2 (mt skipCost?_eq_none.2 cost))
  unfold giveUp
  split
  · next below error fold =>
      split
      · next cheap =>
          refine skipped fun none => ?_
          rw [none] at cheap
          contradiction
      · obtain ⟨upper, parts, rfl⟩ := cheapestFold?_eq_some fold
        exact .folded parts
  · next cost => exact skipped (cost ▸ Option.some_ne_none _)
  · next none => exact .ended (skipCost?_eq_none.1 none)

theorem mends_recover (input : ParseInput) (version : Version) :
    input.Mends version (input.nextToken version) (input.recover version) := by
  unfold recover
  dsimp only
  split
  · next isError => exact .passed isError
  · split
    · next terminals found =>
        split
        · exact .inserted (mem_insertable_of_shortestInsertion? found)
        · exact mends_giveUp input version _ _
    · exact mends_giveUp input version _ _

def Mended.Fits (table : Table) (text : List Char) : Mended → Prop
  | .version version => version.Fits table text
  | .root tree => tree.IsRootOf table text

theorem covers_nextToken (consistent : input.language.table.Consistent)
    (whole : input.source.text.toList = pre ++ post)
    (h : version.Spells input.language.table pre post) :
    (input.nextToken version).Covers input.language.table post := by
  unfold nextToken
  split
  · next token found => exact h.lookahead (.token token) found
  · exact covers_lex consistent whole h.stack _

theorem fits_recover (consistent : input.language.table.Consistent)
    (h : version.Fits input.language.table input.source.text.toList) :
    Mended.Fits input.language.table input.source.text.toList (input.recover version) := by
  obtain ⟨pre, post, whole, h⟩ := h
  have covers := covers_nextToken consistent whole h
  have mends := mends_recover input version
  generalize input.nextToken version = token at covers mends
  generalize input.recover version = mended at mends ⊢
  have known : ∀ lookahead ∈ some (Lookahead.token token),
      lookahead.Stands input.language.table post := by
    rintro _ ⟨⟩
    exact covers
  cases mends with
  | passed isError => exact Version.fits_shift_leaf input.language whole h.stack covers _ _ _
  | inserted insertable =>
    exact ⟨pre, post, whole, spells_insertAll consistent insertable h.stack, known⟩
  | folded parts => exact ⟨pre, post, whole, spells_fold parts h.stack, known⟩
  | skipped inside => exact fits_skip whole h.stack covers
  | ended isEnd =>
    have none := covers.last isEnd
    subst none
    rw [List.append_nil] at whole
    rw [← whole] at h
    exact isRootOf_errorRoot h.stack

end ParseInput

end IncrementalGlr
