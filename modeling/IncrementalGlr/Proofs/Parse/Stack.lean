import IncrementalGlr.Proofs.Tree.Spelling
import IncrementalGlr.Parse.Recovery

/-!
# Stacks spell text

The subtrees on a stack cover the text from its start up to the stack's position. What takes
subtrees off a stack splits it in two, and what puts them back in another shape covers the same
text.
-/

namespace IncrementalGlr

namespace Stack

/-- The subtrees, the bottom first, cover the characters `pre`, with `post` behind them. The text is
one whose offsets are words. -/
def Spells (table : Table) : Stack → List Char → List Char → Prop
  | [], pre, post => pre = [] ∧ IsShort post
  | entry :: below, pre, post =>
    ∃ lower own, pre = lower ++ own ∧ Spells table below lower (own ++ post)
      ∧ entry.subtree.Spells own post ∧ entry.subtree.Settled table
      ∧ entry.position = Length.ofChars pre

variable {table : Table} {stack upper lower : Stack} {pre own post : List Char} {tree : Subtree}

theorem Spells.short (h : stack.Spells table pre post) : IsShort (pre ++ post) := by
  induction stack generalizing pre post with
  | nil =>
    obtain ⟨rfl, short⟩ := h
    exact short
  | cons entry below ih =>
    obtain ⟨lower, own, rfl, under, _⟩ := h
    rw [List.append_assoc]
    exact ih under

theorem Spells.position (h : stack.Spells table pre post) :
    stack.position = Length.ofChars pre := by
  cases stack with
  | nil =>
    obtain ⟨rfl, _⟩ := h
    rfl
  | cons entry below =>
    obtain ⟨_, _, _, _, _, _, position⟩ := h
    exact position

theorem Spells.push (h : stack.Spells table pre (own ++ post)) (spells : tree.Spells own post)
    (settled : tree.Settled table) (state : StateId) :
    (stack.push tree state).Spells table (pre ++ own) post := by
  refine ⟨pre, own, rfl, h, spells, settled, ?_⟩
  have short := h.short
  rw [← List.append_assoc] at short
  show stack.position + tree.size = _
  rw [h.position, spells.size, short.left.add]

theorem Spells.pushAll (h : stack.Spells table pre (own ++ post)) {trees : List Subtree}
    (all : Subtree.SpellAll trees own post) (settled : ∀ tree ∈ trees, tree.Settled table)
    (state : StateId) :
    Spells table (trees.foldl (fun stack tree => stack.push tree state) stack) (pre ++ own)
      post := by
  induction trees generalizing stack pre own with
  | nil =>
    cases all
    simpa using h
  | cons tree trees ih =>
    obtain ⟨first, others, rfl, spells, all⟩ := all
    rw [List.append_assoc] at h
    have pushed := h.push spells (settled tree (List.mem_cons_self ..)) state
    rw [← List.append_assoc]
    exact ih pushed all fun other member => settled other (List.mem_cons_of_mem _ member)

theorem subtrees_cons (entry : StackEntry) (below : Stack) :
    subtrees (entry :: below) = subtrees below ++ [entry.subtree] := by
  simp [subtrees]

theorem subtrees_push (tree : Subtree) (state : StateId) :
    (stack.push tree state).subtrees = stack.subtrees ++ [tree] := subtrees_cons _ _

theorem subtrees_pushAll (trees : List Subtree) (state : StateId) :
    subtrees (trees.foldl (fun stack tree => stack.push tree state) stack)
      = stack.subtrees ++ trees := by
  induction trees generalizing stack with
  | nil => simp
  | cons tree trees ih =>
    rw [List.foldl_cons, ih, subtrees_push, List.append_assoc, List.singleton_append]

theorem forall_push {p : Subtree → Prop} (h : ∀ other ∈ stack.subtrees, p other) (here : p tree)
    (state : StateId) : ∀ other ∈ (stack.push tree state).subtrees, p other := by
  intro other member
  rw [subtrees_push] at member
  rcases List.mem_append.1 member with old | new
  · exact h other old
  · rwa [List.mem_singleton.1 new]

theorem mem_subtrees : tree ∈ stack.subtrees ↔ ∃ entry ∈ stack, entry.subtree = tree := by
  simp [subtrees]

theorem Spells.split (h : Spells table (upper ++ lower) pre post) :
    ∃ first second, pre = first ++ second ∧ lower.Spells table first (second ++ post)
      ∧ Subtree.SpellAll upper.subtrees second post
      ∧ ∀ tree ∈ upper.subtrees, tree.Settled table := by
  induction upper generalizing pre post with
  | nil => exact ⟨pre, [], by simp, by simpa using h, rfl, by simp [subtrees]⟩
  | cons entry upper ih =>
    obtain ⟨before, own, rfl, below, spells, settled, _⟩ := h
    obtain ⟨first, second, rfl, bottom, all, allSettled⟩ := ih below
    refine ⟨first, second ++ own, by simp, by simpa using bottom, ?_, ?_⟩
    · rw [subtrees_cons]
      exact Subtree.spellAll_append.2
        ⟨second, own, rfl, all, Subtree.spellAll_singleton.2 spells⟩
    · intro tree member
      rw [subtrees_cons, List.mem_append, List.mem_singleton] at member
      rcases member with member | rfl
      · exact allSettled tree member
      · exact settled

theorem Spells.all (h : stack.Spells table pre post) :
    Subtree.SpellAll stack.subtrees pre post ∧ ∀ tree ∈ stack.subtrees, tree.Settled table := by
  rw [← List.append_nil stack] at h
  obtain ⟨first, second, rfl, ⟨rfl, _⟩, all, settled⟩ := h.split
  exact ⟨all, settled⟩

theorem take_eq_some {count : Nat} {taken : List Subtree}
    (h : stack.take count = some (taken, lower)) :
    ∃ upper, stack = upper ++ lower ∧ taken = upper.map (·.subtree) := by
  induction stack generalizing count taken with
  | nil =>
    cases count with
    | zero =>
      cases h
      exact ⟨[], rfl, rfl⟩
    | succ count => contradiction
  | cons entry below ih =>
    cases count with
    | zero =>
      cases h
      exact ⟨[], rfl, rfl⟩
    | succ count =>
      rw [take, Option.map_eq_some_iff] at h
      obtain ⟨⟨others, rest⟩, took, eq⟩ := h
      cases eq
      obtain ⟨upper, rfl, rfl⟩ := ih took
      exact ⟨entry :: upper, rfl, rfl⟩

theorem popEntries_eq_some {count : Nat} {children : List Subtree}
    (h : stack.popEntries count = some (children, lower)) :
    ∃ upper, stack = upper ++ lower ∧ children = upper.subtrees := by
  rw [popEntries, Option.map_eq_some_iff] at h
  obtain ⟨⟨taken, rest⟩, took, eq⟩ := h
  cases eq
  obtain ⟨upper, whole, rfl⟩ := take_eq_some took
  exact ⟨upper, whole, rfl⟩

theorem subtrees_append (upper lower : Stack) :
    subtrees (upper ++ lower) = subtrees lower ++ subtrees upper := by
  simp [subtrees]

theorem pop_eq_some {count : Nat} {popped : Popped} (h : stack.pop count = some popped) :
    ∃ upper, stack = upper ++ popped.below
      ∧ upper.subtrees = popped.children ++ popped.trailing := by
  rw [pop, Option.map_eq_some_iff] at h
  obtain ⟨⟨children, below⟩, took, rfl⟩ := h
  obtain ⟨upper, whole, rfl⟩ := popEntries_eq_some took
  refine ⟨stack.takeWhile _ ++ upper, ?_, subtrees_append _ _⟩
  rw [List.append_assoc, ← whole, List.takeWhile_append_dropWhile]

section Top

variable {upper below : Stack} {top : StackEntry}

theorem eq_of_dropWhile {p : StackEntry → Bool} (found : stack.dropWhile p = top :: below) :
    stack = stack.takeWhile p ++ top :: below := by
  rw [← found, List.takeWhile_append_dropWhile]

theorem subtrees_append_cons :
    subtrees (upper ++ top :: below) = below.subtrees ++ top.subtree :: subtrees upper := by
  rw [subtrees_append, subtrees_cons, List.append_assoc, List.singleton_append]

theorem Spells.of_append_cons (h : Spells table (upper ++ top :: below) pre post) :
    (∃ own rest, top.subtree.Spells own rest) ∧ top.subtree.Settled table := by
  obtain ⟨_, _, _, ⟨_, own, _, _, covers, settled, _⟩, _⟩ := h.split
  exact ⟨⟨own, _, covers⟩, settled⟩

end Top

end Stack

namespace ParseInput

variable {input : ParseInput} {stack reduced : Stack} {pre post : List Char}

theorem reduce_eq_some {reach : Nat} {isFragile : Bool} {symbol : SymbolId} {childCount : UInt16}
    {production : ProductionId}
    (done : input.reduce stack reach isFragile symbol childCount production = some reduced) :
    ∃ popped next node, stack.pop childCount.toNat = some popped ∧
      input.language.goto? popped.below.state symbol = some next ∧
      node = (Subtree.ofProduction input.language symbol production popped.children).withReach
        (reach - popped.below.position.bytes) ∧
      reduced = popped.trailing.foldl (fun stack extra => stack.push extra next)
        (popped.below.push (if isFragile then node.withFragile else node) next) := by
  rw [reduce, Option.bind_eq_bind, Option.bind_eq_some_iff] at done
  obtain ⟨popped, took, done⟩ := done
  rw [Option.bind_eq_bind, Option.bind_eq_some_iff] at done
  obtain ⟨next, found, done⟩ := done
  exact ⟨popped, next, _, took, found, rfl, (Option.some.inj done).symm⟩

theorem forall_reduce {p : Subtree → Prop} (h : ∀ tree ∈ stack.subtrees, p tree) {reach : Nat}
    {isFragile : Bool} {symbol : SymbolId} {childCount : UInt16} {production : ProductionId}
    (made : ∀ popped node reach, stack.pop childCount.toNat = some popped →
      (∀ child ∈ popped.children, p child) → node =
        (Subtree.ofProduction input.language symbol production popped.children).withReach reach →
      p (if isFragile then node.withFragile else node))
    (done : input.reduce stack reach isFragile symbol childCount production = some reduced) :
    ∀ tree ∈ reduced.subtrees, p tree := by
  obtain ⟨popped, next, node, took, _, same, rfl⟩ := reduce_eq_some done
  obtain ⟨upper, whole, parts⟩ := Stack.pop_eq_some took
  rw [whole, Stack.subtrees_append, parts] at h
  intro tree member
  rw [Stack.subtrees_pushAll, Stack.subtrees_push] at member
  rcases List.mem_append.1 member with member | trailing
  · rcases List.mem_append.1 member with below | new
    · exact h tree (List.mem_append_left _ below)
    · rw [List.mem_singleton.1 new]
      exact made popped node _ took (fun child inside =>
        h child (List.mem_append_right _ (List.mem_append_left _ inside))) same
  · exact h tree (List.mem_append_right _ (List.mem_append_right _ trailing))

theorem spells_reduce (consistent : input.language.table.Consistent) {reach : Nat}
    {isFragile : Bool} {symbol : SymbolId} {childCount : UInt16} {production : ProductionId}
    (h : stack.Spells input.language.table pre post)
    (done : input.reduce stack reach isFragile symbol childCount production = some reduced) :
    reduced.Spells input.language.table pre post := by
  obtain ⟨popped, next, _, took, found, rfl, rfl⟩ := reduce_eq_some done
  obtain ⟨upper, whole, parts⟩ := Stack.pop_eq_some took
  rw [whole] at h
  obtain ⟨first, second, rfl, below, all, settled⟩ := h.split
  rw [parts] at all settled
  obtain ⟨own, behind, rfl, children, trailing⟩ := Subtree.spellAll_append.1 all
  have ne := consistent.ne_end_of_goto? found
  have short := below.short
  rw [List.append_assoc] at short
  have spells := Subtree.spells_ofProduction input.language production short.right.left children
    fun isEnd => absurd isEnd ne
  have built := Subtree.settled_ofProduction input.language symbol production
    fun tree member => settled tree (List.mem_append_left _ member)
  rw [List.append_assoc] at below
  rw [← List.append_assoc]
  refine Stack.Spells.pushAll (below.push ?_ ?_ next) trailing
    (fun tree member => settled tree (List.mem_append_right _ member)) next
  · split
    · exact (spells.modify rfl rfl rfl).modify rfl rfl rfl
    · exact spells.modify rfl rfl rfl
  · split
    · exact (built.withReach _).withFragile
    · exact built.withReach _

end ParseInput

end IncrementalGlr
