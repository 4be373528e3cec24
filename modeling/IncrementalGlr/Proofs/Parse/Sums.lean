import IncrementalGlr.Proofs.Parse.TakingOver

/-!
# Sums over trees and stacks

Error costs and dynamic precedences are summed up over whole trees and stacks. The precedences are
added in 32 bits, where the true sum of many of them may lie outside: a tree of fewer nodes than 16
bits can count has room for its sum, and so has a stack of such trees.
-/

namespace IncrementalGlr

/-! ## Adding in 32 bits -/

def wrapped (n : Int) : Int := n.bmod (2 ^ 32)

theorem addPrecedences_eq (a b : Int) : addPrecedences a b = wrapped (a + b) := rfl

@[simp] theorem wrapped_add_wrapped (a b : Int) : wrapped (a + wrapped b) = wrapped (a + b) :=
  Int.add_bmod_bmod

@[simp] theorem wrapped_wrapped_add (a b : Int) : wrapped (wrapped a + b) = wrapped (a + b) :=
  Int.bmod_add_bmod

theorem wrapped_eq {n : Int} (small : n.natAbs < 2 ^ 31) : wrapped n = n :=
  Int.bmod_eq_of_le (by omega) (by omega)

example : addPrecedences 2147483647 1 = -2147483648 := by decide

def Table.ownPrecedence (table : Table) (production : ProductionId) : Int :=
  (table.productions[production.index]?).elim 0 fun production =>
    production.dynamicPrecedence.toInt

theorem Table.natAbs_ownPrecedence_le (table : Table) (production : ProductionId) :
    (table.ownPrecedence production).natAbs ≤ 2 ^ 15 := by
  unfold ownPrecedence
  cases table.productions[production.index]? with
  | none => exact Nat.zero_le _
  | some production =>
    have least := production.dynamicPrecedence.le_toInt
    have most := production.dynamicPrecedence.toInt_lt
    simp only [Option.elim_some]
    omega

namespace Subtree

variable {language : Language} {table : Table} {tree : Subtree} {trees children : List Subtree}
  {info : SubtreeInfo} {p : SubtreeInfo → List Subtree → Prop}

/-! ## Edits and sums -/

theorem map_editedList {α : Type} {f : Subtree → α} {edit : Edit} {start : Length} {last : Bool}
    (same : ∀ tree ∈ trees, ∀ start last, f (tree.edited edit start last) = f tree) :
    (editedList edit start last trees).map f = trees.map f := by
  induction trees generalizing start with
  | nil => rfl
  | cons tree rest ih =>
    rw [editedList, List.map_cons, List.map_cons, same tree (List.mem_cons_self ..),
      ih fun other member => same other (List.mem_cons_of_mem _ member)]

theorem every_edited (h : tree.Every p) (edit : Edit)
    (keeps : ∀ info children size start last, p info children →
      p { info with size, isChanged := true } (editedList edit start last children))
    (start : Length) (last : Bool) : (tree.edited edit start last).Every p := by
  induction tree generalizing start last with
  | node info children ih =>
    rcases edited_cases edit start last info children with same | ⟨size, changed⟩
    · rwa [same]
    · rw [changed]
      refine every_node.2 ⟨keeps _ _ _ _ _ h.here, fun child member => ?_⟩
      obtain ⟨old, there, start, last, rfl⟩ := mem_editedList member
      exact ih old there (h.child there) start last

theorem countList_eq (trees : List Subtree) : countList trees = (trees.map count).sum := by
  induction trees with
  | nil => rfl
  | cons tree trees ih => rw [countList, ih, List.map_cons, List.sum_cons]

@[simp] theorem count_edited (edit : Edit) (start : Length) (last : Bool) (tree : Subtree) :
    (tree.edited edit start last).count = tree.count := by
  induction tree generalizing start last with
  | node info children ih =>
    rcases edited_cases edit start last info children with same | ⟨size, changed⟩
    · rw [same]
    · rw [changed, count, count, countList_eq, countList_eq, map_editedList ih]

@[simp] theorem countList_editedList (edit : Edit) (start : Length) (last : Bool)
    (trees : List Subtree) : countList (editedList edit start last trees) = countList trees := by
  rw [countList_eq, countList_eq, map_editedList fun _ _ _ _ => count_edited ..]

/-! ## Dynamic precedences -/

def precedenceOf (trees : List Subtree) : Int := (trees.map (·.dynamicPrecedence)).sum

@[simp] theorem precedenceOf_nil : precedenceOf [] = 0 := rfl

@[simp] theorem precedenceOf_cons (tree : Subtree) (trees : List Subtree) :
    precedenceOf (tree :: trees) = tree.dynamicPrecedence + precedenceOf trees := rfl

@[simp] theorem precedenceOf_append (trees others : List Subtree) :
    precedenceOf (trees ++ others) = precedenceOf trees + precedenceOf others := by
  rw [precedenceOf, List.map_append, List.sum_append]
  rfl

theorem foldr_addPrecedences (trees : List Subtree) :
    trees.foldr (addPrecedences ·.dynamicPrecedence ·) 0 = wrapped (precedenceOf trees) := by
  induction trees with
  | nil => rfl
  | cons tree trees ih =>
    rw [List.foldr_cons, ih, addPrecedences_eq, wrapped_add_wrapped, precedenceOf_cons]

@[simp] theorem dynamicPrecedence_ofProduction (language : Language) (symbol : SymbolId)
    (production : ProductionId) (children : List Subtree) :
    (ofProduction language symbol production children).dynamicPrecedence =
      wrapped (precedenceOf children + language.table.ownPrecedence production) := by
  rw [← wrapped_wrapped_add, ← foldr_addPrecedences]
  rfl

@[simp] theorem dynamicPrecedence_errorNode (language : Language) (children : List Subtree) :
    (errorNode language children).dynamicPrecedence = wrapped (precedenceOf children) :=
  foldr_addPrecedences children

theorem dynamicPrecedence_edited (edit : Edit) (start : Length) (last : Bool) (tree : Subtree) :
    (tree.edited edit start last).dynamicPrecedence = tree.dynamicPrecedence := by
  obtain ⟨info, children⟩ := tree
  rcases edited_cases edit start last info children with same | ⟨size, changed⟩
  · rw [same]
  · rw [changed]
    rfl

@[simp] theorem precedenceOf_editedList (edit : Edit) (start : Length) (last : Bool)
    (trees : List Subtree) : precedenceOf (editedList edit start last trees) = precedenceOf trees :=
  congrArg List.sum (map_editedList fun _ _ _ _ => dynamicPrecedence_edited ..)

inductive Adds (table : Table) (symbol : SymbolId) (production : ProductionId)
    (children : List Subtree) : Int → Prop
  | built (rule : table.isRule symbol = true) :
    Adds table symbol production children (table.ownPrecedence production)
  | leaf (childless : children = []) : Adds table symbol production children 0
  | error (isError : symbol = SymbolId.error) : Adds table symbol production children 0

theorem Adds.natAbs_le {symbol : SymbolId} {production : ProductionId} {own : Int}
    (adds : Adds table symbol production children own) : own.natAbs ≤ 2 ^ 15 := by
  cases adds with
  | built => exact table.natAbs_ownPrecedence_le _
  | leaf => exact Nat.zero_le _
  | error => exact Nat.zero_le _

def Sums (table : Table) (keep : Int → Int) (info : SubtreeInfo) (children : List Subtree) : Prop :=
  ∃ own, Adds table info.symbol info.production children own ∧
    info.dynamicPrecedence = keep (precedenceOf children + own)

theorem Sums.edited {edit : Edit} (h : Sums table wrapped info children) (size start : Length)
    (last : Bool) : Sums table wrapped { info with size, isChanged := true }
      (editedList edit start last children) := by
  obtain ⟨own, adds, sum⟩ := h
  refine ⟨own, ?_, sum.trans (by rw [precedenceOf_editedList])⟩
  cases adds with
  | built rule => exact .built rule
  | leaf childless =>
    cases childless
    exact .leaf rfl
  | error isError => exact .error isError

theorem inherited_sums (language : Language) :
    Inherited language (·.Every (Sums language.table wrapped)) where
  child _ _ h member := h.child member
  leaf _ _ _ := every_node.2 ⟨⟨0, .leaf rfl, rfl⟩, by simp⟩
  missing _ _ := every_node.2 ⟨⟨0, .leaf rfl, rfl⟩, by simp⟩
  ofProduction symbol production children rule below :=
    every_node.2 ⟨⟨_, .built rule, dynamicPrecedence_ofProduction language symbol production
      children⟩, below⟩
  errorNode children below :=
    every_node.2 ⟨⟨0, .error rfl, (dynamicPrecedence_errorNode language children).trans
      (by rw [Int.add_zero])⟩, below⟩
  withExtra _ _ _ h := h.modify id
  withParseState _ _ h := h.modify id
  withFragile _ h := h.modify id
  withReach _ _ h := h.modify id
  edited _ edit start last h :=
    every_edited h edit (fun _ _ _ _ _ sums => sums.edited ..) start last

theorem natAbs_precedenceOf_le
    (h : ∀ tree ∈ trees, tree.dynamicPrecedence.natAbs ≤ 2 ^ 15 * tree.count) :
    (precedenceOf trees).natAbs ≤ 2 ^ 15 * countList trees := by
  induction trees with
  | nil => exact Nat.le_refl 0
  | cons tree trees ih =>
    have first := h tree (List.mem_cons_self ..)
    have others := ih fun other member => h other (List.mem_cons_of_mem _ member)
    rw [precedenceOf_cons, countList]
    omega

theorem count_le_countList (member : tree ∈ trees) : tree.count ≤ countList trees := by
  induction trees with
  | nil => contradiction
  | cons first rest ih =>
    rw [countList]
    rcases List.mem_cons.1 member with rfl | member
    · exact Nat.le_add_right _ _
    · exact Nat.le_trans (ih member) (Nat.le_add_left _ _)

theorem exact_of_few (h : tree.Every (Sums table wrapped)) (few : tree.count < 2 ^ 16) :
    tree.dynamicPrecedence.natAbs ≤ 2 ^ 15 * tree.count ∧ tree.Every (Sums table id) := by
  induction tree with
  | node info children ih =>
    rw [count] at few ⊢
    have below := fun child (member : child ∈ children) =>
      ih child member (h.child member) (by have := count_le_countList member; omega)
    have here : Sums table wrapped info children := h.here
    obtain ⟨own, adds, sum⟩ := here
    have least := natAbs_precedenceOf_le fun child member => (below child member).1
    have most := adds.natAbs_le
    rw [wrapped_eq (by omega)] at sum
    refine ⟨?_, every_node.2 ⟨⟨own, adds, sum⟩, fun child member => (below child member).2⟩⟩
    change info.dynamicPrecedence.natAbs ≤ _
    rw [sum]
    omega

end Subtree

/-! ## Error costs -/

namespace ErrorCost

/-- More than a node adds to the costs of its children, if so many nodes are below it and the text
has so many bytes. -/
def limit (bytes below : Nat) : Nat :=
  missingTree + recovery + (skippedByte + skippedLine) * bytes + skippedTree * below

theorem ofSkipped_le {cs : List Char} {bytes : Nat} (inside : (Length.ofChars cs).bytes ≤ bytes) :
    ofSkipped (Length.ofChars cs) ≤ recovery + (skippedByte + skippedLine) * bytes := by
  have rows := Length.row_ofChars_le cs
  unfold ofSkipped skippedByte skippedLine
  omega

theorem limit_le (bytes : Nat) {few many : Nat} (le : few ≤ many) :
    limit bytes few ≤ limit bytes many :=
  Nat.add_le_add_left (Nat.mul_le_mul_left _ le) _

theorem mul_limit_add_le (bytes many more : Nat) :
    many * limit bytes many + more * limit bytes more ≤
      (many + more) * limit bytes (many + more) := by
  rw [Nat.add_mul]
  exact Nat.add_le_add (Nat.mul_le_mul_left _ (limit_le bytes (Nat.le_add_right _ _)))
    (Nat.mul_le_mul_left _ (limit_le bytes (Nat.le_add_left _ _)))

end ErrorCost

namespace Subtree

variable {language : Language} {tree : Subtree} {trees children : List Subtree}
  {info : SubtreeInfo} {piece post : List Char} {bytes : Nat}

/-- A node adds to the costs of its children what it skips and inserts itself: a leaf pays for its
own size, an ERROR node for the sizes of its children. Edits change sizes but no costs, so that only
unchanged nodes are still as large as when they were paid for. -/
structure Charged (info : SubtreeInfo) (children : List Subtree) : Prop where
  shown : info.visibleChildCount ≤ countList children
  cost : info.isChanged = false → info.exactCost ≤ totalCost children +
    (ErrorCost.missingTree + max (ErrorCost.ofSkipped info.size)
      (ErrorCost.ofSkipped (Length.concat (children.map (·.size)))) +
      ErrorCost.skippedTree * countList children)

theorem count_eq (tree : Subtree) : tree.count = countList tree.children + 1 := by
  cases tree
  rfl

theorem foldr_shownCount_le (steps : List ProductionStep)
    (h : ∀ child ∈ children, child.visibleChildCount ≤ countList child.children) :
    (assignSteps steps children).foldr (shownCount language · + ·) 0 ≤ countList children := by
  induction children generalizing steps with
  | nil => exact Nat.le_refl _
  | cons child rest ih =>
    have others := fun steps => ih steps fun other member => h other (List.mem_cons_of_mem _ member)
    have first : ∀ step, shownCount language (child, step) ≤ child.count := by
      intro step
      have below := h child (List.mem_cons_self ..)
      rw [shownCount, count_eq]
      dsimp only
      split <;> omega
    rw [assignSteps, countList]
    split
    · exact Nat.add_le_add (first _) (others _)
    · exact Nat.add_le_add (first _) (others _)

theorem foldr_skippedTreeCost_le
    (h : ∀ child ∈ children, child.visibleChildCount ≤ countList child.children) :
    children.foldr (skippedTreeCost · + ·) 0 ≤ ErrorCost.skippedTree * countList children := by
  induction children with
  | nil => exact Nat.zero_le _
  | cons child rest ih =>
    have others := ih fun other member => h other (List.mem_cons_of_mem _ member)
    have below := h child (List.mem_cons_self ..)
    have first : skippedTreeCost child ≤ ErrorCost.skippedTree * child.count := by
      rw [skippedTreeCost, count_eq]
      split
      · exact Nat.zero_le _
      · split
        · exact Nat.le_mul_of_pos_right _ (Nat.succ_pos _)
        · exact Nat.mul_le_mul_left _ (Nat.le_succ_of_le below)
    rw [List.foldr_cons, countList, Nat.mul_add]
    exact Nat.add_le_add first others

theorem inherited_charged (language : Language) : Inherited language (·.Every Charged) where
  child _ _ h member := h.child member
  leaf token _ _ := by
    refine every_node.2 ⟨⟨Nat.zero_le _, fun _ => ?_⟩, by simp⟩
    dsimp only
    split <;> omega
  missing _ _ := every_node.2 ⟨⟨Nat.zero_le _, fun _ => by
    dsimp only [ErrorCost.ofSkipped]
    omega⟩, by simp⟩
  ofProduction _ _ _ _ below :=
    every_node.2 ⟨⟨(Nat.mod_le _ _).trans
      (foldr_shownCount_le _ fun child member => (below child member).here.shown),
      fun _ => Nat.le_add_right _ _⟩, below⟩
  errorNode children below := by
    have shown := fun child member => (below child member).here.shown
    have skipped := foldr_skippedTreeCost_le shown
    refine every_node.2 ⟨⟨(Nat.mod_le _ _).trans (foldr_shownCount_le _ shown), fun _ => ?_⟩, below⟩
    change totalCost children + ErrorCost.ofSkipped (Length.concat (children.map (·.size))) + _ ≤
      totalCost children + (ErrorCost.missingTree + max _
        (ErrorCost.ofSkipped (Length.concat (children.map (·.size)))) + _)
    omega
  withExtra _ _ _ h := h.modify fun charged => ⟨charged.shown, charged.cost⟩
  withParseState _ _ h := h.modify fun charged => ⟨charged.shown, charged.cost⟩
  withFragile _ h := h.modify fun charged => ⟨charged.shown, charged.cost⟩
  withReach _ _ h := h.modify fun charged => ⟨charged.shown, charged.cost⟩
  edited _ edit start last h := every_edited h edit (fun _ _ _ _ _ charged =>
    ⟨charged.shown.trans_eq (countList_editedList ..).symm, fun unchanged => by cases unchanged⟩)
    start last

theorem totalCost_le (h : ∀ tree ∈ trees, ∀ piece post, tree.Spells piece post →
      (Length.ofChars piece).bytes ≤ bytes →
        tree.exactCost ≤ tree.count * ErrorCost.limit bytes tree.count)
    (all : SpellAll trees piece post) (inside : (Length.ofChars piece).bytes ≤ bytes) :
    totalCost trees ≤ countList trees * ErrorCost.limit bytes (countList trees) := by
  induction trees generalizing piece with
  | nil => exact Nat.zero_le _
  | cons tree rest ih =>
    obtain ⟨own, others, rfl, spells, behind⟩ := all
    rw [Length.bytes_ofChars_append] at inside
    have first := h tree (List.mem_cons_self ..) own _ spells (by omega)
    have later := ih (fun other member => h other (List.mem_cons_of_mem _ member)) behind (by omega)
    rw [totalCost_cons, countList]
    exact (Nat.add_le_add first later).trans (ErrorCost.mul_limit_add_le ..)

theorem exactCost_le (h : tree.Every Charged) (clean : tree.Clean) (spells : tree.Spells piece post)
    (inside : (Length.ofChars piece).bytes ≤ bytes) :
    tree.exactCost ≤ tree.count * ErrorCost.limit bytes tree.count := by
  induction tree generalizing piece post with
  | node info children ih =>
    have below : totalCost children ≤
        countList children * ErrorCost.limit bytes (countList children) := by
      by_cases leaf : children = []
      · rw [leaf]
        exact Nat.zero_le _
      · exact totalCost_le (fun child member piece post => ih child member (h.child member)
          (clean.child member)) (spells.children leaf) inside
    have here : Charged info children := h.here
    have size : info.size = Length.ofChars piece := spells.size
    have skipped := ErrorCost.ofSkipped_le inside
    have inner : ErrorCost.ofSkipped (Length.concat (children.map (·.size))) ≤
        ErrorCost.recovery + (ErrorCost.skippedByte + ErrorCost.skippedLine) * bytes := by
      by_cases leaf : children = []
      · rw [leaf]
        exact Nat.le_add_right _ _
      · have all : SpellAll children piece post := spells.children leaf
        rwa [concat_of_spellAll all]
    have own : ErrorCost.missingTree + max (ErrorCost.ofSkipped info.size)
        (ErrorCost.ofSkipped (Length.concat (children.map (·.size)))) +
          ErrorCost.skippedTree * countList children ≤
            ErrorCost.limit bytes (countList children) := by
      rw [size, ErrorCost.limit]
      omega
    calc info.exactCost
      _ ≤ _ := here.cost clean.here
      _ ≤ _ := Nat.add_le_add below own
      _ = (countList children + 1) * ErrorCost.limit bytes (countList children) :=
        (Nat.succ_mul _ _).symm
      _ ≤ _ := Nat.mul_le_mul_left _ (ErrorCost.limit_le bytes (Nat.le_succ _))

end Subtree

open Subtree (totalCost precedenceOf countList)

/-! ## Stacks -/

namespace Stack

variable {stack upper lower : Stack} {table : Table} {pre post : List Char}

def Pushed : Stack → Prop
  | [] => True
  | entry :: below => entry :: below = Stack.push below entry.subtree entry.state ∧ Pushed below

theorem Pushed.push (h : stack.Pushed) (tree : Subtree) (next : StateId) :
    (stack.push tree next).Pushed := ⟨rfl, h⟩

theorem Pushed.pushAll (h : stack.Pushed) (trees : List Subtree) (next : StateId) :
    Pushed (trees.foldl (fun stack tree => stack.push tree next) stack) :=
  List.foldlRecOn (motive := Pushed) trees _ h fun _ h tree _ => h.push tree next

theorem Pushed.of_append (h : Pushed (upper ++ lower)) : lower.Pushed := by
  induction upper with
  | nil => exact h
  | cons entry upper ih => exact ih h.2

theorem Pushed.exactCost (h : stack.Pushed) : stack.exactCost = totalCost stack.subtrees := by
  refine Summed.exactCost ?_
  induction stack with
  | nil => trivial
  | cons entry below ih =>
    have entered := congrArg Stack.exactCost h.1
    exact ⟨entered, ih h.2⟩

theorem Pushed.dynamicPrecedence (h : stack.Pushed) :
    stack.dynamicPrecedence = wrapped (precedenceOf stack.subtrees) := by
  induction stack with
  | nil => rfl
  | cons entry below ih =>
    have entered : Stack.dynamicPrecedence (entry :: below) =
        addPrecedences (Stack.dynamicPrecedence below) entry.subtree.dynamicPrecedence :=
      congrArg Stack.dynamicPrecedence h.1
    rw [entered, ih h.2, addPrecedences_eq, wrapped_wrapped_add, subtrees_cons,
      Subtree.precedenceOf_append, Subtree.precedenceOf_cons, Subtree.precedenceOf_nil,
      Int.add_zero]

end Stack

section Steps

variable {input : ParseInput} {version next : Version} {reuse : Option ReuseCursor} {count : Nat}
  {stack reduced : Stack}

namespace ParseInput

theorem pushed_reduce (h : stack.Pushed) {reach : Nat} {isFragile : Bool} {symbol : SymbolId}
    {childCount : UInt16} {production : ProductionId}
    (done : input.reduce stack reach isFragile symbol childCount production = some reduced) :
    reduced.Pushed := by
  obtain ⟨popped, next, node, took, _, _, rfl⟩ := reduce_eq_some done
  obtain ⟨upper, whole, _⟩ := Stack.pop_eq_some took
  have below : popped.below.Pushed := (whole ▸ h).of_append
  exact (below.push _ _).pushAll _ _

theorem pushed_skip (h : version.stack.Pushed) (token : Token) :
    (input.skip version token).stack.Pushed := by
  have skips := skips_skip input version token
  generalize input.skip version token = next at skips ⊢
  cases skips with
  | opened => exact h.push _ _
  | @extended extras below top parts interior =>
    rw [parts, ← List.singleton_append, ← List.append_assoc] at h
    exact h.of_append.push _ _

theorem pushed_recover (h : version.stack.Pushed) (recovered : input.recover version = .version next) :
    next.stack.Pushed := by
  have mends := mends_recover input version
  generalize input.nextToken version = token at mends
  rw [recovered] at mends
  cases mends with
  | passed isError => exact h.push _ _
  | inserted insertable =>
    exact insertAll_preserves (motive := Stack.Pushed) (fun _ _ _ _ h _ => h.push _ _)
      (fun _ _ _ _ _ h done => pushed_reduce h done) _ h
  | folded parts => exact (parts ▸ h).of_append.push _ _
  | skipped inside => exact pushed_skip h token

end ParseInput

theorem Version.Becomes.pushed (becomes : version.Becomes input reuse count next)
    (h : version.stack.Pushed) : next.stack.Pushed := by
  cases becomes with
  | waits | lexed | lexedAnew | offered | turnedDown => exact h
  | reduced here chosen done => exact ParseInput.pushed_reduce h done
  | shifted | extra | takenOver => exact h.push _ _

end Steps

/-- What the sums on a stack say about the subtrees on it, in a text of so many bytes. -/
structure Stack.SumsUp (stack : Stack) (table : Table) (bytes : Nat) : Prop where
  precedence : stack.dynamicPrecedence = wrapped (precedenceOf stack.subtrees)
  nodes : ∀ tree ∈ stack.subtrees, tree.Every (Subtree.Sums table wrapped)
  exact : countList stack.subtrees < 2 ^ 16 →
    stack.dynamicPrecedence = precedenceOf stack.subtrees ∧
      ∀ tree ∈ stack.subtrees, tree.Every (Subtree.Sums table id)
  exactCost : stack.exactCost = totalCost stack.subtrees
  limited : stack.exactCost ≤
    countList stack.subtrees * ErrorCost.limit bytes (countList stack.subtrees)

theorem Stack.Pushed.sumsUp {stack : Stack} {table : Table} {pre post : List Char} {bytes : Nat}
    (h : stack.Pushed) (nodes : ∀ tree ∈ stack.subtrees, tree.Every (Subtree.Sums table wrapped))
    (charged : ∀ tree ∈ stack.subtrees, tree.Every Subtree.Charged)
    (spells : stack.Spells table pre post) (inside : (Length.ofChars pre).bytes ≤ bytes) :
    stack.SumsUp table bytes := by
  refine ⟨h.dynamicPrecedence, nodes, fun few => ?_, h.exactCost, ?_⟩
  · have exact := fun tree member => Subtree.exact_of_few (nodes tree member)
      (Nat.lt_of_le_of_lt (Subtree.count_le_countList member) few)
    refine ⟨?_, fun tree member => (exact tree member).2⟩
    have small := Subtree.natAbs_precedenceOf_le fun tree member => (exact tree member).1
    rw [h.dynamicPrecedence, wrapped_eq (by omega)]
  · rw [← List.append_nil stack] at spells
    obtain ⟨first, second, rfl, _, all, settled⟩ := spells.split
    rw [Length.bytes_ofChars_append] at inside
    rw [h.exactCost]
    exact Subtree.totalCost_le (fun tree member piece post spells inside =>
      Subtree.exactCost_le (charged tree member) (settled tree member).clean spells inside) all
      (by omega)

/-! ## Parses -/

namespace Engine

variable {engine : Engine} {input : ParseInput}

theorem walk_preserves {motive : Engine → Prop}
    (step : ∀ engine, motive engine → engine.isDone = false → motive (engine.step input))
    (h : motive engine) (steps : Nat) : motive (walk input steps engine) := by
  induction steps generalizing engine with
  | zero => exact h
  | succ steps ih =>
    unfold walk
    split
    · exact h
    · next goesOn => exact ih (step engine h (by simpa using goesOn))

theorem pushed_step (h : ∀ version ∈ engine.versions, version.stack.Pushed) :
    ∀ version ∈ (engine.step input).versions, version.stack.Pushed := by
  intro version member
  rcases (steps_step engine input).versions version member with
    old | ⟨before, there, becomes | recovered⟩
  · exact h version old
  · exact becomes.pushed (h before there)
  · exact ParseInput.pushed_recover (h before there) recovered

theorem sumsUp_walk (consistent : input.language.table.Consistent)
    (fits : engine.Fits input.language.table input.source.text.toList)
    (sums : engine.All (·.Every (Subtree.Sums input.language.table wrapped)))
    (charged : engine.All (·.Every Subtree.Charged))
    (pushed : ∀ version ∈ engine.versions, version.stack.Pushed) (steps : Nat) :
    ∀ version ∈ (walk input steps engine).versions, version.stack.SumsUp input.language.table
      (Length.ofChars input.source.text.toList).bytes := by
  obtain ⟨fits, sums, charged, pushed⟩ := walk_preserves (motive := fun engine =>
    engine.Fits input.language.table input.source.text.toList ∧
      engine.All (·.Every (Subtree.Sums input.language.table wrapped)) ∧
      engine.All (·.Every Subtree.Charged) ∧ ∀ version ∈ engine.versions, version.stack.Pushed)
    (by
      rintro engine ⟨fits, sums, charged, pushed⟩ _
      exact ⟨fits_step consistent fits,
        engine.all_step input (Subtree.inherited_sums _) consistent.start sums,
        engine.all_step input (Subtree.inherited_charged _) consistent.start charged,
        pushed_step pushed⟩)
    ⟨fits, sums, charged, pushed⟩ steps
  intro version member
  obtain ⟨pre, post, whole, spells⟩ := fits.versions version member
  refine (pushed version member).sumsUp (sums.versions version member).stack
    (charged.versions version member).stack spells.stack ?_
  rw [whole, Length.bytes_ofChars_append]
  exact Nat.le_add_right _ _

end Engine

/-- At every moment of a parse the precedence of a stack is, in 32 bits, the sum of those of its
subtrees, and so it is in each of their nodes; where there are few nodes, these are the true sums.
The cost of a stack is what its subtrees cost, and limited. -/
theorem sumsUp_of_parse {language : Language} (built : language.IsBuilt) (options : ParserOptions)
    {text : String} {old : Option Tree}
    (history : ∀ tree, old = some tree → tree.language.isSame language = true →
      tree.Follows language text) (steps : Nat) :
    ∀ version ∈ (Engine.walk (.ofText language options text) steps
      (Engine.begin (.ofText language options text) old)).versions,
        version.stack.SumsUp language.table (Source.clipped text).size := by
  rw [Source.size_eq]
  refine Engine.sumsUp_walk (built.consistent_ofText options text)
    (Engine.fits_begin _ fun tree here same => (history tree here same).sound built)
    (Engine.all_begin options fun tree here same => (history tree here same).arises.inherits
      (Subtree.inherited_sums language) built)
    (Engine.all_begin options fun tree here same => (history tree here same).arises.inherits
      (Subtree.inherited_charged language) built) (fun version member => ?_) steps
  rw [List.mem_singleton.1 member]
  trivial

/-- The same is true of the tree that a parse returns. -/
theorem sums_of_parse {language : Language} (built : language.IsBuilt) {fuel : Nat}
    {options : ParserOptions} {text : String} {old : Option Tree} {parsed : Parsed}
    (history : ∀ tree, old = some tree → tree.language.isSame language = true →
      tree.Follows language text)
    (returned : parseWithin fuel language options text old = some parsed) :
    parsed.tree.root.Every (Subtree.Sums language.table wrapped) ∧
      (parsed.tree.root.count < 2 ^ 16 →
        parsed.tree.root.Every (Subtree.Sums language.table id)) ∧
      parsed.tree.root.exactCost ≤ parsed.tree.root.count *
        ErrorCost.limit (Source.clipped text).size parsed.tree.root.count := by
  have arises := (Tree.Follows.parsed history returned).arises
  have sums := arises.inherits (Subtree.inherited_sums language) built
  have charged := arises.inherits (Subtree.inherited_charged language) built
  have root := isRootOf_parseWithin built
    (fun tree here same => (history tree here same).sound built) returned
  rw [Source.size_eq]
  exact ⟨sums, fun few => (Subtree.exact_of_few sums few).2,
    Subtree.exactCost_le charged root.settled.clean root.spells (Nat.le_refl _)⟩

end IncrementalGlr
