import Mathlib.Logic.Relation
import IncrementalGlr.Proofs.Parse.Construction

/-!
# Costs never fall

The cost of a stack is that of its subtrees together, and it never falls: reductions put the same
costs into one node, and what recovery puts together anew costs at least as much as what it takes
apart. A root costs at least what its stack did.
-/

namespace IncrementalGlr

namespace ErrorCost

theorem ofSkipped_le_append (a b : Length) : ofSkipped a ≤ ofSkipped (a ++ b) := by
  have rows : a.extent.row ≤ (a ++ b).extent.row := by
    rw [Length.append_def, Length.append]
    dsimp only
    split
    · exact Nat.le_add_right _ _
    · exact Nat.le_refl _
  have bytes : a.bytes ≤ (a ++ b).bytes := Nat.le_add_right _ _
  unfold ofSkipped skippedByte skippedLine
  omega

end ErrorCost

namespace Subtree

variable {language : Language} {tree : Subtree} {children more : List Subtree}

def totalCost (trees : List Subtree) : Nat := trees.foldr (·.exactCost + ·) 0

@[simp] theorem totalCost_nil : totalCost [] = 0 := rfl

@[simp] theorem totalCost_cons (tree : Subtree) (trees : List Subtree) :
    totalCost (tree :: trees) = tree.exactCost + totalCost trees := rfl

@[simp] theorem totalCost_append (trees others : List Subtree) :
    totalCost (trees ++ others) = totalCost trees + totalCost others := by
  induction trees with
  | nil => simp
  | cons tree trees ih => simp [ih, Nat.add_assoc]

def HasWordCosts (tree : Subtree) : Prop := tree.Every fun info _ => info.exactCost < UInt32.size

theorem HasWordCosts.child (h : tree.HasWordCosts) {child : Subtree}
    (member : child ∈ tree.children) : child.HasWordCosts := Every.child h member

theorem HasWordCosts.errorCost (h : tree.HasWordCosts) : tree.errorCost = tree.exactCost :=
  Nat.mod_eq_of_lt h.here

theorem exactCost_ofProduction (language : Language) (symbol : SymbolId)
    (production : ProductionId) (children : List Subtree) :
    (ofProduction language symbol production children).exactCost = totalCost children := rfl

theorem exactCost_errorNode (language : Language) (children : List Subtree) :
    (errorNode language children).exactCost = totalCost children
      + ErrorCost.ofSkipped (Length.concat (children.map (·.size)))
      + children.foldr (skippedTreeCost · + ·) 0 := rfl

theorem totalCost_le_errorNode (language : Language) (children : List Subtree) :
    totalCost children ≤ (errorNode language children).exactCost := by
  rw [exactCost_errorNode]
  omega

theorem errorNode_append_le (language : Language) (children more : List Subtree) :
    (errorNode language children).exactCost + totalCost more ≤
      (errorNode language (children ++ more)).exactCost := by
  have trees : children.foldr (skippedTreeCost · + ·) 0 ≤
      (children ++ more).foldr (skippedTreeCost · + ·) 0 := by
    induction children with
    | nil => exact Nat.zero_le _
    | cons child children ih => exact Nat.add_le_add_left ih _
  have skipped := ErrorCost.ofSkipped_le_append (Length.concat (children.map (·.size)))
    (Length.concat (more.map (·.size)))
  rw [exactCost_errorNode, exactCost_errorNode, totalCost_append, List.map_append,
    Length.concat_append]
  omega

/-- An ERROR node of the same children costs no less, and the children of a node for the start
symbol cost no less together. -/
structure Priced (language : Language) (tree : Subtree) : Prop where
  skipped : tree.children ≠ [] → tree.exactCost ≤ (errorNode language tree.children).exactCost
  opened : tree.symbol = language.table.startSymbol → tree.exactCost ≤ totalCost tree.children

theorem priced_of_free (free : tree.exactCost = 0) : tree.Priced language := by
  refine ⟨fun _ => ?_, fun _ => ?_⟩
  · rw [free]
    exact Nat.zero_le _
  · rw [free]
    exact Nat.zero_le _

theorem priced_ofProduction (symbol : SymbolId) (production : ProductionId)
    (children : List Subtree) : (ofProduction language symbol production children).Priced language :=
  ⟨fun _ => totalCost_le_errorNode language children, fun _ => Nat.le_refl _⟩

theorem Priced.modify (h : tree.Priced language) {f : SubtreeInfo → SubtreeInfo}
    (symbol : (f tree.info).symbol = tree.info.symbol)
    (cost : (f tree.info).exactCost = tree.info.exactCost) : (tree.modify f).Priced language := by
  refine ⟨fun interior => ?_, fun start => ?_⟩
  · exact Nat.le_trans (Nat.le_of_eq cost) (h.skipped interior)
  · exact Nat.le_trans (Nat.le_of_eq cost) (h.opened (symbol.symm.trans start))

section Consistent

variable (consistent : language.table.Consistent)

include consistent

theorem priced_leaf (token : Token) (state : StateId) (isExtra : Bool) :
    (leaf language token state isExtra).Priced language := by
  refine ⟨fun interior => absurd rfl interior, fun start => ?_⟩
  have noError : token.symbol.isError = false := by
    refine Bool.eq_false_iff.2 fun isError => consistent.ne_error_of_isRule consistent.start ?_
    rw [← start]
    exact beq_iff_eq.1 isError
  show (if token.symbol.isError then _ else 0) ≤ 0
  rw [noError]
  exact Nat.le_refl _

theorem priced_missing {terminal : SymbolId} (isTerminal : language.isTerminal terminal = true)
    (state : StateId) : (missing language terminal state).Priced language := by
  refine ⟨fun interior => absurd rfl interior, fun start => ?_⟩
  have rule := consistent.start
  rw [← show terminal = language.table.startSymbol from start,
    Table.isRule_of_isTerminal isTerminal] at rule
  contradiction

theorem priced_errorNode (children : List Subtree) :
    (errorNode language children).Priced language :=
  ⟨fun _ => Nat.le_refl _, fun start =>
    absurd start.symm (consistent.ne_error_of_isRule consistent.start)⟩

end Consistent

end Subtree

open Subtree (totalCost totalCost_le_errorNode)

namespace Stack

variable {stack upper lower : Stack} {tree : Subtree} {language : Language}

def Summed : Stack → Prop
  | [] => True
  | entry :: below =>
    entry.exactCost = Stack.exactCost below + entry.subtree.exactCost ∧ Summed below

theorem Summed.exactCost (h : stack.Summed) : stack.exactCost = totalCost stack.subtrees := by
  induction stack with
  | nil => rfl
  | cons entry below ih =>
    rw [subtrees_cons, Subtree.totalCost_append, ← ih h.2]
    exact h.1

theorem Summed.of_append (h : Summed (upper ++ lower)) : lower.Summed := by
  induction upper with
  | nil => exact h
  | cons entry upper ih => exact ih h.2

theorem Summed.push (h : stack.Summed) (tree : Subtree) (next : StateId) :
    (stack.push tree next).Summed := ⟨rfl, h⟩

theorem Summed.pushAll (h : stack.Summed) (trees : List Subtree) (next : StateId) :
    Summed (trees.foldl (fun stack tree => stack.push tree next) stack) :=
  List.foldlRecOn (motive := Summed) trees _ h fun _ h tree _ => h.push tree next

structure Priced (language : Language) (stack : Stack) : Prop where
  summed : stack.Summed
  trees : ∀ tree ∈ stack.subtrees, tree.Priced language

theorem Priced.push (h : stack.Priced language) (priced : tree.Priced language)
    (next : StateId) : (stack.push tree next).Priced language :=
  ⟨h.summed.push tree next, forall_push h.trees priced next⟩

theorem Priced.of_append (h : Priced language (upper ++ lower)) : lower.Priced language := by
  refine ⟨h.summed.of_append, fun tree member => h.trees tree ?_⟩
  rw [subtrees_append]
  exact List.mem_append_left _ member

end Stack

namespace ParseInput

variable {input : ParseInput} {stack reduced : Stack}

theorem priced_reduce (h : stack.Priced input.language) {reach : Nat} {isFragile : Bool}
    {symbol : SymbolId} {childCount : UInt16} {production : ProductionId}
    (done : input.reduce stack reach isFragile symbol childCount production = some reduced) :
    reduced.Priced input.language ∧ reduced.exactCost = stack.exactCost := by
  have priced := forall_reduce h.trees (fun popped node reach _ _ made => by
    have built : (Subtree.ofProduction input.language symbol production popped.children).Priced
        input.language := Subtree.priced_ofProduction ..
    rw [made]
    split
    · exact (built.modify rfl rfl).modify rfl rfl
    · exact built.modify rfl rfl) done
  obtain ⟨popped, next, node, took, _, made, rfl⟩ := reduce_eq_some done
  obtain ⟨upper, whole, parts⟩ := Stack.pop_eq_some took
  have cost : (if isFragile then node.withFragile else node).exactCost =
      totalCost popped.children := by
    rw [made]
    split <;> rfl
  have below : popped.below.Summed := (whole ▸ h.summed).of_append
  have summed := (below.push (if isFragile then node.withFragile else node) next).pushAll
    popped.trailing next
  refine ⟨⟨summed, priced⟩, ?_⟩
  rw [summed.exactCost, h.summed.exactCost, Stack.subtrees_pushAll, Stack.subtrees_push, whole,
    Stack.subtrees_append, parts]
  simp only [Subtree.totalCost_append, Subtree.totalCost_cons, Subtree.totalCost_nil, cost]
  omega

theorem exactCost_le_errorRoot (input : ParseInput) {stack : Stack}
    (h : stack.Priced input.language) : stack.exactCost ≤ (input.errorRoot stack).exactCost := by
  have inside := totalCost_le_errorNode input.language stack.subtrees
  rw [errorRoot, Subtree.exactCost_ofProduction, h.summed.exactCost]
  simpa using inside

theorem exactCost_le_root (input : ParseInput) {stack : Stack} (h : stack.Priced input.language) :
    stack.exactCost ≤ (input.root stack).exactCost := by
  have becomes := becomesRoot_root input stack
  generalize input.root stack = root at becomes ⊢
  cases becomes with
  | @opened extras below top parts start =>
    have here : top.subtree.Priced input.language :=
      h.trees _ (by rw [parts, Stack.subtrees_append_cons]; simp)
    have least := here.opened start
    rw [Subtree.exactCost_ofProduction, h.summed.exactCost, parts, Stack.subtrees_append_cons]
    simp only [Subtree.totalCost_append, Subtree.totalCost_cons]
    omega
  | error => exact exactCost_le_errorRoot input h

end ParseInput

/-- What the costs of a version say about what may become of it. A subtree of an old tree is taken
over only where there is no error in it. -/
structure Version.Priced (language : Language) (version : Version) : Prop where
  stack : version.stack.Priced language
  reused : ∀ tree, version.lookahead = some (.reused tree) → tree.exactCost = 0

section Steps

variable {input : ParseInput} {version next : Version} {reuse : Option ReuseCursor} {count : Nat}
  {root : Subtree}

theorem Version.Priced.shift (h : version.Priced input.language) {tree : Subtree}
    (priced : tree.Priced input.language) (next : StateId) :
    (version.shift tree next).Priced input.language ∧
      version.stack.exactCost ≤ (version.shift tree next).stack.exactCost :=
  ⟨⟨h.stack.push priced next, fun _ found => by cases found⟩, Nat.le_add_right _ _⟩

variable (consistent : input.language.table.Consistent)

include consistent

theorem Lookahead.ShiftsAs.priced {lookahead : Lookahead} {state : StateId} {isExtra : Bool}
    {tree : Subtree} (shifts : lookahead.ShiftsAs input.language state isExtra tree)
    (here : version.lookahead = some lookahead) (h : version.Priced input.language) :
    tree.Priced input.language := by
  cases shifts with
  | token token => exact Subtree.priced_leaf consistent token state isExtra
  | @reused tree leaf => exact Subtree.priced_of_free (h.reused tree here)

theorem Version.Becomes.priced (becomes : version.Becomes input reuse count next)
    (words : ∀ cursor ∈ reuse, cursor.All Subtree.HasWordCosts)
    (h : version.Priced input.language) :
    next.Priced input.language ∧ version.stack.exactCost ≤ next.stack.exactCost := by
  cases becomes with
  | waits => exact ⟨h, Nat.le_refl _⟩
  | lexed | lexedAnew | turnedDown =>
    exact ⟨⟨h.stack, fun _ found => by cases found⟩, Nat.le_refl _⟩
  | @offered tree cursor mode here found =>
    refine ⟨⟨h.stack, fun other same => ?_⟩, Nat.le_refl _⟩
    cases same
    obtain ⟨word, offered⟩ := (ReuseCursor.all_search (fun _ _ word => word.child)
      (words cursor here) _ _).2 tree found
    exact word.errorCost.symm.trans (Engine.errorCost_of_isReusable offered)
  | reduced here chosen done =>
    obtain ⟨priced, same⟩ := ParseInput.priced_reduce h.stack done
    exact ⟨⟨priced, h.reused⟩, Nat.le_of_eq same.symm⟩
  | shifted here leaf chosen => exact h.shift (leaf.priced consistent here h) _
  | extra here leaf lacking isExtra => exact h.shift (leaf.priced consistent here h) _
  | takenOver here goes =>
    have priced : Subtree.Priced input.language _ := Subtree.priced_of_free (h.reused _ here)
    exact ⟨⟨h.stack.push priced _, fun _ found => by cases found⟩, Nat.le_add_right _ _⟩

namespace ParseInput

theorem priced_insertAll {stack : Stack} (h : stack.Priced input.language)
    (terminals : List SymbolId) (reach budget : Nat) :
    Stack.Priced input.language (terminals.foldl
        (fun stack terminal => input.insertMissing terminal reach budget stack) stack) ∧
      stack.exactCost ≤ Stack.exactCost (terminals.foldl
        (fun stack terminal => input.insertMissing terminal reach budget stack) stack) := by
  refine insertAll_preserves (motive := fun grown : Stack =>
    grown.Priced input.language ∧ stack.exactCost ≤ grown.exactCost) ?_ ?_ budget
    ⟨h, Nat.le_refl _⟩
  · rintro terminal _ grown next ⟨priced, more⟩ chosen
    have isTerminal : input.language.isTerminal terminal = true :=
      Table.isTerminal_of_mem_actions chosen
    exact ⟨priced.push (Subtree.priced_missing consistent isTerminal _) next,
      Nat.le_trans more (Nat.le_add_right _ _)⟩
  · rintro grown reduced symbol childCount production ⟨priced, more⟩ done
    obtain ⟨priced, same⟩ := priced_reduce priced done
    exact ⟨priced, same ▸ more⟩

theorem priced_skip (h : version.Priced input.language) (token : Token) :
    (input.skip version token).Priced input.language ∧
      version.stack.exactCost ≤ (input.skip version token).stack.exactCost := by
  have skips := skips_skip input version token
  generalize Subtree.leaf input.language token version.stack.state false = leaf at skips
  generalize input.skip version token = next at skips ⊢
  cases skips with
  | opened => exact h.shift (Subtree.priced_errorNode consistent [leaf]) _
  | @extended extras below top parts interior =>
    have all := h.stack
    rw [parts, ← List.singleton_append, ← List.append_assoc] at all
    have priced := all.of_append.push (Subtree.priced_errorNode consistent
      (top.subtree.children ++ Stack.subtrees extras ++ [leaf])) (Stack.state below)
    refine ⟨⟨priced, fun _ found => by cases found⟩, ?_⟩
    have here : top.subtree.Priced input.language :=
      h.stack.trees _ (by rw [parts, Stack.subtrees_append_cons]; simp)
    have grown := Subtree.errorNode_append_le input.language top.subtree.children
      (Stack.subtrees extras ++ [leaf])
    have least := here.skipped interior
    show version.stack.exactCost ≤ Stack.exactCost (below.push _ _)
    rw [h.stack.summed.exactCost, priced.summed.exactCost, parts, Stack.subtrees_append_cons,
      Stack.subtrees_push, List.append_assoc top.subtree.children]
    simp only [Subtree.totalCost_append, Subtree.totalCost_cons, Subtree.totalCost_nil] at grown ⊢
    omega

def Mended.Costs (language : Language) (least : Nat) : Mended → Prop
  | .version mended => mended.Priced language ∧ least ≤ mended.stack.exactCost
  | .root tree => least ≤ tree.exactCost

theorem costs_recover (h : version.Priced input.language) :
    Mended.Costs input.language version.stack.exactCost (input.recover version) := by
  have mends := mends_recover input version
  generalize input.nextToken version = token at mends
  generalize input.recover version = mended at mends ⊢
  cases mends with
  | passed isError => exact h.shift (Subtree.priced_leaf consistent token _ true) _
  | inserted insertable =>
    obtain ⟨priced, more⟩ := priced_insertAll consistent h.stack _ _ _
    exact ⟨⟨priced, fun _ found => by cases found⟩, more⟩
  | @folded upper lower parts =>
    have all := h.stack
    rw [parts] at all
    have priced := all.of_append.push (Subtree.priced_errorNode consistent upper.subtrees)
      lower.state
    refine ⟨⟨priced, fun _ found => by cases found⟩, ?_⟩
    have inside := totalCost_le_errorNode input.language upper.subtrees
    show version.stack.exactCost ≤ Stack.exactCost (lower.push _ _)
    rw [h.stack.summed.exactCost, priced.summed.exactCost, parts, Stack.subtrees_append,
      Stack.subtrees_push]
    simp only [Subtree.totalCost_append, Subtree.totalCost_cons, Subtree.totalCost_nil]
    omega
  | skipped inside => exact priced_skip consistent h token
  | ended isEnd => exact exactCost_le_errorRoot input h.stack

end ParseInput

end Steps

inductive Version.Goes (input : ParseInput) (version next : Version) : Prop
  | becomes {reuse : Option ReuseCursor} {count : Nat}
      (words : ∀ cursor ∈ reuse, cursor.All Subtree.HasWordCosts)
      (becomes : version.Becomes input reuse count next)
  | mended (recovered : input.recover version = .version next)

def Version.Continues (input : ParseInput) : Version → Version → Prop :=
  Relation.ReflTransGen (Version.Goes input)

def Version.MayEndIn (input : ParseInput) (version : Version) (root : Subtree) : Prop :=
  ∃ last, version.Continues input last ∧ (last.EndsIn input root ∨ input.recover last = .root root)

section Futures

variable {input : ParseInput} {version next : Version} {root : Subtree}

theorem Version.Goes.priced (goes : version.Goes input next)
    (consistent : input.language.table.Consistent) (h : version.Priced input.language) :
    next.Priced input.language ∧ version.stack.exactCost ≤ next.stack.exactCost := by
  cases goes with
  | becomes words becomes => exact becomes.priced consistent words h
  | mended recovered =>
    have costs := ParseInput.costs_recover consistent h
    rw [recovered] at costs
    exact costs

theorem Version.Continues.priced (later : version.Continues input next)
    (consistent : input.language.table.Consistent) (h : version.Priced input.language) :
    next.Priced input.language ∧ version.stack.exactCost ≤ next.stack.exactCost := by
  induction later with
  | refl => exact ⟨h, Nat.le_refl _⟩
  | tail _ goes ih =>
    obtain ⟨priced, less⟩ := goes.priced consistent ih.1
    exact ⟨priced, Nat.le_trans ih.2 less⟩

theorem Version.MayEndIn.le (ends : version.MayEndIn input root)
    (consistent : input.language.table.Consistent) (h : version.Priced input.language) :
    version.stack.exactCost ≤ root.exactCost := by
  obtain ⟨last, later, ends⟩ := ends
  obtain ⟨priced, less⟩ := later.priced consistent h
  apply Nat.le_trans less
  rcases ends with accepted | recovered
  · cases accepted with
    | accepted => exact ParseInput.exactCost_le_root input priced.stack
  · have costs := ParseInput.costs_recover consistent priced
    rw [recovered] at costs
    exact costs

end Futures

end IncrementalGlr
