import IncrementalGlr.Proofs.Parse.Construction
import IncrementalGlr.Proofs.Parse.StackStates
import IncrementalGlr.Proofs.Tree.Derivation

/-!
# Extras in a parse

Extras leave a stack in the state it was in, whatever is parsed, mended and taken over from an old
tree. Of the nodes with children only ERROR nodes are extras. They stand where the state does not
change, and no state goes on with one of an old tree.
-/

namespace IncrementalGlr

namespace Subtree

variable {language : Language} {tree : Subtree}

def HasPlainExtras (tree : Subtree) : Prop :=
  tree.Every fun info children =>
    info.isExtra = true → children = [] ∨ info.symbol = SymbolId.error

theorem HasPlainExtras.edited (h : tree.HasPlainExtras) (edit : Edit) (start : Length)
    (last : Bool) : (tree.edited edit start last).HasPlainExtras := by
  induction tree generalizing start last with
  | node info children ih =>
    have here := keeps_edited edit start last (node info children)
    obtain ⟨below, origins⟩ := children_edited edit start last (node info children)
    generalize (node info children).edited edit start last = edited at here below origins ⊢
    obtain ⟨other, others⟩ := edited
    refine every_node.2 ⟨fun outside => ?_, fun child member => ?_⟩
    · rcases h.here (here.isExtra.symm.trans outside) with leaf | isError
      · cases (show children = [] from leaf)
        cases below
        exact .inl rfl
      · exact .inr (here.symbol.trans isError)
    · rcases origins child member with old | ⟨old, there, start, last, rfl⟩
      · exact h.child old
      · exact ih old there (h.child there) start last

theorem inherited_hasPlainExtras (language : Language) : Inherited language HasPlainExtras where
  child _ _ h member := h.child member
  leaf _ _ _ := every_node.2 ⟨fun _ => .inl rfl, by simp⟩
  missing _ _ := every_node.2 ⟨fun _ => .inl rfl, by simp⟩
  ofProduction _ _ _ _ below := every_node.2 ⟨fun outside => (by cases outside), below⟩
  errorNode _ below := every_node.2 ⟨fun _ => .inr rfl, below⟩
  withExtra _ _ leaf h := h.modify fun _ _ => .inl leaf
  withParseState _ _ h := h.modify id
  withFragile _ h := h.modify id
  withReach _ _ h := h.modify id
  edited _ _ _ _ h := h.edited ..

end Subtree

open Subtree (HasPlainExtras inherited_hasPlainExtras)

structure Version.Steady (version : Version) : Prop where
  stack : version.stack.Steady
  reused : ∀ tree, version.lookahead = some (.reused tree) → tree.isExtra = true →
    tree.children = [] ∨ tree.symbol = SymbolId.error

theorem Lookahead.ShiftsAs.isExtra_eq {language : Language} {lookahead : Lookahead}
    {state : StateId} {isExtra : Bool} {tree : Subtree}
    (shifts : lookahead.ShiftsAs language state isExtra tree) : tree.isExtra = isExtra := by
  cases shifts with
  | token token => rfl
  | reused leaf => rfl

section Steps

variable {input : ParseInput} {version next : Version} {reuse : Option ReuseCursor} {count : Nat}

theorem Version.Steady.shift (h : version.Steady) {tree : Subtree} {state : StateId}
    (stays : tree.isExtra = true → state = version.state) : (version.shift tree state).Steady :=
  ⟨h.stack.push stays, fun _ found => by cases found⟩

theorem Version.Becomes.steady (becomes : version.Becomes input reuse count next)
    (consistent : input.language.table.Consistent)
    (offers : ∀ cursor ∈ reuse, cursor.All HasPlainExtras) (h : version.Steady) :
    next.Steady := by
  cases becomes with
  | waits => exact h
  | lexed | lexedAnew | turnedDown => exact ⟨h.stack, fun _ found => by cases found⟩
  | offered mode here found =>
    refine ⟨h.stack, fun other same => ?_⟩
    cases same
    exact ((ReuseCursor.all_search
      (inherited_hasPlainExtras input.language).child (offers _ here) _ _).2 _ found).1.here
  | reduced here chosen done => exact ⟨ParseInput.steady_reduce h.stack done, h.reused⟩
  | shifted here leaf chosen =>
    exact h.shift fun outside => Bool.noConfusion (leaf.isExtra_eq.symm.trans outside)
  | extra => exact h.shift fun _ => rfl
  | takenOver here goes interior =>
    refine ⟨h.stack.push fun outside => ?_, fun _ found => by cases found⟩
    have isError := (h.reused _ here outside).resolve_left interior
    exact absurd isError (consistent.ne_error_of_isRule (Table.isRule_of_goto? goes))

namespace ParseInput

theorem steady_insertMissing {stack : Stack} (h : stack.Steady) (terminal : SymbolId)
    (reach budget : Nat) : (input.insertMissing terminal reach budget stack).Steady :=
  insertMissing_preserves (motive := Stack.Steady)
    (fun _ _ h _ => h.push fun outside => by cases outside)
    (fun _ _ _ _ _ _ h _ done => steady_reduce h done) budget h

theorem steady_insertAll {stack : Stack} (h : stack.Steady) (terminals : List SymbolId)
    (reach budget : Nat) : Stack.Steady (terminals.foldl
      (fun stack terminal => input.insertMissing terminal reach budget stack) stack) :=
  List.foldlRecOn (motive := Stack.Steady) terminals _ h
    fun _ h terminal _ => steady_insertMissing h terminal reach budget

theorem steady_skip (h : version.Steady) (token : Token) : (input.skip version token).Steady := by
  have skips := skips_skip input version token
  generalize input.skip version token = next at skips ⊢
  cases skips with
  | opened => exact h.shift fun _ => rfl
  | @extended extras below top parts interior =>
    have all := h.stack
    rw [parts, ← List.singleton_append, ← List.append_assoc] at all
    exact ⟨all.of_append.push fun _ => rfl, fun _ found => by cases found⟩

theorem steady_recover (h : version.Steady) (recovered : input.recover version = .version next) :
    next.Steady := by
  have mends := mends_recover input version
  rw [recovered] at mends
  cases mends with
  | passed isError => exact h.shift fun _ => rfl
  | inserted insertable =>
    exact ⟨steady_insertAll h.stack _ _ _, fun _ found => by cases found⟩
  | folded parts =>
    have all := h.stack
    rw [parts] at all
    exact ⟨all.of_append.push fun _ => rfl, fun _ found => by cases found⟩
  | skipped inside => exact steady_skip h _

end ParseInput

end Steps

namespace Engine

variable {engine : Engine} {input : ParseInput} {version : Version}

structure Steady (engine : Engine) : Prop where
  versions : ∀ version ∈ engine.versions, version.Steady
  reuse : ∀ cursor ∈ engine.reuse, cursor.All HasPlainExtras

theorem steady_step (consistent : input.language.table.Consistent) (h : engine.Steady) :
    (engine.step input).Steady := by
  have steps := steps_step engine input
  refine ⟨fun version member => ?_, fun cursor here => ?_⟩
  · rcases steps.versions version member with old | ⟨before, there, becomes | recovered⟩
    · exact h.versions version old
    · exact becomes.steady consistent h.reuse (h.versions before there)
    · exact ParseInput.steady_recover (h.versions before there) recovered
  · obtain ⟨before, there, moves⟩ := steps.reuse cursor here
    exact moves.all (inherited_hasPlainExtras input.language).child (h.reuse before there)

theorem Steady.survivors (h : engine.Steady) (member : version ∈ (engine.survivors input).2) :
    version.Steady := by
  rcases (steps_survivors engine input).1 version member with old | ⟨before, there, recovered⟩
  · exact h.versions version old
  · exact ParseInput.steady_recover (h.versions before there) recovered

section Parses

variable {language : Language} {options : ParserOptions} {text : String} {old : Option Tree}

theorem steady_of_reaches (built : language.IsBuilt)
    (history : ∀ tree, old = some tree → tree.language.isSame language = true →
      tree.Arises language)
    (reached : Reaches (.ofText language options text) (begin (.ofText language options text) old)
      engine) : engine.Steady := by
  refine reached.preserves (motive := Steady)
    (fun engine h _ => steady_step (built.consistent_ofText options text) h) ?_
  have all : (begin (.ofText language options text) old).All HasPlainExtras :=
    all_begin options fun tree same usable =>
      (history tree same usable).inherits (inherited_hasPlainExtras language) built
  refine ⟨fun version member => ?_, all.reuse⟩
  rw [List.mem_singleton.1 member]
  exact ⟨trivial, fun _ found => by cases found⟩

end Parses

end Engine

end IncrementalGlr
