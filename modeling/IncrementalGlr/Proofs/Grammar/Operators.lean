import Mathlib.Data.List.Nodup
import IncrementalGlr.Grammar.Preparation
import IncrementalGlr.Proofs.Grammar.Preparation

/-!
# Grammars of operators

Numbers combined by binary operators, each with a level and an associativity. The grammar ranks the
alternatives of one rule, and its preparation gives that rank to all steps of the alternative.
-/

namespace IncrementalGlr

structure Operator where
  text : String
  level : Int
  associativity : Associativity
  deriving DecidableEq, Repr

namespace Operator

/-- Two operands with the operator between them, ranked as declared. -/
def rule (operator : Operator) : Rule :=
  let operation := Rule.seq [.symbol "expr", .string operator.text, .symbol "expr"]
  match operator.associativity with
  | .left => .precLeft (.integer operator.level) operation
  | .right => .precRight (.integer operator.level) operation

/-- The grammar of numbers and the operators, with one alternative for each. -/
def grammar (operators : List Operator) : Grammar where
  name := "expressions"
  rules := [("source", .symbol "expr"),
    ("expr", .choice (operators.map rule ++ [.symbol "number"])),
    ("number", .pattern "\\d+")]
  extras := []
  externals := []
  word := none
  supertypes := []
  reserved := []
  precedences := []

def step (operator : Operator) (symbol : Sym) : Step :=
  ⟨symbol, .integer operator.level, some operator.associativity, none, none⟩

def production (operator : Operator) (terminal : Nat) : FlatProduction :=
  ⟨[operator.step (.nonterminal 1), operator.step (.terminal terminal),
    operator.step (.nonterminal 1)], 0⟩

def terminal (operator : Operator) : Terminal where
  name := operator.text
  visible := true
  named := false
  regex := some (Regex.literal operator.text)
  precedence := 0
  immediate := false
  isString := true
  isExternal := false

def number : Terminal where
  name := "number"
  visible := true
  named := true
  regex := some (.repetition (.set CharSet.digits) 1 none)
  precedence := 0
  immediate := false
  isString := false
  isExternal := false

def single (symbol : Sym) : FlatProduction := .single (Step.plain symbol)

def productions (operators : List Operator) (first : Nat) : List FlatProduction :=
  (operators.zipIdx first).map fun (operator, terminal) => operator.production terminal

def prepared (operators : List Operator) : PreparedGrammar where
  name := "expressions"
  terminals := (number :: operators.map terminal).toArray
  nonterminals := #[⟨"source", true, false, [single (.nonterminal 1)]⟩,
    ⟨"expr", true, false, productions operators 1 ++ [single (.terminal 0)]⟩]
  extras := []
  externals := []
  word := none
  reserved := []
  precedences := []

open Preparation

variable {operators done : List Operator} {operator : Operator}

def draft (done : List Operator) : Draft where
  terminals := (number :: done.map terminal).toArray
  nonterminals := #[⟨"source", true, false, [single (.nonterminal 1)]⟩, ⟨"expr", true, false, []⟩]
  byName := [("number", .terminal 0), ("expr", .nonterminal 1), ("source", .nonterminal 0)]
  strings := ((done.map text).zipIdx 1).reverse
  tokens := []
  repeats := []
  levels := []
  rankedRules := []

theorem run_bind_of {α β : Type} {x : M α} {f : α → M β} {before next : Draft} {a : α}
    {result : Except GrammarError (β × Draft)} (ran : x before = .ok (a, next))
    (rest : f a next = result) : (x >>= f) before = result := by
  change (x before >>= fun (a, next) => f a next) = result
  rw [ran]
  exact rest

theorem run_each_cons {α : Type} {x : α} {xs : List α} {f : α → M PUnit} {before next : Draft}
    {result : Except GrammarError (PUnit × Draft)} (ran : f x before = .ok (⟨⟩, next))
    (rest : (forIn xs PUnit.unit fun x _ => do
      f x
      pure (ForInStep.yield PUnit.unit) : M PUnit) next = result) :
    (forIn (x :: xs) PUnit.unit fun x _ => do
      f x
      pure (ForInStep.yield PUnit.unit) : M PUnit) before = result := by
  rw [List.forIn_cons]
  exact run_bind_of (run_bind_of ran rfl) rest

theorem internString_draft (new : operator.text ∉ done.map text) :
    internString operator.text (draft done)
      = .ok (done.length + 1, draft (done ++ [operator])) := by
  have absent : (draft done).strings.lookup operator.text = none := by
    refine List.lookup_eq_none_iff.2 fun entry member => ?_
    rw [bne_iff_ne]
    rintro same
    exact new (same ▸ List.fst_mem_of_mem_zipIdx (List.mem_reverse.1 member))
  rw [internString]
  refine run_bind_of rfl ?_
  rw [absent]
  change Except.ok ((draft done).terminals.size, { draft done with
    terminals := (draft done).terminals.push operator.terminal
    strings := (operator.text, (draft done).terminals.size) :: (draft done).strings }) = _
  simp [draft, List.zipIdx_append, Nat.add_comm]

theorem flatten_rule (new : operator.text ∉ done.map text) :
    flatten "expr" StepContext.empty operator.rule (draft done)
      = .ok ([operator.production (done.length + 1)], draft (done ++ [operator])) := by
  have operation : ∀ context : StepContext, flatten "expr" context
      (.seq [.symbol "expr", .string operator.text, .symbol "expr"]) (draft done)
        = .ok ([⟨[context.step (.nonterminal 1), context.step (.terminal (done.length + 1)),
          context.step (.nonterminal 1)], 0⟩], draft (done ++ [operator])) := by
    intro context
    simp only [flatten, flattenSeq]
    refine run_bind_of rfl (run_bind_of (run_bind_of (internString_draft new) rfl) rfl)
  rw [rule]
  split
  all_goals
    next declared =>
      simp only [production, step, declared, Rule.precLeft, Rule.precRight, flatten]
      exact run_bind_of (operation _) rfl

theorem flattenChoice_rules (done : List Operator) (fresh : ((done ++ operators).map text).Nodup) :
    flattenChoice "expr" StepContext.empty (operators.map rule ++ [.symbol "number"]) (draft done)
      = .ok (productions operators (done.length + 1) ++ [single (.terminal 0)],
          draft (done ++ operators)) := by
  induction operators generalizing done with
  | nil =>
    rw [List.append_nil]
    simp only [List.map_nil, List.nil_append, flattenChoice, flatten]
    exact run_bind_of rfl (run_bind_of rfl rfl)
  | cons operator operators ih =>
    have new : operator.text ∉ done.map text := by
      rw [List.map_append, List.nodup_append] at fresh
      exact fun member => fresh.2.2 _ member _ (by simp) rfl
    rw [List.append_cons done operator operators] at fresh ⊢
    rw [List.map_cons, List.cons_append, flattenChoice]
    refine run_bind_of (flatten_rule new) (run_bind_of (ih _ fresh) ?_)
    simp [productions, List.zipIdx_cons]
    rfl

theorem parse_digits : Pattern.parse "\\d+" = .ok (.repetition (.set CharSet.digits) 1 none) := by
  cbv

theorem productive_prepared (operators : List Operator) :
    (productive (prepared operators).nonterminals).getD 0 false = true := by
  have round : ∀ flags, (prepared operators).nonterminals.map (derives flags)
      = #[flags.getD 1 false, true] := by
    intro flags
    simp [prepared, derives, single, FlatProduction.single, Step.plain]
  have start : (prepared operators).nonterminals.map (fun _ => false) = #[false, false] := by
    simp [prepared]
  have rounds : (prepared operators).nonterminals.size + 1 = 3 := by simp [prepared]
  rw [productive, funext round, start, rounds]
  rfl

theorem declareRule_nonterminal {name : String} {rule : Rule} {draft : Draft}
    (new : draft.byName.lookup name = none) (inner : rule.isToken = false)
    (shown : isVisibleName name = true) : declareRule name rule draft
      = .ok (⟨⟩, { draft with
          nonterminals := draft.nonterminals.push ⟨name, true, false, []⟩
          byName := (name, .nonterminal draft.nonterminals.size) :: draft.byName }) := by
  unfold declareRule
  refine run_bind_of (show symbolOf? name draft = .ok (none, draft) from ?_) ?_
  · rw [← new]
    rfl
  · rw [inner, shown]
    rfl

theorem declareRule_terminal {name : String} {rule : Rule} {regex : Regex} {draft : Draft}
    (new : draft.byName.lookup name = none) (token : rule.isToken = true)
    (shown : isVisibleName name = true) (read : rule.toRegex name = .ok regex) :
    declareRule name rule draft
      = .ok (⟨⟩, { draft with
          terminals := draft.terminals.push ⟨name, true, true, some regex,
            rule.lexicalPrecedence, rule.isImmediate, false, false⟩
          byName := (name, .terminal draft.terminals.size) :: draft.byName }) := by
  unfold declareRule
  refine run_bind_of (show symbolOf? name draft = .ok (none, draft) from ?_) ?_
  · rw [← new]
    rfl
  · rw [token, shown, read]
    rfl

theorem eraseDups_of_nodup {α : Type} [BEq α] [LawfulBEq α] {xs : List α} (h : xs.Nodup) :
    xs.eraseDups = xs := by
  induction xs with
  | nil => rfl
  | cons x xs ih =>
    rw [List.nodup_cons] at h
    have others : xs.filter (fun y => !y == x) = xs := by
      refine List.filter_eq_self.2 fun y member => ?_
      rw [Bool.not_eq_true', beq_eq_false_iff_ne]
      rintro rfl
      exact h.1 member
    rw [List.eraseDups_cons, others, ih h.2]

theorem flattenRule_nonterminal {name : String} {rule : Rule} {index : Nat}
    {productions : List FlatProduction} {before next : Draft}
    (known : before.byName.lookup name = some (.nonterminal index))
    (unranked : before.rankedRules = []) (nodup : productions.Nodup)
    (flat : flatten name StepContext.empty rule before = .ok (productions, next)) :
    flattenRule name rule before = .ok (⟨⟩, { next with
      nonterminals := next.nonterminals.modify index fun nonterminal =>
        { nonterminal with productions } }) := by
  unfold flattenRule
  refine run_bind_of (show symbolOf? name before = .ok (some (.nonterminal index), before) from ?_)
    (run_bind_of rfl ?_)
  · rw [← known]
    rfl
  · have none : before.rankedRules.contains name = false := by simp [unranked]
    rw [none]
    refine run_bind_of flat ?_
    change Except.ok (PUnit.unit, { next with
      nonterminals := next.nonterminals.modify index fun nonterminal =>
        { nonterminal with productions := productions.eraseDups } }) = _
    rw [eraseDups_of_nodup nodup]

theorem nodup_productions (operators : List Operator) :
    (productions operators 1 ++ [single (.terminal 0)]).Nodup := by
  refine List.Nodup.of_map (fun production => production.steps[1]?.map (·.symbol)) ?_
  have symbols : (productions operators 1).map (fun production =>
      production.steps[1]?.map (·.symbol))
      = (List.range' 1 operators.length).map fun terminal => some (.terminal terminal) := by
    rw [productions, List.map_map, ← List.zipIdx_map_snd 1 operators, List.map_map]
    rfl
  rw [List.map_append, symbols, List.nodup_append]
  refine ⟨List.Nodup.map (fun a b same => ?_) List.nodup_range', List.nodup_singleton _, ?_⟩
  · simpa using same
  · rintro _ member _ last rfl
    obtain ⟨terminal, _, same⟩ := List.mem_map.1 member
    rw [List.mem_singleton.1 last] at same
    contradiction

def declared : Draft where
  terminals := #[number]
  nonterminals := #[⟨"source", true, false, []⟩, ⟨"expr", true, false, []⟩]
  byName := [("number", .terminal 0), ("expr", .nonterminal 1), ("source", .nonterminal 0)]
  strings := []
  tokens := []
  repeats := []
  levels := []
  rankedRules := []

theorem prepare_grammar (distinct : (operators.map text).Nodup) :
    (grammar operators).prepare = .ok (prepared operators) := by
  have sourceShown : isVisibleName "source" = true := by decide +kernel
  have exprShown : isVisibleName "expr" = true := by decide +kernel
  have numberShown : isVisibleName "number" = true := by decide +kernel
  have exprNew : [("source", Sym.nonterminal 0)].lookup "expr" = none := by decide +kernel
  have numberNew : declared.byName.tail.lookup "number" = none := by decide +kernel
  have sourceKnown : declared.byName.lookup "source" = some (.nonterminal 0) := by decide +kernel
  have exprKnown : declared.byName.lookup "expr" = some (.nonterminal 1) := by decide +kernel
  have rules : (forIn (grammar operators).rules PUnit.unit fun rule _ => do
      declareRule rule.1 rule.2
      pure (ForInStep.yield PUnit.unit) : M PUnit) Draft.empty = .ok (⟨⟩, declared) := by
    refine run_each_cons (declareRule_nonterminal rfl rfl sourceShown) ?_
    refine run_each_cons (declareRule_nonterminal exprNew rfl exprShown) ?_
    exact run_each_cons (declareRule_terminal numberNew rfl numberShown parse_digits) rfl
  have alternatives : (forIn (grammar operators).rules PUnit.unit fun rule _ => do
      flattenRule rule.1 rule.2
      pure (ForInStep.yield PUnit.unit) : M PUnit) declared = .ok (⟨⟩, { draft operators with
          nonterminals := (prepared operators).nonterminals }) := by
    refine run_each_cons (flattenRule_nonterminal sourceKnown rfl
      (List.nodup_singleton _) rfl) ?_
    refine run_each_cons (flattenRule_nonterminal exprKnown rfl
      (nodup_productions operators) (flattenChoice_rules [] ?_)) ?_
    · exact distinct
    · rfl
  have ran : prepareWith (grammar operators) "source" Draft.empty
      = .ok (prepared operators, { draft operators with
          nonterminals := (prepared operators).nonterminals }) := by
    rw [prepareWith]
    refine run_bind_of rules ?_
    -- there are no levels, externals, extras, supertypes and no word token
    refine run_bind_of rfl (run_bind_of rfl (run_bind_of rfl (run_bind_of rfl
      (run_bind_of rfl ?_))))
    refine run_bind_of alternatives (run_bind_of rfl ?_)
    dsimp only
    rw [productive_prepared]
    rfl
  change (prepareWith (grammar operators) "source").run' Draft.empty = _
  rw [StateT.run', ran]
  rfl

end Operator

end IncrementalGlr
