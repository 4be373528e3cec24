import Mathlib.Computability.ContextFreeGrammar
import IncrementalGlr.Grammar.Prepared

/-!
# Derivations of prepared grammars

A prepared grammar is a context-free grammar whose terminals and nonterminals are numbers. What it
derives is described a second time from left to right, by the production of every nonterminal that
is met, which is the form that inductions want.
-/

namespace IncrementalGlr

def Sym.toSymbol : Sym → Symbol Nat Nat
  | terminal index => .terminal index
  | nonterminal index => .nonterminal index

theorem Sym.toSymbol_injective : Function.Injective Sym.toSymbol := by
  intro a b same
  cases a <;> cases b <;> simp_all [Sym.toSymbol]

def FlatProduction.symbols (production : FlatProduction) : List Sym :=
  production.steps.map (·.symbol)

namespace PreparedGrammar

variable {grammar : PreparedGrammar}

def rules (grammar : PreparedGrammar) : List (ContextFreeRule Nat Nat) :=
  grammar.nonterminals.toList.zipIdx.flatMap fun (nonterminal, index) =>
    nonterminal.productions.map fun production =>
      ⟨index, production.symbols.map Sym.toSymbol⟩

def cfg (grammar : PreparedGrammar) : ContextFreeGrammar Nat :=
  ⟨Nat, 0, grammar.rules.toFinset⟩

theorem mem_rules {rule : ContextFreeRule Nat Nat} : rule ∈ grammar.rules ↔
    ∃ production ∈ grammar.productionsOf rule.input,
      rule.output = production.symbols.map Sym.toSymbol := by
  simp only [rules, List.mem_flatMap, List.mem_map, Prod.exists, List.mem_zipIdx_iff_getElem?,
    Array.getElem?_toList, productionsOf]
  constructor
  · rintro ⟨nonterminal, index, found, production, member, rfl⟩
    exact ⟨production, by simpa [found] using member, rfl⟩
  · rintro ⟨production, member, output⟩
    cases found : grammar.nonterminals[rule.input]? with
    | none => simp [found] at member
    | some nonterminal =>
      refine ⟨nonterminal, rule.input, found, production, by simpa [found] using member, ?_⟩
      rw [← output]

theorem produces_iff {before after : List (Symbol Nat Nat)} :
    grammar.cfg.Produces before after ↔ ∃ index, ∃ production ∈ grammar.productionsOf index,
      ∃ left right, before = left ++ [.nonterminal index] ++ right ∧
        after = left ++ production.symbols.map Sym.toSymbol ++ right := by
  constructor
  · rintro ⟨rule, member, rewrites⟩
    obtain ⟨left, right, rfl, rfl⟩ := rewrites.exists_parts
    obtain ⟨production, found, output⟩ := mem_rules.1 (List.mem_toFinset.1 member)
    exact ⟨rule.input, production, found, left, right, rfl, output ▸ rfl⟩
  · rintro ⟨index, production, found, left, right, rfl, rfl⟩
    let rule : ContextFreeRule Nat Nat := ⟨index, production.symbols.map Sym.toSymbol⟩
    have member : rule ∈ grammar.rules.toFinset :=
      List.mem_toFinset.2 (mem_rules.2 ⟨production, found, rfl⟩)
    exact ⟨rule, member, rule.rewrites_of_exists_parts left right⟩

inductive Yields (grammar : PreparedGrammar) : List Sym → List Nat → Prop
  | nil : Yields grammar [] []
  | terminal (index : Nat) {symbols : List Sym} {word : List Nat}
      (rest : Yields grammar symbols word) :
      Yields grammar (.terminal index :: symbols) (index :: word)
  | nonterminal {index : Nat} {production : FlatProduction} {symbols : List Sym}
      {own word : List Nat} (member : production ∈ grammar.productionsOf index)
      (inner : Yields grammar production.symbols own) (rest : Yields grammar symbols word) :
      Yields grammar (.nonterminal index :: symbols) (own ++ word)

theorem Yields.append {symbols others : List Sym} {word more : List Nat}
    (h : grammar.Yields symbols word) (h' : grammar.Yields others more) :
    grammar.Yields (symbols ++ others) (word ++ more) := by
  induction h with
  | nil => exact h'
  | terminal index _ ih => exact .terminal index ih
  | nonterminal member inner _ _ ih =>
    rw [List.append_assoc]
    exact .nonterminal member inner ih

theorem Yields.split {symbols others : List Sym} {word : List Nat}
    (h : grammar.Yields (symbols ++ others) word) :
    ∃ own more, word = own ++ more ∧ grammar.Yields symbols own ∧ grammar.Yields others more := by
  induction symbols generalizing word with
  | nil => exact ⟨[], word, rfl, .nil, h⟩
  | cons symbol symbols ih =>
    cases h with
    | terminal index rest =>
      obtain ⟨own, more, rfl, first, second⟩ := ih rest
      exact ⟨_ :: own, more, rfl, .terminal _ first, second⟩
    | nonterminal member inner rest =>
      obtain ⟨own, more, rfl, first, second⟩ := ih rest
      exact ⟨_ ++ own, more, (List.append_assoc ..).symm, .nonterminal member inner first, second⟩

theorem yields_terminals (word : List Nat) : grammar.Yields (word.map .terminal) word := by
  induction word with
  | nil => exact .nil
  | cons index word ih => exact .terminal index ih

theorem Yields.derives {symbols : List Sym} {word : List Nat} (h : grammar.Yields symbols word) :
    grammar.cfg.Derives (symbols.map Sym.toSymbol) (word.map .terminal) := by
  induction h with
  | nil => exact .refl _
  | terminal index _ ih => exact ih.append_left [.terminal index]
  | @nonterminal index production symbols own word member _ _ inner rest =>
    have rewrites : grammar.cfg.Produces [.nonterminal index]
        (production.symbols.map Sym.toSymbol) :=
      produces_iff.2 ⟨index, production, member, [], [], rfl, (List.append_nil _).symm⟩
    have first := (rewrites.trans_derives inner).append_right (symbols.map Sym.toSymbol)
    have second := rest.append_left (own.map .terminal)
    rw [List.map_append]
    exact first.trans second

theorem yields_of_derives {before : List (Symbol Nat Nat)} {word : List Nat}
    (h : grammar.cfg.Derives before (word.map .terminal)) {symbols : List Sym}
    (same : symbols.map Sym.toSymbol = before) : grammar.Yields symbols word := by
  induction h using Relation.ReflTransGen.head_induction_on generalizing symbols with
  | refl =>
    have : symbols = word.map .terminal := by
      apply (List.map_injective_iff.2 Sym.toSymbol_injective)
      rw [same, List.map_map]
      rfl
    rw [this]
    exact yields_terminals word
  | head produces _ ih =>
    obtain ⟨index, production, found, left, right, rfl, rfl⟩ := produces_iff.1 produces
    obtain ⟨front, back, rfl, sameFront, rfl⟩ := List.map_eq_append_iff.1 same
    obtain ⟨front, middle, rfl, rfl, sameMiddle⟩ := List.map_eq_append_iff.1 sameFront
    obtain ⟨one, none, rfl, sameOne, sameNone⟩ := List.map_eq_cons_iff.1 sameMiddle
    cases List.map_eq_nil_iff.1 sameNone
    cases one with
    | terminal index => contradiction
    | nonterminal index =>
      cases sameOne
      have whole := @ih (front ++ production.symbols ++ back) (by simp)
      obtain ⟨word, after, rfl, whole, last⟩ := whole.split
      obtain ⟨first, own, rfl, first', inner⟩ := whole.split
      rw [List.append_assoc, List.append_assoc]
      exact first'.append (.nonterminal found inner last)

theorem yields_iff_derives {symbols : List Sym} {word : List Nat} :
    grammar.Yields symbols word ↔
      grammar.cfg.Derives (symbols.map Sym.toSymbol) (word.map .terminal) :=
  ⟨Yields.derives, fun h => yields_of_derives h rfl⟩

theorem mem_language_iff_yields {word : List Nat} :
    word ∈ grammar.cfg.language ↔ grammar.Yields [.nonterminal 0] word :=
  (yields_iff_derives : grammar.Yields [.nonterminal 0] word ↔ _).symm

def Rewrites (grammar : PreparedGrammar) (before after : List Sym) : Prop :=
  grammar.cfg.Derives (before.map Sym.toSymbol) (after.map Sym.toSymbol)

def Begins (grammar : PreparedGrammar) (symbols : List Sym) (terminal : Nat) : Prop :=
  ∃ index rest, terminal = index + 1 ∧ grammar.Rewrites symbols (.terminal index :: rest)

def Vanishes (grammar : PreparedGrammar) (symbols : List Sym) : Prop :=
  grammar.Rewrites symbols []

variable {symbols others after after' : List Sym} {terminal index : Nat}

theorem Rewrites.refl (symbols : List Sym) : grammar.Rewrites symbols symbols :=
  ContextFreeGrammar.Derives.refl _

theorem Rewrites.append (h : grammar.Rewrites symbols after) (h' : grammar.Rewrites others after') :
    grammar.Rewrites (symbols ++ others) (after ++ after') := by
  have whole := (h.append_right (others.map Sym.toSymbol)).trans
    (h'.append_left (after.map Sym.toSymbol))
  have joined (front back : List Sym) : (front ++ back).map Sym.toSymbol
      = front.map Sym.toSymbol ++ back.map Sym.toSymbol := List.map_append
  exact (congrArg₂ grammar.cfg.Derives (joined symbols others) (joined after after')).mpr whole

theorem Yields.rewrites {word : List Nat} (h : grammar.Yields symbols word) :
    grammar.Rewrites symbols (word.map .terminal) := by
  have spelled : (word.map Sym.terminal).map Sym.toSymbol = word.map .terminal := List.map_map
  exact (congrArg (grammar.cfg.Derives _) spelled).mpr h.derives

theorem Begins.append (begins : grammar.Begins symbols terminal) (others : List Sym) :
    grammar.Begins (symbols ++ others) terminal := by
  obtain ⟨index, rest, same, derives⟩ := begins
  exact ⟨index, rest ++ others, same, derives.append (.refl others)⟩

theorem Vanishes.begins (vanishes : grammar.Vanishes symbols)
    (begins : grammar.Begins others terminal) : grammar.Begins (symbols ++ others) terminal := by
  obtain ⟨index, rest, same, derives⟩ := begins
  exact ⟨index, rest, same, Rewrites.append vanishes derives⟩

theorem Vanishes.append (vanishes : grammar.Vanishes symbols)
    (vanishes' : grammar.Vanishes others) : grammar.Vanishes (symbols ++ others) :=
  Rewrites.append vanishes vanishes'

theorem Rewrites.of_production {production : FlatProduction}
    (derives : grammar.Rewrites production.symbols after)
    (member : production ∈ grammar.productionsOf index) :
    grammar.Rewrites [.nonterminal index] after :=
  have produces : grammar.cfg.Produces [.nonterminal index]
      (production.symbols.map Sym.toSymbol) :=
    produces_iff.2 ⟨index, production, member, [], [], rfl, (List.append_nil _).symm⟩
  produces.trans_derives derives

theorem Begins.of_production {production : FlatProduction}
    (begins : grammar.Begins production.symbols terminal)
    (member : production ∈ grammar.productionsOf index) :
    grammar.Begins [.nonterminal index] terminal := by
  obtain ⟨first, rest, same, derives⟩ := begins
  exact ⟨first, rest, same, derives.of_production member⟩

end PreparedGrammar

end IncrementalGlr
