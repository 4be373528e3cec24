import IncrementalGlr.Proofs.Table.Recognition
import IncrementalGlr.Proofs.Parse.Construction
import IncrementalGlr.Proofs.Parse.Paths

/-!
# Parses derive their trees

Through forks, merges, recovery and what is taken over from an old tree, every stack stays a path of
the automaton. So every node of a tree is that of a production, of a token or of an error, whatever
was edited and parsed before.
-/

namespace IncrementalGlr

open Generated

variable {grammar : PreparedGrammar}

def ReuseCursor.Derives (cursor : ReuseCursor) (grammar : PreparedGrammar)
    (language : Language) : Prop :=
  cursor.All fun tree => tree.DerivedBelow grammar language

theorem Subtree.DerivedBelow.below {language : Language} (tree child : Subtree)
    (h : tree.DerivedBelow grammar language) (member : child ∈ tree.children) :
    child.DerivedBelow grammar language := .inl (h.child member)

structure Subtree.IsOffer (tree : Subtree) (grammar : PreparedGrammar) (language : Language) :
    Prop where
  below : tree.DerivedBelow grammar language
  first : language.isTerminal tree.firstLeaf.symbol = true

structure Version.Derives (version : Version) (grammar : PreparedGrammar) (language : Language) :
    Prop where
  runs : ∃ symbols, version.stack.Runs grammar language.table symbols
  lexed : ∀ token, version.lookahead = some (.token token) →
    language.table.isRule token.symbol = false
  reused : ∀ tree, version.lookahead = some (.reused tree) → tree.IsOffer grammar language

namespace ParseInput

def Mended.Derives (grammar : PreparedGrammar) (language : Language) : Mended → Prop
  | .version mended => mended.Derives grammar language
  | .root tree => tree.IsRoot grammar language

variable {input : ParseInput} {stack : Stack} {symbols : List Sym} {version : Version}
  {token : Token}

theorem runs_insertMissing (generated : Generated grammar input.language.table)
    {terminal : SymbolId} {reach budget : Nat}
    (runs : ∃ symbols, stack.Runs grammar input.language.table symbols) :
    ∃ symbols, (input.insertMissing terminal reach budget stack).Runs grammar
      input.language.table symbols := by
  refine insertMissing_preserves (motive := fun stack =>
    ∃ symbols, stack.Runs grammar input.language.table symbols)
    (fun stack next runs chosen => ?_)
    (fun _ _ _ _ _ _ ⟨_, runs⟩ chosen done => runs_reduce generated runs chosen done) budget runs
  obtain ⟨symbols, runs⟩ := runs
  obtain ⟨state, t, there, inside, rfl, transition⟩ := generated.of_shift_mem chosen
  exact ⟨_, .symbol runs rfl there transition rfl
    (Subtree.derived_missing input.language (generated.isRule_terminal inside) _)⟩

theorem runs_insertAll (generated : Generated grammar input.language.table) {reach budget : Nat}
    {terminals : List SymbolId} (runs : stack.Runs grammar input.language.table symbols) :
    ∃ symbols, Stack.Runs grammar input.language.table (terminals.foldl
      (fun stack terminal => input.insertMissing terminal reach budget stack) stack) symbols :=
  List.foldlRecOn (motive := fun stack : Stack =>
    ∃ symbols, stack.Runs grammar input.language.table symbols) terminals _ ⟨symbols, runs⟩
    fun _ runs _ _ => runs_insertMissing generated runs

theorem runs_pushError (runs : stack.Runs grammar input.language.table symbols)
    {children : List Subtree}
    (derived : ∀ child ∈ children, child.Derived grammar input.language.table) :
    Stack.Runs grammar input.language.table
      (stack.push (Subtree.errorNode input.language children) stack.state) symbols :=
  .extra runs rfl rfl (Subtree.derived_errorNode input.language derived)

theorem derives_skip (runs : version.stack.Runs grammar input.language.table symbols)
    (noRule : input.language.table.isRule token.symbol = false) :
    (input.skip version token).Derives grammar input.language := by
  have leaf : (Subtree.leaf input.language token version.stack.state false).Derived grammar
      input.language.table := Subtree.derived_leaf input.language noRule version.stack.state false
  have skips := skips_skip input version token
  generalize Subtree.leaf input.language token version.stack.state false = skipped at leaf skips
  generalize input.skip version token = next at skips ⊢
  cases skips with
  | opened =>
    refine ⟨⟨symbols, runs_pushError runs fun child member => ?_⟩,
      fun _ found => (by cases found), fun _ found => (by cases found)⟩
    rwa [List.mem_singleton.1 member]
  | @extended extras below top parts interior =>
    rw [parts] at runs
    obtain ⟨_, rest, _, lower, _, _, passed⟩ := runs.split
    obtain ⟨⟨symbols, bottom⟩, derived⟩ : (∃ symbols,
        Stack.Runs grammar input.language.table below symbols) ∧
        top.subtree.Derived grammar input.language.table := by
      cases lower with
      | extra lower _ _ derived => exact ⟨⟨_, lower⟩, derived⟩
      | symbol lower _ _ _ _ derived => exact ⟨⟨_, lower⟩, derived⟩
    refine ⟨⟨symbols, runs_pushError bottom fun child member => ?_⟩,
      fun _ found => (by cases found), fun _ found => (by cases found)⟩
    rcases List.mem_append.1 member with member | member
    · rcases List.mem_append.1 member with member | member
      · exact derived.child member
      · exact passed child member
    · rwa [List.mem_singleton.1 member]

theorem isRule_nextToken (consistent : input.language.table.Consistent)
    (h : version.Derives grammar input.language) :
    input.language.table.isRule (input.nextToken version).symbol = false := by
  unfold nextToken
  split
  · next token found => exact h.lexed token found
  · exact @Lexer.isRule_next ((Lexer.ofSource input.language input.source).seek _) consistent _ _ _

theorem derives_recover (generated : Generated grammar input.language.table)
    (consistent : input.language.table.Consistent) (h : version.Derives grammar input.language) :
    (input.recover version).Derives grammar input.language := by
  have noRule := isRule_nextToken consistent h
  obtain ⟨symbols, runs⟩ := h.runs
  have mends := mends_recover input version
  generalize input.nextToken version = token at noRule mends
  generalize input.recover version = mended at mends ⊢
  have known : ∀ other, some (Lookahead.token token) = some (.token other) →
      input.language.table.isRule other.symbol = false := by
    rintro _ ⟨⟩
    exact noRule
  cases mends with
  | passed isError =>
    exact ⟨⟨symbols, .extra runs rfl rfl (Subtree.derived_leaf input.language noRule _ _)⟩,
      fun _ found => (by cases found), fun _ found => (by cases found)⟩
  | inserted insertable =>
    exact ⟨runs_insertAll generated runs, known, fun _ found => by cases found⟩
  | folded parts =>
    rw [parts] at runs
    obtain ⟨_, rest, _, lower, _, _, derived⟩ := runs.split
    exact ⟨⟨rest, runs_pushError lower derived⟩, known, fun _ found => by cases found⟩
  | skipped inside => exact derives_skip runs noRule
  | ended isEnd => exact isRoot_errorRoot runs.derived

end ParseInput

section Steps

variable {input : ParseInput} {version next : Version} {reuse : Option ReuseCursor}

theorem Subtree.DerivedBelow.derived_leaf {language : Language} {tree : Subtree}
    (h : tree.DerivedBelow grammar language) (leaf : tree.children = []) :
    tree.Derived grammar language.table := by
  refine h.resolve_right fun ⟨forced, _⟩ => ?_
  obtain ⟨error, one, _⟩ := forced.children
  rw [leaf] at one
  contradiction

theorem Subtree.IsForced.followMode?_eq_none {language : Language} {tree : Subtree}
    (forced : tree.IsForced language) : Engine.followMode? language tree = none := by
  obtain ⟨error, one, _, isExtra⟩ := forced.children
  obtain ⟨info, children⟩ := tree
  obtain rfl : children = [error] := one
  have last : Engine.lastDescendant (node info [error]).height (node info [error])
      = node info [error] := by
    simp [height, Engine.lastDescendant, Subtree.children, isExtra]
  simp [Engine.followMode?, last, isLeaf, Subtree.children]

theorem Lookahead.ShiftsAs.derived {lookahead : Lookahead} {state : StateId} {isExtra : Bool}
    {tree : Subtree} (shifts : lookahead.ShiftsAs input.language state isExtra tree)
    (here : version.lookahead = some lookahead) (h : version.Derives grammar input.language) :
    tree.Derived grammar input.language.table ∧ tree.isExtra = isExtra ∧
      tree.symbol = lookahead.symbol := by
  cases shifts with
  | token token => exact ⟨Subtree.derived_leaf input.language (h.lexed token here) _ _, rfl, rfl⟩
  | @reused tree leaf =>
    have derived := (h.reused tree here).below.derived_leaf leaf
    refine ⟨(derived.withParseState state).withExtra leaf isExtra, rfl, ?_⟩
    rw [Lookahead.symbol, Subtree.firstLeaf_of_leaf leaf]
    rfl

theorem Subtree.IsOffer.counted {tree : Subtree} {language : Language}
    (consistent : language.table.Consistent) (h : tree.IsOffer grammar language)
    (derived : tree.Derived grammar language.table)
    (rule : language.table.isRule tree.symbol = true) : tree.isExtra = false := by
  rw [← Bool.not_eq_true]
  intro outside
  have noError := consistent.ne_error_of_isRule rule
  have first := h.first
  rw [firstLeaf_of_leaf (derived.leaf_of_isExtra noError outside)] at first
  rw [Table.isRule_of_isTerminal first] at rule
  contradiction

theorem Version.Becomes.derives {count : Nat} (generated : Generated grammar input.language.table)
    (consistent : input.language.table.Consistent)
    (becomes : version.Becomes input reuse count next)
    (offers : ∀ cursor ∈ reuse, cursor.Derives grammar input.language)
    (h : version.Derives grammar input.language) : next.Derives grammar input.language := by
  obtain ⟨symbols, runs⟩ := h.runs
  have lexed (lexer : Lexer) (same : lexer.language = input.language) (id : LexModeId)
      (mode : LexMode) (carried : Option ScannerState) (token : Token)
      (found : some (Lookahead.token (lexer.next id mode carried)) = some (.token token)) :
      input.language.table.isRule token.symbol = false := by
    cases found
    rw [← same]
    exact Lexer.isRule_next (same ▸ consistent) _ _ _
  cases becomes with
  | waits => exact h
  | lexed | lexedAnew =>
    exact ⟨h.runs, lexed ((Lexer.ofSource input.language input.source).seek _) rfl _ _ _,
      fun _ found => by cases found⟩
  | @offered tree cursor mode here found =>
    refine ⟨h.runs, fun _ found => (by cases found), fun other same => ?_⟩
    cases same
    obtain ⟨below, reusable⟩ := (ReuseCursor.all_search Subtree.DerivedBelow.below
      (offers cursor here) _ _).2 tree found
    simp only [Engine.isReusable, Bool.and_eq_true] at reusable
    obtain ⟨⟨⟨_, first⟩, _⟩, _⟩ := reusable
    exact ⟨below, first⟩
  | turnedDown here =>
    exact ⟨h.runs, fun _ found => (by cases found), fun _ found => (by cases found)⟩
  | reduced here chosen done =>
    exact ⟨ParseInput.runs_reduce generated runs chosen done, h.lexed, h.reused⟩
  | shifted here leaf chosen =>
    obtain ⟨state, t, found, _, symbol, transition⟩ := generated.of_shift_mem chosen
    obtain ⟨derived, counted, same⟩ := leaf.derived here h
    exact ⟨⟨_, .symbol runs counted found transition (same.trans symbol) derived⟩,
      fun _ found => (by cases found), fun _ found => (by cases found)⟩
  | extra here leaf lacking isExtra =>
    obtain ⟨derived, outside, _⟩ := leaf.derived here h
    exact ⟨⟨_, .extra runs outside rfl derived⟩,
      fun _ found => (by cases found), fun _ found => (by cases found)⟩
  | @takenOver tree next mode here goes interior followed =>
    have offer := h.reused tree here
    have derived := offer.below.resolve_right fun forced => by
      rw [forced.1.followMode?_eq_none] at followed
      contradiction
    obtain ⟨state, n, found, inside, symbol, transition⟩ := generated.of_goto?_eq_some goes
    have counted := offer.counted consistent derived (symbol ▸ generated.isRule_nonterminal inside)
    exact ⟨⟨_, .symbol runs counted found transition symbol derived⟩,
      fun _ found => (by cases found), fun _ found => (by cases found)⟩

theorem Version.EndsIn.isRoot (generated : Generated grammar input.language.table)
    {root : Subtree} (ends : version.EndsIn input root)
    (h : version.Derives grammar input.language) : root.IsRoot grammar input.language := by
  cases ends with
  | accepted here chosen =>
    obtain ⟨symbols, runs⟩ := h.runs
    exact ParseInput.isRoot_root generated runs chosen

end Steps

structure Engine.Derives (engine : Engine) (grammar : PreparedGrammar) (language : Language) :
    Prop where
  versions : ∀ version ∈ engine.versions, version.Derives grammar language
  reuse : ∀ cursor ∈ engine.reuse, cursor.Derives grammar language
  finished : ∀ root ∈ engine.finished, root.IsRoot grammar language

namespace Engine

variable {engine : Engine} {input : ParseInput}

theorem derives_step (generated : Generated grammar input.language.table)
    (consistent : input.language.table.Consistent)
    (h : engine.Derives grammar input.language) :
    (engine.step input).Derives grammar input.language := by
  have steps := steps_step engine input
  refine ⟨fun version member => ?_, fun cursor here => ?_, fun root found => ?_⟩
  · rcases steps.versions version member with old | ⟨before, there, becomes | recovered⟩
    · exact h.versions version old
    · exact becomes.derives generated consistent h.reuse (h.versions before there)
    · have mended := ParseInput.derives_recover generated consistent (h.versions before there)
      rw [recovered] at mended
      exact mended
  · obtain ⟨before, there, moves⟩ := steps.reuse cursor here
    exact moves.all Subtree.DerivedBelow.below (h.reuse before there)
  · rcases steps.finished root found with old | ⟨version, there, ends | recovered⟩
    · exact h.finished root old
    · exact ends.isRoot generated (h.versions version there)
    · have mended := ParseInput.derives_recover generated consistent (h.versions version there)
      rw [recovered] at mended
      exact mended

theorem derives_begin {language : Language} (options : ParserOptions) {text : String}
    {old : Option Tree}
    (derived : ∀ tree, old = some tree → tree.language.isSame language = true →
      tree.root.DerivedBelow grammar language) :
    (Engine.begin (ParseInput.ofText language options text) old).Derives grammar language := by
  refine ⟨fun version member => ?_, fun cursor found => ?_, fun _ none => by cases none⟩
  · rw [List.mem_singleton.1 member]
    exact ⟨⟨[], .nil⟩, fun _ found => (by cases found), fun _ found => (by cases found)⟩
  · obtain ⟨tree, usable, rfl⟩ := Option.map_eq_some_iff.1 found
    obtain ⟨here, usable⟩ := Option.filter_eq_some_iff.1 usable
    have same := (Bool.and_eq_true_iff.1 usable).1
    intro frame member
    rw [List.mem_singleton.1 member]
    exact ⟨derived tree here same, fun _ absent => absurd absent List.not_mem_nil⟩

end Engine

theorem isRoot_parseWithin {language : Language} (built : language.IsBuilt)
    (generated : Generated grammar language.table) {fuel : Nat} {options : ParserOptions}
    {text : String} {old : Option Tree} {parsed : Parsed}
    (history : ∀ tree, old = some tree → tree.language.isSame language = true →
      tree.root.DerivedBelow grammar language)
    (returned : parseWithin fuel language options text old = some parsed) :
    parsed.tree.root.IsRoot grammar language := by
  obtain ⟨engine, ran, rfl⟩ := Option.map_eq_some_iff.1 returned
  obtain ⟨derives, _⟩ := Engine.run_preserves
    (motive := fun engine => engine.Derives grammar language)
    (fun _ h _ => Engine.derives_step generated
      (built.consistent_ofText options text) h) (Engine.derives_begin options history) ran
  obtain ⟨root, found, same⟩ := Engine.exists_result_of_run ran
  exact same ▸ derives.finished root found

theorem Tree.Arises.derivedBelow {language : Language} (built : language.IsBuilt)
    (generated : Generated grammar language.table) {tree : Tree} (h : tree.Arises language) :
    tree.root.DerivedBelow grammar language := by
  induction h with
  | parsed history returned ih => exact (isRoot_parseWithin built generated ih returned).derived
  | edited history edit ih => exact ih.edited _ _ _

/-- What a tree says about its text in the words of the grammar. -/
structure Tree.IsDerivation (tree : Tree) (grammar : PreparedGrammar) : Prop where
  /-- What is no token, no ERROR node and no root that was made by force is a production's node. -/
  nodes : ∀ path offset found, tree.root.at? path = some (offset, found) →
    found.children ≠ [] ∨ tree.language.table.isRule found.symbol = true →
    found.isError = false → ¬ (path = [] ∧ found.IsForced tree.language) →
      Subtree.IsBuilt grammar found.info found.children
  /-- Where there is no ERROR node, the tokens that are no extras are a sentence, inserted tokens
  included. -/
  sentence : (∀ path offset found, tree.root.at? path = some (offset, found) →
      found.isError = false) →
    ∃ word ∈ grammar.cfg.language,
      tree.root.sentence tree.language.table = word.map fun t => grammar.symbolId (.terminal t)

theorem Subtree.Derived.built {table : Table} {tree : Subtree} (h : tree.Derived grammar table)
    (rule : tree.children ≠ [] ∨ table.isRule tree.symbol = true) (noError : tree.isError = false) :
    IsBuilt grammar tree.info tree.children := by
  cases h.here.origin with
  | error isError =>
    have isError : tree.isError = true := beq_iff_eq.2 isError
    rw [noError] at isError
    contradiction
  | token leaf noRule =>
    rcases rule with interior | rule
    · exact absurd leaf interior
    · rw [show tree.symbol = tree.info.symbol from rfl, noRule] at rule
      contradiction
  | built built => exact built

theorem Tree.isDerivation_of_isRoot {tree : Tree}
    (generated : Generated grammar tree.language.table)
    (h : tree.root.IsRoot grammar tree.language) : tree.IsDerivation grammar := by
  refine ⟨fun path offset found there rule noError unforced => ?_, fun noError => ?_⟩
  · cases path with
    | nil =>
      cases there
      rcases h.derived with derived | ⟨forced, _⟩
      · exact derived.built rule noError
      · exact absurd ⟨rfl, forced⟩ unforced
    | cons i path =>
      obtain ⟨child, _, here, below, _⟩ := Subtree.at?_cons.1 there
      have derived : found.Derived grammar tree.language.table :=
        Subtree.Every.at? (h.derived.child (List.mem_of_getElem? here)) below
      exact derived.built rule noError
  · have none : tree.root.Every fun info _ => info.symbol ≠ SymbolId.error :=
      Subtree.every_of_at? fun path offset found there isError => by
        have absent : found.symbol.isError = false := noError path offset found there
        rw [show found.symbol = SymbolId.error from isError] at absent
        contradiction
    have derived : tree.root.Derived grammar tree.language.table := by
      refine h.derived.resolve_right fun ⟨forced, _⟩ => ?_
      obtain ⟨error, one, isError, _⟩ := forced.children
      exact (none.child (one ▸ List.mem_singleton_self error)).here (beq_iff_eq.1 isError)
    obtain ⟨word, yields, spelled⟩ := derived.yields generated none h.counted
      (.nonterminal 0) generated.wellFormed.start
      (h.symbol.trans generated.lowers.start)
    exact ⟨word, PreparedGrammar.mem_language_iff_yields.2 yields, spelled⟩

/-- Every tree is a derivation: whatever was edited and parsed before, the nodes of a parsed tree
are those of productions of the grammar that the language was compiled from. -/
theorem isDerivation_of_parse {source : Grammar} {prepared : PreparedGrammar}
    {compiled : Compiled} (prepares : source.prepare = .ok prepared)
    (compiles : source.compile = .ok compiled) {language : Language} (built : language.IsBuilt)
    (table : language.table = compiled.table) {fuel : Nat} {options : ParserOptions}
    {text : String} {old : Option Tree} {parsed : Parsed}
    (history : ∀ tree, old = some tree → tree.language.isSame language = true →
      tree.Arises language)
    (returned : parseWithin fuel language options text old = some parsed) :
    parsed.tree.IsDerivation prepared := by
  obtain ⟨_, prepares', generated⟩ := generated_of_compile compiles
  cases prepares.symm.trans prepares'
  rw [← table] at generated
  have same : parsed.tree.language = language := by
    obtain ⟨engine, _, rfl⟩ := Option.map_eq_some_iff.1 returned
    rfl
  have root := isRoot_parseWithin built generated
    (fun tree here same => (history tree here same).derivedBelow built generated) returned
  exact Tree.isDerivation_of_isRoot (same.symm ▸ generated) (same.symm ▸ root)

def prefixGrammar : Grammar where
  name := "prefixed"
  rules := [("s", .choice [.string "a", .seq [.symbol "e", .string "a"]]), ("e", .blank)]
  extras := [.string "#"]
  externals := []
  word := none
  supertypes := []
  reserved := []
  precedences := []

def prefixTable : Table where
  name := "prefixed"
  symbols := #[⟨"end", false, true, false⟩, ⟨"_extra_token1", false, true, false⟩,
    ⟨"a", true, false, false⟩, ⟨"s", true, true, false⟩, ⟨"e", true, true, false⟩]
  terminalCount := 3
  ruleCount := 2
  startSymbol := ⟨3⟩
  fieldNames := #[]
  productions := #[⟨⟨3⟩, 0, [⟨none, none⟩]⟩, ⟨⟨3⟩, 0, [⟨none, none⟩, ⟨none, none⟩]⟩,
    ⟨⟨4⟩, 0, []⟩]
  stateCount := 5
  actionIndex := #[0, 0, 1, 2, 0, 0, 3, 0, 0, 0, 0, 4, 5, 0, 0]
  actionLists := #[[], [.shift ⟨1⟩, .reduce ⟨4⟩ 0 0 ⟨2⟩], [.reduce ⟨3⟩ 1 0 ⟨0⟩], [.accept],
    [.shift ⟨4⟩], [.reduce ⟨3⟩ 2 0 ⟨1⟩]]
  gotos := #[⟨2⟩, ⟨3⟩] ++ Array.replicate 8 StateId.none
  allowsExtras := Array.replicate 5 true
  extras := [⟨1⟩]
  externalTokens := #[]
  wordToken := none
  keywords := []
  lexStates := #[⟨#[⟨35, 35, 1⟩, ⟨97, 97, 2⟩], []⟩, ⟨#[], [⟨1⟩]⟩, ⟨#[], [⟨2⟩]⟩]
  lexStart := 0

theorem compile_prefixGrammar :
    ∃ compiled, prefixGrammar.compile = .ok compiled ∧ compiled.table = prefixTable := by
  have laidOut : (prefixGrammar.compile.toOption.any fun compiled =>
      compiled.table == prefixTable) = true := by cbv
  obtain ⟨compiled, found, same⟩ := (Option.any_eq_true _ _).1 laidOut
  exact ⟨compiled, ok_of_toOption found, eq_of_beq same⟩

def prefixLanguage : Option Language := (Language.ofTable prefixTable none 1).toOption

theorem isBuilt_of_prefixLanguage {language : Language} (h : prefixLanguage = some language) :
    language.IsBuilt ∧ language.table = prefixTable :=
  Language.isBuilt_of_ofTable h

/-- A text of the grammar, and the text after a letter was put in that the grammar does not
know. -/
theorem isDerivation_of_parse_prefixed : ∃ prepared language parsed reparsed,
    prefixGrammar.prepare = .ok prepared ∧ prefixLanguage = some language ∧
      parseWithin 100 language .standard "#a#" none = some parsed ∧
      parsed.tree.hasError = false ∧
      parseWithin 200 language .standard "#ab#"
        (some (parsed.tree.edit (Edit.apply "#a#" 2 2 "b").2)) = some reparsed ∧
      reparsed.tree.hasError = true ∧ reparsed.tree.IsDerivation prepared := by
  have runs : (prefixLanguage.any fun language =>
      (parseWithin 100 language .standard "#a#" none).any fun parsed =>
        !parsed.tree.hasError && (parseWithin 200 language .standard "#ab#"
          (some (parsed.tree.edit (Edit.apply "#a#" 2 2 "b").2))).any fun reparsed =>
            reparsed.tree.hasError) = true := by
    decide +kernel
  obtain ⟨language, built, runs⟩ := (Option.any_eq_true _ _).1 runs
  obtain ⟨parsed, first, runs⟩ := (Option.any_eq_true _ _).1 runs
  obtain ⟨noError, runs⟩ := Bool.and_eq_true_iff.1 runs
  obtain ⟨reparsed, second, error⟩ := (Option.any_eq_true _ _).1 runs
  obtain ⟨prepared, prepares⟩ : ∃ prepared, prefixGrammar.prepare = .ok prepared :=
    exists_ok_of_isSome (by decide +kernel)
  obtain ⟨compiled, compiles, laidOut⟩ := compile_prefixGrammar
  obtain ⟨isBuilt, table⟩ := isBuilt_of_prefixLanguage built
  refine ⟨prepared, language, parsed, reparsed, prepares, built, first, by simpa using noError,
    second, error, ?_⟩
  refine isDerivation_of_parse prepares compiles isBuilt (table.trans laidOut.symm) ?_ second
  rintro _ ⟨⟩ _
  exact .edited (.parsed (by simp) first) _

end IncrementalGlr
