import IncrementalGlr.Grammar.Prepared
import IncrementalGlr.Lexical.Pattern
import IncrementalGlr.Fixpoint

/-!
# Preparing a grammar

Token rules become terminals and all other rules nonterminals. Strings and patterns inside of rules
become terminals too, equal ones once. A repetition becomes a hidden nonterminal that recurs on its
left, and every rule is flattened into its productions.
-/

namespace IncrementalGlr

mutual

def Rule.toRegex (token : String) : Rule → Except GrammarError Regex
  | .blank => .ok .empty
  | .string text => .ok (Regex.literal text)
  | .pattern source => Pattern.parse source
  | .symbol name => .error (.symbolInToken token name)
  | .seq rules => do return .seq (← toRegexList token rules)
  | .choice rules => do return .alt (← toRegexList token rules)
  | .repeat1 rule => do return .repetition (← rule.toRegex token) 1 none
  | .withMetadata _ rule => rule.toRegex token

def Rule.toRegexList (token : String) : List Rule → Except GrammarError (List Regex)
  | [] => .ok []
  | rule :: rest => do
    let regex ← rule.toRegex token
    let regexes ← toRegexList token rest
    return regex :: regexes

end

structure StepContext where
  precedence : Precedence
  associativity : Option Associativity
  field : Option String
  shownAs : Option Alias
  deriving DecidableEq, Repr, Inhabited

namespace StepContext

def empty : StepContext := ⟨.none, none, none, none⟩

def apply (context : StepContext) (metadata : Metadata) : StepContext where
  precedence :=
    if metadata.precedence = .none then context.precedence else metadata.precedence
  associativity := metadata.associativity.or context.associativity
  field := metadata.field.or context.field
  shownAs := metadata.shownAs.or context.shownAs

def step (context : StepContext) (symbol : Sym) : Step :=
  ⟨symbol, context.precedence, context.associativity, context.field, context.shownAs⟩

end StepContext

namespace Preparation

structure Draft where
  terminals : Array Terminal
  nonterminals : Array Nonterminal
  byName : List (String × Sym)
  strings : List (String × Nat)
  tokens : List (Rule × Nat)
  repeats : List ((Rule × StepContext) × Nat)
  levels : List String
  rankedRules : List String
  deriving Inhabited

def Draft.empty : Draft := ⟨#[], #[], [], [], [], [], [], []⟩

abbrev M := StateT Draft (Except GrammarError)

def isVisibleName (name : String) : Bool := !name.startsWith "_"

def pushTerminal (terminal : Terminal) : M Nat := do
  let draft ← get
  set { draft with terminals := draft.terminals.push terminal }
  return draft.terminals.size

def pushNonterminal (nonterminal : Nonterminal) : M Nat := do
  let draft ← get
  set { draft with nonterminals := draft.nonterminals.push nonterminal }
  return draft.nonterminals.size

def setProductions (index : Nat) (productions : List FlatProduction) : M Unit :=
  modify fun draft =>
    { draft with
      nonterminals := draft.nonterminals.modify index fun nonterminal =>
        { nonterminal with productions := productions.eraseDups } }

def nameSymbol (name : String) (symbol : Sym) : M Unit :=
  modify fun draft => { draft with byName := (name, symbol) :: draft.byName }

def symbolOf? (name : String) : M (Option Sym) := do
  return (← get).byName.lookup name

def declareRule (name : String) (rule : Rule) : M Unit := do
  if (← symbolOf? name).isSome then throw (.duplicateRule name)
  let visible := isVisibleName name
  if rule.isToken then
    let regex ← rule.toRegex name
    let terminal ← pushTerminal
      { name, visible, named := true, regex := some regex, precedence := rule.lexicalPrecedence,
        immediate := rule.isImmediate, isString := false, isExternal := false }
    nameSymbol name (.terminal terminal)
  else
    let nonterminal ← pushNonterminal { name, visible, supertype := false, productions := [] }
    nameSymbol name (.nonterminal nonterminal)

def declareLevel : PrecedenceEntry → M Unit
  | .name level => modify fun draft => { draft with levels := level :: draft.levels }
  | .symbol rule => do
    if (← symbolOf? rule).isNone then throw (.undefinedSymbol rule "precedences")
    modify fun draft =>
      { draft with levels := rule :: draft.levels, rankedRules := rule :: draft.rankedRules }

def externalName : Rule → Except GrammarError (String × Bool × Bool)
  | .symbol name => .ok (name, isVisibleName name, true)
  | .string text => .ok (text, true, false)
  | rule => .error (.invalidExternal rule.describe)

/-- Makes an external token; a token rule of that name is the same terminal. -/
def declareExternal (rule : Rule) : M Nat := do
  let (name, visible, named) ← externalName rule
  match ← symbolOf? name with
  | some (.nonterminal _) => throw (.invalidExternal name)
  | some (.terminal terminal) =>
    modify fun draft =>
      { draft with
        terminals := draft.terminals.modify terminal fun terminal =>
          { terminal with isExternal := true } }
    return terminal
  | none =>
    let terminal ← pushTerminal
      { name, visible, named, regex := none, precedence := 0, immediate := false,
        isString := !named, isExternal := true }
    if named then nameSymbol name (.terminal terminal)
    else modify fun draft => { draft with strings := (name, terminal) :: draft.strings }
    return terminal

def declareExtra (rule : Rule) (inline : Nat) : M Nat := do
  match rule with
  | .symbol name =>
    match ← symbolOf? name with
    | some (.terminal terminal) => return terminal
    | some (.nonterminal _) => throw (.invalidExtra name)
    | none => throw (.undefinedSymbol name "extras")
  | rule =>
    if rule.isToken then
      let name := s!"_extra_token{inline}"
      let regex ← rule.toRegex name
      pushTerminal
        { name, visible := false, named := true, regex := some regex,
          precedence := rule.lexicalPrecedence, immediate := false,
          isString := rule matches .string _, isExternal := false }
    else throw (.invalidExtra rule.describe)

def declareExtras : List Rule → Nat → M (List Nat)
  | [], _ => return []
  | rule :: rest, inline => do
    let inline := if rule matches .symbol _ then inline else inline + 1
    let extra ← declareExtra rule inline
    let extras ← declareExtras rest inline
    return extra :: extras

def wordTerminal (name : String) : M Nat := do
  let draft ← get
  match draft.byName.lookup name with
  | some (.terminal terminal) =>
    if (draft.terminals[terminal]?).any (·.regex.isSome) then return terminal
    else throw (.invalidWordToken name)
  | _ => throw (.invalidWordToken name)

def declareSupertype (name : String) : M Unit := do
  match ← symbolOf? name with
  | some (.nonterminal index) =>
    modify fun draft =>
      { draft with
        nonterminals := draft.nonterminals.modify index fun nonterminal =>
          { nonterminal with visible := false, supertype := true } }
  | _ => throw (.invalidSupertype name)

def internString (text : String) : M Nat := do
  match (← get).strings.lookup text with
  | some terminal => return terminal
  | none =>
    let terminal ← pushTerminal
      { name := text, visible := true, named := false, regex := some (Regex.literal text),
        precedence := 0, immediate := false, isString := true, isExternal := false }
    modify fun draft => { draft with strings := (text, terminal) :: draft.strings }
    return terminal

def internToken (owner : String) (rule : Rule) : M Nat := do
  let body := rule.tokenBody
  let draft ← get
  match draft.tokens.lookup body with
  | some terminal => return terminal
  | none =>
    let name := s!"_{owner}_token{draft.tokens.length + 1}"
    let regex ← body.toRegex name
    let terminal ← pushTerminal
      { name, visible := false, named := true, regex := some regex,
        precedence := body.lexicalPrecedence, immediate := body.isImmediate, isString := false,
        isExternal := false }
    modify fun draft => { draft with tokens := (body, terminal) :: draft.tokens }
    return terminal

/-- The productions of the hidden nonterminal `helper`, which stands for one or more of the
alternatives `body`. -/
def repeatProductions (helper : Nat) (body : List FlatProduction) : List FlatProduction :=
  (body.map fun alternative =>
    ⟨Step.plain (.nonterminal helper) :: alternative.steps, alternative.dynamicPrecedence⟩) ++ body

mutual

def flatten (owner : String) (context : StepContext) : Rule → M (List FlatProduction)
  | .blank => return [.empty]
  | .string text => do
    let terminal ← internString text
    return [.single (context.step (.terminal terminal))]
  | .pattern source => do
    let terminal ← internToken owner (.pattern source)
    return [.single (context.step (.terminal terminal))]
  | .symbol name => do
    match ← symbolOf? name with
    | some symbol => return [.single (context.step symbol)]
    | none => throw (.undefinedSymbol name owner)
  | .seq rules => flattenSeq owner context [.empty] rules
  | .choice rules => flattenChoice owner context rules
  | .repeat1 inner => do
    let draft ← get
    let helper ← match draft.repeats.lookup (inner, context) with
      | some helper => pure helper
      | none => do
        let helper ← pushNonterminal
          { name := s!"{owner}_repeat{draft.repeats.length + 1}", visible := false,
            supertype := false, productions := [] }
        modify fun draft => { draft with repeats := ((inner, context), helper) :: draft.repeats }
        let body ← flatten owner context inner
        setProductions helper (repeatProductions helper body)
        pure helper
    return [.single
      ⟨.nonterminal helper, context.precedence, context.associativity, none, none⟩]
  | .withMetadata metadata inner => do
    if metadata.token then
      let terminal ← internToken owner (.withMetadata metadata inner)
      return [.single ((context.apply metadata).step (.terminal terminal))]
    match metadata.precedence with
    | .name level =>
      if !(← get).levels.contains level then throw (.undefinedPrecedence level)
    | _ => pure ()
    let alternatives ← flatten owner (context.apply metadata) inner
    return alternatives.map fun production =>
      { production with
        dynamicPrecedence :=
          FlatProduction.stronger production.dynamicPrecedence metadata.dynamicPrecedence }

def flattenSeq (owner : String) (context : StepContext) (heads : List FlatProduction) :
    List Rule → M (List FlatProduction)
  | [] => return heads
  | rule :: rest => do
    let tails ← flatten owner context rule
    flattenSeq owner context (heads.flatMap fun head => tails.map head.append) rest

def flattenChoice (owner : String) (context : StepContext) :
    List Rule → M (List FlatProduction)
  | [] => return []
  | rule :: rest => do
    let alternatives ← flatten owner context rule
    return alternatives ++ (← flattenChoice owner context rest)

end

def flattenRule (name : String) (rule : Rule) : M Unit := do
  match ← symbolOf? name with
  | some (.nonterminal index) =>
    let ranked := (← get).rankedRules.contains name
    let context := { StepContext.empty with precedence := if ranked then .name name else .none }
    setProductions index (← flatten name context rule)
  | _ => return ()

def derives (productive : Array Bool) (nonterminal : Nonterminal) : Bool :=
  nonterminal.productions.any fun production => production.steps.all fun step =>
    match step.symbol with
    | .terminal _ => true
    | .nonterminal index => productive.getD index false

def productive (nonterminals : Array Nonterminal) : Array Bool :=
  stabilize (fun flags => nonterminals.map (derives flags)) (nonterminals.size + 1)
    (nonterminals.map fun _ => false)

def prepareWith (grammar : Grammar) (start : String) : M PreparedGrammar := do
  for (name, rule) in grammar.rules do
    declareRule name rule
  for entries in grammar.precedences do
    for entry in entries do
      declareLevel entry
  let externals ← grammar.externals.mapM declareExternal
  let extras ← declareExtras grammar.extras 0
  let word ← grammar.word.mapM wordTerminal
  for name in grammar.supertypes do
    declareSupertype name
  for (name, rule) in grammar.rules do
    flattenRule name rule
  let draft ← get
  if !(productive draft.nonterminals).getD 0 false then throw (.unreachableStart start)
  return {
    name := grammar.name
    terminals := draft.terminals
    nonterminals := draft.nonterminals
    extras, externals, word
    reserved := grammar.reserved
    precedences := grammar.precedences }

end Preparation

def Grammar.prepare (grammar : Grammar) : Except GrammarError PreparedGrammar :=
  match grammar.rules with
  | [] => .error (.emptyGrammar grammar.name)
  | (start, rule) :: _ =>
    if rule.isToken then .error (.tokenStart start)
    else (Preparation.prepareWith grammar start).run' Preparation.Draft.empty

end IncrementalGlr
