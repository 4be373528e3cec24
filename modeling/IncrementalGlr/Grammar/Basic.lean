import IncrementalGlr.Grammar.Rule

/-!
# Grammars
-/

namespace IncrementalGlr

inductive PrecedenceEntry where
  | name (name : String)
  /-- Every production of this rule that has no precedence of its own. -/
  | symbol (rule : String)
  deriving DecidableEq, Repr, Inhabited

def PrecedenceEntry.level : PrecedenceEntry → String
  | name level => level
  | symbol level => level

structure Grammar where
  name : String
  rules : List (String × Rule)
  extras : List Rule
  externals : List Rule
  word : Option String
  supertypes : List String
  reserved : List String
  /-- Lists of levels, highest first. Levels of different lists do not compare. -/
  precedences : List (List PrecedenceEntry)
  deriving Repr, Inhabited

inductive TablePart where
  | terminals
  | symbols
  | rules
  | parseStates
  | fields
  | productions
  | productionSteps
  | actionLists
  | lexerStates
  deriving DecidableEq, Repr

def TablePart.display : TablePart → String
  | terminals => "terminals"
  | symbols => "symbols"
  | rules => "rules"
  | parseStates => "parse states"
  | fields => "fields"
  | productions => "productions"
  | productionSteps => "production steps"
  | actionLists => "action lists"
  | lexerStates => "lexer states"

inductive PatternFault where
  | unbalancedClose
  | lazyQuantifier
  | invertedQuantifier
  | unexpectedEnd
  | unsupportedGroup
  | unclosedGroup
  | nothingToRepeat
  | anchor
  | unclosedClass
  | invalidClassRange
  | invertedClassRange
  | danglingEscape
  | unclosedCodePoint
  | invalidCodePoint
  | wordBoundary
  | backreference
  | truncatedHex
  | invalidHex
  deriving DecidableEq, Repr

def PatternFault.message : PatternFault → String
  | unbalancedClose => "unbalanced `)`"
  | lazyQuantifier => "lazy quantifiers are not supported"
  | invertedQuantifier => "quantifier range is inverted"
  | unexpectedEnd => "unexpected end of pattern"
  | unsupportedGroup => "only `(?:` groups are supported"
  | unclosedGroup => "unclosed group"
  | nothingToRepeat => "nothing to repeat"
  | anchor => "anchors are not supported"
  | unclosedClass => "unclosed character class"
  | invalidClassRange => "invalid class range"
  | invertedClassRange => "class range is inverted"
  | danglingEscape => "dangling escape"
  | unclosedCodePoint => "unclosed `\\u\x7b`"
  | invalidCodePoint => "invalid `\\u\x7b\x7d` escape"
  | wordBoundary => "word boundaries are not supported"
  | backreference => "backreferences are not supported"
  | truncatedHex => "truncated hex escape"
  | invalidHex => "invalid hex escape"

inductive GrammarError where
  | emptyGrammar (grammar : String)
  | undefinedSymbol (name rule : String)
  | duplicateRule (name : String)
  | unreachableStart (name : String)
  | tokenStart (name : String)
  | undefinedPrecedence (name : String)
  | invalidWordToken (name : String)
  | invalidExtra (name : String)
  | invalidExternal (name : String)
  | invalidSupertype (name : String)
  | symbolInToken (token name : String)
  | emptyToken (name : String)
  | invalidPattern (pattern : String) (offset : Nat) (fault : PatternFault)
  | tooLarge (part : TablePart) (count : Nat)
  deriving DecidableEq, Repr

def GrammarError.message : GrammarError → String
  | emptyGrammar grammar => s!"grammar `{grammar}` has no rules"
  | undefinedSymbol name rule => s!"rule `{rule}` refers to undefined symbol `{name}`"
  | duplicateRule name => s!"rule `{name}` is defined more than once"
  | unreachableStart name => s!"start rule `{name}` cannot derive any input"
  | tokenStart name => s!"start rule `{name}` must not be a token"
  | undefinedPrecedence name =>
    s!"precedence `{name}` is used but not declared in `precedences`"
  | invalidWordToken name => s!"word token `{name}` is not a token rule"
  | invalidExtra name => s!"extra `{name}` is not a token"
  | invalidExternal name =>
    s!"external token `{name}` must be a symbol or string that no rule defines"
  | invalidSupertype name => s!"supertype `{name}` is not a rule"
  | symbolInToken token name =>
    s!"token `{token}` refers to symbol `{name}`; tokens may only contain strings and patterns"
  | emptyToken name => s!"token `{name}` matches the empty string"
  | invalidPattern pattern offset fault =>
    s!"invalid pattern /{pattern}/ at offset {offset}: {fault.message}"
  | tooLarge part count =>
    s!"grammar needs {count} {part.display}, more than the table format allows"

end IncrementalGlr
