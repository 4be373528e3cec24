import IncrementalGlr.Text.Quoted

/-!
# Grammar rules

The language in which grammars are written: literal strings and patterns, references to rules, the
usual combinations of them, and metadata: parse precedence, fields, names and token marks.
-/

namespace IncrementalGlr

inductive Precedence where
  | none
  | integer (value : Int)
  | name (name : String)
  deriving DecidableEq, Repr, Inhabited

inductive Associativity where
  | left
  | right
  deriving DecidableEq, Repr, Inhabited

structure Alias where
  value : String
  named : Bool
  deriving DecidableEq, Repr, Inhabited

structure Metadata where
  precedence : Precedence
  associativity : Option Associativity
  dynamicPrecedence : Int16
  field : Option String
  shownAs : Option Alias
  token : Bool
  immediate : Bool
  deriving DecidableEq, Repr

def Metadata.empty : Metadata := ⟨.none, none, 0, none, none, false, false⟩

instance : Inhabited Metadata := ⟨Metadata.empty⟩

inductive Rule where
  | blank
  | string (text : String)
  | pattern (source : String)
  | symbol (name : String)
  | seq (rules : List Rule)
  | choice (rules : List Rule)
  | repeat1 (rule : Rule)
  | withMetadata (metadata : Metadata) (rule : Rule)
  deriving Repr, Inhabited

namespace Rule

mutual

def beq : Rule → Rule → Bool
  | blank, blank => true
  | string a, string b => a == b
  | pattern a, pattern b => a == b
  | symbol a, symbol b => a == b
  | seq as, seq bs => beqList as bs
  | choice as, choice bs => beqList as bs
  | repeat1 a, repeat1 b => a.beq b
  | withMetadata p a, withMetadata q b => p == q && a.beq b
  | _, _ => false

def beqList : List Rule → List Rule → Bool
  | [], [] => true
  | a :: as, b :: bs => a.beq b && beqList as bs
  | _, _ => false

end

instance : BEq Rule := ⟨beq⟩

def optional (rule : Rule) : Rule := choice [rule, blank]

def repeat0 (rule : Rule) : Rule := optional (repeat1 rule)

def prec (precedence : Precedence) (rule : Rule) : Rule :=
  withMetadata { Metadata.empty with precedence } rule

def precLeft (precedence : Precedence) (rule : Rule) : Rule :=
  withMetadata { Metadata.empty with precedence, associativity := some .left } rule

def precRight (precedence : Precedence) (rule : Rule) : Rule :=
  withMetadata { Metadata.empty with precedence, associativity := some .right } rule

def precDynamic (dynamicPrecedence : Int16) (rule : Rule) : Rule :=
  withMetadata { Metadata.empty with dynamicPrecedence } rule

def field (name : String) (rule : Rule) : Rule :=
  withMetadata { Metadata.empty with field := some name } rule

def aliased (name : String) (rule : Rule) : Rule :=
  withMetadata { Metadata.empty with shownAs := some ⟨name, true⟩ } rule

def aliasedAnonymous (text : String) (rule : Rule) : Rule :=
  withMetadata { Metadata.empty with shownAs := some ⟨text, false⟩ } rule

def token (rule : Rule) : Rule :=
  withMetadata { Metadata.empty with token := true } rule

def immediate (rule : Rule) : Rule :=
  withMetadata { Metadata.empty with token := true, immediate := true } rule

def isToken : Rule → Bool
  | string _ => true
  | pattern _ => true
  | withMetadata metadata rule =>
    metadata.token
      || (metadata.field.isNone && metadata.shownAs.isNone && rule.isToken)
  | _ => false

def isImmediate : Rule → Bool
  | withMetadata metadata rule => metadata.immediate || rule.isImmediate
  | _ => false

mutual

/-- The first integer precedence in a token rule, which ranks the token in the lexer. -/
def lexicalPrecedence : Rule → Int
  | withMetadata metadata rule =>
    match metadata.precedence with
    | .integer value => value
    | _ => rule.lexicalPrecedence
  | seq rules => firstLexicalPrecedence rules
  | choice rules => firstLexicalPrecedence rules
  | repeat1 rule => rule.lexicalPrecedence
  | _ => 0

def firstLexicalPrecedence : List Rule → Int
  | [] => 0
  | rule :: rest =>
    if rule.lexicalPrecedence != 0 then rule.lexicalPrecedence else firstLexicalPrecedence rest

end

def tokenBody : Rule → Rule
  | withMetadata metadata rule =>
    if !metadata.token && (metadata.field.isSome || metadata.shownAs.isSome) then
      rule.tokenBody
    else withMetadata metadata rule
  | rule => rule

def describeOption (text : Option String) : String :=
  text.elim "None" fun text => "Some(" ++ text ++ ")"

end Rule

def Precedence.describe : Precedence → String
  | none => "None"
  | integer value => s!"Integer({value})"
  | name level => "Name(" ++ quoted level ++ ")"

def Associativity.describe : Associativity → String
  | left => "Left"
  | right => "Right"

def Alias.describe (shown : Alias) : String :=
  "Alias \x7b value: " ++ quoted shown.value ++ s!", named: {shown.named} \x7d"

def Metadata.describe (metadata : Metadata) : String :=
  "MetadataParams \x7b precedence: " ++ metadata.precedence.describe
    ++ ", associativity: " ++ Rule.describeOption (metadata.associativity.map (·.describe))
    ++ s!", dynamic_precedence: {metadata.dynamicPrecedence.toInt}"
    ++ ", field: " ++ Rule.describeOption (metadata.field.map quoted)
    ++ ", alias: " ++ Rule.describeOption (metadata.shownAs.map (·.describe))
    ++ s!", token: {metadata.token}, immediate: {metadata.immediate} \x7d"

namespace Rule

mutual

def describe : Rule → String
  | blank => "Blank"
  | string text => "String(" ++ quoted text ++ ")"
  | pattern source => "Pattern(" ++ quoted source ++ ")"
  | symbol name => "Symbol(" ++ quoted name ++ ")"
  | seq rules => "Seq([" ++ ", ".intercalate (describeList rules) ++ "])"
  | choice rules => "Choice([" ++ ", ".intercalate (describeList rules) ++ "])"
  | repeat1 rule => "Repeat(" ++ rule.describe ++ ")"
  | withMetadata metadata rule =>
    "Metadata \x7b params: " ++ metadata.describe ++ ", rule: " ++ rule.describe ++ " \x7d"

def describeList : List Rule → List String
  | [] => []
  | rule :: rest => rule.describe :: describeList rest

end

end Rule

end IncrementalGlr
