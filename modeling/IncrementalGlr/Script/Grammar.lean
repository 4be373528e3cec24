import IncrementalGlr.Grammar.Basic

/-!
# The grammar of the sam language

A scripting language of functions and expressions, which comes with the parser: statements and
declarations end in semicolons, operators associate to the left, and blocks and conditionals are
expressions.
-/

namespace IncrementalGlr.Script

open Rule (string pattern symbol seq choice optional repeat0 repeat1 field)

def operators : List (String × String) :=
  [("**", "binary_exp"), ("*", "binary_times"), ("/", "binary_times"), ("%", "binary_times"),
    ("+", "binary_plus"), ("-", "binary_plus"), ("<", "binary_compare"), ("<=", "binary_compare"),
    (">", "binary_compare"), (">=", "binary_compare"), ("==", "binary_compare"),
    ("!=", "binary_compare")]

def reservedWords : List String := ["return", "let", "if", "else", "for", "in"]

def levels : List PrecedenceEntry :=
  ["attr_access", "call", "unary_op", "binary_exp", "binary_times", "binary_plus",
    "binary_compare"].map PrecedenceEntry.name ++ [.symbol "lambda_expression"]

def commaSeparated1 (rule : Rule) : Rule :=
  seq [rule, repeat0 (seq [string ",", rule])]

def commaSeparated (rule : Rule) : Rule := optional (commaSeparated1 rule)

def binaryExpression : Rule :=
  choice (operators.map fun (operator, level) =>
    Rule.precLeft (.name level) (seq [
      field "left" (symbol "expression"),
      field "operator" (string operator),
      field "right" (symbol "expression")]))

def quotedString (quote fragment : String) : Rule :=
  seq [
    string quote,
    repeat0 (choice [
      Rule.aliased "string_fragment" (symbol fragment),
      symbol "escape_sequence"]),
    string quote]

def stringLiteral : Rule :=
  choice [
    quotedString "\"" "unescaped_double_string_fragment",
    quotedString "'" "unescaped_single_string_fragment"]

def escapeSequence : Rule :=
  Rule.immediate (seq [
    string "\\",
    choice [
      pattern "[^xu0-7]",
      pattern "[0-7]\x7b1,3\x7d",
      pattern "x[0-9a-fA-F]\x7b2\x7d",
      pattern "u[0-9a-fA-F]\x7b4\x7d",
      pattern "u\\\x7b[0-9a-fA-F]+\\\x7d",
      pattern "[\\r?][\\n\\u2028\\u2029]"]])

def decimalDigits : Rule := pattern "\\d(_?\\d)*"

def exponentPart : Rule :=
  seq [
    choice [string "e", string "E"],
    seq [optional (choice [string "-", string "+"]), decimalDigits]]

def decimalInteger : Rule :=
  choice [
    string "0",
    seq [
      optional (string "0"),
      pattern "[1-9]",
      optional (seq [optional (string "_"), decimalDigits])]]

def decimal : Rule :=
  choice [
    seq [decimalInteger, string ".", optional decimalDigits, optional exponentPart],
    seq [string ".", decimalDigits, optional exponentPart],
    seq [decimalInteger, exponentPart],
    decimalDigits]

def binary : Rule :=
  seq [choice [string "0b", string "0B"], pattern "[0-1](_?[0-1])*"]

def octal : Rule :=
  seq [choice [string "0o", string "0O"], pattern "[0-7](_?[0-7])*"]

def hexadecimal : Rule :=
  seq [choice [string "0x", string "0X"], pattern "[\\da-fA-F](_?[\\da-fA-F])*"]

def number : Rule := Rule.token (choice [hexadecimal, decimal, binary, octal])

def statementRules : List (String × Rule) :=
  [("source_file", seq [optional (symbol "interfaces"), repeat0 (symbol "statement")]),
    ("interfaces", repeat1 (symbol "interface")),
    ("interface", seq [
      string "interface",
      field "path" (symbol "string"),
      string "load",
      field "module" (symbol "identifier"),
      symbol "_semicolon"]),
    ("statement", choice [
      symbol "expression_statement",
      symbol "declaration",
      symbol "assignment",
      symbol "return_statement"]),
    ("expression_statement", seq [symbol "expression", symbol "_semicolon"]),
    ("expression", choice [
      symbol "identifier",
      symbol "nested_identifier",
      symbol "literal",
      symbol "binary_expression",
      symbol "unary_expression",
      symbol "lambda_expression",
      symbol "call_expression",
      symbol "array_access_expression",
      symbol "array_expression",
      symbol "if_expression",
      symbol "for_expression"]),
    ("declaration", choice [symbol "variable_declaration"]),
    ("variable_declaration", seq [
      string "let",
      commaSeparated1 (symbol "variable_declarator"),
      symbol "_semicolon"]),
    ("variable_declarator", seq [
      field "variable" (choice [symbol "identifier", symbol "array_access_expression"]),
      optional (symbol "_initializer")]),
    ("assignment", Rule.precRight (.name "assign") (seq [
      field "lhs" (symbol "identifier"),
      string "=",
      field "rhs" (symbol "expression"),
      symbol "_semicolon"])),
    ("_initializer", seq [string "=", field "value" (symbol "expression")])]

def expressionRules : List (String × Rule) :=
  [("identifier", Rule.token (pattern "[_a-zA-Z]+[_a-zA-Z0-9]*")),
    ("literal", choice [symbol "number", symbol "string"]),
    ("binary_expression", binaryExpression),
    ("unary_expression", Rule.precLeft (.name "unary_op") (seq [
      field "operator" (choice [string "!", string "-", string "+"]),
      field "argument" (symbol "expression")])),
    ("lambda_expression", seq [
      field "parameters" (symbol "parameters"),
      string "=>",
      field "body" (choice [symbol "expression", symbol "statement_block"])]),
    ("parameters", seq [string "(", commaSeparated (symbol "identifier"), string ")"]),
    ("statement_block", seq [string "\x7b", repeat0 (symbol "statement"), string "\x7d"]),
    ("return_statement", seq [
      string "return", optional (symbol "expression"), symbol "_semicolon"]),
    ("call_expression", Rule.prec (.name "call") (seq [
      field "function" (symbol "expression"),
      field "arguments" (symbol "arguments")])),
    ("arguments", seq [string "(", commaSeparated (symbol "expression"), string ")"]),
    ("string", stringLiteral),
    ("unescaped_double_string_fragment",
      Rule.immediate (Rule.prec (.integer 1) (pattern "[^\"\\\\\\r\\n]+"))),
    ("unescaped_single_string_fragment",
      Rule.immediate (Rule.prec (.integer 1) (pattern "[^'\\\\\\r\\n]+"))),
    ("escape_sequence", escapeSequence),
    ("number", number)]

def compoundRules : List (String × Rule) :=
  [("array_access_expression", seq [
      choice [
        field "array" (symbol "identifier"),
        field "array_expression" (symbol "array_expression")],
      string "[",
      field "index" (symbol "expression"),
      string "]"]),
    ("array_expression", seq [string "[", commaSeparated (symbol "expression"), string "]"]),
    ("if_expression", seq [
      string "if",
      string "(",
      field "condition" (symbol "expression"),
      string ")",
      field "consequence" (symbol "statement_block"),
      optional (seq [
        string "else",
        field "else" (choice [symbol "statement_block", symbol "if_expression"])])]),
    ("for_expression", seq [
      string "for",
      field "variable" (symbol "identifier"),
      string "in",
      field "iterable" (symbol "expression"),
      field "body" (symbol "statement_block")]),
    ("nested_identifier", Rule.prec (.name "attr_access") (seq [
      field "parent" (symbol "expression"),
      string ".",
      field "name" (symbol "identifier")])),
    ("comment", Rule.token (seq [string "//", pattern "[^\\r\\n]*"])),
    ("_semicolon", pattern ";")]

def grammar : Grammar where
  name := "sam"
  rules := statementRules ++ expressionRules ++ compoundRules
  extras := [symbol "comment", pattern "\\s+"]
  externals := []
  word := some "identifier"
  supertypes := ["statement", "expression", "declaration"]
  reserved := reservedWords
  precedences := [levels, [.name "assign"], [.name "declaration"]]

end IncrementalGlr.Script
