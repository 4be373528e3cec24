import IncrementalGlr.Lexical.Regex

/-!
# Patterns

The reader of the regular expressions that grammars use: literals, `.`, classes, the escapes
`\d \D \s \S \w \W \n \r \t \f \v \0 \xHH \uHHHH \u{H…}`, groups, alternation and the quantifiers
`* + ? {n} {n,} {n,m}`. A brace that starts no count is a literal.

The reader works on the characters that are left. Each of its functions takes a bound on their
number, which every recursive step lowers.
-/

namespace IncrementalGlr.Pattern

structure Input where
  rest : List Char
  offset : Nat
  deriving DecidableEq, Repr, Inhabited

structure Failure where
  offset : Nat
  fault : PatternFault
  deriving DecidableEq, Repr

namespace Input

def fail {α : Type} (input : Input) (fault : PatternFault) : Except Failure (α × Input) :=
  .error ⟨input.offset, fault⟩

def peek (input : Input) : Option Char := input.rest.head?

def skip (input : Input) (count : Nat) : Input :=
  ⟨input.rest.drop count, input.offset + count⟩

def eat? (input : Input) (expected : Char) : Option Input :=
  if input.peek = some expected then some (input.skip 1) else none

end Input

def digitValue? (base : Nat) (c : Char) : Option Nat :=
  let value? :=
    if '0' ≤ c && c ≤ '9' then some (c.toNat - '0'.toNat)
    else if 'a' ≤ c && c ≤ 'z' then some (c.toNat - 'a'.toNat + 10)
    else if 'A' ≤ c && c ≤ 'Z' then some (c.toNat - 'A'.toNat + 10)
    else none
  value?.bind fun value => if value < base then some value else none

/-- A number of digits of the base, below 2^32. A plus sign may stand before the digits. -/
def number? (base : Nat) (digits : List Char) : Option Nat :=
  let digits := match digits with
    | '+' :: c :: rest => c :: rest
    | digits => digits
  if digits.isEmpty then none
  else
    (digits.foldl
      (fun value c => value.bind fun value =>
        (digitValue? base c).map fun digit => value * base + digit)
      (some 0)).bind fun value => if value < UInt32.size then some value else none

def hex (input : Input) (count : Nat) : Except Failure (CharSet × Input) :=
  let digits := input.rest.take count
  if digits.length < count then input.fail .truncatedHex
  else match number? 16 digits with
    | some value => .ok (CharSet.range value value, input.skip count)
    | none => input.fail .invalidHex

def bracedHex (input : Input) : Except Failure (CharSet × Input) :=
  let digits := input.rest.takeWhile fun c => (digitValue? 16 c).isSome
  let input := input.skip digits.length
  match input.eat? '\x7d' with
  | none => input.fail .unclosedCodePoint
  | some input =>
    match number? 16 digits with
    | some value => .ok (CharSet.range value value, input)
    | none => input.fail .invalidCodePoint

def escape (inClass : Bool) (input : Input) : Except Failure (CharSet × Input) :=
  match input.rest with
  | [] => input.fail .danglingEscape
  | c :: _ =>
    let input := input.skip 1
    match c with
    | 'd' => .ok (CharSet.digits, input)
    | 'D' => .ok (CharSet.digits.negated, input)
    | 's' => .ok (CharSet.whitespace, input)
    | 'S' => .ok (CharSet.whitespace.negated, input)
    | 'w' => .ok (CharSet.word, input)
    | 'W' => .ok (CharSet.word.negated, input)
    | 'n' => .ok (CharSet.single '\n', input)
    | 'r' => .ok (CharSet.single '\r', input)
    | 't' => .ok (CharSet.single '\t', input)
    | 'f' => .ok (CharSet.single '\x0c', input)
    | 'v' => .ok (CharSet.single '\x0b', input)
    | '0' => .ok (CharSet.single '\x00', input)
    | 'x' => hex input 2
    | 'u' =>
      match input.eat? '\x7b' with
      | some input => bracedHex input
      | none => hex input 4
    | 'b' =>
      if inClass then .ok (CharSet.single '\x08', input) else input.fail .wordBoundary
    | 'B' => input.fail .wordBoundary
    | c =>
      if '0' ≤ c && c ≤ '9' then input.fail .backreference
      else .ok (CharSet.single c, input)

def classItem (c : Char) (input : Input) : Except Failure (CharSet × Input) :=
  if c = '\\' then escape true input else .ok (CharSet.single c, input)

/-- The items of a class up to its closing bracket, added to `set`. A hyphen between an item of one
character and any item but the bracket makes a range up to the first character of the second. -/
def classItems : Nat → CharSet → Input → Except Failure (CharSet × Input)
  | 0, _, input => input.fail .unclosedClass
  | fuel + 1, set, input =>
    match input.rest with
    | [] => input.fail .unclosedClass
    | c :: _ =>
      let input := input.skip 1
      if c = ']' then .ok (set, input)
      else do
        let (item, input) ← classItem c input
        match item.onlyMember?, input.rest with
        | some low, '-' :: next :: _ =>
          if next = ']' then classItems fuel (set.addSet item) input
          else
            let (highItem, input) ← classItem next (input.skip 2)
            match highItem.ranges with
            | [] => input.fail .invalidClassRange
            | (high, _) :: _ =>
              if high < low then input.fail .invertedClassRange
              else classItems fuel (set.addRange low high) input
        | _, _ => classItems fuel (set.addSet item) input

/-- A class behind its opening bracket. -/
def charClass (input : Input) : Except Failure (CharSet × Input) :=
  let negated := input.eat? '^'
  let input := negated.getD input
  do
    let (set, input) ← classItems (input.rest.length + 1) CharSet.empty input
    return (if negated.isSome then set.negated else set, input)

def decimal? (input : Input) : Option (Nat × Input) :=
  let digits := input.rest.takeWhile fun c => '0' ≤ c && c ≤ '9'
  (number? 10 digits).map fun value => (value, input.skip digits.length)

def bounds? (input : Input) : Option (Nat × Option Nat × Input) := do
  let (low, input) ← decimal? input
  let (high, input) ← match input.eat? ',' with
    | none => pure (some low, input)
    | some input =>
      if input.peek = some '\x7d' then pure (none, input)
      else do
        let (high, input) ← decimal? input
        pure (some high, input)
  let input ← input.eat? '\x7d'
  return (low, high, input)

def quantifier? (input : Input) : Option (Nat × Option Nat × Input) :=
  match input.peek with
  | some '*' => some (0, none, input.skip 1)
  | some '+' => some (1, none, input.skip 1)
  | some '?' => some (0, some 1, input.skip 1)
  | some '\x7b' => bounds? (input.skip 1)
  | _ => none

def quantified (atom : Regex) (input : Input) : Except Failure (Regex × Input) :=
  match quantifier? input with
  | none => .ok (atom, input)
  | some (low, high, input) =>
    if input.peek = some '?' then input.fail .lazyQuantifier
    else if high.any (· < low) then input.fail .invertedQuantifier
    else .ok (.repetition atom low high, input)

def seqOf : List Regex → Regex
  | [] => .empty
  | [item] => item
  | items => .seq items

def altOf : List Regex → Regex
  | [alternative] => alternative
  | alternatives => .alt alternatives

mutual

def alternation : Nat → Input → Except Failure (Regex × Input)
  | 0, input => input.fail .unexpectedEnd
  | fuel + 1, input => do
    let (alternatives, input) ← alternatives fuel input
    return (altOf alternatives, input)

def alternatives : Nat → Input → Except Failure (List Regex × Input)
  | 0, input => input.fail .unexpectedEnd
  | fuel + 1, input => do
    let (items, input) ← sequence fuel input
    match input.eat? '|' with
    | none => return ([seqOf items], input)
    | some input => do
      let (rest, input) ← alternatives fuel input
      return (seqOf items :: rest, input)

def sequence : Nat → Input → Except Failure (List Regex × Input)
  | 0, input => input.fail .unexpectedEnd
  | fuel + 1, input =>
    match input.peek with
    | none => .ok ([], input)
    | some c =>
      if c = '|' || c = ')' then .ok ([], input)
      else do
        let (expr, input) ← atom fuel c (input.skip 1)
        let (item, input) ← quantified expr input
        let (rest, input) ← sequence fuel input
        return (item :: rest, input)

def atom : Nat → Char → Input → Except Failure (Regex × Input)
  | 0, _, input => input.fail .unexpectedEnd
  | fuel + 1, c, input =>
    match c with
    | '(' =>
      match input.eat? '?' with
      | none => group fuel input
      | some input =>
        match input.eat? ':' with
        | none => input.fail .unsupportedGroup
        | some input => group fuel input
    | '[' => do
      let (set, input) ← charClass input
      return (.set set, input)
    | '.' => .ok (.set (CharSet.single '\n').negated, input)
    | '\\' => do
      let (set, input) ← escape false input
      return (.set set, input)
    | '*' | '+' | '?' => input.fail .nothingToRepeat
    | '^' | '$' => input.fail .anchor
    | c => .ok (.set (CharSet.single c), input)

def group : Nat → Input → Except Failure (Regex × Input)
  | 0, input => input.fail .unexpectedEnd
  | fuel + 1, input => do
    let (inner, input) ← alternation fuel input
    match input.eat? ')' with
    | none => input.fail .unclosedGroup
    | some input => return (inner, input)

end

def fuelFor (input : Input) : Nat := 5 * (input.rest.length + 1)

def parse (source : String) : Except GrammarError Regex :=
  let input : Input := ⟨source.toList, 0⟩
  match alternation (fuelFor input) input with
  | .error failure => .error (.invalidPattern source failure.offset failure.fault)
  | .ok (regex, input) =>
    if input.rest.isEmpty then .ok regex
    else .error (.invalidPattern source input.offset .unbalancedClose)

end IncrementalGlr.Pattern
