import IncrementalGlr.Command.Error
import IncrementalGlr.Parse.Options
import IncrementalGlr.Text.Source

/-!
# Arguments of commands
-/

namespace IncrementalGlr

def readCount (digits : List Char) : Option Nat :=
  let digits := match digits with
    | '+' :: rest => rest
    | digits => digits
  if digits.isEmpty || !digits.all Char.isDigit then none
  else
    let value := digits.foldl (fun value c => value * 10 + (c.toNat - '0'.toNat)) 0
    if value < UInt64.size then some value else none

structure EditArgument where
  start : Nat
  stop : Nat
  inserted : String
  deriving DecidableEq, Repr, Inhabited

namespace EditArgument

def unescape : List Char → List Char
  | [] => []
  | '\\' :: 'n' :: rest => '\n' :: unescape rest
  | '\\' :: 't' :: rest => '\t' :: unescape rest
  | c :: rest => c :: unescape rest

def splitColon? (cs : List Char) : Option (List Char × List Char) :=
  match cs.dropWhile (· != ':') with
  | _ :: rest => some (cs.takeWhile (· != ':'), rest)
  | [] => none

def ofArgument? (argument : List Char) : Option EditArgument := do
  let (start, rest) ← splitColon? argument
  let (stop, text) ← splitColon? rest
  return ⟨← readCount start, ← readCount stop, String.ofList (unescape text)⟩

def ofArgument (argument : String) : Except CommandError EditArgument :=
  match ofArgument? argument.toList with
  | some edit => .ok edit
  | none => .error (.invalidEdit argument)

def fits (edit : EditArgument) (source : Source) : Bool :=
  edit.start ≤ edit.stop && edit.stop ≤ source.size && source.isBoundary edit.start
    && source.isBoundary edit.stop

def validate (edit : EditArgument) (text : String) : Except CommandError Unit :=
  let source := Source.ofText text
  if edit.fits source then .ok ()
  else .error (.editOutOfRange edit.start edit.stop source.size)

end EditArgument

namespace Limit

def valueOf? (limit : Limit) (argument : String) : Option String :=
  let option := limit.optionName.toList ++ ['=']
  if option.isPrefixOf argument.toList then
    some (String.ofList (argument.toList.drop option.length))
  else none

def read (limit : Limit) (value : String) : Except CommandError Nat :=
  match readCount value.toList with
  | some count =>
    if count > 0 || limit = missing then .ok count else .error (.invalidValue limit value)
  | none => .error (.invalidValue limit value)

def set (limit : Limit) (count : Nat) (options : ParserOptions) : ParserOptions :=
  match limit with
  | versions => { options with maxVersions := count }
  | popDepth => { options with maxPopDepth := count }
  | missing => { options with maxMissing := count }
  | reduceSteps => { options with maxReduceSteps := count }

end Limit

namespace ParserOptions

def takeLimits (options : ParserOptions) :
    List String → Except CommandError (ParserOptions × List String)
  | [] => .ok (options, [])
  | argument :: rest =>
    match Limit.all.findSome? fun limit => (limit.valueOf? argument).map (limit, ·) with
    | some (limit, value) => do
      let count ← limit.read value
      takeLimits (limit.set count options) rest
    | none =>
      if "--max-".toList.isPrefixOf argument.toList then .error (.unknownOption argument)
      else do
        let (options, others) ← takeLimits options rest
        return (options, argument :: others)

def ofArguments (arguments : List String) :
    Except CommandError (ParserOptions × List String) :=
  standard.takeLimits arguments

end ParserOptions

end IncrementalGlr
