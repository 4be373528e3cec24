import IncrementalGlr.Script.Language

/-!
# What a command can refuse
-/

namespace IncrementalGlr

inductive FileFault where
  | notFound
  | notDirectory
  | isDirectory
  | nameTooLong
  | notText
  | other (message : String)
  deriving DecidableEq, Repr, Inhabited

namespace FileFault

def message : FileFault → String
  | notFound => "No such file or directory (os error 2)"
  | notDirectory => "Not a directory (os error 20)"
  | isDirectory => "Is a directory (os error 21)"
  | nameTooLong => "File name too long (os error 36)"
  | notText => "stream did not contain valid UTF-8"
  | other message => message

end FileFault

inductive Limit where
  | versions
  | popDepth
  | missing
  | reduceSteps
  deriving DecidableEq, Repr

namespace Limit

def all : List Limit := [versions, popDepth, missing, reduceSteps]

def optionName : Limit → String
  | versions => "--max-versions"
  | popDepth => "--max-pop-depth"
  | missing => "--max-missing"
  | reduceSteps => "--max-reduce-steps"

end Limit

inductive CommandError where
  | read (path : String) (fault : FileFault)
  | write (path : String) (fault : FileFault)
  | language (error : Script.BundleError)
  | compile (error : GrammarError)
  | missingFile
  | unknownOption (argument : String)
  | invalidValue (limit : Limit) (value : String)
  | invalidEdit (argument : String)
  | editOutOfRange (start stop size : Nat)
  deriving DecidableEq, Repr

namespace CommandError

def message : CommandError → String
  | read path fault => "cannot read '" ++ path ++ "': " ++ fault.message
  | write path fault => "cannot write '" ++ path ++ "': " ++ fault.message
  | language error => error.message
  | compile error => error.message
  | missingFile => "missing file path"
  | unknownOption argument => "unknown option '" ++ argument ++ "'"
  | invalidValue limit value =>
    "invalid value '" ++ value ++ "' for " ++ limit.optionName
  | invalidEdit argument =>
    "invalid edit '" ++ argument ++ "', expected <start>:<end>:<text>"
  | editOutOfRange start stop size =>
    s!"edit {start}..{stop} does not fit a text of {size} bytes"

end CommandError

end IncrementalGlr
