import IncrementalGlr.Command.Directory
import IncrementalGlr.Command.Report

/-!
# Commands

A command line becomes a task: at most one file that is read or written, and what is printed then.
-/

namespace IncrementalGlr

structure Output where
  code : UInt32
  stdout : String
  stderr : String
  deriving DecidableEq, Repr, Inhabited

namespace Output

def print (text : String) : Output := ⟨0, text, ""⟩

def complain (text : String) : Output := ⟨1, "", text⟩

def ofError (error : CommandError) : Output := complain ("error: " ++ error.message ++ "\n")

def ofResult : Except CommandError Output → Output
  | .ok output => output
  | .error error => ofError error

end Output

inductive Task where
  | finish (output : Output)
  | read (path : String) (next : Except FileFault (List UInt8) → Output)
  | write (path : String) (content : List UInt8) (next : Except FileFault Unit → Output)

def Directory.perform (directory : Directory) : Task → Output × Directory
  | .finish output => (output, directory)
  | .read path next => (next (directory.read path), directory)
  | .write path content next =>
    match directory.write path content with
    | .ok written => (next (.ok ()), written)
    | .error fault => (next (.error fault), directory)

namespace Command

def lines (texts : List String) : String := String.join (texts.map (· ++ "\n"))

def usage : String := lines [
  "samc - incremental GLR parser for sam",
  "",
  "Usage: samc <command> [options]",
  "",
  "Commands:",
  "  parse <file.sam>                 Print the syntax tree",
  "  check <file.sam>                 Report syntax errors",
  "  edit <file.sam> <edit>...        Apply edits and re-parse incrementally",
  "  generate [-o <path>]             Write the sam parse tables (default: sam.samt)",
  "  help                             Show this help message",
  "  version                          Show version information",
  "",
  "Edits:",
  "  <start>:<end>:<text>             Replace bytes start..end with text (\\n for newline)",
  "",
  "Parser limits (parse, check, edit):",
  "  --max-versions=<n>               Stack versions kept per round (default: 6)",
  "  --max-pop-depth=<n>              Entries one ERROR node may fold (default: 16)",
  "  --max-missing=<n>                MISSING tokens per recovery (default: 3)",
  "  --max-reduce-steps=<n>           Reductions before a shift (default: 10000)",
  "",
  "Environment:",
  "  RUST_LOG=sam_parse=debug         Enable tracing output",
  "  SAMC_LOG_TREE=1                  Indent tracing output by span"]

def parseUsage : String := lines ["Usage: samc parse <file.sam> [limits]"]

def checkUsage : String := lines ["Usage: samc check <file.sam> [limits]"]

def editUsage : String := lines [
  "Usage: samc edit <file.sam> <start>:<end>:<text>... [limits]",
  "",
  "Offsets are bytes in the text left by the previous edit."]

def version : String := lines ["samc 0.1.0-alpha.1"]

def textOf (content : List UInt8) : Except FileFault String :=
  match String.fromUTF8? ⟨content.toArray⟩ with
  | some text => .ok text
  | none => .error .notText

def language : Except CommandError Language := Script.language.mapError .language

def fileAndRest (arguments : List String) :
    Except CommandError (ParserOptions × String × List String) := do
  match ← ParserOptions.ofArguments arguments with
  | (options, path :: rest) => return (options, path, rest)
  | (_, []) => throw .missingFile

def withText (path : String) (next : Language → String → Except CommandError Output) : Task :=
  .read path fun content => Output.ofResult do
    let text ← (content.bind textOf).mapError (.read path)
    next (← language) text

def orRefuse (task : Except CommandError Task) : Task :=
  match task with
  | .ok task => task
  | .error error => .finish (Output.ofError error)

def parse (arguments : List String) : Task := orRefuse do
  let (options, path, _) ← fileAndRest arguments
  return withText path fun language text =>
    .ok (Output.print (lines [parseReport language options text]))

def check (arguments : List String) : Task := orRefuse do
  let (options, path, _) ← fileAndRest arguments
  return withText path fun language text =>
    let report := CheckReport.ofText language options path text
    .ok (if report.hasErrors then
      Output.complain (report.rendered
        ++ lines [s!"{path}: {report.errorCount} syntax error(s)"])
    else Output.print (lines ["OK: " ++ path]))

def describeStats (stats : ReuseStats) : String :=
  if stats.fallback then "reused nothing (old tree did not match, parsed from scratch)"
  else
    s!"reused {stats.nodes} nodes, {stats.bytes} of {stats.totalBytes} bytes ("
      ++ stats.rateText 1 ++ "%)"

def edit (arguments : List String) : Task := orRefuse do
  let (options, path, rest) ← fileAndRest arguments
  let edits ← rest.mapM EditArgument.ofArgument
  return withText path fun language text => do
    let report ← EditReport.ofEdits language options text edits
    return ⟨0, lines [report.expression, describeStats report.stats],
      if report.diverged then
        lines ["warning: incremental tree differs from a fresh parse"]
      else ""⟩

def outputPath (path : String) : List String → Except CommandError String
  | [] => .ok path
  | "-o" :: path :: rest => outputPath path rest
  | argument :: rest =>
    let option := "--output=".toList
    if option.isPrefixOf argument.toList then
      outputPath (String.ofList (argument.toList.drop option.length)) rest
    else .error (.unknownOption argument)

def generate (arguments : List String) : Task := orRefuse do
  let path ← outputPath "sam.samt" arguments
  let compiled ← Script.compiled.mapError .compile
  let content := compiled.table.toBytes
  return .write path content fun written => Output.ofResult do
    written.mapError (.write path)
    return Output.print (lines (
      compiled.conflicts.map (fun conflict => "conflict: " ++ conflict.message)
        ++ [s!"wrote {path} ({content.length} bytes, "
          ++ s!"{compiled.conflicts.length} conflict(s) kept for GLR)"]))

end Command

def Task.ofArguments : List String → Task
  | [] => .finish (Output.print Command.usage)
  | command :: arguments =>
    match command with
    | "parse" =>
      if arguments.isEmpty then .finish (Output.complain Command.parseUsage)
      else Command.parse arguments
    | "check" =>
      if arguments.isEmpty then .finish (Output.complain Command.checkUsage)
      else Command.check arguments
    | "edit" =>
      if arguments.length < 2 then .finish (Output.complain Command.editUsage)
      else Command.edit arguments
    | "generate" => Command.generate arguments
    | "help" | "--help" | "-h" => .finish (Output.print Command.usage)
    | "version" | "--version" | "-v" => .finish (Output.print Command.version)
    | _ => .finish ⟨1, Command.usage, "Unknown command: " ++ command ++ "\n\n"⟩

end IncrementalGlr
