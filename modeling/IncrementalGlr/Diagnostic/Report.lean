import IncrementalGlr.Diagnostic.Basic
import IncrementalGlr.Text.Line

/-!
# Reports

A report is the text of diagnostics for a reader: a title with the place, the line of the text with
the place underlined, and the notes.
-/

namespace IncrementalGlr

namespace Diagnostic

def snippet (source : Source) (span : Span) : List String :=
  let (line, column) := source.lineColumn span.start.bytes
  match (linesOf source.text.toList)[line - 1]? with
  | none => []
  | some text =>
    let stop := min span.stop.bytes source.size
    let covered := if span.start.bytes ≤ stop then source.slice span.start.bytes stop else ""
    let width := max 1 (firstLine covered).length
    let number := s!"{line}"
    [number ++ " | " ++ String.ofList text,
      "".pushn ' ' number.length ++ " | " ++ "".pushn ' ' (column - 1) ++ "".pushn '^' width]

def reportLines (name : String) (source : Source) (diagnostic : Diagnostic) : List String :=
  let place := match diagnostic.span with
    | some span =>
      let (line, column) := source.lineColumn span.start.bytes
      s!"{name}:{line}:{column}: "
    | none => name ++ ": "
  (place ++ diagnostic.title)
    :: (diagnostic.span.elim [] (snippet source) ++ diagnostic.notes.map noteLine)

def report (name : String) (source : Source) (diagnostics : List Diagnostic) : String :=
  String.join ((diagnostics.flatMap (reportLines name source)).map (· ++ "\n"))

end Diagnostic

end IncrementalGlr
