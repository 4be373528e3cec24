import IncrementalGlr.Command.Task

/-!
# The command line
-/

namespace IncrementalGlr

def FileFault.ofIoError : IO.Error → FileFault
  | .noFileOrDirectory .. => .notFound
  | .inappropriateType _ 20 _ => .notDirectory
  | .inappropriateType .. => .isDirectory
  | .invalidArgument _ 36 _ => .nameTooLong
  | error => .other (toString error)

def readContent (path : String) : IO (Except FileFault (List UInt8)) := do
  try return .ok (← IO.FS.readBinFile path).data.toList
  catch error => return .error (FileFault.ofIoError error)

def writeContent (path : String) (content : List UInt8) : IO (Except FileFault Unit) := do
  try return .ok (← IO.FS.writeBinFile path ⟨content.toArray⟩)
  catch error => return .error (FileFault.ofIoError error)

def perform : Task → IO Output
  | .finish output => return output
  | .read path next => return next (← readContent path)
  | .write path content next => return next (← writeContent path content)

end IncrementalGlr

def main (arguments : List String) : IO UInt32 := do
  let output ← IncrementalGlr.perform (IncrementalGlr.Task.ofArguments arguments)
  (← IO.getStdout).putStr output.stdout
  (← IO.getStderr).putStr output.stderr
  return output.code
