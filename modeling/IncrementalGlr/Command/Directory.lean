import IncrementalGlr.Command.Error

/-!
# Directories

The files that a command finds, as a value: each has a path of names, and a directory is whatever
stands in the middle of a path. A path is followed name by name, and every name has to be found in
the directory that the names before it led to, so the first fault on the way is the fault of the
path.
-/

namespace IncrementalGlr

structure Directory where
  files : List (List String × List UInt8)
  deriving DecidableEq, Repr, Inhabited

inductive Place where
  /-- One of the directories around this one. Nothing is known of the files there. -/
  | outside
  | inside (names : List String)
  deriving DecidableEq, Repr, Inhabited

namespace Place

def parent : Place → Place
  | outside => outside
  | inside [] => outside
  | inside names => inside names.dropLast

end Place

namespace Directory

def nameLimit : Nat := 255

def pathLimit : Nat := 4095

def ofFiles (files : List (String × List UInt8)) : Directory :=
  ⟨files.map fun (path, content) => (path.splitOn "/", content)⟩

def content? (directory : Directory) (names : List String) : Option (List UInt8) :=
  directory.files.lookup names

def isDirectory (directory : Directory) : Place → Bool
  | .outside => true
  | .inside names =>
    names.isEmpty || directory.files.any fun (file, _) => names.isPrefixOf file && names != file

def namesOf (path : String) : Except FileFault (List String) :=
  if path.isEmpty then .error .notFound
  else if pathLimit < path.utf8ByteSize then .error .nameTooLong
  else .ok (path.splitOn "/")

def enter (directory : Directory) (place : Place) (name : String) : Except FileFault Place :=
  if !directory.isDirectory place then .error .notDirectory
  else if name == "" || name == "." then .ok place
  else if name == ".." then .ok place.parent
  else if nameLimit < name.utf8ByteSize then .error .nameTooLong
  else
    match place with
    | .outside => .error .notFound
    | .inside above =>
      let names := above ++ [name]
      if (directory.content? names).isSome || directory.isDirectory (.inside names) then
        .ok (.inside names)
      else .error .notFound

def follow (directory : Directory) : List String → Except FileFault Place
  | "" :: names => names.foldlM directory.enter .outside
  | names => names.foldlM directory.enter (.inside [])

def read (directory : Directory) (path : String) : Except FileFault (List UInt8) := do
  match ← directory.follow (← namesOf path) with
  | .outside => throw .isDirectory
  | .inside names =>
    match directory.content? names with
    | some content => return content
    | none => throw .isDirectory

/-- Replaces a file, or adds one to a directory that exists. A slash at the end asks for a
directory. What is written outside does not show in this directory. -/
def write (directory : Directory) (path : String) (content : List UInt8) :
    Except FileFault Directory := do
  let (slashes, names) := (← namesOf path).reverse.span (· == "")
  match names with
  | [] => throw .isDirectory
  | name :: parents =>
    let parent ← directory.enter (← directory.follow parents.reverse) "."
    if name == "." || name == ".." || !slashes.isEmpty then throw .isDirectory
    if nameLimit < name.utf8ByteSize then throw .nameTooLong
    match parent with
    | .outside => return directory
    | .inside above =>
      let names := above ++ [name]
      if directory.isDirectory (.inside names) then throw .isDirectory
      return ⟨directory.files.filter (·.1 != names) ++ [(names, content)]⟩

def changes (directory before : Directory) : List (String × List UInt8) :=
  directory.files.filterMap fun (names, content) =>
    match names with
    | [name] => if before.content? names == some content then none else some (name, content)
    | _ => none

end Directory

end IncrementalGlr
