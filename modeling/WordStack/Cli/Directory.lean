import WordStack.Bytecode
import WordStack.Cli.Place

/-! # A directory and its files

A directory holds folders and files, and lies in a tree that is empty otherwise. A path is followed
name by name, and a name can follow only where there is a folder.

* `Directory.read`: the content of a file.
* `Directory.write`: the directory with a file's content put in, the file being new or not.
* `Directory.changes`: which of its own files a directory has anew or with other content. -/

namespace WordStack.Cli

/-- **Why a file cannot be read or written.** -/
inductive FileError where
  | notFound
  | notDirectory
  | isDirectory
  | nameTooLong
  /-- Any other reason, in words. -/
  | other (text : String)
  deriving DecidableEq

namespace FileError

/-- The wording of a reason, with its number if it has one. -/
def message : FileError → String
  | notFound => "No such file or directory (os error 2)"
  | notDirectory => "Not a directory (os error 20)"
  | isDirectory => "Is a directory (os error 21)"
  | nameTooLong => "File name too long (os error 36)"
  | other text => text

/-- Does the path lead nowhere? -/
def isAbsence : FileError → Bool
  | notFound => true
  | notDirectory => true
  | nameTooLong => true
  | _ => false

end FileError

/-- What there is at a place. -/
inductive Node where
  | file (content : Bytecode)
  | folder
  deriving DecidableEq

/-- **A directory**: what there is at the places in it and around it. The folders that lead to a
place need not be listed. -/
structure Directory where
  entries : List (Place × Node) := []

namespace Directory

/-- The directory with some files and folders, given by their paths. -/
def ofPaths (content : List (String × Node)) : Directory :=
  { entries := content.map fun (path, node) =>
      ((pathNames path).foldl Place.next (pathStart path), node) }

/-- What there is at a place, if anything. The directory and the root are folders, and so is every
place above a listed one. -/
def node? (d : Directory) (place : Place) : Option Node :=
  if place.names = [] then some .folder
  else
    match d.entries.lookup place with
    | some node => some node
    | none => if d.entries.any (place.isAbove ·.1) then some .folder else none

/-- The directory with a file put at a place. -/
def put (d : Directory) (place : Place) (content : Bytecode) : Directory :=
  { entries := (place, .file content) :: d.entries.filter (·.1 ≠ place) }

/-! ## Following a path -/

/-- How many bytes a name may have. -/
def maxNameLength : Nat := 255

/-- How many bytes a path may have. -/
def maxPathLength : Nat := 4095

/-- Where a name leads from a place, which must be a folder. There need be nothing at the end. -/
def step (d : Directory) (place : Place) (name : String) : Except FileError Place :=
  match d.node? place with
  | none => .error .notFound
  | some (.file _) => .error .notDirectory
  | some .folder =>
    if maxNameLength < name.utf8ByteSize then .error .nameTooLong else .ok (place.next name)

/-- Where names lead from the beginning of a path. The length of the path is looked at first, and
the empty path leads nowhere. -/
def follow (d : Directory) (path : String) (names : List String) : Except FileError Place :=
  if path = "" then .error .notFound
  else if maxPathLength < path.utf8ByteSize then .error .nameTooLong
  else names.foldlM d.step (pathStart path)

/-! ## Files -/

/-- **The content of a file.** -/
def read (d : Directory) (path : String) : Except FileError Bytecode :=
  (d.follow path (pathNames path)).bind fun place =>
    match d.node? place with
    | none => .error .notFound
    | some .folder => .error .isDirectory
    | some (.file content) => .ok content

/-- **The directory with a file written.** The folder that the path leads to must be there. A path
that ends in a slash, or in `.` or `..`, is one of a folder whether there is one or not. -/
def write (d : Directory) (path : String) (content : Bytecode) : Except FileError Directory :=
  let all := pathNames path
  let way := (all.reverse.dropWhile (· = "")).reverse
  -- The last name goes for a folder too, so that the one it is in is looked at.
  (d.follow path (way.dropLast ++ ["."])).bind fun folder =>
    match way.getLast? with
    | none => .error .isDirectory
    | some name =>
      if way ≠ all ∨ name = "." ∨ name = ".." then .error .isDirectory
      else
        (d.step folder name).bind fun place =>
          if d.node? place = some .folder then .error .isDirectory
          else .ok (d.put place content)

/-- The files directly in a directory that were not there before or had another content. -/
def changes (before after : Directory) : List (String × Bytecode) :=
  after.entries.filterMap fun
    | (⟨false, [name]⟩, .file content) =>
      if before.node? ⟨false, [name]⟩ = some (.file content) then none else some (name, content)
    | _ => none

end Directory

end WordStack.Cli
