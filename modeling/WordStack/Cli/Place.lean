/-! # Places in a tree of files

A directory lies somewhere below the root of a tree of folders and files. A place in the tree is
given by the names that lead to it, from the directory or from the root, whichever is nearer: the
place above the directory is the root, and no names lead from there back into the directory.

The names of a path are separated by slashes. An empty name and `.` stay where they are, and `..`
goes up; at the root it stays there too. -/

namespace WordStack.Cli

/-- **A place**: the names that lead to it, from the directory or else from the root. -/
structure Place where
  fromRoot : Bool
  names : List String
  deriving DecidableEq

namespace Place

/-- The place of the directory itself. -/
def here : Place := ⟨false, []⟩

/-- The place of the root. -/
def root : Place := ⟨true, []⟩

/-- The place above. -/
def up (p : Place) : Place := if p.names = [] then root else { p with names := p.names.dropLast }

/-- The place of a name in a folder. -/
def child (p : Place) (name : String) : Place := { p with names := p.names ++ [name] }

/-- The place that a name of a path leads to. -/
def next (p : Place) (name : String) : Place :=
  if name = "" ∨ name = "." then p
  else if name = ".." then p.up
  else p.child name

/-- Is a place this one or below it? -/
def isAbove (p q : Place) : Bool := p.fromRoot == q.fromRoot && p.names.isPrefixOf q.names

end Place

/-- The names of a path. -/
def pathNames (path : String) : List String := (path.toList.splitOn '/').map String.ofList

/-- Where a path begins: a slash in front stands for the root. -/
def pathStart (path : String) : Place := if path.toList.head? = some '/' then .root else .here

end WordStack.Cli
