/-!
# Paths of files

A path is a list of names, below the working directory or below a root. Empty names and the name `.`
in a written path mean nothing; two slashes at its beginning, but not three, are a root of their
own.

* `FilePath.ofText` reads a path, `FilePath.text` writes it in its shortest form.
-/

namespace AutoAwait

/-- A path of a file. -/
structure FilePath where
  root : String
  names : List String
deriving DecidableEq

namespace FilePath

/-- The root of a path, by the number of slashes at its beginning. -/
def rootOf : Nat → String
  | 0 => ""
  | 2 => "//"
  | _ => "/"

/-- Reads a path. -/
def ofText (text : String) : FilePath where
  root := rootOf (text.toList.takeWhile (· = '/')).length
  names := (text.splitOn "/").filter fun n => n ≠ "" ∧ n ≠ "."

/-- The shortest form of a path. -/
def text (p : FilePath) : String :=
  let written := p.root ++ "/".intercalate p.names
  if written.isEmpty then "." else written

end FilePath

end AutoAwait
