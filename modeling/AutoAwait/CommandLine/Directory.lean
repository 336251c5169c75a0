import AutoAwait.CommandLine.FilePath
import AutoAwait.Text.Quoted

/-!
# Reading files

A file source gives the text of the file at a path, or says why it cannot be read. One kind of
source is a directory: files at distinct paths, all below the working directory.

* `FileProblem.message` is the text of a problem with a file;
* `Directory.read` is the source that a directory is.
-/

namespace AutoAwait

/-- Why a file cannot be read: the number of the problem and the words for it. -/
structure FileProblem where
  number : Nat
  reason : String
deriving DecidableEq

namespace FileProblem

/-- Nothing is at the path. -/
def notFound : FileProblem := ⟨2, "No such file or directory"⟩

/-- The path goes through a file. -/
def notADirectory : FileProblem := ⟨20, "Not a directory"⟩

/-- A directory is at the path. -/
def isADirectory : FileProblem := ⟨21, "Is a directory"⟩

/-- The file may not be read. -/
def denied : FileProblem := ⟨13, "Permission denied"⟩

/-- The text of a problem with the file at a path. -/
def message (p : FileProblem) (path : FilePath) : String :=
  "[Errno " ++ toString p.number ++ "] " ++ p.reason ++ ": " ++ quoted path.text

end FileProblem

/-- The text of the file at a path, or why it cannot be read. -/
def FileSource : Type := FilePath → Except FileProblem String

/-- Files with their paths, each given by its names. -/
structure Directory where
  files : List (List String × String)

namespace Directory

/-- The directory of files with the given paths. -/
def ofFiles (files : List (String × String)) : Directory :=
  ⟨files.map fun p => ((FilePath.ofText p.1).names, p.2)⟩

/-- Is there a directory at a path? -/
def hasDirectory (d : Directory) (path : List String) : Bool :=
  path.isEmpty || d.files.any fun f => path.isPrefixOf f.1

/-- Reads the file that the names lead to from a directory on. What is outside of the directory `d`
holds no files. -/
def readFrom (d : Directory) (dir : List String) : List String → Except FileProblem String
  | [] => .error .isADirectory
  | ".." :: names =>
    if dir.isEmpty then .error (if names.all (· = "..") then .isADirectory else .notFound)
    else d.readFrom dir.dropLast names
  | name :: names =>
    let path := dir ++ [name]
    match d.files.lookup path with
    | some text => if names.isEmpty then .ok text else .error .notADirectory
    | none => if d.hasDirectory path then d.readFrom path names else .error .notFound

/-- The file source that a directory is. -/
def read (d : Directory) : FileSource := fun path =>
  if path.root.isEmpty then d.readFrom [] path.names
  else .error (if path.names.isEmpty then .isADirectory else .notFound)

end Directory

end AutoAwait
