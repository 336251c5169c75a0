import AutoAwait.CommandLine.Command

/-!
# The program

Runs the command on the process's arguments, files and standard input.
-/

namespace AutoAwait

/-- Why the system could not read a file. -/
def problemOf : IO.Error → FileProblem
  | .noFileOrDirectory _ _ _ => .notFound
  | .inappropriateType _ _ reason =>
    if reason.toLower = FileProblem.notADirectory.reason.toLower then .notADirectory
    else .isADirectory
  | .permissionDenied _ _ _ => .denied
  | e => ⟨0, toString e⟩

/-- Reads a file. -/
def readFile (path : FilePath) : IO (Except FileProblem String) := do
  match ← (IO.FS.readFile path.text).toBaseIO with
  | .ok text => return .ok text
  | .error e => return .error (problemOf e)

/-- Reads the files that the options name, and the standard input if they ask for it. -/
def readInputs (o : Options) : IO (List (FilePath × Except FileProblem String) × String) := do
  let paths := (o.catalog :: o.scripts.filter (· ≠ "-")).map FilePath.ofText
  let files ← paths.mapM fun p => return (p, ← readFile p)
  let usesInput := o.scripts.isEmpty || o.scripts.contains "-"
  let stdin ← if usesInput then (← IO.getStdin).readToEnd else pure ""
  return (files, stdin)

end AutoAwait

open AutoAwait in
/-- Runs the command. -/
def main (arguments : List String) : IO UInt32 := do
  let (files, stdin) ←
    match parseArguments arguments with
    | .ok (.rewrite o) => readInputs o
    | _ => pure ([], "")
  let r := runCommand arguments (fun p => (files.lookup p).getD (.error .notFound)) stdin
  IO.print r.stdout
  IO.eprint r.stderr
  return r.exit.toUInt32
