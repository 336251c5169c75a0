import AutoAwait.Catalog
import AutoAwait.CommandLine.Arguments
import AutoAwait.CommandLine.Directory
import AutoAwait.Writer

/-!
# The command

The command loads a catalog and rewrites scripts one after the other, with one writer; a later
script sees what an earlier one declares. It stops at the first script that cannot be read or
rewritten; what it has printed until then stays.

* `runCommand` gives what the command prints and its exit code, from its arguments, the files and
  the standard input.
-/

namespace AutoAwait

variable [CharNames]

/-- Why the command stops. -/
inductive CommandError where
  | catalog (e : CatalogError)
  | file (path : FilePath) (problem : FileProblem)
  | compile (e : CompileError)

namespace CommandError

/-- The text of an error. -/
def message : CommandError → String
  | .catalog e => e.message
  | .file path problem => problem.message path
  | .compile e => e.text

end CommandError

/-- What the command does. -/
structure CommandOutcome where
  exit : Nat
  stdout : String
  stderr : String
  /-- Why it stopped, if it did after its arguments had been read. -/
  failure : Option CommandError

/-- The command while it rewrites scripts. -/
structure CommandRun where
  scope : ProgramScope
  table : SymbolTable
  /-- What is left of the standard input. -/
  stdin : String
  /-- What was printed. -/
  stdout : String
  /-- What was logged, in order. -/
  log : List Event

namespace CommandRun

/-- The text of a script, with what is left of the standard input. -/
def source (r : CommandRun) (files : FileSource) (name : String) :
    Except CommandError (String × String) :=
  if name = "-" then .ok (r.stdin, "")
  else
    match files (.ofText name) with
    | .ok text => .ok (text, r.stdin)
    | .error p => .error (.file (.ofText name) p)

/-- Rewrites scripts one after the other. -/
def rewriteAll (files : FileSource) : List String → CommandRun → CommandRun × Option CommandError
  | [], r => (r, none)
  | name :: names, r =>
    let r := { r with log := r.log ++ [Event.rewriting (if name = "-" then "<stdin>" else name)] }
    match r.source files name with
    | .error e => (r, some e)
    | .ok (text, stdin) =>
      let c := r.scope.compile r.table (withPlainBreaks text)
      let r :=
        { r with scope := c.scope, table := c.table, stdin := stdin, log := r.log ++ c.log }
      match c.result with
      | .error e => (r, some (.compile e))
      | .ok tree =>
        let code := formatScript tree
        let line := if code.isEmpty then "" else code ++ "\n"
        rewriteAll files names { r with stdout := r.stdout ++ line }

/-- The lines that show the types of the names bound by the scripts, sorted by name. -/
def typeLines (r : CommandRun) : String :=
  let names := (r.scope.bindings r.table).mergeSort fun p q => p.1 ≤ q.1
  String.join (names.map fun p => p.1 ++ ": " ++ p.2.text ++ "\n")

end CommandRun

/-- Reads the catalog that a path leads to. -/
def readCatalog (files : FileSource) (path : FilePath) : Except CatalogError SymbolTable :=
  match files path with
  | .ok text => loadCatalogText path.text text
  | .error p => .error (.unreadable path.text p.reason)

/-- The lines that a log leaves on standard error. -/
def logText (debug : Bool) (log : List Event) : String :=
  if debug then String.join (log.map fun e => "DEBUG " ++ e.line ++ "\n") else ""

/-- What is left on standard error after a failure. -/
def errorText (e : CommandError) : String := "error: " ++ e.message ++ "\n"

/-- What is logged when a catalog has been loaded. -/
def loadedEvent (t : SymbolTable) : Event :=
  .loadedCatalog t.registry.names.length (t.frames.headD []).length

/-- Rewrites scripts as the options say. -/
def runRewrite (o : Options) (files : FileSource) (stdin : String) : CommandOutcome :=
  match readCatalog files (.ofText o.catalog) with
  | .error e => ⟨1, "", errorText (.catalog e), some (.catalog e)⟩
  | .ok t =>
    let start : CommandRun := ⟨.unopened, t, stdin, "", [loadedEvent t]⟩
    let (r, failure) := start.rewriteAll files (if o.scripts.isEmpty then ["-"] else o.scripts)
    match failure with
    | some e => ⟨1, r.stdout, logText o.debug r.log ++ errorText e, some e⟩
    | none =>
      if o.types then
        ⟨0, r.stdout ++ r.typeLines,
          logText o.debug (r.log ++ r.scope.bindingsLog r.table), none⟩
      else ⟨0, r.stdout, logText o.debug r.log, none⟩

/-- Runs the command. -/
def runCommand (arguments : List String) (files : FileSource) (stdin : String) : CommandOutcome :=
  match parseArguments arguments with
  | .error e => ⟨2, "", usageLine ++ "shellasync: error: " ++ e.message ++ "\n", none⟩
  | .ok .help => ⟨0, helpText, "", none⟩
  | .ok (.rewrite o) => runRewrite o files stdin

end AutoAwait
