import AutoAwait.TableStep
import AutoAwait.Writer

/-!
# Sessions

A session has named writers over tables that share one registry, and performs steps one after the
other. A writer keeps the tree it was last given or produced, so that it can be rewritten again.

* `SessionStep.run` performs a step of a writer;
* `TableSession.run` performs a step on one of several named tables.
-/

namespace AutoAwait

variable [CharNames]

/-- A writer of a session. -/
structure SessionWriter where
  /-- The number of its table. -/
  table : Nat
  scope : ProgramScope
  /-- The tree that can be rewritten again. -/
  tree : Option Node

/-- Writers over tables that share one registry. -/
structure Session where
  tables : Tables
  writers : Bindings SessionWriter

/-- What a writer of a session can be asked to do. -/
inductive SessionStep where
  /-- Becomes a writer over the table of the writer `of`, or over a fork of it. -/
  | create (of : String) (fork : Bool)
  | compile (source : String)
  /-- Compiles a script and keeps its tree. -/
  | transform (source : String)
  /-- Rewrites again the tree that is kept for a writer. -/
  | rerun (treeOf : String)
  /-- Rewrites a tree and keeps it. -/
  | rewrite (tree : Node)
  | bindings
  | table (s : TableStep)

/-- What a step answers. -/
inductive SessionAnswer where
  | created
  | code (text : String)
  | rewritten (tree : Node)
  | bindings (b : Bindings ShellType)
  | table (a : TableAnswer)

/-- Why a step cannot be performed. -/
inductive SessionError where
  | compile (e : CompileError)
  | scope (e : ScopeError)

/-- What a step leads to. -/
structure SessionOutcome where
  session : Session
  answer : Except SessionError SessionAnswer
  /-- What was logged, in order. -/
  log : List Event

namespace Session

/-- The session of one writer, of the given name. -/
def start (t : SymbolTable) (writer : String) : Session :=
  ⟨.single t, [(writer, ⟨0, .unopened, none⟩)]⟩

/-- A writer by its name; one that is not there yet has nothing open. -/
def writer (s : Session) (name : String) : SessionWriter :=
  (s.writers.get? name).getD ⟨0, .unopened, none⟩

/-- The table of a writer. -/
def tableOf (s : Session) (name : String) : SymbolTable := s.tables.table (s.writer name).table

/-- Keeps what has become of a writer. -/
def keep (s : Session) (name : String) (w : SessionWriter) : Session :=
  { s with writers := s.writers.put name w }

/-- Changes the table of a writer; the program frames of writers over it follow. -/
def change (s : Session) (name : String) (t : SymbolTable) : Session :=
  let i := (s.writer name).table
  let old := s.tables.table i
  { tables := s.tables.put i t
    writers := s.writers.map fun p =>
      if p.2.table = i then (p.1, { p.2 with scope := p.2.scope.follow old t }) else p }

/-- Rewrites a tree for a writer and keeps it for the writer `owner`, after an error as far as it
was rewritten. -/
def rewrite (s : Session) (name owner : String) (tree : Node) : SessionOutcome :=
  let w := s.writer name
  let r := w.scope.rewrite (s.tables.table w.table) tree
  let s := { s with tables := s.tables.put w.table r.table }.keep name { w with scope := r.scope }
  { session := s.keep owner { s.writer owner with tree := some r.tree }
    log := r.log
    answer :=
      match r.failure with
      | none => .ok (.rewritten r.tree)
      | some e => .error (.compile (.typing e)) }

end Session

namespace SessionStep

/-- Compiles a script for a writer. -/
def runCompile (s : Session) (name source : String) (keepTree : Bool) : SessionOutcome :=
  let w := s.writer name
  let r := w.scope.compile (s.tables.table w.table) source
  let w := { w with scope := r.scope }
  let s := { s with tables := s.tables.put (s.writer name).table r.table }
  match r.result with
  | .error e => ⟨s.keep name w, .error (.compile e), r.log⟩
  | .ok tree =>
    if keepTree then ⟨s.keep name { w with tree := some tree }, .ok (.rewritten tree), r.log⟩
    else ⟨s.keep name w, .ok (.code (formatScript tree)), r.log⟩

/-- Performs a step for the writer `name`. -/
def run (step : SessionStep) (s : Session) (name : String) : SessionOutcome :=
  match step with
  | .create of fork =>
    let i := (s.writer of).table
    if fork then
      let r := s.tables.fork i
      ⟨{ s with tables := r.1 }.keep name ⟨r.2, .unopened, none⟩, .ok .created, []⟩
    else ⟨s.keep name ⟨i, .unopened, none⟩, .ok .created, []⟩
  | .compile source => runCompile s name source false
  | .transform source => runCompile s name source true
  | .rerun treeOf =>
    match (s.writer treeOf).tree with
    | some tree => s.rewrite name treeOf tree
    | none => ⟨s, .ok .created, []⟩
  | .rewrite tree => s.rewrite name name tree
  | .bindings =>
    let w := s.writer name
    let t := s.tableOf name
    ⟨s, .ok (.bindings (w.scope.bindings t)), w.scope.bindingsLog t⟩
  | .table step =>
    let t := s.tableOf name
    match step.run t with
    | .ok (a, t') => ⟨s.change name t', .ok (.table a), step.log t⟩
    | .error e => ⟨s, .error (.scope e), step.log t⟩

end SessionStep

/-! ## Tables alone -/

/-- Named tables that share one registry. -/
structure TableSession where
  tables : Tables
  numbers : Bindings Nat

namespace TableSession

/-- The session of one table, of the given name. -/
def start (t : SymbolTable) (name : String) : TableSession := ⟨.single t, [(name, 0)]⟩

/-- The number of a table. -/
def number (s : TableSession) (name : String) : Nat := (s.numbers.get? name).getD 0

/-- The table of a name. -/
def table (s : TableSession) (name : String) : SymbolTable := s.tables.table (s.number name)

/-- Names a fork of a table. -/
def fork (s : TableSession) (name newName : String) : TableSession :=
  let r := s.tables.fork (s.number name)
  ⟨r.1, s.numbers.put newName r.2⟩

/-- Performs a step on a table. -/
def run (s : TableSession) (name : String) (step : TableStep) :
    Except ScopeError TableAnswer × TableSession :=
  match step.run (s.table name) with
  | .ok (a, t) => (.ok a, { s with tables := s.tables.put (s.number name) t })
  | .error e => (.error e, s)

end TableSession

end AutoAwait
