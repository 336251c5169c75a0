import AutoAwait.Node.Printer
import AutoAwait.Script
import AutoAwait.Typing

/-!
# Rewriting scripts

A writer rewrites scripts over a symbol table so that every call that returns a promise is awaited.
With its first script it opens a frame of its own, the *program frame*, which stays open: what one
script declares the next one sees. Several writers can share a table.

* `ProgramScope.rewrite` rewrites a tree, `ProgramScope.compile` a script;
* `ProgramScope.bindings` are the types of the names that the program frame binds.
-/

namespace AutoAwait

variable [CharNames]

/-- Where the program frame of a writer is. -/
inductive ProgramScope where
  | unopened
  /-- It is open; its place in the table's stack is counted from the bottom. -/
  | open (place : Nat)
  /-- It has been closed with what it bound. -/
  | closed (frame : Frame)

/-- Why a script cannot be rewritten. -/
inductive CompileError where
  | parse (e : ParseError)
  | typing (e : TypingError)

/-- The text of an error, after its place if it has one. -/
def CompileError.text : CompileError → String
  | .parse e => e.text
  | .typing e => e.text

/-- What rewriting a tree leads to. -/
structure Rewriting where
  /-- The tree, as far as it was rewritten. -/
  tree : Node
  scope : ProgramScope
  table : SymbolTable
  /-- What was logged, in order. -/
  log : List Event
  failure : Option TypingError

/-- What compiling a script leads to. -/
structure Compilation where
  scope : ProgramScope
  table : SymbolTable
  /-- What was logged, in order. -/
  log : List Event
  /-- The rewritten tree. -/
  result : Except CompileError Node

namespace ProgramScope

/-- Opens the program frame unless that has been done. -/
def enter (s : ProgramScope) (t : SymbolTable) : ProgramScope × SymbolTable :=
  match s with
  | .unopened => (.open t.depth, t.push)
  | s => (s, t)

/-- Rewrites a tree. After an error the frames that the pass had opened are closed. -/
def rewrite (s : ProgramScope) (t : SymbolTable) (tree : Node) : Rewriting :=
  let (s, t) := s.enter t
  let (tree, p) := Typing.run tree t
  match p.failure with
  | none => ⟨tree, s, p.table, p.log.reverse, none⟩
  | some e =>
    match p.table.unwind t.depth with
    | .ok table =>
      let log :=
        if t.depth < p.table.depth then .unwinding p.table.depth t.depth :: p.log else p.log
      ⟨tree, s, table, log.reverse, some e⟩
    | .error e => ⟨tree, s, p.table, p.log.reverse, some (.scope e)⟩

/-- Compiles a script. One that cannot be read changes nothing. -/
def compile (s : ProgramScope) (t : SymbolTable) (source : String) : Compilation :=
  let started := Event.compiling source.length
  match parseScript source with
  | .error e => ⟨s, t, [started], .error (.parse e)⟩
  | .ok tree =>
    let r := s.rewrite t tree
    { scope := r.scope, table := r.table, log := started :: r.log
      result :=
        match r.failure with
        | none => .ok r.tree
        | some e => .error (.typing e) }

/-- What the program frame binds. -/
def frame (s : ProgramScope) (t : SymbolTable) : Frame :=
  match s with
  | .unopened => []
  | .open place => (t.frameAt? place).getD []
  | .closed f => f

/-- The types of the names that the program frame binds. -/
def bindings (s : ProgramScope) (t : SymbolTable) : Bindings ShellType :=
  (s.frame t).map fun p => (p.1, t.resolve p.2)

/-- What asking for the bindings logs. -/
def bindingsLog (s : ProgramScope) (t : SymbolTable) : List Event :=
  (s.frame t).filterMap fun p => (t.registry.missing? p.2).map .missingType

/-- The program frame after the table has changed: one whose place is gone has been closed. -/
def follow (s : ProgramScope) (before after : SymbolTable) : ProgramScope :=
  match s with
  | .open place =>
    if after.depth ≤ place then .closed ((before.frameAt? place).getD []) else .open place
  | s => s

end ProgramScope

end AutoAwait
