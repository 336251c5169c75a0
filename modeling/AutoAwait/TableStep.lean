import AutoAwait.Event
import AutoAwait.SymbolTable
import AutoAwait.Text.Quoted

/-!
# Steps on a symbol table

The operations on a symbol table as data, with what each answers, and the tables that share one
registry.

* `TableStep.run` performs a step;
* `Tables` are numbered stacks of frames over one registry; `Tables.fork` adds a fork of one of
  them.
-/

namespace AutoAwait

/-- A table written out: its types, and its frames from the bottom up. -/
structure TableDescription where
  types : List (String × TypeDescription)
  frames : List (List (String × TypeDescription))

namespace SymbolTable

/-- A frame written out. -/
def describeFrame (t : SymbolTable) (f : Frame) : List (String × TypeDescription) :=
  f.map fun p => (p.1, t.registry.describe p.2)

/-- A table written out. -/
def describe (t : SymbolTable) : TableDescription :=
  ⟨t.registry.describeAll, t.frames.reverse.map t.describeFrame⟩

/-- The names of the registered types, in ascending order. -/
def typeNames (t : SymbolTable) : List String :=
  t.registry.names.mergeSort fun a b => decide (a ≤ b)

/-- The names that each frame binds in ascending order, from the bottom frame up. -/
def frameNames (t : SymbolTable) : List (List String) :=
  t.frames.reverse.map fun f => (Bindings.names f).mergeSort fun a b => decide (a ≤ b)

/-- A summary of a table: its depth and the names of its types. -/
def summary (t : SymbolTable) : String :=
  "SymbolTable(depth=" ++ toString t.depth ++ ", types=["
    ++ ", ".intercalate (t.typeNames.map quoted) ++ "])"

end SymbolTable

/-- An operation on a table. -/
inductive TableStep where
  | push
  | pop
  | declare (name : String) (ref : TypeRef)
  | update (name : String) (ref : TypeRef)
  | lookup (name : String)
  | lookupType (name : String)
  | resolve (ref : TypeRef)
  | unwind (depth : Int)
  | register (name : String) (type : ShellType)
  | unknown
  | summary
  | describe

/-- What an operation answers. -/
inductive TableAnswer where
  | done
  | frame (f : List (String × TypeDescription))
  | type (t : TypeDescription)
  | text (s : String)
  | table (t : TableDescription)

namespace TableStep

/-- Answers with a type; what it is resolved from may be missing from the registry. -/
def answerType (t : SymbolTable) (ref : TypeRef) : TableAnswer :=
  .type (t.registry.describe (.type (t.resolve ref)))

/-- Performs a step on a table. -/
def run (s : TableStep) (t : SymbolTable) : Except ScopeError (TableAnswer × SymbolTable) :=
  match s with
  | .push => .ok (.done, t.push)
  | .pop => t.pop.map fun r => (.frame (t.describeFrame r.1), r.2)
  | .declare n r => (t.declare n r).map fun t => (.done, t)
  | .update n r => (t.update n r).map fun t => (.done, t)
  | .lookup n => .ok (.type (t.registry.describe (t.lookup n)), t)
  | .lookupType n => .ok (answerType t (t.lookup n), t)
  | .resolve r => .ok (answerType t r, t)
  | .unwind d => (t.unwind d).map fun t => (.done, t)
  | .register n ty => .ok (.done, { t with registry := t.registry.enter n ty })
  | .unknown => .ok (answerType t .absent, t)
  | .summary => .ok (.text t.summary, t)
  | .describe => .ok (.table t.describe, t)

/-- What a step logs. -/
def log (s : TableStep) (t : SymbolTable) : List Event :=
  let missing (r : TypeRef) := ((t.registry.missing? r).map Event.missingType).toList
  match s with
  | .lookupType n => missing (t.lookup n)
  | .resolve r => missing r
  | .unwind d =>
    if 0 ≤ d ∧ d < t.depth then [.unwinding t.depth d.toNat] else []
  | _ => []

end TableStep

/-- Numbered stacks of frames over one registry. -/
structure Tables where
  registry : Registry
  frameStacks : List (List Frame)

namespace Tables

/-- One table. -/
def single (t : SymbolTable) : Tables := ⟨t.registry, [t.frames]⟩

/-- The table of a number. -/
def table (ts : Tables) (i : Nat) : SymbolTable := ⟨ts.registry, ts.frameStacks.getD i []⟩

/-- Puts a table in the place of one; its registry is that of all. -/
def put (ts : Tables) (i : Nat) (t : SymbolTable) : Tables :=
  ⟨t.registry, ts.frameStacks.set i t.frames⟩

/-- Adds a fork of a table and returns its number. -/
def fork (ts : Tables) (i : Nat) : Tables × Nat :=
  ({ ts with frameStacks := ts.frameStacks ++ [(ts.table i).fork.frames] }, ts.frameStacks.length)

end Tables

end AutoAwait
