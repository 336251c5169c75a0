import AutoAwait.Bindings
import AutoAwait.ShellType.Basic

/-!
# The registry of types

A registry holds the named shell types. A name can be entered again: its new type is then what the
name stands for, and references to the earlier entry keep it. The name `unknown` always has a type.

* `Registry.find?` is the type that a name stands for now, `Registry.at?` that of one entry;
* `Registry.resolve` is the type that a reference stands for; what stands for nothing is unknown;
* `Registry.describe` writes out a reference as far as its registry entries.
-/

namespace AutoAwait

/-- The registry: for each name the types entered under it, the latest last. -/
structure Registry where
  revisions : Bindings (List ShellType)

namespace Registry

/-- The type that a name stands for. -/
def find? (r : Registry) (name : String) : Option ShellType :=
  (r.revisions.get? name).bind (·.getLast?)

/-- The type of an entry. -/
def at? (r : Registry) (e : Entry) : Option ShellType :=
  (r.revisions.get? e.name).bind (·[e.revision]?)

/-- Is this what the entry's name stands for now? -/
def isCurrent (r : Registry) (e : Entry) : Bool :=
  (r.revisions.get? e.name).any (·.length == e.revision + 1)

/-- Enters a type under a name. -/
def enter (r : Registry) (name : String) (t : ShellType) : Registry :=
  let old := (r.revisions.get? name).getD []
  ⟨r.revisions.put name (old ++ [t.enteredAs ⟨name, old.length⟩])⟩

/-- The registered names. -/
def names (r : Registry) : List String := r.revisions.names

/-- The registry of the given types; the name `unknown` is the unknown type unless it is one of
them. -/
def ofTypes (types : Bindings ShellType) : Registry :=
  let r := types.foldl (fun r p => r.enter p.1 p.2) ⟨[]⟩
  if r.revisions.binds ShellType.unknownName then r else r.enter ShellType.unknownName .unknown

/-- The type that the name `unknown` stands for. -/
def unknown (r : Registry) : ShellType := (r.find? ShellType.unknownName).getD .unknown

/-- The type that a reference stands for. -/
def resolve (r : Registry) : TypeRef → ShellType
  | .absent => r.unknown
  | .named n => (r.find? n).getD r.unknown
  | .entry e => (r.at? e).getD r.unknown
  | .type t => t

/-- The name that a reference holds, if it is not registered. -/
def missing? (r : Registry) : TypeRef → Option String
  | .named n => if (r.find? n).isNone then some n else none
  | _ => none

end Registry

/-! ## Written-out types -/

/-- A type written out as far as the registry entries it refers to. -/
inductive TypeDescription where
  | absent
  | named (name : String)
  /-- The type that a name stands for now. -/
  | entry (name : String)
  | unknown
  | function (returns : TypeDescription) (promise : Bool)
  | object (name : String) (asyncChild : Bool)
      (attributes : Option (List (String × TypeDescription)))

section
variable (ref : Entry → TypeDescription) (isCurrent : Entry → Bool)

mutual

/-- Writes out what a type is made of. -/
def ShellType.writeOut : ShellType → TypeDescription
  | .unknown => .unknown
  | .function _ r p => .function r.write p
  | .object _ n a none => .object n a none
  | .object _ n a (some attrs) => .object n a (some (writeAttributes attrs))

/-- Writes out a reference; a type that is a current entry is written as that entry, and `ref`
writes a reference to an entry. -/
def TypeRef.write : TypeRef → TypeDescription
  | .absent => .absent
  | .named n => .named n
  | .entry e => ref e
  | .type t =>
    match t.entry? with
    | some e => if isCurrent e then .entry e.name else t.writeOut
    | none => t.writeOut

/-- Writes out attributes. -/
def writeAttributes : List (String × TypeRef) → List (String × TypeDescription)
  | [] => []
  | (n, r) :: attrs => (n, r.write) :: writeAttributes attrs

end

end

namespace Registry

/-- Writes out an entry, where at most `fuel` entries that are not current are written out inside
each other. -/
def writeEntry (r : Registry) : Nat → Entry → TypeDescription
  | 0, e => .entry e.name
  | fuel + 1, e =>
    match r.at? e with
    | none | some .unknown => .unknown
    | some t => if r.isCurrent e then .entry e.name else t.writeOut (r.writeEntry fuel) r.isCurrent

/-- How many types have ever been entered. -/
def size (r : Registry) : Nat := (r.revisions.flatMap (·.2)).length

/-- A reference written out as far as its registry entries. -/
def describe (r : Registry) (ref : TypeRef) : TypeDescription :=
  ref.write (r.writeEntry (r.size + 1)) r.isCurrent

/-- The registered types, written out. -/
def describeAll (r : Registry) : List (String × TypeDescription) :=
  r.names.map fun n =>
    (n, (r.resolve (.named n)).writeOut (r.writeEntry (r.size + 1)) r.isCurrent)

end Registry

end AutoAwait
