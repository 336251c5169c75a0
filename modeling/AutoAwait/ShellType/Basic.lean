/-!
# Shell types

The types that the shell's objects and functions have. A type is unknown, a function or a named
object; an object can have attributes, and its flag says whether something asynchronous can be
reached through it. Where a type is expected there can also be the name of a registry entry, to be
looked up when it is needed, or a reference to one entry, fixed when the registry was loaded.

* `ShellType.name`, `hasAsyncChild`, `returnsPromise`, `isDatabase` are what the typing pass asks of
  a type; `ShellType.text` is its text in messages;
* `ShellType.same` compares types by name: attributes do not count.
-/

namespace AutoAwait

/-- An entry of a registry: its name, and how many types had been entered under that name before. -/
structure Entry where
  name : String
  revision : Nat
deriving DecidableEq

mutual

/-- A shell type. A type that is an entry of the registry knows which one. -/
inductive ShellType where
  | unknown
  | function (entry : Option Entry) (returns : TypeRef) (promise : Bool)
  | object (entry : Option Entry) (name : String) (asyncChild : Bool)
      (attributes : Option (List (String × TypeRef)))

/-- What can stand where a type is expected. -/
inductive TypeRef where
  /-- Nothing at all; it counts as the unknown type. -/
  | absent
  /-- The name of a registry entry, looked up when it is needed. -/
  | named (name : String)
  /-- One entry of the registry. -/
  | entry (e : Entry)
  /-- A type written out in place. -/
  | type (t : ShellType)

end

instance : Inhabited ShellType := ⟨.unknown⟩

instance : Inhabited TypeRef := ⟨.absent⟩

namespace ShellType

/-- The name of the unknown type. -/
def unknownName : String := "unknown"

/-- The name of every function type. -/
def functionName : String := "function"

/-- The object type whose missing attributes are collections. -/
def databaseName : String := "Database"

/-- The type of a database's collections. -/
def collectionName : String := "Collection"

/-- The registry entry that a type is, if it is one. -/
def entry? : ShellType → Option Entry
  | .unknown => none
  | .function e .. => e
  | .object e .. => e

/-- The same type as an entry of the registry. The unknown type is one and the same everywhere. -/
def enteredAs (e : Entry) : ShellType → ShellType
  | .unknown => .unknown
  | .function _ r p => .function (some e) r p
  | .object _ n a attrs => .object (some e) n a attrs

/-- The name of a type. -/
def name : ShellType → String
  | .unknown => unknownName
  | .function .. => functionName
  | .object _ n _ _ => n

/-- Can something asynchronous be reached through an object of this type? -/
def hasAsyncChild : ShellType → Bool
  | .object _ _ a _ => a
  | _ => false

/-- Is this a function type? -/
def isFunction : ShellType → Bool
  | .function .. => true
  | _ => false

/-- Is this the type of a function whose calls have to be awaited? -/
def returnsPromise : ShellType → Bool
  | .function _ _ p => p
  | _ => false

/-- Is this the database type? -/
def isDatabase : ShellType → Bool
  | .object _ n _ _ => n == databaseName
  | _ => false

/-- The attributes of an object type that has a list of them. -/
def attributes? : ShellType → Option (List (String × TypeRef))
  | .object _ _ _ attrs => attrs
  | _ => none

/-- The reference stored for an attribute. -/
def attribute? (t : ShellType) (attr : String) : Option TypeRef :=
  t.attributes?.bind (·.lookup attr)

end ShellType

mutual

/-- The text of a type: its name, and for a function what it returns. -/
def ShellType.text : ShellType → String
  | .unknown => ShellType.unknownName
  | .function _ r p => (if p then "async function<" else "function<") ++ r.text ++ ">"
  | .object _ n _ _ => n

/-- The text of what stands for a type. -/
def TypeRef.text : TypeRef → String
  | .absent => "None"
  | .named n => n
  | .entry e => e.name
  | .type t => t.text

end

mutual

/-- Are two types the same? Objects are if their names and flags agree, functions if they return the
same and agree on promises. -/
def ShellType.same : ShellType → ShellType → Bool
  | .unknown, .unknown => true
  | .function _ r p, .function _ r' p' => r.same r' && p == p'
  | .object _ n a _, .object _ n' a' _ => n == n' && a == a'
  | _, _ => false

/-- Do two references stand for the same? A name is the same as an equal name only. -/
def TypeRef.same : TypeRef → TypeRef → Bool
  | .absent, .absent => true
  | .named n, .named n' => n == n'
  | .entry e, .entry e' => e == e'
  | .type t, .type t' => t.same t'
  | _, _ => false

end

end AutoAwait
