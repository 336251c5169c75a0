import AutoAwait.ShellType.Registry

/-!
# Symbol tables

A symbol table is a registry of types and a stack of frames. A frame binds names to types; the
innermost frame that binds a name decides what it stands for.

* `SymbolTable.declare` binds a name in the innermost frame, `SymbolTable.update` where it is bound
  already;
* `SymbolTable.lookup` is what a name is bound to, `SymbolTable.lookupType` the type that this
  stands for;
* `SymbolTable.pop` and `SymbolTable.unwind` close frames; `ScopeError` says when they cannot.
-/

namespace AutoAwait

/-- What one scope binds. -/
abbrev Frame := Bindings TypeRef

/-- Why a frame cannot be opened, closed or written to. -/
inductive ScopeError where
  | noFrameToPop
  | noFrameFor (name : String)
  | cannotUnwind (depth : Nat) (target : Int)
deriving DecidableEq

/-- The text of a scope error. -/
def ScopeError.message : ScopeError → String
  | .noFrameToPop => "pop_scope called with an empty scope stack"
  | .noFrameFor n => "cannot declare '" ++ n ++ "' without an open scope"
  | .cannotUnwind depth target =>
    "cannot unwind scope stack of depth " ++ toString depth ++ " to " ++ toString target

/-- A registry and a stack of frames, the innermost first. -/
structure SymbolTable where
  registry : Registry
  frames : List Frame

namespace SymbolTable

/-- The table with one frame. -/
def ofScope (registry : Registry) (scope : Frame) : SymbolTable := ⟨registry, [scope]⟩

/-- A table with the same registry and a copy of the bottom frame. -/
def fork (t : SymbolTable) : SymbolTable := ⟨t.registry, [t.frames.getLastD []]⟩

/-- The unknown type. -/
def unknown (t : SymbolTable) : ShellType := t.registry.unknown

/-- How many frames are open. -/
def depth (t : SymbolTable) : Nat := t.frames.length

/-- Opens a frame. -/
def push (t : SymbolTable) : SymbolTable := { t with frames := [] :: t.frames }

/-- Closes the innermost frame and returns it. -/
def pop (t : SymbolTable) : Except ScopeError (Frame × SymbolTable) :=
  match t.frames with
  | [] => .error .noFrameToPop
  | f :: fs => .ok (f, { t with frames := fs })

/-- Closes the frames above the depth `target`. -/
def unwind (t : SymbolTable) (target : Int) : Except ScopeError SymbolTable :=
  if target < 0 ∨ t.depth < target then .error (.cannotUnwind t.depth target)
  else .ok { t with frames := t.frames.drop (t.depth - target.toNat) }

/-- Binds a name in the innermost frame. -/
def declare (t : SymbolTable) (name : String) (ref : TypeRef) : Except ScopeError SymbolTable :=
  match t.frames with
  | [] => .error (.noFrameFor name)
  | f :: fs => .ok { t with frames := f.put name ref :: fs }

/-- The frames with a name bound anew in the innermost one that binds it, if one does. -/
def rebind (name : String) (ref : TypeRef) : List Frame → Option (List Frame)
  | [] => none
  | f :: fs =>
    if f.binds name then some (f.put name ref :: fs) else (rebind name ref fs).map (f :: ·)

/-- Binds a name anew in the innermost frame that binds it; a name that is not bound is declared. -/
def update (t : SymbolTable) (name : String) (ref : TypeRef) : Except ScopeError SymbolTable :=
  match rebind name ref t.frames with
  | some fs => .ok { t with frames := fs }
  | none => t.declare name ref

/-- What the innermost of some frames that binds a name binds it to. -/
def find? (name : String) (fs : List Frame) : Option TypeRef := fs.findSome? (·.get? name)

/-- What a name is bound to; a name that is not bound is of unknown type. -/
def lookup (t : SymbolTable) (name : String) : TypeRef :=
  (find? name t.frames).getD (.type t.unknown)

/-- The type that a reference stands for. -/
def resolve (t : SymbolTable) (ref : TypeRef) : ShellType := t.registry.resolve ref

/-- The type of a name. -/
def lookupType (t : SymbolTable) (name : String) : ShellType := t.resolve (t.lookup name)

/-- The frame at a place counted from the bottom. -/
def frameAt? (t : SymbolTable) (place : Nat) : Option Frame := t.frames.reverse[place]?

end SymbolTable

end AutoAwait
