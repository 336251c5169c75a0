import AutoAwait.Json.Reader
import AutoAwait.SymbolTable
import AutoAwait.Text.LineBreak

/-!
# Catalogs

A catalog describes the shell's types and the names of its initial scope. It is a JSON object with
the sections `types` and `scope`; a type is described by an object, or by the name of an entry of
`types`. Types may refer to each other, and to themselves, in any order.

The faults of a catalog are looked for in phases: first that each entry of `types` is a description,
then the functions among them, then the attributes of the others, then `scope`, and last that every
name used is an entry. The first fault that is found is reported.

* `Catalog.readType` reads a description;
* `loadCatalog` is the symbol table that a catalog describes; `CatalogError` says why it describes
  none;
* `loadCatalogText` is the symbol table that the text of a file describes.
-/

namespace AutoAwait

/-- Why a catalog describes no symbol table; `path` says where in it the fault is. -/
inductive CatalogError where
  | notAnObject
  | sectionNotAnObject (name : String)
  | notADescription (path : String)
  | noType (path : String)
  | flagNotABoolean (path flag : String)
  | attributesNotAnObject (path : String)
  | unknownType (path name : String)
  | unreadable (file reason : String)
  | notJson (file : String) (line : Nat) (problem : JsonProblem)
  /-- An integer is too long to be read. -/
  | badInteger (problem : Numeral.IntegerProblem)
deriving DecidableEq

/-- The text of a catalog error. -/
def CatalogError.message : CatalogError → String
  | .notAnObject => "catalog must be an object with 'types' and 'scope' sections"
  | .sectionNotAnObject n => "catalog '" ++ n ++ "' must be an object"
  | .notADescription p => p ++ ": type description must be an object or a type name"
  | .noType p => p ++ ": missing 'type'"
  | .flagNotABoolean p flag => p ++ ": '" ++ flag ++ "' must be a boolean"
  | .attributesNotAnObject p => p ++ ": 'attributes' must be an object"
  | .unknownType p n => p ++ ": unknown type '" ++ n ++ "'"
  | .unreadable file reason => "cannot read catalog " ++ file ++ ": " ++ reason
  | .notJson file line problem =>
    file ++ ": invalid JSON at line " ++ toString line ++ ": " ++ problem.message
  | .badInteger p => p.message

namespace Catalog

/-- The use of a type name, at a place of the catalog. -/
structure Use where
  path : String
  name : String

/-- The type name of a description. -/
def typeName (path : String) (fields : List (String × Json)) : Except CatalogError String :=
  match fields.lookup "type" with
  | some (.string s) => .ok s
  | _ => .error (.noType path)

/-- A flag of a description, false if it is missing. -/
def flag (path name : String) (fields : List (String × Json)) : Except CatalogError Bool :=
  match fields.lookup name with
  | none => .ok false
  | some (.bool b) => .ok b
  | some _ => .error (.flagNotABoolean path name)

mutual

/-- Reads a description, and the names that it uses. -/
def readType (path : String) : Json → Except CatalogError (ShellType × List Use)
  | .object fields => do
    let name ← typeName path fields
    if name = ShellType.functionName then
      let promise ← flag path "returnsPromise" fields
      let (returns, uses) ← readReturns path fields
      return (.function none returns promise, uses)
    else
      let asyncChild ← flag path "hasAsyncChild" fields
      let (attrs, uses) ← findAttributes path fields
      return (.object none name asyncChild (some attrs), uses)
  | _ => .error (.notADescription path)

/-- Finds what a function returns; without a field for it that is the unknown type. A name stays a
name. -/
def readReturns (path : String) :
    List (String × Json) → Except CatalogError (TypeRef × List Use)
  | [] => .ok (.named ShellType.unknownName, [⟨path ++ ".returnType", ShellType.unknownName⟩])
  | (field, j) :: fields =>
    if field = "returnType" then
      match j with
      | .string name => .ok (.named name, [⟨path ++ ".returnType", name⟩])
      | j => do
        let (t, uses) ← readType (path ++ ".returnType") j
        return (.type t, uses)
    else readReturns path fields

/-- Finds the attributes of an object type. -/
def findAttributes (path : String) :
    List (String × Json) → Except CatalogError (List (String × TypeRef) × List Use)
  | [] => .ok ([], [])
  | (field, j) :: fields =>
    if field = "attributes" then
      match j with
      | .object attrs => readAttributes path attrs
      | _ => .error (.attributesNotAnObject path)
    else findAttributes path fields

/-- Reads attributes; a name refers to the entry of that name. -/
def readAttributes (path : String) :
    List (String × Json) → Except CatalogError (List (String × TypeRef) × List Use)
  | [] => .ok ([], [])
  | (attr, .string name) :: attrs => do
    let (rest, uses) ← readAttributes path attrs
    return ((attr, .entry ⟨name, 0⟩) :: rest, ⟨path ++ "." ++ attr, name⟩ :: uses)
  | (attr, j) :: attrs => do
    let (t, uses) ← readType (path ++ "." ++ attr) j
    let (rest, uses') ← readAttributes path attrs
    return ((attr, .type t) :: rest, uses ++ uses')

end

/-- Checks that an entry of `types` is a description, with a sound flag if it is no function's. Does
it describe a function? -/
def checkEntry (path : String) : Json → Except CatalogError Bool
  | .object fields => do
    let name ← typeName path fields
    if name = ShellType.functionName then return true
    else
      let _ ← flag path "hasAsyncChild" fields
      return false
  | _ => .error (.notADescription path)

/-- A section of a catalog; one that is missing is empty. -/
def readSection (name : String) (fields : List (String × Json)) :
    Except CatalogError (List (String × Json)) :=
  match fields.lookup name with
  | none => .ok []
  | some (.object fields) => .ok fields
  | some _ => .error (.sectionNotAnObject name)

/-- Reads entries of `types`. -/
def readEntries : List (String × Json) → Except CatalogError (Bindings ShellType × List Use)
  | [] => .ok ([], [])
  | (name, j) :: entries => do
    let (t, uses) ← readType ("types." ++ name) j
    let (rest, uses') ← readEntries entries
    return ((name, t) :: rest, uses ++ uses')

/-- Checks that a used name is registered. -/
def checkUse (registry : Registry) (u : Use) : Except CatalogError Unit :=
  if registry.revisions.binds u.name then .ok () else .error (.unknownType u.path u.name)

/-- Reads the entries of `scope`; a name stays a name, and must be registered. -/
def readScope (registry : Registry) :
    List (String × Json) → Except CatalogError (Frame × List Use)
  | [] => .ok ([], [])
  | (name, .string s) :: entries => do
    checkUse registry ⟨"scope." ++ name, s⟩
    let (rest, uses) ← readScope registry entries
    return ((name, .named s) :: rest, uses)
  | (name, j) :: entries => do
    let (t, uses) ← readType ("scope." ++ name) j
    let (rest, uses') ← readScope registry entries
    return ((name, .type t) :: rest, uses ++ uses')

end Catalog

open Catalog in
/-- The symbol table that a catalog describes. -/
def loadCatalog : Json → Except CatalogError SymbolTable
  | .object fields => do
    let types ← readSection "types" fields
    let scope ← readSection "scope" fields
    let isFunction ← types.mapM fun p => checkEntry ("types." ++ p.1) p.2
    let functions := (types.zip isFunction).filterMap fun p => if p.2 then some p.1 else none
    let objects := (types.zip isFunction).filterMap fun p => if p.2 then none else some p.1
    let (functionTypes, functionUses) ← readEntries functions
    let (objectTypes, objectUses) ← readEntries objects
    let registry := Registry.ofTypes (objectTypes ++ functionTypes)
    let (frame, scopeUses) ← readScope registry scope
    for u in functionUses ++ objectUses ++ scopeUses do
      checkUse registry u
    return .ofScope registry frame
  | _ => .error .notAnObject

/-- The symbol table that the text of a file describes. -/
def loadCatalogText (file text : String) : Except CatalogError SymbolTable :=
  match Json.read (withPlainBreaks text) with
  | .ok j => loadCatalog j
  | .error (.notJson line problem) => .error (.notJson file line problem)
  | .error (.badInteger problem) => .error (.badInteger problem)

end AutoAwait
