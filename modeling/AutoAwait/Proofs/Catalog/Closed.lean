import AutoAwait.Catalog
import AutoAwait.Proofs.Results

/-!
# Closed catalogs

A catalog that is accepted leaves no loose ends: every name that stands in its symbol table for a
type is the name of a registered type, and every attribute is a type itself and not the name of one.

* `TypeRef.Closed` says this of a reference, down to the attributes and the results of the types
  written out in it; `SymbolTable.Closed` of all that a table holds;
* `SymbolTable.Holds` are the references that can be reached from a table, also through the entries
  of its registry; in a closed table they are closed, and `TypeRef.Stands` says what that comes to;
* `loadCatalog_closed` is the main statement.
-/

namespace AutoAwait

/-- Is this a type, and not a name by which one is looked up? -/
def TypeRef.isConcrete : TypeRef → Bool
  | .type _ | .entry _ => true
  | .absent | .named _ => false

/-- A reference that can be followed to its end: names and entries are those of the registry `r`,
and attributes are types. -/
inductive TypeRef.Closed (r : Registry) : TypeRef → Prop
  | named {name} (found : (r.find? name).isSome) : Closed r (.named name)
  | entry {e} (found : (r.at? e).isSome) : Closed r (.entry e)
  | unknown : Closed r (.type .unknown)
  | function {e returns promise} (h : Closed r returns) :
      Closed r (.type (.function e returns promise))
  | object {e name asyncChild attrs} (concrete : ∀ p ∈ Option.getD attrs [], p.2.isConcrete)
      (closed : ∀ p ∈ Option.getD attrs [], Closed r p.2) :
      Closed r (.type (.object e name asyncChild attrs))

/-- A registry whose types are closed. -/
def Registry.Closed (r : Registry) : Prop := ∀ e t, r.at? e = some t → (TypeRef.type t).Closed r

/-- A table whose types are closed. -/
structure SymbolTable.Closed (t : SymbolTable) : Prop where
  registry : t.registry.Closed
  frames : ∀ f ∈ t.frames, ∀ p ∈ f, p.2.Closed t.registry

/-! ## Registries -/

namespace Registry

variable {r : Registry} {name : String} {e : Entry} {t u : ShellType}

/-- Only the entry that is made by entering a type is new. -/
theorem at?_enter (r : Registry) (name : String) (t : ShellType) (e : Entry) :
    (r.enter name t).at? e =
      if e = ⟨name, ((r.revisions.get? name).getD []).length⟩ then some (t.enteredAs e)
      else r.at? e := by
  obtain ⟨n, i⟩ := e
  simp only [at?, enter, Bindings.get?_put, Entry.mk.injEq]
  by_cases hn : name = n
  · subst hn
    simp only [if_true, true_and, Option.bind_some, List.getElem?_append, List.getElem?_singleton]
    cases r.revisions.get? name with
    | none => by_cases hi : i = 0 <;> simp [hi]
    | some old =>
      by_cases hi : i = old.length
      · simp [hi]
      · by_cases hl : i < old.length
        · simp [hl, hi]
        · simp [hl, hi, show i - old.length ≠ 0 by omega]
  · simp [hn, Ne.symm hn]

/-- Each registered name has an entry. -/
def Filled (r : Registry) : Prop := ∀ name ts, r.revisions.get? name = some ts → ts ≠ []

theorem Filled.enter (h : r.Filled) (name : String) (t : ShellType) : (r.enter name t).Filled := by
  intro n ts hn
  simp only [Registry.enter, Bindings.get?_put] at hn
  split at hn
  · cases hn
    simp
  · exact h n ts hn

theorem Filled.find? (h : r.Filled) (hb : r.revisions.binds name) : (r.find? name).isSome := by
  obtain ⟨ts, hts⟩ := Option.isSome_iff_exists.1 hb
  simpa [Registry.find?, hts] using h name ts hts

theorem Filled.at? (h : r.Filled) (hb : r.revisions.binds name) : (r.at? ⟨name, 0⟩).isSome := by
  obtain ⟨ts, hts⟩ := Option.isSome_iff_exists.1 hb
  have := List.length_pos_iff.2 (h name ts hts)
  simpa [Registry.at?, hts] using this

/-- What a name stands for is an entry. -/
theorem at?_of_find? (h : r.find? name = some t) : ∃ e, r.at? e = some t := by
  obtain ⟨ts, hts, hl⟩ := Option.bind_eq_some_iff.1 h
  refine ⟨⟨name, ts.length - 1⟩, ?_⟩
  rw [Registry.at?, hts, Option.bind_some, ← hl, List.getLast?_eq_getElem?]

theorem enter_all (types : Bindings ShellType) (hr : r.Filled) :
    (types.foldl (fun r p => r.enter p.1 p.2) r).Filled ∧
      ∀ e t, (types.foldl (fun r p => r.enter p.1 p.2) r).at? e = some t →
        r.at? e = some t ∨ ∃ p ∈ types, t = p.2.enteredAs e := by
  induction types generalizing r with
  | nil => exact ⟨hr, fun e t h => .inl h⟩
  | cons q types ih =>
    obtain ⟨hf, ha⟩ := ih (hr.enter q.1 q.2)
    refine ⟨hf, fun e t h => ?_⟩
    rcases ha e t h with h | ⟨p, hp, rfl⟩
    · rw [at?_enter] at h
      split at h
      · cases h
        exact .inr ⟨q, by simp, rfl⟩
      · exact .inl h
    · exact .inr ⟨p, List.mem_cons_of_mem _ hp, rfl⟩

/-- The entries of a registry are the types that it was made of, and the unknown type. -/
theorem at?_ofTypes (types : Bindings ShellType) :
    (ofTypes types).Filled ∧ ∀ e t, (ofTypes types).at? e = some t →
      t = .unknown ∨ ∃ p ∈ types, t = p.2.enteredAs e := by
  obtain ⟨hf, ha⟩ := enter_all (r := ⟨[]⟩) types nofun
  unfold ofTypes
  dsimp only
  split
  · refine ⟨hf, fun e t h => ?_⟩
    rcases ha e t h with h | h
    · cases h
    · exact .inr h
  · refine ⟨hf.enter _ _, fun e t h => ?_⟩
    rw [at?_enter] at h
    split at h
    · cases h
      exact .inl rfl
    · rcases ha e t h with h | h
      · cases h
      · exact .inr h

end Registry

/-! ## References -/

namespace TypeRef.Closed

variable {r : Registry} {ref : TypeRef} {t : ShellType} {name : String}

theorem missing? (h : ref.Closed r) : r.missing? ref = none := by
  cases h with
  | named found => simp [Registry.missing?, Option.isSome_iff_ne_none.1 found]
  | _ => rfl

/-- A type is closed whichever entry it is. -/
theorem enteredAs (h : (TypeRef.type t).Closed r) (e : Entry) :
    (TypeRef.type (t.enteredAs e)).Closed r := by
  cases h with
  | unknown => exact .unknown
  | function h => exact .function h
  | object concrete closed => exact .object concrete closed

end TypeRef.Closed

namespace Registry.Closed

variable {r : Registry}

theorem find? (hr : r.Closed) {name : String} {t : ShellType} (h : r.find? name = some t) :
    (TypeRef.type t).Closed r := by
  obtain ⟨e, he⟩ := at?_of_find? h
  exact hr e t he

theorem unknown (hr : r.Closed) : (TypeRef.type r.unknown).Closed r := by
  unfold Registry.unknown
  cases hf : r.find? ShellType.unknownName with
  | none => exact .unknown
  | some t => exact hr.find? hf

/-- What a name stands for is closed, also if it is not registered. -/
theorem resolve_named (hr : r.Closed) (name : String) :
    (TypeRef.type (r.resolve (.named name))).Closed r := by
  unfold Registry.resolve
  dsimp only
  cases hf : r.find? name with
  | none => exact hr.unknown
  | some t => exact hr.find? hf

theorem resolve (hr : r.Closed) {ref : TypeRef} (h : ref.Closed r) :
    (TypeRef.type (r.resolve ref)).Closed r := by
  cases h with
  | named _ => exact hr.resolve_named _
  | @entry e found =>
    obtain ⟨t, ht⟩ := Option.isSome_iff_exists.1 found
    unfold Registry.resolve
    dsimp only
    rw [ht]
    exact hr e t ht
  | unknown => exact .unknown
  | function h => exact .function h
  | object concrete closed => exact .object concrete closed

end Registry.Closed

/-! ## What a table holds -/

namespace SymbolTable

variable {t : SymbolTable} {ref : TypeRef}

/-- The references that can be reached from a table: the values of its frames and its registered
types, and from there on what functions return, the attributes of objects, and the entries that are
referred to. -/
inductive Holds (t : SymbolTable) : TypeRef → Prop
  | frame {f p} (hf : f ∈ t.frames) (hp : p ∈ f) : Holds t p.2
  | registered {name u} (h : t.registry.find? name = some u) : Holds t (.type u)
  | entry {e u} (h : Holds t (.entry e)) (he : t.registry.at? e = some u) : Holds t (.type u)
  | returns {e ref promise} (h : Holds t (.type (.function e ref promise))) : Holds t ref
  | attr {e name asyncChild attrs p}
      (h : Holds t (.type (.object e name asyncChild (some attrs)))) (hp : p ∈ attrs) : Holds t p.2

theorem Closed.holds (hc : t.Closed) (h : t.Holds ref) : ref.Closed t.registry := by
  induction h with
  | frame hf hp => exact hc.frames _ hf _ hp
  | registered h => exact hc.registry.find? h
  | entry _ he => exact hc.registry _ _ he
  | returns _ ih =>
    cases ih with
    | function h => exact h
  | attr _ hp ih =>
    cases ih with
    | object _ closed => exact closed _ hp

end SymbolTable

/-- What a reference stands for in a registry without loose ends: it is the name of a registered
type, an entry, or a type whose attributes are types. -/
def TypeRef.Stands (r : Registry) : TypeRef → Prop
  | .absent => False
  | .named name => (r.find? name).isSome
  | .entry e => (r.at? e).isSome
  | .type t => ∀ p ∈ t.attributes?.getD [], p.2.isConcrete

theorem TypeRef.Closed.stands {r : Registry} {ref : TypeRef} (h : ref.Closed r) : ref.Stands r := by
  cases h with
  | named found => exact found
  | entry found => exact found
  | unknown | function _ => exact List.forall_mem_nil _
  | object concrete _ => exact concrete

/-! ## Reading a catalog -/

namespace Catalog

variable {r : Registry} {path : String} {t : ShellType} {uses : List Use}

/-- The names that are used are registered in `r`. -/
def Used (r : Registry) (uses : List Use) : Prop := ∀ u ∈ uses, r.revisions.binds u.name

mutual

theorem readType_closed (hr : r.Filled) {path : String} {t : ShellType} {uses : List Use} :
    ∀ {j : Json}, readType path j = .ok (t, uses) → Used r uses → (TypeRef.type t).Closed r
  | .object fields, h, hu => by
    simp only [readType, bind_ok] at h
    obtain ⟨name, -, h⟩ := h
    split at h
    · obtain ⟨promise, -, ⟨returns, uses'⟩, hret, h⟩ := by simpa only [bind_ok] using h
      cases h
      exact .function (readReturns_closed hr hret hu)
    · obtain ⟨asyncChild, -, ⟨attrs, uses'⟩, hattr, h⟩ := by simpa only [bind_ok] using h
      cases h
      have := findAttributes_closed hr hattr hu
      exact .object (fun p hp => (this p hp).1) fun p hp => (this p hp).2
  | .null, h, _ | .bool _, h, _ | .number _, h, _ | .string _, h, _ | .array _, h, _ => by
    cases h

theorem readReturns_closed (hr : r.Filled) {path : String} {ref : TypeRef} {uses : List Use} :
    ∀ {fields : List (String × Json)}, readReturns path fields = .ok (ref, uses) → Used r uses →
      ref.Closed r
  | [], h, hu => by
    cases h
    exact .named (hr.find? (hu _ List.mem_cons_self))
  | (field, j) :: fields, h, hu => by
    unfold readReturns at h
    split at h
    · split at h
      · cases h
        exact .named (hr.find? (hu _ List.mem_cons_self))
      · obtain ⟨⟨t, uses'⟩, ht, h⟩ := bind_ok.1 h
        cases h
        exact readType_closed hr ht hu
    · exact readReturns_closed hr h hu

theorem findAttributes_closed (hr : r.Filled) {path : String} {attrs : List (String × TypeRef)}
    {uses : List Use} :
    ∀ {fields : List (String × Json)}, findAttributes path fields = .ok (attrs, uses) →
      Used r uses → ∀ p ∈ attrs, p.2.isConcrete ∧ p.2.Closed r
  | [], h, _ => by
    cases h
    exact List.forall_mem_nil _
  | (field, j) :: fields, h, hu => by
    unfold findAttributes at h
    split at h
    · split at h
      · exact readAttributes_closed hr h hu
      · cases h
    · exact findAttributes_closed hr h hu

theorem readAttributes_closed (hr : r.Filled) {path : String} {attrs : List (String × TypeRef)}
    {uses : List Use} :
    ∀ {fields : List (String × Json)}, readAttributes path fields = .ok (attrs, uses) →
      Used r uses → ∀ p ∈ attrs, p.2.isConcrete ∧ p.2.Closed r
  | [], h, _ => by
    cases h
    exact List.forall_mem_nil _
  | (attr, .string name) :: fields, h, hu => by
    obtain ⟨⟨rest, uses'⟩, hrest, h⟩ := by simpa only [readAttributes, bind_ok] using h
    cases h
    obtain ⟨hn, hu⟩ := List.forall_mem_cons.1 hu
    exact List.forall_mem_cons.2 ⟨⟨rfl, .entry (hr.at? hn)⟩, readAttributes_closed hr hrest hu⟩
  | (attr, .object o) :: fields, h, hu => by
    obtain ⟨⟨t, uses₁⟩, ht, ⟨rest, uses₂⟩, hrest, h⟩ := by
      simpa only [readAttributes, bind_ok] using h
    cases h
    obtain ⟨hu₁, hu₂⟩ := List.forall_mem_append.1 hu
    exact List.forall_mem_cons.2 ⟨⟨rfl, readType_closed hr ht hu₁⟩,
      readAttributes_closed hr hrest hu₂⟩
  | (_, .null) :: _, h, _ | (_, .bool _) :: _, h, _ | (_, .number _) :: _, h, _
  | (_, .array _) :: _, h, _ => by
    simp only [readAttributes, readType] at h
    cases h

end

theorem readEntries_closed (hr : r.Filled) {entries : List (String × Json)}
    {types : Bindings ShellType} {uses : List Use} (h : readEntries entries = .ok (types, uses))
    (hu : Used r uses) : ∀ p ∈ types, (TypeRef.type p.2).Closed r := by
  induction entries generalizing types uses with
  | nil =>
    cases h
    exact List.forall_mem_nil _
  | cons p entries ih =>
    obtain ⟨⟨t, uses₁⟩, ht, ⟨rest, uses₂⟩, hrest, h⟩ := by
      simpa only [readEntries, bind_ok] using h
    cases h
    obtain ⟨hu₁, hu₂⟩ := List.forall_mem_append.1 hu
    exact List.forall_mem_cons.2 ⟨readType_closed hr ht hu₁, ih hrest hu₂⟩

theorem binds_of_checkUse {u : Use} (h : checkUse r u = .ok ()) : r.revisions.binds u.name := by
  unfold checkUse at h
  split at h
  · assumption
  · cases h

theorem readScope_closed (hr : r.Filled) {entries : List (String × Json)} {f : Frame}
    {uses : List Use} (h : readScope r entries = .ok (f, uses)) (hu : Used r uses) :
    ∀ p ∈ f, p.2.Closed r := by
  induction entries generalizing f uses with
  | nil =>
    cases h
    exact List.forall_mem_nil _
  | cons p entries ih =>
    unfold readScope at h
    split at h
    · cases ‹p :: entries = []›
    · next hp =>
      cases hp
      obtain ⟨_, hn, ⟨rest, uses'⟩, hrest, h⟩ := by simpa only [bind_ok] using h
      cases h
      exact List.forall_mem_cons.2 ⟨.named (hr.find? (binds_of_checkUse hn)), ih hrest hu⟩
    · next hp =>
      cases hp
      obtain ⟨⟨t, uses₁⟩, ht, ⟨rest, uses₂⟩, hrest, h⟩ := by simpa only [bind_ok] using h
      cases h
      obtain ⟨hu₁, hu₂⟩ := List.forall_mem_append.1 hu
      exact List.forall_mem_cons.2 ⟨readType_closed hr ht hu₁, ih hrest hu₂⟩

/-- If all uses are checked, all names that are used are registered. -/
theorem used_of_checkUse {uses : List Use} {a : PUnit}
    (h : (forIn uses PUnit.unit fun u _ => do checkUse r u; pure (.yield PUnit.unit) :
      Except CatalogError PUnit) = .ok a) : Used r uses := by
  induction uses with
  | nil => exact List.forall_mem_nil _
  | cons u uses ih =>
    rw [List.forIn_cons] at h
    obtain ⟨s, hs, h⟩ := bind_ok.1 h
    obtain ⟨_, hu, hs⟩ := bind_ok.1 hs
    cases hs
    exact List.forall_mem_cons.2 ⟨binds_of_checkUse hu, ih h⟩

end Catalog

open Catalog in
/-- The table of a catalog that is accepted is closed. -/
theorem loadCatalog_closed {j : Json} {t : SymbolTable} (h : loadCatalog j = .ok t) :
    t.Closed := by
  cases j with
  | object fields =>
    simp only [loadCatalog, bind_ok] at h
    obtain ⟨types, -, scope, -, isFunction, -, ⟨functionTypes, uses₁⟩, hf, ⟨objectTypes, uses₂⟩, ho,
      ⟨frame, uses₃⟩, hs, u, hu, h⟩ := h
    cases h
    obtain ⟨hfill, hat⟩ := Registry.at?_ofTypes (objectTypes ++ functionTypes)
    obtain ⟨hu, hu₃⟩ := List.forall_mem_append.1 (used_of_checkUse hu)
    obtain ⟨hu₁, hu₂⟩ := List.forall_mem_append.1 hu
    have htypes := List.forall_mem_append.2
      ⟨readEntries_closed hfill ho hu₂, readEntries_closed hfill hf hu₁⟩
    refine ⟨fun e t he => ?_, List.forall_mem_singleton.2 (readScope_closed hfill hs hu₃)⟩
    rcases hat e t he with rfl | ⟨p, hp, rfl⟩
    · exact .unknown
    · exact (htypes p hp).enteredAs _
  | _ => cases h

end AutoAwait
