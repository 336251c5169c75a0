import AutoAwait.Proofs.Catalog.WellFormed
import Mathlib.Data.List.Nodup

/-!
# The order of a catalog

A catalog is read in phases, and its entries refer to each other in any order; what it describes does
not depend on the order in which its parts are written.

* `Json.Reordered` relates values that differ at most in the order of the fields of their objects;
  `Json.Distinct` says that no object has two fields of one name, which holds of what is read;
* `TypeRef.Alike` and `SymbolTable.Alike` relate references and tables that differ at most in the
  order in which attributes and names are listed: entries, frames and attributes count as finite maps;
* `Catalog.Reads` is what stands where a type is expected, read in whatever place;
* `loadCatalog_wellFormed_and_alike` is the main statement.
-/

namespace AutoAwait

/-! ## Values that differ in the order of fields -/

/-- Have the fields of every object in a value distinct names? -/
inductive Json.Distinct : Json → Prop
  | null : Distinct .null
  | bool {b} : Distinct (.bool b)
  | number {text} : Distinct (.number text)
  | string {s} : Distinct (.string s)
  | array {items} (values : ∀ j ∈ items, Distinct j) : Distinct (.array items)
  | object {fields} (names : (fields.map (·.1)).Nodup) (values : ∀ p ∈ fields, Distinct p.2) :
      Distinct (.object fields)

/-- Do two values differ at most in the order of the fields of their objects? -/
inductive Json.Reordered : Json → Json → Prop
  | null : Reordered .null .null
  | bool {b} : Reordered (.bool b) (.bool b)
  | number {text} : Reordered (.number text) (.number text)
  | string {s} : Reordered (.string s) (.string s)
  | array {items items'} (length : items.length = items'.length)
      (values : ∀ (i : Nat) x y, items[i]? = some x → items'[i]? = some y → Reordered x y) :
      Reordered (.array items) (.array items')
  | object {fields fields'} (names : (fields.map (·.1)).Perm (fields'.map (·.1)))
      (values : ∀ p ∈ fields, ∀ q ∈ fields', p.1 = q.1 → Reordered p.2 q.2) :
      Reordered (.object fields) (.object fields')

section
variable {α β : Type}

theorem lookup_isSome_iff_mem {xs : List (String × α)} {name : String} :
    (xs.lookup name).isSome ↔ name ∈ xs.map (·.1) := by
  rw [List.lookup_isSome_iff, List.mem_map]
  exact exists_congr fun p => and_congr_right fun _ => beq_iff_eq.trans eq_comm

theorem mem_of_lookup {xs : List (String × α)} {name : String} {x : α}
    (h : xs.lookup name = some x) : (name, x) ∈ xs := by
  obtain ⟨before, after, rfl, -⟩ := List.lookup_eq_some_iff.1 h
  exact List.mem_append_right _ List.mem_cons_self

/-- What is found under a name is related, if lists with the same names have related values. -/
theorem lookup_rel {R : α → β → Prop} {xs : List (String × α)} {ys : List (String × β)}
    (names : (xs.map (·.1)).Perm (ys.map (·.1)))
    (values : ∀ p ∈ xs, ∀ q ∈ ys, p.1 = q.1 → R p.2 q.2) (name : String) :
    Option.Rel R (xs.lookup name) (ys.lookup name) := by
  have h : (xs.lookup name).isSome ↔ (ys.lookup name).isSome := by
    rw [lookup_isSome_iff_mem, lookup_isSome_iff_mem, names.mem_iff]
  cases hx : xs.lookup name with
  | none =>
    cases hy : ys.lookup name with
    | none => exact .none
    | some y => simp [hx, hy] at h
  | some x =>
    cases hy : ys.lookup name with
    | none => simp [hx, hy] at h
    | some y => exact .some (values _ (mem_of_lookup hx) _ (mem_of_lookup hy) rfl)

/-- What is found under a name is related, if one more pair of related values is put before lists in
which it is. -/
theorem lookup_rel_cons {R : α → β → Prop} {xs : List (String × α)} {ys : List (String × β)}
    {x : α} {y : β} {field name : String} (hxy : R x y)
    (h : Option.Rel R (xs.lookup name) (ys.lookup name)) :
    Option.Rel R (((field, x) :: xs).lookup name) (((field, y) :: ys).lookup name) := by
  rw [List.lookup_cons, List.lookup_cons]
  split
  · exact .some hxy
  · exact h

theorem Bindings.get?_eq_lookup (b : Bindings α) (name : String) : b.get? name = b.lookup name := by
  induction b with
  | nil => rfl
  | cons p b ih =>
    obtain ⟨n, a⟩ := p
    rw [Bindings.get?, List.lookup_cons, ih]
    by_cases h : n = name
    · simp [h]
    · simp [h, beq_false_of_ne (Ne.symm h)]

end

namespace Json

variable {fields fields' : List (String × Json)} {s s' : String}

@[simp] theorem distinct_string : (Json.string s).Distinct := .string

@[simp] theorem distinct_object : (Json.object fields).Distinct ↔
    (fields.map (·.1)).Nodup ∧ ∀ p ∈ fields, p.2.Distinct := by
  constructor
  · rintro ⟨⟩
    exact ⟨‹_›, ‹_›⟩
  · exact fun h => .object h.1 h.2

@[simp] theorem reordered_string : (Json.string s).Reordered (.string s') ↔ s = s' := by
  constructor
  · rintro ⟨⟩
    rfl
  · rintro rfl
    exact .string

@[simp] theorem reordered_object : (Json.object fields).Reordered (.object fields') ↔
    (fields.map (·.1)).Perm (fields'.map (·.1)) ∧
      ∀ p ∈ fields, ∀ q ∈ fields', p.1 = q.1 → p.2.Reordered q.2 := by
  constructor
  · rintro ⟨⟩
    exact ⟨‹_›, ‹_›⟩
  · exact fun h => .object h.1 h.2

theorem Reordered.lookup (h : (Json.object fields).Reordered (.object fields')) (name : String) :
    Option.Rel Json.Reordered (fields.lookup name) (fields'.lookup name) := by
  obtain ⟨names, values⟩ := reordered_object.1 h
  exact lookup_rel names values name

/-! ## Values that are read -/

theorem Distinct.empty : (Json.object []).Distinct := .object List.nodup_nil (List.forall_mem_nil _)

theorem Distinct.put {fields : List (String × Json)} {j : Json}
    (h : (Json.object fields).Distinct) (name : String) (hj : j.Distinct) :
    (Json.object (Bindings.put fields name j)).Distinct := by
  obtain _ | _ | _ | _ | _ | ⟨hn, hv⟩ := h
  refine .object ?_ (Bindings.forall_mem_put hv hj name)
  change (Bindings.names _).Nodup
  rw [Bindings.names_put]
  split
  · exact hn
  · next hnew => exact List.nodup_append_comm.2 (List.nodup_cons.2 ⟨hnew, hn⟩)

theorem readNumber_distinct {cs rest : List Char} {j : Json} (h : readNumber cs = .ok (j, rest)) :
    j.Distinct := by
  have hu {start sign cs : List Char} (h : readUnsigned start sign cs = .ok (j, rest)) :
      j.Distinct := by
    unfold readUnsigned at h
    dsimp only at h
    split at h
    · cases h
    · split at h
      · cases h
      · cases h
        exact .number
  unfold readNumber at h
  split at h <;> exact hu h

theorem readWord_distinct {cs rest : List Char} {j : Json} (h : readWord cs = some (j, rest)) :
    j.Distinct := by
  have hw : ∀ w ∈ words, w.2.Distinct := by
    simp [words, Distinct.null, Distinct.bool, Distinct.number]
  obtain ⟨w, hw', h⟩ := Option.map_eq_some_iff.1 h
  cases h
  exact hw _ (List.mem_of_find?_eq_some hw')

/-- In what is read the fields of every object have distinct names. -/
theorem distinct_of_readValue (fuel : Nat) :
    (∀ cs j rest, readValue fuel cs = .ok (j, rest) → j.Distinct) ∧
    (∀ acc cs fields rest, (Json.object acc).Distinct → readFields fuel acc cs = .ok (fields, rest) →
      (Json.object fields).Distinct) ∧
    ∀ cs items rest, readItems fuel cs = .ok (items, rest) → (Json.array items).Distinct := by
  induction fuel with
  | zero => exact ⟨nofun, nofun, nofun⟩
  | succ fuel ih =>
    obtain ⟨ihv, ihf, ihi⟩ := ih
    refine ⟨fun cs j rest h => ?_, fun acc cs fields rest ha h => ?_, fun cs items rest h => ?_⟩
    · unfold readValue at h
      split at h
      · cases h
      · obtain ⟨_, _, h⟩ := bind_ok.1 h
        cases h
        exact .string
      · split at h
        · cases h
          exact .empty
        · obtain ⟨_, hf, h⟩ := bind_ok.1 h
          cases h
          exact ihf _ _ _ _ .empty hf
      · split at h
        · cases h
          exact .array (List.forall_mem_nil _)
        · obtain ⟨_, hf, h⟩ := bind_ok.1 h
          cases h
          exact ihi _ _ _ hf
      · split at h
        · cases h
          exact readWord_distinct ‹_›
        · exact readNumber_distinct h
    · unfold readFields at h
      split at h
      · obtain ⟨⟨name, _⟩, -, h⟩ := bind_ok.1 h
        dsimp only at h
        split at h
        · obtain ⟨⟨value, _⟩, hv, h⟩ := bind_ok.1 h
          dsimp only at h
          have hp := ha.put name (ihv _ _ _ hv)
          split at h
          · cases h
            exact hp
          · exact ihf _ _ _ _ hp h
          · cases h
        · cases h
      · cases h
    · unfold readItems at h
      obtain ⟨⟨item, _⟩, hv, h⟩ := bind_ok.1 h
      dsimp only at h
      split at h
      · cases h
        exact .array (List.forall_mem_singleton.2 (ihv _ _ _ hv))
      · obtain ⟨⟨items, _⟩, hi, h⟩ := bind_ok.1 h
        cases h
        obtain _ | _ | _ | _ | hi := ihi _ _ _ hi
        exact .array (List.forall_mem_cons.2 ⟨ihv _ _ _ hv, hi⟩)
      · cases h

theorem read_distinct {text : String} {j : Json} (h : read text = .ok j) : j.Distinct := by
  unfold read at h
  dsimp only at h
  split at h
  · next hall =>
    cases h
    unfold readAll at hall
    split at hall
    · cases hall
    · obtain ⟨⟨j, rest⟩, hv, hall⟩ := bind_ok.1 hall
      dsimp only at hall
      split at hall
      · cases hall
        exact (distinct_of_readValue _).1 _ _ _ hv
      · cases hall
  · cases h
  · cases h

end Json

/-! ## References and tables that differ in order -/

/-- Do two references differ at most in the order of attributes? -/
inductive TypeRef.Alike : TypeRef → TypeRef → Prop
  | absent : Alike .absent .absent
  | named {name} : Alike (.named name) (.named name)
  | entry {e} : Alike (.entry e) (.entry e)
  | unknown : Alike (.type .unknown) (.type .unknown)
  | function {e returns returns' promise} (h : Alike returns returns') :
      Alike (.type (.function e returns promise)) (.type (.function e returns' promise))
  | object {e name asyncChild attrs attrs'}
      (h : ∀ attr, Option.Rel Alike (attrs.lookup attr) (attrs'.lookup attr)) :
      Alike (.type (.object e name asyncChild (some attrs)))
        (.type (.object e name asyncChild (some attrs')))

/-- Do two tables bind and register the same names, to references and types that are alike? -/
structure SymbolTable.Alike (t t' : SymbolTable) : Prop where
  entries : ∀ e, Option.Rel (fun u u' => TypeRef.Alike (.type u) (.type u'))
    (t.registry.at? e) (t'.registry.at? e)
  registered : ∀ name, Option.Rel (fun u u' => TypeRef.Alike (.type u) (.type u'))
    (t.registry.find? name) (t'.registry.find? name)
  frames : List.Forall₂ (fun f f' : Frame => ∀ name, Option.Rel TypeRef.Alike (f.get? name)
    (f'.get? name)) t.frames t'.frames

theorem TypeRef.Alike.enteredAs {t t' : ShellType} (h : Alike (.type t) (.type t')) (e : Entry) :
    Alike (.type (t.enteredAs e)) (.type (t'.enteredAs e)) := by
  cases h with
  | unknown => exact .unknown
  | function h => exact .function h
  | object h => exact .object h

namespace Catalog

/-! ## What is read in a place -/

/-- The reference that is read where a type is expected; `ofName` is what a name is read as. -/
inductive Reads (ofName : String → TypeRef) : Json → TypeRef → Prop
  | name {s} : Reads ofName (.string s) (ofName s)
  | description {path j t uses} (h : readType path j = .ok (t, uses)) : Reads ofName j (.type t)

variable {path : String} {fields : List (String × Json)} {uses : List Use}

theorem readReturns_reads {ref : TypeRef} (h : readReturns path fields = .ok (ref, uses)) :
    (fields.lookup "returnType" = none ∧ ref = .named ShellType.unknownName) ∨
      ∃ j, fields.lookup "returnType" = some j ∧ Reads .named j ref := by
  rw [readReturns_eq] at h
  split at h
  · next hn =>
    cases h
    exact .inl ⟨hn, rfl⟩
  · next hs =>
    cases h
    exact .inr ⟨_, hs, .name⟩
  · next hj =>
    obtain ⟨⟨t, _⟩, ht, h⟩ := bind_ok.1 h
    cases h
    exact .inr ⟨_, hj, .description ht⟩

/-- An attribute stands for what is read in its place. -/
theorem readAttributes_reads {attrs : List (String × Json)} {refs : List (String × TypeRef)}
    (h : readAttributes path attrs = .ok (refs, uses)) (attr : String) :
    Option.Rel (Reads fun name => .entry ⟨name, 0⟩) (attrs.lookup attr) (refs.lookup attr) := by
  induction attrs generalizing refs uses with
  | nil =>
    cases h
    exact .none
  | cons p attrs ih =>
    unfold readAttributes at h
    split at h
    · cases ‹p :: attrs = []›
    · next hp =>
      cases hp
      obtain ⟨⟨rest, _⟩, hrest, h⟩ := bind_ok.1 h
      cases h
      exact lookup_rel_cons .name (ih hrest)
    · next hp =>
      cases hp
      obtain ⟨⟨t, _⟩, ht, ⟨rest, _⟩, hrest, h⟩ := by simpa only [bind_ok] using h
      cases h
      exact lookup_rel_cons (.description ht) (ih hrest)

theorem findAttributes_reads {refs : List (String × TypeRef)}
    (h : findAttributes path fields = .ok (refs, uses)) :
    (fields.lookup "attributes" = none ∧ refs = []) ∨
      ∃ attrs, fields.lookup "attributes" = some (.object attrs) ∧ ∀ attr,
        Option.Rel (Reads fun name => .entry ⟨name, 0⟩) (attrs.lookup attr) (refs.lookup attr) := by
  rw [findAttributes_eq] at h
  split at h
  · next hn =>
    cases h
    exact .inl ⟨hn, rfl⟩
  · next hs => exact .inr ⟨_, hs, readAttributes_reads h⟩
  · cases h

/-- A registered name stands for what is read in its place. -/
theorem readEntries_reads {entries : List (String × Json)} {ts : Bindings ShellType}
    (h : readEntries entries = .ok (ts, uses)) (name : String) :
    Option.Rel (fun j t => Reads .named j (.type t)) (entries.lookup name) (ts.lookup name) := by
  induction entries generalizing ts uses with
  | nil =>
    cases h
    exact .none
  | cons p entries ih =>
    obtain ⟨n, j⟩ := p
    obtain ⟨⟨t, us⟩, ht, ⟨rest, _⟩, hrest, h⟩ := by simpa only [readEntries, bind_ok] using h
    cases h
    exact lookup_rel_cons (.description ht) (ih hrest)

/-- A name of the scope stands for what is read in its place. -/
theorem readScope_reads {r : Registry} {entries : List (String × Json)} {f : Frame}
    (h : readScope r entries = .ok (f, uses)) (name : String) :
    Option.Rel (Reads .named) (entries.lookup name) (f.lookup name) := by
  induction entries generalizing f uses with
  | nil =>
    cases h
    exact .none
  | cons p entries ih =>
    unfold readScope at h
    split at h
    · cases ‹p :: entries = []›
    · next hp =>
      cases hp
      obtain ⟨_, -, ⟨rest, _⟩, hrest, h⟩ := by simpa only [bind_ok] using h
      cases h
      exact lookup_rel_cons .name (ih hrest)
    · next hp =>
      cases hp
      obtain ⟨⟨t, _⟩, ht, ⟨rest, _⟩, hrest, h⟩ := by simpa only [bind_ok] using h
      cases h
      exact lookup_rel_cons (.description ht) (ih hrest)

/-! ## Reordered catalogs -/

/-- Whatever is read from two values is alike. -/
def AlikeReadings (j j' : Json) : Prop :=
  ∀ ofName ref ref', (∀ s, (ofName s).Alike (ofName s)) → Reads ofName j ref →
    Reads ofName j' ref' → ref.Alike ref'

/-- What is read from the values of equal names is alike; `f` is the reference it stands for. -/
theorem alike_of_reads {α : Type} (f : α → TypeRef) {ofName : String → TypeRef}
    {x x' : Option Json} {a a' : Option α} (hname : ∀ s, (ofName s).Alike (ofName s))
    (hx : Option.Rel AlikeReadings x x') (h : Option.Rel (fun j a => Reads ofName j (f a)) x a)
    (h' : Option.Rel (fun j a => Reads ofName j (f a)) x' a') :
    Option.Rel (fun a a' => (f a).Alike (f a')) a a' := by
  cases hx with
  | none =>
    cases h
    cases h'
    exact .none
  | some hx =>
    cases h with
    | some h =>
      cases h' with
      | some h' => exact .some (hx _ _ _ hname h h')

theorem typeName_reordered {fields' : List (String × Json)} {path' name name' : String}
    (hf : (Json.object fields).Reordered (.object fields')) (h : typeName path fields = .ok name)
    (h' : typeName path' fields' = .ok name') : name = name' := by
  have := hf.lookup "type"
  rw [typeName_ok.1 h, typeName_ok.1 h', Option.rel_some_some] at this
  exact Json.reordered_string.1 this

theorem flag_ok {name : String} {b : Bool} (h : flag path name fields = .ok b) :
    fields.lookup name = some (.bool b) ∨ fields.lookup name = none ∧ b = false := by
  unfold flag at h
  split at h
  · cases h
    exact .inr ⟨‹_›, rfl⟩
  · cases h
    exact .inl ‹_›
  · cases h

theorem flag_reordered {fields' : List (String × Json)} {path' name : String} {b b' : Bool}
    (hf : (Json.object fields).Reordered (.object fields')) (h : flag path name fields = .ok b)
    (h' : flag path' name fields' = .ok b') : b = b' := by
  have hf := hf.lookup name
  rcases flag_ok h with hx | ⟨hx, rfl⟩ <;> rcases flag_ok h' with hy | ⟨hy, rfl⟩ <;> rw [hx, hy] at hf
  · cases Option.rel_some_some.1 hf
    rfl
  · cases hf
  · cases hf

/-- The types that are read from the fields of two objects are alike, if all that is read from their
fields is, and what is read from the attributes in the fields. -/
theorem readType_object_alike {fields' : List (String × Json)} {path' : String} {t t' : ShellType}
    {uses' : List Use} (hf : (Json.object fields).Reordered (.object fields'))
    (hreturns : Option.Rel AlikeReadings (fields.lookup "returnType")
      (fields'.lookup "returnType"))
    (hattrs : ∀ attrs attrs', fields.lookup "attributes" = some (.object attrs) →
      fields'.lookup "attributes" = some (.object attrs') → ∀ attr,
        Option.Rel AlikeReadings (attrs.lookup attr) (attrs'.lookup attr))
    (h : readType path (.object fields) = .ok (t, uses))
    (h' : readType path' (.object fields') = .ok (t', uses')) :
    (TypeRef.type t).Alike (.type t') := by
  simp only [readType, bind_ok] at h h'
  obtain ⟨name, hname, h⟩ := h
  obtain ⟨name', hname', h'⟩ := h'
  obtain rfl := typeName_reordered hf hname hname'
  split at h
  · next hfun =>
    rw [if_pos hfun] at h'
    obtain ⟨promise, hp, ⟨ref, us⟩, hr, h⟩ := by simpa only [bind_ok] using h
    obtain ⟨promise', hp', ⟨ref', us'⟩, hr', h'⟩ := by simpa only [bind_ok] using h'
    cases h
    cases h'
    obtain rfl := flag_reordered hf hp hp'
    refine .function ?_
    rcases readReturns_reads hr with ⟨hx, rfl⟩ | ⟨j, hx, hr⟩ <;>
      rcases readReturns_reads hr' with ⟨hy, rfl⟩ | ⟨j', hy, hr'⟩ <;> rw [hx, hy] at hreturns
    · exact .named
    · cases hreturns
    · cases hreturns
    · exact Option.rel_some_some.1 hreturns _ _ _ (fun _ => .named) hr hr'
  · next hfun =>
    rw [if_neg hfun] at h'
    obtain ⟨asyncChild, ha, ⟨refs, us⟩, hr, h⟩ := by simpa only [bind_ok] using h
    obtain ⟨asyncChild', ha', ⟨refs', us'⟩, hr', h'⟩ := by simpa only [bind_ok] using h'
    cases h
    cases h'
    obtain rfl := flag_reordered hf ha ha'
    refine .object fun attr => ?_
    have hlisted := hf.lookup "attributes"
    rcases findAttributes_reads hr with ⟨hx, rfl⟩ | ⟨attrs, hx, hr⟩ <;>
      rcases findAttributes_reads hr' with ⟨hy, rfl⟩ | ⟨attrs', hy, hr'⟩ <;> rw [hx, hy] at hlisted
    · exact .none
    · cases hlisted
    · cases hlisted
    · exact alike_of_reads id (fun _ => .entry) (hattrs _ _ hx hy attr) (hr attr) (hr' attr)

/-- What is read from two values that differ in the order of fields is alike, and so is what is read
from their fields. -/
theorem alikeReadings {j j' : Json} (h : j.Reordered j') :
    AlikeReadings j j' ∧ ∀ fields fields', j = .object fields → j' = .object fields' →
      ∀ name, Option.Rel AlikeReadings (fields.lookup name) (fields'.lookup name) := by
  induction h with
  | string =>
    refine ⟨fun ofName ref ref' hname hr hr' => ?_, nofun⟩
    rcases hr with _ | ⟨⟨⟩⟩
    rcases hr' with _ | ⟨⟨⟩⟩
    exact hname _
  | @object fields fields' names values ih =>
    have hfields := lookup_rel names fun p hp q hq h => (ih p hp q hq h).1
    refine ⟨fun ofName ref ref' _ hr hr' => ?_, ?_⟩
    · rcases hr with _ | hr
      rcases hr' with _ | hr'
      exact readType_object_alike (.object names values) (hfields _)
        (fun attrs attrs' hx hy => (ih _ (mem_of_lookup hx) _ (mem_of_lookup hy) rfl).2 attrs attrs'
          rfl rfl) hr hr'
    · rintro _ _ ⟨⟩ ⟨⟩
      exact hfields
  | _ =>
    refine ⟨fun ofName ref ref' _ hr _ => ?_, nofun⟩
    rcases hr with _ | ⟨⟨⟩⟩

end Catalog

/-! ## Registries of catalogs -/

namespace Registry

variable {r : Registry} {name : String} {ts : Bindings ShellType}

/-- A type that is entered under a new name is its first entry. -/
theorem get?_enter (h : r.revisions.get? name = none) (t : ShellType) (m : String) :
    (r.enter name t).revisions.get? m =
      if name = m then some [t.enteredAs ⟨m, 0⟩] else r.revisions.get? m := by
  unfold enter
  dsimp only
  rw [Bindings.get?_put, h]
  split
  · next hm =>
    subst hm
    rfl
  · rfl

theorem get?_enter_all (hr : ∀ n ∈ ts.names, r.revisions.get? n = none) (hd : ts.names.Nodup)
    (name : String) :
    (ts.foldl (fun r p => r.enter p.1 p.2) r).revisions.get? name =
      match ts.lookup name with
      | some t => some [t.enteredAs ⟨name, 0⟩]
      | none => r.revisions.get? name := by
  induction ts generalizing r with
  | nil => rfl
  | cons p ts ih =>
    obtain ⟨n, t⟩ := p
    obtain ⟨hn, hr⟩ := List.forall_mem_cons.1 hr
    obtain ⟨hnew, hd⟩ := List.nodup_cons.1 hd
    have hget := get?_enter hn t
    rw [List.foldl_cons, ih (fun m hm => ?_) hd, List.lookup_cons]
    · by_cases hname : name = n
      · subst hname
        have hnone : ts.lookup name = none := by
          rw [← Option.not_isSome_iff_eq_none, lookup_isSome_iff_mem]
          exact hnew
        simp [hnone, hget]
      · rw [beq_false_of_ne hname, hget, if_neg (Ne.symm hname)]
    · rw [hget, if_neg fun (h : n = m) => hnew (h ▸ hm)]
      exact hr m hm

/-- The types entered under a name in the registry of types with distinct names. -/
theorem get?_ofTypes (hd : ts.names.Nodup) (name : String) :
    (ofTypes ts).revisions.get? name =
      match ts.lookup name with
      | some t => some [t.enteredAs ⟨name, 0⟩]
      | none => if name = ShellType.unknownName then some [.unknown] else none := by
  have hall := get?_enter_all (r := ⟨[]⟩) (fun _ _ => rfl) hd
  unfold ofTypes
  dsimp only
  split
  · next h =>
    rw [hall]
    split
    · rfl
    · next hn =>
      rw [if_neg]
      · rfl
      · rintro rfl
        simp [Bindings.binds, hall, hn, Bindings.get?] at h
  · next h =>
    have hnone : (ts.foldl (fun r p => enter r p.1 p.2) ⟨[]⟩).revisions.get?
        ShellType.unknownName = none := by simpa [Bindings.binds] using h
    rw [get?_enter hnone, hall]
    split
    · next hm =>
      subst hm
      rw [hall] at hnone
      split at hnone
      · cases hnone
      · rfl
    · next hm =>
      rw [if_neg (Ne.symm hm)]
      rfl

end Registry

/-- Registries of types that are alike have single entries of the same names, which are alike. -/
theorem revisions_alike {ts ts' : Bindings ShellType} (hd : ts.names.Nodup) (hd' : ts'.names.Nodup)
    (h : ∀ name, Option.Rel (fun t t' => TypeRef.Alike (.type t) (.type t')) (ts.lookup name)
      (ts'.lookup name)) (name : String) :
    Option.Rel (fun us us' => ∃ u u', us = [u] ∧ us' = [u'] ∧ TypeRef.Alike (.type u) (.type u'))
      ((Registry.ofTypes ts).revisions.get? name) ((Registry.ofTypes ts').revisions.get? name) := by
  rw [Registry.get?_ofTypes hd, Registry.get?_ofTypes hd']
  generalize ts.lookup name = x, ts'.lookup name = x', h name = hx
  cases hx with
  | none =>
    dsimp only
    split
    · exact .some ⟨_, _, rfl, rfl, .unknown⟩
    · exact .none
  | some h => exact .some ⟨_, _, rfl, rfl, h.enteredAs _⟩

/-- What names with single entries that are alike lead to is alike. -/
theorem rel_bind {α : Type} {R : α → α → Prop} {x x' : Option (List α)} {f : List α → Option α}
    (h : Option.Rel (fun us us' => ∃ u u', us = [u] ∧ us' = [u'] ∧ R u u') x x')
    (hf : ∀ {u u'}, R u u' → Option.Rel R (f [u]) (f [u'])) :
    Option.Rel R (x.bind f) (x'.bind f) := by
  cases h with
  | none => exact .none
  | some h =>
    obtain ⟨u, u', rfl, rfl, h⟩ := h
    exact hf h

namespace Catalog

variable {name : String} {fields fields' entries entries' : List (String × Json)}

theorem Section.nodup (hd : (Json.object fields).Distinct) (h : Section name fields entries) :
    (entries.map (·.1)).Nodup := by
  cases h with
  | missing => exact List.nodup_nil
  | present h =>
    exact (Json.distinct_object.1 ((Json.distinct_object.1 hd).2 _ (mem_of_lookup h))).1

theorem Section.reordered (hf : (Json.object fields).Reordered (.object fields'))
    (h : Section name fields entries) (h' : Section name fields' entries') :
    (Json.object entries).Reordered (.object entries') := by
  have hf := hf.lookup name
  rcases h with h | h <;> rcases h' with h' | h' <;> rw [h, h'] at hf
  · exact .object (.refl _) fun _ => nofun
  · cases hf
  · cases hf
  · exact Option.rel_some_some.1 hf

/-- The types of entries that differ in the order of fields are alike. -/
theorem readEntries_alike {ts ts' : Bindings ShellType} {uses uses' : List Use}
    (hj : (Json.object entries).Reordered (.object entries'))
    (h : readEntries entries = .ok (ts, uses)) (h' : readEntries entries' = .ok (ts', uses'))
    (name : String) :
    Option.Rel (fun t t' => TypeRef.Alike (.type t) (.type t')) (ts.lookup name)
      (ts'.lookup name) :=
  alike_of_reads .type (fun _ => .named) ((alikeReadings hj).2 _ _ rfl rfl name)
    (readEntries_reads h name) (readEntries_reads h' name)

/-- The frames of scopes that differ in the order of fields are alike. -/
theorem readScope_alike {r r' : Registry} {f f' : Frame} {uses uses' : List Use}
    (hj : (Json.object entries).Reordered (.object entries'))
    (h : readScope r entries = .ok (f, uses)) (h' : readScope r' entries' = .ok (f', uses'))
    (name : String) : Option.Rel TypeRef.Alike (f.get? name) (f'.get? name) := by
  rw [Bindings.get?_eq_lookup, Bindings.get?_eq_lookup]
  exact alike_of_reads id (fun _ => .named) ((alikeReadings hj).2 _ _ rfl rfl name)
    (readScope_reads h name) (readScope_reads h' name)

/-- Entries can be taken in any order. -/
theorem reordered_of_perm {types types' : List (String × Json)}
    (hj : (Json.object types).Reordered (.object types')) (h : entries.Perm types)
    (h' : entries'.Perm types') : (Json.object entries).Reordered (.object entries') := by
  obtain ⟨names, values⟩ := Json.reordered_object.1 hj
  exact .object (((h.map _).trans names).trans (h'.map _).symm) fun p hp q hq =>
    values p (h.mem_iff.1 hp) q (h'.mem_iff.1 hq)

/-- The tables of two catalogs that differ in the order of fields are alike. -/
theorem Loads.alike {j j' : Json} {t t' : SymbolTable} (hd : j.Distinct) (hj : j.Reordered j')
    (h : Loads j t) (h' : Loads j' t') : t.Alike t' := by
  obtain ⟨htypes, hscope, horder, hread, hframe, -⟩ := h
  obtain ⟨htypes', hscope', horder', hread', hframe', -⟩ := h'
  have hentries := reordered_of_perm (htypes.reordered hj htypes') horder horder'
  have hnames : (Bindings.names _).Nodup :=
    names_readEntries hread ▸ (horder.map _).nodup_iff.2 (htypes.nodup hd)
  have hnames' : (Bindings.names _).Nodup :=
    names_readEntries hread' ▸ (Json.reordered_object.1 hentries).1.nodup_iff.1 (names_readEntries hread ▸ hnames)
  have hrevisions := revisions_alike hnames hnames' (readEntries_alike hentries hread hread')
  refine ⟨fun e => ?_, fun name => ?_,
    .cons (readScope_alike (hscope.reordered hj hscope') hframe hframe') .nil⟩
  · exact rel_bind (hrevisions e.name) fun h => by cases e.revision <;> simp [h]
  · exact rel_bind (hrevisions name) fun h => .some h

end Catalog

open Catalog in
/-- **Which catalogs are accepted, and as what.** A JSON value is accepted as a catalog if and only
if it is well formed; and catalogs that differ in the order of fields describe tables that are
alike. -/
theorem loadCatalog_wellFormed_and_alike (j : Json) :
    ((∃ t, loadCatalog j = .ok t) ↔ WellFormed j) ∧
      ∀ j' t t', j.Distinct → j.Reordered j' → loadCatalog j = .ok t → loadCatalog j' = .ok t' →
        t.Alike t' :=
  ⟨loadCatalog_isOk_iff, fun _ _ _ hd hj h h' =>
    (loads_of_loadCatalog h).alike hd hj (loads_of_loadCatalog h')⟩

/-- A type that refers to itself and to a function that returns it, the catalog's parts listed in two
orders. -/
theorem loadCatalog_alike_of_cursor :
    let advance := Json.object [("type", .string "function"), ("returnType", .string "Cursor")]
    let cursor attrs := Json.object [("type", .string "Cursor"), ("attributes", .object attrs)]
    let scope := Json.object [("it", .string "Cursor")]
    let j := Json.object [("types", .object [("Cursor",
      cursor [("next", .string "advance"), ("self", .string "Cursor")]), ("advance", advance)]),
      ("scope", scope)]
    let j' := Json.object [("scope", scope), ("types", .object [("advance", advance), ("Cursor",
      cursor [("self", .string "Cursor"), ("next", .string "advance")])])]
    j.Distinct ∧ j.Reordered j' ∧
      ∃ t t', loadCatalog j = .ok t ∧ loadCatalog j' = .ok t' ∧ t.Alike t' := by
  intro advance cursor scope j j'
  have hd : j.Distinct := by simp [j, advance, cursor, scope]
  have hj : j.Reordered j' := by
    have hswap (a b : String) : [a, b].Perm [b, a] := .swap b a []
    simp [j, j', advance, cursor, scope, hswap]
  exact ⟨hd, hj, _, _, rfl, rfl, (loadCatalog_wellFormed_and_alike j).2 j' _ _ hd hj rfl rfl⟩

end AutoAwait
