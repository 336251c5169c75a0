import AutoAwait.Proofs.Catalog.Closed
import Mathlib.Data.List.Forall2

/-!
# Well-formed catalogs

Which JSON values are catalogs, said without the phases in which a catalog is read. The order of the
phases decides which of several faults is reported; it does not decide whether there is one.

* `Catalog.Describes` and `Catalog.Refers` say what a description of a type looks like, and what can
  stand where a type is expected; `Catalog.WellFormed` says what a catalog looks like;
* `Catalog.Accepts` says of a reading that it succeeds and uses known names only; there is a lemma
  for each function that reads;
* `Catalog.Loads` is what a catalog is read as when its phases are taken together;
* `loadCatalog_isOk_iff` is the main statement.
-/

namespace AutoAwait

namespace Catalog

/-! ## What a catalog looks like -/

mutual

/-- A description of a type, in which all names that are used are known. -/
inductive Describes (known : String → Prop) : Json → Prop
  | function {fields} (type : fields.lookup "type" = some (.string ShellType.functionName))
      (promise : ∀ j, fields.lookup "returnsPromise" = some j → ∃ b, j = .bool b)
      (returns : ∀ j, fields.lookup "returnType" = some j → Refers known j) :
      Describes known (.object fields)
  | object {fields name} (type : fields.lookup "type" = some (.string name))
      (other : name ≠ ShellType.functionName)
      (asyncChild : ∀ j, fields.lookup "hasAsyncChild" = some j → ∃ b, j = .bool b)
      (listed : ∀ j, fields.lookup "attributes" = some j → ∃ attrs, j = .object attrs)
      (attributes : ∀ attrs, fields.lookup "attributes" = some (.object attrs) →
        ∀ p ∈ attrs, Refers known p.2) :
      Describes known (.object fields)

/-- What can stand where a type is expected: a known name, or a description. -/
inductive Refers (known : String → Prop) : Json → Prop
  | name {s} (h : known s) : Refers known (.string s)
  | description {j} (h : Describes known j) : Refers known j

end

/-- The names that can be used in a catalog with these entries under `types`. -/
def Known (types : List (String × Json)) (name : String) : Prop :=
  name = ShellType.unknownName ∨ name ∈ types.map (·.1)

/-- The entries of a section of a catalog; a section that is missing has none. -/
inductive Section (name : String) (fields : List (String × Json)) : List (String × Json) → Prop
  | missing (h : fields.lookup name = none) : Section name fields []
  | present {entries} (h : fields.lookup name = some (.object entries)) :
      Section name fields entries

/-- What a catalog looks like: an object whose sections are objects, with descriptions under `types`
and descriptions or names under `scope`, in which every name that is used is that of an entry of
`types` or `unknown`. -/
inductive WellFormed : Json → Prop
  | mk {fields types scope} (types_section : Section "types" fields types)
      (scope_section : Section "scope" fields scope)
      (descriptions : ∀ p ∈ types, Describes (Known types) p.2)
      (references : ∀ p ∈ scope, Refers (Known types) p.2) : WellFormed (.object fields)

/-! ## Readings that succeed -/

section
variable {α β γ : Type} {known : String → Prop}

/-- Does a reading succeed, and use known names only? -/
def Accepts (known : String → Prop) (x : Except CatalogError (α × List Use)) : Prop :=
  ∃ a uses, x = .ok (a, uses) ∧ ∀ u ∈ uses, known u.name

theorem accepts_ok {a : α} {uses : List Use} :
    Accepts known (.ok (a, uses)) ↔ ∀ u ∈ uses, known u.name := by
  constructor
  · rintro ⟨_, _, ⟨⟩, h⟩
    exact h
  · exact fun h => ⟨a, uses, rfl, h⟩

theorem accepts_error {e : CatalogError} : ¬Accepts known (.error e : Except _ (α × List Use)) := by
  rintro ⟨_, _, ⟨⟩, _⟩

/-- A check before a reading. -/
theorem accepts_bind {x : Except CatalogError β} {f : β → Except CatalogError (α × List Use)} :
    Accepts known (x >>= f) ↔ ∃ b, x = .ok b ∧ Accepts known (f b) := by
  cases x with
  | error e =>
    constructor
    · rintro ⟨_, _, ⟨⟩, _⟩
    · rintro ⟨_, ⟨⟩, _⟩
  | ok b =>
    constructor
    · exact fun h => ⟨b, rfl, h⟩
    · rintro ⟨_, ⟨⟩, h⟩
      exact h

/-- What is made of the result of a reading, with the same names used. -/
theorem accepts_map {f : α × List Use → β × List Use} {x : Except CatalogError (α × List Use)}
    (hf : ∀ r, (f r).2 = r.2) : Accepts known (x >>= fun r => pure (f r)) ↔ Accepts known x := by
  rw [accepts_bind]
  constructor
  · rintro ⟨r, hx, h⟩
    exact ⟨r.1, r.2, hx, hf r ▸ accepts_ok.1 h⟩
  · rintro ⟨a, uses, hx, h⟩
    exact ⟨(a, uses), hx, accepts_ok.2 (hf (a, uses) ▸ h)⟩

/-- One reading after another. -/
theorem accepts_both {f : α × List Use → β × List Use → γ × List Use}
    {x : Except CatalogError (α × List Use)} {y : Except CatalogError (β × List Use)}
    (hf : ∀ r s, (f r s).2 = r.2 ++ s.2) :
    Accepts known (x >>= fun r => y >>= fun s => pure (f r s)) ↔
      Accepts known x ∧ Accepts known y := by
  simp only [accepts_bind]
  constructor
  · rintro ⟨r, hx, s, hy, h⟩
    obtain ⟨hu, hu'⟩ := List.forall_mem_append.1 (hf r s ▸ accepts_ok.1 h)
    exact ⟨⟨r.1, r.2, hx, hu⟩, s.1, s.2, hy, hu'⟩
  · rintro ⟨⟨a, uses, hx, hu⟩, b, uses', hy, hu'⟩
    refine ⟨(a, uses), hx, (b, uses'), hy, accepts_ok.2 ?_⟩
    rw [hf]
    exact List.forall_mem_append.2 ⟨hu, hu'⟩

end

/-! ## Descriptions -/

variable {known : String → Prop} {path : String} {fields : List (String × Json)}

theorem typeName_ok {name : String} :
    typeName path fields = .ok name ↔ fields.lookup "type" = some (.string name) := by
  unfold typeName
  split
  · next s hs => simp [hs]
  · next hn =>
    constructor
    · rintro ⟨⟩
    · exact fun h => absurd h (hn name)

theorem flag_isOk (path : String) {name : String} :
    (∃ b, flag path name fields = .ok b) ↔
      ∀ j, fields.lookup name = some j → ∃ b, j = .bool b := by
  unfold flag
  split
  · next hn => simp [hn]
  · next b hb => simp [hb]
  · next j hj hb =>
    constructor
    · rintro ⟨_, ⟨⟩⟩
    · intro h
      obtain ⟨b, rfl⟩ := h j hb
      exact absurd rfl (hj b)

/-- Where a function's return type is looked for. -/
theorem readReturns_eq (path : String) (fields : List (String × Json)) :
    readReturns path fields =
      match fields.lookup "returnType" with
      | none => .ok (.named ShellType.unknownName, [⟨path ++ ".returnType", ShellType.unknownName⟩])
      | some (.string name) => .ok (.named name, [⟨path ++ ".returnType", name⟩])
      | some j => readType (path ++ ".returnType") j >>= fun r => pure (.type r.1, r.2) := by
  induction fields with
  | nil => rfl
  | cons p fields ih =>
    obtain ⟨field, j⟩ := p
    unfold readReturns
    by_cases hf : field = "returnType"
    · subst hf
      rw [if_pos rfl, List.lookup_cons_self]
      cases j <;> rfl
    · rw [if_neg hf, ih, List.lookup_cons, beq_false_of_ne (Ne.symm hf)]

/-- Where the attributes of an object type are looked for. -/
theorem findAttributes_eq (path : String) (fields : List (String × Json)) :
    findAttributes path fields =
      match fields.lookup "attributes" with
      | none => .ok ([], [])
      | some (.object attrs) => readAttributes path attrs
      | some _ => .error (.attributesNotAnObject path) := by
  induction fields with
  | nil => rfl
  | cons p fields ih =>
    obtain ⟨field, j⟩ := p
    unfold findAttributes
    by_cases hf : field = "attributes"
    · subst hf
      rw [if_pos rfl, List.lookup_cons_self]
      cases j <;> rfl
    · rw [if_neg hf, ih, List.lookup_cons, beq_false_of_ne (Ne.symm hf)]

theorem refers_string {name : String} : Refers known (.string name) ↔ known name := by
  constructor
  · rintro (h | ⟨⟨⟩⟩)
    exact h
  · exact .name

theorem refers_iff_describes {j : Json} (h : ∀ name, j ≠ .string name) :
    Refers known j ↔ Describes known j := by
  constructor
  · rintro (_ | hj)
    · exact absurd rfl (h _)
    · exact hj
  · exact .description

mutual

/-- What is read as a description is one, in whatever place it stands. -/
theorem accepts_readType (hk : known ShellType.unknownName) {path : String} :
    ∀ {j : Json}, Accepts known (readType path j) ↔ Describes known j
  | .object fields => by
    have hreturns : Accepts known (readReturns path fields) ↔ _ := accepts_readReturns hk
    have hattrs : Accepts known (findAttributes path fields) ↔ _ := accepts_findAttributes hk
    simp only [readType, accepts_bind, typeName_ok]
    constructor
    · rintro ⟨name, hname, h⟩
      split at h
      · next hf =>
        subst hf
        obtain ⟨promise, hp, h⟩ := accepts_bind.1 h
        exact .function hname ((flag_isOk _).1 ⟨promise, hp⟩)
          (hreturns.1 ((accepts_map (by simp)).1 h))
      · next hf =>
        obtain ⟨asyncChild, ha, h⟩ := accepts_bind.1 h
        obtain ⟨hl, hr⟩ := hattrs.1 ((accepts_map (by simp)).1 h)
        exact .object hname hf ((flag_isOk _).1 ⟨asyncChild, ha⟩) hl hr
    · rintro (⟨hname, hp, hr⟩ | ⟨hname, hf, ha, hl, hr⟩)
      · obtain ⟨promise, hp⟩ := (flag_isOk path).2 hp
        refine ⟨_, hname, ?_⟩
        rw [if_pos rfl, accepts_bind]
        exact ⟨promise, hp, (accepts_map (by simp)).2 (hreturns.2 hr)⟩
      · obtain ⟨asyncChild, ha⟩ := (flag_isOk path).2 ha
        refine ⟨_, hname, ?_⟩
        rw [if_neg hf, accepts_bind]
        exact ⟨asyncChild, ha, (accepts_map (by simp)).2 (hattrs.2 ⟨hl, hr⟩)⟩
  | .null | .bool _ | .number _ | .string _ | .array _ => iff_of_false accepts_error nofun

theorem accepts_readReturns (hk : known ShellType.unknownName) {path : String} :
    ∀ {fields : List (String × Json)}, Accepts known (readReturns path fields) ↔
      ∀ j, fields.lookup "returnType" = some j → Refers known j
  | [] => iff_of_true (accepts_ok.2 (List.forall_mem_singleton.2 hk)) nofun
  | (field, j) :: fields => by
    unfold readReturns
    by_cases hf : field = "returnType"
    · subst hf
      simp only [if_true, List.lookup_cons_self, Option.some.injEq, forall_eq']
      split
      · rw [accepts_ok, List.forall_mem_singleton, refers_string]
      · next hj =>
        rw [refers_iff_describes hj, ← accepts_readType hk]
        exact accepts_map (by simp)
    · rw [if_neg hf, List.lookup_cons, beq_false_of_ne (Ne.symm hf)]
      exact accepts_readReturns hk

theorem accepts_findAttributes (hk : known ShellType.unknownName) {path : String} :
    ∀ {fields : List (String × Json)}, Accepts known (findAttributes path fields) ↔
      (∀ j, fields.lookup "attributes" = some j → ∃ attrs, j = .object attrs) ∧
        ∀ attrs, fields.lookup "attributes" = some (.object attrs) →
          ∀ p ∈ attrs, Refers known p.2
  | [] => iff_of_true (accepts_ok.2 (List.forall_mem_nil _)) ⟨nofun, nofun⟩
  | (field, j) :: fields => by
    unfold findAttributes
    by_cases hf : field = "attributes"
    · subst hf
      simp only [if_true, List.lookup_cons_self, Option.some.injEq, forall_eq']
      split
      · next attrs =>
        rw [accepts_readAttributes hk]
        constructor
        · rintro h
          refine ⟨⟨attrs, rfl⟩, ?_⟩
          rintro _ ⟨⟩
          exact h
        · exact fun h => h.2 attrs rfl
      · next hj =>
        refine iff_of_false accepts_error ?_
        rintro ⟨⟨attrs, rfl⟩, -⟩
        exact hj attrs rfl
    · rw [if_neg hf, List.lookup_cons, beq_false_of_ne (Ne.symm hf)]
      exact accepts_findAttributes hk

theorem accepts_readAttributes (hk : known ShellType.unknownName) {path : String} :
    ∀ {attrs : List (String × Json)}, Accepts known (readAttributes path attrs) ↔
      ∀ p ∈ attrs, Refers known p.2
  | [] => iff_of_true (accepts_ok.2 (List.forall_mem_nil _)) (List.forall_mem_nil _)
  | (attr, .string name) :: attrs => by
    have hattrs : Accepts known (readAttributes path attrs) ↔ _ := accepts_readAttributes hk
    rw [List.forall_mem_cons, ← hattrs, refers_string, readAttributes]
    constructor
    · intro h
      obtain ⟨⟨rest, uses⟩, hrest, h⟩ := accepts_bind.1 h
      obtain ⟨hname, huses⟩ := List.forall_mem_cons.1 (accepts_ok.1 h)
      exact ⟨hname, rest, uses, hrest, huses⟩
    · rintro ⟨hname, rest, uses, hrest, huses⟩
      exact accepts_bind.2 ⟨(rest, uses), hrest,
        accepts_ok.2 (List.forall_mem_cons.2 ⟨hname, huses⟩)⟩
  | (attr, .object fields) :: attrs => by
    have hattrs : Accepts known (readAttributes path attrs) ↔ _ := accepts_readAttributes hk
    rw [List.forall_mem_cons, ← hattrs, refers_iff_describes (fun _ h => Json.noConfusion h),
      ← accepts_readType hk, readAttributes]
    · exact accepts_both (by simp)
    · exact fun _ h => Json.noConfusion h
  | (_, .null) :: _ | (_, .bool _) :: _ | (_, .number _) :: _ | (_, .array _) :: _ => by
    refine iff_of_false ?_ ?_
    · simp only [readAttributes, readType, accepts_bind]
      rintro ⟨_, ⟨⟩, _⟩
    · intro h
      cases (List.forall_mem_cons.1 h).1 with
      | description h => cases h

end

/-! ## Sections -/

variable {entries types : List (String × Json)} {r : Registry}

theorem readSection_ok {name : String} :
    readSection name fields = .ok entries ↔ Section name fields entries := by
  unfold readSection
  constructor
  · intro h
    split at h
    · cases h
      exact .missing ‹_›
    · cases h
      exact .present ‹_›
    · cases h
  · rintro (h | h) <;> rw [h]

theorem accepts_readEntries (hk : known ShellType.unknownName) :
    Accepts known (readEntries entries) ↔ ∀ p ∈ entries, Describes known p.2 := by
  induction entries with
  | nil => exact iff_of_true (accepts_ok.2 (List.forall_mem_nil _)) (List.forall_mem_nil _)
  | cons p entries ih =>
    rw [List.forall_mem_cons, ← ih, ← accepts_readType hk, readEntries]
    exact accepts_both (by simp)

/-- Entries that are read keep their names. -/
theorem names_readEntries {ts : Bindings ShellType} {uses : List Use}
    (h : readEntries entries = .ok (ts, uses)) : ts.names = entries.map (·.1) := by
  induction entries generalizing ts uses with
  | nil =>
    cases h
    rfl
  | cons p entries ih =>
    obtain ⟨⟨t, _⟩, -, ⟨rest, _⟩, hrest, h⟩ := by simpa only [readEntries, bind_ok] using h
    cases h
    exact congrArg (p.1 :: ·) (ih hrest)

theorem readEntries_append {entries' : List (String × Json)} {ts ts' : Bindings ShellType}
    {uses uses' : List Use} (h : readEntries entries = .ok (ts, uses))
    (h' : readEntries entries' = .ok (ts', uses')) :
    readEntries (entries ++ entries') = .ok (ts ++ ts', uses ++ uses') := by
  induction entries generalizing ts uses with
  | nil =>
    cases h
    exact h'
  | cons p entries ih =>
    obtain ⟨⟨t, us⟩, ht, ⟨rest, us'⟩, hrest, h⟩ := by simpa only [readEntries, bind_ok] using h
    cases h
    simp only [List.cons_append, readEntries, bind_ok]
    exact ⟨(t, us), ht, (rest ++ ts', us' ++ uses'), ih hrest, by simp [pure, Except.pure]⟩

theorem checkUse_ok {u : Use} : checkUse r u = .ok () ↔ r.revisions.binds u.name := by
  unfold checkUse
  split <;> simp [*]

/-- The uses of `scope` are all checked, the names that stand there in place. -/
theorem accepts_readScope (hk : known ShellType.unknownName)
    (hr : ∀ name, r.revisions.binds name ↔ known name) :
    Accepts known (readScope r entries) ↔ ∀ p ∈ entries, Refers known p.2 := by
  induction entries with
  | nil => exact iff_of_true (accepts_ok.2 (List.forall_mem_nil _)) (List.forall_mem_nil _)
  | cons p entries ih =>
    unfold readScope
    split
    · cases ‹p :: entries = []›
    · next name s _ hp =>
      cases hp
      rw [List.forall_mem_cons, ← ih, refers_string, ← hr, accepts_bind]
      constructor
      · rintro ⟨_, hn, h⟩
        exact ⟨checkUse_ok.1 hn, (accepts_map (by simp)).1 h⟩
      · rintro ⟨hn, h⟩
        exact ⟨(), checkUse_ok.2 hn, (accepts_map (by simp)).2 h⟩
    · next hs hp =>
      cases hp
      rw [List.forall_mem_cons, ← ih, refers_iff_describes hs, ← accepts_readType hk]
      exact accepts_both (by simp)

theorem Describes.checkEntry {j : Json} (h : Describes known j) :
    ∃ b, Catalog.checkEntry path j = .ok b := by
  rcases h with ⟨hname, -, -⟩ | ⟨hname, hf, ha, -, -⟩
  · refine ⟨true, bind_ok.2 ⟨_, typeName_ok.2 hname, ?_⟩⟩
    rw [if_pos rfl]
    rfl
  · obtain ⟨asyncChild, ha⟩ := (flag_isOk path).2 ha
    refine ⟨false, bind_ok.2 ⟨_, typeName_ok.2 hname, ?_⟩⟩
    rw [if_neg hf]
    exact bind_ok.2 ⟨asyncChild, ha, rfl⟩

theorem checkUses_ok {uses : List Use} :
    (forIn uses PUnit.unit fun u _ => do checkUse r u; pure (.yield PUnit.unit) :
      Except CatalogError PUnit) = .ok .unit ↔ Used r uses := by
  refine ⟨used_of_checkUse, fun h => ?_⟩
  induction uses with
  | nil => rfl
  | cons u uses ih =>
    obtain ⟨hu, h⟩ := List.forall_mem_cons.1 h
    rw [List.forIn_cons]
    exact bind_ok.2 ⟨_, bind_ok.2 ⟨(), checkUse_ok.2 hu, rfl⟩, ih h⟩

/-- The names of a registry are those of its types, and `unknown`. -/
theorem binds_ofTypes {ts : Bindings ShellType} {name : String} :
    (Registry.ofTypes ts).revisions.binds name ↔
      name = ShellType.unknownName ∨ name ∈ ts.names := by
  have henter (r : Registry) (m : String) (t : ShellType) :
      (r.enter m t).revisions.binds name ↔ name = m ∨ r.revisions.binds name := by
    unfold Registry.enter Bindings.binds
    rw [Bindings.get?_put]
    by_cases hm : m = name
    · simp [hm]
    · simp [hm, Ne.symm hm]
  have hfold (r : Registry) : (ts.foldl (fun r p => r.enter p.1 p.2) r).revisions.binds name ↔
      name ∈ ts.names ∨ r.revisions.binds name := by
    induction ts generalizing r with
    | nil => simp [Bindings.names]
    | cons p ts ih =>
      rw [List.foldl_cons, ih, henter]
      simp only [Bindings.names, List.map_cons, List.mem_cons]
      tauto
  have hempty : ¬(⟨[]⟩ : Registry).revisions.binds name := by simp [Bindings.binds, Bindings.get?]
  unfold Registry.ofTypes
  dsimp only
  split
  · next h =>
    rw [hfold, or_iff_left hempty, iff_or_self]
    rintro rfl
    exact ((hfold _).1 h).resolve_right hempty
  · rw [henter, hfold, or_iff_left hempty]

/-- The entries that are no functions, and then those that are, are all the entries. -/
theorem split_perm : ∀ (types : List (String × Json)) (isFunction : List Bool),
    types.length = isFunction.length →
    (((types.zip isFunction).filterMap fun p => if p.2 then none else some p.1) ++
      ((types.zip isFunction).filterMap fun p => if p.2 then some p.1 else none)).Perm types
  | [], _, _ => .nil
  | p :: types, true :: isFunction, h => by
    have ih := split_perm types isFunction (Nat.succ.inj h)
    simpa using List.perm_middle.trans (ih.cons p)
  | p :: types, false :: isFunction, h => by
    have ih := split_perm types isFunction (Nat.succ.inj h)
    simpa using ih.cons p

/-! ## Catalogs -/

/-- What a catalog that is accepted is read as; in which order its entries are read is left open. -/
inductive Loads : Json → SymbolTable → Prop
  | mk {fields types scope entries ts uses frame uses'} (types_section : Section "types" fields types)
      (scope_section : Section "scope" fields scope) (order : entries.Perm types)
      (types_read : readEntries entries = .ok (ts, uses))
      (scope_read : readScope (.ofTypes ts) scope = .ok (frame, uses'))
      (used : Used (.ofTypes ts) (uses ++ uses')) :
      Loads (.object fields) (.ofScope (.ofTypes ts) frame)

variable {j : Json} {t : SymbolTable}

theorem loads_of_loadCatalog (h : loadCatalog j = .ok t) : Loads j t := by
  cases j with
  | object fields =>
    simp only [loadCatalog, bind_ok] at h
    obtain ⟨types, htypes, scope, hscope, isFunction, hf, ⟨functionTypes, uses₁⟩, h₁,
      ⟨objectTypes, uses₂⟩, h₂, ⟨frame, uses₃⟩, hs, u, hu, h⟩ := h
    cases h
    have hlength := (mapM_ok.1 hf).length_eq
    refine .mk (readSection_ok.1 htypes) (readSection_ok.1 hscope) (split_perm types isFunction hlength)
      (readEntries_append h₂ h₁) hs ?_
    have hu := used_of_checkUse hu
    simp only [Used, List.forall_mem_append] at hu ⊢
    exact ⟨⟨hu.1.2, hu.1.1⟩, hu.2⟩
  | _ => cases h

/-- The names that a catalog with these entries under `types` registers. -/
theorem binds_iff_known {entries types : List (String × Json)} {ts : Bindings ShellType}
    {uses : List Use} (horder : entries.Perm types) (h : readEntries entries = .ok (ts, uses))
    (name : String) : (Registry.ofTypes ts).revisions.binds name ↔ Known types name := by
  rw [binds_ofTypes, names_readEntries h, Known, (horder.map _).mem_iff]

theorem WellFormed.of_loads (h : Loads j t) : WellFormed j := by
  obtain ⟨htypes, hscope, horder, hread, hscoperead, hused⟩ := h
  have hknown := binds_iff_known horder hread
  obtain ⟨hu, hu'⟩ := List.forall_mem_append.1 hused
  refine .mk htypes hscope (fun p hp => ?_) ?_
  · exact (accepts_readEntries (.inl rfl)).1
      ⟨_, _, hread, fun u h => (hknown u.name).1 (hu u h)⟩ p (horder.mem_iff.2 hp)
  · exact (accepts_readScope (.inl rfl) hknown).1
      ⟨_, _, hscoperead, fun u h => (hknown u.name).1 (hu' u h)⟩

theorem WellFormed.loadCatalog (h : WellFormed j) : ∃ t, AutoAwait.loadCatalog j = .ok t := by
  obtain ⟨htypes, hscope, hdescriptions, hreferences⟩ := h
  rename_i fields types scope
  obtain ⟨isFunction, hf⟩ : ∃ bs, types.mapM (fun p => checkEntry ("types." ++ p.1) p.2) = .ok bs :=
    mapM_isOk fun p hp => (hdescriptions p hp).checkEntry
  have horder := split_perm types isFunction (mapM_ok.1 hf).length_eq
  set objects := (types.zip isFunction).filterMap fun p => if p.2 then none else some p.1
  set functions := (types.zip isFunction).filterMap fun p => if p.2 then some p.1 else none
  obtain ⟨ho, hfs⟩ := List.forall_mem_append.1 fun p hp => hdescriptions p (horder.mem_iff.1 hp)
  obtain ⟨objectTypes, objectUses, hreado, huo⟩ := (accepts_readEntries (.inl rfl)).2 ho
  obtain ⟨functionTypes, functionUses, hreadf, huf⟩ := (accepts_readEntries (.inl rfl)).2 hfs
  have hknown := binds_iff_known horder (readEntries_append hreado hreadf)
  obtain ⟨frame, scopeUses, hreads, hus⟩ := (accepts_readScope (.inl rfl) hknown).2 hreferences
  have hused : Used (.ofTypes (objectTypes ++ functionTypes))
      (functionUses ++ objectUses ++ scopeUses) := by
    simp only [Used, List.forall_mem_append, hknown]
    exact ⟨⟨huf, huo⟩, hus⟩
  refine ⟨.ofScope (.ofTypes (objectTypes ++ functionTypes)) frame, ?_⟩
  simp only [AutoAwait.loadCatalog, bind_ok]
  exact ⟨types, readSection_ok.2 htypes, scope, readSection_ok.2 hscope, isFunction, hf,
    (functionTypes, functionUses), hreadf, (objectTypes, objectUses), hreado,
    (frame, scopeUses), hreads, .unit, checkUses_ok.2 hused, rfl⟩

end Catalog

open Catalog in
/-- A JSON value is accepted as a catalog if and only if it is well formed. -/
theorem loadCatalog_isOk_iff {j : Json} : (∃ t, loadCatalog j = .ok t) ↔ WellFormed j :=
  ⟨fun ⟨_, h⟩ => .of_loads (loads_of_loadCatalog h), WellFormed.loadCatalog⟩

end AutoAwait
