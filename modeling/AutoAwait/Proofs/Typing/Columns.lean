import AutoAwait.Proofs.Typing.Lookups

/-!
# The column of a name

What the frames of a table bind one name to, the innermost frame first, is the name's column. Each
step on a table does to the column of a name what can be told from the column alone; so two tables
can be compared name by name, while the same names are bound in both.

* `SymbolTable.shows` is the type of a name, and `SymbolTable.updated` what assigning to the name
  does to its column;
* `Lockstep` lists what a relation between columns has to keep, `SymbolTable.Paired` relates two
  tables by such a relation.
-/

namespace AutoAwait

namespace SymbolTable

variable {t u t' u' : SymbolTable} {name : String} {ref : TypeRef}

/-! ## The column of one name -/

/-- What the innermost frame that binds a name binds it to. -/
def visible (column : List (Option TypeRef)) : Option TypeRef := column.findSome? id

/-- The column of a name that is bound anew in the innermost frame that binds it. -/
def rebound (ref : TypeRef) : List (Option TypeRef) → List (Option TypeRef)
  | [] => []
  | some _ :: column => some ref :: column
  | none :: column => none :: rebound ref column

/-- The column of a name that has been assigned to. -/
def updated (ref : TypeRef) (column : List (Option TypeRef)) : List (Option TypeRef) :=
  if (visible column).isSome then rebound ref column else some ref :: column.tail

theorem find?_eq_visible (name : String) (fs : List Frame) :
    find? name fs = visible (fs.map (·.get? name)) := by
  rw [find?, visible, List.findSome?_map]
  rfl

/-- The type that a name with a given column has. -/
def shows (r : Registry) (column : List (Option TypeRef)) : ShellType :=
  r.resolve ((visible column).getD (.type r.unknown))

theorem lookupType_eq_shows (t : SymbolTable) (name : String) :
    t.lookupType name = shows t.registry (t.column name) := by
  rw [lookupType, lookup, find?_eq_visible]
  rfl

theorem column_pop {f : Frame} (h : t.pop = .ok (f, u)) (name : String) :
    t.column name = f.get? name :: u.column name := by
  rw [column, column, (pop_ok h).2, List.map_cons]

theorem column_declare_self (h : t.declare name ref = .ok u) :
    ∃ r column, t.column name = r :: column ∧ u.column name = some ref :: column := by
  unfold declare at h
  split at h
  · cases h
  · next f fs hf =>
    cases h
    refine ⟨f.get? name, fs.map (·.get? name), by rw [column, hf, List.map_cons], ?_⟩
    rw [column, List.map_cons, Bindings.get?_put, if_pos rfl]

/-- Binding a name anew where it is bound, in terms of its column. -/
theorem map_rebind (name : String) (ref : TypeRef) (fs : List Frame) :
    (rebind name ref fs).map (·.map (·.get? name)) =
      if (visible (fs.map (·.get? name))).isSome then some (rebound ref (fs.map (·.get? name)))
      else none := by
  induction fs with
  | nil => rfl
  | cons f fs ih =>
    rw [rebind, List.map_cons]
    cases hf : f.get? name with
    | some r =>
      rw [if_pos (by rw [Bindings.binds, hf]; rfl), Option.map_some, List.map_cons, Bindings.get?_put,
        if_pos rfl]
      rfl
    | none =>
      have hv : visible (none :: fs.map (·.get? name)) = visible (fs.map (·.get? name)) := rfl
      have hm : ((rebind name ref fs).map (f :: ·)).map (·.map (·.get? name)) =
          ((rebind name ref fs).map (·.map (·.get? name))).map (none :: ·) := by
        rw [Option.map_map, Option.map_map]
        congr 1
        funext gs
        rw [Function.comp, Function.comp, List.map_cons, hf]
      rw [if_neg (by simp [Bindings.binds, hf]), hm, ih, hv]
      split <;> rfl

theorem column_update_self (h : t.update name ref = .ok u) :
    u.column name = updated ref (t.column name) := by
  have hc : (rebind name ref t.frames).map (·.map (·.get? name)) =
      if (visible (t.column name)).isSome then some (rebound ref (t.column name)) else none :=
    map_rebind name ref t.frames
  unfold update at h
  rw [updated]
  split at hc
  · next hv =>
    obtain ⟨gs, hg, hcol⟩ := Option.map_eq_some_iff.1 hc
    rw [hg] at h
    cases h
    rw [if_pos hv]
    exact hcol
  · next hv =>
    rw [Option.map_eq_none_iff.1 hc] at h
    obtain ⟨r, column, ht, hu⟩ := column_declare_self h
    rw [if_neg hv, hu, ht, List.tail_cons]

end SymbolTable

/-! ## Relations between columns -/

open SymbolTable (shows updated)

/-- What may relate two columns of a name, given the names that a program has bound by then. -/
abbrev ColumnRel := Scopes → String → List (Option TypeRef) → List (Option TypeRef) → Prop

/-- A relation between what two tables over a registry bind a name to, that opening and closing a
scope and binding a name in both tables keep. Names that `Sees` holds of have one type in both. -/
structure Lockstep (r : Registry) (Sees : Scopes → String → Prop) (C : ColumnRel) : Prop where
  sees : ∀ {s z a b}, C s z a b → Sees s z → shows r b = shows r a
  push : ∀ {s z a b}, C s z a b → C ([] :: s) z (none :: a) (none :: b)
  pop : ∀ {s z x y a b}, C s z (x :: a) (y :: b) → C (s.drop 1) z a b
  declare : ∀ {s z x y a b}, C s z (x :: a) (y :: b) → ∀ ref,
    C (Scopes.bind s z) z (some ref :: a) (some ref :: b)
  update : ∀ {s z a b}, C s z a b → ∀ ref,
    C (Scopes.assign s z) z (updated ref a) (updated ref b)
  other : ∀ {s z a b}, C s z a b → ∀ w, w ≠ z → C (Scopes.bind s w) z a b

variable {r : Registry} {Sees : Scopes → String → Prop} {C : ColumnRel}

namespace Lockstep

/-- Two relations that are kept are kept together. -/
theorem and {Sees' : Scopes → String → Prop} {C' : ColumnRel} (hC : Lockstep r Sees C)
    (hC' : Lockstep r Sees' C') :
    Lockstep r (fun s z => Sees s z ∨ Sees' s z) (fun s z a b => C s z a b ∧ C' s z a b) where
  sees h hs := hs.elim (hC.sees h.1) (hC'.sees h.2)
  push h := ⟨hC.push h.1, hC'.push h.2⟩
  pop h := ⟨hC.pop h.1, hC'.pop h.2⟩
  declare h ref := ⟨hC.declare h.1 ref, hC'.declare h.2 ref⟩
  update h ref := ⟨hC.update h.1 ref, hC'.update h.2 ref⟩
  other h w hw := ⟨hC.other h.1 w hw, hC'.other h.2 w hw⟩

theorem assign_other (hC : Lockstep r Sees C) {s : Scopes} {z w : String}
    {a b : List (Option TypeRef)} (h : C s z a b) (hw : w ≠ z) : C (Scopes.assign s w) z a b := by
  unfold Scopes.assign
  split
  · exact h
  · exact hC.other h w hw

end Lockstep

namespace SymbolTable

/-- Two tables over one registry, with as many frames, and with related columns for every name. -/
structure Paired (r : Registry) (C : ColumnRel) (s : Scopes) (t u : SymbolTable) : Prop where
  registry : t.registry = r ∧ u.registry = r
  depth : u.depth = t.depth
  columns : ∀ z, C s z (t.column z) (u.column z)

namespace Paired

variable {s : Scopes} {t u t' u' : SymbolTable} {name : String} {ref : TypeRef}

theorem push (hC : Lockstep r Sees C) (h : Paired r C s t u) : Paired r C ([] :: s) t.push u.push where
  registry := h.registry
  depth := by rw [depth_push, depth_push, h.depth]
  columns z := hC.push (h.columns z)

theorem pop {f g : Frame} (hC : Lockstep r Sees C) (h : Paired r C s t u) (ht : t.pop = .ok (f, t'))
    (hu : u.pop = .ok (g, u')) : Paired r C (s.drop 1) t' u' := by
  obtain ⟨hrt, hft⟩ := pop_ok ht
  obtain ⟨hru, hfu⟩ := pop_ok hu
  refine ⟨⟨hrt.symm.trans h.registry.1, hru.symm.trans h.registry.2⟩, ?_, fun z => ?_⟩
  · have hd := h.depth
    rw [SymbolTable.depth, SymbolTable.depth, hft, hfu] at hd
    exact Nat.succ.inj hd
  · have hc := h.columns z
    rw [column_pop ht, column_pop hu] at hc
    exact hC.pop hc

theorem declare (hC : Lockstep r Sees C) (h : Paired r C s t u) (ht : t.declare name ref = .ok t')
    (hu : u.declare name ref = .ok u') : Paired r C (Scopes.bind s name) t' u' where
  registry :=
    ⟨(bound_of_declare ht).1.trans h.registry.1, (bound_of_declare hu).1.trans h.registry.2⟩
  depth := by rw [(bound_of_declare ht).depth, (bound_of_declare hu).depth, h.depth]
  columns z := by
    by_cases hz : name = z
    · subst hz
      obtain ⟨x, a, hx, hx'⟩ := column_declare_self ht
      obtain ⟨y, b, hy, hy'⟩ := column_declare_self hu
      have hc := h.columns name
      rw [hx, hy] at hc
      rw [hx', hy']
      exact hC.declare hc ref
    · rw [column_declare ht hz, column_declare hu hz]
      exact hC.other (h.columns z) name hz

theorem update (hC : Lockstep r Sees C) (h : Paired r C s t u) (ht : t.update name ref = .ok t')
    (hu : u.update name ref = .ok u') : Paired r C (Scopes.assign s name) t' u' where
  registry :=
    ⟨(bound_of_update ht).1.trans h.registry.1, (bound_of_update hu).1.trans h.registry.2⟩
  depth := by rw [(bound_of_update ht).depth, (bound_of_update hu).depth, h.depth]
  columns z := by
    by_cases hz : name = z
    · subst hz
      rw [column_update_self ht, column_update_self hu]
      exact hC.update (h.columns name) ref
    · rw [column_update ht hz, column_update hu hz]
      exact hC.assign_other (h.columns z) hz

end Paired

/-- Two steps that end alike: with the same error, or both with a result. -/
def EndAlike {α : Type} (x y : Except ScopeError α) : Prop :=
  (∃ e, x = .error e ∧ y = .error e) ∨ ∃ a b, x = .ok a ∧ y = .ok b

section endAlike
variable {t u : SymbolTable} (h : u.depth = t.depth)
include h

/-- Of two tables with as many frames, both have a frame or neither has. -/
theorem frames_alike :
    (t.frames = [] ∧ u.frames = []) ∨ ∃ f fs g gs, t.frames = f :: fs ∧ u.frames = g :: gs := by
  unfold SymbolTable.depth at h
  cases ht : t.frames with
  | nil =>
    rw [ht] at h
    exact .inl ⟨rfl, List.length_eq_zero_iff.1 h⟩
  | cons f fs =>
    cases hu : u.frames with
    | nil =>
      rw [ht, hu] at h
      cases h
    | cons g gs => exact .inr ⟨f, fs, g, gs, rfl, rfl⟩

theorem pop_alike : EndAlike t.pop u.pop := by
  rcases frames_alike h with ⟨ht, hu⟩ | ⟨f, fs, g, gs, ht, hu⟩
  · left
    exact ⟨.noFrameToPop, by rw [SymbolTable.pop, ht], by rw [SymbolTable.pop, hu]⟩
  · right
    exact ⟨_, _, by rw [SymbolTable.pop, ht], by rw [SymbolTable.pop, hu]⟩

theorem declare_alike (name : String) (ref : TypeRef) :
    EndAlike (t.declare name ref) (u.declare name ref) := by
  rcases frames_alike h with ⟨ht, hu⟩ | ⟨f, fs, g, gs, ht, hu⟩
  · left
    exact ⟨.noFrameFor name, by rw [SymbolTable.declare, ht], by rw [SymbolTable.declare, hu]⟩
  · right
    exact ⟨_, _, by rw [SymbolTable.declare, ht], by rw [SymbolTable.declare, hu]⟩

theorem update_alike (name : String) (ref : TypeRef) :
    EndAlike (t.update name ref) (u.update name ref) := by
  have hok : ∀ {t : SymbolTable} {f fs}, t.frames = f :: fs → ∃ t', t.update name ref = .ok t' := by
    intro t f fs ht
    unfold SymbolTable.update
    split
    · exact ⟨_, rfl⟩
    · exact ⟨_, by rw [SymbolTable.declare, ht]⟩
  rcases frames_alike h with ⟨ht, hu⟩ | ⟨f, fs, g, gs, ht, hu⟩
  · left
    refine ⟨.noFrameFor name, ?_, ?_⟩
    · rw [SymbolTable.update, ht, SymbolTable.rebind, SymbolTable.declare, ht]
    · rw [SymbolTable.update, hu, SymbolTable.rebind, SymbolTable.declare, hu]
  · right
    obtain ⟨t', ht'⟩ := hok ht
    obtain ⟨u', hu'⟩ := hok hu
    exact ⟨t', u', ht', hu'⟩

end endAlike

end SymbolTable

end AutoAwait
