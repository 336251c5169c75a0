import AutoAwait.Proofs.Typing.Fresh
import Mathlib.Data.Fintype.EquivFin

/-!
# The pass within a scope

A node that opens a frame stands somewhere in a program, and a declarator stands somewhere in it. The
frames that were open when the pass came to the node lie around the scope, those above them within it.

* `SymbolTable.around` are the frames around a scope, `SymbolTable.within` those within it;
* `Typing.around_walk_declarator` is what a declarator does to the frames around;
* `Typing.walk_scope_marks` says that no name is bound around a scope that was not bound there;
* `Typing.column_around` is what shelters the names of a scope from those around it.
-/

namespace AutoAwait

/-! ## Frames around a scope -/

namespace SymbolTable

variable {t u : SymbolTable} {name : String} {ref : TypeRef} {d : Nat}

/-- The lowest frames, as many as are given. -/
def around (t : SymbolTable) (d : Nat) : List Frame := t.frames.drop (t.depth - d)

/-- The frames above the lowest ones. -/
def within (t : SymbolTable) (d : Nat) : List Frame := t.frames.take (t.depth - d)

theorem within_append_around (t : SymbolTable) (d : Nat) : t.within d ++ t.around d = t.frames :=
  List.take_append_drop ..

theorem length_around (h : d ≤ t.depth) : (t.around d).length = d := by
  rw [around, List.length_drop]
  exact Nat.sub_sub_self h

/-- Frames that lie below others are the lowest ones. -/
theorem around_of_frames {fs gs : List Frame} (h : t.frames = fs ++ gs) :
    t.around gs.length = gs := by
  rw [around, depth, h, List.length_append, Nat.add_sub_cancel, List.drop_left]

/-- A name is bound anew in the upper frames if one of them binds it, else in the lower ones. -/
theorem rebind_append (name : String) (ref : TypeRef) (fs gs : List Frame) :
    rebind name ref (fs ++ gs) =
      if fs.any (·.binds name) then (rebind name ref fs).map (· ++ gs)
      else (rebind name ref gs).map (fs ++ ·) := by
  induction fs with
  | nil => simp
  | cons f fs ih =>
    rw [List.cons_append, rebind, rebind, ih, List.any_cons]
    by_cases hf : f.binds name
    · simp [hf]
    · rw [if_neg hf, if_neg hf, Bool.eq_false_iff.2 hf, Bool.false_or]
      split <;> simp [Function.comp_def]

theorem length_rebind {fs gs : List Frame} (h : rebind name ref fs = some gs) :
    gs.length = fs.length := by
  simpa using congrArg List.length (names_rebind h).1

/-- **Binding a name and the frames around.** These change only if one of them binds the name and none
of the others does. -/
theorem around_update (h : t.update name ref = .ok u) (hd : d < t.depth) :
    u.around d = if (t.within d).any (·.binds name) then t.around d
      else (rebind name ref (t.around d)).getD (t.around d) := by
  have hl := length_around (Nat.le_of_lt hd)
  have hne : t.within d ≠ [] := by
    rw [within, ne_eq, List.take_eq_nil_iff, not_or, ← List.length_eq_zero_iff]
    exact ⟨Nat.sub_ne_zero_of_lt hd, Nat.ne_of_gt (Nat.lt_of_le_of_lt (Nat.zero_le d) hd)⟩
  have ht := within_append_around t d
  generalize t.within d = above at ht hne
  generalize t.around d = below at ht hl
  subst hl
  rw [update, ← ht, rebind_append] at h
  split
  · next hb =>
    rw [if_pos hb] at h
    cases hr : rebind name ref above with
    | none =>
      have hbinds : Binds { t with frames := above } name := by
        simpa [Binds, marks, List.any_eq_true] using hb
      obtain ⟨fs, hfs⟩ := rebind_of_binds ref hbinds
      cases hr.symm.trans hfs
    | some fs =>
      rw [hr] at h
      cases h
      exact around_of_frames rfl
  · next hb =>
    rw [if_neg hb] at h
    cases hr : rebind name ref below with
    | none =>
      rw [hr] at h
      obtain ⟨f, fs, rfl⟩ := List.exists_cons_of_ne_nil hne
      rw [Option.map_none, declare, ← ht] at h
      cases h
      exact around_of_frames (show _ = (f.put name ref :: fs) ++ below from rfl)
    | some gs =>
      rw [hr] at h
      cases h
      rw [← length_rebind hr]
      exact around_of_frames rfl

end SymbolTable

namespace Typing

variable {again : Place → Node → StateM Typing Node}
variable {p q : Typing} {n m c k : Node} {place : Place} {path : Path} {slot : Slot}
variable {x y name : String} {col : List (Option TypeRef)} {i : Nat}

/-! ## A declarator -/

theorem depth_descended (h : (n.walk visitor again place p).2.failure = none) :
    (descended again n p).2.table.depth = p.table.depth + framesOf n.kind := by
  obtain ⟨hp, hq, -⟩ := walk_ok h
  rw [← enter_depth n hp]
  exact ((carried_depth.parts (fun k _ slot q => carried_depth.walk k _ q) _).1 hq).2

/-- **A declarator and the frames around a scope.** The declarator binds its name to the type of its
value: in the frames around if one of them binds the name and none within does. -/
theorem around_walk_declarator {d : Nat} (hn : n.declaredName? = some name)
    (h : (n.walk visitor again place p).2.failure = none) (hd : d < p.table.depth) :
    let q := (descended again n p).2
    (n.walk visitor again place p).2.table.around d =
      if (q.table.within d).any (·.binds name) then q.table.around d
      else (SymbolTable.rebind name (.type (q.typeOf (descended again n p).1.initializer?))
        (q.table.around d)).getD (q.table.around d) := by
  refine SymbolTable.around_update (walk_declarator hn h) ?_
  rw [depth_descended h]
  exact Nat.lt_add_right _ hd

/-! ## Leaving a scope -/

/-- While the pass walks over parts, the innermost frame can come to bind more names, and the others
cannot. -/
theorem walkParts_boundNames (hd : 0 < p.table.depth)
    (h : (walkParts again n p).2.failure = none) :
    ∃ new, (walkParts again n p).2.table.boundNames = extendTop p.table.boundNames new := by
  rw [walkParts_snd] at h ⊢
  generalize n.shape.kids = ks at h ⊢
  induction ks generalizing p with
  | nil => exact ⟨[], (extendTop_nil _).symm⟩
  | cons k ks ih =>
    rw [Shape.mapM_cons_run] at h ⊢
    obtain ⟨hs, hdepth⟩ := walk_standsOn hd (failure_of_mapM h)
    obtain ⟨new, hnew⟩ := hs.eq_of_length (by simpa using hdepth)
    obtain ⟨new', hnew'⟩ := ih (hdepth ▸ hd) h
    exact ⟨new ++ new', by rw [hnew', hnew, extendTop_extendTop]⟩

/-- **No name is bound around a scope that was not bound there**, unless the scope is a function that
has this name itself. -/
theorem walk_scope_marks (hk : framesOf n.kind = 1) (hn : n.assigned? ≠ some name)
    (h : (n.walk visitor again place p).2.failure = none) :
    (n.walk visitor again place p).2.table.marks name = p.table.marks name := by
  obtain ⟨hp, hd, -⟩ := walk_ok h
  obtain ⟨-, ht, -⟩ := enter_scope hk hp
  obtain ⟨new, hnew⟩ := walkParts_boundNames (ht ▸ Nat.succ_pos _) hd
  rw [SymbolTable.marks_eq, walk_column h hn, List.map_drop, hk, ← SymbolTable.marks_eq,
    SymbolTable.marks, SymbolTable.map_binds, ← SymbolTable.boundNames, hnew, ht,
    SymbolTable.marks, SymbolTable.map_binds]
  rfl

/-! ## Within a scope -/

/-- On its way to a part the pass stays in step with that over renamed parts. -/
theorem partState_renamed (shown : Slot → Prop) (hx : x ≠ "") (hy : y ≠ "")
    (hn : ∀ k ∈ n.nodes, k.name? ≠ some y) (hm : m.kind = n.kind)
    (hkids : List.Forall₂ (fun k l => k.1 = l.1 ∧ RenamedPart x y (shown k.1) k.2 l.2)
      n.shape.kids m.shape.kids)
    (h : Renamed x y col i p q) (hs : (walkParts again n p).2.failure = none) (slot : Slot) :
    ∃ q', Renamed x y col i (partState again n slot p) q' := by
  have htwins : InStep.PartTwins again (Renamed x y col) shown n m p :=
    partTwins_rename hx hy hn hkids _
  exact ⟨_, (walkParts_inStep (hkids.imp fun _ _ h => h.1)
    (fun slot k l hk hl q h hs => hm ▸ (htwins slot k l hk hl i q h hs).state) h hs).2 slot⟩

theorem comesTo_renamed (hx : x ≠ "") (hy : y ≠ "") (hn : ∀ k ∈ n.nodes, k.name? ≠ some y)
    (h : Renamed x y col i p q) (hs : (n.walk visitor again place p).2.failure = none)
    (hc : n.at? path = some c) :
    ∃ j q', Renamed x y col j (comesTo again n p path) q' := by
  induction path generalizing n p q i place with
  | nil => exact ⟨i, q, h⟩
  | cons slot path ih =>
    obtain ⟨k, hk, hc⟩ := Option.bind_eq_some_iff.1 hc
    obtain ⟨-, hd, -⟩ := walk_ok hs
    have henter := (renamed_inStep hx hy col).enter (twin_rename x hn) h (failure_of_walkParts hd)
    obtain ⟨q', hq⟩ := partState_renamed (n.shape.showsType ·) hx hy hn (n.kind_rename x y)
      (kids_rename x y n) henter hd slot
    rw [comesTo, hk]
    exact ih (fun m hm => hn m (Node.mem_nodes_of_part (Shape.mem_parts_of_part? hk) hm)) hq
      (walkPart_ok hd hk) hc

/-- Some name stands nowhere in a tree and is bound in no frame. -/
theorem exists_fresh (n : Node) (t : SymbolTable) :
    ∃ y, y ≠ "" ∧ ¬t.Binds y ∧ ∀ k ∈ n.nodes, k.name? ≠ some y := by
  obtain ⟨y, hy⟩ := Infinite.exists_notMem_finset
    ("" :: t.boundNames.flatten ++ n.nodes.filterMap (·.name?)).toFinset
  simp only [List.cons_append, List.toFinset_cons, List.toFinset_append, Finset.mem_insert,
    Finset.mem_union, List.mem_toFinset, List.mem_flatten, List.mem_filterMap, not_or, not_exists,
    not_and] at hy
  obtain ⟨hy, hfree, hn⟩ := hy
  refine ⟨y, hy, fun hb => ?_, hn⟩
  obtain ⟨ns, hns, hb⟩ := SymbolTable.binds_iff.1 hb
  exact hfree ns hns hb

/-- **The names of a scope are sheltered.** While the pass is within the scope, it does not change
what the frames around bind a name to that they do not bind, or that a parameter hides. -/
theorem column_around (hx : x ≠ "") (hk : framesOf n.kind = 1)
    (hidden : p.table.Binds x → x ∈ n.paramNames)
    (hs : (n.walk visitor again place p).2.failure = none) (hne : path ≠ [])
    (hc : n.at? path = some c) (above : Place) :
    ((c.walk visitor again above (comesTo again n p path)).2.table.around p.table.depth).map
      (·.get? x) = p.table.column x := by
  obtain ⟨y, hy, hfree, hn⟩ := exists_fresh n p.table
  obtain ⟨slot, path, rfl⟩ := List.exists_cons_of_ne_nil hne
  obtain ⟨k, hpart, hat⟩ := Option.bind_eq_some_iff.1 hc
  obtain ⟨hp, hd, -⟩ := walk_ok hs
  have henter := renamed_enter hx hy hk hn hfree hidden (.refl p) hp
  obtain ⟨q, hq⟩ := partState_renamed (·.key ≠ "id") hx hy hn (kind_renameInside x y n)
    (kids_renameInside x y n) henter hd slot
  have hkn := fun m hm => hn m (Node.mem_nodes_of_part (Shape.mem_parts_of_part? hpart) hm)
  obtain ⟨j, q', hq'⟩ := comesTo_renamed hx hy hkn hq (walkPart_ok hd hpart) hat
  have hsuccess := walk_comesTo hs hc above
  rw [comesTo, hpart] at hsuccess ⊢
  have htwins := walk_rename hx hy c (fun m hm => hkn m (Node.mem_nodes_of_at? hat hm)) hq' hsuccess
  have hcol := htwins.state.levels.column_drop
  rwa [SymbolTable.length_column] at hcol

/-- After the scope the frames around it bind the name to what they had bound it to. -/
theorem walk_scope_column (hx : x ≠ "") (hk : framesOf n.kind = 1)
    (hidden : p.table.Binds x → x ∈ n.paramNames) (hn : n.assigned? ≠ some x)
    (hs : (n.walk visitor again place p).2.failure = none) :
    (n.walk visitor again place p).2.table.column x = p.table.column x := by
  obtain ⟨y, hy, hfree, hnodes⟩ := exists_fresh n p.table
  have hp : Agreeing 0 p p := ⟨.refl p, (walk_ok hs).1, Nat.zero_le _⟩
  exact (walk_renameInside hx hy hk hnodes hfree hidden hp hs).2 hn

end Typing

end AutoAwait
