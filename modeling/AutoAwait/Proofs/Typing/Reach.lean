import AutoAwait.Proofs.Typing.Kept
import AutoAwait.Proofs.Typing.Rerun

/-!
# The pass on its way

The pass walks over the parts of a node one after the other. What it makes of a part depends on the
state in which it comes to the part, and that is the state after the parts before.

* `Typing.partState` is the state in which the pass comes to a part of a node, `Typing.comesTo` that
  in which it comes to the node at a path;
* `Typing.walk_failed_at` says that a walk that fails at a node ends there;
* `Typing.walkParts_part?` tells from it what fills a slot after a walk;
* `Typing.walkParts_inStep` runs two walks side by side, and keeps a relation between their states
  if each two parts do.
-/

namespace AutoAwait

/-- The parts of a shape that the source reads before a slot. -/
def Shape.before {α : Type} (s : Shape α) (slot : Slot) : List (Slot × α) :=
  s.kids.takeWhile (·.1 ≠ slot)

namespace Typing

variable {again : Place → Node → StateM Typing Node}
variable {p q : Typing} {n m c : Node} {slot : Slot} {place : Place} {path : Path}

/-- The state in which the pass comes to the part of a node in a slot, if it begins with the parts
in the state `p`. -/
def partState (again : Place → Node → StateM Typing Node) (n : Node) (slot : Slot) (p : Typing) :
    Typing :=
  ((n.shape.before slot).mapM (fun k => walkPart again n.kind k.1 k.2) p).2

/-! ## One walk -/

/-- The result of a walk over some parts, slot by slot. -/
theorem lookup_mapM {kind : NodeKind} {ks ls : List (Slot × Node)}
    (hs : List.Forall₂ (fun k l => k.1 = l.1) ks ls)
    (hl : ls.map (·.2) = (ks.mapM (fun k => walkPart again kind k.1 k.2) p).1) :
    ls.lookup slot = (ks.lookup slot).map fun k => (walkPart again kind slot k
      ((ks.takeWhile (·.1 ≠ slot)).mapM (fun k => walkPart again kind k.1 k.2) p).2).1 := by
  induction hs generalizing p with
  | nil => rfl
  | @cons k l ks ls hkl hs ih =>
    rw [Shape.mapM_cons_run, List.map_cons] at hl
    obtain ⟨hk, hks⟩ := List.cons.inj hl
    rw [List.lookup_cons, List.lookup_cons, ← hkl]
    by_cases he : slot = k.1
    · subst he
      simp [hk, Shape.pure_run]
    · rw [beq_false_of_ne he, List.takeWhile_cons_of_pos (by simpa using Ne.symm he),
        Shape.mapM_cons_run]
      exact ih hks

/-- What fills a slot after a walk over the parts of a node. -/
theorem walkParts_part? : (walkParts again n p).1.part? slot =
    (n.part? slot).map fun k =>
      (walkPart again n.kind slot k (partState again n slot p)).1 :=
  lookup_mapM ((Shape.rel_traverse (walkPart again n.kind) n.shape p).kids.imp fun _ _ h => h.1)
    walkParts_parts

/-- A walk over parts that succeeds has succeeded at each of them. -/
theorem failure_lookup_mapM {kind : NodeKind} {ks : List (Slot × Node)} {k : Node}
    (h : (ks.mapM (fun k => walkPart again kind k.1 k.2) p).2.failure = none)
    (hk : ks.lookup slot = some k) :
    (walkPart again kind slot k
      ((ks.takeWhile (·.1 ≠ slot)).mapM (fun k => walkPart again kind k.1 k.2) p).2).2.failure =
        none := by
  induction ks generalizing p with
  | nil => cases hk
  | cons l ks ih =>
    rw [Shape.mapM_cons_run] at h
    rw [List.lookup_cons] at hk
    by_cases he : slot = l.1
    · subst he
      obtain rfl : l.2 = k := by simpa using hk
      simpa [Shape.pure_run] using failure_of_mapM h
    · rw [beq_false_of_ne he] at hk
      rw [List.takeWhile_cons_of_pos (by simpa using Ne.symm he), Shape.mapM_cons_run]
      exact ih h hk

theorem walkPart_ok {k : Node} (h : (walkParts again n p).2.failure = none)
    (hk : n.part? slot = some k) :
    (walkPart again n.kind slot k (partState again n slot p)).2.failure = none := by
  rw [walkParts_snd] at h
  exact failure_lookup_mapM h hk

/-! ## Coming to a node -/

/-- The state in which the pass comes to the node at a path, if it comes to the root in the state
`p`. -/
def comesTo (again : Place → Node → StateM Typing Node) (n : Node) (p : Typing) : Path → Typing
  | [] => p
  | slot :: path =>
    match n.part? slot with
    | none => p
    | some k => comesTo again k (partState again n slot (enter n p).2) path

/-- The state that a walk leads to does not depend on the place of the node. -/
theorem walk_state (above place : Place) :
    (n.walk visitor again above p).2 = (n.walk visitor again place p).2 := by
  cases hp : p.failure with
  | some e => rw [walk_failed (by simp [hp]), walk_failed (by simp [hp])]
  | none =>
    rw [walk_run hp, walk_run hp]
    split
    · rfl
    · exact leaveNode_state above place

theorem walk_comesTo (h : (n.walk visitor again place p).2.failure = none)
    (hc : n.at? path = some c) (above : Place) :
    (c.walk visitor again above (comesTo again n p path)).2.failure = none := by
  induction path generalizing n p place with
  | nil =>
    obtain rfl : n = c := Option.some.inj hc
    rw [← h, comesTo, walk_state above place]
  | cons slot path ih =>
    obtain ⟨k, hk, hc⟩ := Option.bind_eq_some_iff.1 hc
    rw [comesTo, hk]
    exact ih (walkPart_ok (walk_ok h).2.1 hk) hc

theorem depth_partState (h : (walkParts again n p).2.failure = none) {k : Node}
    (hk : n.part? slot = some k) :
    (partState again n slot p).table.depth = p.table.depth := by
  have hp : (partState again n slot p).failure = none := (walk_ok (walkPart_ok h hk)).1
  exact ((carried_depth.mapM (fun k _ q => carried_depth.walk k.2 (.part n.kind k.1) q) p).1 hp).2

/-- Below a node that opens a frame the pass has more frames than before it. -/
theorem depth_comesTo (h : (n.walk visitor again place p).2.failure = none)
    (hc : n.at? path = some c) (hne : path ≠ []) :
    p.table.depth + framesOf n.kind ≤ (comesTo again n p path).table.depth := by
  induction path generalizing n p place with
  | nil => exact absurd rfl hne
  | cons slot path ih =>
    obtain ⟨k, hk, hc⟩ := Option.bind_eq_some_iff.1 hc
    obtain ⟨hp, hd, -⟩ := walk_ok h
    have hpart := (depth_partState hd hk).trans (enter_depth n hp)
    rw [comesTo, hk]
    cases path with
    | nil => exact Nat.le_of_eq hpart.symm
    | cons slot' path =>
      have hle := ih (walkPart_ok hd hk) hc nofun
      exact Nat.le_trans (Nat.le_of_eq hpart.symm) (Nat.le_trans (Nat.le_add_right _ _) hle)

/-! ## Coming to an error -/

/-- A walk over parts that fails at one of them ends as the walk over that part does. -/
theorem mapM_lookup_failed {kind : NodeKind} {ks : List (Slot × Node)} {k : Node}
    (hk : ks.lookup slot = some k)
    (h : (walkPart again kind slot k ((ks.takeWhile (·.1 ≠ slot)).mapM
      (fun k => walkPart again kind k.1 k.2) p).2).2.failure.isSome) :
    (ks.mapM (fun k => walkPart again kind k.1 k.2) p).2 = (walkPart again kind slot k
      ((ks.takeWhile (·.1 ≠ slot)).mapM (fun k => walkPart again kind k.1 k.2) p).2).2 := by
  induction ks generalizing p with
  | nil => cases hk
  | cons l ks ih =>
    rw [List.lookup_cons] at hk
    by_cases he : slot = l.1
    · subst he
      obtain rfl : l.2 = k := by simpa using hk
      rw [List.takeWhile_cons_of_neg (by simp)] at h ⊢
      rw [Shape.mapM_cons_run]
      exact mapM_failed ks h
    · rw [beq_false_of_ne he] at hk
      rw [List.takeWhile_cons_of_pos (by simpa using Ne.symm he), Shape.mapM_cons_run] at h ⊢
      rw [Shape.mapM_cons_run]
      exact ih hk h

theorem comesTo_failed (h : p.failure.isSome) : comesTo again n p path = p := by
  induction path generalizing n with
  | nil => rfl
  | cons slot path ih =>
    have he : (enter n p).2 = p := by rw [enter, if_pos h]
    rw [comesTo]
    split
    · rfl
    · rw [he, partState, mapM_failed _ h, ih]

/-- On its way to a node the pass closes the frames that it opens beside the way. -/
theorem depth_le_comesTo (h : (comesTo again n p path).failure = none) :
    p.table.depth ≤ (comesTo again n p path).table.depth := by
  induction path generalizing n p with
  | nil => exact Nat.le_refl _
  | cons slot path ih =>
    rw [comesTo] at h ⊢
    split at h
    · exact Nat.le_refl _
    · have hs : (partState again n slot (enter n p).2).failure = none := by
        by_contra hs
        rw [comesTo_failed (Option.ne_none_iff_isSome.1 hs)] at h
        exact hs h
      obtain ⟨he, hd⟩ :=
        (carried_depth.mapM (fun k _ q => carried_depth.walk k.2 (.part n.kind k.1) q) _).1 hs
      have hp : p.failure = none := by
        by_contra hp
        rw [enter, if_pos (Option.ne_none_iff_isSome.1 hp)] at he
        exact hp he
      calc p.table.depth ≤ (enter n p).2.table.depth := enter_depth n hp ▸ Nat.le_add_right _ _
        _ = _ := hd.symm
        _ ≤ _ := ih h

/-- **A walk that fails at a node below ends there.** -/
theorem walk_failed_at (hc : n.at? path = some c) (above : Place)
    (h : (c.walk visitor again above (comesTo again n p path)).2.failure.isSome) :
    (n.walk visitor again place p).2 =
      (c.walk visitor again above (comesTo again n p path)).2 := by
  induction path generalizing n p place with
  | nil =>
    obtain rfl : n = c := Option.some.inj hc
    exact walk_state place above
  | cons slot path ih =>
    cases hp : p.failure with
    | some e =>
      have hp : p.failure.isSome := by rw [hp]; rfl
      rw [comesTo_failed hp, walk_failed hp, walk_failed hp]
    | none =>
      obtain ⟨k, hk, hat⟩ := Option.bind_eq_some_iff.1 hc
      rw [comesTo, hk] at h ⊢
      dsimp only at h ⊢
      have hpart : (walkPart again n.kind slot k (partState again n slot (enter n p).2)).2 =
          (c.walk visitor again above
            (comesTo again k (partState again n slot (enter n p).2) path)).2 := ih hat h
      have hparts : (descended again n p).2 =
          (walkPart again n.kind slot k (partState again n slot (enter n p).2)).2 :=
        walkParts_snd.trans (mapM_lookup_failed hk (hpart ▸ h))
      rw [walk_run hp, if_pos (by rw [hparts, hpart]; exact h), hparts, hpart]

/-! ## Two walks side by side -/

/-- Two walks over parts in the same slots keep a relation `S` between their states if at each part
it goes from the state in which the first walk comes to the part to the state after it. -/
theorem mapM_inStep {S : Typing → Typing → Prop} {kind kind' : NodeKind}
    {ks ls : List (Slot × Node)}
    (hslots : List.Forall₂ (fun k l => k.1 = l.1) ks ls) (hnodup : (ks.map (·.1)).Nodup)
    (hs : ∀ slot k l, ks.lookup slot = some k → ls.lookup slot = some l →
      let p' := ((ks.takeWhile (·.1 ≠ slot)).mapM (fun k => walkPart again kind k.1 k.2) p).2
      ∀ q, S p' q → (walkPart again kind slot k p').2.failure = none →
        S (walkPart again kind slot k p').2 (walkPart again kind' slot l q).2)
    (ha : S p q) (h : (ks.mapM (fun k => walkPart again kind k.1 k.2) p).2.failure = none) :
    S (ks.mapM (fun k => walkPart again kind k.1 k.2) p).2
        (ls.mapM (fun l => walkPart again kind' l.1 l.2) q).2 ∧
      ∀ slot, S ((ks.takeWhile (·.1 ≠ slot)).mapM (fun k => walkPart again kind k.1 k.2) p).2
        ((ls.takeWhile (·.1 ≠ slot)).mapM (fun l => walkPart again kind' l.1 l.2) q).2 := by
  induction hslots generalizing p q with
  | nil => exact ⟨ha, fun _ => ha⟩
  | @cons k l ks ls hkl _ ih =>
    obtain ⟨hk, hnodup⟩ := List.nodup_cons.1 hnodup
    rw [Shape.mapM_cons_run] at h
    have hfirst : S (walkPart again kind k.1 k.2 p).2 (walkPart again kind' l.1 l.2 q).2 := by
      have := hs k.1 k.2 l.2 List.lookup_cons_self (hkl ▸ List.lookup_cons_self) q
      simp only [List.takeWhile_cons, ne_eq, not_true, decide_false, Bool.false_eq_true,
        if_false] at this
      rw [← hkl]
      exact this ha (failure_of_mapM h)
    obtain ⟨hrest, hcome⟩ := ih hnodup (fun slot k' l' hk' hl' => by
      -- no later part stands in the slot of the first one
      have he : k.1 ≠ slot := by
        rintro rfl
        obtain ⟨before, after, rfl, -⟩ := List.lookup_eq_some_iff.1 hk'
        simp at hk
      have := hs slot k' l' (by rw [List.lookup_cons, beq_false_of_ne (Ne.symm he)]; exact hk')
        (by rw [List.lookup_cons, beq_false_of_ne (Ne.symm (hkl ▸ he))]; exact hl')
      rwa [List.takeWhile_cons_of_pos (by simpa using he), Shape.mapM_cons_run] at this) hfirst h
    rw [Shape.mapM_cons_run, Shape.mapM_cons_run]
    refine ⟨hrest, fun slot => ?_⟩
    by_cases he : k.1 = slot
    · rw [List.takeWhile_cons_of_neg (by simpa using he),
        List.takeWhile_cons_of_neg (by simpa using hkl ▸ he)]
      exact ha
    · rw [List.takeWhile_cons_of_pos (by simpa using he),
        List.takeWhile_cons_of_pos (by simpa using hkl ▸ he), Shape.mapM_cons_run,
        Shape.mapM_cons_run]
      exact hcome slot

/-- Two walks over the parts of two nodes that fill the same slots. -/
theorem walkParts_inStep {S : Typing → Typing → Prop}
    (hslots : List.Forall₂ (fun k l => k.1 = l.1) n.shape.kids m.shape.kids)
    (hs : ∀ slot k l, n.part? slot = some k → m.part? slot = some l →
      ∀ q, S (partState again n slot p) q →
        (walkPart again n.kind slot k (partState again n slot p)).2.failure = none →
          S (walkPart again n.kind slot k (partState again n slot p)).2
            (walkPart again m.kind slot l q).2)
    (ha : S p q) (h : (walkParts again n p).2.failure = none) :
    S (walkParts again n p).2 (walkParts again m q).2 ∧
      ∀ slot, S (partState again n slot p) (partState again m slot q) := by
  rw [walkParts_snd] at h ⊢
  rw [walkParts_snd]
  exact mapM_inStep hslots n.shape.nodup_slots hs ha h

end Typing

end AutoAwait
