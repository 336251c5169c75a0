import AutoAwait.Proofs.Tree.Parts

/-!
# Places in a tree

A path leads from the root of a tree to a node below it, slot by slot. Awaits can be taken out of
a tree at chosen paths, and what a tree carries besides its syntax can be forgotten.

* `Shape.part?` is the part that fills a slot, `Node.at?` the node that a path leads to;
* `Node.unwrap` puts the argument of each chosen await in its place;
* `Node.withoutTypes` forgets the types of a tree, `Node.bare` its places in the text too.
-/

namespace AutoAwait

/-- The slots that lead from a node to a node below it. -/
abbrev Path := List Slot

/-- A choice of paths. -/
abbrev PathSet := Path → Bool

/-- The chosen paths that start with a slot, without it. -/
def PathSet.under (chosen : PathSet) (slot : Slot) : PathSet := fun path => chosen (slot :: path)

namespace Shape

variable {α β γ : Type} {slot : Slot}

/-! ## The part that fills a slot -/

/-- The part that fills a slot. -/
def part? (s : Shape α) (slot : Slot) : Option α := s.kids.lookup slot

theorem mem_kids_iff_part? {s : Shape α} {a : α} : (slot, a) ∈ s.kids ↔ s.part? slot = some a := by
  have hl : ∀ {ks : List (Slot × α)}, (ks.map (·.1)).Nodup →
      ((slot, a) ∈ ks ↔ ks.lookup slot = some a) := by
    intro ks h
    induction ks with
    | nil => simp
    | cons k ks ih =>
      obtain ⟨hk, hks⟩ := List.nodup_cons.1 h
      rw [List.mem_cons, List.lookup_cons, ih hks]
      by_cases he : slot = k.1
      · have hn : ks.lookup slot ≠ some a := fun hc =>
          hk (List.mem_map.2 ⟨(slot, a), (ih hks).2 hc, he⟩)
        simp [he, Prod.ext_iff, eq_comm, he ▸ hn]
      · simp [he, beq_false_of_ne he, Prod.ext_iff]
  exact hl s.nodup_slots

theorem mem_parts_of_part? {s : Shape α} {a : α} (h : s.part? slot = some a) : a ∈ s.parts :=
  List.mem_map.2 ⟨(slot, a), mem_kids_iff_part?.2 h, rfl⟩

/-- Lists with the same slots have related parts in each slot if they are related one by one. -/
theorem lookup_rel {R : Slot → α → β → Prop} {ks : List (Slot × α)} {ls : List (Slot × β)}
    (h : List.Forall₂ (fun k l => k.1 = l.1 ∧ R k.1 k.2 l.2) ks ls) (slot : Slot) :
    Option.Rel (R slot) (ks.lookup slot) (ls.lookup slot) := by
  induction h with
  | nil => exact .none
  | @cons k l ks ls h _ ih =>
    obtain ⟨hs, hr⟩ := h
    rw [List.lookup_cons, List.lookup_cons, ← hs]
    by_cases he : slot = k.1
    · subst he
      simpa using hr
    · rw [beq_false_of_ne he]
      exact ih

namespace Rel

variable {Q R : α → β → Prop} {s : Shape α} {t : Shape β}

theorem part?_rel (h : Rel R s t) (slot : Slot) : Option.Rel R (s.part? slot) (t.part? slot) :=
  lookup_rel (R := fun _ => R) h.kids slot

theorem part?_some (h : Rel R s t) {a : α} (ha : s.part? slot = some a) :
    ∃ b, t.part? slot = some b ∧ R a b := by
  have := h.part?_rel slot
  rw [ha] at this
  cases hb : t.part? slot with
  | none => rw [hb] at this; cases this
  | some b => rw [hb] at this; cases this; exact ⟨b, rfl, ‹_›⟩

theorem part?_none (h : Rel R s t) (ha : s.part? slot = none) : t.part? slot = none := by
  have := h.part?_rel slot
  rw [ha] at this
  cases hb : t.part? slot with
  | none => rfl
  | some b => rw [hb] at this; cases this

/-- Shapes that differ in their parts only are related if the parts in each slot are. -/
theorem of_part? (h : Rel Q s t)
    (hp : ∀ slot a b, s.part? slot = some a → t.part? slot = some b → R a b) : Rel R s t := by
  apply h.of_parts
  rw [List.forall₂_iff_get]
  refine ⟨h.parts.length_eq, fun i hi hi' => ?_⟩
  simp only [Shape.parts, List.length_map] at hi hi'
  have hk := (List.forall₂_iff_get.1 h.kids).2 i hi hi'
  simp only [List.get_eq_getElem] at hk
  simp only [Shape.parts, List.get_eq_getElem, List.getElem_map]
  refine hp s.kids[i].1 _ _ (mem_kids_iff_part?.1 (List.getElem_mem hi)) ?_
  rw [hk.1]
  exact mem_kids_iff_part?.1 (List.getElem_mem hi')

theorem eq_of_part? {Q : α → α → Prop} {s t : Shape α} (h : Rel Q s t)
    (hp : ∀ slot a b, s.part? slot = some a → t.part? slot = some b → a = b) : s = t :=
  (h.of_part? hp).eq

end Rel

theorem part?_map (f : α → β) (s : Shape α) : (s.map f).part? slot = (s.part? slot).map f := by
  cases h : s.part? slot with
  | none => exact (rel_map f s).part?_none h
  | some a =>
    obtain ⟨b, hb, rfl⟩ := (rel_map f s).part?_some h
    exact hb

theorem part?_mapSlots (f : Slot → α → β) (s : Shape α) :
    (s.mapSlots f).part? slot = (s.part? slot).map (f slot) := by
  have hk : (s.mapSlots f).kids = s.kids.map fun k => (k.1, f k.1 k.2) := by
    have h := (rel_mapSlots f s).kids
    have hp := parts_mapSlots f s
    apply List.ext_getElem (by simpa [parts] using congrArg List.length hp)
    intro i hi hi'
    rw [List.length_map] at hi'
    have hp' : (s.mapSlots f).kids[i].2 = f s.kids[i].1 s.kids[i].2 := by
      have := congrArg (·[i]?) hp
      simpa [parts, hi, hi'] using this
    have h' := ((List.forall₂_iff_get.1 h).2 i hi' hi).1
    simp only [List.get_eq_getElem] at h'
    rw [List.getElem_map, ← hp', h']
  have hl : ∀ ks : List (Slot × α),
      (ks.map fun k => (k.1, f k.1 k.2)).lookup slot = (ks.lookup slot).map (f slot) := by
    intro ks
    induction ks with
    | nil => rfl
    | cons k ks ih =>
      rw [List.map_cons, List.lookup_cons, List.lookup_cons, ih]
      by_cases he : slot = k.1
      · simp [he]
      · rw [beq_false_of_ne he]
  rw [part?, hk, hl, part?]

theorem map_mapSlots (g : β → γ) (f : Slot → α → β) (s : Shape α) :
    (s.mapSlots f).map g = s.mapSlots fun slot a => g (f slot a) := by
  apply (((rel_map g _).symm.comp (rel_mapSlots f s).symm).comp (rel_mapSlots _ s)).eq_of_part?
  intro slot a b ha hb
  rw [part?_map, part?_mapSlots] at ha
  rw [part?_mapSlots] at hb
  cases h : s.part? slot <;> simp_all

end Shape

/-- The slot of the argument of an await. -/
def Slot.argument : Slot := ⟨"argument", none⟩

@[simp] theorem Shape.part?_await {α : Type} (a : α) (slot : Slot) :
    (Shape.await a).part? slot = if slot = .argument then some a else none := by
  by_cases h : slot = .argument
  · simp [Shape.part?, Shape.kids, Shape.one, h, Slot.argument]
  · have hb : (slot == (⟨"argument", none⟩ : Slot)) = false := beq_false_of_ne h
    simp [Shape.part?, Shape.kids, Shape.one, List.lookup_cons, h, hb]

namespace Node

/-! ## Following a path -/

/-- The part of a node that fills a slot. -/
def part? (n : Node) (slot : Slot) : Option Node := n.shape.part? slot

/-- The node that a path leads to. -/
def at? (n : Node) : Path → Option Node
  | [] => some n
  | slot :: path => (n.part? slot).bind (·.at? path)

theorem mem_nodes_of_at? {n m c : Node} {path : Path} (hc : n.at? path = some c)
    (hm : m ∈ c.nodes) : m ∈ n.nodes := by
  induction path generalizing n with
  | nil => exact Option.some.inj hc ▸ hm
  | cons slot path ih =>
    obtain ⟨k, hk, hc⟩ := Option.bind_eq_some_iff.1 hc
    exact mem_nodes_of_part (Shape.mem_parts_of_part? hk) (ih hc)

/-- Puts the argument of each await at a chosen path in the place of the await. -/
def unwrap : Node → PathSet → Node :=
  fold fun n parts chosen =>
    match parts, chosen [] with
    | .await a, true => a.2 (chosen.under .argument)
    | parts, _ => { n with shape := parts.mapSlots fun slot part => part.2 (chosen.under slot) }

theorem unwrap_await {loc : Position} {type : Option ShellType} {a : Node} {chosen : PathSet}
    (h : chosen [] = true) :
    (⟨loc, type, .await a⟩ : Node).unwrap chosen = a.unwrap (chosen.under .argument) := by
  rw [unwrap, fold_eq]
  simp only [Shape.map, h]

theorem unwrap_of_not {n : Node} {chosen : PathSet} (h : chosen [] = false) :
    n.unwrap chosen =
      { n with shape := n.shape.mapSlots fun slot k => k.unwrap (chosen.under slot) } := by
  rw [unwrap, fold_eq, h]
  cases hs : n.shape.map _ <;> simp only [← hs, Shape.mapSlots_map]

/-- Where no await is chosen nothing changes. -/
theorem unwrap_none (n : Node) : n.unwrap (fun _ => false) = n := by
  induction n using induction with
  | step n ih =>
    rw [unwrap_of_not rfl]
    obtain ⟨loc, type, shape⟩ := n
    congr 1
    apply (Shape.rel_mapSlots _ shape).symm.eq_of_part?
    intro slot a b ha hb
    rw [Shape.part?_mapSlots, hb] at ha
    exact (Option.some.inj ha).symm.trans (ih b (Shape.mem_parts_of_part? hb))

/-! ## Forgetting annotations -/

/-- A tree without its types. -/
def withoutTypes : Node → Node := fold fun n parts => ⟨n.loc, none, parts.map (·.2)⟩

/-- A tree without its types and its places in the text. -/
def bare : Node → Node := fold fun _ parts => ⟨.start, none, parts.map (·.2)⟩

end Node

namespace Shape

theorem map_map {α β γ : Type} (g : β → γ) (f : α → β) (s : Shape α) :
    (s.map f).map g = s.map fun a => g (f a) := by
  apply (((rel_map g _).symm.comp (rel_map f s).symm).comp (rel_map _ s)).eq_of_part?
  intro slot a b ha hb
  rw [part?_map, part?_map] at ha
  rw [part?_map] at hb
  cases h : s.part? slot <;> simp_all

end Shape

namespace Node

theorem withoutTypes_eq (n : Node) :
    n.withoutTypes = ⟨n.loc, none, n.shape.map withoutTypes⟩ := by
  rw [withoutTypes, fold_eq, Shape.map_map]

theorem bare_eq (n : Node) : n.bare = ⟨.start, none, n.shape.map bare⟩ := by
  rw [bare, fold_eq, Shape.map_map]

end Node

end AutoAwait
