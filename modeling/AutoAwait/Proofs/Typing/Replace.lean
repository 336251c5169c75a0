import AutoAwait.Proofs.Tree.Rename
import AutoAwait.Proofs.Typing.InStep

/-!
# A node in its place

A node of a tree is replaced by another one. If the pass leaves the two in agreeing states, with new
awaits in the same places, nothing else in the tree makes a difference.

* `Typing.walk_replaceAt` is the induction along the path to the node;
* `Typing.run_replaceAt` says it of whole programs.
-/

namespace AutoAwait

namespace Typing

variable {again : Place → Node → StateM Typing Node}
variable {p q : Typing} {n m c k : Node} {place : Place} {path : Path} {slot : Slot} {i : Nat}

theorem walk_agreeing (n : Node) {place : Place} (h : Agreeing i p q)
    (hs : (n.walk visitor again place p).2.failure = none) :
    InStep.Twins Agreeing i True n n (n.walk visitor again place p)
      (n.walk visitor again place q) := by
  obtain ⟨ha, -, hi⟩ := h
  obtain ⟨hsame, he⟩ := walk_agree n ha hs
  have hd := ((carried_depth.walk n place p).1 hs).2
  have he := he hs
  exact ⟨⟨hsame, hs, hd ▸ hi⟩, congrArg _ he.symm, fun _ => congrArg _ he.symm, congrArg _ he⟩

theorem name?_of_not_leaf (h : n.kind ≠ .identifier ∧ n.kind ≠ .literal) :
    n.name? = none ∧ ∀ computed, attributeName? n computed = none := by
  obtain ⟨loc, type, s⟩ := n
  cases s with
  | identifier => exact absurd rfl h.1
  | literal => exact absurd rfl h.2
  | _ => exact ⟨rfl, fun _ => rfl⟩

/-- From above a node looks the same when a part is changed that is no name and no literal. -/
theorem twin_replaceAt (hc : n.at? (slot :: path) = some c) (hm : m.kind = c.kind)
    (hleaf : c.kind ≠ .identifier ∧ c.kind ≠ .literal) :
    n.shape.Twin id (fun _ => True) (Node.Named id (fun _ => True))
      (n.replaceAt (slot :: path) m).shape := by
  obtain ⟨k, hk, hat⟩ := Option.bind_eq_some_iff.1 hc
  have hsame : ∀ {s l}, n.part? s = some l →
      let l' := if s = slot then l.replaceAt path m else l
      l'.name? = l.name? ∧ ∀ computed, attributeName? l' computed = attributeName? l computed := by
    intro s l hl
    dsimp only
    split
    · next he =>
      subst he
      obtain rfl := Option.some.inj (hk.symm.trans hl)
      have hk := Node.not_leaf_of_at? hat hleaf
      obtain ⟨hn, ha⟩ := name?_of_not_leaf hk
      obtain ⟨hn', ha'⟩ := name?_of_not_leaf (n := k.replaceAt path m)
        (by rwa [Node.kind_replaceAt hat hm])
      exact ⟨hn'.trans hn.symm, fun computed => (ha' computed).trans (ha computed).symm⟩
    · exact ⟨rfl, fun _ => rfl⟩
  have hnamed : ∀ {s l}, n.part? s = some l →
      Node.Named id (fun _ => True) l (if s = slot then l.replaceAt path m else l) := by
    intro s l hl
    refine ⟨?_, fun _ _ => trivial⟩
    rw [Option.map_id]
    exact (hsame hl).1
  have hrel : n.shape.Rel (Node.Named id (fun _ => True)) (n.replaceAt (slot :: path) m).shape := by
    refine (Shape.rel_mapSlots _ n.shape).of_part? fun s l l' hl hl' => ?_
    rw [Shape.part?_mapSlots, hl] at hl'
    obtain rfl := Option.some.inj hl'
    exact hnamed hl
  obtain ⟨loc, type, s⟩ := n
  cases s with
  | identifier z => cases hk
  | property k v short => exact .property
  | member o k computed =>
    exact .member (hnamed (s := ⟨"object", none⟩) rfl)
      ((hsame (s := ⟨"property", none⟩) rfl).2 computed)
  | _ => exact .other hrel (by simp [Shape.kind])

/-- Parts stay in step if the one that is changed does. -/
theorem partTwins_replaceAt {shown : Slot → Prop} (hk : n.part? slot = some k)
    (ih : ∀ {i q}, Agreeing i (partState again n slot p) q →
      (walkPart again n.kind slot k (partState again n slot p)).2.failure = none →
        InStep.Twins Agreeing i True k (k.replaceAt path m)
          (walkPart again n.kind slot k (partState again n slot p))
          (walkPart again n.kind slot (k.replaceAt path m) q)) :
    InStep.PartTwins again Agreeing shown n (n.replaceAt (slot :: path) m) p := by
  intro slot' a b ha hb i q h hs
  have hb' : b = if slot' = slot then a.replaceAt path m else a := by
    rw [Node.part?, Node.replaceAt, Shape.part?_mapSlots,
      show n.shape.part? slot' = some a from ha] at hb
    exact (Option.some.inj hb).symm
  subst hb'
  by_cases he : slot' = slot
  · subst he
    obtain rfl := Option.some.inj (hk.symm.trans ha)
    rw [if_pos rfl]
    exact (ih h hs).imp fun _ => trivial
  · rw [if_neg he]
    exact (walk_agreeing a h hs).imp fun _ => trivial

theorem slots_replaceAt (n : Node) (slot : Slot) (path : Path) (m : Node) :
    List.Forall₂ (fun k l => k.1 = l.1) n.shape.kids (n.replaceAt (slot :: path) m).shape.kids :=
  (Shape.rel_mapSlots _ n.shape).kids.imp fun _ _ h => h.1

/-- **A node in its place.** The passes over two trees stay in step if they do over what stands in the
place in which the trees differ. -/
theorem walk_replaceAt (hc : n.at? path = some c) (hm : m.kind = c.kind)
    (hleaf : c.kind ≠ .identifier ∧ c.kind ≠ .literal)
    (hw : ∀ {i q place}, Agreeing i (comesTo again n p path) q →
      (c.walk visitor again place (comesTo again n p path)).2.failure = none →
        InStep.Twins Agreeing i True c m (c.walk visitor again place (comesTo again n p path))
          (m.walk visitor again place q))
    (h : Agreeing i p q) (hs : (n.walk visitor again place p).2.failure = none) :
    InStep.Twins Agreeing i True n (n.replaceAt path m) (n.walk visitor again place p)
      ((n.replaceAt path m).walk visitor again place q) := by
  induction path generalizing n p q i place with
  | nil =>
    obtain rfl : n = c := Option.some.inj hc
    exact hw h hs
  | cons slot path ih =>
    obtain ⟨k, hk, hat⟩ := Option.bind_eq_some_iff.1 hc
    rw [comesTo, hk] at hw
    exact agreeing_inStep.walk (twin_replaceAt hc hm hleaf) (slots_replaceAt n slot path m)
      (partTwins_replaceAt hk fun h hs => ih hat hw h hs) h hs

theorem enter_program (hk : n.kind = .program) (p : Typing) : (enter n p).2 = p := by
  obtain ⟨loc, type, s⟩ := n
  cases s <;> cases hk
  unfold enter
  split <;> rfl

/-- **A node in its place in a program.** The pass ends alike, and awaits the same calls. -/
theorem run_replaceAt {program : Node} {t : SymbolTable} (hp : program.kind = .program)
    (hc : program.at? (slot :: path) = some c) (hm : m.kind = c.kind)
    (hleaf : c.kind ≠ .identifier ∧ c.kind ≠ .literal)
    (hw : ∀ {i q place},
      let p := comesTo (Node.visit visitor 0) program (start t) (slot :: path)
      Agreeing i p q → (c.walk visitor (Node.visit visitor 0) place p).2.failure = none →
        InStep.Twins Agreeing i True c m (c.walk visitor (Node.visit visitor 0) place p)
          (m.walk visitor (Node.visit visitor 0) place q))
    (h : (run program t).2.failure = none) :
    Agree (run program t).2 (run (program.replaceAt (slot :: path) m) t).2 ∧
      program.newAwaits (run program t).1 = (program.replaceAt (slot :: path) m).newAwaits
        (run (program.replaceAt (slot :: path) m) t).1 := by
  obtain ⟨k, hk, hat⟩ := Option.bind_eq_some_iff.1 hc
  have hkind : (program.replaceAt (slot :: path) m).kind = program.kind :=
    Node.kind_replaceAt hc hm
  rw [run_eq] at h ⊢
  rw [run_eq]
  dsimp only at h ⊢
  rw [comesTo, hk, enter_program hp] at hw
  have htwins : InStep.PartTwins (Node.visit visitor 0) Agreeing (fun _ => True) program
      (program.replaceAt (slot :: path) m) (start t) :=
    partTwins_replaceAt hk fun h hs => walk_replaceAt hat hm hleaf hw h hs
  have hstart : Agreeing 0 (start t) (start t) := ⟨.refl _, rfl, Nat.zero_le _⟩
  obtain ⟨hstate, hparts⟩ := agreeing_inStep.parts hkind (slots_replaceAt program slot path m)
    htwins hstart h
  refine ⟨hstate.1, ?_⟩
  rw [if_neg (by simp [h]), if_neg (by simp [(agreeing_inStep.failure hstate).2])]
  exact InStep.newAwaits_of_pairs kind_walkParts kind_walkParts hparts

end Typing

end AutoAwait
