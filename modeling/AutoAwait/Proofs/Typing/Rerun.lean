import AutoAwait.Proofs.Typing.Awaits

/-!
# Running the pass again

The pass on its own output changes nothing, and neither does it matter how many of the awaits that
it would insert are there already: from the same table it ends with the same tree, the same types
and the same table.

* `Node.rewrites_of_unwrap` aligns a tree from which some awaits are missing with the whole tree;
* `Typing.walk_again` keeps the two walks in step;
* `ProgramScope.rewrite_again` is the main statement.
-/

namespace AutoAwait

/-! ## Trees from which awaits are missing -/

/-- A tree without some of its new awaits becomes the whole tree when they are put back. -/
theorem Node.rewrites_of_unwrap {all : Prop} {parent : Option NodeKind} {n m k : Node}
    {chosen : PathSet} (h : Typing.Rewrites all parent n m)
    (hc : ∀ path, chosen path → n.newAwaits m path)
    (hk : k.withoutTypes = (m.unwrap chosen).withoutTypes) :
    Typing.Rewrites False parent k m := by
  induction h generalizing k chosen with
  | @keep parent n m loc shape parts settled ih =>
    have hn : n.kind = m.kind := shape.kind
    have hc0 : chosen [] = false :=
      Bool.eq_false_iff.2 fun h => by simpa [Node.newAwaits, hn] using hc [] h
    rw [Node.unwrap_of_not hc0, Node.withoutTypes_eq, Node.withoutTypes_eq (mk ..),
      Shape.map_mapSlots] at hk
    obtain ⟨hl, hs⟩ : k.loc = m.loc ∧ k.shape.map withoutTypes = m.shape.mapSlots
        fun slot a => (a.unwrap (chosen.under slot)).withoutTypes := by simpa using hk
    have hr : k.shape.Rel (fun _ _ => True) m.shape := by
      refine ((Shape.rel_map withoutTypes k.shape).comp
        (hs ▸ (Shape.rel_mapSlots _ m.shape).symm)).mono fun _ _ _ => trivial
    refine .keep hl.symm hr (fun slot a l ha hml => ?_) False.elim
    obtain ⟨b, hb, -⟩ := shape.symm.part?_some hml
    have hp := congrArg (·.part? slot) hs
    simp only [Shape.part?_map, Shape.part?_mapSlots, show k.shape.part? slot = some a from ha,
      show m.shape.part? slot = some l from hml, Option.map_some, Option.some.injEq] at hp
    rw [show k.kind = n.kind from hr.kind.trans hn.symm]
    refine ih slot b l hb hml (fun path h => ?_) hp
    have := hc (slot :: path) h
    simpa [Node.newAwaits, hn, show n.part? slot = some b from hb,
      show m.part? slot = some l from hml] using this
  | @await parent n call inner promise free ih =>
    have hw : (n.kind ≠ .await && (Typing.awaited call).kind = .await) = true := by
      rw [← inner.kind, Node.kind_of_returnsPromise promise]; rfl
    have hc' : ∀ path, chosen.under .argument path → n.newAwaits call path := by
      intro path h
      have := hc (.argument :: path) h
      simp only [Node.newAwaits, if_pos hw] at this
      simpa [Typing.awaited, Node.part?] using this
    cases hc0 : chosen [] with
    | true =>
      rw [Typing.awaited, Node.unwrap_await hc0] at hk
      exact .await (ih hc' hk) promise free
    | false =>
      rw [Node.unwrap_of_not hc0, Node.withoutTypes_eq, Node.withoutTypes_eq (mk ..)] at hk
      obtain ⟨loc, type, shape⟩ := k
      cases shape <;> simp [Shape.map, Typing.awaited, Shape.mapSlots, Shape.traverse,
        Shape.traverseOne] at hk
      rename_i a
      refine .keep hk.1.symm (.await trivial) (fun slot b l hb hl => ?_) False.elim
      rw [Node.part?, Typing.awaited, Shape.part?_await] at hl
      rw [Node.part?, Shape.part?_await] at hb
      split at hl
      · rw [if_pos ‹_›] at hb
        obtain rfl := Option.some.inj hl
        obtain rfl := Option.some.inj hb
        exact ih hc' hk.2
      · cases hl

namespace Typing

variable {again : Place → Node → StateM Typing Node}

/-! ## Two walks in step -/

theorem mapM_again {kind : NodeKind} {ks ls : List (Slot × Node)} {p q : Typing}
    (ih : ∀ k ∈ ks, ∀ {l p q}, Agree p q → (walkPart again kind k.1 k.2 p).2.failure = none →
      Rewrites False (some kind) l (walkPart again kind k.1 k.2 p).1 →
        Same (walkPart again kind k.1 k.2 p) (walkPart again kind k.1 l q))
    (hs : List.Forall₂ (fun k l => k.1 = l.1) ks ls)
    (hr : List.Forall₂ (fun l r => Rewrites False (some kind) l.2 r) ls
      (ks.mapM (fun k => walkPart again kind k.1 k.2) p).1)
    (ha : Agree p q)
    (h : (ks.mapM (fun k => walkPart again kind k.1 k.2) p).2.failure = none) :
    Agree (ks.mapM (fun k => walkPart again kind k.1 k.2) p).2
        (ls.mapM (fun l => walkPart again kind l.1 l.2) q).2 ∧
      (ks.mapM (fun k => walkPart again kind k.1 k.2) p).1 =
        (ls.mapM (fun l => walkPart again kind l.1 l.2) q).1 := by
  induction hs generalizing p q with
  | nil => exact ⟨ha, rfl⟩
  | @cons k l ks ls hkl hs ih' =>
    rw [Shape.mapM_cons_run] at hr h ⊢
    obtain ⟨hr, hrs⟩ := List.forall₂_cons.1 hr
    have hk := failure_of_mapM h
    obtain ⟨ha, he⟩ := ih k (by simp) ha hk hr
    obtain ⟨ha, hes⟩ := ih' (fun k hm => ih k (List.mem_cons_of_mem _ hm)) hrs ha h
    rw [Shape.mapM_cons_run, ← hkl, he hk, hes]
    exact ⟨ha, rfl⟩

variable {n m : Node} {place : Place} {p q : Typing}

theorem walkParts_again
    (ih : ∀ slot, ∀ k ∈ n.shape.parts, ∀ {l p q}, Agree p q →
      (walkPart again n.kind slot k p).2.failure = none →
        Rewrites False (some n.kind) l (walkPart again n.kind slot k p).1 →
          Same (walkPart again n.kind slot k p) (walkPart again n.kind slot l q))
    (hs : m.shape.Rel (Rewrites False (some n.kind)) (walkParts again n p).1)
    (ha : Agree p q) (h : (walkParts again n p).2.failure = none) :
    Agree (walkParts again n p).2 (walkParts again m q).2 ∧
      (walkParts again n p).1 = (walkParts again m q).1 := by
  have hr := Shape.rel_traverse (walkPart again n.kind) n.shape p
  have hk : m.kind = n.kind := hs.kind.trans hr.kind.symm
  have hl : List.Forall₂ (fun k l => k.1 = l.1) n.shape.kids m.shape.kids :=
    (hr.comp hs.symm).kids.imp fun _ _ h => h.1
  have hp := hs.parts
  rw [walkParts_parts, Shape.parts, List.forall₂_map_left_iff] at hp
  rw [walkParts_snd] at h
  obtain ⟨hm, he⟩ := mapM_again (fun k hm => ih k.1 k.2 (List.mem_map.2 ⟨k, hm, rfl⟩)) hl hp ha h
  refine ⟨by rw [walkParts_snd, walkParts_snd, hk]; exact hm, ?_⟩
  apply (hs.symm.comp (Shape.rel_traverse (walkPart again m.kind) m.shape q)).eq_of_parts
  rw [walkParts_parts, walkParts_parts, hk]
  exact he

theorem descended_await {loc : Position} {type : Option ShellType} {a : Node}
    (h : p.failure = none) :
    descended again ⟨loc, type, .await a⟩ p =
      (⟨loc, type, .await (a.walk visitor again awaitPlace p).1⟩,
        (a.walk visitor again awaitPlace p).2) := by
  have he : (enter ⟨loc, type, .await a⟩ p).2 = p := by
    simp [enter, h, Node.kind, Shape.kind, NodeKind.opensScope]
  simp only [descended, he]
  rfl

/-- The walk of the pass over an await. -/
theorem walk_await {loc : Position} {type : Option ShellType} {a : Node} (h : p.failure = none)
    (hw : (a.walk visitor again awaitPlace p).2.failure = none) :
    (⟨loc, type, .await a⟩ : Node).walk visitor again place p =
      let r := a.walk visitor again awaitPlace p
      (⟨loc, some (r.2.typeOf r.1), .await r.1⟩, r.2.note (.await (r.2.typeOf r.1).name)) := by
  rw [walk_run h, descended_await h, if_neg (by rw [hw]; simp)]
  rfl

/-- Walks that are in step under an await are in step everywhere. -/
theorem same_of_awaitPlace (place : Place)
    (h : (n.walk visitor again awaitPlace p).2.failure = none)
    (hs : Same (n.walk visitor again awaitPlace p) (m.walk visitor again awaitPlace q)) :
    Same (wrap place (n.walk visitor again awaitPlace p).1,
      (n.walk visitor again awaitPlace p).2) (m.walk visitor again place q) := by
  have hm : (m.walk visitor again awaitPlace q).2.failure = none := hs.1.failure ▸ h
  rw [walk_place place hm, hs.2 h]
  exact ⟨hs.1, fun _ => rfl⟩

/-- Two walks over one node, or over a node with awaits in its parts, stay in step if the walks over
the parts do. -/
theorem walk_again_of_parts
    (ih : ∀ slot, ∀ k ∈ n.shape.parts, ∀ {l p q}, Agree p q →
      (walkPart again n.kind slot k p).2.failure = none →
        Rewrites False (some n.kind) l (walkPart again n.kind slot k p).1 →
          Same (walkPart again n.kind slot k p) (walkPart again n.kind slot l q))
    (hr : Rewrites False (some .await) m (n.walk visitor again awaitPlace p).1)
    (ha : Agree p q) (h : (n.walk visitor again awaitPlace p).2.failure = none) :
    Same (n.walk visitor again awaitPlace p) (m.walk visitor again awaitPlace q) := by
  obtain ⟨hp, hd, he⟩ := walk_ok h
  obtain ⟨t, ht, -⟩ := leaveNode_annotates (descended again n p).2 (descended again n p).1
  obtain ⟨loc, shape⟩ := hr.under_await
  rw [he, ht] at loc shape
  have hk : m.kind = n.kind := shape.kind.trans (Shape.rel_traverse _ _ _).kind.symm
  have hs : m.shape.Rel (Rewrites False (some n.kind)) (walkParts again n (enter n p).2).1 :=
    hk ▸ shape
  have hnames : n.shape.Rel (fun k l => k.name? = l.name?) m.shape := by
    have hl := walkParts_ok (n := n) (R := fun k l => k.name? = l.name?) hd fun slot k _ q hq =>
      (walk_rewrites k hq).name?
    exact (hl.comp hs.symm).mono fun k l ⟨b, hb, hc⟩ => hb.trans hc.name?.symm
  obtain ⟨hg, heq⟩ := walkParts_again ih hs (ha.enter hnames) hd
  have hq : q.failure = none := ha.failure ▸ hp
  have hd' : (descended again m q).2.failure = none := hg.failure ▸ hd
  rw [he, walk_run hq, if_neg (by rw [hd']; simp)]
  simp only [← heq, ← show n.loc = m.loc from loc]
  exact same_leaveNode hg awaitPlace

/-- A walk that ends with an await has walked over one. -/
theorem walk_eq_awaited {call : Node} (h : (n.walk visitor again awaitPlace p).2.failure = none)
    (hc : (n.walk visitor again awaitPlace p).1 = awaited call) :
    ∃ a ∈ n.shape.parts, (a.walk visitor again awaitPlace p).1 = call ∧
      (a.walk visitor again awaitPlace p).2.failure = none ∧
        Agree (n.walk visitor again awaitPlace p).2 (a.walk visitor again awaitPlace p).2 := by
  have hn : n.kind = .await := (walk_rewrites n h).kind.symm.trans (congrArg Node.kind hc)
  obtain ⟨hp, hd, -⟩ := walk_ok h
  obtain ⟨loc, type, shape⟩ := n
  cases shape <;> cases hn
  rename_i a
  rw [descended_await hp] at hd
  rw [walk_await hp hd] at hc ⊢
  simp only [awaited, Node.mk.injEq, Shape.await.injEq] at hc
  exact ⟨a, by simp [Shape.parts, Shape.kids, Shape.one], hc.2.2, hd, (Agree.refl _).note_left _⟩

/-- **Two walks in step.** Whatever tree a walk ends with, and however many of the awaits of that
tree are there already, the walk ends with the same tree, and in the same state but for the log. -/
theorem walk_again (n : Node) {m : Node} {place : Place} {p q : Typing} (ha : Agree p q)
    (h : (n.walk visitor again place p).2.failure = none)
    (hr : Rewrites False place.parent? m (n.walk visitor again place p).1) :
    Same (n.walk visitor again place p) (m.walk visitor again place q) := by
  induction n using Node.induction generalizing m place p q with
  | step n ih =>
    have hw := walk_place place h
    rw [hw] at h hr ⊢
    simp only at h hr
    have hcore : ∀ {m q}, Agree p q →
        Rewrites False (some .await) m (n.walk visitor again awaitPlace p).1 →
          Same (n.walk visitor again awaitPlace p) (m.walk visitor again awaitPlace q) :=
      fun ha hr => walk_again_of_parts (fun slot k hk _ _ _ ha h hr => ih k hk ha h hr) hr ha h
    by_cases hp : (n.walk visitor again awaitPlace p).1.returnsPromise ∧
        place.parent? ≠ some .await
    · -- the walk puts an await around the node, which the other tree may have already
      rw [wrap, if_pos hp] at hr
      rcases hr.of_awaited with ⟨type, a, rfl, hi⟩ | ⟨hi, -, -⟩
      · obtain ⟨hg, he⟩ := hcore ha hi
        have hq : q.failure = none := ha.failure ▸ (walk_ok h).1
        obtain ⟨t, ht⟩ := Option.isSome_iff_exists.1 (walk_typed n h)
        rw [walk_await hq (hg.failure ▸ h), wrap, if_pos hp]
        refine ⟨hg.note_right _, fun _ => ?_⟩
        simp only [← he h, awaited, typeOf, ht, Option.bind_some, Option.getD_some]
      · exact same_of_awaitPlace place h (hcore ha hi)
    · -- the node stays, but it may itself be an await that the other tree does not have
      have hk : wrap place (n.walk visitor again awaitPlace p).1 =
        (n.walk visitor again awaitPlace p).1 := if_neg hp
      rw [hk] at hr
      rcases hr.stays_or_awaited with hr | ⟨call, hc, hr, promise, free⟩
      · exact same_of_awaitPlace place h (hcore ha hr)
      · obtain ⟨a, hm, rfl, hd, hg⟩ := walk_eq_awaited h hc
        obtain ⟨hg', hs⟩ := same_of_awaitPlace place hd (ih a hm ha hd hr)
        refine ⟨⟨hg.table.trans hg'.table, hg.returns.trans hg'.returns,
          hg.failure.trans hg'.failure⟩, fun _ => ?_⟩
        rw [← hs hd, hk, hc, wrap, if_pos ⟨promise, free⟩]

/-- A walk does not depend on what was logged. -/
theorem walk_agree (n : Node) {place : Place} {p q : Typing} (ha : Agree p q)
    (h : (n.walk visitor again place p).2.failure = none) :
    Same (n.walk visitor again place p) (n.walk visitor again place q) :=
  walk_again n ha h ((walk_rewrites n h).mono nofun)

/-- A run of the pass on a program that has some of the awaits of another run already ends alike. -/
theorem run_again {program again : Node} {table : SymbolTable} (hk : program.kind = .program)
    (h : (run program table).2.failure = none)
    (hr : Rewrites False none again (run program table).1) :
    Same (run program table) (run again table) := by
  have hrk := (run_rewrites (by rw [hk]; decide) h).keeps_kind (by rw [hk]; decide)
  rcases hr.stays_or_awaited with hr | ⟨call, hc, -⟩
  · obtain ⟨loc, shape⟩ := hr.under_await
    rw [hr.kind.symm.trans (hrk.trans rfl)] at shape
    rw [run_eq] at h loc shape ⊢
    rw [run_eq]
    simp only at h
    simp only [h, Option.isSome_none, Bool.false_eq_true, if_false] at loc shape ⊢
    obtain ⟨hg, he⟩ := walkParts_again (fun slot k _ _ _ _ ha h hr => walk_again k ha h hr) shape
      (Agree.refl _) h
    refine ⟨hg, fun _ => ?_⟩
    simp only [← hg.failure, h, ← he, typed, hg.table, Option.isSome_none, Bool.false_eq_true, if_false]
    rw [show program.loc = again.loc from loc]
  · rw [hc, hk] at hrk
    cases hrk

end Typing

namespace ProgramScope

/-- **Running the pass again.** Take a rewritten program without any of the awaits that the pass has
put into it, and with whatever types: rewritten from the same table, it becomes the same program,
with the same types, and leaves the same table. -/
theorem rewrite_again (s : ProgramScope) (t : SymbolTable) {tree : Node} (hk : tree.kind = .program)
    (h : (s.rewrite t tree).failure = none) {chosen : PathSet}
    (hc : ∀ path, chosen path → tree.newAwaits (s.rewrite t tree).tree path) {again : Node}
    (ha : again.withoutTypes = ((s.rewrite t tree).tree.unwrap chosen).withoutTypes) :
    (s.rewrite t again).failure = none ∧ (s.rewrite t again).tree = (s.rewrite t tree).tree ∧
      (s.rewrite t again).table = (s.rewrite t tree).table ∧
      (s.rewrite t again).scope = (s.rewrite t tree).scope := by
  obtain ⟨hr, ht, htable, hscope⟩ := rewrite_ok h
  have hw := Typing.run_rewrites (by rw [hk]; decide) hr
  rw [ht] at hc ha
  obtain ⟨hg, he⟩ := Typing.run_again hk hr (Node.rewrites_of_unwrap hw hc ha)
  obtain ⟨hf, ht', htable', hscope'⟩ := rewrite_of_run (hg.failure ▸ hr)
  rw [ht, htable, hscope, ht', htable', hscope', he hr, hg.table]
  exact ⟨hf, rfl, rfl, rfl⟩

/-- The script `f()`, where `f` returns a promise, ends the same with its new await. -/
theorem rewrite_again_of_call :
    let f : ShellType := .function none .absent true
    let call : Node := ⟨.start, none, .call ⟨.start, none, .identifier "f"⟩ []⟩
    let tree : Node := ⟨.start, none, .program [⟨.start, none, .expression call⟩]⟩
    let t : SymbolTable := .ofScope (.ofTypes []) [("f", .type f)]
    let r := unopened.rewrite t tree
    r.failure = none ∧ (unopened.rewrite t r.tree).tree = r.tree ∧
      (unopened.rewrite t r.tree).table = r.table := by
  intro f call tree t r
  have h := @rewrite_again unopened t tree rfl rfl (fun _ => false) nofun r.tree
    (congrArg Node.withoutTypes (Node.unwrap_none r.tree).symm)
  exact ⟨rfl, h.2.1, h.2.2.1⟩

end ProgramScope

end AutoAwait
