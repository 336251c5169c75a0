import AutoAwait.Proofs.Typing.Step
import AutoAwait.Writer

/-!
# The awaits that the pass inserts

A pass that succeeds keeps a tree as it is and puts awaits around some of its calls: exactly around
those that return a promise and are not awaited yet.

* `Node.newAwaits` are the places of the awaits that one tree has and another has not;
* `Typing.Rewrites` describes what the pass does to a tree, `Typing.walk_rewrites` says that it
  does no more;
* `ProgramScope.rewrite_awaits` is the main statement: in the rewritten tree every call that returns
  a promise is awaited, each new await stands around such a call, and without them the tree is the
  one that was rewritten.
-/

namespace AutoAwait

/-- The places of the awaits of the tree `after` that the tree `before` does not have, where the
trees are followed side by side. -/
def Node.newAwaits (before after : Node) : Path → Bool
  | [] => before.kind ≠ .await && after.kind = .await
  | slot :: path =>
    if before.kind ≠ .await && after.kind = .await then
      match after.part? slot with
      | some a => before.newAwaits a path
      | none => false
    else
      match before.part? slot, after.part? slot with
      | some b, some a => b.newAwaits a path
      | _, _ => false

namespace Typing

/-! ## What the pass may do to a tree -/

/-- What can be made of a node that stands in a parent of some kind by putting awaits around calls
that return a promise; around all of them that stand under none, if `all` holds. -/
inductive Rewrites (all : Prop) : Option NodeKind → Node → Node → Prop
  /-- The node stays, and its parts are rewritten. -/
  | keep {parent n m} (loc : m.loc = n.loc) (shape : n.shape.Rel (fun _ _ => True) m.shape)
      (parts : ∀ slot k l, n.part? slot = some k → m.part? slot = some l →
        Rewrites all (some n.kind) k l)
      (settled : all → m.returnsPromise → parent = some .await) : Rewrites all parent n m
  /-- An await is put around the node. -/
  | await {parent n call} (inner : Rewrites all (some .await) n call)
      (promise : call.returnsPromise) (free : parent ≠ some .await) :
      Rewrites all parent n (awaited call)

namespace Rewrites

variable {all : Prop} {n m call : Node} {parent : Option NodeKind} {path : Path}

theorem keep_of_rel (loc : m.loc = n.loc) (h : n.shape.Rel (Rewrites all (some n.kind)) m.shape)
    (settled : all → m.returnsPromise → parent = some .await) : Rewrites all parent n m := by
  refine .keep loc (h.mono fun _ _ _ => trivial) (fun slot k l hk hl => ?_) settled
  obtain ⟨l', hl', hr⟩ := h.part?_some hk
  exact (Option.some.inj (hl.symm.trans hl')) ▸ hr

theorem mono {all' : Prop} (h : Rewrites all parent n m) (hi : all' → all) :
    Rewrites all' parent n m := by
  induction h with
  | keep loc shape parts settled ih => exact .keep loc shape ih fun ha => settled (hi ha)
  | await inner promise free ih => exact .await ih promise free

/-- A node under an await stays. -/
theorem under_await (h : Rewrites all (some .await) n m) :
    m.loc = n.loc ∧ n.shape.Rel (Rewrites all (some n.kind)) m.shape := by
  cases h with
  | keep loc shape parts => exact ⟨loc, shape.of_part? parts⟩
  | await _ _ free => exact absurd rfl free

theorem kind (h : Rewrites all (some .await) n m) : m.kind = n.kind := h.under_await.2.kind.symm

/-- Either a node stays, or an await is put around it. -/
theorem stays_or_awaited (h : Rewrites all parent n m) :
    Rewrites all (some .await) n m ∨ ∃ call, m = awaited call ∧
      Rewrites all (some .await) n call ∧ call.returnsPromise ∧ parent ≠ some .await := by
  cases h with
  | keep loc shape parts => exact .inl (.keep loc shape parts fun _ _ => rfl)
  | await inner promise free => exact .inr ⟨_, rfl, inner, promise, free⟩

theorem name? (h : Rewrites all parent n m) : n.name? = m.name? := by
  cases h with
  | keep _ shape => exact shape.name?
  | await inner promise _ =>
    have hn := inner.kind.symm.trans (Node.kind_of_returnsPromise promise)
    obtain ⟨loc, type, shape⟩ := n
    cases shape <;> first | rfl | cases hn

/-- Only a call can get an await. -/
theorem rel (h : Rewrites all parent n m) (hk : n.kind ≠ .call) :
    n.shape.Rel (Rewrites all (some n.kind)) m.shape := by
  rcases h.stays_or_awaited with h | ⟨call, rfl, h, promise, -⟩
  · exact h.under_await.2
  · exact absurd (h.kind.symm.trans (Node.kind_of_returnsPromise promise)) hk

theorem exists_rel (h : Rewrites all parent n m) (hk : n.kind ≠ .call) :
    ∃ loc type s, m = ⟨loc, type, s⟩ ∧ n.shape.Rel (Rewrites all (some n.kind)) s := by
  obtain ⟨loc, type, s⟩ := m
  exact ⟨loc, type, s, rfl, h.rel hk⟩

theorem keeps_kind (h : Rewrites all parent n m) (hk : n.kind ≠ .call) : m.kind = n.kind :=
  (h.rel hk).kind.symm

/-- What is done to a node under an await can be done to it in any place where it needs none. -/
theorem under (h : Rewrites all (some .await) n m)
    (hs : all → m.returnsPromise → parent = some .await) : Rewrites all parent n m :=
  .keep_of_rel h.under_await.1 h.under_await.2 hs

theorem of_awaited (h : Rewrites all parent n (awaited call)) :
    (∃ type a, n = ⟨call.loc, type, .await a⟩ ∧ Rewrites all (some .await) a call) ∨
      (Rewrites all (some .await) n call ∧ call.returnsPromise ∧ parent ≠ some .await) := by
  rcases h.stays_or_awaited with h | ⟨call', he, inner, promise, free⟩
  · obtain ⟨loc, shape⟩ := h.under_await
    obtain ⟨nloc, type, nshape⟩ := n
    cases shape with
    | await ha =>
      obtain rfl : call.loc = nloc := loc
      exact .inl ⟨type, _, rfl, ha⟩
  · simp only [awaited, Node.mk.injEq, Shape.await.injEq] at he
    obtain rfl := he.2.2
    exact .inr ⟨inner, promise, free⟩

/-- A call that needs an await stands under one. -/
theorem awaited_of_at? (h : Rewrites True parent n m) (hc : m.at? path = some call)
    (hp : call.returnsPromise) :
    (path = [] ∧ parent = some .await) ∨ ∃ above w, path = above ++ [.argument] ∧
      m.at? above = some w ∧ w.shape = .await call := by
  induction h generalizing path with
  | @keep parent n m loc shape parts settled ih =>
    cases path with
    | nil =>
      obtain rfl : m = call := Option.some.inj hc
      exact .inl ⟨rfl, settled trivial hp⟩
    | cons slot path =>
      obtain ⟨l, hl, hc⟩ := Option.bind_eq_some_iff.1 hc
      obtain ⟨k, hk, -⟩ := shape.symm.part?_some hl
      right
      rcases ih slot k l hk hl hc with ⟨rfl, ha⟩ | ⟨above, w, rfl, hw, hs⟩
      · obtain rfl : l = call := Option.some.inj hc
        obtain ⟨loc, type, ms⟩ := m
        have hm : ms.kind = .await := shape.kind.symm.trans (Option.some.inj ha)
        cases ms <;> cases hm
        rename_i a
        rw [Node.part?, Shape.part?_await] at hl
        split at hl
        · subst slot
          exact ⟨[], _, rfl, rfl, congrArg _ (Option.some.inj hl)⟩
        · cases hl
      · exact ⟨slot :: above, w, rfl, by rw [Node.at?, hl]; exact hw, hs⟩
  | @await parent n m inner promise free ih =>
    right
    cases path with
    | nil =>
      obtain rfl : awaited m = call := Option.some.inj hc
      cases hp
    | cons slot path =>
      obtain ⟨l, hl, hc⟩ := Option.bind_eq_some_iff.1 hc
      rw [Node.part?, awaited, Shape.part?_await] at hl
      split at hl
      · subst slot
        obtain rfl := Option.some.inj hl
        rcases ih hc with ⟨rfl, -⟩ | ⟨above, w, rfl, hw, hs⟩
        · exact ⟨[], _, rfl, rfl, congrArg _ (Option.some.inj hc)⟩
        · exact ⟨.argument :: above, w, rfl, hw, hs⟩
      · cases hl

/-- A new await stands around a call that needs one, and has its place and type. -/
theorem newAwaits_at? (h : Rewrites all parent n m) (hn : n.newAwaits m path) :
    ∃ call, call.returnsPromise ∧ m.at? path = some (awaited call) := by
  induction h generalizing path with
  | @keep parent n m loc shape parts settled ih =>
    have hk : n.kind = m.kind := shape.kind
    cases path with
    | nil => simp [Node.newAwaits, hk] at hn
    | cons slot path =>
      have hc : ¬(n.kind ≠ .await && m.kind = .await) := by simp [hk]
      simp only [Node.newAwaits, if_neg hc] at hn
      split at hn
      · next k l hk hl =>
        obtain ⟨call, hp, ha⟩ := ih slot k l hk hl hn
        exact ⟨call, hp, by rw [Node.at?, hl]; exact ha⟩
      · cases hn
  | @await parent n call inner promise free ih =>
    cases path with
    | nil => exact ⟨call, promise, rfl⟩
    | cons slot path =>
      have hc : (n.kind ≠ .await && (awaited call).kind = .await) := by
        rw [← inner.kind, Node.kind_of_returnsPromise promise]; rfl
      simp only [Node.newAwaits, if_pos hc] at hn
      split at hn
      · next a ha =>
        rw [Node.part?, awaited, Shape.part?_await] at ha
        split at ha
        · subst slot
          obtain rfl := Option.some.inj ha
          exact ih hn
        · cases ha
      · cases hn

/-- Without the new awaits a rewritten tree is the one that was rewritten, types apart. -/
theorem unwrap_newAwaits (h : Rewrites all parent n m) :
    (m.unwrap (n.newAwaits m)).withoutTypes = n.withoutTypes := by
  induction h with
  | @keep parent n m loc shape parts settled ih =>
    have hc : (n.kind ≠ .await && m.kind = .await) = false := by
      rw [show n.kind = m.kind from shape.kind]; simp
    rw [Node.unwrap_of_not hc, Node.withoutTypes_eq, Node.withoutTypes_eq n, loc]
    congr 1
    rw [Shape.map_mapSlots]
    apply (((Shape.rel_mapSlots _ _).symm.comp shape.symm).comp (Shape.rel_map _ _)).eq_of_part?
    intro slot a b ha hb
    rw [Shape.part?_mapSlots, Option.map_eq_some_iff] at ha
    rw [Shape.part?_map, Option.map_eq_some_iff] at hb
    obtain ⟨l, hl, rfl⟩ := ha
    obtain ⟨k, hk, rfl⟩ := hb
    rw [← ih slot k l hk hl]
    congr 2
    funext path
    simp only [PathSet.under, Node.newAwaits, hc, Node.part?, hk, hl]
    rfl
  | @await parent n call inner promise free ih =>
    have hc : (n.kind ≠ .await && (awaited call).kind = .await) = true := by
      rw [← inner.kind, Node.kind_of_returnsPromise promise]; rfl
    rw [awaited, Node.unwrap_await hc, ← ih]
    congr 2
    funext path
    simp only [PathSet.under, Node.newAwaits, Node.part?, Shape.part?_await, if_true]
    exact if_pos hc

end Rewrites

/-! ## The pass -/

/-- **What the pass does.** A walk of the pass that succeeds rewrites a tree. -/
theorem walk_rewrites {again : Place → Node → StateM Typing Node} (n : Node) {place : Place}
    {p : Typing} (h : (n.walk visitor again place p).2.failure = none) :
    Rewrites True place.parent? n (n.walk visitor again place p).1 := by
  induction n using Node.induction generalizing place p with
  | step n ih =>
    have hp := walk_place place h
    rw [hp] at h ⊢
    obtain ⟨-, hd, he⟩ := walk_ok h
    obtain ⟨t, ht, -⟩ := leaveNode_annotates (descended again n p).2 (descended again n p).1
    have hi : Rewrites True (some .await) n (n.walk visitor again awaitPlace p).1 := by
      rw [he, ht]
      exact .keep_of_rel rfl (walkParts_ok hd fun slot k hk q hq => ih k hk hq)
        fun _ _ => rfl
    by_cases hw : (n.walk visitor again awaitPlace p).1.returnsPromise ∧
        place.parent? ≠ some .await
    · simp only [wrap, if_pos hw]
      exact .await hi hw.1 hw.2
    · simp only [wrap, if_neg hw]
      exact hi.under fun _ hp => not_not.1 fun hf => hw ⟨hp, hf⟩

theorem run_eq (program : Node) (table : SymbolTable) :
    run program table =
      let r := walkParts (Node.visit visitor 0) program (start table)
      let n : Node := { program with shape := r.1 }
      (if r.2.failure.isSome then n else typed n r.2.table.unknown, r.2) := rfl

/-- What a walk carries along a run of the pass carries along. -/
theorem Carried.run {R : Typing → Typing → Prop} {T : Typing → Node → Prop} (hc : Carried R T)
    (program : Node) (table : SymbolTable) :
    R (start table) (run program table).2 ∧ ((run program table).2.failure = none →
      ∀ m ∈ (run program table).1.shape.parts, T (start table) m) := by
  rw [run_eq]
  obtain ⟨hr, ht⟩ :=
    hc.parts (fun k _ slot p => hc.walk k (.part program.kind slot) p)
      (start table)
  refine ⟨hr, fun h => ?_⟩
  simp only at h
  simp only [h, Option.isSome_none, Bool.false_eq_true, if_false]
  exact ht h

/-- A run of the pass that succeeds rewrites a program. -/
theorem run_rewrites {program : Node} {table : SymbolTable} (hk : program.kind ≠ .call)
    (h : (run program table).2.failure = none) :
    Rewrites True none program (run program table).1 := by
  rw [run_eq] at h ⊢
  have hr : program.shape.Rel (Rewrites True (some program.kind))
      (walkParts (Node.visit visitor 0) program (start table)).1 :=
    walkParts_ok h fun slot k _ q hq => walk_rewrites k hq
  simp only at h
  simp only [h, Option.isSome_none, Bool.false_eq_true, if_false]
  exact .keep_of_rel rfl hr fun _ hp =>
    absurd (hr.kind.trans (Node.kind_of_returnsPromise hp)) hk

end Typing

namespace ProgramScope

/-- A tree is rewritten without an error if the pass succeeds, and is what the pass makes of it. -/
theorem rewrite_of_run {s : ProgramScope} {t : SymbolTable} {tree : Node}
    (h : (Typing.run tree (s.enter t).2).2.failure = none) :
    (s.rewrite t tree).failure = none ∧
      (s.rewrite t tree).tree = (Typing.run tree (s.enter t).2).1 ∧
      (s.rewrite t tree).table = (Typing.run tree (s.enter t).2).2.table ∧
      (s.rewrite t tree).scope = (s.enter t).1 := by
  simp only [rewrite, h, and_self]

theorem rewrite_ok {s : ProgramScope} {t : SymbolTable} {tree : Node}
    (h : (s.rewrite t tree).failure = none) :
    (Typing.run tree (s.enter t).2).2.failure = none ∧
      (s.rewrite t tree).tree = (Typing.run tree (s.enter t).2).1 ∧
      (s.rewrite t tree).table = (Typing.run tree (s.enter t).2).2.table ∧
      (s.rewrite t tree).scope = (s.enter t).1 := by
  have hr : (Typing.run tree (s.enter t).2).2.failure = none := by
    simp only [rewrite] at h
    split at h
    · assumption
    · split at h <;> cases h
  exact ⟨hr, (rewrite_of_run hr).2⟩

/-- **The awaits of a rewritten program.** In a program that has been rewritten every call that
returns a promise is the argument of an await; each await that was not there before stands around
such a call, and has its place and its type; and if just these awaits are taken out, the program
that was rewritten is left, with other types. -/
theorem rewrite_awaits (s : ProgramScope) (t : SymbolTable) {tree : Node}
    (hk : tree.kind = .program) (h : (s.rewrite t tree).failure = none) :
    (∀ path call, (s.rewrite t tree).tree.at? path = some call → call.returnsPromise →
      ∃ above w, path = above ++ [.argument] ∧ (s.rewrite t tree).tree.at? above = some w ∧
        w.shape = .await call) ∧
    (∀ path, tree.newAwaits (s.rewrite t tree).tree path →
      ∃ call, call.returnsPromise ∧
        (s.rewrite t tree).tree.at? path = some ⟨call.loc, call.type, .await call⟩) ∧
    ((s.rewrite t tree).tree.unwrap (tree.newAwaits (s.rewrite t tree).tree)).withoutTypes =
      tree.withoutTypes := by
  obtain ⟨hr, ht, -⟩ := rewrite_ok h
  have hw := Typing.run_rewrites (by rw [hk]; decide) hr
  rw [← ht] at hw
  refine ⟨fun path call hc hp => ?_, fun path hn => hw.newAwaits_at? hn, hw.unwrap_newAwaits⟩
  rcases hw.awaited_of_at? hc hp with ⟨-, ha⟩ | ha
  · cases ha
  · exact ha

/-- The script `f()` gets an await if `f` returns a promise. -/
theorem rewrite_awaits_of_call :
    let f : ShellType := .function none .absent true
    let call : Node := ⟨.start, none, .call ⟨.start, none, .identifier "f"⟩ []⟩
    let tree : Node := ⟨.start, none, .program [⟨.start, none, .expression call⟩]⟩
    let r := unopened.rewrite (.ofScope (.ofTypes []) [("f", .type f)]) tree
    let path : Path := [⟨"body", some 0⟩, ⟨"expression", none⟩]
    tree.kind = .program ∧ r.failure = none ∧ tree.newAwaits r.tree path ∧
      ∃ call, call.returnsPromise ∧ r.tree.at? path = some ⟨call.loc, call.type, .await call⟩ :=
  ⟨rfl, rfl, rfl, (rewrite_awaits _ _ rfl rfl).2.1 _ rfl⟩

end ProgramScope

end AutoAwait
