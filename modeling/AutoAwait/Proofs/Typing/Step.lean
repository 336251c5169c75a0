import AutoAwait.Proofs.Tree.Path
import AutoAwait.Typing

/-!
# What the pass does at a node

The steps of the typing pass, for proofs that follow the pass through a tree.

* After an error nothing changes: `Typing.walk_failed`. So a pass that succeeds has succeeded at
  every node, and `Typing.walk_ok` takes its walk over a node apart;
* `Typing.Carried.walk` is the induction over a walk, for what leaving a node carries along;
* `Typing.wrap` is the only thing that depends on where a node stands: `Typing.walk_place`;
* `Typing.Agree` relates two states of the pass that differ in their logs only, and no step sees
  the difference.
-/

namespace AutoAwait

/-- Is this a call of something that returns a promise? -/
def Node.returnsPromise (n : Node) : Bool :=
  match n.shape with
  | .call callee _ => callee.type.any (·.returnsPromise)
  | _ => false

theorem Node.kind_of_returnsPromise {n : Node} (h : n.returnsPromise) : n.kind = .call := by
  obtain ⟨loc, type, shape⟩ := n
  cases shape <;> first | rfl | cases h

namespace Typing

variable {p p' : Typing} {n m : Node} {place : Place} {again : Place → Node → StateM Typing Node}

/-! ## After an error -/

theorem leaveWith_failed (h : p.failure.isSome) :
    Node.leaveWith visitor again place n p = (n, p) := by
  simp only [Node.leaveWith, visitor, Shape.bind_run, leave, h, if_true]
  rfl

theorem walk_failed (h : p.failure.isSome) : n.walk visitor again place p = (n, p) := by
  rw [Node.walk_eq, Shape.bind_run]
  simp only [visitor, enter, h, if_true]
  exact leaveWith_failed h

/-- The walk of the pass over a part of a node of some kind. -/
abbrev walkPart (again : Place → Node → StateM Typing Node) (kind : NodeKind) (slot : Slot)
    (k : Node) : StateM Typing Node := k.walk visitor again (.part kind slot)

/-- The walk of the pass over the parts of a node. -/
abbrev walkParts (again : Place → Node → StateM Typing Node) (n : Node) :
    StateM Typing (Shape Node) :=
  n.shape.traverse (walkPart again n.kind)

theorem mapM_failed {kind : NodeKind} (ks : List (Slot × Node)) (h : p.failure.isSome) :
    (ks.mapM (fun k => walkPart again kind k.1 k.2) p).2 = p := by
  induction ks with
  | nil => rfl
  | cons k ks ih => rw [Shape.mapM_cons_run, walkPart, walk_failed h, ih]

theorem failure_of_mapM {kind : NodeKind} {ks : List (Slot × Node)}
    (h : (ks.mapM (fun k => walkPart again kind k.1 k.2) p).2.failure = none) :
    p.failure = none := by
  by_contra hp
  rw [mapM_failed ks (Option.ne_none_iff_isSome.1 hp)] at h
  exact hp h

theorem walkParts_snd : (walkParts again n p).2 =
    (n.shape.kids.mapM (fun k => walkPart again n.kind k.1 k.2) p).2 :=
  congrArg Prod.snd (Shape.parts_traverse_run _ n.shape _)

theorem walkParts_parts : (walkParts again n p).1.parts =
    (n.shape.kids.mapM (fun k => walkPart again n.kind k.1 k.2) p).1 :=
  congrArg Prod.fst (Shape.parts_traverse_run _ n.shape _)

/-- A node whose parts have been walked over, and the state of the pass then. -/
abbrev descended (again : Place → Node → StateM Typing Node) (n : Node) (p : Typing) :
    Node × Typing :=
  let r := walkParts again n (enter n p).2
  ({ n with shape := r.1 }, r.2)

theorem kind_walkParts : (walkParts again n p).1.kind = n.kind :=
  (Shape.rel_traverse (walkPart again n.kind) n.shape p).kind.symm

theorem walk_run (h : p.failure = none) : n.walk visitor again place p =
    if (descended again n p).2.failure.isSome then descended again n p
    else (descended again n p).2.leaveNode place (descended again n p).1 := by
  have he : (enter n p).1 = .descend := by
    simp only [enter, h, Option.isSome_none, Bool.false_eq_true, if_false]
    cases n.shape <;> rfl
  rw [Node.walk_eq, Shape.bind_run]
  simp only [visitor, he]
  change Node.leaveWith visitor again place (descended again n p).1 (descended again n p).2 = _
  split
  · exact leaveWith_failed ‹_›
  · simp only [Node.leaveWith, visitor, Shape.bind_run, leave, ‹¬ _›]
    rfl

/-- A walk that succeeds: the parts are walked over with success, and the node is left. -/
theorem walk_ok (h : (n.walk visitor again place p).2.failure = none) :
    p.failure = none ∧ (descended again n p).2.failure = none ∧
      n.walk visitor again place p =
        (descended again n p).2.leaveNode place (descended again n p).1 := by
  have hp : p.failure = none := by
    by_contra hp
    rw [walk_failed (Option.ne_none_iff_isSome.1 hp)] at h
    exact hp h
  rw [walk_run hp] at h ⊢
  split at h
  · next hf => rw [h] at hf; cases hf
  · next hf => exact ⟨hp, Option.not_isSome_iff_eq_none.1 hf, if_neg hf⟩

/-- What every walk over a part that succeeds leads to holds, part by part, of a walk over the parts
that succeeds. -/
theorem walkParts_ok {R : Node → Node → Prop} (h : (walkParts again n p).2.failure = none)
    (hk : ∀ slot, ∀ k ∈ n.shape.parts, ∀ q, (walkPart again n.kind slot k q).2.failure = none →
      R k (walkPart again n.kind slot k q).1) :
    n.shape.Rel R (walkParts again n p).1 := by
  apply (Shape.rel_traverse _ _ _).of_parts
  rw [walkParts_parts, Shape.parts]
  rw [walkParts_snd] at h
  replace hk : ∀ k ∈ n.shape.kids, ∀ q, (walkPart again n.kind k.1 k.2 q).2.failure = none →
      R k.2 (walkPart again n.kind k.1 k.2 q).1 := fun k hm =>
    hk k.1 k.2 (List.mem_map.2 ⟨k, hm, rfl⟩)
  generalize n.shape.kids = ks at h hk ⊢
  induction ks generalizing p with
  | nil => exact .nil
  | cons k ks ih =>
    rw [Shape.mapM_cons_run] at h ⊢
    exact .cons (hk k (by simp) p (failure_of_mapM h))
      (ih h fun k' hm => hk k' (List.mem_cons_of_mem _ hm))

/-! ## Induction over a walk -/

/-- What a walk carries along: a relation `R` between the states before and after it, and a property
`T` of the state before it and the node that it leads to. It is enough that leaving a node carries
both from the walk over the parts to the walk over the node. -/
structure Carried (R : Typing → Typing → Prop) (T : Typing → Node → Prop) : Prop where
  refl : ∀ p, R p p
  trans : ∀ {p q r}, R p q → R q r → R p r
  before : ∀ {p q m}, R p q → T q m → T p m
  failed : ∀ {n p q}, p.failure = none → R (enter n p).2 q → q.failure.isSome → R p q
  left : ∀ {place n m p q}, p.failure = none → R (enter n p).2 q → q.failure = none →
    m.kind = n.kind → (∀ k ∈ m.shape.parts, T (enter n p).2 k) →
      R p (q.leaveNode place m).2 ∧
        ((q.leaveNode place m).2.failure = none → T p (q.leaveNode place m).1)

namespace Carried

variable {R : Typing → Typing → Prop} {T : Typing → Node → Prop}

theorem mapM (hc : Carried R T) {kind : NodeKind} {ks : List (Slot × Node)}
    (ih : ∀ k ∈ ks, ∀ p, R p (walkPart again kind k.1 k.2 p).2 ∧
      ((walkPart again kind k.1 k.2 p).2.failure = none → T p (walkPart again kind k.1 k.2 p).1))
    (p : Typing) :
    R p (ks.mapM (fun k => walkPart again kind k.1 k.2) p).2 ∧
      ((ks.mapM (fun k => walkPart again kind k.1 k.2) p).2.failure = none →
        ∀ m ∈ (ks.mapM (fun k => walkPart again kind k.1 k.2) p).1, T p m) := by
  induction ks generalizing p with
  | nil => exact ⟨hc.refl p, fun _ => nofun⟩
  | cons k ks ih' =>
    rw [Shape.mapM_cons_run]
    obtain ⟨hk, tk⟩ := ih k (by simp) p
    obtain ⟨hs, ts⟩ := ih' (fun l hl => ih l (List.mem_cons_of_mem _ hl))
      (walkPart again kind k.1 k.2 p).2
    refine ⟨hc.trans hk hs, fun h m hm => ?_⟩
    rcases List.mem_cons.1 hm with rfl | hm
    · exact tk (failure_of_mapM h)
    · exact hc.before hk (ts h m hm)

theorem parts (hc : Carried R T)
    (ih : ∀ k ∈ n.shape.parts, ∀ slot p, R p (walkPart again n.kind slot k p).2 ∧
      ((walkPart again n.kind slot k p).2.failure = none → T p (walkPart again n.kind slot k p).1))
    (p : Typing) :
    R p (walkParts again n p).2 ∧ ((walkParts again n p).2.failure = none →
      ∀ m ∈ (walkParts again n p).1.parts, T p m) := by
  rw [walkParts_snd, walkParts_parts]
  exact hc.mapM (fun k hk q => ih k.2 (List.mem_map.2 ⟨k, hk, rfl⟩) k.1 q) p

/-- What is carried along holds of every walk. -/
theorem walk (hc : Carried R T) (n : Node) (place : Place) (p : Typing) :
    R p (n.walk visitor again place p).2 ∧
      ((n.walk visitor again place p).2.failure = none →
        T p (n.walk visitor again place p).1) := by
  induction n using Node.induction generalizing place p with
  | step n ih =>
    cases hp : p.failure with
    | some e =>
      rw [walk_failed (by simp [hp])]
      exact ⟨hc.refl p, fun h => by rw [hp] at h; cases h⟩
    | none =>
      obtain ⟨hs, ts⟩ := hc.parts (fun k hk slot q => ih k hk (.part n.kind slot) q) (enter n p).2
      rw [walk_run hp]
      split
      · next hf => exact ⟨hc.failed hp hs hf, fun h => by rw [h] at hf; cases hf⟩
      · next hf =>
        have hq := Option.not_isSome_iff_eq_none.1 hf
        exact hc.left hp hs hq (Shape.rel_traverse _ n.shape _).kind.symm (ts hq)

/-- A number that entering a node raises and leaving it lowers by as much is after a walk that
succeeds what it was before. -/
theorem measure {f : Typing → Nat} {w : NodeKind → Nat}
    (hf : ∀ n {p : Typing}, p.failure = none → f (enter n p).2 = f p + w n.kind)
    (hl : ∀ p place n, f (leaveNode place n p).2 = f p - w n.kind) :
    Carried (fun p q => q.failure = none → p.failure = none ∧ f q = f p) (fun _ _ => True) where
  refl _ h := ⟨h, rfl⟩
  trans hp hq h := ⟨(hp (hq h).1).1, (hq h).2.trans (hp (hq h).1).2⟩
  before _ _ := trivial
  failed _ _ hf h := by rw [h] at hf; cases hf
  left hp hr hq hk _ := ⟨fun _ => ⟨hp, by rw [hl, (hr hq).2, hf _ hp, hk]; omega⟩, fun _ => trivial⟩

end Carried

/-! ## Leaving a node -/

/-- The place of what stands under an await. -/
def awaitPlace : Place := .part .await .argument

/-- What stands in a place for a node that has been left. -/
def wrap (place : Place) (n : Node) : Node :=
  if n.returnsPromise ∧ place.parent? ≠ some .await then awaited n else n

theorem wrap_of_not (h : n.kind ≠ .call) : wrap place n = n :=
  if_neg fun hw => h (Node.kind_of_returnsPromise hw.1)

/-- What leaving a node leads to: the node with another type, and with a type unless the pass has
failed. -/
def Annotates (n : Node) (r : Node × Typing) : Prop :=
  ∃ t, r.1 = { n with type := t } ∧ (r.2.failure = none → t.isSome)

theorem annotates_typed (t : ShellType) : Annotates n (typed n t, p) := ⟨some t, rfl, fun _ => rfl⟩

theorem annotates_failed (h : p.failure.isSome) : Annotates n (n, p) :=
  ⟨n.type, by cases n; rfl, fun hn => by rw [hn] at h; cases h⟩

theorem annotates_unless_failed (t : ShellType) (e : Event) :
    Annotates n (if p.failure.isSome then (n, p) else (typed n t, p.note e)) := by
  split
  · exact annotates_failed ‹_›
  · exact annotates_typed _

/-- Under an await the pass changes nothing but the type of a node. -/
theorem leaveNode_annotates (p : Typing) (n : Node) : Annotates n (p.leaveNode awaitPlace n) := by
  obtain ⟨loc, type, shape⟩ := n
  cases shape with
  | member object property computed =>
    simp only [leaveNode, leaveMember]
    split
    · split
      · exact annotates_failed rfl
      · exact annotates_typed _
    · split <;> exact annotates_typed _
  | call callee args =>
    simp only [leaveNode, leaveCall, awaitPlace, Place.parent?, ne_eq, not_true, and_false,
      if_false]
    exact annotates_typed _
  | declarator id init =>
    simp only [leaveNode, leaveDeclarator]
    split <;> exact annotates_typed _
  | assignment op left right => exact annotates_unless_failed _ _
  | function id params body | functionDecl id params body | arrow params body =>
    simp only [leaveNode, leaveFunction]
    split
    · exact annotates_failed rfl
    · exact annotates_unless_failed _ _
  | _ => exact annotates_typed _

/-- Where a node stands matters only for whether it gets an await. -/
theorem leaveNode_place (hk : ∀ k ∈ n.shape.parts, k.type.isSome) :
    p.leaveNode place n =
      (wrap place (p.leaveNode awaitPlace n).1, (p.leaveNode awaitPlace n).2) := by
  obtain ⟨t, ht, -⟩ := leaveNode_annotates p n
  by_cases hc : n.kind = .call
  · obtain ⟨loc, type, shape⟩ := n
    cases shape <;> cases hc
    rename_i callee args
    obtain ⟨t, ht⟩ := Option.isSome_iff_exists.1
      (hk callee (by simp [Shape.parts, Shape.kids, Shape.one]))
    have ha : leaveNode awaitPlace ⟨loc, type, .call callee args⟩ p =
        (typed ⟨loc, type, .call callee args⟩ (p.calleeReturns callee),
          (p.noteMissingReturn callee).note
            (.call callee.kind (p.typeOf callee).name (p.calleeReturns callee).name)) := by
      simp [leaveNode, leaveCall, awaitPlace, Place.parent?]
    rw [ha]
    simp only [leaveNode, leaveCall, wrap, Node.returnsPromise, typed, typeOf, ht, Option.any_some,
      Option.bind_some, Option.getD_some]
    by_cases hw : t.returnsPromise ∧ place.parent? ≠ some .await
    · rw [if_pos hw, if_pos hw]
    · rw [if_neg hw, if_neg hw]
  · rw [wrap_of_not (by rw [ht]; exact hc)]
    obtain ⟨loc, type, shape⟩ := n
    cases shape <;> first | rfl | exact absurd rfl hc

/-- The state after a node does not depend on where the node stands. -/
theorem leaveNode_state (above place : Place) :
    (p.leaveNode above n).2 = (p.leaveNode place n).2 := by
  obtain ⟨loc, type, shape⟩ := n
  cases shape with
  | call callee args =>
    simp only [leaveNode, leaveCall]
    split <;> split <;> rfl
  | _ => rfl

theorem parts_typed (h : n.shape.Rel (fun _ k => k.type.isSome) m.shape) :
    ∀ k ∈ m.shape.parts, k.type.isSome :=
  ((List.forall₂_and_left _ _).1 (h.symm.parts.imp fun _ _ hk => ⟨hk, trivial⟩)).1

/-- A walk that succeeds gives a node a type. -/
theorem walk_typed (n : Node) {place : Place} {p : Typing}
    (h : (n.walk visitor again place p).2.failure = none) :
    (n.walk visitor again place p).1.type.isSome := by
  induction n using Node.induction generalizing place p with
  | step n ih =>
    obtain ⟨-, hp, he⟩ := walk_ok h
    have hk := parts_typed (m := (descended again n p).1)
      (walkParts_ok hp fun slot k hm q hq => ih k hm hq)
    rw [he, leaveNode_place hk] at h ⊢
    obtain ⟨t, ht, hs⟩ := leaveNode_annotates (descended again n p).2 (descended again n p).1
    simp only [ht, wrap]
    split <;> exact hs h

/-- Where a node stands matters only for whether it gets an await. -/
theorem walk_place {above : Place} (place : Place)
    (h : (n.walk visitor again above p).2.failure = none) :
    n.walk visitor again place p =
      (wrap place (n.walk visitor again awaitPlace p).1,
        (n.walk visitor again awaitPlace p).2) := by
  obtain ⟨hp, hq, -⟩ := walk_ok h
  have hk := parts_typed (m := (descended again n p).1)
    (walkParts_ok hq fun slot k hm q hq => walk_typed k hq)
  have hr : ∀ place, n.walk visitor again place p =
      (descended again n p).2.leaveNode place (descended again n p).1 := fun place => by
    rw [walk_run hp, if_neg (by rw [hq]; simp)]
  rw [hr, hr, leaveNode_place hk]

/-! ## States that differ in their logs -/

/-- Do two states differ in what was logged only? -/
structure Agree (p q : Typing) : Prop where
  table : p.table = q.table
  returns : p.returns = q.returns
  failure : p.failure = q.failure

namespace Agree

variable {p q : Typing}

theorem refl (p : Typing) : Agree p p := ⟨rfl, rfl, rfl⟩

theorem symm (h : Agree p q) : Agree q p := ⟨h.table.symm, h.returns.symm, h.failure.symm⟩

theorem note (h : Agree p q) (e e' : Event) : Agree (p.note e) (q.note e') :=
  ⟨h.table, h.returns, h.failure⟩

theorem note_left (h : Agree p q) (e : Event) : Agree (p.note e) q :=
  ⟨h.table, h.returns, h.failure⟩

theorem note_right (h : Agree p q) (e : Event) : Agree p (q.note e) :=
  ⟨h.table, h.returns, h.failure⟩

theorem fail (h : Agree p q) (e : TypingError) : Agree (p.fail e) (q.fail e) :=
  ⟨h.table, h.returns, rfl⟩

theorem typeOf (h : Agree p q) : p.typeOf = q.typeOf := by
  funext n
  simp only [Typing.typeOf, h.table]

theorem calleeReturns (h : Agree p q) : p.calleeReturns = q.calleeReturns := by
  funext n
  simp only [Typing.calleeReturns, h.typeOf, h.table]

theorem noteMissing (h : Agree p q) (ref : TypeRef) :
    Agree (p.noteMissing ref) (q.noteMissing ref) := by
  simp only [Typing.noteMissing, h.table]
  split
  · exact h.note _ _
  · exact h

theorem noteMissingReturn (h : Agree p q) (callee : Node) :
    Agree (p.noteMissingReturn callee) (q.noteMissingReturn callee) := by
  simp only [Typing.noteMissingReturn, h.typeOf]
  split
  · exact h.noteMissing _
  · exact h

theorem withTable (h : Agree p q) {t u : SymbolTable} (ht : t = u) :
    Agree { p with table := t } { q with table := u } := ⟨ht, h.returns, h.failure⟩

theorem withReturns (h : Agree p q) {r u : List (List ShellType)} (hr : r = u) :
    Agree { p with returns := r } { q with returns := u } := ⟨h.table, hr, h.failure⟩

theorem functionReturns (h : Agree p q) {n m : Node} (hk : n.kind = m.kind) (body : Node)
    (types : List ShellType) :
    p.functionReturns n body types = q.functionReturns m body types := by
  simp only [Typing.functionReturns, h.typeOf, h.table, hk]

theorem declare (h : Agree p q) (name : String) (t : ShellType) :
    Agree (p.declare name t) (q.declare name t) := by
  simp only [Typing.declare, h.table]
  split
  · exact h.withTable rfl
  · exact h.fail _

theorem update (h : Agree p q) (name : String) (t : ShellType) :
    Agree (p.update name t) (q.update name t) := by
  simp only [Typing.update, h.table]
  split
  · exact h.withTable rfl
  · exact h.fail _

theorem openScope (h : Agree p q) (kind : NodeKind) :
    Agree (p.openScope kind) (q.openScope kind) :=
  (h.note _ _).withTable (congrArg SymbolTable.push h.table)

theorem closeScope (h : Agree p q) (kind : NodeKind) :
    Agree (p.closeScope kind) (q.closeScope kind) := by
  simp only [Typing.closeScope, h.table]
  split
  · exact (h.withTable rfl).note _ _
  · exact h.fail _

theorem declareParams (h : Agree p q) {params params' : List Node}
    (hn : List.Forall₂ (fun k l => k.name? = l.name?) params params') :
    Agree (params.foldl declareParam p) (params'.foldl declareParam q) := by
  induction hn generalizing p q with
  | nil => exact h
  | cons hk _ ih =>
    refine ih ?_
    rw [declareParam, declareParam, hk, h.table]
    exact h.declare _ _

/-- Of a node that it enters the pass sees the kind and the names of the parts. -/
theorem enter (h : Agree p q) {n m : Node}
    (hn : n.shape.Rel (fun k l => k.name? = l.name?) m.shape) :
    Agree (enter n p).2 (enter m q).2 := by
  obtain ⟨loc, type, shape⟩ := n
  obtain ⟨loc', type', shape'⟩ := m
  simp only [Typing.enter, h.failure]
  split
  · exact h
  · have hf : ∀ kind, Agree ({ p with returns := [] :: p.returns }.openScope kind)
        ({ q with returns := [] :: q.returns }.openScope kind) :=
      openScope (h.withReturns (congrArg ([] :: ·) h.returns))
    simp only at hn
    cases hn with
    | function _ hp _ | functionDecl _ hp _ | arrow hp _ => exact (hf _).declareParams hp
    | catchClause hp _ => exact (h.openScope _).declareParams (Shape.forall₂_opt.2 hp)
    | block _ | «for» _ _ _ _ | forOf _ _ _ | «while» _ _ => exact h.openScope _
    | _ => exact h

end Agree

/-! ## Nodes that look the same -/

/-- Do two parts look the same to the pass when it leaves the nodes around them? -/
structure LooksSame (k l : Node) : Prop where
  name? : l.name? = k.name?
  kind : l.kind = k.kind
  type : l.type = k.type

/-- Two layers of syntax that look the same to the pass when it leaves them. Of a member access it
sees the type of the object and the name of the attribute. -/
inductive LeftAlike : Shape Node → Shape Node → Prop
  | member {o k o' k' c c'} (object : o'.type = o.type)
      (attr : attributeName? k' c' = attributeName? k c) :
      LeftAlike (.member o k c) (.member o' k' c')
  | other {s t} (kind : s.kind ≠ .member) (rel : s.Rel LooksSame t) : LeftAlike s t

theorem LeftAlike.kind {s t : Shape Node} (h : LeftAlike s t) : t.kind = s.kind := by
  cases h with
  | member => rfl
  | other _ rel => exact rel.kind.symm

theorem LeftAlike.refl (s : Shape Node) : LeftAlike s s := by
  cases s with
  | member => exact .member rfl rfl
  | _ => exact .other nofun ((Shape.rel_refl _).mono fun _ _ h => h ▸ ⟨rfl, rfl, rfl⟩)

/-- What leaving two nodes leads to: states that agree and, unless the pass has failed, both nodes
with one type, and with an await around both or around none. -/
def DoneAlike (n m : Node) (r r' : Node × Typing) : Prop :=
  Agree r.2 r'.2 ∧ (r.2.failure = none → ∃ t,
    (r.1 = typed n t ∧ r'.1 = typed m t) ∨
      (n.kind = .call ∧ r.1 = awaited (typed n t) ∧ r'.1 = awaited (typed m t)))

section alike
variable {p q : Typing} {n m k l : Node}

theorem typeOf_looks (p : Typing) (h : l.type = k.type) : p.typeOf l = p.typeOf k := by
  simp only [typeOf, Option.bind_some, h]

theorem typeOf_looks_opt (p : Typing) {a b : Option Node} (h : Option.Rel LooksSame a b) :
    p.typeOf b = p.typeOf a := by
  cases h with
  | none => rfl
  | some h => exact typeOf_looks p h.type

theorem calleeReturns_looks (p : Typing) (h : l.type = k.type) :
    p.calleeReturns l = p.calleeReturns k := by
  simp only [calleeReturns, typeOf_looks p h]

theorem noteMissingReturn_looks (p : Typing) (h : l.type = k.type) :
    p.noteMissingReturn l = p.noteMissingReturn k := by
  simp only [noteMissingReturn, typeOf_looks p h]

theorem functionReturns_looks (h : Agree p q) (hk : m.kind = n.kind) {body body' : Node}
    (hb : LooksSame body body') (types : List ShellType) :
    q.functionReturns m body' types = p.functionReturns n body types := by
  have hbody : q.functionReturns m body' types = q.functionReturns m body types := by
    simp only [functionReturns, hb.kind, typeOf_looks q hb.type]
  exact hbody.trans (h.functionReturns hk.symm body types).symm

theorem done_typed (h : Agree p q) {t u : ShellType} (ht : u = t) :
    DoneAlike n m (typed n t, p) (typed m u, q) :=
  ⟨h, fun _ => ⟨t, .inl ⟨rfl, ht ▸ rfl⟩⟩⟩

theorem done_failed (h : Agree p q) (hf : p.failure.isSome) : DoneAlike n m (k, p) (l, q) :=
  ⟨h, fun hn => by rw [hn] at hf; cases hf⟩

theorem done_unless_failed (h : Agree p q) (t : ShellType) (e e' : Event) :
    DoneAlike n m (if p.failure.isSome then (n, p) else (typed n t, p.note e))
      (if q.failure.isSome then (m, q) else (typed m t, q.note e')) := by
  rw [← h.failure]
  split
  · exact done_failed h ‹_›
  · exact done_typed (h.note _ _) rfl

theorem done_leaveFunction (h : Agree p q) (hl : m.loc = n.loc) (hk : m.kind = n.kind)
    {id id' : Option Node} (hid : Option.Rel LooksSame id id') {body body' : Node}
    (hb : LooksSame body body') :
    DoneAlike n m (p.leaveFunction n id body) (q.leaveFunction m id' body') := by
  have hc := h.closeScope n.kind
  have hr := hc.withReturns (congrArg List.tail hc.returns)
  have hname : id'.map (·.name?.getD "") = id.map (·.name?.getD "") := by
    cases hid with
    | none => rfl
    | some hid => rw [Option.map_some, Option.map_some, hid.name?]
  simp only [leaveFunction, hk, hl, hname, ← hc.returns] at hr ⊢
  split
  · exact done_failed (hr.fail _) rfl
  · simp only [functionReturns_looks hr hk hb]
    cases id.map (·.name?.getD "") with
    | none => exact done_unless_failed hr _ _ _
    | some name => exact done_unless_failed (hr.declare _ _) _ _ _

/-- **Leaving two nodes that look the same.** The pass does the same to both. -/
theorem done_leaveNode (h : Agree p q) (hl : m.loc = n.loc) (hs : LeftAlike n.shape m.shape)
    (place : Place) : DoneAlike n m (p.leaveNode place n) (q.leaveNode place m) := by
  obtain ⟨loc, type, s⟩ := n
  obtain ⟨loc', type', t⟩ := m
  obtain rfl : loc' = loc := hl
  have hunknown : q.table.unknown = p.table.unknown := by rw [h.table]
  cases hs with
  | member object attr =>
    simp only [leaveNode, leaveMember, attr, ← h.typeOf, typeOf_looks p object, ← h.table]
    split
    · split
      · exact done_failed (h.fail _) rfl
      · exact done_typed (h.note _ _) rfl
    · split
      · exact done_typed ((h.noteMissing _).note _ _) rfl
      · exact done_typed (h.note _ _) rfl
  | other kind rel =>
    cases rel with
    | @identifier name =>
      simp only [leaveNode, SymbolTable.lookup, SymbolTable.resolve, ← h.table]
      exact done_typed ((h.noteMissing _).note _ _) rfl
    | member => exact absurd rfl kind
    | call callee =>
      simp only [leaveNode, leaveCall, ← h.typeOf, ← h.calleeReturns, typeOf_looks p callee.type,
        calleeReturns_looks p callee.type, noteMissingReturn_looks q callee.type]
      split
      · exact ⟨(h.noteMissingReturn _).note _ _, fun _ => ⟨_, .inr ⟨rfl, rfl, rfl⟩⟩⟩
      · exact done_typed ((h.noteMissingReturn _).note _ _) rfl
    | construct callee =>
      simp only [leaveNode, ← h.calleeReturns, calleeReturns_looks p callee.type,
        noteMissingReturn_looks q callee.type]
      exact done_typed ((h.noteMissingReturn _).note _ _) rfl
    | await argument =>
      simp only [leaveNode, ← h.typeOf, typeOf_looks p argument.type]
      exact done_typed (h.note _ _) rfl
    | @declarator id _ init _ hid hinit =>
      have hu := h.update (id.name?.getD "") (p.typeOf init)
      simp only [leaveNode, leaveDeclarator, hid.name?, ← h.typeOf, typeOf_looks_opt p hinit,
        hunknown, ← hu.failure]
      split
      · exact done_typed hu rfl
      · exact done_typed (hu.note _ _) rfl
    | @assignment _ left _ _ _ hleft hright =>
      simp only [leaveNode, leaveAssignment, hleft.name?, ← h.typeOf, typeOf_looks p hright.type]
      cases left.name? with
      | none => exact done_unless_failed h _ _ _
      | some name => exact done_unless_failed (h.update _ _) _ _ _
    | function hid _ hbody => refine done_leaveFunction h ?_ ?_ hid hbody <;> rfl
    | functionDecl hid _ hbody => refine done_leaveFunction h ?_ ?_ (.some hid) hbody <;> rfl
    | arrow _ hbody => refine done_leaveFunction h ?_ ?_ .none hbody <;> rfl
    | «return» hargument =>
      simp only [leaveNode, leaveReturn, ← h.typeOf, typeOf_looks_opt p hargument, ← h.returns]
      exact done_typed ((h.withReturns rfl).note _ _) rfl
    | block _ | «for» _ _ _ _ | forOf _ _ _ | «while» _ _ | catchClause _ _ =>
      exact done_typed (h.closeScope _) (congrArg _ (h.closeScope _).table.symm)
    | _ => exact done_typed (h.note _ _) hunknown

/-- What leaving two nodes leads to: states that agree and, unless the pass has failed, one node. -/
def Same (r r' : Node × Typing) : Prop :=
  Agree r.2 r'.2 ∧ (r.2.failure = none → r.1 = r'.1)

/-- Leaving a node does not depend on what was logged, nor on a type that the node has already. -/
theorem same_leaveNode {loc : Position} {type type' : Option ShellType} {shape : Shape Node}
    (h : Agree p q) (place : Place) :
    Same (p.leaveNode place ⟨loc, type, shape⟩) (q.leaveNode place ⟨loc, type', shape⟩) := by
  obtain ⟨ha, hdone⟩ := done_leaveNode (n := ⟨loc, type, shape⟩) (m := ⟨loc, type', shape⟩) h rfl
    (.refl shape) place
  refine ⟨ha, fun hs => ?_⟩
  obtain ⟨t, ⟨hn, hm⟩ | ⟨-, hn, hm⟩⟩ := hdone hs <;> exact hn.trans hm.symm

end alike

end Typing

end AutoAwait
