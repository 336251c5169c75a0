import AutoAwait.Proofs.Typing.Reach

/-!
# Two passes in step

Two passes go side by side over trees that differ in the names of some variables, or in what stands
in some place. Where each step keeps a relation between their states the passes stay in step, and
they await the same calls.

* `Typing.InStep` lists what such a relation has to keep;
* `Shape.Twin` relates the nodes that the two passes come to together;
* `Typing.InStep.walk` is the step of the induction: if the walks over the parts of two nodes stay
  in step, so do the walks over the nodes.
-/

namespace AutoAwait

/-! ## Nodes that the passes come to together -/

section twin
variable {σ : String → String} {Known : String → Prop} {R : Node → Node → Prop}

/-- Does a node have the name of another one under `σ`, if it has a name? -/
def Node.Named (σ : String → String) (Known : String → Prop) (k l : Node) : Prop :=
  l.name? = k.name?.map σ ∧ ∀ z, k.name? = some z → Known z

/-- Two layers of syntax that differ in the names of variables, and in their parts. The names of
attributes are the same, and the pass does not look at the parts of a property. -/
inductive Shape.Twin (σ : String → String) (Known : String → Prop) (R : Node → Node → Prop) :
    Shape Node → Shape Node → Prop
  | identifier {z} (known : Known z) : Twin σ Known R (.identifier z) (.identifier (σ z))
  | property {k v short k' v' short'} :
      Twin σ Known R (.property k v short) (.property k' v' short')
  | member {o k o' k' computed} (object : R o o')
      (attr : Typing.attributeName? k' computed = Typing.attributeName? k computed) :
      Twin σ Known R (.member o k computed) (.member o' k' computed)
  | other {s t} (rel : s.Rel R t)
      (kind : s.kind ≠ .identifier ∧ s.kind ≠ .property ∧ s.kind ≠ .member) : Twin σ Known R s t

theorem Shape.Twin.kind {s t : Shape Node} (h : s.Twin σ Known R t) : t.kind = s.kind := by
  cases h with
  | other rel => exact rel.kind.symm
  | _ => rfl

/-- Does the pass look at the type of the part in a slot when it leaves a node? -/
def Shape.showsType {α : Type} (s : Shape α) (slot : Slot) : Bool :=
  match s with
  | .property .. => false
  | .member .. => slot.key ≠ "property"
  | _ => true

/-- A node as the pass leaves it, and another one with the same type. -/
structure Node.TypedAlike (σ : String → String) (Known : String → Prop) (k l : Node) : Prop where
  named : k.Named σ Known l
  kind : l.kind = k.kind
  type : l.type = k.type

/-- Whether a call is awaited depends on the type of what is called. -/
theorem Node.returnsPromise_of_twin {n m : Node}
    (h : n.shape.Twin σ Known (TypedAlike σ Known) m.shape) :
    m.returnsPromise = n.returnsPromise := by
  obtain ⟨loc, type, s⟩ := n
  obtain ⟨loc', type', t⟩ := m
  cases h with
  | other rel =>
    cases rel with
    | call callee =>
      simp only [Node.returnsPromise]
      rw [callee.type]
    | _ => rfl
  | _ => rfl

end twin

namespace Typing

/-- A relation between the states of two passes that the steps of the passes keep. The second pass
sees the name `σ z` where the first one sees `z`, which must be `Known`. The number is that of the
frames that both may still close. Only a binding can fail, where no frame is open. -/
structure InStep (σ : String → String) (Known : String → Prop) (S : Nat → Typing → Typing → Prop) :
    Prop where
  unnamed : Known "" ∧ σ "" = ""
  failure : ∀ {i p q}, S i p q → p.failure = none ∧ q.failure = none
  registry : ∀ {i p q}, S i p q → q.table.registry = p.table.registry
  returns : ∀ {i p q}, S i p q → q.returns = p.returns
  lookup : ∀ {i p q z}, S i p q → Known z → q.table.lookup (σ z) = p.table.lookup z
  agree : ∀ {i p q p' q'}, S i p q → Agree p p' → Agree q q' → S i p' q'
  withReturns : ∀ {i p q}, S i p q → ∀ r, S i { p with returns := r } { q with returns := r }
  declare : ∀ {i p q z}, S i p q → Known z → ∀ t, (p.declare z t).failure = none →
    S i (p.declare z t) (q.declare (σ z) t)
  update : ∀ {i p q z}, S i p q → Known z → ∀ t, (p.update z t).failure = none →
    S i (p.update z t) (q.update (σ z) t)
  openScope : ∀ {i p q}, S i p q → ∀ kind kind', S (i + 1) (p.openScope kind) (q.openScope kind')
  closeScope : ∀ {i p q}, S (i + 1) p q → ∀ kind kind', S i (p.closeScope kind) (q.closeScope kind')

theorem agree_note (p : Typing) (e : Event) : Agree p (p.note e) := (Agree.refl p).note_right e

theorem agree_noteMissing (p : Typing) (ref : TypeRef) : Agree p (p.noteMissing ref) := by
  unfold noteMissing
  split
  · exact agree_note p _
  · exact .refl p

theorem agree_noteMissingReturn (p : Typing) (callee : Node) :
    Agree p (p.noteMissingReturn callee) := by
  unfold noteMissingReturn
  split
  · exact agree_noteMissing p _
  · exact .refl p

namespace Agree

variable {p q r : Typing}

theorem trans (h : Agree p q) (h' : Agree q r) : Agree p r :=
  ⟨h.table.trans h'.table, h.returns.trans h'.returns, h.failure.trans h'.failure⟩

end Agree

/-- A node keeps the name of the attribute that it stands for. -/
theorem Rewrites.attributeName? {all : Prop} {parent : Option NodeKind} {n m : Node}
    (h : Rewrites all parent n m) (computed : Bool) :
    attributeName? m computed = attributeName? n computed := by
  cases h with
  | keep _ shape =>
    obtain ⟨loc, type, s⟩ := n
    obtain ⟨loc', type', t⟩ := m
    cases shape <;> rfl
  | await inner promise _ =>
    have hk := inner.kind.symm.trans (Node.kind_of_returnsPromise promise)
    obtain ⟨loc, type, s⟩ := n
    cases s <;> first | rfl | cases hk

/-- Two trees have new awaits in the same places if their roots have stayed and their parts have new
awaits in the same places. -/
theorem newAwaits_of_parts {n m n' m' : Node} (hn : n'.kind = n.kind) (hm : m'.kind = m.kind)
    (h : ∀ slot, (n.part? slot = none ∧ m.part? slot = none) ∨ ∃ k l a b,
      (n.part? slot = some k ∧ m.part? slot = some l) ∧
        (n'.part? slot = some a ∧ m'.part? slot = some b) ∧ k.newAwaits a = l.newAwaits b) :
    n.newAwaits n' = m.newAwaits m' := by
  funext path
  cases path with
  | nil => simp [Node.newAwaits, hn, hm]
  | cons slot path =>
    have hc : ∀ {n n' : Node}, n'.kind = n.kind →
        ¬(n.kind ≠ .await && n'.kind = .await) := by
      intro n n' h
      simp [h]
    simp only [Node.newAwaits, if_neg (hc hn), if_neg (hc hm)]
    rcases h slot with ⟨hk, hl⟩ | ⟨k, l, a, b, ⟨hk, hl⟩, ⟨ha, hb⟩, he⟩
    · rw [hk, hl]
    · simp only [hk, hl, ha, hb, he]

/-- The new awaits in a tree that has one around its root. -/
theorem newAwaits_awaited {n m : Node} (hn : n.kind = .call) :
    n.newAwaits (awaited m) [] = true ∧ ∀ slot path, n.newAwaits (awaited m) (slot :: path) =
      if slot = .argument then n.newAwaits m path else false := by
  have hc : (n.kind ≠ .await && (awaited m).kind = .await) = true := by
    rw [hn]
    rfl
  refine ⟨hc, fun slot path => ?_⟩
  have hpart : (awaited m).part? slot = if slot = .argument then some m else none :=
    Shape.part?_await m slot
  rw [Node.newAwaits, if_pos hc, hpart]
  by_cases hs : slot = .argument
  · rw [if_pos hs, if_pos hs]
  · rw [if_neg hs, if_neg hs]

theorem failure_of_declareParams {k : Node} {params : List Node} {p : Typing}
    (h : ((k :: params).foldl declareParam p).failure = none) :
    (p.declareParam k).failure = none := by
  have hd : ∀ {p : Typing} {k}, (declareParam p k).failure = none → p.failure = none := by
    intro p k h
    unfold declareParam declare at h
    split at h
    · exact h
    · cases h
  rw [List.foldl_cons] at h
  generalize p.declareParam k = q at h
  induction params generalizing q with
  | nil => exact h
  | cons l params ih => exact hd (ih _ h)

theorem failure_of_walkParts {again : Place → Node → StateM Typing Node} {n : Node} {p : Typing}
    (h : (walkParts again n p).2.failure = none) : p.failure = none := by
  rw [walkParts_snd] at h
  exact failure_of_mapM h

/-- The walk of the pass over a name. -/
theorem walk_name {again : Place → Node → StateM Typing Node} {place : Place} {p : Typing}
    {loc : Position} {type : Option ShellType} {z : String} (h : p.failure = none) :
    (⟨loc, type, .identifier z⟩ : Node).walk visitor again place p =
      p.leaveNode place ⟨loc, type, .identifier z⟩ := by
  have hd : descended again ⟨loc, type, .identifier z⟩ p = (⟨loc, type, .identifier z⟩, p) := by
    simp only [descended, enter, h]
    rfl
  rw [walk_run h, hd, if_neg (by simp [h])]

namespace InStep

variable {σ : String → String} {Known : String → Prop} {S : Nat → Typing → Typing → Prop}
variable {again : Place → Node → StateM Typing Node}
variable {i : Nat} {p q : Typing} {n m k l : Node} {place : Place}

theorem note (hS : InStep σ Known S) (h : S i p q) (e e' : Event) :
    S i (p.note e) (q.note e') :=
  hS.agree h (agree_note p e) (agree_note q e')

/-! ### What the two passes see -/

theorem unknown (hS : InStep σ Known S) (h : S i p q) : q.table.unknown = p.table.unknown :=
  congrArg Registry.unknown (hS.registry h)

theorem resolve (hS : InStep σ Known S) (h : S i p q) (ref : TypeRef) :
    q.table.resolve ref = p.table.resolve ref :=
  congrArg (·.resolve ref) (hS.registry h)

theorem typeOf (hS : InStep σ Known S) (h : S i p q) (ht : l.type = k.type) :
    q.typeOf l = p.typeOf k := by
  simp only [Typing.typeOf, Option.bind_some, ht, hS.unknown h]

theorem typeOf_opt (hS : InStep σ Known S) (h : S i p q) {a b : Option Node}
    (ht : Option.Rel (Node.TypedAlike σ Known) a b) : q.typeOf b = p.typeOf a := by
  cases ht with
  | none => exact hS.unknown h
  | some ht => exact hS.typeOf h ht.type

theorem calleeReturns (hS : InStep σ Known S) (h : S i p q) (ht : l.type = k.type) :
    q.calleeReturns l = p.calleeReturns k := by
  simp only [Typing.calleeReturns, hS.typeOf h ht, hS.resolve h, hS.unknown h]

/-- The name that a node has, or else the empty one. -/
theorem nameText (hS : InStep σ Known S) (hn : k.Named σ Known l) :
    l.name?.getD "" = σ (k.name?.getD "") ∧ Known (k.name?.getD "") := by
  obtain ⟨hl, hk⟩ := hn
  rw [hl]
  cases hz : k.name? with
  | none => exact ⟨hS.unnamed.2.symm, hS.unnamed.1⟩
  | some z => exact ⟨rfl, hk z hz⟩

/-! ### Entering a node -/

theorem declareParams (hS : InStep σ Known S) {params params' : List Node}
    (hn : List.Forall₂ (Node.Named σ Known) params params') (h : S i p q)
    (hs : (params.foldl declareParam p).failure = none) :
    S i (params.foldl declareParam p) (params'.foldl declareParam q) := by
  induction hn generalizing p q with
  | nil => exact h
  | @cons k l _ _ hk _ ih =>
    obtain ⟨hl, hz⟩ := hS.nameText hk
    refine ih ?_ hs
    rw [declareParam, declareParam, hl, hS.unknown h]
    exact hS.declare h hz _ (failure_of_declareParams hs)

theorem enter (hS : InStep σ Known S) (ht : n.shape.Twin σ Known (Node.Named σ Known) m.shape)
    (h : S i p q) (hs : (enter n p).2.failure = none) :
    S (i + framesOf n.kind) (enter n p).2 (enter m q).2 := by
  obtain ⟨loc, type, s⟩ := n
  obtain ⟨loc', type', t⟩ := m
  obtain ⟨hp, hq⟩ := hS.failure h
  simp only [Typing.enter, hp, hq, Option.isSome_none, Bool.false_eq_true, if_false] at hs ⊢
  have hf : ∀ kind, S (i + 1) ({ p with returns := [] :: p.returns }.openScope kind)
      ({ q with returns := [] :: q.returns }.openScope kind) := by
    intro kind
    rw [hS.returns h]
    exact hS.openScope (hS.withReturns h _) _ _
  cases ht with
  | other rel =>
    cases rel with
    | function _ hp _ | functionDecl _ hp _ | arrow hp _ => exact hS.declareParams hp (hf _) hs
    | catchClause hp _ =>
      exact hS.declareParams (Shape.forall₂_opt.2 hp) (hS.openScope h _ _) hs
    | block _ | «for» _ _ _ _ | forOf _ _ _ | «while» _ _ => exact hS.openScope h _ _
    | _ => exact h
  | _ => exact h

/-! ### Leaving a node -/

/-- Two results of leaving a node: the states are related and the types are the same. -/
def Left (S : Nat → Typing → Typing → Prop) (i : Nat) (r r' : Node × Typing) : Prop :=
  S i r.2 r'.2 ∧ r'.1.type = r.1.type

theorem left_typed (h : S i p q) {t u : ShellType} (ht : u = t) :
    Left S i (typed n t, p) (typed m u, q) := ⟨h, congrArg some ht⟩

theorem left_unless_failed (hS : InStep σ Known S) (h : p.failure = none → S i p q)
    {n' m' : Node} {e e' : Event}
    (hs : (if p.failure.isSome then (n, p) else (n', p.note e)).2.failure = none)
    (ht : m'.type = n'.type) :
    Left S i (if p.failure.isSome then (n, p) else (n', p.note e))
      (if q.failure.isSome then (m, q) else (m', q.note e')) := by
  have hp : p.failure = none := by
    by_contra hp
    rw [if_pos (Option.ne_none_iff_isSome.1 hp)] at hs
    exact hp hs
  have hq := (hS.failure (h hp)).2
  rw [if_neg (by simp [hp]), if_neg (by simp [hq])]
  exact ⟨hS.note (h hp) e e', ht⟩

theorem functionReturns (hS : InStep σ Known S) (h : S i p q) (hk : m.kind = n.kind)
    {body body' : Node} (hb : body'.kind = body.kind) (ht : body'.type = body.type)
    (types : List ShellType) :
    q.functionReturns m body' types = p.functionReturns n body types := by
  simp only [Typing.functionReturns, hk, hb, hS.typeOf h ht, hS.unknown h]

/-- Leaving a function, where the passes are in step once its frame is closed and its name is
declared. -/
theorem leaveFunction {id id' : Option Node} {body body' : Node} (hS : InStep σ Known S)
    (h : S i (p.closeScope n.kind) (q.closeScope m.kind)) (hk : m.kind = n.kind)
    (hd : ∀ {p q}, S i p q → ∀ t, Option.Rel (fun k l =>
      (p.declare (k.name?.getD "") t).failure = none →
        S i (p.declare (k.name?.getD "") t) (q.declare (l.name?.getD "") t)) id id')
    (hb : body'.kind = body.kind) (ht : body'.type = body.type)
    (hs : (p.leaveFunction n id body).2.failure = none) :
    Left S i (p.leaveFunction n id body) (q.leaveFunction m id' body') := by
  have hr : S i { p.closeScope n.kind with returns := (p.closeScope n.kind).returns.tail }
      { q.closeScope m.kind with returns := (p.closeScope n.kind).returns.tail } :=
    hS.withReturns h _
  have hf := hS.functionReturns hr hk hb ht ((p.closeScope n.kind).returns.headD [])
  simp only [Typing.leaveFunction, hS.returns h] at hs ⊢
  split
  · next hc =>
    rw [if_pos hc] at hs
    cases hs
  · next hc =>
    rw [if_neg hc] at hs
    rw [hf]
    generalize ShellType.function none _ false = t at hs ⊢
    have hn := hd hr t
    clear hd
    cases hn with
    | none => exact hS.left_unless_failed (fun _ => hr) hs rfl
    | some hn => exact hS.left_unless_failed hn hs rfl

/-- Leaving two nodes whose parts have the same types. -/
theorem leaveNode (hS : InStep σ Known S)
    (ht : n.shape.Twin σ Known (Node.TypedAlike σ Known) m.shape)
    (h : S (i + framesOf n.kind) p q) (hs : (p.leaveNode awaitPlace n).2.failure = none) :
    Left S i (p.leaveNode awaitPlace n) (q.leaveNode awaitPlace m) := by
  obtain ⟨loc, type, s⟩ := n
  obtain ⟨loc', type', t⟩ := m
  cases ht with
  | identifier known =>
    simp only [Typing.leaveNode, hS.lookup h known, hS.resolve h]
    exact left_typed (hS.note (hS.agree h (agree_noteMissing _ _) (agree_noteMissing _ _)) _ _) rfl
  | property =>
    exact left_typed (hS.note h _ _) (hS.unknown h)
  | member object attr =>
    simp only [Typing.leaveNode, Typing.leaveMember, attr, hS.typeOf h object.type, hS.resolve h,
      hS.unknown h] at hs ⊢
    split at hs
    · split at hs
      · cases hs
      · next hc =>
        simp only [hc]
        exact left_typed (hS.note h _ _) rfl
    · split
      · exact left_typed (hS.note (hS.agree h (agree_noteMissing _ _) (agree_noteMissing _ _)) _ _) rfl
      · exact left_typed (hS.note h _ _) rfl
  | other rel kind =>
    cases rel with
    | call callee =>
      simp only [Typing.leaveNode, Typing.leaveCall, awaitPlace, Place.parent?, ne_eq, not_true,
        and_false, if_false]
      exact left_typed (hS.note (hS.agree h (agree_noteMissingReturn _ _)
        (agree_noteMissingReturn _ _)) _ _) (hS.calleeReturns h callee.type)
    | construct callee =>
      exact left_typed (hS.note (hS.agree h (agree_noteMissingReturn _ _)
        (agree_noteMissingReturn _ _)) _ _) (hS.calleeReturns h callee.type)
    | await argument =>
      exact left_typed (hS.note h _ _) (hS.typeOf h argument.type)
    | @declarator _ _ init _ id hinit =>
      obtain ⟨hid, hz⟩ := hS.nameText id.named
      simp only [Typing.leaveNode, Typing.leaveDeclarator, hid, hS.typeOf_opt h hinit, hS.unknown h]
        at hs ⊢
      exact hS.left_unless_failed (hS.update h hz _) hs rfl
    | @assignment _ _ _ right _ left hright =>
      obtain ⟨hl, hk⟩ := left.named
      simp only [Typing.leaveNode, Typing.leaveAssignment, hl, hS.typeOf h hright.type] at hs ⊢
      generalize Node.name? _ = name at hk hs
      cases name with
      | none => exact hS.left_unless_failed (fun _ => h) hs rfl
      | some z => exact hS.left_unless_failed (hS.update h (hk z rfl) _) hs rfl
    | function id _ body =>
      refine hS.leaveFunction (hS.closeScope h _ _) rfl (fun hc t => ?_) body.kind body.type hs
      cases id with
      | none => exact .none
      | some id =>
        obtain ⟨hid, hz⟩ := hS.nameText id.named
        exact .some (fun hf => hid ▸ hS.declare hc hz t hf)
    | functionDecl id _ body =>
      refine hS.leaveFunction (hS.closeScope h _ _) rfl (fun hc t => ?_) body.kind body.type hs
      obtain ⟨hid, hz⟩ := hS.nameText id.named
      exact .some (fun hf => hid ▸ hS.declare hc hz t hf)
    | arrow _ body =>
      exact hS.leaveFunction (hS.closeScope h _ _) rfl (fun _ _ => .none) body.kind body.type hs
    | «return» argument =>
      simp only [Typing.leaveNode, Typing.leaveReturn, hS.typeOf_opt h argument, hS.returns h]
      exact left_typed (hS.note (hS.withReturns h _) _ _) rfl
    | identifier => exact absurd rfl kind.1
    | property => exact absurd rfl kind.2.1
    | member => exact absurd rfl kind.2.2
    | block _ | «for» _ _ _ _ | forOf _ _ _ | «while» _ _ | catchClause _ _ =>
      exact left_typed (hS.closeScope h _ _) (hS.unknown (hS.closeScope h _ _))
    | _ => exact left_typed (hS.note h _ _) (hS.unknown h)

/-! ### Walks -/

/-- Two results of walking over two nodes: the states are related, the nodes have become alike, and
the new awaits in them are in the same places. The types are the same if the pass looks at them. -/
structure Twins (S : Nat → Typing → Typing → Prop) (i : Nat) (shown : Prop) (k l : Node)
    (r r' : Node × Typing) : Prop where
  state : S i r.2 r'.2
  kind : r'.1.kind = r.1.kind
  type : shown → r'.1.type = r.1.type
  awaits : k.newAwaits r.1 = l.newAwaits r'.1

theorem Twins.imp {shown shown' : Prop} {r r' : Node × Typing} (h : Twins S i shown k l r r')
    (hi : shown' → shown) : Twins S i shown' k l r r' :=
  ⟨h.state, h.kind, fun hs => h.type (hi hs), h.awaits⟩

/-- Do the walks over each two parts of two nodes stay in step, if the first pass begins with the
parts in the state `p`? The types in some slots need not be the same. -/
def PartTwins (again : Place → Node → StateM Typing Node) (S : Nat → Typing → Typing → Prop)
    (shown : Slot → Prop) (n m : Node) (p : Typing) : Prop :=
  ∀ slot k l, n.part? slot = some k → m.part? slot = some l →
    ∀ i q, S i (partState again n slot p) q →
      (walkPart again n.kind slot k (partState again n slot p)).2.failure = none →
        Twins S i (shown slot) k l (walkPart again n.kind slot k (partState again n slot p))
          (walkPart again n.kind slot l q)

/-- What has become of the parts of two nodes in one slot. -/
structure PartPair (S : Nat → Typing → Typing → Prop) (i : Nat) (shown : Slot → Prop) (n m : Node)
    (s t : Shape Node) (slot : Slot) (k l : Node) : Prop where
  before : n.part? slot = some k ∧ m.part? slot = some l
  after : ∃ r r', s.part? slot = some r.1 ∧ t.part? slot = some r'.1 ∧
    Twins S i (shown slot) k l r r' ∧ Rewrites True (some n.kind) k r.1 ∧
      Rewrites True (some n.kind) l r'.1

/-- If the walks over each two parts of two nodes stay in step, those over all parts do. -/
theorem parts {shown : Slot → Prop} (hS : InStep σ Known S) (hm : m.kind = n.kind)
    (hslots : List.Forall₂ (fun k l => k.1 = l.1) n.shape.kids m.shape.kids)
    (hk : PartTwins again S shown n m p) (h : S i p q) (hs : (walkParts again n p).2.failure = none) :
    S i (walkParts again n p).2 (walkParts again m q).2 ∧
      ∀ slot, (n.part? slot = none ∧ m.part? slot = none) ∨ ∃ k l, PartPair S i shown n m
        (walkParts again n p).1 (walkParts again m q).1 slot k l := by
  obtain ⟨hstate, hcome⟩ := walkParts_inStep (S := S i) hslots
    (fun slot k l hn hl q hpq hf => hm ▸ (hk slot k l hn hl i q hpq hf).state) h hs
  refine ⟨hstate, fun slot => ?_⟩
  have hr : Option.Rel (fun _ _ => True) (n.part? slot) (m.part? slot) :=
    Shape.lookup_rel (R := fun _ _ _ => True) (hslots.imp fun _ _ h => ⟨h, trivial⟩) slot
  cases hn : n.part? slot with
  | none =>
    rw [hn] at hr
    cases hl : m.part? slot with
    | none => exact .inl ⟨rfl, rfl⟩
    | some l => rw [hl] at hr; cases hr
  | some k =>
    rw [hn] at hr
    cases hl : m.part? slot with
    | none => rw [hl] at hr; cases hr
    | some l =>
      have hf := walkPart_ok hs hn
      have ht := hk slot k l hn hl i _ (hcome slot) hf
      refine .inr ⟨k, l, ⟨hn, hl⟩, _, _, ?_, ?_, ht, walk_rewrites k hf,
        walk_rewrites l (hS.failure ht.state).2⟩
      · rw [walkParts_part?, hn]
        rfl
      · rw [walkParts_part?, hl, hm]
        rfl

/-- What is known of the parts in one slot. -/
theorem part_of_pairs {shown : Slot → Prop} {s t : Shape Node}
    (hparts : ∀ slot, (n.part? slot = none ∧ m.part? slot = none) ∨
      ∃ k l, PartPair S i shown n m s t slot k l) {slot : Slot} {k l a b : Node}
    (hk : n.part? slot = some k) (hl : m.part? slot = some l) (ha : s.part? slot = some a)
    (hb : t.part? slot = some b) :
    b.kind = a.kind ∧ (shown slot → b.type = a.type) ∧ Rewrites True (some n.kind) k a ∧
      Rewrites True (some n.kind) l b := by
  rcases hparts slot with ⟨hnone, -⟩ | ⟨k', l', ⟨hk', hl'⟩, r, r', hr, hr', htwins, hkr, hlr⟩
  · rw [hk] at hnone
    cases hnone
  · obtain rfl := Option.some.inj (hk.symm.trans hk')
    obtain rfl := Option.some.inj (hl.symm.trans hl')
    obtain rfl := Option.some.inj (ha.symm.trans hr)
    obtain rfl := Option.some.inj (hb.symm.trans hr')
    exact ⟨htwins.kind, htwins.type, hkr, hlr⟩

/-- The pairs of parts fit together to layers of syntax that are twins. -/
theorem twin_of_parts {s t : Shape Node} (ht : n.shape.Twin σ Known (Node.Named σ Known) m.shape)
    (hn : n.shape.Rel (fun _ _ => True) s) (hm : m.shape.Rel (fun _ _ => True) t)
    (hparts : ∀ slot, (n.part? slot = none ∧ m.part? slot = none) ∨
      ∃ k l, PartPair S i (n.shape.showsType ·) n m s t slot k l) :
    s.Twin σ Known (Node.TypedAlike σ Known) t := by
  obtain ⟨loc, type, sn⟩ := n
  obtain ⟨loc', type', sm⟩ := m
  dsimp only at ht hn hm
  cases ht with
  | identifier known =>
    cases hn
    cases hm
    exact .identifier known
  | property =>
    cases hn
    cases hm
    exact .property
  | @member o k o' k' computed object attr =>
    cases hn with
    | @member _ a _ b _ _ =>
      cases hm with
      | @member _ a' _ b' _ _ =>
        obtain ⟨hkind, htype, hoa, hob⟩ :=
          part_of_pairs hparts (show Node.part? _ ⟨"object", none⟩ = some o from rfl) rfl rfl rfl
        obtain ⟨-, -, hkb, hlb⟩ :=
          part_of_pairs hparts (show Node.part? _ ⟨"property", none⟩ = some k from rfl) rfl rfl rfl
        refine .member ⟨?_, hkind, htype rfl⟩ ?_
        · rw [Node.Named, ← hoa.name?, ← hob.name?]
          exact object
        · rw [hkb.attributeName?, hlb.attributeName?, attr]
  | other rel kind =>
    have hkind : ∀ slot, sn.showsType slot = true := by
      intro slot
      cases sn <;> first | rfl | exact absurd rfl kind.2.1 | exact absurd rfl kind.2.2
    refine .other ((hn.symm.comp (rel.comp hm)).of_part? fun slot a b ha hb => ?_)
      (hn.kind ▸ kind)
    obtain ⟨k, hk, -⟩ := hn.symm.part?_some ha
    obtain ⟨l, hl, hnamed⟩ := rel.part?_some hk
    obtain ⟨hab, htype, hka, hlb⟩ := part_of_pairs hparts hk hl ha hb
    refine ⟨?_, hab, htype (hkind slot)⟩
    rw [Node.Named, ← hka.name?, ← hlb.name?]
    exact hnamed

/-- The new awaits are in the same places if they are in each pair of parts. -/
theorem newAwaits_of_pairs {shown : Slot → Prop} {n' m' : Node} (hn : n'.kind = n.kind)
    (hm : m'.kind = m.kind)
    (hparts : ∀ slot, (n.part? slot = none ∧ m.part? slot = none) ∨
      ∃ k l, PartPair S i shown n m n'.shape m'.shape slot k l) :
    n.newAwaits n' = m.newAwaits m' := by
  refine newAwaits_of_parts hn hm fun slot => ?_
  rcases hparts slot with hnone | ⟨k, l, hbefore, r, r', hr, hr', htwins, -⟩
  · exact .inl hnone
  · exact .inr ⟨k, l, r.1, r'.1, hbefore, ⟨hr, hr'⟩, htwins.awaits⟩

/-- Awaits around both results. -/
theorem Twins.wrap {shown : Prop} {r r' : Node × Typing} (h : Twins S i shown n m r r')
    (hn : r.1.kind = n.kind) (hm : m.kind = n.kind)
    (hp : r'.1.returnsPromise = r.1.returnsPromise) (place : Place) :
    Twins S i shown n m (wrap place r.1, r.2) (wrap place r'.1, r'.2) := by
  by_cases hw : r.1.returnsPromise ∧ place.parent? ≠ some .await
  · have hcall : n.kind = .call := hn.symm.trans (Node.kind_of_returnsPromise hw.1)
    simp only [Typing.wrap, hp, if_pos hw]
    refine ⟨h.state, rfl, h.type, ?_⟩
    obtain ⟨hroot, hbelow⟩ := newAwaits_awaited hcall
    obtain ⟨hroot', hbelow'⟩ := newAwaits_awaited (hm.trans hcall)
    funext path
    cases path with
    | nil => rw [hroot, hroot']
    | cons slot path => rw [hbelow, hbelow', h.awaits]
  · simp only [Typing.wrap, hp, if_neg hw]
    exact h

/-- Two walks that are in step once the two nodes are left, whatever has kept the walks over the parts
in step. -/
theorem walk_of_left {S' : Nat → Typing → Typing → Prop} {j : Nat} {shown : Slot → Prop}
    (hkind : m.kind = n.kind) (hs : (n.walk visitor again place p).2.failure = none)
    (hq : q.failure = none) (hq' : (descended again m q).2.failure = none)
    (hparts : ∀ slot, (n.part? slot = none ∧ m.part? slot = none) ∨ ∃ k l,
      PartPair S' j shown n m (descended again n p).1.shape (descended again m q).1.shape slot k l)
    (hp : (descended again m q).1.returnsPromise = (descended again n p).1.returnsPromise)
    (hleft : Left S i ((descended again n p).2.leaveNode awaitPlace (descended again n p).1)
      ((descended again m q).2.leaveNode awaitPlace (descended again m q).1))
    (hf : ((descended again m q).2.leaveNode awaitPlace (descended again m q).1).2.failure = none) :
    Twins S i True n m (n.walk visitor again place p) (m.walk visitor again place q) := by
  have hw : (n.walk visitor again awaitPlace p).2.failure = none := by rwa [walk_state awaitPlace place]
  obtain ⟨-, -, he⟩ := walk_ok hw
  have he' : m.walk visitor again awaitPlace q =
      (descended again m q).2.leaveNode awaitPlace (descended again m q).1 := by
    rw [walk_run hq, if_neg (by rw [hq']; simp)]
  obtain ⟨t, hn, -⟩ := leaveNode_annotates (descended again n p).2 (descended again n p).1
  obtain ⟨u, hm, -⟩ := leaveNode_annotates (descended again m q).2 (descended again m q).1
  have hw' : (m.walk visitor again awaitPlace q).2.failure = none := he' ▸ hf
  rw [walk_place place hs, walk_place place hw', he, he']
  have hnk : ((descended again n p).2.leaveNode awaitPlace (descended again n p).1).1.kind =
      n.kind := by
    rw [hn]
    exact kind_walkParts
  have hmk : ((descended again m q).2.leaveNode awaitPlace (descended again m q).1).1.kind =
      m.kind := by
    rw [hm]
    exact kind_walkParts
  refine Twins.wrap ⟨hleft.1, hmk.trans (hkind.trans hnk.symm), fun _ => hleft.2, ?_⟩ hnk hkind ?_
    place
  · rw [hn] at hnk ⊢
    rw [hm] at hmk ⊢
    exact newAwaits_of_pairs hnk hmk hparts
  · rw [hn, hm]
    exact hp

/-- **Two walks in step.** If the walks over each two parts of two nodes stay in step, so do the walks
over the nodes, and the pass awaits the same calls in both. -/
theorem walk (hS : InStep σ Known S) (ht : n.shape.Twin σ Known (Node.Named σ Known) m.shape)
    (hslots : List.Forall₂ (fun k l => k.1 = l.1) n.shape.kids m.shape.kids)
    (hk : PartTwins again S (n.shape.showsType ·) n m (Typing.enter n p).2) (h : S i p q)
    (hs : (n.walk visitor again place p).2.failure = none) :
    Twins S i True n m (n.walk visitor again place p) (m.walk visitor again place q) := by
  have hw : (n.walk visitor again awaitPlace p).2.failure = none := by rwa [walk_state awaitPlace place]
  obtain ⟨-, hd, he⟩ := walk_ok hw
  obtain ⟨hstate, hparts⟩ := hS.parts ht.kind hslots hk (hS.enter ht h (failure_of_walkParts hd)) hd
  have hrel := Shape.rel_traverse (walkPart again n.kind) n.shape (Typing.enter n p).2
  have hrel' := Shape.rel_traverse (walkPart again m.kind) m.shape (Typing.enter m q).2
  -- the parts have the same types, so the nodes are left alike
  have htyped : (descended again n p).1.shape.Twin σ Known (Node.TypedAlike σ Known)
      (descended again m q).1.shape := twin_of_parts ht hrel hrel' hparts
  have hkind : (descended again n p).1.kind = n.kind := hrel.kind.symm
  have hleft := hS.leaveNode htyped (by rw [hkind]; exact hstate) (he ▸ hw)
  exact walk_of_left ht.kind hs (hS.failure h).2 (hS.failure hstate).2 hparts
    (Node.returnsPromise_of_twin htyped) hleft (hS.failure hleft.1).2

/-- A name that both passes come to changes nothing but the logs. Its types need not be the same. -/
theorem walk_identifier (hS : InStep σ Known S) (hk : k.kind = .identifier) (h : S i p q) :
    Twins S i False k k (k.walk visitor again place p) (k.walk visitor again place q) := by
  obtain ⟨loc, type, s⟩ := k
  cases s <;> cases hk
  rename_i z
  obtain ⟨hp, hq⟩ := hS.failure h
  rw [walk_name hp, walk_name hq]
  refine ⟨?_, rfl, False.elim, newAwaits_of_parts rfl rfl fun _ => .inl ⟨rfl, rfl⟩⟩
  exact hS.note (hS.agree h (agree_noteMissing _ _) (agree_noteMissing _ _)) _ _

end InStep

/-! ## Passes that differ in their logs -/

/-- Two passes that see the same, with at least `i` frames. -/
def Agreeing (i : Nat) (p q : Typing) : Prop := Agree p q ∧ p.failure = none ∧ i ≤ p.table.depth

theorem agreeing_inStep : InStep id (fun _ => True) Agreeing where
  unnamed := ⟨trivial, rfl⟩
  failure h := ⟨h.2.1, h.1.failure ▸ h.2.1⟩
  registry h := by rw [h.1.table]
  returns h := h.1.returns.symm
  lookup h _ := by rw [h.1.table, id]
  agree h hp hq := ⟨(hp.symm.trans h.1).trans hq, hp.failure ▸ h.2.1, hp.table ▸ h.2.2⟩
  withReturns h r := ⟨h.1.withReturns rfl, h.2.1, h.2.2⟩
  declare h _ t hs := ⟨h.1.declare _ t, hs, by rw [declare_depth]; exact h.2.2⟩
  update h _ t hs := ⟨h.1.update _ t, hs, by rw [update_depth]; exact h.2.2⟩
  openScope h kind kind' := ⟨(h.1.note _ _).withTable (congrArg SymbolTable.push h.1.table), h.2.1,
    Nat.succ_le_succ h.2.2⟩
  closeScope {i p q} h kind kind' := by
    obtain ⟨ha, hp, hd⟩ := h
    rw [SymbolTable.depth] at hd
    cases hf : p.table.frames with
    | nil =>
      rw [hf] at hd
      cases hd
    | cons f fs =>
      rw [hf] at hd
      have hg : q.table.frames = f :: fs := ha.table ▸ hf
      simp only [closeScope, SymbolTable.pop, hf, hg]
      exact ⟨⟨congrArg (fun t : SymbolTable => { t with frames := fs }) ha.table, ha.returns,
        ha.failure⟩, hp, Nat.le_of_succ_le_succ hd⟩

end Typing

end AutoAwait
