import AutoAwait.Proofs.Typing.Columns

/-!
# One program over two tables

The pass over one program from two tables. What it does depends on the tables only through the types
of the names that it looks up; so if some relation between the columns of the names is kept by every
binding, and gives one type to the names that are looked up, the passes end alike: with the same
error, or with the same awaits and types.

* `Node.Alike` relates trees that differ in types which the pass does not read;
* `Typing.Beside` relates the states of the two passes;
* `Typing.walk_lockstep` keeps a walk from one table beside the walk from the other,
  `Typing.run_lockstep` the whole pass.
-/

namespace AutoAwait

variable {r : Registry} {Sees : Scopes → String → Prop} {C : ColumnRel}

/-! ## Trees that the pass reads alike -/

/-- Two trees that differ in types only. If they are not `loose` the parts have equal types; if they
are, only those parts have whose types the pass reads. -/
inductive Node.Alike (loose : Prop) : Node → Node → Prop
  | mk {n m : Node} (loc : m.loc = n.loc) (shape : n.shape.Rel (fun _ _ => True) m.shape)
      (parts : ∀ slot k l, n.part? slot = some k → m.part? slot = some l → Alike loose k l)
      (types : ∀ slot k l, n.part? slot = some k → m.part? slot = some l →
        (loose → n.shape.reads slot) → l.type = k.type) : Alike loose n m

namespace Node.Alike

variable {loose : Prop} {n m k l : Node} {slot : Slot}

theorem refl (n : Node) : Alike loose n n := by
  induction n using Node.induction with
  | step n ih =>
    refine .mk rfl ?_ (fun slot k l hk hl => ?_) fun slot k l hk hl _ => ?_
    · exact n.shape.rel_refl.mono fun _ _ _ => trivial
    · obtain rfl := Option.some.inj (hk.symm.trans hl)
      exact ih k (Shape.mem_parts_of_part? hk)
    · obtain rfl := Option.some.inj (hk.symm.trans hl)
      rfl

theorem loc (h : Alike loose n m) : m.loc = n.loc := by
  cases h with
  | mk loc => exact loc

theorem shape (h : Alike loose n m) : n.shape.Rel (fun _ _ => True) m.shape := by
  cases h with
  | mk _ shape => exact shape

theorem part (h : Alike loose n m) (hk : (slot, k) ∈ n.shape.kids) (hl : (slot, l) ∈ m.shape.kids) :
    Alike loose k l ∧ ((loose → n.shape.reads slot) → l.type = k.type) := by
  rw [Shape.mem_kids_iff_part?] at hk hl
  cases h with
  | mk _ _ parts types => exact ⟨parts slot k l hk hl, types slot k l hk hl⟩

/-- The types of the trees themselves may be any. -/
theorem withType (h : Alike loose n m) (t u : Option ShellType) :
    Alike loose { n with type := t } { m with type := u } := by
  cases h with
  | mk loc shape parts types => exact .mk loc shape parts types

theorem kind (h : Alike loose n m) : m.kind = n.kind := h.shape.kind.symm

theorem name? (h : Alike loose n m) : m.name? = n.name? := h.shape.name?.symm

theorem attributeName? (h : Alike loose n m) (computed : Bool) :
    Typing.attributeName? m computed = Typing.attributeName? n computed := by
  have hs := h.shape
  obtain ⟨loc, type, s⟩ := n
  obtain ⟨loc', type', s'⟩ := m
  dsimp only at hs
  cases hs <;> rfl

/-- Types apart the trees are equal. -/
theorem withoutTypes (h : Alike loose n m) : m.withoutTypes = n.withoutTypes := by
  induction h with
  | @mk n m loc shape parts types ih =>
    rw [Node.withoutTypes_eq, Node.withoutTypes_eq n, loc]
    congr 1
    apply (((Shape.rel_map _ _).symm.comp shape.symm).comp (Shape.rel_map _ _)).eq_of_part?
    intro slot a b ha hb
    rw [Shape.part?_map, Option.map_eq_some_iff] at ha hb
    obtain ⟨l, hl, rfl⟩ := ha
    obtain ⟨k, hk, rfl⟩ := hb
    exact ih slot k l hk hl

theorem await {loc loc' : Position} {t u : Option ShellType} (hl : loc' = loc) (h : Alike loose n m)
    (ht : m.type = n.type) : Alike loose ⟨loc, t, .await n⟩ ⟨loc', u, .await m⟩ := by
  have hpart : ∀ slot k l, (⟨loc, t, .await n⟩ : Node).part? slot = some k →
      (⟨loc', u, .await m⟩ : Node).part? slot = some l → k = n ∧ l = m := by
    intro slot k l hk hl
    rw [Node.part?, Shape.part?_await] at hk hl
    split at hk
    · rw [if_pos ‹_›] at hl
      exact ⟨(Option.some.inj hk).symm, (Option.some.inj hl).symm⟩
    · cases hk
  refine .mk hl (.await trivial) (fun slot k l hk hl => ?_) fun slot k l hk hl _ => ?_
  · obtain ⟨rfl, rfl⟩ := hpart slot k l hk hl
    exact h
  · obtain ⟨rfl, rfl⟩ := hpart slot k l hk hl
    exact ht

/-- Trees that are not loose are equal. -/
theorem eq (h : Alike False n m) (ht : m.type = n.type) : m = n := by
  induction h with
  | @mk n m loc shape parts types ih =>
    obtain ⟨nloc, ntype, ns⟩ := n
    obtain ⟨mloc, mtype, ms⟩ := m
    dsimp only at loc shape ht
    subst loc ht
    congr 1
    refine (shape.eq_of_part? fun slot k l hk hl => ?_).symm
    exact (ih slot k l hk hl (types slot k l hk hl False.elim)).symm

end Node.Alike

namespace Typing

/-! ## Two passes beside each other -/

/-- Two passes over one program with the same error, if any. After an error the scopes are those
where it was met. -/
structure Beside (r : Registry) (C : ColumnRel) (s : Scopes) (p q : Typing) : Prop where
  returns : q.returns = p.returns
  failure : q.failure = p.failure
  table : ∃ s', (p.failure = none → s' = s) ∧ SymbolTable.Paired r C s' p.table q.table

namespace Beside

variable {s : Scopes} {p q p' q' : Typing} {k l : Node} {name : String}

theorem paired (h : Beside r C s p q) (hp : p.failure = none) :
    SymbolTable.Paired r C s p.table q.table := by
  obtain ⟨s', hs, hp'⟩ := h.table
  exact hs hp ▸ hp'

theorem registry (h : Beside r C s p q) : q.table.registry = p.table.registry := by
  obtain ⟨s', -, hp⟩ := h.table
  exact hp.registry.2.trans hp.registry.1.symm

theorem unknown (h : Beside r C s p q) : q.table.unknown = p.table.unknown :=
  congrArg Registry.unknown h.registry

theorem resolve (h : Beside r C s p q) (ref : TypeRef) : q.table.resolve ref = p.table.resolve ref :=
  congrArg (·.resolve ref) h.registry

theorem typeOf (h : Beside r C s p q) (ht : l.type = k.type) : q.typeOf l = p.typeOf k := by
  simp only [Typing.typeOf, Option.bind_some, ht, h.unknown]

theorem calleeReturns (h : Beside r C s p q) (ht : l.type = k.type) :
    q.calleeReturns l = p.calleeReturns k := by
  simp only [Typing.calleeReturns, h.typeOf ht, h.resolve, h.unknown]

theorem agree (h : Beside r C s p q) (hp : Agree p p') (hq : Agree q q') : Beside r C s p' q' where
  returns := by rw [← hp.returns, ← hq.returns, h.returns]
  failure := by rw [← hp.failure, ← hq.failure, h.failure]
  table := by
    rw [← hp.failure, ← hp.table, ← hq.table]
    exact h.table

theorem note (h : Beside r C s p q) (e e' : Event) : Beside r C s (p.note e) (q.note e') :=
  h.agree (agree_note p e) (agree_note q e')

/-- After an error the scopes do not matter. -/
theorem of_failed (h : Beside r C s p q) (hf : p.failure.isSome) (s' : Scopes) : Beside r C s' p q := by
  obtain ⟨t, -, hp⟩ := h.table
  refine ⟨h.returns, h.failure, t, fun hn => ?_, hp⟩
  rw [hn] at hf
  cases hf

theorem fail (h : Beside r C s p q) (e : TypingError) (s' : Scopes) :
    Beside r C s' (p.fail e) (q.fail e) := by
  obtain ⟨t, -, hp⟩ := h.table
  exact ⟨h.returns, rfl, t, nofun, hp⟩

theorem withReturns (h : Beside r C s p q) {rs rs' : List (List ShellType)} (hr : rs' = rs) :
    Beside r C s { p with returns := rs } { q with returns := rs' } := ⟨hr, h.failure, h.table⟩

section
variable (hC : Lockstep r Sees C)
include hC

theorem openScope (h : Beside r C s p q) (kind : NodeKind) :
    Beside r C ([] :: s) (p.openScope kind) (q.openScope kind) := by
  obtain ⟨s', hs, hp⟩ := h.table
  exact ⟨h.returns, h.failure, [] :: s', fun hf => congrArg ([] :: ·) (hs hf), hp.push hC⟩

theorem closeScope (h : Beside r C s p q) (kind : NodeKind) :
    Beside r C (s.drop 1) (p.closeScope kind) (q.closeScope kind) := by
  obtain ⟨s', hs, hp⟩ := h.table
  rcases SymbolTable.pop_alike hp.depth with ⟨e, ht, hu⟩ | ⟨⟨f, t⟩, ⟨g, u⟩, ht, hu⟩
  · simp only [Typing.closeScope, ht, hu]
    exact h.fail _ _
  · simp only [Typing.closeScope, ht, hu]
    exact ⟨h.returns, h.failure, s'.drop 1, fun hf => congrArg (List.drop 1) (hs hf), hp.pop hC ht hu⟩

theorem declare (h : Beside r C s p q) (name : String) (t : ShellType) :
    Beside r C (Scopes.bind s name) (p.declare name t) (q.declare name t) := by
  obtain ⟨s', hs, hp⟩ := h.table
  rcases SymbolTable.declare_alike hp.depth name (.type t) with ⟨e, ht, hu⟩ | ⟨t', u', ht, hu⟩
  · simp only [Typing.declare, ht, hu]
    exact h.fail _ _
  · simp only [Typing.declare, ht, hu]
    exact ⟨h.returns, h.failure, Scopes.bind s' name, fun hf => by rw [hs hf], hp.declare hC ht hu⟩

theorem update (h : Beside r C s p q) (name : String) (t : ShellType) :
    Beside r C (Scopes.assign s name) (p.update name t) (q.update name t) := by
  obtain ⟨s', hs, hp⟩ := h.table
  rcases SymbolTable.update_alike hp.depth name (.type t) with ⟨e, ht, hu⟩ | ⟨t', u', ht, hu⟩
  · simp only [Typing.update, ht, hu]
    exact h.fail _ _
  · simp only [Typing.update, ht, hu]
    exact ⟨h.returns, h.failure, Scopes.assign s' name, fun hf => by rw [hs hf], hp.update hC ht hu⟩

/-! ### Entering a node -/

theorem declareParams (h : Beside r C s p q) (params : List Node) :
    Beside r C ((params.map (·.name?.getD "")).foldl Scopes.bind s) (params.foldl declareParam p)
      (params.foldl declareParam q) := by
  induction params generalizing s p q with
  | nil => exact h
  | cons k params ih =>
    refine ih ?_
    rw [declareParam, declareParam, h.unknown]
    exact h.declare hC _ _

theorem enter (h : Beside r C s p q) (hp : p.failure = none) (n : Node) :
    Beside r C (s.enter n) (enter n p).2 (enter n q).2 := by
  have hq := h.failure.trans hp
  have hf : ∀ kind, Beside r C ([] :: s) ({ p with returns := [] :: p.returns }.openScope kind)
      ({ q with returns := [] :: q.returns }.openScope kind) := by
    intro kind
    exact (h.withReturns (congrArg ([] :: ·) h.returns)).openScope hC kind
  obtain ⟨loc, type, shape⟩ := n
  simp only [Typing.enter, hp, hq, Option.isSome_none, Bool.false_eq_true, if_false]
  cases shape with
  | function id params body | arrow params body | functionDecl id params body =>
    exact (hf _).declareParams hC params
  | catchClause param body => exact (h.openScope hC _).declareParams hC param.toList
  | block _ | «for» _ _ _ _ | forOf _ _ _ | «while» _ _ => exact h.openScope hC _
  | _ => exact h

end

end Beside

/-! ### Leaving a node -/

/-- Two results of leaving a node, or of walking over it: the passes are still beside each other, and
the nodes are alike. Their types are equal if they are `shown`. -/
structure Left (r : Registry) (C : ColumnRel) (loose shown : Prop) (s : Scopes)
    (x x' : Node × Typing) : Prop where
  beside : Beside r C s x.2 x'.2
  alike : Node.Alike loose x.1 x'.1
  type : shown → x'.1.type = x.1.type

section left
variable {loose shown : Prop} {s s' : Scopes} {p q : Typing} {n m : Node}

theorem left_typed (h : Beside r C s p q) (ha : Node.Alike loose n m) {t u : ShellType}
    (ht : shown → u = t) : Left r C loose shown s (typed n t, p) (typed m u, q) :=
  ⟨h, ha.withType _ _, fun hs => congrArg some (ht hs)⟩

theorem left_failed (h : Beside r C s p q) (ha : Node.Alike loose n m) (ht : m.type = n.type)
    (e : TypingError) : Left r C loose shown s' (n, p.fail e) (m, q.fail e) :=
  ⟨h.fail e s', ha, fun _ => ht⟩

theorem left_unless_failed (h : Beside r C s p q) (ha : Node.Alike loose n m) (ht : m.type = n.type)
    {t u : ShellType} (hu : u = t) (e e' : Event) :
    Left r C loose shown s (if p.failure.isSome then (n, p) else (typed n t, p.note e))
      (if q.failure.isSome then (m, q) else (typed m u, q.note e')) := by
  rw [h.failure]
  split
  · exact ⟨h, ha, fun _ => ht⟩
  · exact left_typed (h.note _ _) ha fun _ => hu

theorem left_noted (h : Beside r C s p q) (ha : Node.Alike loose n m) (e : Event) :
    Left r C loose shown s (typed n p.table.unknown, p.note e) (typed m q.table.unknown, q.note e) :=
  left_typed (h.note _ _) ha fun _ => h.unknown

theorem leaveMember_lockstep {o o' k k' : Node} {computed : Bool} (h : Beside r C s p q)
    (ha : Node.Alike loose n m) (ht : m.type = n.type) (ho : o'.type = o.type)
    (hk : attributeName? k' computed = attributeName? k computed) :
    Left r C loose shown s (p.leaveMember n o k computed) (q.leaveMember m o' k' computed) := by
  simp only [leaveMember, hk, h.typeOf ho, h.unknown, h.resolve, ha.loc]
  split
  · split
    · exact left_failed h ha ht _
    · exact left_typed (h.note _ _) ha fun _ => rfl
  · split
    · exact left_typed ((h.agree (agree_noteMissing _ _) (agree_noteMissing _ _)).note _ _) ha
        fun _ => rfl
    · exact left_typed (h.note _ _) ha fun _ => rfl

theorem leaveCall_lockstep {c c' : Node} {place : Place} (h : Beside r C s p q) (ha : Node.Alike loose n m)
    (hc : c'.type = c.type) :
    Left r C loose shown s (p.leaveCall place n c) (q.leaveCall place m c') := by
  have hb := h.agree (agree_noteMissingReturn p c) (agree_noteMissingReturn q c')
  have ht := ha.withType (some (p.calleeReturns c)) (some (p.calleeReturns c))
  simp only [leaveCall, h.typeOf hc, h.calleeReturns hc]
  split
  · exact ⟨hb.note _ _, .await ht.loc ht rfl, fun _ => rfl⟩
  · exact left_typed (hb.note _ _) ha fun _ => rfl

theorem leaveDeclarator_lockstep {i i' : Node} {e e' : Option Node} (hC : Lockstep r Sees C)
    (h : Beside r C s p q) (ha : Node.Alike loose n m) (hi : i'.name? = i.name?)
    (he : q.typeOf e' = p.typeOf e) :
    Left r C loose shown (s.assign (i.name?.getD "")) (p.leaveDeclarator n i e)
      (q.leaveDeclarator m i' e') := by
  have hu := h.update hC (i.name?.getD "") (p.typeOf e)
  simp only [leaveDeclarator, hi, he, h.unknown]
  rw [hu.failure]
  split
  · exact left_typed hu ha fun _ => rfl
  · exact left_typed (hu.note _ _) ha fun _ => rfl

theorem leaveAssignment_lockstep {l l' v v' : Node} (hC : Lockstep r Sees C)
    (h : Beside r C s p q) (ha : Node.Alike loose n m) (ht : m.type = n.type)
    (hl : l'.name? = l.name?) (hv : v'.type = v.type) :
    Left r C loose shown (l.name?.elim s s.assign) (p.leaveAssignment n l v)
      (q.leaveAssignment m l' v') := by
  simp only [leaveAssignment, hl, h.typeOf hv]
  cases l.name? with
  | none => exact left_unless_failed h ha ht rfl _ _
  | some z => exact left_unless_failed (h.update hC z _) ha ht rfl _ _

theorem functionReturns_beside {body body' : Node} (h : Beside r C s p q) (hk : m.kind = n.kind)
    (hb : body'.kind = body.kind) (ht : n.kind = .arrow → body'.type = body.type)
    (types : List ShellType) :
    q.functionReturns m body' types = p.functionReturns n body types := by
  simp only [functionReturns, hk, hb, h.unknown]
  split
  · split
    · next ha => rw [h.typeOf (ht ha.1)]
    · rfl
  · rfl
  · rfl

theorem leaveFunction_lockstep (id id' : Option Node) {body body' : Node} (hC : Lockstep r Sees C)
    (h : Beside r C s p q) (ha : Node.Alike loose n m) (ht : m.type = n.type)
    (hi : id'.map (·.name?.getD "") = id.map (·.name?.getD ""))
    (hb : body'.kind = body.kind) (hbt : n.kind = .arrow → body'.type = body.type) :
    Left r C loose shown ((id.map (·.name?.getD "")).elim (s.drop 1) (Scopes.bind (s.drop 1)))
      (p.leaveFunction n id body) (q.leaveFunction m id' body') := by
  have hc := h.closeScope hC n.kind
  have hr := hc.withReturns (congrArg List.tail hc.returns)
  have hf := functionReturns_beside hr ha.kind hb hbt ((p.closeScope n.kind).returns.headD [])
  simp only [leaveFunction, ha.kind, ha.loc, hc.returns, hi] at hr hf ⊢
  split
  · exact left_failed hr ha ht _
  · rw [hf]
    cases id.map (·.name?.getD "") with
    | none => exact left_unless_failed hr ha ht rfl _ _
    | some name => exact left_unless_failed (hr.declare hC _ _) ha ht rfl _ _

theorem typeOf_opt (h : Beside r C s p q) {a b : Option Node} (hr : Option.Rel (fun _ _ => True) a b)
    (ht : ∀ k l, a = some k → b = some l → l.type = k.type) : q.typeOf b = p.typeOf a := by
  cases hr with
  | none => exact h.unknown
  | some => exact h.typeOf (ht _ _ rfl rfl)

/-- Leaving two nodes whose parts are alike. -/
theorem leaveNode_lockstep {place : Place} (hC : Lockstep r Sees C) (h : Beside r C s p q)
    (hp : p.failure = none) (ha : Node.Alike loose n m) (ht : m.type = n.type)
    (hs : ∀ z, n.name? = some z → shown → Sees s z) :
    Left r C loose shown (s.leave n) (p.leaveNode place n) (q.leaveNode place m) := by
  have hrel := ha.shape
  have hpart : ∀ key {k l : Node},
      (⟨key, none⟩, k) ∈ n.shape.kids ∧ (⟨key, none⟩, l) ∈ m.shape.kids →
        Node.Alike loose k l ∧ ((loose → n.shape.reads ⟨key, none⟩) → l.type = k.type) :=
    fun _ _ _ hm => ha.part hm.1 hm.2
  obtain ⟨loc, type, sn⟩ := n
  obtain ⟨loc', type', sm⟩ := m
  dsimp only at hrel hpart
  cases hrel with
  | @identifier z =>
    have hl : shown → q.table.lookupType z = p.table.lookupType z := by
      intro hshown
      obtain ⟨hrp, hrq⟩ := (h.paired hp).registry
      rw [SymbolTable.lookupType_eq_shows, SymbolTable.lookupType_eq_shows, hrp, hrq]
      exact hC.sees ((h.paired hp).columns z) (hs z rfl hshown)
    exact left_typed ((h.agree (agree_noteMissing _ _) (agree_noteMissing _ _)).note _ _) ha hl
  | @member o o' k k' computed =>
    obtain ⟨-, ho⟩ := hpart "object" (k := o) (l := o') (by simp [Shape.kids, Shape.one])
    obtain ⟨hk, -⟩ := hpart "property" (k := k) (l := k') (by simp [Shape.kids, Shape.one])
    exact leaveMember_lockstep h ha ht (ho fun _ => rfl) (hk.attributeName? computed)
  | @call c c' =>
    obtain ⟨-, hc⟩ := hpart "callee" (k := c) (l := c') (by simp [Shape.kids, Shape.one])
    exact leaveCall_lockstep h ha (hc fun _ => rfl)
  | @construct c c' =>
    obtain ⟨-, hc⟩ := hpart "callee" (k := c) (l := c') (by simp [Shape.kids, Shape.one])
    exact left_typed ((h.agree (agree_noteMissingReturn _ _) (agree_noteMissingReturn _ _)).note _ _)
      ha fun _ => h.calleeReturns (hc fun _ => rfl)
  | @await a a' =>
    obtain ⟨-, hc⟩ := hpart "argument" (k := a) (l := a') (by simp [Shape.kids, Shape.one])
    exact left_typed (h.note _ _) ha fun _ => h.typeOf (hc fun _ => rfl)
  | @declarator i i' e e' _ hinit =>
    obtain ⟨hi, -⟩ := hpart "id" (k := i) (l := i') (by simp [Shape.kids, Shape.one])
    have he : q.typeOf e' = p.typeOf e := by
      refine typeOf_opt h hinit fun k l hk hl => ?_
      subst hk hl
      exact (hpart "init" (k := k) (l := l) (by simp [Shape.kids, Shape.opt])).2 fun _ => rfl
    exact leaveDeclarator_lockstep hC h ha hi.name? he
  | @assignment op l l' r r' =>
    obtain ⟨hl, -⟩ := hpart "left" (k := l) (l := l') (by simp [Shape.kids, Shape.one])
    obtain ⟨-, hr⟩ := hpart "right" (k := r) (l := r') (by simp [Shape.kids, Shape.one])
    rw [Scopes.leave_eq]
    exact leaveAssignment_lockstep hC h ha ht hl.name? (hr fun _ => rfl)
  | @function i i' ps ps' b b' hid =>
    obtain ⟨hb, -⟩ := hpart "body" (k := b) (l := b') (by simp [Shape.kids, Shape.one])
    have hi : i'.map (·.name?.getD "") = i.map (·.name?.getD "") := by
      cases hid with
      | none => rfl
      | @some k l =>
        obtain ⟨hk, -⟩ := hpart "id" (k := k) (l := l) (by simp [Shape.kids, Shape.opt])
        rw [Option.map_some, Option.map_some, hk.name?]
    have hs : s.leave ⟨loc, type, .function i ps b⟩ =
        (i.map (·.name?.getD "")).elim (s.drop 1) (Scopes.bind (s.drop 1)) := by
      cases i <;> rfl
    rw [hs]
    exact leaveFunction_lockstep i i' hC h ha ht hi hb.kind fun hk => by cases hk
  | @functionDecl i i' ps ps' b b' =>
    obtain ⟨hb, -⟩ := hpart "body" (k := b) (l := b') (by simp [Shape.kids, Shape.one])
    obtain ⟨hi, -⟩ := hpart "id" (k := i) (l := i') (by simp [Shape.kids, Shape.one])
    exact leaveFunction_lockstep (some i) (some i') hC h ha ht
      (congrArg (fun name => some (Option.getD name "")) hi.name?) hb.kind fun hk => by cases hk
  | @arrow ps ps' b b' =>
    obtain ⟨hb, hbt⟩ := hpart "body" (k := b) (l := b') (by simp [Shape.kids, Shape.one])
    exact leaveFunction_lockstep none none hC h ha ht rfl hb.kind fun _ => hbt fun _ => rfl
  | @«return» a a' harg =>
    have he : q.typeOf a' = p.typeOf a := by
      refine typeOf_opt h harg fun k l hk hl => ?_
      subst hk hl
      exact (hpart "argument" (k := k) (l := l) (by simp [Shape.kids, Shape.opt])).2 fun _ => rfl
    simp only [leaveNode, leaveReturn, he, h.returns]
    exact left_typed ((h.withReturns rfl).note _ _) ha fun _ => rfl
  | block _ | «for» _ _ _ _ | forOf _ _ _ | «while» _ _ | catchClause _ _ =>
    exact left_typed (h.closeScope hC _) ha fun _ => (h.closeScope hC _).unknown
  | _ => exact left_noted h ha _

end left

/-! ### Walks -/

section walk
variable {again : Place → Node → StateM Typing Node} {loose : Prop} {s : Scopes} {p q : Typing}

/-- What is looked up in some parts looks the same to both passes, if its type matters. -/
def Seen (Sees : Scopes → String → Prop) (loose : Prop) (ls : List Lookup) : Prop :=
  ∀ l ∈ ls, (loose → l.read) → Sees l.scopes l.name

/-- Two walks over the same parts, if those over each part stay beside each other. `as` and `bs` are
what the parts become. -/
theorem mapM_lockstep {kind : NodeKind} (reads : Slot → Bool) {ks as bs : List (Slot × Node)}
    (ih : ∀ k ∈ ks, ∀ {s p q}, Beside r C s p q → Seen Sees loose (k.2.lookups (reads k.1) s).1 →
      Left r C loose (loose → reads k.1) (k.2.lookups (reads k.1) s).2 (walkPart again kind k.1 k.2 p)
        (walkPart again kind k.1 k.2 q))
    (h : Beside r C s p q) (hs : Seen Sees loose (Node.lookupsIn reads ks s).1.flatten)
    (has : List.Forall₂ (fun k a => k.1 = a.1) ks as)
    (hbs : List.Forall₂ (fun k b => k.1 = b.1) ks bs)
    (ha : as.map (·.2) = (ks.mapM (fun k => walkPart again kind k.1 k.2) p).1)
    (hb : bs.map (·.2) = (ks.mapM (fun k => walkPart again kind k.1 k.2) q).1) :
    Beside r C (Node.lookupsIn reads ks s).2 (ks.mapM (fun k => walkPart again kind k.1 k.2) p).2
        (ks.mapM (fun k => walkPart again kind k.1 k.2) q).2 ∧
      List.Forall₂ (fun a b => a.1 = b.1 ∧ Node.Alike loose a.2 b.2 ∧
        ((loose → reads a.1) → b.2.type = a.2.type)) as bs := by
  induction ks generalizing s p q as bs with
  | nil =>
    cases has
    cases hbs
    exact ⟨h, .nil⟩
  | cons k ks ih' =>
    obtain _ | ⟨hka, has⟩ := has
    obtain _ | ⟨hkb, hbs⟩ := hbs
    rw [Shape.mapM_cons_run, List.map_cons] at ha hb
    rw [Node.lookupsIn_cons, List.flatten_cons] at hs
    obtain ⟨ha, has'⟩ := List.cons.inj ha
    obtain ⟨hb, hbs'⟩ := List.cons.inj hb
    have hk := ih k List.mem_cons_self h fun l hl => hs l (List.mem_append_left _ hl)
    obtain ⟨hrest, hrel⟩ := ih' (fun k hm => ih k (List.mem_cons_of_mem _ hm)) hk.beside
      (fun l hl => hs l (List.mem_append_right _ hl)) has hbs has' hbs'
    rw [Node.lookupsIn_cons, Shape.mapM_cons_run, Shape.mapM_cons_run]
    refine ⟨hrest, .cons ⟨hka.symm.trans hkb, ?_, ?_⟩ hrel⟩
    · rw [ha, hb]
      exact hk.alike
    · rw [ha, hb, ← hka]
      exact hk.type

theorem walkParts_lockstep {n : Node}
    (ih : ∀ k ∈ n.shape.parts, ∀ {read s slot p q}, Beside r C s p q →
      Seen Sees loose (k.lookups read s).1 → Left r C loose (loose → read) (k.lookups read s).2
        (walkPart again n.kind slot k p) (walkPart again n.kind slot k q))
    (h : Beside r C s p q) (hs : Seen Sees loose (n.partLookups s).1) (loc : Position)
    (type : Option ShellType) :
    Beside r C (n.partLookups s).2 (walkParts again n p).2 (walkParts again n q).2 ∧
      Node.Alike loose ⟨loc, type, (walkParts again n p).1⟩ ⟨loc, type, (walkParts again n q).1⟩ := by
  have hp := Shape.rel_traverse (walkPart again n.kind) n.shape p
  have hq := Shape.rel_traverse (walkPart again n.kind) n.shape q
  obtain ⟨hbeside, hrel⟩ := mapM_lockstep n.shape.reads
    (fun k hk => ih k.2 (List.mem_map.2 ⟨k, hk, rfl⟩)) h hs (hp.kids.imp fun _ _ h => h.1)
    (hq.kids.imp fun _ _ h => h.1) walkParts_parts walkParts_parts
  rw [walkParts_snd, walkParts_snd]
  have hslot : ∀ slot k l, (walkParts again n p).1.part? slot = some k →
      (walkParts again n q).1.part? slot = some l →
        Node.Alike loose k l ∧ ((loose → n.shape.reads slot) → l.type = k.type) := by
    intro slot k l hk hl
    have := Shape.lookup_rel (R := fun slot k l => Node.Alike loose k l ∧
      ((loose → n.shape.reads slot) → l.type = k.type)) hrel slot
    rw [show List.lookup slot _ = some k from hk, show List.lookup slot _ = some l from hl] at this
    cases this
    assumption
  refine ⟨hbeside, .mk rfl ((hp.symm.comp hq).mono fun _ _ _ => trivial)
    (fun slot k l hk hl => (hslot slot k l hk hl).1) fun slot k l hk hl hr => ?_⟩
  rw [show (walkParts again n p).1.reads = n.shape.reads from hp.reads] at hr
  exact (hslot slot k l hk hl).2 hr

/-- **One walk over two tables.** Two walks over one tree stay beside each other, if what they look up
looks the same to both. -/
theorem walk_lockstep (hC : Lockstep r Sees C) (n : Node) {read : Bool} (place : Place)
    (h : Beside r C s p q) (hs : Seen Sees loose (n.lookups read s).1) :
    Left r C loose (loose → read) (n.lookups read s).2 (n.walk visitor again place p)
      (n.walk visitor again place q) := by
  induction n using Node.induction generalizing read place s p q with
  | step n ih =>
    cases hp : p.failure with
    | some e =>
      have hf : p.failure.isSome := by rw [hp]; rfl
      rw [walk_failed hf, walk_failed (by rw [h.failure]; exact hf)]
      exact ⟨h.of_failed hf _, .refl n, fun _ => rfl⟩
    | none =>
      rw [Node.lookups_eq] at hs ⊢
      dsimp only at hs ⊢
      obtain ⟨hbeside, halike⟩ := walkParts_lockstep
        (fun k hk read s slot p q h hs => ih k hk (.part n.kind slot) h hs) (h.enter hC hp n)
        (fun l hl => hs l (List.mem_append_right _ hl)) n.loc n.type
      rw [walk_run hp, walk_run (h.failure.trans hp), hbeside.failure]
      split
      · exact ⟨hbeside.of_failed ‹_› _, halike, fun _ => rfl⟩
      · next hf =>
        have hf := Option.not_isSome_iff_eq_none.1 hf
        have hnames : n.shape.Rel (fun k l => k.name? = l.name?) (descended again n p).1.shape :=
          walkParts_ok hf fun slot k _ q hq => (walk_rewrites k hq).name?
        have hleave : (n.partLookups (s.enter n)).2.leave (descended again n p).1 =
            (n.partLookups (s.enter n)).2.leave n := by
          rw [Scopes.leave, Scopes.leave, ← Node.assigned?_eq hnames,
            show (descended again n p).1.kind = n.kind from kind_walkParts]
        have hname : (descended again n p).1.name? = n.name? := hnames.name?.symm
        rw [← hleave]
        refine leaveNode_lockstep hC hbeside hf halike rfl fun z hz hshown => ?_
        refine hs ⟨z, _, read⟩ (List.mem_append_left _ ?_) hshown
        rw [← hname, hz]
        exact List.mem_singleton_self _

/-- **One program over two tables.** The pass over one program from two tables ends alike, if what it
looks up looks the same in both. -/
theorem run_lockstep (hC : Lockstep r Sees C) (loose : Prop) (program : Node) {t u : SymbolTable}
    (h : SymbolTable.Paired r C s t u) (hs : Seen Sees loose (program.partLookups s).1) :
    Left r C loose True (program.partLookups s).2 (run program t) (run program u) := by
  obtain ⟨hbeside, halike⟩ := walkParts_lockstep (p := start t) (q := start u)
    (fun k _ read s slot p q h hs => walk_lockstep hC k (.part program.kind slot) h hs)
    ⟨rfl, rfl, s, fun _ => rfl, h⟩ hs program.loc program.type
  rw [run_eq, run_eq]
  refine ⟨hbeside, ?_, fun _ => ?_⟩
  · simp only [hbeside.failure]
    split
    · exact halike
    · exact halike.withType _ _
  · simp only [hbeside.failure]
    split
    · rfl
    · exact congrArg some hbeside.unknown

end walk

end Typing

end AutoAwait
