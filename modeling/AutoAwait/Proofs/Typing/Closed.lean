import AutoAwait.Proofs.Catalog.Closed
import AutoAwait.Proofs.Script.Writers

/-!
# Closed tables stay closed

Over a closed table the pass finds closed types only, and binds no others. So every name that it
looks up in the registry is there, but for one: an attribute that a database does not list is a
collection, and a catalog need not describe collections.

* `Typing.ClosedIn` is what holds of the pass over a closed table at each moment, and
  `Typing.carried_closedIn` says that a walk preserves it;
* `CollectionMisses` are the logs in which only that one name is reported missing;
* `loadCatalog_stays_closed` is the main statement.
-/

namespace AutoAwait

/-- The type name that an event reports as missing. -/
def Event.missing? : Event → Option String
  | .missingType name => some name
  | _ => none

theorem ShellType.name_of_isDatabase {t : ShellType} (h : t.isDatabase) :
    t.name = databaseName := by
  cases t with
  | object _ name _ _ => exact beq_iff_eq.1 h
  | _ => cases h

/-- A log, the latest event first, in which no type name is missing but that of collections; it is
not registered then, and it is the attribute of a database that asks for it. -/
inductive CollectionMisses (r : Registry) : List Event → Prop
  | nil : CollectionMisses r []
  | note {e log} (h : CollectionMisses r log) (he : e.missing? = none) :
      CollectionMisses r (e :: log)
  | member {log} (h : CollectionMisses r log) (missing : r.find? ShellType.collectionName = none)
      (attr found : String) :
      CollectionMisses r (.member ShellType.databaseName attr found ::
        .missingType ShellType.collectionName :: log)

/-! ## Tables -/

theorem Bindings.of_get? {α : Type} {P : α → Prop} {b : Bindings α} {name : String} {a : α}
    (h : ∀ q ∈ b, P q.2) (hg : b.get? name = some a) : P a := by
  induction b with
  | nil => cases hg
  | cons q b ih =>
    obtain ⟨hq, hb⟩ := List.forall_mem_cons.1 h
    unfold get? at hg
    split at hg
    · cases hg
      exact hq
    · exact ih hb hg

namespace SymbolTable.Closed

variable {t u : SymbolTable} {ref : TypeRef} {name : String}

theorem push (h : t.Closed) : t.push.Closed :=
  ⟨h.registry, List.forall_mem_cons.2 ⟨List.forall_mem_nil _, h.frames⟩⟩

theorem pop {f : Frame} (h : t.Closed) (hp : t.pop = .ok (f, u)) : u.Closed := by
  obtain ⟨hr, hf⟩ := pop_ok hp
  have hs := h.frames
  rw [hf] at hs
  exact ⟨hr ▸ h.registry, hr ▸ (List.forall_mem_cons.1 hs).2⟩

theorem unwind {d : Int} (h : t.Closed) (hu : t.unwind d = .ok u) :
    u.Closed ∧ u.registry = t.registry := by
  unfold SymbolTable.unwind at hu
  split at hu
  · cases hu
  · cases hu
    exact ⟨⟨h.registry, fun f hf => h.frames f (List.mem_of_mem_drop hf)⟩, rfl⟩

theorem declare (h : t.Closed) (hr : ref.Closed t.registry) (hd : t.declare name ref = .ok u) :
    u.Closed := by
  unfold SymbolTable.declare at hd
  split at hd
  · cases hd
  · next f fs hf =>
    cases hd
    have hs := h.frames
    rw [hf] at hs
    obtain ⟨hf, hfs⟩ := List.forall_mem_cons.1 hs
    exact ⟨h.registry, List.forall_mem_cons.2 ⟨Bindings.forall_mem_put hf hr name, hfs⟩⟩

theorem rebind {r : Registry} {fs gs : List Frame} (h : ∀ f ∈ fs, ∀ p ∈ f, p.2.Closed r)
    (hr : ref.Closed r) (hg : SymbolTable.rebind name ref fs = some gs) :
    ∀ f ∈ gs, ∀ p ∈ f, p.2.Closed r := by
  induction fs generalizing gs with
  | nil => cases hg
  | cons f fs ih =>
    obtain ⟨hf, hfs⟩ := List.forall_mem_cons.1 h
    simp only [SymbolTable.rebind] at hg
    split at hg
    · cases hg
      exact List.forall_mem_cons.2 ⟨Bindings.forall_mem_put hf hr name, hfs⟩
    · obtain ⟨gs, hgs, rfl⟩ := Option.map_eq_some_iff.1 hg
      exact List.forall_mem_cons.2 ⟨hf, ih hfs hgs⟩

theorem update (h : t.Closed) (hr : ref.Closed t.registry) (hu : t.update name ref = .ok u) :
    u.Closed := by
  unfold SymbolTable.update at hu
  split at hu
  · cases hu
    exact ⟨h.registry, rebind h.frames hr ‹_›⟩
  · exact h.declare hr hu

theorem unknown (h : t.Closed) : (TypeRef.type t.unknown).Closed t.registry := h.registry.unknown

theorem lookup (h : t.Closed) (name : String) : (t.lookup name).Closed t.registry := by
  unfold SymbolTable.lookup SymbolTable.find?
  cases hf : t.frames.findSome? (·.get? name) with
  | none => exact h.unknown
  | some ref =>
    obtain ⟨f, hm, hg⟩ := List.exists_of_findSome?_eq_some hf
    exact Bindings.of_get? (h.frames f hm) hg

end SymbolTable.Closed

namespace Typing

variable {r : Registry} {p : Typing} {n : Node} {place : Place} {t : ShellType}

/-! ## The pass over a closed table -/

/-- The pass over a closed table with the registry `r`. -/
structure ClosedIn (r : Registry) (p : Typing) : Prop where
  registry : p.table.registry = r
  table : p.table.Closed
  returns : ∀ ts ∈ p.returns, ∀ t ∈ ts, (TypeRef.type t).Closed r
  log : CollectionMisses r p.log

/-- A node whose type, if it has one, is closed. -/
def TypeClosed (r : Registry) (n : Node) : Prop := ∀ t, n.type = some t → (TypeRef.type t).Closed r

/-- What an attribute refers to can be followed, or it is a collection, which is not registered. -/
theorem attributeRef_closed {attr : String} {ref : TypeRef} (h : (TypeRef.type t).Closed r)
    (ha : attributeRef t attr = some ref) :
    ref.Closed r ∨ ref = .named ShellType.collectionName ∧
      r.find? ShellType.collectionName = none ∧ t.isDatabase ∧ t.attribute? attr = none := by
  unfold attributeRef at ha
  split at ha
  · next ref' hr =>
    cases ha
    left
    unfold ShellType.attribute? ShellType.attributes? at hr
    cases h with
    | unknown | function _ => cases hr
    | @object e name asyncChild attrs _ closed =>
      obtain ⟨attrs, rfl, hl⟩ := Option.bind_eq_some_iff.1 hr
      obtain ⟨before, after, rfl, -⟩ := List.lookup_eq_some_iff.1 hl
      exact closed (attr, ref) (by simp)
  · next hn =>
    split at ha
    · next hd =>
      cases ha
      cases hf : r.find? ShellType.collectionName with
      | none => exact .inr ⟨rfl, rfl, hd, hn⟩
      | some t => exact .inl (.named (by simp [hf]))
    · cases ha

theorem returnRef?_closed {ref : TypeRef} (h : (TypeRef.type t).Closed r)
    (hr : returnRef? t = some ref) : ref.Closed r := by
  cases h with
  | function h =>
    cases hr
    exact h
  | unknown | object _ _ => cases hr

namespace ClosedIn

theorem start {t : SymbolTable} (h : t.Closed) : ClosedIn t.registry (start t) :=
  ⟨rfl, h, List.forall_mem_nil _, .nil⟩

theorem note (h : ClosedIn r p) {e : Event} (he : e.missing? = none) :
    ClosedIn r (p.note e) := ⟨h.registry, h.table, h.returns, h.log.note he⟩

theorem fail (h : ClosedIn r p) (e : TypingError) : ClosedIn r (p.fail e) :=
  ⟨h.registry, h.table, h.returns, h.log⟩

theorem withTable (h : ClosedIn r p) {u : SymbolTable} (hr : u.registry = p.table.registry)
    (hu : u.Closed) : ClosedIn r { p with table := u } :=
  ⟨hr.trans h.registry, hu, h.returns, h.log⟩

theorem withReturns (h : ClosedIn r p) {returns : List (List ShellType)}
    (hr : ∀ ts ∈ returns, ∀ t ∈ ts, (TypeRef.type t).Closed r) :
    ClosedIn r { p with returns := returns } := ⟨h.registry, h.table, hr, h.log⟩

theorem registryClosed (h : ClosedIn r p) : r.Closed := h.registry ▸ h.table.registry

theorem unknown (h : ClosedIn r p) : (TypeRef.type p.table.unknown).Closed r :=
  h.registry ▸ h.table.unknown

theorem lookup (h : ClosedIn r p) (name : String) : (p.table.lookup name).Closed r :=
  h.registry ▸ h.table.lookup name

theorem resolve (h : ClosedIn r p) {ref : TypeRef} (hr : ref.Closed r) :
    (TypeRef.type (p.table.resolve ref)).Closed r := by
  rw [SymbolTable.resolve, h.registry]
  exact h.registryClosed.resolve hr

theorem noteMissing (h : ClosedIn r p) {ref : TypeRef} (hr : ref.Closed r) :
    p.noteMissing ref = p := by
  rw [Typing.noteMissing, h.registry, hr.missing?]

theorem typeOf (h : ClosedIn r p) {o : Option Node} (ho : ∀ k ∈ o, TypeClosed r k) :
    (TypeRef.type (p.typeOf o)).Closed r := by
  unfold Typing.typeOf
  cases hb : o.bind (·.type) with
  | none => exact h.unknown
  | some t =>
    obtain ⟨k, rfl, ht⟩ := Option.bind_eq_some_iff.1 hb
    exact ho k rfl t ht

theorem calleeReturns (h : ClosedIn r p) {callee : Node} (hc : TypeClosed r callee) :
    (TypeRef.type (p.calleeReturns callee)).Closed r := by
  unfold Typing.calleeReturns
  split
  · next ref hr => exact h.resolve (returnRef?_closed (h.typeOf (by simpa using hc)) hr)
  · exact h.unknown

theorem noteMissingReturn (h : ClosedIn r p) {callee : Node} (hc : TypeClosed r callee) :
    p.noteMissingReturn callee = p := by
  unfold Typing.noteMissingReturn
  split
  · next ref hr => exact h.noteMissing (returnRef?_closed (h.typeOf (by simpa using hc)) hr)
  · rfl

theorem declare (h : ClosedIn r p) (ht : (TypeRef.type t).Closed r) (name : String) :
    ClosedIn r (p.declare name t) := by
  unfold Typing.declare
  split
  · next u hu =>
    exact h.withTable (SymbolTable.bound_of_declare hu).1 (h.table.declare (h.registry ▸ ht) hu)
  · exact h.fail _

theorem update (h : ClosedIn r p) (ht : (TypeRef.type t).Closed r) (name : String) :
    ClosedIn r (p.update name t) := by
  unfold Typing.update
  split
  · next u hu =>
    exact h.withTable (SymbolTable.bound_of_update hu).1 (h.table.update (h.registry ▸ ht) hu)
  · exact h.fail _

theorem openScope (h : ClosedIn r p) (kind : NodeKind) : ClosedIn r (p.openScope kind) :=
  withTable (h.note rfl) rfl h.table.push

theorem closeScope (h : ClosedIn r p) (kind : NodeKind) : ClosedIn r (p.closeScope kind) := by
  unfold Typing.closeScope
  split
  · next f u hu =>
    exact note (h.withTable (SymbolTable.pop_ok hu).1.symm (h.table.pop hu)) rfl
  · exact h.fail _

theorem declareParams (h : ClosedIn r p) (params : List Node) :
    ClosedIn r (params.foldl declareParam p) := by
  induction params generalizing p with
  | nil => exact h
  | cons k params ih => exact ih (h.declare h.unknown _)

theorem enter (h : ClosedIn r p) (n : Node) : ClosedIn r (enter n p).2 := by
  have hr := h.withReturns (List.forall_mem_cons.2 ⟨List.forall_mem_nil _, h.returns⟩)
  unfold Typing.enter
  split
  · exact h
  · split
    · exact (hr.openScope _).declareParams _
    · exact (hr.openScope _).declareParams _
    · exact (hr.openScope _).declareParams _
    · exact (h.openScope _).declareParams _
    · dsimp only
      split
      · exact h.openScope _
      · exact h

end ClosedIn

/-- What leaving a node over a closed table leads to. -/
def LeavesClosed (r : Registry) (x : Node × Typing) : Prop :=
  ClosedIn r x.2 ∧ (x.2.failure = none → TypeClosed r x.1)

namespace ClosedIn

theorem leave_typed (h : ClosedIn r p) (ht : (TypeRef.type t).Closed r) :
    LeavesClosed r (typed n t, p) := by
  refine ⟨h, fun _ u hu => ?_⟩
  cases hu
  exact ht

theorem leave_failed (h : ClosedIn r p) (hf : p.failure.isSome) : LeavesClosed r (n, p) :=
  ⟨h, fun hn => by rw [hn] at hf; cases hf⟩

theorem leave_unless_failed (h : ClosedIn r p) (ht : (TypeRef.type t).Closed r) {e : Event}
    (he : e.missing? = none) :
    LeavesClosed r (if p.failure.isSome then (n, p) else (typed n t, p.note e)) := by
  split
  · exact h.leave_failed ‹_›
  · exact (h.note he).leave_typed ht

theorem leaveMember (h : ClosedIn r p) (n : Node) {object : Node} (ho : TypeClosed r object)
    (property : Node) (computed : Bool) :
    LeavesClosed r (p.leaveMember n object property computed) := by
  have ht := h.typeOf (o := some object) (by simpa using ho)
  unfold Typing.leaveMember
  dsimp only
  split
  · split
    · exact (h.fail _).leave_failed rfl
    · exact (h.note rfl).leave_typed h.unknown
  · next attr _ =>
    split
    · next ref hr =>
      rcases attributeRef_closed ht hr with hc | ⟨rfl, hm, hd, -⟩
      · rw [h.noteMissing hc]
        exact (h.note rfl).leave_typed (h.resolve hc)
      · -- The one name that can be missing.
        have hn : p.noteMissing (.named ShellType.collectionName) =
            p.note (.missingType ShellType.collectionName) := by
          simp [Typing.noteMissing, Registry.missing?, h.registry, hm]
        rw [hn, ShellType.name_of_isDatabase hd]
        refine leave_typed ⟨h.registry, h.table, h.returns, h.log.member hm _ _⟩ ?_
        rw [SymbolTable.resolve, h.registry]
        exact h.registryClosed.resolve_named _
    · exact (h.note rfl).leave_typed h.unknown

theorem functionReturns (h : ClosedIn r p) (n : Node) {body : Node} (hb : TypeClosed r body)
    {types : List ShellType} (ht : ∀ t ∈ types, (TypeRef.type t).Closed r) :
    (TypeRef.type (p.functionReturns n body types).1).Closed r := by
  unfold Typing.functionReturns
  split
  · split
    · exact h.typeOf (by simpa using hb)
    · exact h.unknown
  · exact ht _ List.mem_cons_self
  · exact h.unknown

theorem leaveFunction (h : ClosedIn r p) (n : Node) (id : Option Node) {body : Node}
    (hb : TypeClosed r body) : LeavesClosed r (p.leaveFunction n id body) := by
  have hc := h.closeScope n.kind
  have hq := hc.withReturns (fun ts hts => hc.returns ts (List.mem_of_mem_tail hts))
  have htypes : ∀ t ∈ (p.closeScope n.kind).returns.headD [], (TypeRef.type t).Closed r := by
    cases hr : (p.closeScope n.kind).returns with
    | nil => exact List.forall_mem_nil _
    | cons ts _ => exact hc.returns ts (by simp [hr])
  have ht : (TypeRef.type (.function none (.type _) false)).Closed r :=
    .function (hq.functionReturns n hb htypes)
  unfold Typing.leaveFunction
  dsimp only
  split
  · exact (hq.fail _).leave_failed rfl
  · cases id with
    | none => exact hq.leave_unless_failed ht rfl
    | some k => exact (hq.declare ht _).leave_unless_failed ht rfl

theorem leaveReturn (h : ClosedIn r p) (n : Node) {argument : Option Node}
    (ha : ∀ k ∈ argument, TypeClosed r k) : LeavesClosed r (p.leaveReturn n argument) := by
  have ht := h.typeOf ha
  unfold Typing.leaveReturn
  refine leave_typed (note (h.withReturns ?_) rfl) ht
  cases hr : p.returns with
  | nil => exact List.forall_mem_nil _
  | cons types outer =>
    have hrs := h.returns
    rw [hr] at hrs
    obtain ⟨hts, hos⟩ := List.forall_mem_cons.1 hrs
    exact List.forall_mem_cons.2
      ⟨List.forall_mem_append.2 ⟨hts, List.forall_mem_singleton.2 ht⟩, hos⟩

/-- Leaving a node keeps a closed table closed, and gives the node a closed type. -/
theorem leaveNode (h : ClosedIn r p) (hk : ∀ k ∈ n.shape.parts, TypeClosed r k) :
    LeavesClosed r (p.leaveNode place n) := by
  obtain ⟨loc, type, shape⟩ := n
  cases shape with
  | identifier name =>
    simp only [Typing.leaveNode, h.noteMissing (h.lookup name)]
    exact (h.note rfl).leave_typed (h.resolve (h.lookup name))
  | member object property computed =>
    exact h.leaveMember _ (hk object (by simp [Shape.parts, Shape.kids, Shape.one])) _ _
  | call callee args =>
    have hc := hk callee (by simp [Shape.parts, Shape.kids, Shape.one])
    simp only [Typing.leaveNode, leaveCall, h.noteMissingReturn hc]
    have hl := fun e he => (h.note (e := e) he).leave_typed (n := ⟨loc, type, .call callee args⟩)
      (h.calleeReturns hc)
    split
    · -- The await has the type of the call.
      exact ⟨(hl _ rfl).1, (hl _ rfl).2⟩
    · exact hl _ rfl
  | construct callee args =>
    have hc := hk callee (by simp [Shape.parts, Shape.kids, Shape.one])
    simp only [Typing.leaveNode, h.noteMissingReturn hc]
    exact (h.note rfl).leave_typed (h.calleeReturns hc)
  | await argument =>
    have ha := hk argument (by simp [Shape.parts, Shape.kids, Shape.one])
    exact (h.note rfl).leave_typed (h.typeOf (by simpa using ha))
  | declarator id init =>
    have hi : ∀ k ∈ init, TypeClosed r k := fun k hm =>
      hk k (by simp [Shape.parts, Shape.kids, Option.mem_def.1 hm])
    have hu := h.update (h.typeOf hi) (id.name?.getD "")
    simp only [Typing.leaveNode, leaveDeclarator]
    split
    · exact hu.leave_typed h.unknown
    · exact (hu.note rfl).leave_typed h.unknown
  | assignment op left right =>
    have ht := h.typeOf (o := some right) (by
      simpa using hk right (by simp [Shape.parts, Shape.kids, Shape.one]))
    simp only [Typing.leaveNode, leaveAssignment]
    cases left.name? with
    | none => exact h.leave_unless_failed ht rfl
    | some name => exact (h.update ht name).leave_unless_failed ht rfl
  | function id params body | arrow params body | functionDecl id params body =>
    exact h.leaveFunction _ _ (hk body (by simp [Shape.parts, Shape.kids, Shape.one]))
  | «return» argument =>
    exact h.leaveReturn _ fun k hm =>
      hk k (by simp [Shape.parts, Shape.kids, Option.mem_def.1 hm])
  | block _ | «for» _ _ _ _ | forOf _ _ _ | «while» _ _ | catchClause _ _ =>
    exact (h.closeScope _).leave_typed (h.closeScope _).unknown
  | _ => exact (h.note rfl).leave_typed h.unknown

end ClosedIn

/-- A walk keeps a closed table closed, and gives a node a closed type. -/
theorem carried_closedIn (r : Registry) :
    Carried (fun p q => ClosedIn r p → ClosedIn r q)
      (fun p n => ClosedIn r p → TypeClosed r n) where
  refl _ := id
  trans hp hq := hq ∘ hp
  before hp hq h := hq (hp h)
  failed _ hr _ h := hr (h.enter _)
  left _ hr _ _ hk :=
    ⟨fun h => ((hr (h.enter _)).leaveNode fun k hm => hk k hm (h.enter _)).1,
      fun hok h => ((hr (h.enter _)).leaveNode fun k hm => hk k hm (h.enter _)).2 hok⟩

theorem run_closedIn {t : SymbolTable} (h : t.Closed) (program : Node) :
    ClosedIn t.registry (run program t).2 :=
  ((carried_closedIn t.registry).run program t).1 (.start h)

end Typing

namespace ProgramScope

/-- Rewriting a tree keeps a closed table closed, and only collections can be missing. -/
theorem rewrite_closed {t : SymbolTable} (s : ProgramScope) (h : t.Closed) (tree : Node) :
    let r := s.rewrite t tree
    r.table.Closed ∧ r.table.registry = t.registry ∧ CollectionMisses t.registry r.log.reverse := by
  have he : (s.enter t).2.Closed ∧ (s.enter t).2.registry = t.registry := by
    cases s with
    | unopened => exact ⟨h.push, rfl⟩
    | _ => exact ⟨h, rfl⟩
  have hc := Typing.run_closedIn he.1 tree
  rw [he.2] at hc
  simp only [rewrite]
  split
  · exact ⟨hc.table, hc.registry, by simpa using hc.log⟩
  · split
    · next u hu =>
      obtain ⟨hclosed, hreg⟩ := hc.table.unwind hu
      refine ⟨hclosed, hreg.trans hc.registry, ?_⟩
      rw [List.reverse_reverse]
      split
      · exact hc.log.note rfl
      · exact hc.log
    · exact ⟨hc.table, hc.registry, by simpa using hc.log⟩

end ProgramScope

namespace CollectionMisses

variable {r : Registry} {log : List Event}

theorem append {earlier : List Event} (h : CollectionMisses r log)
    (he : CollectionMisses r earlier) : CollectionMisses r (log ++ earlier) := by
  induction h with
  | nil => exact he
  | note _ hn ih => exact .note ih hn
  | member _ missing attr found ih => exact .member ih missing attr found

theorem of_forall (h : ∀ e ∈ log, e.missing? = none) : CollectionMisses r log := by
  induction log with
  | nil => exact .nil
  | cons e log ih =>
    obtain ⟨he, hl⟩ := List.forall_mem_cons.1 h
    exact .note (ih hl) he

/-- A type name that is missing is that of collections, and a database has been asked for one. -/
theorem eq_of_append (h : CollectionMisses r log) {later earlier : List Event} {name : String}
    (he : log = later ++ .missingType name :: earlier) :
    name = ShellType.collectionName ∧ r.find? ShellType.collectionName = none ∧
      ∃ attr found rest, later = rest ++ [.member ShellType.databaseName attr found] := by
  induction h generalizing later with
  | nil => simp at he
  | note _ hn ih =>
    cases later with
    | nil =>
      cases he
      cases hn
    | cons e later =>
      obtain ⟨hm, hr, attr, found, rest, rfl⟩ := ih (List.cons.inj he).2
      exact ⟨hm, hr, attr, found, e :: rest, rfl⟩
  | member _ missing attr found ih =>
    match later with
    | [] => cases he
    | [_] =>
      cases he
      exact ⟨rfl, missing, attr, found, [], rfl⟩
    | e :: e' :: later =>
      obtain ⟨hm, hr, attr, found, rest, rfl⟩ := ih (List.cons.inj (List.cons.inj he).2).2
      exact ⟨hm, hr, attr, found, e :: e' :: rest, rfl⟩

end CollectionMisses

namespace Session

variable {t : SymbolTable} {s : Session} {ws : List String}

/-- A call of a writer keeps a closed table closed, and only collections can be missing. -/
theorem SharedBy.call_closed [CharNames] (h : SharedBy t ws s) (hc : (s.tables.table 0).Closed)
    (c : String × WriterCall) :
    ((s.call c).session.tables.table 0).Closed ∧
      ((s.call c).session.tables.table 0).registry = (s.tables.table 0).registry ∧
      CollectionMisses (s.tables.table 0).registry (s.call c).log.reverse := by
  have hb : ∀ {es : List Event}, (∀ e ∈ es, ∃ k, e = .compiling k) →
      CollectionMisses (s.tables.table 0).registry es.reverse := by
    refine fun hes => .of_forall fun e he => ?_
    obtain ⟨k, rfl⟩ := hes e (List.mem_reverse.1 he)
    rfl
  rcases h.call_cases c with ⟨-, hu⟩ | ⟨-, tree, hr⟩
  · rw [hu.tables, h.table_put]
    exact ⟨hc, rfl, hb hu.log⟩
  · obtain ⟨hclosed, hreg, hlog⟩ := (s.writer c.1).scope.rewrite_closed hc tree
    obtain ⟨before, hbefore, he⟩ := hr.log
    rw [hr.tables, h.table_put, he, List.reverse_append]
    exact ⟨hclosed, hreg, hlog.append (hb hbefore)⟩

theorem closed_after [CharNames] (hc : t.Closed) (first : String)
    (calls : List (String × WriterCall)) :
    (((start t first).after calls).tables.table 0).Closed ∧
      (((start t first).after calls).tables.table 0).registry = t.registry := by
  induction calls using List.reverseRecOn with
  | nil => exact ⟨hc, rfl⟩
  | append_singleton calls c ih =>
    rw [after_snoc]
    obtain ⟨hclosed, hreg, -⟩ := (sharedBy_after t first calls).call_closed ih.1 c
    exact ⟨hclosed, hreg.trans ih.2⟩

/-- **Nothing but collections is missing.** Over the table of a catalog, after any calls of writers,
whatever can be reached from the table stands for something: attributes are types, and names are
those of registered types. So what a name is bound to is found, and what a function returns; an
attribute is not found only if a database does not list it and there is no type of collections. And
whatever a further call leads to, that is the only type name that it reports as missing. -/
theorem loadCatalog_stays_closed [CharNames] {j : Json} (hj : loadCatalog j = .ok t)
    (first : String)
    (calls : List (String × WriterCall)) :
    let s := (start t first).after calls
    ∀ w, let u := s.tableOf w
      (∀ ref, u.Holds ref → ref.Stands u.registry) ∧
      (∀ name, u.registry.missing? (u.lookup name) = none) ∧
      (∀ v ref, u.Holds (.type v) → Typing.returnRef? v = some ref →
        u.registry.missing? ref = none) ∧
      (∀ v attr ref name, u.Holds (.type v) → Typing.attributeRef v attr = some ref →
        u.registry.missing? ref = some name →
          name = ShellType.collectionName ∧ v.isDatabase ∧ v.attribute? attr = none) ∧
      ∀ call before name after,
        (s.call (w, call)).log = before ++ .missingType name :: after →
          name = ShellType.collectionName ∧ u.registry.find? ShellType.collectionName = none ∧
            ∃ attr found rest, after = .member ShellType.databaseName attr found :: rest := by
  intro s w u
  have hs := sharedBy_after t first calls
  obtain ⟨hc, -⟩ := closed_after (loadCatalog_closed hj) first calls
  rw [← hs.tableOf w] at hc
  refine ⟨fun ref h => (hc.holds h).stands, fun name => (hc.lookup name).missing?,
    fun v ref hv hr => (Typing.returnRef?_closed (hc.holds hv) hr).missing?,
    fun v attr ref name hv ha hm => ?_, fun call before name after he => ?_⟩
  · rcases Typing.attributeRef_closed (hc.holds hv) ha with hr | ⟨rfl, hf, hd, hn⟩
    · rw [hr.missing?] at hm
      cases hm
    · refine ⟨?_, hd, hn⟩
      simp only [Registry.missing?] at hm
      split at hm
      · exact (Option.some.inj hm).symm
      · cases hm
  · have hl := (hs.call_closed (hs.tableOf w ▸ hc) (w, call)).2.2
    rw [← hs.tableOf w, he, List.reverse_append, List.reverse_cons, List.append_assoc] at hl
    obtain ⟨hname, hf, attr, found, rest, hrest⟩ := hl.eq_of_append rfl
    exact ⟨hname, hf, attr, found, rest.reverse, by simpa using congrArg List.reverse hrest⟩

/-- Over a catalog with a database and no collections, the script `db.x` asks for a collection. -/
theorem loadCatalog_stays_closed_of_database :
    let j : Json := .object
      [("types", .object [("Database", .object [("type", .string "Database")])]),
        ("scope", .object [("db", .string "Database")])]
    let t : SymbolTable :=
      .ofScope (.ofTypes [("Database", .object none "Database" false (some []))])
        [("db", .named "Database")]
    let id (name : String) : Node := .untyped .start (.identifier name)
    let access : Node := .untyped .start (.member (id "db") (id "x") false)
    let tree : Node := .untyped .start (.program [.untyped .start (.expression access)])
    let r := (start t "w").call ("w", .rewrite tree)
    loadCatalog j = .ok t ∧ (∀ ref, t.Holds ref → ref.Stands t.registry) ∧
      ∃ before attr found rest, r.log = before ++ .missingType "Collection" ::
        .member "Database" attr found :: rest := by
  intro j t id access tree r
  have hj : loadCatalog j = .ok t := rfl
  have h := loadCatalog_stays_closed hj "w" [] "w"
  have hl : r.log = [.identifier "db" "Database", .identifier "x" "unknown"] ++
      .missingType "Collection" :: [.member "Database" "x" "unknown", .other .expression] := by
    rfl
  obtain ⟨attr, found, rest, he⟩ := (h.2.2.2.2 _ _ _ _ hl).2.2
  exact ⟨hj, h.1, _, attr, found, rest, he ▸ hl⟩

end Session

end AutoAwait
