import AutoAwait.Proofs.Typing.Kept

/-!
# The types of a rewritten program

Types are given once, when a node is left, while its parts are being replaced. In the finished tree
they agree with each other all the same: the type of every node follows from those of the parts that
it ends up with.

* `Follows` is the rule for each kind of node;
* `Typing.leaveNode_follows` says that leaving a node keeps to the rule, `Node.Annotated` that a whole
  tree does;
* `ProgramScope.rewrite_annotates` is the main statement.
-/

namespace AutoAwait

/-- Have the nodes of this kind a rule of their own for their types? -/
def NodeKind.hasRule : NodeKind → Bool
  | .identifier | .function | .arrow | .functionDecl | .await | .call | .construct | .member
  | .assignment | .return => true
  | _ => false

/-- The type of a node follows from its shape and the types of its parts, where `r` is the registry.
That of an identifier depends on the place in the program, and so does what a function returns. -/
inductive Follows (r : Registry) : Shape Node → ShellType → Prop
  | identifier {name t} : Follows r (.identifier name) t
  | function {shape t} (h : shape.kind.isFunction) :
      Follows r shape (.function none (.type t) false)
  | await {argument t} (h : argument.type = some t) : Follows r (.await argument) t
  | call {callee args e returns promise} (h : callee.type = some (.function e returns promise)) :
      Follows r (.call callee args) (r.resolve returns)
  | callOfOther {callee args t} (h : callee.type = some t) (other : ¬t.isFunction) :
      Follows r (.call callee args) r.unknown
  | construct {callee args e returns promise}
      (h : callee.type = some (.function e returns promise)) :
      Follows r (.construct callee args) (r.resolve returns)
  | constructOfOther {callee args t} (h : callee.type = some t) (other : ¬t.isFunction) :
      Follows r (.construct callee args) r.unknown
  | listed {object property computed attr t ref}
      (asked : Typing.attributeName? property computed = some attr) (h : object.type = some t)
      (found : t.attribute? attr = some ref) :
      Follows r (.member object property computed) (r.resolve ref)
  | collection {object property computed attr t}
      (asked : Typing.attributeName? property computed = some attr) (h : object.type = some t)
      (missing : t.attribute? attr = none) (database : t.isDatabase) :
      Follows r (.member object property computed)
        ((r.find? ShellType.collectionName).getD r.unknown)
  | unlisted {object property computed attr t}
      (asked : Typing.attributeName? property computed = some attr) (h : object.type = some t)
      (missing : t.attribute? attr = none) (other : ¬t.isDatabase) :
      Follows r (.member object property computed) r.unknown
  /-- Only a run could tell which attribute is asked for; it leads to nothing asynchronous. -/
  | dynamic {object property computed t}
      (asked : Typing.attributeName? property computed = none) (h : object.type = some t)
      (safe : ¬t.hasAsyncChild) : Follows r (.member object property computed) r.unknown
  | assignment {operator left right t} (h : right.type = some t) :
      Follows r (.assignment operator left right) t
  | return {argument t} (h : argument.type = some t) : Follows r (.return (some argument)) t
  | returnNothing : Follows r (.return none) r.unknown
  | other {shape} (h : ¬shape.kind.hasRule) : Follows r shape r.unknown

/-- What is accessed by a name that only a run could tell leads to nothing asynchronous. -/
theorem Follows.safe {r : Registry} {object property : Node} {t : ShellType}
    (h : Follows r (.member object property true) t) (hp : property.kind ≠ .literal) :
    ∃ u, object.type = some u ∧ ¬u.hasAsyncChild := by
  have hname : Typing.attributeName? property true = none := by
    obtain ⟨loc, type, shape⟩ := property
    cases shape <;> first | rfl | exact absurd rfl hp
  cases h with
  | dynamic _ ht safe => exact ⟨_, ht, safe⟩
  | listed asked | collection asked | unlisted asked =>
    rw [hname] at asked
    cases asked
  | function h => cases h
  | other h => exact absurd rfl h

/-- A tree in which every node has a type that follows from those of its parts. -/
def Node.Annotated (r : Registry) (n : Node) : Prop :=
  ∀ m ∈ n.nodes, ∃ t, m.type = some t ∧ Follows r m.shape t

theorem Node.annotated_iff {r : Registry} {n : Node} :
    n.Annotated r ↔ (∃ t, n.type = some t ∧ Follows r n.shape t) ∧
      ∀ k ∈ n.shape.parts, k.Annotated r := by
  unfold Node.Annotated
  rw [Node.nodes_eq, List.forall_mem_cons]
  simp only [List.mem_flatMap, forall_exists_index, and_imp]
  exact and_congr_right fun _ => ⟨fun h k hk m hm => h m k hk hm, fun h m k hk hm => h k hk m hm⟩

namespace Typing

variable {again : Place → Node → StateM Typing Node}
variable {p : Typing} {n k : Node} {place : Place} {t : ShellType}

theorem typeOf_some (h : k.type = some t) : p.typeOf (some k) = t := by
  simp only [typeOf, Option.bind_some, h, Option.getD_some]

theorem calleeReturns_of_function {e : Option Entry} {returns : TypeRef} {promise : Bool}
    (h : k.type = some (.function e returns promise)) :
    p.calleeReturns k = p.table.registry.resolve returns := by
  rw [calleeReturns, typeOf_some h]
  rfl

theorem calleeReturns_of_other (h : k.type = some t) (ht : ¬t.isFunction) :
    p.calleeReturns k = p.table.registry.unknown := by
  rw [calleeReturns, typeOf_some h]
  cases t with
  | function => exact absurd rfl ht
  | unknown | object => rfl

/-- Leaving a node leads to the node with a type that follows, or fails. -/
def KeepsTo (n : Node) (r : Registry) (x : Node × Typing) : Prop :=
  x.2.failure = none → ∃ t, x.1 = typed n t ∧ Follows r n.shape t

section keepsTo
variable {r : Registry}

theorem keepsTo_typed (h : Follows r n.shape t) : KeepsTo n r (typed n t, p) :=
  fun _ => ⟨t, rfl, h⟩

theorem keepsTo_failed (h : p.failure.isSome) : KeepsTo n r (n, p) :=
  fun hn => by rw [hn] at h; cases h

theorem keepsTo_unless_failed (h : Follows r n.shape t) (e : Event) :
    KeepsTo n r (if p.failure.isSome then (n, p) else (typed n t, p.note e)) := by
  split
  · exact keepsTo_failed ‹_›
  · exact keepsTo_typed h

end keepsTo

theorem leaveMember_follows {loc : Position} {type : Option ShellType} {object property : Node}
    {computed : Bool} (ht : object.type = some t) :
    KeepsTo ⟨loc, type, .member object property computed⟩ p.table.registry
      (p.leaveMember ⟨loc, type, .member object property computed⟩ object property computed) := by
  unfold leaveMember
  rw [typeOf_some ht]
  dsimp only
  split
  · next asked =>
    split
    · exact keepsTo_failed rfl
    · next safe => exact keepsTo_typed (.dynamic asked ht safe)
  · next attr asked =>
    unfold attributeRef
    cases hl : t.attribute? attr with
    | some ref => exact keepsTo_typed (.listed asked ht hl)
    | none =>
      dsimp only
      by_cases hd : t.isDatabase
      · rw [if_pos hd]
        exact keepsTo_typed (.collection asked ht hl hd)
      · rw [if_neg hd]
        exact keepsTo_typed (.unlisted asked ht hl hd)

theorem leaveFunction_follows {id : Option Node} {body : Node} {r : Registry}
    (h : n.shape.kind.isFunction) : KeepsTo n r (p.leaveFunction n id body) := by
  unfold leaveFunction
  dsimp only
  split
  · exact keepsTo_failed rfl
  · exact keepsTo_unless_failed (.function h) _

/-- Under an await leaving a node gives it the type that follows from those of its parts. -/
theorem leaveNode_follows (hk : ∀ k ∈ n.shape.parts, ∃ t, k.type = some t) :
    KeepsTo n p.table.registry (p.leaveNode awaitPlace n) := by
  obtain ⟨loc, type, shape⟩ := n
  dsimp only at hk
  cases shape with
  | identifier name => exact keepsTo_typed .identifier
  | member object property computed =>
    obtain ⟨t, ht⟩ := hk object (by simp [Shape.parts, Shape.kids, Shape.one])
    exact leaveMember_follows ht
  | call callee args =>
    obtain ⟨t, ht⟩ := hk callee (by simp [Shape.parts, Shape.kids, Shape.one])
    simp only [leaveNode, leaveCall, awaitPlace, Place.parent?, ne_eq, not_true, and_false, if_false]
    cases t with
    | function => exact calleeReturns_of_function ht ▸ keepsTo_typed (.call ht)
    | _ =>
      exact calleeReturns_of_other ht Bool.false_ne_true ▸
        keepsTo_typed (.callOfOther ht Bool.false_ne_true)
  | construct callee args =>
    obtain ⟨t, ht⟩ := hk callee (by simp [Shape.parts, Shape.kids, Shape.one])
    simp only [leaveNode]
    cases t with
    | function => exact calleeReturns_of_function ht ▸ keepsTo_typed (.construct ht)
    | _ =>
      exact calleeReturns_of_other ht Bool.false_ne_true ▸
        keepsTo_typed (.constructOfOther ht Bool.false_ne_true)
  | await argument =>
    obtain ⟨t, ht⟩ := hk argument (by simp [Shape.parts, Shape.kids, Shape.one])
    simp only [leaveNode, typeOf_some ht]
    exact keepsTo_typed (.await ht)
  | declarator id init =>
    simp only [leaveNode, leaveDeclarator]
    split <;> exact keepsTo_typed (.other Bool.false_ne_true)
  | assignment op left right =>
    obtain ⟨t, ht⟩ := hk right (by simp [Shape.parts, Shape.kids, Shape.one])
    simp only [leaveNode, leaveAssignment, typeOf_some ht]
    exact keepsTo_unless_failed (.assignment ht) _
  | function id params body | functionDecl id params body | arrow params body =>
    exact leaveFunction_follows rfl
  | «return» argument =>
    cases argument with
    | none => exact keepsTo_typed .returnNothing
    | some argument =>
      obtain ⟨t, ht⟩ := hk argument (by simp [Shape.parts, Shape.kids, Shape.opt])
      simp only [leaveNode, leaveReturn, typeOf_some ht]
      exact keepsTo_typed (.return ht)
  | block _ | «for» _ _ _ _ | forOf _ _ _ | «while» _ _ | catchClause _ _ =>
    refine keepsTo_typed ?_
    rw [SymbolTable.unknown, closeScope_registry]
    exact .other Bool.false_ne_true
  | _ => exact keepsTo_typed (.other Bool.false_ne_true)

/-- Leaving a node whose parts are annotated leads to an annotated tree. -/
theorem leaveNode_annotated (hk : ∀ k ∈ n.shape.parts, k.Annotated p.table.registry)
    (h : (p.leaveNode place n).2.failure = none) :
    (p.leaveNode place n).1.Annotated p.table.registry := by
  have ht : ∀ k ∈ n.shape.parts, ∃ t, k.type = some t := fun k hm =>
    (Node.annotated_iff.1 (hk k hm)).1.imp fun _ ht => ht.1
  have hs : ∀ k ∈ n.shape.parts, k.type.isSome := fun k hm =>
    Option.isSome_iff_exists.2 (ht k hm)
  rw [leaveNode_place hs] at h ⊢
  obtain ⟨t, hn, hf⟩ := leaveNode_follows ht h
  have ha : (typed n t).Annotated p.table.registry := Node.annotated_iff.2 ⟨⟨t, rfl, hf⟩, hk⟩
  rw [hn, wrap]
  split
  · refine Node.annotated_iff.2 ⟨⟨t, rfl, .await rfl⟩, ?_⟩
    simpa [awaited, Shape.parts, Shape.kids, Shape.one] using ha
  · exact ha

/-- A walk that succeeds annotates a tree. -/
theorem carried_annotated :
    Carried (fun p q => q.table.registry = p.table.registry)
      (fun p n => n.Annotated p.table.registry) where
  refl := carried_registry.refl
  trans := carried_registry.trans
  before h ht := h ▸ ht
  failed := carried_registry.failed
  left {place n m p q} hp hr hq hk ht := by
    have he := (enter_table n hp "").1
    refine ⟨(carried_registry.left hp hr hq hk fun _ _ => trivial).1, fun h => ?_⟩
    rw [← he, ← hr] at *
    exact leaveNode_annotated ht h

/-- The program itself is of unknown type. -/
theorem run_fst {program : Node} {table : SymbolTable}
    (h : (run program table).2.failure = none) :
    ∃ shape, shape.kind = program.kind ∧ (run program table).1 =
      typed { program with shape := shape } (run program table).2.table.unknown := by
  refine ⟨(walkParts (Node.visit visitor 0) program (start table)).1,
    (Shape.rel_traverse _ program.shape _).kind.symm, ?_⟩
  rw [run_eq] at h ⊢
  simp only at h ⊢
  rw [if_neg (by simp [h])]

theorem run_annotated {program : Node} {table : SymbolTable} (hk : program.kind = .program)
    (h : (run program table).2.failure = none) :
    (run program table).1.Annotated table.registry := by
  obtain ⟨hr, hparts⟩ := carried_annotated.run program table
  obtain ⟨shape, hs, he⟩ := run_fst h
  refine Node.annotated_iff.2 ⟨⟨(run program table).2.table.unknown, by rw [he]; rfl, ?_⟩, hparts h⟩
  rw [SymbolTable.unknown, hr, he]
  exact .other (by rw [typed, hs, hk]; decide)

end Typing

namespace ProgramScope

theorem rewrite_annotated {s : ProgramScope} {t : SymbolTable} {tree : Node}
    (hk : tree.kind = .program) (h : (s.rewrite t tree).failure = none) :
    (s.rewrite t tree).tree.Annotated t.registry := by
  obtain ⟨hr, htree, -⟩ := rewrite_ok h
  rw [htree, ← enter_registry s t]
  exact Typing.run_annotated hk hr

/-- **The types of a rewritten program.** In a program that has been rewritten every node has a
type, which follows from those of its parts; and where something is accessed by a name that only a
run could tell, it is of a type that leads to nothing asynchronous. -/
theorem rewrite_annotates (s : ProgramScope) (t : SymbolTable) {tree : Node}
    (hk : tree.kind = .program) (h : (s.rewrite t tree).failure = none) :
    ∀ n ∈ (s.rewrite t tree).tree.nodes,
      (∃ u, n.type = some u ∧ Follows t.registry n.shape u) ∧
      ∀ object property, n.shape = .member object property true → property.kind ≠ .literal →
        ∃ u, object.type = some u ∧ ¬u.hasAsyncChild := by
  intro n hn
  obtain ⟨u, hu, hf⟩ := rewrite_annotated hk h n hn
  exact ⟨⟨u, hu, hf⟩, fun object property hs hp => (hs ▸ hf).safe hp⟩

/-- The script `users = db.users` in which `db` is a database that lists no attributes. -/
theorem rewrite_annotates_of_database :
    let t : SymbolTable :=
      .ofScope (.ofTypes []) [("db", .type (.object none ShellType.databaseName true (some [])))]
    let access : Node :=
      ⟨.start, none, .member ⟨.start, none, .identifier "db"⟩ ⟨.start, none, .identifier "users"⟩
        false⟩
    let assignment : Node :=
      ⟨.start, none, .assignment "=" ⟨.start, none, .identifier "users"⟩ access⟩
    let tree : Node := ⟨.start, none, .program [⟨.start, none, .expression assignment⟩]⟩
    let r := unopened.rewrite t tree
    tree.kind = .program ∧ r.failure = none ∧ r.tree.nodes.length = 7 ∧
      ∀ n ∈ r.tree.nodes, ∃ u, n.type = some u ∧ Follows t.registry n.shape u :=
  ⟨rfl, rfl, rfl, fun n hn => (rewrite_annotates _ _ rfl rfl n hn).1⟩

end ProgramScope

end AutoAwait
