import AutoAwait.Proofs.Typing.Fresh
import AutoAwait.Proofs.Typing.Sequence

/-!
# What functions return

The pass collects the types that the open functions return on a stack: entering a function opens a
list, each `return` statement adds its type to the innermost one, and leaving the function closes
it. So the list of a function holds the types of just those `return` statements that stand in it and
in no function inside it.

* `Node.ownReturns` are the `return` statements of a function, `Node.functions` the functions of a
  tree;
* `Returned` says which type a function returns, from the types of its `return` statements;
* `Typing.walk_reports` is the induction over a walk, for walks that succeed and for walks that find a
  function which may return different types;
* `ProgramScope.rewrite_returns` is the main statement.
-/

namespace AutoAwait

namespace Node

/-! ## Functions and their `return` statements -/

/-- The `return` statements of a tree that stand in no function inside it, in the order of the
source. -/
def returns : Node → List Node :=
  fold fun n parts =>
    if n.kind.isFunction then []
    else parts.parts.flatMap (·.2) ++ if n.kind = .return then [n] else []

/-- The `return` statements of a function: those that stand in no function inside it. -/
def ownReturns (n : Node) : List Node := n.shape.parts.flatMap returns

/-- The functions of a tree, in the order in which the source begins them. -/
def functions (n : Node) : List Node := n.nodes.filter (·.kind.isFunction)

theorem returns_eq (n : Node) :
    n.returns =
      if n.kind.isFunction then [] else n.ownReturns ++ if n.kind = .return then [n] else [] := by
  rw [returns, fold_eq, Shape.parts_map, List.flatMap_map]
  rfl

theorem functions_eq (n : Node) :
    n.functions = (if n.kind.isFunction then [n] else []) ++ n.shape.parts.flatMap functions := by
  rw [functions, nodes_eq, List.filter_cons, List.filter_flatMap]
  split <;> rfl

theorem returns_withType {n : Node} (h : ¬n.kind.isFunction) (t : Option ShellType) :
    { n with type := t }.returns =
      n.ownReturns ++ if n.kind = .return then [{ n with type := t }] else [] :=
  (returns_eq _).trans (if_neg h)

theorem functions_withType (n : Node) (t : Option ShellType) :
    { n with type := t }.functions =
      (if n.kind.isFunction then [{ n with type := t }] else []) ++
        n.shape.parts.flatMap functions :=
  functions_eq _

theorem returns_awaited {call : Node} (h : call.kind = .call) :
    (Typing.awaited call).returns = call.returns := by
  rw [returns_eq, returns_eq call, h]
  show call.returns ++ [] ++ [] = _
  rw [returns_eq, h]
  simp [NodeKind.isFunction]

theorem functions_awaited (call : Node) : (Typing.awaited call).functions = call.functions := by
  rw [functions_eq]
  simp [Typing.awaited, Shape.parts, Shape.kids, Shape.one, kind, Shape.kind, NodeKind.isFunction]

end Node

/-- The type that a function returns, from the types of its `return` statements in order. Where there
are none, an arrow function with an expression for a body returns its value. -/
inductive Returned (r : Registry) (f : Shape Node) : List ShellType → ShellType → Prop
  | value {params body t} (arrow : f = .arrow params body) (expression : body.kind ≠ .block)
      (type : body.type = some t) : Returned r f [] t
  | nothing (block : ∀ params body, f = .arrow params body → body.kind = .block) :
      Returned r f [] r.unknown
  | single {t} : Returned r f [t] t
  /-- Several `return` statements return nothing asynchronous. -/
  | several {types} (two : 2 ≤ types.length) (sync : ∀ t ∈ types, ¬t.hasAsyncChild) :
      Returned r f types r.unknown

/-- A function whose type is that of a function that returns what its `return` statements do. -/
def Node.TypedByReturns (r : Registry) (f : Node) : Prop :=
  ∃ types t, f.ownReturns.map (·.type) = types.map some ∧
    f.type = some (.function none (.type t) false) ∧ Returned r f.shape types t

/-- A function that may return different types, one of them with something asynchronous. -/
structure Node.ReturnsApart (f : Node) (name : Option String) (types : List ShellType)
    (loc : Position) : Prop where
  place : f.loc = loc
  named : f.assigned? = name
  returned : f.ownReturns.map (·.type) = types.map some
  several : 2 ≤ types.length
  async : ∃ t ∈ types, t.hasAsyncChild

namespace Typing

variable {again : Place → Node → StateM Typing Node}
variable {p q : Typing} {n m : Node} {place : Place} {r : Registry}

/-! ## The functions of a rewritten tree -/

theorem Rewrites.functions {all : Prop} {parent : Option NodeKind} (h : Rewrites all parent n m) :
    List.Forall₂ (Rewrites all (some .await)) n.functions m.functions := by
  induction h with
  | @keep parent n m loc shape parts settled ih =>
    have hparts := (shape.of_part? ih).parts
    rw [Node.functions_eq, Node.functions_eq m, show m.kind = n.kind from shape.kind.symm]
    refine List.rel_append ?_ (List.rel_flatMap hparts fun _ _ h => h)
    split
    · exact .cons (.keep loc shape parts fun _ _ => rfl) .nil
    · exact .nil
  | @await parent n call inner promise free ih =>
    rw [Node.functions_awaited]
    exact ih

theorem Rewrites.refl (parent : Option NodeKind) (n : Node) : Rewrites False parent n n := by
  induction n using Node.induction generalizing parent with
  | step n ih =>
    refine .keep rfl ?_ (fun slot k l hk hl => ?_) False.elim
    · exact n.shape.rel_refl.mono fun _ _ _ => trivial
    · obtain rfl := Option.some.inj (hk.symm.trans hl)
      exact ih k (Shape.mem_parts_of_part? hk) _

/-- What holds of every walk over a part holds, part by part, of a walk over the parts. -/
theorem walkParts_rel {R : Node → Node → Prop}
    (hk : ∀ slot, ∀ k ∈ n.shape.parts, ∀ q, R k (walkPart again n.kind slot k q).1) (p : Typing) :
    n.shape.Rel R (walkParts again n p).1 := by
  apply (Shape.rel_traverse _ _ _).of_parts
  rw [walkParts_parts, Shape.parts]
  replace hk : ∀ k ∈ n.shape.kids, ∀ q, R k.2 (walkPart again n.kind k.1 k.2 q).1 :=
    fun k hm => hk k.1 k.2 (List.mem_map.2 ⟨k, hm, rfl⟩)
  generalize n.shape.kids = ks at hk ⊢
  induction ks generalizing p with
  | nil => exact .nil
  | cons k ks ih =>
    rw [Shape.mapM_cons_run]
    exact .cons (hk k List.mem_cons_self p) (ih _ fun l hl => hk l (List.mem_cons_of_mem _ hl))

/-- Also a walk that fails rewrites a tree, though not all of it. -/
theorem walk_rewrites_some (n : Node) (place : Place) (p : Typing) :
    Rewrites False place.parent? n (n.walk visitor again place p).1 := by
  induction n using Node.induction generalizing place p with
  | step n ih =>
    cases hp : p.failure with
    | some e =>
      rw [walk_failed (by rw [hp]; rfl)]
      exact .refl _ n
    | none =>
      have hd : ∀ parent t, Rewrites False parent n { (descended again n p).1 with type := t } :=
        fun parent t => .keep_of_rel rfl
          (walkParts_rel (fun slot k hk q => ih k hk (.part n.kind slot) q) _) False.elim
      rw [walk_run hp]
      split
      · exact hd _ n.type
      · next hf =>
        have hf := Option.not_isSome_iff_eq_none.1 hf
        have htyped := parts_typed (m := (descended again n p).1)
          (walkParts_ok hf fun slot k hm q hq => walk_typed k hq)
        obtain ⟨t, ht, -⟩ := leaveNode_annotates (descended again n p).2 (descended again n p).1
        rw [leaveNode_place htyped, ht, wrap]
        split
        · next hw => exact .await (hd _ t) hw.1 hw.2
        · exact hd _ t

/-! ## Collecting types -/

/-- The lists of the open functions, with types added to the innermost one. -/
def collect (returns : List (List ShellType)) (types : List ShellType) : List (List ShellType) :=
  match returns with
  | [] => []
  | own :: outer => (own ++ types) :: outer

@[simp] theorem collect_nil (returns : List (List ShellType)) : collect returns [] = returns := by
  cases returns <;> simp [collect]

theorem collect_append (returns : List (List ShellType)) (ts us : List ShellType) :
    collect (collect returns ts) us = collect returns (ts ++ us) := by
  cases returns <;> simp [collect]

/-- A walk from the state `p` to the state `q` has collected the types of some `return` statements. -/
def Collected (p : Typing) (ns : List Node) (q : Typing) : Prop :=
  ∃ types, ns.map (·.type) = types.map some ∧ q.returns = collect p.returns types

theorem Collected.nil (h : q.returns = p.returns) : Collected p [] q :=
  ⟨[], rfl, by rw [collect_nil, h]⟩

theorem Collected.append {r : Typing} {ns ms : List Node} (h : Collected p ns q)
    (h' : Collected q ms r) : Collected p (ns ++ ms) r := by
  obtain ⟨ts, hts, hq⟩ := h
  obtain ⟨us, hus, hr⟩ := h'
  refine ⟨ts ++ us, by rw [List.map_append, List.map_append, hts, hus], ?_⟩
  rw [hr, hq, collect_append]

/-- Entering a node that opens no frame leaves the state of the pass alone. -/
theorem enter_of_frameless (hk : framesOf n.kind ≠ 1) (p : Typing) : (enter n p).2 = p := by
  obtain ⟨loc, type, shape⟩ := n
  unfold enter
  split
  · rfl
  · cases shape <;> first | rfl | exact absurd rfl hk

theorem enter_failure (h : p.failure = none) (n : Node) : (enter n p).2.failure = none := by
  by_cases hk : framesOf n.kind = 1
  · exact (enter_scope hk h).1
  · rw [enter_of_frameless hk, h]

/-! ## Leaving a node -/

/-- Has the pass not failed at a function that may return different types? -/
def Unblamed (p : Typing) : Prop :=
  ∀ name types loc, p.failure ≠ some (.ambiguousReturn name types loc)

theorem unblamed_of_ok (h : p.failure = none) : Unblamed p := by
  intro name types loc
  rw [h]
  exact Option.some_ne_none _ |>.symm

theorem unblamed_scope (p : Typing) (e : ScopeError) : Unblamed (p.fail (.scope e)) := by
  intro name types loc h
  cases h

theorem Agree.unblamed (h : Agree p q) (hp : Unblamed p) : Unblamed q := by
  intro name types loc
  rw [← h.failure]
  exact hp name types loc

theorem Unblamed.declare (h : Unblamed p) (name : String) (t : ShellType) :
    Unblamed (p.declare name t) := by
  unfold Typing.declare
  split
  · exact h
  · exact unblamed_scope p _

theorem Unblamed.update (h : Unblamed p) (name : String) (t : ShellType) :
    Unblamed (p.update name t) := by
  unfold Typing.update
  split
  · exact h
  · exact unblamed_scope p _

theorem Unblamed.closeScope (h : Unblamed p) (kind : NodeKind) : Unblamed (p.closeScope kind) := by
  unfold Typing.closeScope
  split
  · exact h
  · exact unblamed_scope p _

theorem leaveNode_unblamed (place : Place) (h : p.failure = none) (hk : ¬n.kind.isFunction) :
    Unblamed (p.leaveNode place n).2 := by
  have hp := unblamed_of_ok h
  obtain ⟨loc, type, shape⟩ := n
  cases shape with
  | identifier name => exact (agree_noteMissing p _).unblamed hp
  | member o k computed =>
    simp only [leaveNode, leaveMember]
    split
    · split
      · intro name types loc hf
        cases hf
      · exact hp
    · split
      · exact (agree_noteMissing p _).unblamed hp
      · exact hp
  | call callee args =>
    simp only [leaveNode, leaveCall]
    split <;> exact (agree_noteMissingReturn p callee).unblamed hp
  | construct callee args => exact (agree_noteMissingReturn p callee).unblamed hp
  | declarator id init =>
    simp only [leaveNode, leaveDeclarator]
    split <;> exact hp.update _ _
  | assignment op left right =>
    simp only [leaveNode, leaveAssignment]
    cases left.name? with
    | none => dsimp only; split <;> exact hp
    | some name => dsimp only; split <;> exact hp.update _ _
  | function id params body | arrow params body | functionDecl id params body => exact absurd rfl hk
  | block _ | «for» _ _ _ _ | forOf _ _ _ | «while» _ _ | catchClause _ _ => exact hp.closeScope _
  | _ => exact hp

/-- The type that a function returns is found from those of its `return` statements. -/
theorem returned_functionReturns {body : Node} {types : List ShellType}
    (hu : p.table.unknown = r.unknown) (hk : n.kind = .arrow → ∃ params t,
      n.shape = .arrow params body ∧ body.type = some t)
    (ht : ¬(2 ≤ types.length ∧ types.any (·.hasAsyncChild))) :
    Returned r n.shape types (p.functionReturns n body types).1 := by
  unfold functionReturns
  split
  · split
    · next hc =>
      obtain ⟨params, t, hs, hb⟩ := hk hc.1
      rw [typeOf, Option.bind_some, hb, Option.getD_some]
      exact .value hs hc.2 hb
    · next hc =>
      rw [hu]
      refine .nothing fun params body' hs => ?_
      have hn : n.kind = .arrow := congrArg Shape.kind hs
      obtain ⟨params', t, hs', -⟩ := hk hn
      rw [hs', Shape.arrow.injEq] at hs
      by_contra hb
      exact hc ⟨hn, hs.2 ▸ hb⟩
  · exact .single
  · next h1 h2 =>
    have htwo : 2 ≤ types.length := by
      cases types with
      | nil => exact absurd rfl h1
      | cons t types =>
        cases types with
        | nil => exact absurd rfl (h2 t)
        | cons u types => simp
    rw [hu]
    refine .several htwo fun t hm ha => ht ⟨htwo, List.any_eq_true.2 ⟨t, hm, ha⟩⟩

/-- Once a function has a type, only the declaration of its name can fail, for want of a frame. -/
theorem returned_unless_failed {types : List ShellType} {t : ShellType} (hq : Unblamed q)
    (ht : Returned r n.shape types t) (e : Event) :
    let x := if q.failure.isSome then (n, q)
      else (typed n (.function none (.type t) false), q.note e)
    (x.2.failure = none → ∃ t, x.1 = typed n (.function none (.type t) false) ∧
      Returned r n.shape types t) ∧ Unblamed x.2 := by
  intro x
  by_cases hf : q.failure.isSome
  · have hx : x = (n, q) := if_pos hf
    rw [hx]
    refine ⟨fun hn => ?_, hq⟩
    rw [hn] at hf
    cases hf
  · have hx : x = (typed n (.function none (.type t) false), q.note e) := if_neg hf
    rw [hx]
    exact ⟨fun _ => ⟨t, rfl, ht⟩, hq⟩

/-- Leaving a function whose `return` statements have the collected types. -/
theorem leaveFunction_reports (id : Option Node) {body : Node} {types : List ShellType}
    (hp : p.failure = none) (hr : p.table.registry = r) (htypes : p.returns.headD [] = types)
    (hk : n.kind = .arrow → ∃ params t, n.shape = .arrow params body ∧ body.type = some t) :
    ((p.leaveFunction n id body).2.failure = none → ∃ t,
      (p.leaveFunction n id body).1 = typed n (.function none (.type t) false) ∧
        Returned r n.shape types t) ∧
    ∀ name ts loc, (p.leaveFunction n id body).2.failure = some (.ambiguousReturn name ts loc) →
      (p.leaveFunction n id body).1 = n ∧ name = id.map (·.name?.getD "") ∧ loc = n.loc ∧
        ts = types ∧ 2 ≤ types.length ∧ ∃ t ∈ types, t.hasAsyncChild := by
  have hc : (p.closeScope n.kind).returns.headD [] = types := by rw [closeScope_returns, htypes]
  have hu : (p.closeScope n.kind).table.unknown = r.unknown := by
    rw [SymbolTable.unknown, closeScope_registry, hr]
  have hblame : Unblamed (p.closeScope n.kind) := (unblamed_of_ok hp).closeScope _
  unfold leaveFunction
  simp only [hc]
  split
  · next ha =>
    constructor
    · intro h
      cases h
    · intro name ts loc h
      cases h
      exact ⟨rfl, rfl, rfl, rfl, ha.1, List.any_eq_true.1 ha.2⟩
  · next ha =>
    have hreturned := returned_functionReturns (p := { p.closeScope n.kind with
      returns := (p.closeScope n.kind).returns.tail }) hu hk ha
    have hblame : Unblamed { p.closeScope n.kind with
        returns := (p.closeScope n.kind).returns.tail } := hblame
    cases id with
    | none =>
      exact ⟨(returned_unless_failed hblame hreturned _).1, fun name ts loc h =>
        absurd h ((returned_unless_failed hblame hreturned _).2 name ts loc)⟩
    | some id =>
      exact ⟨(returned_unless_failed (hblame.declare _ _) hreturned _).1, fun name ts loc h =>
        absurd h ((returned_unless_failed (hblame.declare _ _) hreturned _).2 name ts loc)⟩

theorem leaveNode_function (hk : n.kind.isFunction) : ∃ id body,
    (∀ place p, leaveNode place n p = leaveFunction n id body p) ∧
      id.map (·.name?.getD "") = n.assigned? ∧ body ∈ n.shape.parts ∧
        (n.kind = .arrow → ∃ params, n.shape = .arrow params body) := by
  obtain ⟨loc, type, shape⟩ := n
  cases shape with
  | function id params body =>
    refine ⟨id, body, fun _ _ => rfl, rfl, by simp [Shape.parts, Shape.kids, Shape.one], ?_⟩
    intro h
    cases h
  | functionDecl id params body =>
    refine ⟨some id, body, fun _ _ => rfl, rfl, by simp [Shape.parts, Shape.kids, Shape.one], ?_⟩
    intro h
    cases h
  | arrow params body =>
    exact ⟨none, body, fun _ _ => rfl, rfl, by simp [Shape.parts, Shape.kids, Shape.one],
      fun _ => ⟨params, rfl⟩⟩
  | _ => cases hk

/-! ## Walks -/

/-- What the walks over some nodes, which have become `ns`, leave: the types of their `return`
statements are collected and their functions are typed by them, or one of the functions is to
blame. -/
structure Reports (r : Registry) (p : Typing) (ns : List Node) (q : Typing) : Prop where
  collected : q.failure = none → Collected p (ns.flatMap Node.returns) q
  typed : q.failure = none → ∀ f ∈ ns.flatMap Node.functions, f.TypedByReturns r
  blamed : ∀ name types loc, q.failure = some (.ambiguousReturn name types loc) →
    ∃ f ∈ ns.flatMap Node.functions, f.ReturnsApart name types loc

namespace Reports

theorem nil (h : p.failure = none) : Reports r p [] p where
  collected _ := .nil rfl
  typed _ _ hm := absurd hm List.not_mem_nil
  blamed name types loc hf := absurd hf (unblamed_of_ok h name types loc)

theorem failed {ns : List Node} (h : Reports r p [n] q) (hf : q.failure.isSome) :
    Reports r p (n :: ns) q where
  collected hn := by
    rw [hn] at hf
    cases hf
  typed hn := by
    rw [hn] at hf
    cases hf
  blamed name types loc hb := by
    obtain ⟨f, hm, ha⟩ := h.blamed name types loc hb
    rw [List.flatMap_singleton] at hm
    exact ⟨f, List.mem_append_left _ hm, ha⟩

theorem cons {ns : List Node} {q' : Typing} (h : Reports r p [n] q) (hq : q.failure = none)
    (hs : Reports r q ns q') : Reports r p (n :: ns) q' where
  collected hf := by
    have hn := h.collected hq
    rw [List.flatMap_singleton] at hn
    exact hn.append (hs.collected hf)
  typed hf f hm := by
    rcases List.mem_append.1 hm with hm | hm
    · exact h.typed hq f (by rw [List.flatMap_singleton]; exact hm)
    · exact hs.typed hf f hm
  blamed name types loc hb := by
    obtain ⟨f, hm, ha⟩ := hs.blamed name types loc hb
    exact ⟨f, List.mem_append_right _ hm, ha⟩

end Reports

theorem mapM_reports {kind : NodeKind} {ks : List (Slot × Node)}
    (ih : ∀ k ∈ ks, ∀ p, p.failure = none → p.table.registry = r →
      Reports r p [(walkPart again kind k.1 k.2 p).1] (walkPart again kind k.1 k.2 p).2)
    (hp : p.failure = none) (hr : p.table.registry = r) :
    Reports r p (ks.mapM (fun k => walkPart again kind k.1 k.2) p).1
      (ks.mapM (fun k => walkPart again kind k.1 k.2) p).2 := by
  induction ks generalizing p with
  | nil => exact .nil hp
  | cons k ks ih' =>
    have hk := ih k List.mem_cons_self p hp hr
    rw [Shape.mapM_cons_run]
    cases hq : (walkPart again kind k.1 k.2 p).2.failure with
    | some e =>
      have hf : (walkPart again kind k.1 k.2 p).2.failure.isSome := by rw [hq]; rfl
      rw [mapM_failed ks hf]
      exact hk.failed hf
    | none =>
      have hrk : (walkPart again kind k.1 k.2 p).2.table.registry = r :=
        (carried_registry.walk k.2 (.part kind k.1) p).1.trans hr
      exact hk.cons hq (ih' (fun l hl => ih l (List.mem_cons_of_mem _ hl)) hq hrk)

/-- Leaving a function whose parts have been walked over. -/
theorem leaveNode_reports_function {p' : Typing} (hk : n.kind.isFunction) (hq : q.failure = none)
    (hr : q.table.registry = r) (henter : p'.returns = [] :: p.returns)
    (hparts : Reports r p' n.shape.parts q) (htyped : ∀ k ∈ n.shape.parts, k.type.isSome) :
    Reports r p [(q.leaveNode place n).1] (q.leaveNode place n).2 := by
  obtain ⟨types, htypes, hreturns⟩ := hparts.collected hq
  rw [henter] at hreturns
  have hhead : q.returns.headD [] = types := by rw [hreturns]; rfl
  obtain ⟨id, body, hleave, hname, hbody, harrow⟩ := leaveNode_function hk
  have htail : (q.leaveNode place n).2.returns = p.returns := by
    rw [hleave, leaveFunction_returns, hreturns]
    rfl
  obtain ⟨hok, hblame⟩ := leaveFunction_reports id hq hr hhead fun ha => by
    obtain ⟨params, hs⟩ := harrow ha
    obtain ⟨t, ht⟩ := Option.isSome_iff_exists.1 (htyped body hbody)
    exact ⟨params, t, hs, ht⟩
  rw [← hleave place] at hok hblame
  constructor
  · intro hf
    obtain ⟨t, hn, -⟩ := hok hf
    have hkt : (typed n (.function none (.type t) false)).kind.isFunction := hk
    rw [List.flatMap_singleton, Node.returns_eq, hn, if_pos hkt]
    exact .nil htail
  · intro hf f hm
    obtain ⟨t, hn, ht⟩ := hok hf
    have hkt : (typed n (.function none (.type t) false)).kind.isFunction := hk
    rw [List.flatMap_singleton, hn, Node.functions_eq, if_pos hkt] at hm
    rcases List.mem_append.1 hm with hm | hm
    · obtain rfl := List.mem_singleton.1 hm
      exact ⟨types, t, htypes, rfl, ht⟩
    · exact hparts.typed hq f hm
  · intro name ts loc hf
    obtain ⟨hn, hnm, hloc, rfl, htwo, hasync⟩ := hblame name ts loc hf
    refine ⟨n, ?_, hloc.symm, ?_, htypes, htwo, hasync⟩
    · rw [List.flatMap_singleton, hn, Node.functions_eq, if_pos hk]
      exact List.mem_cons_self
    · rw [hnm, hname]

/-- Leaving another node collects its type if it is a `return` statement. -/
theorem leaveNode_collected (place : Place) (hk : ¬n.kind.isFunction)
    (htyped : ∀ k ∈ n.shape.parts, k.type.isSome) (h : Collected p n.ownReturns q) :
    Collected p (q.leaveNode place n).1.returns (q.leaveNode place n).2 := by
  by_cases hn : n.kind = .return
  · obtain ⟨loc, type, shape⟩ := n
    cases shape <;> cases hn
    rename_i argument
    show Collected p (typed ⟨loc, type, .return argument⟩ (q.typeOf argument)).returns _
    rw [typed, Node.returns_withType hk]
    exact h.append ⟨[q.typeOf argument], rfl, rfl⟩
  · have hreturns : (q.leaveNode place n).1.returns = n.ownReturns := by
      obtain ⟨t, ht, -⟩ := leaveNode_annotates q n
      have hown := Node.returns_withType hk t
      rw [if_neg hn, List.append_nil] at hown
      rw [leaveNode_place htyped, ht, wrap]
      split
      · next hw => rw [Node.returns_awaited (Node.kind_of_returnsPromise hw.1), hown]
      · exact hown
    obtain ⟨types, htypes, hq⟩ := h
    rw [hreturns]
    exact ⟨types, htypes, (leaveNode_returns place n q hk hn).trans hq⟩

theorem leaveNode_functions (place : Place) (p : Typing) (hk : ¬n.kind.isFunction)
    (htyped : ∀ k ∈ n.shape.parts, k.type.isSome) :
    (p.leaveNode place n).1.functions = n.shape.parts.flatMap Node.functions := by
  obtain ⟨t, ht, -⟩ := leaveNode_annotates p n
  have hown := Node.functions_withType n t
  rw [if_neg hk, List.nil_append] at hown
  rw [leaveNode_place htyped, ht, wrap]
  split
  · rw [Node.functions_awaited, hown]
  · exact hown

/-- Leaving a node whose parts have been walked over. -/
theorem leaveNode_reports {p' : Typing} (hq : q.failure = none) (hr : q.table.registry = r)
    (henter : p'.returns = if n.kind.isFunction then [] :: p.returns else p.returns)
    (hparts : Reports r p' n.shape.parts q) (htyped : ∀ k ∈ n.shape.parts, k.type.isSome) :
    Reports r p [(q.leaveNode place n).1] (q.leaveNode place n).2 := by
  by_cases hk : n.kind.isFunction
  · rw [if_pos hk] at henter
    exact leaveNode_reports_function hk hq hr henter hparts htyped
  · rw [if_neg hk] at henter
    have hcollected : Collected p n.ownReturns q := by
      obtain ⟨types, htypes, hreturns⟩ := hparts.collected hq
      exact ⟨types, htypes, henter ▸ hreturns⟩
    refine ⟨fun _ => ?_, fun _ f hm => ?_, fun name types loc hb => ?_⟩
    · rw [List.flatMap_singleton]
      exact leaveNode_collected place hk htyped hcollected
    · rw [List.flatMap_singleton, leaveNode_functions place q hk htyped] at hm
      exact hparts.typed hq f hm
    · exact absurd hb (leaveNode_unblamed place hq hk name types loc)

/-- A walk reports on the functions of the tree that it makes, also if it fails on the way. -/
theorem walk_reports (n : Node) (place : Place) (hp : p.failure = none)
    (hr : p.table.registry = r) :
    Reports r p [(n.walk visitor again place p).1] (n.walk visitor again place p).2 := by
  induction n using Node.induction generalizing place p with
  | step n ih =>
    have hre : (enter n p).2.table.registry = r := (enter_table n hp "").1.trans hr
    have hparts : Reports r (enter n p).2 (walkParts again n (enter n p).2).1.parts
        (walkParts again n (enter n p).2).2 := by
      rw [walkParts_parts, walkParts_snd]
      refine mapM_reports (fun k hk q hq hrq => ?_) (enter_failure hp n) hre
      exact ih k.2 (List.mem_map.2 ⟨k, hk, rfl⟩) _ hq hrq
    rw [walk_run hp]
    split
    · next hf =>
      refine ⟨fun hn => ?_, fun hn => ?_, fun name types loc hb => ?_⟩
      · rw [hn] at hf
        cases hf
      · rw [hn] at hf
        cases hf
      · obtain ⟨f, hm, ha⟩ := hparts.blamed name types loc hb
        refine ⟨f, ?_, ha⟩
        rw [List.flatMap_singleton, Node.functions_eq]
        exact List.mem_append_right _ hm
    · next hf =>
      have hf := Option.not_isSome_iff_eq_none.1 hf
      have hshape : n.shape.Rel (fun _ k => k.type.isSome) (descended again n p).1.shape :=
        walkParts_ok hf fun slot k _ q hq => walk_typed k hq
      have hkind : (descended again n p).1.kind = n.kind := hshape.kind.symm
      have hrd : (descended again n p).2.table.registry = r :=
        (carried_registry.parts (fun k _ slot q => carried_registry.walk k (.part n.kind slot) q)
          (enter n p).2).1.trans hre
      refine leaveNode_reports hf hrd ?_ hparts (parts_typed hshape)
      rw [hkind]
      exact enter_returns hp n

/-- A run, also one that fails, ends with the program whose parts have been walked over. -/
theorem run_walked (program : Node) (table : SymbolTable) : ∃ t, (run program table).1 =
    { program with
      shape := (walkParts (Node.visit visitor 0) program (start table)).1, type := t } := by
  rw [run_eq]
  dsimp only
  split
  · exact ⟨program.type, rfl⟩
  · exact ⟨_, rfl⟩

/-- The functions of a program and those of the program that a run makes of it. -/
theorem run_functions (program : Node) (table : SymbolTable) :
    List.Forall₂ (Rewrites False (some .await)) program.functions (run program table).1.functions := by
  have h : Rewrites False none program (run program table).1 := by
    obtain ⟨t, ht⟩ := run_walked program table
    rw [ht]
    exact .keep_of_rel rfl
      (walkParts_rel (fun slot k _ q => walk_rewrites_some k (.part program.kind slot) q) _)
      False.elim
  exact h.functions

/-- What a run of the pass reports on the functions of a program. -/
theorem run_reports {program : Node} (hk : program.kind = .program) (table : SymbolTable) :
    ((run program table).2.failure = none →
      ∀ f ∈ (run program table).1.functions, f.TypedByReturns table.registry) ∧
    ∀ name types loc, (run program table).2.failure = some (.ambiguousReturn name types loc) →
      ∃ f ∈ (run program table).1.functions, f.ReturnsApart name types loc := by
  have hparts : Reports table.registry (start table)
      (walkParts (Node.visit visitor 0) program (start table)).1.parts
      (walkParts (Node.visit visitor 0) program (start table)).2 := by
    rw [walkParts_parts, walkParts_snd]
    exact mapM_reports (fun k _ q hq hr => walk_reports k.2 (.part program.kind k.1) hq hr) rfl rfl
  have hfunctions : (run program table).1.functions =
      (walkParts (Node.visit visitor 0) program (start table)).1.parts.flatMap Node.functions := by
    have hshape : (walkParts (Node.visit visitor 0) program (start table)).1.kind = .program :=
      (walkParts_rel (R := fun _ _ => True) (fun _ _ _ _ => trivial) _).kind.symm.trans hk
    obtain ⟨t, ht⟩ := run_walked program table
    rw [ht, Node.functions_eq, if_neg (by simp [Node.kind, hshape, NodeKind.isFunction]),
      List.nil_append]
  rw [hfunctions]
  exact ⟨hparts.typed, hparts.blamed⟩

end Typing

namespace ProgramScope

/-- **What functions return.** The functions of a rewritten tree are those of the tree before, but
for types and new awaits. If the rewriting succeeds, the type of each function follows from those of
its own `return` statements. If it finds a function that may return different types, the error has
the name and the place of one of the functions and the types of its own `return` statements. -/
theorem rewrite_returns (s : ProgramScope) (t : SymbolTable) {tree : Node}
    (hk : tree.kind = .program) :
    let r := s.rewrite t tree
    List.Forall₂ (fun f g => (g.unwrap (f.newAwaits g)).withoutTypes = f.withoutTypes)
      tree.functions r.tree.functions ∧
    (r.failure = none → ∀ f ∈ r.tree.functions, f.TypedByReturns r.table.registry) ∧
    ∀ name types loc, r.failure = some (.ambiguousReturn name types loc) →
      ∃ f ∈ r.tree.functions, f.ReturnsApart name types loc := by
  intro r
  obtain ⟨htree, hfailure, -⟩ := rewrite_outcome s t tree
  obtain ⟨htyped, hblamed⟩ := Typing.run_reports hk (s.enter t).2
  rw [htree, hfailure, rewrite_registry, ← enter_registry s t]
  refine ⟨(Typing.run_functions tree (s.enter t).2).imp fun f g h => h.unwrap_newAwaits, ?_, hblamed⟩
  exact htyped

/-- `function f() { return coll; return }` may return a collection or nothing. -/
theorem rewrite_returns_of_divergent :
    let find : ShellType := .function none .absent true
    let coll : ShellType := .object none "Collection" true (some [("find", .type find)])
    let t : SymbolTable := .ofScope (.ofTypes []) [("coll", .type coll)]
    let body : Node := ⟨.start, none, .block [⟨.start, none,
      .return (some ⟨.start, none, .identifier "coll"⟩)⟩, ⟨.start, none, .return none⟩]⟩
    let f : Node := ⟨.start, none, .functionDecl ⟨.start, none, .identifier "f"⟩ [] body⟩
    let tree : Node := ⟨.start, none, .program [f]⟩
    tree.kind = .program ∧ ∃ g ∈ (unopened.rewrite t tree).tree.functions,
      g.ReturnsApart (some "f") [coll, t.unknown] .start :=
  ⟨rfl, (rewrite_returns unopened _ rfl).2.2 _ _ _ rfl⟩

end ProgramScope

end AutoAwait
