import AutoAwait.Proofs.Typing.Move
import AutoAwait.Proofs.Typing.Rerun

/-!
# The pass over one program after another

The pass over the statements of two programs is the pass over the first one followed by the pass over
the second one: after a program no function is open, so that nothing but the table is handed on.

* `Typing.walkStatements` is the walk over a list of statements;
* `Typing.walk_returns` says that a walk closes the functions that it opens;
* `Typing.run_append` is the main statement.
-/

namespace AutoAwait

namespace Typing

variable {φ : Position → Position} {again : Place → Node → StateM Typing Node}
variable {p q : Typing} {n : Node} {place place' : Place}

/-! ## Places -/

/-- Of its place only the parent matters to a node. -/
theorem leaveNode_parent (h : place.parent? = place'.parent?) (n : Node) (p : Typing) :
    p.leaveNode place n = p.leaveNode place' n := by
  obtain ⟨loc, type, shape⟩ := n
  cases shape <;> first | rfl | simp only [leaveNode, leaveCall, h]

theorem walk_parent (h : place.parent? = place'.parent?) (n : Node) (p : Typing) :
    n.walk visitor again place p = n.walk visitor again place' p := by
  cases hp : p.failure with
  | some e => rw [walk_failed (by simp [hp]), walk_failed (by simp [hp])]
  | none => rw [walk_run hp, walk_run hp, leaveNode_parent h]

/-! ## Open functions -/

/-- How many functions a node opens. -/
def opens (n : Node) : Nat := if n.kind.isFunction then 1 else 0

theorem declare_returns (p : Typing) (name : String) (t : ShellType) :
    (p.declare name t).returns = p.returns := by
  unfold declare
  split <;> rfl

theorem update_returns (p : Typing) (name : String) (t : ShellType) :
    (p.update name t).returns = p.returns := by
  unfold update
  split <;> rfl

theorem closeScope_returns (p : Typing) (kind : NodeKind) :
    (p.closeScope kind).returns = p.returns := by
  unfold closeScope
  split <;> rfl

theorem noteMissing_returns (p : Typing) (ref : TypeRef) :
    (p.noteMissing ref).returns = p.returns := by
  unfold noteMissing
  split <;> rfl

theorem noteMissingReturn_returns (p : Typing) (callee : Node) :
    (p.noteMissingReturn callee).returns = p.returns := by
  unfold noteMissingReturn
  split
  · exact noteMissing_returns ..
  · rfl

theorem declareParams_returns (p : Typing) (params : List Node) :
    (params.foldl declareParam p).returns = p.returns := by
  induction params generalizing p with
  | nil => rfl
  | cons k params ih => exact (ih _).trans (declare_returns ..)

/-- Entering a function opens a list of types. -/
theorem enter_returns (h : p.failure = none) (n : Node) :
    (enter n p).2.returns = if n.kind.isFunction then [] :: p.returns else p.returns := by
  obtain ⟨loc, type, shape⟩ := n
  simp only [enter, h, Option.isSome_none, Bool.false_eq_true, if_false]
  cases shape with
  | function id params body | arrow params body | functionDecl id params body =>
    exact declareParams_returns _ _
  | catchClause param body => exact declareParams_returns _ _
  | _ => rfl

theorem enter_opens (h : p.failure = none) (n : Node) :
    (enter n p).2.returns.length = p.returns.length + opens n := by
  rw [enter_returns h, opens]
  split <;> rfl

/-- Leaving a function closes its list of types. -/
theorem leaveFunction_returns (p : Typing) (n : Node) (id : Option Node) (body : Node) :
    (p.leaveFunction n id body).2.returns = p.returns.tail := by
  have hc := closeScope_returns p n.kind
  unfold leaveFunction
  simp only [hc]
  split
  · rfl
  · cases id with
    | none =>
      simp only [Option.map_none]
      split <;> rfl
    | some k =>
      simp only [Option.map_some]
      split
      · exact declare_returns ..
      · exact declare_returns ..

/-- Leaving a node that is no function and no `return` statement leaves the lists alone. -/
theorem leaveNode_returns (place : Place) (n : Node) (p : Typing) (hk : ¬n.kind.isFunction)
    (hr : n.kind ≠ .return) : (p.leaveNode place n).2.returns = p.returns := by
  obtain ⟨loc, type, shape⟩ := n
  cases shape with
  | identifier name => exact noteMissing_returns ..
  | member o k computed =>
    simp only [leaveNode, leaveMember]
    split
    · split <;> rfl
    · split
      · exact noteMissing_returns ..
      · rfl
  | call callee args =>
    simp only [leaveNode, leaveCall]
    split <;> exact noteMissingReturn_returns ..
  | construct callee args => exact noteMissingReturn_returns ..
  | declarator id init =>
    simp only [leaveNode, leaveDeclarator]
    split <;> exact update_returns ..
  | assignment op left right =>
    simp only [leaveNode, leaveAssignment]
    cases left.name? with
    | none => dsimp only; split <;> rfl
    | some name => dsimp only; split <;> exact update_returns ..
  | function id params body | arrow params body | functionDecl id params body => exact absurd rfl hk
  | «return» argument => exact absurd rfl hr
  | block _ | «for» _ _ _ _ | forOf _ _ _ | «while» _ _ | catchClause _ _ =>
    exact closeScope_returns ..
  | _ => rfl

theorem leaveNode_opens (p : Typing) (place : Place) (n : Node) :
    (p.leaveNode place n).2.returns.length = p.returns.length - opens n := by
  by_cases hk : n.kind.isFunction
  · obtain ⟨loc, type, shape⟩ := n
    cases shape with
    | function id params body | arrow params body | functionDecl id params body =>
      exact (congrArg List.length (leaveFunction_returns ..)).trans List.length_tail
    | _ => cases hk
  rw [opens, if_neg hk, Nat.sub_zero]
  by_cases hr : n.kind = .return
  · obtain ⟨loc, type, shape⟩ := n
    cases shape <;> cases hr
    cases hp : p.returns <;> simp only [leaveNode, leaveReturn, hp] <;> rfl
  · rw [leaveNode_returns place n p hk hr]

/-- A walk that succeeds closes the functions that it opens. -/
theorem walk_returns (n : Node) (h : (n.walk visitor again place p).2.failure = none) :
    (n.walk visitor again place p).2.returns.length = p.returns.length :=
  (((Carried.measure (f := fun p => p.returns.length) (w := fun k => if k.isFunction then 1 else 0)
    (fun n _ hp => enter_opens hp n) leaveNode_opens).walk n place p).1 h).2

/-! ## Statements -/

/-- Walks over the statements of a program, one after the other. -/
def walkStatements (again : Place → Node → StateM Typing Node) (ns : List Node) :
    StateM Typing (List Node) :=
  ns.mapM (walkPart again .program ⟨"body", none⟩)

theorem walkStatements_cons (n : Node) (ns : List Node) (p : Typing) :
    walkStatements again (n :: ns) p =
      let r := walkPart again .program ⟨"body", none⟩ n p
      let rs := walkStatements again ns r.2
      (r.1 :: rs.1, rs.2) := Shape.mapM_cons_run ..

theorem walkStatements_append (ns ms : List Node) (p : Typing) :
    walkStatements again (ns ++ ms) p =
      let r := walkStatements again ns p
      let s := walkStatements again ms r.2
      (r.1 ++ s.1, s.2) := by
  rw [walkStatements, List.mapM_append]
  rfl

theorem walkStatements_failed (h : p.failure.isSome) (ns : List Node) :
    (walkStatements again ns p).2 = p := by
  induction ns with
  | nil => rfl
  | cons n ns ih => rw [walkStatements_cons, walkPart, walk_failed h, ih]

theorem failure_of_walkStatements {ns : List Node}
    (h : (walkStatements again ns p).2.failure = none) : p.failure = none := by
  by_contra hp
  rw [walkStatements_failed (Option.ne_none_iff_isSome.1 hp)] at h
  exact hp h

theorem walkStatements_returns {ns : List Node}
    (h : (walkStatements again ns p).2.failure = none) :
    (walkStatements again ns p).2.returns.length = p.returns.length := by
  induction ns generalizing p with
  | nil => rfl
  | cons n ns ih =>
    rw [walkStatements_cons] at h ⊢
    rw [ih h, walk_returns n (failure_of_walkStatements h)]

theorem walkStatements_move (ns : List Node) (p : Typing) :
    walkStatements again (ns.map (Node.move φ)) (p.move φ) =
      Prod.map (List.map (Node.move φ)) (move φ) (walkStatements again ns p) := by
  induction ns generalizing p with
  | nil => rfl
  | cons n ns ih =>
    rw [List.map_cons, walkStatements_cons, walkStatements_cons, walkPart, walk_move]
    simp only [moved, Prod.map_fst, Prod.map_snd, ih]
    rfl

/-- The walk over some statements does not depend on what was logged. -/
theorem walkStatements_agree {ns : List Node} (ha : Agree p q)
    (h : (walkStatements again ns p).2.failure = none) :
    Agree (walkStatements again ns p).2 (walkStatements again ns q).2 ∧
      (walkStatements again ns p).1 = (walkStatements again ns q).1 := by
  induction ns generalizing p q with
  | nil => exact ⟨ha, rfl⟩
  | cons n ns ih =>
    rw [walkStatements_cons] at h ⊢
    rw [walkStatements_cons]
    have hn := failure_of_walkStatements h
    obtain ⟨ha', he⟩ := walk_agree n ha hn
    obtain ⟨hs, hes⟩ := ih ha' h
    exact ⟨hs, congrArg₂ List.cons (he hn) hes⟩

theorem traverseMany_eq_walkStatements (ns : List Node) (key : String) (i : Nat) (p : Typing) :
    Shape.traverseMany (walkPart again .program) key i ns p = walkStatements again ns p := by
  induction ns generalizing i p with
  | nil => rfl
  | cons n ns ih =>
    have hw : ∀ slot, walkPart again .program slot n p = walkPart again .program ⟨"body", none⟩ n p :=
      fun slot => walk_parent (by rfl) n p
    rw [walkStatements_cons, ← hw ⟨key, some i⟩]
    simp only [Shape.traverseMany, Shape.bind_run, Shape.pure_run, ih]

/-- A program that consists of some statements. -/
abbrev programOf (ns : List Node) : Node := .untyped .start (.program ns)

theorem run_programOf (ns : List Node) (table : SymbolTable) :
    run (programOf ns) table =
      let r := walkStatements (Node.visit visitor 0) ns (start table)
      let n : Node := programOf r.1
      (if r.2.failure.isSome then n else typed n r.2.table.unknown, r.2) := by
  have h : walkParts (Node.visit visitor 0) (programOf ns) (start table) =
      (.program (walkStatements (Node.visit visitor 0) ns (start table)).1,
        (walkStatements (Node.visit visitor 0) ns (start table)).2) := by
    rw [← traverseMany_eq_walkStatements ns "body" 0]
    rfl
  rw [run_eq, h]
  rfl

theorem run_ok {ns : List Node} {table : SymbolTable}
    (h : (run (programOf ns) table).2.failure = none) :
    (run (programOf ns) table).1 =
      typed (programOf (walkStatements (Node.visit visitor 0) ns (start table)).1)
        (run (programOf ns) table).2.table.unknown := by
  rw [run_programOf] at h ⊢
  simp only at h
  simp only [h, Option.isSome_none, Bool.false_eq_true, if_false]

/-- After a program the pass is as before the next one, but for its log. -/
theorem agree_start {ns : List Node} {table : SymbolTable}
    (h : (walkStatements again ns (start table)).2.failure = none) :
    Agree (walkStatements again ns (start table)).2
      (start (walkStatements again ns (start table)).2.table) :=
  ⟨rfl, List.length_eq_zero_iff.1 (walkStatements_returns h), h⟩

/-- **One program after another.** The pass succeeds on the statements of two programs, the second
of which may stand elsewhere, if it succeeds on the first program and then, from the table that it
leaves, on the second one; and then it ends alike. -/
theorem run_append (φ : Position → Position) (ns ms : List Node) (table : SymbolTable) :
    let a := run (programOf ns) table
    let b := run (programOf ms) a.2.table
    let r := run (programOf (ns ++ ms.map (Node.move φ))) table
    (r.2.failure = none ↔ a.2.failure = none ∧ b.2.failure = none) ∧
      (r.2.failure = none → r.2.table = b.2.table ∧ ∃ ns' ms',
        a.1 = typed (programOf ns') a.2.table.unknown ∧
          b.1 = typed (programOf ms') b.2.table.unknown ∧
            r.1 = typed (programOf (ns' ++ ms'.map (Node.move φ))) b.2.table.unknown) := by
  intro a b r
  have ha : a.2 = (walkStatements _ ns (start table)).2 := congrArg Prod.snd (run_programOf ns table)
  have hr : r.2 = (walkStatements (Node.visit visitor 0) (ms.map (Node.move φ)) a.2).2 := by
    rw [ha]
    refine (congrArg Prod.snd (run_programOf _ table)).trans ?_
    simp only [walkStatements_append]
  have hb : b.2 = (walkStatements _ ms (start a.2.table)).2 := congrArg Prod.snd (run_programOf ms _)
  cases hf : a.2.failure with
  | some e =>
    rw [hr, walkStatements_failed (by simp [hf])]
    simp [hf]
  | none =>
    have hg : Agree a.2 (start a.2.table) := by
      rw [ha] at hf ⊢
      exact agree_start hf
    have hw := @walkStatements_move φ (Node.visit visitor 0) ms a.2
    rw [move_of_failure hf] at hw
    rw [hw] at hr
    have hiff : r.2.failure = none ↔ b.2.failure = none := by
      rw [hr, hb]
      refine (move_failure_iff _).trans ⟨fun h => ?_, fun h => ?_⟩
      · exact (walkStatements_agree hg h).1.failure ▸ h
      · exact (walkStatements_agree hg.symm h).1.failure ▸ h
    refine ⟨by simp [hiff], fun h => ?_⟩
    have hb' := hiff.1 h
    have hrun := run_ok h
    rw [hr] at h
    obtain ⟨hs, hes⟩ := walkStatements_agree hg ((move_failure_iff _).1 h)
    have ht : r.2.table = b.2.table := by
      rw [hr, hb]
      exact hs.table
    refine ⟨ht, _, _, run_ok hf, run_ok (hiff.1 (hr ▸ h)), ?_⟩
    rw [← ht]
    refine hrun.trans ?_
    simp only [walkStatements_append, ← ha, hw, ← hes]
    rfl

end Typing

end AutoAwait
