import AutoAwait.Proofs.Tree.Move
import AutoAwait.Proofs.Typing.Step

/-!
# The pass over a moved tree

The pass does not look at places: over a moved tree it does what it does over the tree itself, and
only the place that an error names is another one.

* `Typing.move` is a state of the pass with that place moved;
* `Typing.leaveNode_move` says it of one step, `Typing.walk_move` of a walk.
-/

namespace AutoAwait

/-- An error at another place. -/
def TypingError.move (φ : Position → Position) : TypingError → TypingError
  | .dynamicAccess t hint loc => .dynamicAccess t hint (φ loc)
  | .ambiguousReturn name types loc => .ambiguousReturn name types (φ loc)
  | .scope e => .scope e

namespace Typing

variable {φ : Position → Position} {p : Typing} {place : Place}

/-- A state of the pass over a moved tree. -/
def move (φ : Position → Position) (p : Typing) : Typing :=
  { p with failure := p.failure.map (·.move φ) }

@[simp] theorem move_table (p : Typing) : (p.move φ).table = p.table := rfl

@[simp] theorem move_returns (p : Typing) : (p.move φ).returns = p.returns := rfl

@[simp] theorem move_isSome (p : Typing) : (p.move φ).failure.isSome = p.failure.isSome := by
  simp [move]

theorem move_failure_iff (p : Typing) : (p.move φ).failure = none ↔ p.failure = none :=
  Option.map_eq_none_iff

/-- A place is named only by an error. -/
theorem move_of_failure (h : p.failure = none) : p.move φ = p := by
  obtain ⟨table, returns, log, failure⟩ := p
  cases h
  rfl

theorem move_note (p : Typing) (e : Event) : (p.move φ).note e = (p.note e).move φ := rfl

theorem move_withReturns (p : Typing) (r : List (List ShellType)) :
    { p.move φ with returns := r } = ({ p with returns := r } : Typing).move φ := rfl

theorem typeOf_move (p : Typing) (o : Option Node) :
    (p.move φ).typeOf (o.map (Node.move φ)) = p.typeOf o := by
  cases o with
  | none => rfl
  | some n => simp [typeOf]

theorem typeOf_move_some (p : Typing) (n : Node) : (p.move φ).typeOf (n.move φ) = p.typeOf n :=
  p.typeOf_move (some n)

theorem noteMissing_move (p : Typing) (ref : TypeRef) :
    (p.move φ).noteMissing ref = (p.noteMissing ref).move φ := by
  unfold noteMissing
  rw [move_table]
  split <;> rfl

theorem declare_move (p : Typing) (name : String) (t : ShellType) :
    (p.move φ).declare name t = (p.declare name t).move φ := by
  unfold declare
  rw [move_table]
  split <;> rfl

theorem update_move (p : Typing) (name : String) (t : ShellType) :
    (p.move φ).update name t = (p.update name t).move φ := by
  unfold update
  rw [move_table]
  split <;> rfl

theorem closeScope_move (p : Typing) (kind : NodeKind) :
    (p.move φ).closeScope kind = (p.closeScope kind).move φ := by
  unfold closeScope
  rw [move_table]
  split <;> rfl

theorem declareParams_move (p : Typing) (params : List Node) :
    (params.map (Node.move φ)).foldl declareParam (p.move φ) =
      (params.foldl declareParam p).move φ := by
  induction params generalizing p with
  | nil => rfl
  | cons k params ih =>
    rw [List.map_cons, List.foldl_cons, List.foldl_cons, ← ih, declareParam, declareParam,
      Node.move_name?, declare_move, move_table]

theorem enterFunction_move (p : Typing) (kind : NodeKind) (params : List Node) :
    (p.move φ).enterFunction kind (params.map (Node.move φ)) =
      (p.enterFunction kind params).move φ :=
  declareParams_move (φ := φ) (openScope { p with returns := [] :: p.returns } kind) params

/-! ## One step -/

theorem enter_move (p : Typing) (n : Node) :
    enter (n.move φ) (p.move φ) = ((enter n p).1, (enter n p).2.move φ) := by
  unfold enter
  rw [move_isSome]
  split
  · rfl
  · obtain ⟨loc, type, shape⟩ := n
    rw [Node.move_kind, Node.move_shape]
    cases shape with
    | function id params body | arrow params body | functionDecl id params body =>
      exact congrArg (Prod.mk _) (enterFunction_move ..)
    | catchClause param body =>
      refine congrArg (Prod.mk _) ?_
      cases param with
      | none => rfl
      | some k => exact declareParams_move (p.openScope _) [k]
    | _ => rfl

/-- What leaving a moved node leads to. -/
abbrev moved (φ : Position → Position) : Node × Typing → Node × Typing :=
  Prod.map (Node.move φ) (move φ)

theorem typed_move (n : Node) (t : ShellType) : typed (n.move φ) t = (typed n t).move φ := by
  rw [typed, typed, Node.move_mk, Node.move_eq]

theorem attributeName?_move (property : Node) (computed : Bool) :
    attributeName? (property.move φ) computed = attributeName? property computed := by
  unfold attributeName?
  rw [Node.move_shape]
  cases property.shape <;> rfl

theorem calleeReturns_move (p : Typing) (callee : Node) :
    (p.move φ).calleeReturns (callee.move φ) = p.calleeReturns callee := by
  unfold calleeReturns
  rw [typeOf_move_some, move_table]

theorem noteMissingReturn_move (p : Typing) (callee : Node) :
    (p.move φ).noteMissingReturn (callee.move φ) = (p.noteMissingReturn callee).move φ := by
  unfold noteMissingReturn
  rw [typeOf_move_some]
  split
  · exact noteMissing_move ..
  · rfl

theorem leaveMember_move (p : Typing) (n o k : Node) (computed : Bool) :
    (p.move φ).leaveMember (n.move φ) (o.move φ) (k.move φ) computed =
      moved φ (p.leaveMember n o k computed) := by
  unfold leaveMember
  simp only [typeOf_move_some, attributeName?_move, move_table, noteMissing_move, move_note,
    typed_move, Node.move_loc]
  split
  · split <;> rfl
  · split <;> rfl

theorem leaveCall_move (p : Typing) (n callee : Node) :
    (p.move φ).leaveCall place (n.move φ) (callee.move φ) =
      moved φ (p.leaveCall place n callee) := by
  unfold leaveCall
  simp only [typeOf_move_some, calleeReturns_move, noteMissingReturn_move, move_note, typed_move,
    Node.move_kind]
  split
  · refine Prod.ext ?_ rfl
    simp [awaited, Node.move_mk, Shape.map]
  · rfl

theorem leaveDeclarator_move (p : Typing) (n id : Node) (init : Option Node) :
    (p.move φ).leaveDeclarator (n.move φ) (id.move φ) (init.map (Node.move φ)) =
      moved φ (p.leaveDeclarator n id init) := by
  unfold leaveDeclarator
  simp only [typeOf_move, update_move, move_isSome, move_table, typed_move, Node.move_name?,
    move_note, Option.map_map, Function.comp_def]
  split <;> rfl

theorem leaveAssignment_move (p : Typing) (n left right : Node) :
    (p.move φ).leaveAssignment (n.move φ) (left.move φ) (right.move φ) =
      moved φ (p.leaveAssignment n left right) := by
  unfold leaveAssignment
  simp only [typeOf_move_some, update_move, typed_move, Node.move_name?, Node.move_kind]
  cases left.name? with
  | none =>
    simp only [move_isSome, move_note]
    split <;> rfl
  | some name =>
    simp only [move_isSome, move_note]
    split <;> rfl

theorem functionReturns_move (p : Typing) (n body : Node) (types : List ShellType) :
    (p.move φ).functionReturns (n.move φ) (body.move φ) types =
      p.functionReturns n body types := by
  unfold functionReturns
  simp only [typeOf_move_some, move_table, Node.move_kind]

theorem leaveFunction_move (p : Typing) (n : Node) (id : Option Node) (body : Node) :
    (p.move φ).leaveFunction (n.move φ) (id.map (Node.move φ)) (body.move φ) =
      moved φ (p.leaveFunction n id body) := by
  unfold leaveFunction
  simp only [closeScope_move, move_returns, Node.move_kind, Node.move_loc, move_withReturns,
    functionReturns_move, typed_move]
  split
  · cases id <;> simp [moved, move, fail, TypingError.move]
  · cases id with
    | none =>
      simp only [Option.map_none, move_isSome, move_note]
      split <;> rfl
    | some k =>
      simp only [Option.map_some, Node.move_name?, declare_move, move_isSome, move_note]
      split <;> rfl

theorem leaveReturn_move (p : Typing) (n : Node) (argument : Option Node) :
    (p.move φ).leaveReturn (n.move φ) (argument.map (Node.move φ)) =
      moved φ (p.leaveReturn n argument) := by
  unfold leaveReturn
  simp only [typeOf_move, typed_move]
  rfl

/-- Leaving a moved node leads to the moved result. -/
theorem leaveNode_move (p : Typing) (place : Place) (n : Node) :
    (p.move φ).leaveNode place (n.move φ) = moved φ (p.leaveNode place n) := by
  obtain ⟨loc, type, shape⟩ := n
  have hs := Node.move_shape φ ⟨loc, type, shape⟩
  unfold leaveNode
  rw [hs]
  cases shape with
  | identifier name =>
    simp only [Shape.map, move_table, noteMissing_move, move_note, typed_move]
    rfl
  | member o k computed => exact leaveMember_move ..
  | call callee args => exact leaveCall_move ..
  | construct callee args =>
    simp only [Shape.map, calleeReturns_move, noteMissingReturn_move, move_note, typed_move]
    rfl
  | await argument =>
    simp only [Shape.map, typeOf_move_some, move_note, typed_move]
    rfl
  | declarator id init => exact leaveDeclarator_move ..
  | assignment op left right => exact leaveAssignment_move ..
  | function id params body | functionDecl id params body | arrow params body =>
    first
      | exact leaveFunction_move _ _ _ _
      | exact leaveFunction_move _ _ (some _) _
      | exact leaveFunction_move _ _ none _
  | «return» argument => exact leaveReturn_move ..
  | _ =>
    simp only [Shape.map, Node.move_kind, closeScope_move, move_table, typed_move, move_note]
    split <;> rfl

/-! ## Walks -/

variable {again : Place → Node → StateM Typing Node}

theorem mapM_move {kind : NodeKind} {ks : List (Slot × Node)} (p : Typing)
    (ih : ∀ k ∈ ks, ∀ q : Typing, walkPart again kind k.1 (k.2.move φ) (q.move φ) =
      moved φ (walkPart again kind k.1 k.2 q)) :
    ks.mapM (fun k => walkPart again kind k.1 (k.2.move φ)) (p.move φ) =
      Prod.map (List.map (Node.move φ)) (move φ)
        (ks.mapM (fun k => walkPart again kind k.1 k.2) p) := by
  induction ks generalizing p with
  | nil => rfl
  | cons k ks ih' =>
    rw [Shape.mapM_cons_run, Shape.mapM_cons_run, ih k (by simp)]
    simp only [moved, Prod.map_fst, Prod.map_snd]
    rw [ih' _ fun l hl => ih l (List.mem_cons_of_mem _ hl)]
    rfl

theorem walkParts_move {n : Node} (p : Typing)
    (ih : ∀ slot, ∀ k ∈ n.shape.parts, ∀ q : Typing,
      walkPart again n.kind slot (k.move φ) (q.move φ) =
        moved φ (walkPart again n.kind slot k q)) :
    walkParts again (n.move φ) (p.move φ) =
      Prod.map (Shape.map (Node.move φ)) (move φ) (walkParts again n p) := by
  have hm := mapM_move p fun k (hk : k ∈ n.shape.kids) q =>
    ih k.1 k.2 (List.mem_map.2 ⟨k, hk, rfl⟩) q
  have hp := Shape.parts_traverse_run (fun slot k => walkPart again n.kind slot (k.move φ)) n.shape
    (p.move φ)
  rw [hm, ← Shape.parts_traverse_run] at hp
  have hw : walkParts again (n.move φ) =
      n.shape.traverse fun slot k => walkPart again n.kind slot (k.move φ) := by
    rw [walkParts, Node.move_shape, Node.move_kind, Shape.traverse_map]
  rw [hw]
  obtain ⟨h₁, h₂⟩ := Prod.mk.inj hp
  refine Prod.ext ?_ h₂
  have hr := (Shape.rel_traverse (fun slot k => walkPart again n.kind slot (k.move φ)) n.shape
    (p.move φ)).symm.comp ((Shape.rel_traverse (walkPart again n.kind) n.shape p).comp
      (Shape.rel_map (Node.move φ) _))
  refine hr.eq_of_parts (h₁.trans ?_)
  rw [Shape.parts_map]

/-- **A walk over a moved tree.** It ends with the moved result. -/
theorem walk_move (n : Node) (place : Place) (p : Typing) :
    (n.move φ).walk visitor again place (p.move φ) =
      moved φ (n.walk visitor again place p) := by
  induction n using Node.induction generalizing place p with
  | step n ih =>
    cases hp : p.failure with
    | some e =>
      rw [walk_failed (by simp [hp]), walk_failed (by simp [hp])]
      rfl
    | none =>
      rw [walk_run (by simp [move, hp]), walk_run hp]
      have hd : descended again (n.move φ) (p.move φ) = moved φ (descended again n p) := by
        simp only [descended, enter_move]
        rw [walkParts_move _ fun slot k hk q => ih k hk _ q]
        refine Prod.ext ?_ rfl
        simp [moved, Node.move_mk]
      rw [hd]
      simp only [moved, Prod.map_fst, Prod.map_snd, move_isSome]
      split
      · rfl
      · exact leaveNode_move ..

end Typing

end AutoAwait
