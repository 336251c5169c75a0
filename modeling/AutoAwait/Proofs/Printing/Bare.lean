import AutoAwait.Node.Printer
import AutoAwait.Proofs.Tree.Move

/-!
# What the printer sees of a tree

Neither where the nodes of a tree are nor which types they have matters to the printer: a tree is
printed like `Node.bare`, and trees that are alike without places and types are printed alike.
-/

namespace AutoAwait.Node

variable {n m : Node} {level : Nat}

@[simp] theorem bare_shape (n : Node) : n.bare.shape = n.shape.map bare := by rw [bare_eq]

@[simp] theorem bare_kind (n : Node) : n.bare.kind = n.kind := by
  rw [kind, bare_shape]
  exact (Shape.rel_map _ _).kind.symm

@[simp] theorem bare_name? (n : Node) : n.bare.name? = n.name? := by
  rw [name?, bare_shape]
  exact (Shape.rel_map _ _).name?.symm

@[simp] theorem bare_nameText (n : Node) : n.bare.nameText = n.nameText := by
  rw [nameText, nameText, bare_name?]

@[simp] theorem bare_unsupported (n : Node) : n.bare.unsupported = n.unsupported := by
  rw [unsupported, unsupported, bare_kind]

@[simp] theorem bare_precedence (n : Node) : n.bare.precedence = n.precedence := by
  rw [precedence, precedence, bare_shape]
  cases n.shape <;> rfl

@[simp] theorem bare_mixesNullish (op : String) (n : Node) :
    mixesNullish op n.bare = mixesNullish op n := by
  rw [mixesNullish, mixesNullish, logicalOperator?, logicalOperator?, bare_shape]
  cases n.shape <;> rfl

@[simp] theorem bare_isNumber (n : Node) : n.bare.isNumber = n.isNumber := by
  rw [isNumber, isNumber, bare_shape]
  cases n.shape <;> rfl

@[simp] theorem atLeast_bare (least : Nat) (n : Node) (d : Doc) :
    atLeast least n.bare d = atLeast least n d := by
  rw [atLeast, atLeast, bare_precedence]

@[simp] theorem operand_bare (n : Node) (d : Doc) : operand n.bare d = operand n d := by
  rw [operand, operand, atLeast_bare, bare_kind, bare_isNumber]

@[simp] theorem arrowBody_bare (n : Node) (d : Doc) : arrowBody n.bare d = arrowBody n d := by
  rw [arrowBody, arrowBody, atLeast_bare, bare_kind]

@[simp] theorem elseJoint_bare (level : Nat) (n : Node) :
    elseJoint level n.bare = elseJoint level n := by
  rw [elseJoint, elseJoint, bare_kind]

@[simp] theorem paramList_bare (ps : List Node) : paramList (ps.map bare) = paramList ps := by
  rw [paramList, paramList, List.map_map]
  simp [Function.comp_def]

@[simp] theorem arrowParams_bare (ps : List Node) :
    arrowParams (ps.map bare) = arrowParams ps := by
  match ps with
  | [] => rfl
  | [p] => simp [arrowParams]
  | p :: q :: ps => exact paramList_bare (p :: q :: ps)

@[simp] theorem functionDoc_bare (id : Option Node) (ps : List Node) (d : Doc) :
    functionDoc (id.map bare) (ps.map bare) d = functionDoc id ps d := by
  cases id <;> simp [functionDoc]

mutual

theorem expr_bare (level : Nat) : (n : Node) → n.bare.expr level = n.expr level
  | ⟨_, _, shape⟩ => by
    rw [bare_eq]
    cases shape with
    | array es => simp only [Shape.map, expr, items_bare level es]
    | object ps =>
      cases ps with
      | nil => rfl
      | cons p ps =>
        simp only [Shape.map, List.map_cons, expr, entry_bare level p, entries_bare level ps]
    | member o p computed =>
      cases computed <;>
        simp only [Shape.map, expr, expr_bare level o, expr_bare level p, operand_bare]
    | call c as =>
      simp only [Shape.map, expr, expr_bare level c, items_bare level as, operand_bare]
    | construct c as =>
      simp only [Shape.map, expr, expr_bare level c, items_bare level as, atLeast_bare]
    | await a | unary op a => simp only [Shape.map, expr, expr_bare level a, atLeast_bare]
    | update op a before =>
      cases before <;> simp only [Shape.map, expr, expr_bare level a, atLeast_bare]
    | assignment op l r | binary op l r | logical op l r =>
      simp only [Shape.map, expr, expr_bare level l, expr_bare level r, atLeast_bare,
        bare_mixesNullish]
    | conditional t c a =>
      simp only [Shape.map, expr, expr_bare level t, expr_bare level c, expr_bare level a,
        atLeast_bare]
    | function id ps b => simp only [Shape.map, expr, body_bare level b, functionDoc_bare]
    | arrow ps b =>
      simp only [Shape.map, expr, body_bare level b, expr_bare level b, arrowParams_bare,
        arrowBody_bare, bare_kind]
    | _ => rfl

theorem items_bare (level : Nat) : (ns : List Node) → items level (ns.map bare) = items level ns
  | [] => rfl
  | n :: ns => by
    simp only [List.map_cons, items, expr_bare level n, items_bare level ns, atLeast_bare]

theorem entry_bare (level : Nat) : (n : Node) → n.bare.entry level = n.entry level
  | ⟨_, _, shape⟩ => by
    rw [bare_eq]
    cases shape with
    | property k v shorthand =>
      cases shorthand <;>
        simp only [Shape.map, entry, expr_bare level k, expr_bare level v, atLeast_bare]
    | _ => rfl

theorem entries_bare (level : Nat) : (ns : List Node) →
    entries level (ns.map bare) = entries level ns
  | [] => rfl
  | n :: ns => by
    simp only [List.map_cons, entries, entry_bare level n, entries_bare level ns]

theorem declarator_bare (level : Nat) : (n : Node) → n.bare.declarator level = n.declarator level
  | ⟨_, _, shape⟩ => by
    rw [bare_eq]
    cases shape with
    | declarator id init =>
      cases init with
      | none => simp only [Shape.map, Option.map_none, declarator, bare_nameText]
      | some e =>
        simp only [Shape.map, Option.map_some, declarator, expr_bare level e, bare_nameText,
          atLeast_bare]
    | _ => rfl

theorem declarators_bare (level : Nat) : (ns : List Node) →
    declarators level (ns.map bare) = declarators level ns
  | [] => rfl
  | n :: ns => by
    simp only [List.map_cons, declarators, declarator_bare level n, declarators_bare level ns]

theorem declaration_bare (level : Nat) : (n : Node) →
    n.bare.declaration level = n.declaration level
  | ⟨_, _, shape⟩ => by
    rw [bare_eq]
    cases shape with
    | declaration kind ds => simp only [Shape.map, declaration, declarators_bare level ds]
    | _ => rfl

theorem body_bare (level : Nat) : (n : Node) → n.bare.body level = n.body level
  | ⟨_, _, shape⟩ => by
    rw [bare_eq]
    cases shape with
    | block b | program b => simp only [Shape.map, body, stmts_bare (level + 1) b]
    | _ => rfl

theorem optExpr_bare (level : Nat) : (o : Option Node) →
    optExpr level (o.map bare) = optExpr level o
  | none => rfl
  | some e => expr_bare level e

theorem loopInit_bare (level : Nat) : (o : Option Node) →
    loopInit level (o.map bare) = loopInit level o
  | none => rfl
  | some i => by
    simp only [Option.map_some, loopInit, declaration_bare level i, expr_bare level i, bare_kind]

theorem handler_bare (level : Nat) : (n : Node) → n.bare.handler level = n.handler level
  | ⟨_, _, shape⟩ => by
    rw [bare_eq]
    cases shape with
    | catchClause p b =>
      cases p with
      | none => simp only [Shape.map, Option.map_none, handler, body_bare level b]
      | some p => simp only [Shape.map, Option.map_some, handler, body_bare level b, bare_nameText]
    | _ => rfl

theorem optHandler_bare (level : Nat) : (o : Option Node) →
    optHandler level (o.map bare) = optHandler level o
  | none => rfl
  | some h => by simp only [Option.map_some, optHandler, handler_bare level h]

theorem optFinalizer_bare (level : Nat) : (o : Option Node) →
    optFinalizer level (o.map bare) = optFinalizer level o
  | none => rfl
  | some b => by simp only [Option.map_some, optFinalizer, body_bare level b]

/-- A statement is printed like one without places and types. -/
theorem stmt_bare (level : Nat) : (n : Node) → n.bare.stmt level = n.stmt level
  | ⟨_, _, shape⟩ => by
    rw [bare_eq]
    cases shape with
    | expression e => simp only [Shape.map, stmt, expr_bare level e]
    | declaration kind ds => simp only [Shape.map, stmt, declarators_bare level ds]
    | «return» a =>
      cases a with
      | none => rfl
      | some a => simp only [Shape.map, Option.map_some, stmt, expr_bare level a]
    | block b => simp only [Shape.map, stmt, stmts_bare (level + 1) b]
    | functionDecl id ps b =>
      have hf := functionDoc_bare (some id) ps
      simp only [Option.map_some] at hf
      simp only [Shape.map, stmt, body_bare level b, hf]
    | «if» t c a =>
      cases a with
      | none => simp only [Shape.map, Option.map_none, stmt, expr_bare level t, stmt_bare level c]
      | some a =>
        simp only [Shape.map, Option.map_some, stmt, expr_bare level t, stmt_bare level c,
          stmt_bare level a, elseJoint_bare]
    | «while» t b => simp only [Shape.map, stmt, expr_bare level t, stmt_bare level b]
    | «for» i t u b =>
      simp only [Shape.map, stmt, loopInit_bare level i, optExpr_bare level t,
        optExpr_bare level u, stmt_bare level b]
    | forOf l r b =>
      simp only [Shape.map, stmt, declaration_bare level l, expr_bare level r, stmt_bare level b]
    | throw a => simp only [Shape.map, stmt, expr_bare level a]
    | «try» b h f =>
      simp only [Shape.map, stmt, body_bare level b, optHandler_bare level h,
        optFinalizer_bare level f]
    | _ => rfl

theorem stmts_bare (level : Nat) : (ns : List Node) → stmts level (ns.map bare) = stmts level ns
  | [] => rfl
  | n :: ns => by simp only [List.map_cons, stmts, stmt_bare level n, stmts_bare level ns]

end

/-- Trees that are alike without places and types are printed alike. -/
theorem stmt_eq_of_bare (h : n.bare = m.bare) (level : Nat) : n.stmt level = m.stmt level := by
  rw [← stmt_bare, h, stmt_bare]

theorem formatScript_eq_of_bare (h : n.bare = m.bare) : formatScript n = formatScript m := by
  have hstmts : ∀ n : Node,
      stmts 0 (n.bare.statements?.getD []) = stmts 0 (n.statements?.getD []) := by
    intro n
    obtain ⟨loc, type, s⟩ := n
    rw [bare_eq]
    cases s <;> first | rfl | exact stmts_bare 0 _
  rw [formatScript, formatScript, script, script, ← hstmts n, ← hstmts m, h]

theorem bare_withoutTypes (n : Node) : n.withoutTypes.bare = n.bare := by
  induction n using induction with
  | step n ih =>
    rw [withoutTypes_eq, bare_eq, bare_eq, Shape.map_map]
    congr 1
    apply ((Shape.rel_map _ n.shape).symm.comp (Shape.rel_map _ n.shape)).eq_of_part?
    intro slot a b ha hb
    rw [Shape.part?_map, Option.map_eq_some_iff] at ha hb
    obtain ⟨k, hk, rfl⟩ := ha
    obtain ⟨l, hl, rfl⟩ := hb
    obtain rfl := Option.some.inj (hk.symm.trans hl)
    exact ih k (Shape.mem_parts_of_part? hk)

theorem formatExpression_eq_of_bare (h : n.bare = m.bare) (level least : Nat) :
    formatExpression n level least = formatExpression m level least := by
  rw [formatExpression, formatExpression, ← atLeast_bare least n, ← atLeast_bare least m, h,
    ← expr_bare, h, expr_bare]

end AutoAwait.Node
