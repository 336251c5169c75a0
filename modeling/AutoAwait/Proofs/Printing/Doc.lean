import AutoAwait.Node.Printer

/-!
# The texts of printed pieces

`Doc.render` takes pieces after one another to texts after one another: `Doc.render_append`,
`Doc.render_separate`. No statement is printed as nothing: `Node.render_stmt_ne`. The items of a list
are printed one by one: `Node.stmts_eq`, `Node.items_eq`.
-/

namespace AutoAwait

namespace Doc

variable {p : Piece} {d e : Doc}

@[simp] theorem render_nil : Doc.render [] = "" := rfl

@[simp] theorem render_cons (p : Piece) (d : Doc) : Doc.render (p :: d) = p.text ++ Doc.render d := by
  simp [render]

@[simp] theorem render_append (d e : Doc) : Doc.render (d ++ e) = Doc.render d ++ Doc.render e := by
  simp [render]

/-- Items with the same text between any two of them. -/
theorem render_separate (sep : Doc) (ds : List Doc) :
    (separate sep ds).render = sep.render.intercalate (ds.map render) := by
  induction ds with
  | nil => rfl
  | cons d ds ih =>
    cases ds with
    | nil => simp [separate]
    | cons e ds =>
      have hs : separate sep (d :: e :: ds) = d ++ sep ++ separate sep (e :: ds) := rfl
      rw [hs, render_append, render_append, ih, List.map_cons, List.map_cons, List.map_cons,
        String.intercalate_cons_cons, String.append_assoc]

theorem render_braces_ne (level : Nat) (lines : List Doc) : (braces level lines).render ≠ "" := by
  cases lines <;> simp [braces, Piece.text]

end Doc

namespace Node

theorem render_functionDoc_ne (id : Option Node) (ps : List Node) (d : Doc) :
    (functionDoc id ps d).render ≠ "" := by
  simp [functionDoc, Piece.text]

theorem render_unsupported_ne (n : Node) : n.unsupported.render ≠ "" := by
  simp [unsupported, Piece.text]

/-- No statement is printed as nothing. -/
theorem render_stmt_ne (level : Nat) (n : Node) : (n.stmt level).render ≠ "" := by
  obtain ⟨loc, type, shape⟩ := n
  cases shape with
  | expression e => simp [stmt, asStatement, Piece.text]
  | block b => exact Doc.render_braces_ne _ _
  | functionDecl id ps b => exact render_functionDoc_ne _ _ _
  | «return» a => cases a <;> simp [stmt, Piece.text]
  | «if» t c a => cases a <;> simp [stmt, Piece.text]
  | declaration _ _ | «while» _ _ | «for» _ _ _ _ | forOf _ _ _ | «break» | «continue» | throw _
  | «try» _ _ _ => simp [stmt, Piece.text]
  | _ => exact render_unsupported_ne _

end Node

/-- The text of a script has one statement after the other, each beginning on a line of its own. -/
theorem formatScript_eq (n : Node) : formatScript n =
    "\n".intercalate ((Node.stmts 0 (n.statements?.getD [])).map Doc.render) :=
  Doc.render_separate ..

namespace Node

theorem stmts_eq (level : Nat) (ns : List Node) : stmts level ns = ns.map (·.stmt level) := by
  induction ns with
  | nil => rfl
  | cons n ns ih => rw [stmts, ih, List.map_cons]

theorem items_eq (level : Nat) (ns : List Node) :
    items level ns = ns.map fun n => atLeast assignmentPrecedence n (n.expr level) := by
  induction ns with
  | nil => rfl
  | cons n ns ih => rw [items, ih, List.map_cons]

theorem entries_eq (level : Nat) (ns : List Node) : entries level ns = ns.map (·.entry level) := by
  induction ns with
  | nil => rfl
  | cons n ns ih => rw [entries, ih, List.map_cons]

theorem declarators_eq (level : Nat) (ns : List Node) :
    declarators level ns = ns.map (·.declarator level) := by
  induction ns with
  | nil => rfl
  | cons n ns ih => rw [declarators, ih, List.map_cons]

theorem optExpr_eq (level : Nat) (o : Option Node) :
    optExpr level o = (o.map (·.expr level)).getD [] := by
  cases o <;> rfl

end Node

end AutoAwait
