import AutoAwait.Proofs.Printing.Statements

/-!
# Printed scripts are read back

What is printed for a tree that can be read from a text is read as that tree again, places and types
apart, unless the tree has one of the functions that the printer does not guard against.

* `Role.ReadsBack` says what it is for a tree to be read back in a role, `Fits.readsBack` that each
  readable tree is;
* `parseScript_formatScript` is about whole scripts.
-/

namespace AutoAwait

open Node Doc

/-- Is what is printed for a tree in a role read as that tree in that role? -/
def Role.ReadsBack [CharNames] (level : Nat) (n : Node) : Role → Prop
  | .expr => n.ReadsBack level
  | .name | .attr | .key => True
  | .path => n.ReadsPath level
  | .entry => n.ReadsEntry level
  | .body => n.ReadsBody level
  | .declarator => n.ReadsDeclarator level
  | .declaration => n.ReadsDeclaration level
  | .handler => n.ReadsHandler level
  | .stmt opened => n.ReadsStmt opened level
  | .line => n.ReadsLine level

namespace Node.Readable

variable {loc : Position} {type : Option ShellType} {t c b l r : Node} {a i u e : Option Node}

theorem if_kind (h : Readable ⟨loc, type, .if t c a⟩) : c.kind ≠ .functionDecl := by
  simpa [Node.declaresUnbraced] using h.declaresUnbraced

theorem while_kind (h : Readable ⟨loc, type, .while t b⟩) : b.kind ≠ .functionDecl := by
  simpa [Node.declaresUnbraced] using h.declaresUnbraced

theorem for_kind (h : Readable ⟨loc, type, .for i e u b⟩) : b.kind ≠ .functionDecl := by
  simpa [Node.declaresUnbraced] using h.declaresUnbraced

theorem forOf_kind (h : Readable ⟨loc, type, .forOf l r b⟩) : b.kind ≠ .functionDecl := by
  simpa [Node.declaresUnbraced] using h.declaresUnbraced

end Node.Readable

/-- **Printed trees are read back.** -/
theorem Fits.readsBack [CharNames] {n : Node} {r : Role} (h : Fits r n) (hr : n.Readable)
    (level : Nat) :
    r.ReadsBack level n := by
  induction h generalizing level with
    (have hp := fun k hk => hr.part (k := k) hk; simp [Shape.parts, Shape.kids, or_imp, forall_and] at hp)
  -- Names
  | name | attr | nameKey | textKey | numberKey => trivial
  | pathName h => exact ReadsPath.name h
  | pathMember ho hp' iho => exact ReadsPath.member ho (iho hp.1 level) hp'
  -- Entries of objects
  | shorthand h => exact ReadsEntry.shorthand h
  | pair hk _ _ ihv => exact ReadsEntry.pair hk (ihv hp.2 level)
  -- Expressions
  | ref h => exact .name h
  | number h hv => exact ReadsBack.number h hv
  | text h => exact ReadsBack.text h
  | constant hk hv => exact ReadsBack.constant hk hv
  | this => exact ReadsBack.this
  | array _ ih => exact ReadsBack.array fun e he => ih e he (hp e he) level
  | object _ ih => exact ReadsBack.object fun e he => ih e he (hp e he) level
  | member _ hp' iho => exact ReadsBack.member (iho hp.1 level) hp'
  | index _ _ iho ihk => exact ReadsBack.index (iho hp.1 level) (ihk hp.2 level)
  | call _ _ ihc iha => exact ReadsBack.call (ihc hp.1 level) fun a ha => iha a ha (hp.2 a ha) level
  | construct hc _ ihc iha =>
    exact ReadsBack.construct hc (ihc hp.1 level) fun a ha => iha a ha (hp.2 a ha) level
  | await _ ih => exact ReadsBack.await (ih hp level)
  | assignment ho hk _ ht _ ihl ihr =>
    exact ReadsBack.assignment ho hk (ihl hp.1 level) ht (ihr hp.2 level)
  | binary ho hk hn _ _ ihl ihr => exact ReadsBack.binary ho hk hn (ihl hp.1 level) (ihr hp.2 level)
  | logical ho hk _ _ ihl ihr => exact ReadsBack.logical ho hk (ihl hp.1 level) (ihr hp.2 level)
  | unary ho hk hn _ ih => exact ReadsBack.unary ho hk hn (ih hp level)
  | update ho _ ih => exact ReadsBack.update ho (ih hp level)
  | conditional _ _ _ iht ihc iha =>
    exact ReadsBack.conditional (iht hp.1 level) (ihc hp.2.1 level) (iha hp.2.2 level)
  | function hi hps _ _ _ ih => exact ReadsBack.function hi hps (ih hp.2.2 level)
  | arrowBlock hps hb _ ih =>
    exact ReadsBack.arrowBlock hps (by cases hb; rfl) (ih hp.2 level)
  | arrow hps hb _ ih => exact ReadsBack.arrow hps hb (ih hp.2 level) hr.seemsBraced
  -- Parts of statements
  | declarator hi _ _ ih => exact ReadsDeclarator.declarator hi fun e he => ih e he (hp.2 e he) level
  | declaration hk hne _ ih =>
    exact ReadsDeclaration.declaration hk hne fun d hd => ih d hd (hp d hd) level
  | body _ ih => exact ReadsBody.block fun n hn => ih n hn (hp n hn) _
  | handler hps _ _ ih => exact ReadsHandler.catchClause hps (ih hp.2 level)
  -- Statements
  | line h ih => exact ⟨_, h, ih hr level⟩
  | declared h ih => exact ReadsStmt.declared h (ih hr level)
  | expression h ih => exact ReadsStmt.expression h (ih hp level)
  | «return» _ ih => exact ReadsStmt.return fun e he => ih e he (hp e he) level
  | «if» _ _ iht ihc => exact ReadsStmt.if (iht hp.1 level) (ihc hp.2 level) hr.if_kind
  | ifElse _ _ _ iht ihc iha =>
    exact ReadsStmt.ifElse (iht hp.1 level) (ihc hp.2.1 level) hr.if_kind (iha hp.2.2 level)
  | «while» _ _ iht ihb => exact ReadsStmt.while (iht hp.1 level) (ihb hp.2 level) hr.while_kind
  | forDecl hi _ hu _ ihi iht ihu ihb =>
    exact ReadsStmt.forDecl hi (ihi hp.1 level) (fun e he => iht e he (hp.2.1 e he) level)
      (fun e he => ihu e he (hp.2.2.1 e he) level) hu (ihb hp.2.2.2 level) hr.for_kind
      hr.hasBracesInHeader
  | «for» hi _ hu _ ihi iht ihu ihb =>
    exact ReadsStmt.for hi (fun e he => ihi e he (hp.1 e he) level)
      (fun e he => iht e he (hp.2.1 e he) level) (fun e he => ihu e he (hp.2.2.1 e he) level) hu
      (ihb hp.2.2.2 level) hr.for_kind hr.hasBracesInHeader
  | forOf hk hi _ _ _ ihr ihb =>
    exact ReadsStmt.forOf hk hi (ihr hp.2.1 level) (ihb hp.2.2 level) hr.forOf_kind
  | functionDecl hi hps _ _ _ ih => exact ReadsStmt.functionDecl hi hps (ih hp.2.2 level)
  | block h ih => exact ReadsStmt.block h (ih hr level)
  | «break» => exact ReadsStmt.break
  | «continue» => exact ReadsStmt.continue
  | throw _ ih => exact ReadsStmt.throw (ih hp level)
  | «try» _ _ _ ihb ihh ihf =>
    exact ReadsStmt.try (ihb hp.1 level) (fun c hc => ihh c hc (hp.2.1 c hc) level)
      fun c hc => ihf c hc (hp.2.2 c hc) level

end AutoAwait
