import AutoAwait.Proofs.Script.Place

/-!
# Arrow functions whose body begins with a brace

The body of an arrow function is printed without parentheses unless it is itself an object. A body
whose text begins with a brace is then read as a block.

* `Phrase.telling?_of_toNode` and `kind_of_spells` say what a tree tells of the tokens that it was
  read from;
* `Node.ReadsAsBody` says of an expression that it is read from its text as the body of an arrow
  function, `Node.readsAsBody_iff` when that is so.
-/

namespace AutoAwait

/-! ## What a tree says about the phrase that it was made of -/

namespace Spells

variable {level : Nat} {ts : List Token}

theorem group_starts {loc : Position} {p : Phrase} (h : Spells (.phrase level (.group loc p)) ts) :
    ∃ t us, ts = t :: us ∧ t.kind = .lparen := by
  generalize hf : Form.phrase level (.group loc p) = f at h
  induction h generalizing level with
  | group hl =>
    cases hf
    exact ⟨_, _, rfl, hl⟩
  | lift _ _ ih =>
    cases hf
    exact ih rfl
  | _ => cases hf

theorem name_tokens {t : Token} (h : Spells (.phrase level (.name t)) ts) : ts = [t] := by
  generalize hf : Form.phrase level (.name t) = f at h
  induction h generalizing level with
  | nameRef =>
    cases hf
    rfl
  | lift _ _ ih =>
    cases hf
    exact ih rfl
  | _ => cases hf

theorem assignment_tokens {op : Token} {p v : Phrase}
    (h : Spells (.phrase level (.assignment op p v)) ts) :
    ∃ us vs, ts = us ++ op :: vs ∧ Spells (.phrase 11 p) us ∧ Spells (.phrase 1 v) vs := by
  generalize hf : Form.phrase level (.assignment op p v) = f at h
  induction h generalizing level with
  | assignment hp _ hv =>
    cases hf
    exact ⟨_, _, rfl, hp, hv⟩
  | lift _ _ ih =>
    cases hf
    exact ih rfl
  | _ => cases hf

theorem arrow_tokens {loc : Position} {ps : List Phrase} {b : ArrowBody}
    (h : Spells (.phrase level (.arrow loc ps b)) ts) :
    (∃ t us, ts = t :: us ∧ t.kind = .lparen) ∨
      ∃ t a bs, ts = t :: a :: bs ∧ Spells (.arrowBody b) bs := by
  generalize hf : Form.phrase level (.arrow loc ps b) = f at h
  induction h generalizing level with
  | arrowName _ _ hb =>
    cases hf
    exact .inr ⟨_, _, _, rfl, hb⟩
  | arrow hl =>
    cases hf
    exact .inl ⟨_, _, rfl, hl⟩
  | lift _ _ ih =>
    cases hf
    exact ih rfl
  | _ => cases hf

end Spells

/-- Does the kind of a tree tell what it was made of, parentheses apart? -/
def NodeKind.tells : NodeKind → Bool
  | .identifier | .assignment | .arrow => true
  | _ => false

namespace Phrase

variable {p : Phrase} {n : Node}

/-- The kind of the tree of a phrase that is a name, an assignment or an arrow function. -/
def telling? : Phrase → Option NodeKind
  | .name _ => some .identifier
  | .assignment .. => some .assignment
  | .arrow .. => some .arrow
  | _ => none

/-- Parentheses apart, only names, assignments and arrow functions give trees of their kinds. -/
theorem telling?_of_toNode [CharNames] (h : p.toNode = .ok n) : (∃ loc q, p = .group loc q) ∨
    p.telling? = some n.kind ∨ n.kind.tells = false := by
  cases p with
  | group loc q => exact .inl ⟨loc, q, rfl⟩
  | name =>
    cases h
    exact .inr (.inl rfl)
  | string | this =>
    cases h
    exact .inr (.inr rfl)
  | number =>
    obtain ⟨v, rfl, -⟩ := Token.toNumber_ok h
    exact .inr (.inr rfl)
  | constant t =>
    cases h
    unfold Token.toConstant
    split <;> exact .inr (.inr rfl)
  | array | object | function | construct | member | update =>
    simp only [toNode, bind_ok, pure_ok] at h
    obtain ⟨_, -, rfl⟩ := h
    exact .inr (.inr rfl)
  | index | call =>
    simp only [toNode, bind_ok, pure_ok] at h
    obtain ⟨_, -, _, -, rfl⟩ := h
    exact .inr (.inr rfl)
  | unary =>
    simp only [toNode, bind_ok, pure_ok, unaryShape] at h
    obtain ⟨_, -, rfl⟩ := h
    split <;> exact .inr (.inr rfl)
  | binary =>
    simp only [toNode, bind_ok, pure_ok, binaryShape] at h
    obtain ⟨_, -, _, -, rfl⟩ := h
    split <;> exact .inr (.inr rfl)
  | conditional =>
    simp only [toNode, bind_ok, pure_ok] at h
    obtain ⟨_, -, _, -, _, -, rfl⟩ := h
    exact .inr (.inr rfl)
  | assignment =>
    simp only [toNode, bind_ok] at h
    obtain ⟨_, -, h⟩ := h
    split at h
    · simp only [bind_ok, pure_ok] at h
      obtain ⟨_, -, rfl⟩ := h
      exact .inr (.inl rfl)
    · cases h
  | arrow =>
    simp only [toNode, bind_ok, pure_ok] at h
    obtain ⟨_, -, _, -, rfl⟩ := h
    exact .inr (.inl rfl)

end Phrase

/-! ## A brace after an arrow -/

/-- A token that begins with a symbol that nothing can go on with is this symbol. -/
theorem IsToken.eq_of_firm {k : TokenKind} {w : String} {s : String × TokenKind} {cs : List Char}
    (h : IsToken k w) (hs : s ∈ firmSymbols) (hw : w.toList = s.1.toList ++ cs) : w = s.1 := by
  have he := lexeme?_iff.2 (lexes_firm hs cs)
  rw [← hw, lexeme?_iff.2 h] at he
  exact String.toList_inj.1 (congrArg (fun l => l.1.text) (Option.some.inj he))

section

variable {ts us rest : List Token} {t : Token}

/-- What begins with a name is in no parentheses. -/
theorem Spells.telling? [CharNames] {level : Nat} {p : Phrase} {n : Node}
    (hs : Spells (.phrase level p) ts)
    (h : ts ++ rest = t :: us) (ht : t.kind = .name) (hn : p.toNode = .ok n) (hk : n.kind.tells) :
    p.telling? = some n.kind := by
  rcases Phrase.telling?_of_toNode hn with ⟨loc, q, rfl⟩ | hp | hp
  · obtain ⟨u, vs, rfl, hu⟩ := hs.group_starts
    obtain ⟨rfl, -⟩ := List.cons.inj h
    rw [ht] at hu
    cases hu
  · exact hp
  · rw [hp] at hk
    cases hk

/-- After an arrow, a brace that opens a block begins a body that is a block. -/
theorem ArrowBody.kind_of_spells [CharNames] {b : ArrowBody} {n : Node}
    (hs : Spells (.arrowBody b) ts)
    (h : ts ++ rest = t :: us) (ht : t.kind = .blockOpen) (hn : b.toNode = .ok n) :
    n.kind = .block := by
  cases hs with
  | @arrowBlock b _ hb =>
    cases b
    simp only [toNode, Block.toNode, bind_ok, pure_ok] at hn
    obtain ⟨_, -, rfl⟩ := hn
    rfl
  | arrowPhrase hp =>
    obtain ⟨_, -, hk, -⟩ := hp.head rfl h
    rw [ht] at hk
    cases hk

/-- A name is assigned a function of one name whose body begins like a block: it is a block. -/
theorem kind_of_spells [CharNames] {p : Phrase} {e value b : Node} {y op x a : Token}
    {text : String}
    {target : Node} {ps : List Node} (hs : Spells (.phrase 1 p) ts)
    (h : ts ++ rest = y :: op :: x :: a :: t :: us) (hy : y.kind = .name) (hx : x.kind = .name)
    (ht : t.kind = .blockOpen) (hn : p.toNode = .ok e)
    (he : e.shape = .assignment text target value) (htarget : target.kind = .identifier)
    (hvalue : value.shape = .arrow ps b) : b.kind = .block := by
  have htold := hs.telling? h hy hn (by rw [Node.kind, he]; rfl)
  rw [Node.kind, he] at htold
  cases p with
  | assignment op' q v =>
    obtain ⟨vs, ws, rfl, hq, hv⟩ := hs.assignment_tokens
    simp only [Phrase.toNode, bind_ok] at hn
    obtain ⟨target', htn, hn⟩ := hn
    split at hn
    swap
    · cases hn
    simp only [bind_ok, pure_ok] at hn
    obtain ⟨value', hvn, rfl⟩ := hn
    obtain ⟨-, rfl, rfl⟩ := Shape.assignment.inj he
    rw [List.append_assoc] at h
    have hqtold := hq.telling? h hy htn (by rw [htarget]; rfl)
    rw [htarget] at hqtold
    cases q with
    | name =>
      obtain rfl := hq.name_tokens
      obtain ⟨-, hop⟩ := List.cons.inj h
      obtain ⟨-, hws⟩ := List.cons.inj hop
      have hvtold := hv.telling? hws hx hvn (by rw [Node.kind, hvalue]; rfl)
      rw [Node.kind, hvalue] at hvtold
      cases v with
      | arrow loc qs body =>
        simp only [Phrase.toNode, bind_ok, pure_ok] at hvn
        obtain ⟨_, -, b', hb, rfl⟩ := hvn
        obtain ⟨-, rfl⟩ := Shape.arrow.inj hvalue
        rcases hv.arrow_tokens with ⟨l, ls, rfl, hl⟩ | ⟨x', a', bs, rfl, hbs⟩
        · obtain ⟨rfl, -⟩ := List.cons.inj hws
          cases hl.symm.trans hx
        · obtain ⟨-, ha⟩ := List.cons.inj hws
          obtain ⟨-, hbody⟩ := List.cons.inj ha
          exact ArrowBody.kind_of_spells hbs hbody ht hb
      | _ => cases hvtold
    | _ => cases hqtold
  | _ => cases htold

end

/-! ## Arrow functions in a script -/

namespace Node

variable {b : Node}

/-- The function `x => b`. -/
def arrowTo (b : Node) : Node := .untyped .start (.arrow [.untyped .start (.identifier "x")] b)

/-- The assignment `y = x => b`. -/
def arrowAssignment (b : Node) : Node :=
  .untyped .start (.assignment "=" (.untyped .start (.identifier "y")) b.arrowTo)

/-- The assignment `y = x => b` as a statement. -/
def arrowStatement (b : Node) : Node := .untyped .start (.expression b.arrowAssignment)

/-- Is the script `y = x => b` read from its text? -/
def ReadsAsBody [CharNames] (b : Node) : Prop :=
  ∃ n, parseScript (formatScript (.untyped .start (.program [b.arrowStatement]))) =
    .ok (.untyped .start (.program [n])) ∧ n.bare = b.arrowStatement.bare

/-- Trees that are alike without places and types have shapes that are alike. -/
theorem rel_of_bare {n m : Node} (h : n.bare = m.bare) :
    m.shape.Rel (fun a c => c.bare = a.bare) n.shape := by
  have hs : n.shape.map bare = m.shape.map bare := by
    simpa only [bare_shape] using congrArg Node.shape h
  have hn := (Shape.rel_map bare n.shape).symm
  rw [hs] at hn
  refine ((Shape.rel_map bare m.shape).comp hn).mono ?_
  rintro a c ⟨_, rfl, hc⟩
  exact hc.symm

theorem isToken_x : IsToken .name "x" := lexeme?_iff.1 (by decide)

theorem isToken_y : IsToken .name "y" := lexeme?_iff.1 (by decide)

theorem fits_arrowAssignment [CharNames] (h : Fits .expr b) : Fits .expr b.arrowAssignment := by
  have harrow : Fits .expr b.arrowTo :=
    .arrow (List.forall_mem_singleton.2 (.name isToken_x)) h
  exact .assignment (isToken_symbol (k := .assign) (by decide)) rfl (.ref (.name isToken_y)) rfl harrow

theorem fits_arrowStatement [CharNames] (h : Fits .expr b) : Fits .line b.arrowStatement :=
  .line (.expression (fits_arrowAssignment h))

/-! ### The text -/

/-- The text of `y = x => b` up to `b`. -/
def arrowStart : Doc :=
  [.word "y", .space, .word "=", .space, .word "x", .space, .word "=>", .space]

theorem expr_arrowAssignment [CharNames] (hf : Fits .expr b) : b.arrowAssignment.expr 0 =
    arrowStart ++ if b.kind = .object then (b.expr 0).parens else b.expr 0 := by
  have hblock : b.kind ≠ .block := hf.kind_ne rfl
  have harrow : b.arrowTo.expr 0 = .word "x" :: .space :: .word "=>" :: .space ::
      if b.kind = .object then (b.expr 0).parens else b.expr 0 := by
    simp only [arrowTo, untyped, expr, if_neg hblock, arrowBody, atLeast_of_le le_rfl]
    rfl
  have hassignment : b.arrowAssignment.expr 0 =
      .word "y" :: .space :: .word "=" :: .space :: b.arrowTo.expr 0 := by
    simp only [arrowAssignment, untyped, expr]
    rfl
  rw [hassignment, harrow]
  rfl

theorem stmt_arrowStatement [CharNames] (hf : Fits .expr b) :
    b.arrowStatement.stmt 0 = b.arrowAssignment.expr 0 ++ [.word ";"] := by
  have hstart : beginsLikeStatement (b.arrowAssignment.expr 0).render = false := by
    rw [expr_arrowAssignment hf]
    simp [arrowStart, beginsLikeStatement, Piece.text]
  rw [arrowStatement, untyped, stmt, asStatement, hstart]
  rfl

theorem firm_arrowStart : Doc.Firm arrowStart :=
  .apart isToken_y (.apart (isToken_symbol (k := .assign) (by decide))
    (.apart isToken_x (.apart (isToken_symbol (k := .arrow) (by decide)) Doc.firm_nil)))

/-- What is emitted for `y = x =>`, and where the body begins. -/
theorem emits_arrowStart : Doc.Emits arrowStart .start fun us s =>
    s.Entry ∧ s.prev = some .arrow ∧ ∃ y op x a, us = [y, op, x, a] ∧
      (y.kind = .name ∧ y.text = "y") ∧ (op.kind = .assign ∧ op.text = "=") ∧
        (x.kind = .name ∧ x.text = "x") ∧ a.kind = .arrow := by
  have hs : Layout.start.Fresh := .start
  refine .inner hs isToken_y rfl fun y hy hytext hys => .space ?_
  refine .inner hys.fresh (isToken_symbol (k := .assign) (by decide)) rfl fun op ho hotext hos =>
    .space ?_
  refine .inner hos.fresh isToken_x rfl fun x hx hxtext hxs => .space ?_
  refine .plain hxs.fresh.newline hxs.fresh.dot (isToken_symbol (k := .arrow) (by decide)) rfl
    (by simp) fun a ha _ => .space (.nil ?_)
  have hentry : (((Layout.start.past y).past op).past x).past a |>.Entry :=
    ⟨rfl, .inr (congrArg some ha), by rw [Layout.past, ha]; rfl, rfl⟩
  exact ⟨hentry, congrArg some ha, y, op, x, a, rfl, ⟨hy, hytext⟩, ⟨ho, hotext⟩, ⟨hx, hxtext⟩, ha⟩

/-! ### A body that is read as an expression -/

theorem spelledAt_arrowAssignment [CharNames] {y op x a : Token} {vs : List Token}
    (hy : y.kind = .name ∧ y.text = "y") (ho : op.kind = .assign ∧ op.text = "=")
    (hx : x.kind = .name ∧ x.text = "x") (ha : a.kind = .arrow)
    (h : SpelledAs .arrowBody ArrowBody.toNode b vs) :
    b.arrowAssignment.SpelledAt 1 (y :: op :: x :: a :: vs) := by
  have harrow : (untyped .start (.arrow [untyped .start (.identifier x.text)] b)).SpelledAt 1
      (x :: a :: vs) := SpelledParams.name hx.1 ha h
  have htarget : (untyped .start (.identifier y.text)).SpelledAt 11 [y] :=
    (SpelledAt.name hy.1).lift (by decide) (by decide)
  have hop : op.kind.assigns := by rw [ho.1]; rfl
  have hassign : (untyped .start (.assignment op.text (untyped .start (.identifier y.text)) _)).SpelledAt
      1 _ := htarget.assignment rfl hop harrow
  rw [hy.2, ho.2, hx.2] at hassign
  exact hassign

/-- After the arrow, the body is spelled by what is emitted for it. -/
theorem spelledAs_arrowBody [CharNames] {loc : Position} {type : Option ShellType}
    (hf : Fits .expr b)
    (h : parseScript ("(" ++ formatExpression b 0 0 ++ ")") =
      .ok (.untyped .start (.program [⟨loc, type, .expression b⟩])))
    (hb : b.kind = .object ∨ ¬ b.BeginsWithBrace) {s : Layout} (hs : s.Entry)
    (hprev : s.prev = some .arrow) : SpelledAs .arrowBody ArrowBody.toNode b
      (s.run (Doc.tokensAt ⟨1, 10⟩ (if b.kind = .object then (b.expr 0).parens else b.expr 0))).1 := by
  split
  · -- in parentheses
    have hfirm : Doc.Firm (b.expr 0) := hf.firm 0
    obtain ⟨l, r, htokens, hl, hr⟩ := hfirm.tokensAt_parens ⟨1, 10⟩
    have hheader : s.opensHeader = false := by
      rw [Layout.opensHeader, hprev]
      rfl
    obtain ⟨hentry, hparen⟩ := Layout.Entry.inside hs.newline hl
    obtain ⟨p, hp, hg⟩ := spelledAs_of_parens hf h hentry (.inl hparen) 9
    rw [htokens, Layout.run_parens hs.newline hheader hl hr]
    exact (SpelledAt.lift (l := 1) ⟨.group l.loc p, .group hl hp hr, rfl, hg⟩ le_rfl (by decide)).arrowBody
  · rename_i hk
    obtain ⟨p, hp, hg⟩ := spelledAs_of_parens hf h hs (.inr (hb.resolve_left hk)) 8
    exact ⟨.phrase p, .arrowPhrase hp, hg⟩

theorem readsAsBody_of_parens [CharNames] {loc : Position} {type : Option ShellType}
    (hf : Fits .expr b)
    (h : parseScript ("(" ++ formatExpression b 0 0 ++ ")") =
      .ok (.untyped .start (.program [⟨loc, type, .expression b⟩])))
    (hb : b.kind = .object ∨ ¬ b.BeginsWithBrace) : b.ReadsAsBody := by
  have hexpr : Doc.Firm (b.arrowAssignment.expr 0) := (fits_arrowAssignment hf).firm 0
  have hnested : (b.arrowAssignment.expr 0).Nested false := (fits_arrowAssignment hf).nested 0
  have hstmt : Doc.Firm (b.arrowAssignment.expr 0 ++ [.word ";"]) := by
    rw [← stmt_arrowStatement hf]
    exact (fits_arrowStatement hf).firm 0
  -- the assignment is spelled by what is emitted for it
  have hspelled : b.arrowAssignment.SpelledAt 1
      (Layout.start.run ((b.arrowAssignment.expr 0).tokensAt .start)).1 := by
    have hstart := (Doc.tokens_of_separated (firm_arrowStart [] breaks_nil) .start).2
    obtain ⟨hs, hprev, y, op, x, a, hus, hy, ho, hx, ha⟩ := emits_arrowStart _ hstart
    have hbody := spelledAs_arrowBody hf h hb hs hprev
    rw [expr_arrowAssignment hf] at hexpr ⊢
    rw [Doc.tokensAt_append (firm_arrowStart [] breaks_nil) (hexpr [] breaks_nil), Layout.run_append,
      hus]
    exact spelledAt_arrowAssignment hy ho hx ha hbody
  -- and the semicolon after it ends the statement
  have htokens := (Doc.tokens_of_separated (hexpr [] breaks_nil) .start).2
  obtain ⟨-, hsemicolon⟩ := Doc.separated_append.1 (hstmt [] breaks_nil)
  obtain ⟨e, _, hread, he, ⟨⟩⟩ := (Doc.tokens_of_separated hsemicolon
    (Position.start.advance (b.arrowAssignment.expr 0).chars)).2.of_word
  have he : e.kind = .semicolon := he.unique (isToken_symbol (by decide))
  have hopened : (Layout.start.run ((b.arrowAssignment.expr 0).tokensAt .start)).2.opened = [] :=
    List.length_eq_zero_iff.1 (Layout.opened_run (s := .start) (hnested.depth?_eq htokens 0))
  have hsource : formatScript (.untyped .start (.program [b.arrowStatement])) =
      Doc.render (b.arrowAssignment.expr 0 ++ [.word ";"]) := by
    rw [← stmt_arrowStatement hf]
    rfl
  obtain ⟨hstop, -⟩ := Doc.readTokens_render (hstmt [] breaks_nil)
  have hall : (readTokens (Doc.render (b.arrowAssignment.expr 0 ++ [.word ";"])).toList).tokens =
      (b.arrowAssignment.expr 0).tokensAt .start ++ [e] := by
    rw [Doc.tokens_readTokens_render, Doc.tokensAt_append (hexpr [] breaks_nil) (hstmt [] breaks_nil),
      hread]
  have hstmts : SpelledStmts [b.arrowStatement]
      (scriptTokens (Doc.render (b.arrowAssignment.expr 0 ++ [.word ";"]))).tokens := by
    have hstmt : b.arrowStatement.SpelledStmt false (_ ++ [Layout.terminatorAt e]) :=
      .expression hspelled rfl
    have hone : SpelledStmts [b.arrowStatement] (_ ++ [Layout.terminatorAt e] ++ []) := .cons hstmt .nil
    rw [scriptTokens_tokens hstop]
    refine .strays ?_ (Layout.finish_strays _)
    rw [hall, Layout.run_append, Layout.run, Layout.run, Layout.step_semicolon_of_opened hopened he]
    simpa using hone
  obtain ⟨ms, hparse, hms⟩ := parseScript_of_spelled hstop hstmts
  obtain ⟨m, rfl, hm⟩ := List.map_eq_singleton_iff.1 hms
  exact ⟨m, hsource ▸ hparse, hm⟩

/-! ### A body that is read as a block -/

/-- What is emitted for `y = x => b` up to the brace that `b` begins with. -/
theorem emits_arrowStatement [CharNames] (hf : Fits .expr b) (hk : b.kind ≠ .object)
    (hb : b.BeginsWithBrace) :
    Doc.Emits (b.arrowStatement.stmt 0) .start fun us _ => ∃ y op x a t vs,
      us = y :: op :: x :: a :: t :: vs ∧ y.kind = .name ∧ x.kind = .name ∧ t.kind = .blockOpen := by
  obtain ⟨w, hw⟩ := hf.begins
  obtain ⟨d, hd, -⟩ := hw.pieces 0
  obtain ⟨k, hkw, -⟩ := hw.token
  have hd : b.expr 0 = .word w :: d := hd
  obtain rfl : w = "\x7b" := by
    obtain ⟨c, cs, hc, -⟩ := hw.start
    rw [BeginsWithBrace, formatExpression, atLeast_of_le le_rfl, hd, Doc.render_cons,
      String.toList_append, Piece.text, hc] at hb
    obtain rfl : c = '{' := Option.some.inj hb
    exact hkw.eq_of_firm (s := ("\x7b", .lbrace)) (by decide) hc
  rw [stmt_arrowStatement hf, expr_arrowAssignment hf, if_neg hk, hd, List.append_assoc]
  refine emits_arrowStart.append fun us s hs => ?_
  obtain ⟨hentry, hprev, y, op, x, a, rfl, hy, -, hx, -⟩ := hs
  refine .openBlock hentry.newline ?_ fun t ht => ?_
  · simp [Layout.opensBlock, hprev, TokenKind.opensBlock]
  · exact fun _ _ => ⟨y, op, x, a, t, _, rfl, hy.1, hx.1, ht⟩

/-- Statements that begin with `y = x => ` and a brace that opens a block are not `y = x => b`. -/
theorem block_of_spells [CharNames] {ss : List Statement} {ns : List Node} {n : Node}
    {y op x a t : Token}
    {us : List Token} (hs : Spells (.stmts ss) (y :: op :: x :: a :: t :: us)) (hy : y.kind = .name)
    (hx : x.kind = .name) (ht : t.kind = .blockOpen) (hns : statementNodes ss = .ok (n :: ns))
    (hn : n.bare = b.arrowStatement.bare) : b.kind = .block := by
  generalize htokens : y :: op :: x :: a :: t :: us = tokens at hs
  cases hs with
  | stmtsNil => cases hns
  | stray hstray =>
    obtain ⟨rfl, -⟩ := List.cons.inj htokens
    cases hstray.symm.trans hy
  | stmts h _ =>
    obtain ⟨p, ps, e, rfl, rfl, hp, -⟩ := h.expression_of_starts htokens.symm (by rw [hy]; rfl)
    simp only [statementNodes, Statement.toNode, bind_ok, pure_ok] at hns
    obtain ⟨_, ⟨assignment, hassignment, rfl⟩, _, -, hns⟩ := hns
    obtain ⟨rfl, -⟩ := List.cons.inj hns
    rw [List.append_assoc] at htokens
    -- the tree that was read is an assignment of an arrow function to a name
    obtain ⟨loc, type, shape⟩ := assignment
    have hrel := rel_of_bare hn
    cases hrel with
    | expression hrel =>
      have hrel := rel_of_bare hrel
      cases hrel with
      | @assignment _ _ target _ value htarget hvalue =>
        have hvalue := rel_of_bare hvalue
        generalize hshape : value.shape = shape at hvalue
        cases hvalue with
        | arrow _ hb =>
          rw [← kind_of_bare hb]
          exact kind_of_spells hp htokens.symm hy hx ht hassignment rfl (kind_of_bare htarget) hshape

/-- What begins with a brace after an arrow is not read as an expression. -/
theorem not_readsAsBody [CharNames] (hf : Fits .expr b) (hk : b.kind ≠ .object)
    (hb : b.BeginsWithBrace) :
    ¬ b.ReadsAsBody := by
  rintro ⟨n, hparse, hn⟩
  have hsource : formatScript (.untyped .start (.program [b.arrowStatement])) =
      (b.arrowStatement.stmt 0).render := rfl
  rw [hsource] at hparse
  obtain ⟨ss, ns, hstop, hs, hns, htree⟩ := parseScript_ok.1 hparse
  obtain rfl : [n] = ns := Shape.program.inj (congrArg Node.shape htree)
  have hfirm : Doc.Firm (b.arrowStatement.stmt 0) := (fits_arrowStatement hf).firm 0
  have htokens := Doc.readTokens_render (hfirm [] breaks_nil)
  obtain ⟨y, op, x, a, t, vs, hus, hy, hx, ht⟩ := emits_arrowStatement hf hk hb _ htokens.2
  rw [scriptTokens_tokens hstop, hus] at hs
  exact absurd (block_of_spells hs hy hx ht hns hn) (hf.kind_ne rfl)

theorem bare_arrowStatement {e : Node} (h : e.bare = b.bare) :
    e.arrowStatement.bare = b.arrowStatement.bare :=
  have harrow : e.arrowTo.bare = b.arrowTo.bare := bare_untyped (congrArg (Shape.arrow _) h)
  bare_untyped (congrArg Shape.expression (bare_untyped (congrArg (Shape.assignment "=" _) harrow)))

theorem readsAsBody_congr [CharNames] {e : Node} (h : e.bare = b.bare) :
    e.ReadsAsBody ↔ b.ReadsAsBody := by
  have hbare := bare_arrowStatement h
  have hsource : formatScript (.untyped .start (.program [e.arrowStatement])) =
      formatScript (.untyped .start (.program [b.arrowStatement])) :=
    congrArg Doc.render (stmt_eq_of_bare hbare 0)
  rw [ReadsAsBody, ReadsAsBody, hsource, hbare]

/-- **Bodies of arrow functions.** An expression that is read from its text in parentheses is read
as the body of an arrow function if and only if it is an object or its text does not begin with a
brace. -/
theorem readsAsBody_iff [CharNames] (h : b.ReadsInParens) :
    b.ReadsAsBody ↔ b.kind = .object ∨ ¬ b.BeginsWithBrace := by
  obtain ⟨e, he, hf, _, _, hparse⟩ := h.exists_read
  have htext := formatExpression_eq_of_bare he 0
  have hbegins : e.BeginsWithBrace ↔ b.BeginsWithBrace := by
    rw [BeginsWithBrace, BeginsWithBrace, htext]
  rw [← readsAsBody_congr he, ← kind_of_bare he, ← hbegins]
  refine ⟨fun hread => ?_, readsAsBody_of_parens hf hparse⟩
  by_contra hb
  rw [not_or, not_not] at hb
  exact not_readsAsBody hf hb.1 hb.2 hread

theorem ReadsInParens.of_spelled [CharNames] {source : String}
    (hsource : "(" ++ formatExpression b 0 0 ++ ")" = source)
    (hstop : (readTokens source.toList).stop = none)
    (h : SpelledStmts [untyped .start (.expression b)] (scriptTokens source).tokens) :
    b.ReadsInParens := by
  obtain ⟨ms, hparse, hms⟩ := parseScript_of_spelled hstop h
  obtain ⟨⟨loc, type, shape⟩, rfl, hm⟩ := List.map_eq_singleton_iff.1 hms
  have hrel := rel_of_bare hm
  cases hrel with
  | expression he => exact ⟨loc, type, _, hsource ▸ hparse, he⟩

/-- The member `a` of an empty object: in parentheses its text is read, after an arrow it is not. -/
theorem not_readsAsBody_of_member :
    let b : Node :=
      untyped .start (.member (untyped .start (.object [])) (untyped .start (.identifier "a")) false)
    b.ReadsInParens ∧ b.kind ≠ .object ∧ b.BeginsWithBrace ∧ ¬ b.ReadsAsBody := by
  intro b
  have hin : b.ReadsInParens := by
    have hstop : (readTokens "(\x7b\x7d.a)".toList).stop = none := by decide +kernel
    have htokens : (scriptTokens "(\x7b\x7d.a)").tokens =
        [⟨.lparen, "(", ⟨1, 1⟩⟩, ⟨.lbrace, "\x7b", ⟨1, 2⟩⟩, ⟨.rbrace, "\x7d", ⟨1, 3⟩⟩,
          ⟨.dot, ".", ⟨1, 4⟩⟩, ⟨.name, "a", ⟨1, 5⟩⟩, ⟨.rparen, ")", ⟨1, 6⟩⟩,
          ⟨.terminator, "", ⟨1, 6⟩⟩] := by
      decide +kernel
    have hobject : SpelledAt (untyped .start (.object [])) 12
        (⟨.lbrace, "\x7b", ⟨1, 2⟩⟩ :: [] ++ [⟨.rbrace, "\x7d", ⟨1, 3⟩⟩]) :=
      .object rfl spelledAll_nil rfl
    have hmember : b.SpelledAt 11 (_ ++ [⟨.dot, ".", ⟨1, 4⟩⟩, ⟨.name, "a", ⟨1, 5⟩⟩]) :=
      (hobject.lift (by decide) (by decide)).member rfl rfl
    have hgroup : b.SpelledAt 12 (⟨.lparen, "(", ⟨1, 1⟩⟩ :: _ ++ [⟨.rparen, ")", ⟨1, 6⟩⟩]) :=
      (hmember.lift (by decide) (by decide)).group rfl rfl
    have hstmts : SpelledStmts [untyped .start (.expression b)]
        (scriptTokens "(\x7b\x7d.a)").tokens := by
      rw [htokens]
      have hstmt : SpelledStmt (untyped .start (.expression b)) false
          (_ ++ [⟨.terminator, "", ⟨1, 6⟩⟩]) :=
        .expression (hgroup.lift (by decide) (by decide)) rfl
      exact .cons hstmt .nil
    exact .of_spelled rfl hstop hstmts
  have hk : b.kind ≠ .object := by decide
  have hb : b.BeginsWithBrace := by
    rw [BeginsWithBrace]
    decide +kernel
  exact ⟨hin, hk, hb, fun h => ((readsAsBody_iff hin).1 h).elim hk (absurd hb)⟩

end Node

end AutoAwait
