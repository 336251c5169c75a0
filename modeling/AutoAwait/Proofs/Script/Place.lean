import AutoAwait.Proofs.Printing.Nested
import AutoAwait.Proofs.Script.Roundtrip

/-!
# Expressions in other places of a script

* `Node.ReadsInParens` says of an expression that it is read from its text in parentheses;
* `Node.spelledAs_of_parens` says that then its text spells it wherever an expression can begin, after
  a parenthesis or after an arrow. After an arrow the text may not begin with a brace.
-/

namespace AutoAwait

open Node

/-! ## What stands in parentheses -/

theorem TokenKind.startsPhrase_of_declares {k : TokenKind} (h : k.declares) :
    k.startsPhrase = false := by
  cases k with
  | keyword w => cases w <;> first | rfl | cases h
  | _ => cases h

namespace Spells

variable {level : Nat} {ts us rest : List Token} {t l r : Token} {p : Phrase}

theorem head {f : Form} (hs : Spells f ts) (hf : f.isSolid) (h : ts ++ rest = t :: us) :
    ∃ vs, ts = t :: vs ∧ f.starts t.kind ∧ vs ++ rest = us := by
  obtain ⟨u, vs, rfl, hu⟩ := hs.starts hf
  obtain ⟨rfl, hvs⟩ := List.cons.inj h
  exact ⟨vs, rfl, hu, hvs⟩

/-- A statement that begins like an expression is one. -/
theorem expression_of_starts {s : Statement} (hs : Spells (.stmt s) ts) (h : ts ++ rest = t :: us)
    (ht : t.kind.startsPhrase) :
    ∃ p ps e, s = .expression p ∧ ts = ps ++ [e] ∧ Spells (.phrase 1 p) ps ∧ e.kind = .terminator := by
  cases hs with
  | expression hp he => exact ⟨_, _, _, rfl, rfl, hp, he⟩
  | blockStmt hb =>
    obtain ⟨_, -, hk, -⟩ := hb.head rfl h
    rw [show t.kind = .blockOpen from hk] at ht
    cases ht
  | declaration hk =>
    obtain ⟨rfl, -⟩ := List.cons.inj h
    exact absurd (ht.symm.trans (TokenKind.startsPhrase_of_declares hk)) (by decide)
  | «return» hk | «if» hk | «while» hk | «for» hk | forOf hk | functionDecl hk | «break» hk
  | «continue» hk | throw hk | «try» hk =>
    obtain ⟨rfl, -⟩ := List.cons.inj h
    rw [hk] at ht
    cases ht

/-- Tokens in parentheses that close each bracket spell nothing but an expression in parentheses. -/
theorem of_group (h : Spells (.phrase level p) (l :: us ++ [r])) (hl : l.kind = .lparen)
    (hu : depth? 0 us = some 0) : ∃ q, p = .group l.loc q ∧ Spells (.phrase 1 q) us := by
  -- what is part of the expression and begins it does not end before the parenthesis
  have hpart : ∀ {f : Form} {xs ys : List Token}, Spells f xs → f.isSolid →
      l :: us ++ [r] = xs ++ ys → ys = [] := by
    intro f xs ys hs hf he
    obtain ⟨x, xs', rfl, -⟩ := hs.starts hf
    obtain ⟨cs, -, hcs⟩ := hs.balanced.enclosed_prefix (by simp) he.symm (by rw [hl]; rfl) hu
    exact (List.append_eq_nil_iff.1 hcs.symm).2
  generalize hf : Form.phrase level p = f at h
  generalize htokens : l :: us ++ [r] = tokens at h
  induction h generalizing level with
  | group _ h _ =>
    cases hf
    obtain ⟨rfl, hrest⟩ := List.cons.inj htokens
    obtain ⟨rfl, -⟩ := List.append_inj' hrest rfl
    exact ⟨_, rfl, h⟩
  | lift _ _ ih =>
    cases hf
    exact ih rfl htokens
  -- Expressions that begin with another token
  | nameRef | number | string | constant | this => simp at htokens
  | array hk | object hk | function hk | construct hk | arrowName hk =>
    obtain ⟨rfl, -⟩ := List.cons.inj htokens
    cases hl.symm.trans hk
  | unary hk =>
    obtain ⟨rfl, -⟩ := List.cons.inj htokens
    rw [hl] at hk
    cases hk
  -- Expressions that begin with another expression
  | member ho | update ho | binary _ ho | assignment ho => cases hpart ho rfl htokens
  | index ho | conditional ho => cases hpart ho rfl (htokens.trans (List.append_assoc ..))
  | call hc _ ha =>
    obtain ⟨t, ts, rfl, -⟩ := ha.starts rfl
    cases hpart hc rfl htokens
  | @arrow l' r' a _ _ ts bs hk h hr =>
    have htokens : l :: us ++ [r] = (l' :: ts ++ [r']) ++ a :: bs := htokens.trans (by simp)
    cases hpart (.parens hk h hr) rfl htokens
  | _ => cases hf

/-- An expression in parentheses that is the only statement. -/
theorem phrase_of_stmts [CharNames] {ss : List Statement} {loc : Position} {type : Option ShellType}
    {n : Node}
    (h : Spells (.stmts ss) (l :: us ++ r :: rest)) (hl : l.kind = .lparen)
    (hu : depth? 0 us = some 0) (hr : Strays rest)
    (hn : statementNodes ss = .ok [⟨loc, type, .expression n⟩]) :
    ∃ q, Spells (.phrase 1 q) us ∧ q.toNode = .ok n := by
  have hopening : l.kind.isOpening := by rw [hl]; rfl
  generalize htokens : l :: us ++ r :: rest = tokens at h
  cases h with
  | stmtsNil => cases hn
  | stray ht =>
    obtain ⟨rfl, -⟩ := List.cons.inj htokens
    cases hl.symm.trans ht
  | stmts h _ =>
    obtain ⟨p, ps, e, rfl, rfl, hp, -⟩ := h.expression_of_starts htokens.symm (by rw [hl]; rfl)
    rw [List.append_assoc] at htokens
    obtain ⟨t, ts, rfl, -⟩ := hp.starts rfl
    obtain ⟨cs, hps, hcs⟩ := hp.balanced.enclosed_prefix (by simp) htokens.symm hopening hu
    -- only the terminator comes after the expression
    obtain rfl : cs = [] := by
      rcases hr with rfl | ⟨_, rfl, -⟩
      · simp at hcs
      · cases cs <;> simp at hcs ⊢
    rw [hps] at hp
    obtain ⟨q, rfl, hq⟩ := hp.of_group hl hu
    simp only [statementNodes, Statement.toNode, bind_ok, pure_ok] at hn
    obtain ⟨_, ⟨m, hm, rfl⟩, _, -, hn⟩ := hn
    cases hn
    exact ⟨q, hq, hm⟩

end Spells

/-! ## What is read wherever an expression can begin -/

/-- The tokens of a text in parentheses. -/
theorem Doc.Firm.tokensAt_parens {d : Doc} (h : d.Firm) (p : Position) : ∃ l r,
    d.parens.tokensAt p = l :: d.tokensAt (p.advance ['(']) ++ [r] ∧
      l.kind = .lparen ∧ r.kind = .rparen := by
  have hseparated : ([.word "("] ++ (d ++ [.word ")"]) : Doc).Separated [] := h.parens [] breaks_nil
  have hopening : Doc.Separated [.word "("] [] :=
    Doc.firm_symbol (k := .lparen) (by decide) [] breaks_nil
  obtain ⟨-, hrest⟩ := Doc.separated_append.1 hseparated
  obtain ⟨-, hclosing⟩ := Doc.separated_append.1 hrest
  have happend := Doc.tokensAt_append hopening hseparated p
  rw [Doc.tokensAt_append (h [] breaks_nil) hrest] at happend
  obtain ⟨l, _, hls, hl, ⟨⟩⟩ := (Doc.tokens_of_separated hopening p).2.of_word
  obtain ⟨r, _, hrs, hr, ⟨⟩⟩ := (Doc.tokens_of_separated hclosing _).2.of_word
  rw [hls, hrs] at happend
  exact ⟨l, r, happend, hl.unique (isToken_symbol (by decide)), hr.unique (isToken_symbol (by decide))⟩

namespace Node

variable {b : Node}

/-- Is the expression read from its text in parentheses? -/
def ReadsInParens [CharNames] (b : Node) : Prop :=
  ∃ loc type e, parseScript ("(" ++ formatExpression b 0 0 ++ ")") =
    .ok (.untyped .start (.program [⟨loc, type, .expression e⟩])) ∧ e.bare = b.bare

/-- The tree that an expression in parentheses is read as is read as itself. -/
theorem ReadsInParens.exists_read [CharNames] (h : b.ReadsInParens) :
    ∃ m, m.bare = b.bare ∧ Fits .expr m ∧
    ∃ loc type, parseScript ("(" ++ formatExpression m 0 0 ++ ")") =
      .ok (.untyped .start (.program [⟨loc, type, .expression m⟩])) := by
  obtain ⟨loc, type, m, hparse, hm⟩ := h
  obtain ⟨ns, hns, hfits⟩ := parseScript_fits hparse
  obtain rfl := Shape.program.inj (congrArg Node.shape hns)
  rw [← formatExpression_eq_of_bare hm 0] at hparse
  refine ⟨m, hm, ?_, loc, type, hparse⟩
  cases hfits _ (.head _) with
  | line h =>
    cases h with
    | expression h => exact h
    | declared h | block h => cases h

/-- Does the text of the expression begin with a brace? -/
def BeginsWithBrace (b : Node) : Prop :=
  (formatExpression b 0 assignmentPrecedence).toList.head? = some '{'

theorem atLeast_of_le {least : Nat} (h : least ≤ assignmentPrecedence) (d : Doc) :
    atLeast least b d = d := if_neg (Nat.not_lt.2 (h.trans b.precedence_le.1))

/-- The text of an expression that can be read begins with a token that begins expressions. -/
theorem first_token [CharNames] (hf : Fits .expr b) {ts : List Token}
    (hts : Doc.Tokens (b.expr 0) ts) :
    ∃ t us, ts = t :: us ∧ t.kind.startsPhrase ∧ (t.kind = .lbrace → b.BeginsWithBrace) := by
  obtain ⟨w, hw⟩ := hf.begins
  obtain ⟨d, hd, -⟩ := hw.pieces 0
  obtain ⟨k, hkw, hk⟩ := hw.token
  have hd : b.expr 0 = .word w :: d := hd
  rw [hd] at hts
  obtain ⟨t, us, rfl, ht, -⟩ := hts.of_word
  refine ⟨t, us, rfl, by rwa [ht.unique hkw], fun hbrace => ?_⟩
  have hsymbols : ∀ s ∈ symbols, s.2 = .lbrace → s.1 = ['{'] := by decide
  rw [hbrace] at ht
  have hstart : w.toList = ['{'] := hsymbols _ (ht.mem_symbols rfl) rfl
  rw [BeginsWithBrace, formatExpression, atLeast_of_le le_rfl, hd, Doc.render_cons,
    String.toList_append, Piece.text, hstart]
  rfl

/-- **Other places.** The text of an expression that is read in parentheses spells it wherever an
expression can begin, also further right; after an arrow it may not begin with a brace. -/
theorem spelledAs_of_parens [CharNames] {loc : Position} {type : Option ShellType}
    (hf : Fits .expr b)
    (h : parseScript ("(" ++ formatExpression b 0 0 ++ ")") =
      .ok (.untyped .start (.program [⟨loc, type, .expression b⟩])))
    {s : Layout} (hs : s.Entry) (hb : s.prev = some .lparen ∨ ¬ b.BeginsWithBrace)
    (columns : Nat) : SpelledAs (.phrase 1) Phrase.toNode b
      (s.run ((b.expr 0).tokensAt (Position.right columns ⟨1, 2⟩))).1 := by
  have hfirm : Doc.Firm (b.expr 0) := hf.firm 0
  have hnested : (b.expr 0).Nested false := hf.nested 0
  have hsource : "(" ++ formatExpression b 0 0 ++ ")" = (b.expr 0).parens.render := by
    rw [formatExpression, atLeast_of_le (Nat.zero_le _)]
    simp [Doc.parens, Piece.text, String.append_assoc]
  rw [hsource] at h
  obtain ⟨ss, ns, hstop, hspells, hns, htree⟩ := parseScript_ok.1 h
  obtain rfl := Shape.program.inj (congrArg Node.shape htree)
  rw [scriptTokens_tokens hstop] at hspells
  -- what is read and emitted for the text in parentheses
  have htokens := (Doc.tokens_of_separated (hfirm [] breaks_nil) ⟨1, 2⟩).2
  obtain ⟨l, r, hread, hl, hr⟩ := hfirm.tokensAt_parens .start
  have hread : (readTokens (b.expr 0).parens.render.toList).tokens =
      l :: (b.expr 0).tokensAt ⟨1, 2⟩ ++ [r] := hread
  obtain ⟨t, ts, hts, ht, hbrace⟩ := first_token hf htokens
  rw [hts] at hread htokens
  obtain ⟨hu, hprev⟩ := Layout.Entry.inside (s := .start) rfl hl
  have hdepth : depth? 0 ((Layout.start.inside .paren l).run (t :: ts)).1 = some 0 := by
    rw [Layout.depth?_run]
    exact hnested.depth?_eq htokens 0
  rw [hread, Layout.run_parens rfl rfl hl hr, List.append_assoc] at hspells
  obtain ⟨q, hq, hn⟩ := hspells.phrase_of_stmts hl hdepth (Layout.finish_strays _) hns
  -- the same is emitted elsewhere
  have hmoved := hnested.run_entry (φ := .right columns) htokens hu hs ht fun hk =>
    ⟨hprev, hb.resolve_right (not_not.2 (hbrace hk))⟩
  rw [Doc.tokensAt_right _ (by decide), hts, hmoved]
  exact ⟨q.move _, hq.move (moved_map _), b.move _, (Phrase.toNode_move q).ok hn, bare_move _ b⟩

end Node

end AutoAwait
