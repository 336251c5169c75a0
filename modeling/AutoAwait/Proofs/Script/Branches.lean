import AutoAwait.Proofs.Script.Alone
import AutoAwait.Proofs.Script.Arrow

/-!
# Branches of an `if`

The branches of an `if` are printed without braces around them, each as it is printed alone. So an
`else` goes to an `if` without one that the first branch ends with, and a function that is declared
is read as an expression unless the header before it leaves the start of a statement behind.

* `Node.LeavesStart` says of a test that its header does;
* `Node.readsAlone_if_iff` says when an `if` whose parts are read from their texts is read from its
  own.
-/

namespace AutoAwait

open Node

/-! ## The header -/

namespace Node

variable {t c : Node} {a : Option Node}

/-- The pieces of the header of an `if`. -/
def ifHeader (t : Node) : Doc := .word "if" :: .space :: (t.expr 0).parens

/-- Is what comes after the header of an `if` with this test taken for the start of a statement? -/
def LeavesStart (t : Node) : Prop :=
  (Layout.start.run
    (readTokens ("if (" ++ formatExpression t 0 0 ++ ")").toList).tokens).2.atStart

theorem render_ifHeader (t : Node) :
    t.ifHeader.render = "if (" ++ formatExpression t 0 0 ++ ")" := by
  rw [formatExpression, atLeast_of_le (Nat.zero_le _)]
  simp [ifHeader, Doc.parens, Piece.text, ← String.append_assoc]

/-- What is emitted for the header of an `if`, and the state after it. -/
structure HeaderRun [CharNames] (t : Node) (k l : Token) (us : List Token) (r : Token)
    (s : Layout) : Prop where
  fits : Fits .expr t
  run : Layout.start.run (t.ifHeader.tokensAt .start) = (k :: l :: us ++ [r], s)
  word : k.kind = .keyword .if
  opening : l.kind = .lparen
  test : SpelledAs (.phrase 1) Phrase.toNode t us
  closing : r.kind = .rparen
  starts : s.Starts
  opened : s.opened = []
  atStart : s.atStart ↔ t.LeavesStart

theorem firm_ifHeader [CharNames] (hf : Fits .expr t) : t.ifHeader.Firm :=
  .apart (isToken_keyword .if) (.parens (hf.firm 0))

theorem tokensAt_ifHeader [CharNames] (hf : Fits .expr t) : ∃ k l r,
    t.ifHeader.tokensAt .start = k :: (l :: (t.expr 0).tokensAt ⟨1, 5⟩ ++ [r]) ∧
      k.kind = .keyword .if ∧ l.kind = .lparen ∧ r.kind = .rparen := by
  have hfirm : Doc.Firm (t.expr 0) := hf.firm 0
  have hword : Doc.Separated [.word "if", .space] [] :=
    Doc.firm_nil.apart (isToken_keyword .if) [] breaks_nil
  have happend := Doc.tokensAt_append hword (firm_ifHeader hf [] breaks_nil) .start
  obtain ⟨k, us, hus, hk, hnil⟩ := (Doc.tokens_of_separated hword .start).2.of_word
  obtain ⟨l, r, hparens, hl, hr⟩ := hfirm.tokensAt_parens ⟨1, 4⟩
  cases hnil with
  | space hnil =>
    cases hnil
    rw [hus] at happend
    exact ⟨k, l, r, happend.trans (congrArg (k :: ·) hparens), hk.unique (isToken_keyword .if), hl, hr⟩

theorem exists_headerRun [CharNames] {loc : Position} {type : Option ShellType} (hf : Fits .expr t)
    (h : parseScript ("(" ++ formatExpression t 0 0 ++ ")") =
      .ok (.untyped .start (.program [⟨loc, type, .expression t⟩]))) :
    ∃ k l us r s, t.HeaderRun k l us r s := by
  obtain ⟨k, l, r, htokens, hk, hl, hr⟩ := tokensAt_ifHeader hf
  have hfirm : Doc.Firm (t.expr 0) := hf.firm 0
  have htest := (Doc.tokens_of_separated (hfirm [] breaks_nil) ⟨1, 5⟩).2
  -- the word, and the state after the parenthesis that opens
  have hword : Layout.start.step k = ([k], Layout.start.past k) := by
    have hrekind : Layout.start.rekind k = k := by simp [Layout.rekind, Layout.start, hk]
    have hstep := Layout.step_past (s := .start) (t := k) rfl (by rw [hk]; decide)
      (by rw [hrekind, hk]; rfl)
    rwa [hrekind] at hstep
  let u : Layout := (Layout.start.past k).inside .header l
  have hopens : (Layout.start.past k).opensHeader := by
    simp [Layout.opensHeader, Layout.past, Layout.emit, hk, TokenKind.startsHeader]
  -- what is in the parentheses spells the test
  have hprev : u.prev = some .lparen := congrArg some hl
  have hspelled : SpelledAs (.phrase 1) Phrase.toNode t (u.run ((t.expr 0).tokensAt ⟨1, 5⟩)).1 :=
    spelledAs_of_parens hf h ⟨rfl, .inl hprev, rfl, rfl⟩ (.inl hprev) 3
  have hnewline : (u.run ((t.expr 0).tokensAt ⟨1, 5⟩)).2.newline = none :=
    (hf.ends (.inl rfl) 0).newline_run htest
  have hopened : (u.run ((t.expr 0).tokensAt ⟨1, 5⟩)).2.opened = [.header] :=
    Doc.Nested.opened_run (hf.nested 0) htest
  have hrun : Layout.start.run (t.ifHeader.tokensAt .start) =
      (k :: l :: (u.run ((t.expr 0).tokensAt ⟨1, 5⟩)).1 ++ [r],
        (u.run ((t.expr 0).tokensAt ⟨1, 5⟩)).2.pastHeader r) := by
    rw [htokens, Layout.run, hword, Layout.run_header rfl hopens hl hr hnewline (by rw [hopened]; rfl)]
    rfl
  refine ⟨k, l, _, r, _, hf, hrun, hk, hl, hspelled, hr, ⟨?_, ?_, ?_⟩, ?_, ?_⟩
  · exact .pastHeader hnewline (by rw [hr]; rfl) (by rw [hr]; rintro ⟨⟩)
  · simp [Layout.opensBlock, Layout.pastHeader]
  · simp [Layout.inParens, Layout.pastHeader, hopened]
  · rw [Layout.pastHeader, hopened]
    rfl
  · rw [LeavesStart, ← render_ifHeader, Doc.tokens_readTokens_render, hrun]

namespace HeaderRun

variable {k l r : Token} {us : List Token} {s : Layout}

theorem condition [CharNames] (h : t.HeaderRun k l us r s) :
    SpelledAs (fun p => .parens (.phrase 1 p)) Phrase.toNode t (l :: us ++ [r]) := by
  obtain ⟨p, hp, hg⟩ := h.test
  exact ⟨p, .parens h.opening hp h.closing, hg⟩

end HeaderRun

/-! ## The branches -/

/-- The pieces of the branches of an `if`. -/
def ifBranches (c : Node) : Option Node → Doc
  | none => c.stmt 0
  | some a => c.stmt 0 ++ (elseJoint 0 c ++ a.stmt 0)

variable {loc : Position} {type : Option ShellType} {opened : Bool}

theorem stmt_if (t c : Node) (a : Option Node) :
    stmt 0 ⟨loc, type, .if t c a⟩ = t.ifHeader ++ .space :: ifBranches c a := by
  cases a <;> simp [stmt, ifHeader, ifBranches]

theorem tokensAt_if [CharNames] (hf : Fits .expr t)
    (h : Doc.Separated (stmt 0 ⟨loc, type, .if t c a⟩) []) :
    (stmt 0 ⟨loc, type, .if t c a⟩).tokensAt .start = t.ifHeader.tokensAt .start ++
      (ifBranches c a).tokensAt (Position.start.advance (t.ifHeader.chars ++ [' '])) := by
  rw [stmt_if] at h ⊢
  rw [Doc.tokensAt_append (firm_ifHeader hf [] breaks_nil) h, Position.advance_append,
    Doc.tokensAt_space]

namespace HeaderRun

variable {k l r : Token} {us : List Token} {s : Layout}

section

variable [CharNames] (hs : t.HeaderRun k l us r s)
  (hc : parseScript (formatStatement c 0) = .ok (.untyped .start (.program [c])))
  (hk : c.kind = .functionDecl → t.LeavesStart)

include hs hc hk

theorem readsAlone_if (hfc : Fits (.stmt opened) c) : ReadsAlone ⟨loc, type, .if t c none⟩ := by
  have hfits : Fits (.stmt true) ⟨loc, type, .if t c none⟩ := .if hs.fits hfc
  have hseparated : Doc.Separated (stmt 0 ⟨loc, type, .if t c none⟩) [] :=
    hfits.firm 0 [] breaks_nil
  obtain ⟨hspelled, -⟩ := spelledStmt_of_alone hfc hc hs.starts hs.opened
    (fun h => hs.atStart.2 (hk h)) (t.ifHeader.chars ++ [' '])
  refine .of_emitted hseparated (?_ : SpelledStmt _ true _)
  rw [emitted, tokensAt_if hs.fits hseparated, Layout.run_append, hs.run]
  exact .if hs.word hs.condition hspelled

theorem readsAlone_ifElse {a : Node} (hfc : Fits (.stmt false) c) (hfa : Fits (.stmt opened) a)
    (ha : parseScript (formatStatement a 0) = .ok (.untyped .start (.program [a]))) :
    ReadsAlone ⟨loc, type, .if t c (some a)⟩ := by
  have hfits : Fits (.stmt opened) ⟨loc, type, .if t c (some a)⟩ := .ifElse hs.fits hfc hfa
  have hseparated : Doc.Separated (stmt 0 ⟨loc, type, .if t c (some a)⟩) [] :=
    hfits.firm 0 [] breaks_nil
  -- the tokens of the branches
  have hbranches : Doc.Separated (c.stmt 0 ++ (elseJoint 0 c ++ a.stmt 0)) [] := by
    rw [stmt_if] at hseparated
    exact (Doc.separated_append.1 hseparated).2
  have hjoint : Doc.Separated (elseJoint 0 c) [] := by
    have hfirm := (Doc.Firm.elseJoint 0 c Doc.firm_nil).1
    rw [List.append_nil] at hfirm
    exact hfirm [] breaks_nil
  have hconsequent : Doc.Separated (c.stmt 0) [] := hfc.firm 0 [] breaks_nil
  let before := t.ifHeader.chars ++ [' ']
  have htokens := Doc.tokensAt_append hconsequent hbranches (Position.start.advance before)
  rw [Doc.tokensAt_append hjoint (Doc.separated_append.1 hbranches).2, ← Position.advance_append,
    ← Position.advance_append] at htokens
  -- what is emitted for them
  obtain ⟨hspelled, hdone⟩ := spelledStmt_of_alone hfc hc hs.starts hs.opened
    (fun h => hs.atStart.2 (hk h)) before
  obtain ⟨⟨e, hus, he⟩, hstarts, hstart, hopened⟩ := emits_elseJoint hs.starts hdone _
    (Doc.tokens_of_separated hjoint (Position.start.advance (before ++ Doc.chars (c.stmt 0)))).2
  obtain ⟨halternate, -⟩ := spelledStmt_of_alone hfa ha hstarts (hopened.trans hs.opened)
    (fun _ => hstart) (before ++ Doc.chars (c.stmt 0) ++ Doc.chars (elseJoint 0 c))
  refine .of_emitted hseparated (?_ : SpelledStmt _ opened _)
  rw [emitted, tokensAt_if hs.fits hseparated, ifBranches, htokens, Layout.run_append, hs.run,
    Layout.run_append, Layout.run_append, hus]
  have hall : SpelledStmt ⟨loc, type, .if t c (some a)⟩ opened _ :=
    .ifElse hs.word hs.condition hspelled he halternate
  rw [List.append_assoc] at hall
  exact hall

end

end HeaderRun

end Node

/-! ## What comes after the header -/

namespace Spells

variable {ts us rest : List Token} {t : Token}

/-- A statement that begins with `if` is one. -/
theorem if_of_starts {s : Statement} (hs : Spells (.stmt s) ts) (h : ts ++ rest = t :: us)
    (ht : t.kind = .keyword .if) : ∃ loc p i e l ps r is vs, s = .if loc p i e ∧
      us = l :: ps ++ r :: (is ++ vs) ∧ l.kind = .lparen ∧ Spells (.phrase 1 p) ps ∧
        r.kind = .rparen ∧ Spells (.stmt i) is := by
  cases hs with
  | @«if» _ _ _ _ _ is es hk hp hi _ he =>
    cases hp with
    | @parens l r f ps hl hp hr =>
      refine ⟨_, _, _, _, l, ps, r, is, es ++ rest, rfl, ?_, hl, hp, hr, hi⟩
      obtain ⟨-, hus⟩ := List.cons.inj h
      simpa using hus.symm
  | expression hp _ =>
    rw [List.append_assoc] at h
    obtain ⟨_, -, hk, -⟩ := hp.head rfl h
    rw [ht] at hk
    cases hk
  | blockStmt hb =>
    obtain ⟨_, -, hk, -⟩ := hb.head rfl h
    rw [show t.kind = .blockOpen from hk] at ht
    cases ht
  | declaration hk =>
    obtain ⟨rfl, -⟩ := List.cons.inj h
    rw [ht] at hk
    cases hk
  | «return» hk | «while» hk | «for» hk | forOf hk | functionDecl hk | «break» hk
  | «continue» hk | throw hk | «try» hk =>
    obtain ⟨rfl, -⟩ := List.cons.inj h
    cases ht.symm.trans hk

/-- Statements that begin with the header of an `if` and the word `function` are no `if` that declares
a function. -/
theorem kind_of_if [CharNames] {ss : List Statement} {k l r : Token} {ns : List Node}
    {loc : Position} {type : Option ShellType} {n c : Node} {a : Option Node}
    (hs : Spells (.stmts ss) (k :: l :: us ++ r :: t :: rest)) (hk : k.kind = .keyword .if)
    (hu : Balanced us) (hr : r.kind = .rparen) (ht : t.kind = .keyword .function)
    (hns : statementNodes ss = .ok (⟨loc, type, .if n c a⟩ :: ns)) : c.kind = .expression := by
  generalize htokens : k :: l :: us ++ r :: t :: rest = tokens at hs
  cases hs with
  | stmtsNil => cases hns
  | stray hstray =>
    obtain ⟨rfl, -⟩ := List.cons.inj htokens
    cases hstray.symm.trans hk
  | stmts h _ =>
    obtain ⟨_, p, i, e, l', ps, r', is, vs, rfl, hus, hl', hp, hr', hi⟩ :=
      h.if_of_starts htokens.symm hk
    -- the header ends where its parenthesis is closed
    obtain ⟨-, htail⟩ := List.cons.inj hus
    obtain ⟨rfl, rfl, hrest⟩ := hu.eq_of_closing hp.balanced (by rw [hr]; rfl) (by rw [hr']; rfl) htail
    -- and after it the word begins an expression
    obtain ⟨q, _, _, rfl, -⟩ := hi.expression_of_starts hrest.symm (by rw [ht]; rfl)
    simp only [statementNodes, Statement.toNode, bind_ok, pure_ok] at hns
    obtain ⟨_, ⟨_, -, _, -, _, ⟨_, -, rfl⟩, rfl⟩, _, -, hns⟩ := hns
    cases hns
    rfl

end Spells

namespace Node

variable {n m t c : Node} {a : Option Node} {loc : Position} {type : Option ShellType}
  {k l r : Token} {us : List Token} {s : Layout}

/-- What is emitted for an `if` that declares a function, where its header does not leave the start of
a statement behind: the word `function` after the header. -/
theorem HeaderRun.emitted_of_functionDecl [CharNames] (hs : t.HeaderRun k l us r s)
    (h : Doc.Separated (stmt 0 ⟨loc, type, .if t c a⟩) []) (hk : c.kind = .functionDecl)
    (hl : ¬ t.LeavesStart) : ∃ u vs, u.kind = .keyword .function ∧
      emitted ((stmt 0 ⟨loc, type, .if t c a⟩).tokensAt .start) = k :: l :: us ++ r :: u :: vs := by
  have hstart : s.atStart = false := Bool.eq_false_iff.2 fun h => hl (hs.atStart.1 h)
  -- the branches begin with the word
  have hfunction : ∃ d, ifBranches c a = .word "function" :: d := by
    obtain ⟨cloc, ctype, shape⟩ := c
    cases shape with
    | functionDecl i ps b => cases a <;> exact ⟨_, rfl⟩
    | _ => cases hk
  obtain ⟨d, hd⟩ := hfunction
  have hbranches : Doc.Separated (ifBranches c a) [] := by
    rw [stmt_if] at h
    exact (Doc.separated_append.1 h).2
  have htokens := (Doc.tokens_of_separated hbranches
    (Position.start.advance (t.ifHeader.chars ++ [' ']))).2
  rw [hd] at htokens
  obtain ⟨u, vs, hus, hu, -⟩ := htokens.of_word
  have hu : u.kind = .keyword .function := hu.unique (isToken_keyword .function)
  -- which declares nothing there
  have hstep : (s.step u).1 = [u] := by
    have hrekind : s.rekind u = u := by simp [Layout.rekind, hs.starts.dot, hu, hstart]
    rw [Layout.step_of_isFree hs.starts.newline (by rw [hu]; rfl), hrekind]
  refine ⟨u, ((s.step u).2.run vs).1, hu, ?_⟩
  rw [emitted, tokensAt_if hs.fits h, Layout.run_append, hs.run, hd, hus, Layout.run, hstep]
  simp

/-- A function that is declared after a header is read as such only if the header leaves the start of
a statement behind. -/
theorem HeaderRun.leavesStart [CharNames] (hs : t.HeaderRun k l us r s)
    (h : ReadsAlone ⟨loc, type, .if t c a⟩) (hk : c.kind = .functionDecl) : t.LeavesStart := by
  by_contra hl
  obtain ⟨u, vs, hu, hemitted⟩ := hs.emitted_of_functionDecl (h.firm [] breaks_nil) hk hl
  obtain ⟨m, hparse, hm⟩ := h
  obtain ⟨ss, ns, hstop, hspells, hns, htree⟩ := parseScript_ok.1 hparse
  obtain rfl : [m] = ns := Shape.program.inj (congrArg Node.shape htree)
  have hspells : Spells (.stmts ss) (emitted ((stmt 0 ⟨loc, type, .if t c a⟩).tokensAt .start) ++ _) :=
    scriptTokens_tokens hstop ▸ hspells
  rw [hemitted] at hspells
  -- the tree that was read is an `if` with an expression
  obtain ⟨mloc, mtype, shape⟩ := m
  have hrel := rel_of_bare hm
  cases hrel with
  | «if» _ hc _ =>
    obtain ⟨p, hp, -⟩ := hs.test
    have hexpression :=
      Spells.kind_of_if (by simpa using hspells) hs.word hp.balanced hs.closing hu hns
    rw [kind_of_bare hc, hk] at hexpression
    cases hexpression

/-! ## Statements with branches -/

theorem leavesStart_congr (h : n.bare = m.bare) : n.LeavesStart ↔ m.LeavesStart := by
  rw [LeavesStart, LeavesStart, formatExpression_eq_of_bare h]

/-- An `else` goes to an `if` that the first branch ends with. -/
theorem endsOpen_of_readsAlone [CharNames] {e : Node}
    (h : ReadsAlone ⟨loc, type, .if t c (some e)⟩) :
    c.endsOpen = false := by
  obtain ⟨m, hm, hfits, -⟩ := h.exists_read
  generalize m.endsOpen = opened at hfits
  obtain ⟨mloc, mtype, shape⟩ := m
  have hrel := rel_of_bare hm
  cases hrel with
  | «if» _ hc ha =>
    cases ha with
    | some _ =>
      cases hfits with
      | ifElse _ hfc _ => rw [← endsOpen_eq_of_bare hc, hfc.endsOpen]
      | declared h | block h => cases h

/-- **Branches.** An `if` whose test is read from its text in parentheses, and whose branches are read
from theirs, is read from its own if and only if no `else` comes after an `if` without one, and no
function is declared after a header that does not leave the start of a statement behind. -/
theorem readsAlone_if_iff [CharNames] (ht : t.ReadsInParens) (hc : c.ReadsAlone)
    (ha : ∀ e ∈ a, e.ReadsAlone) :
    ReadsAlone ⟨loc, type, .if t c a⟩ ↔
      (a.isSome → c.endsOpen = false) ∧ (c.kind = .functionDecl → t.LeavesStart) := by
  obtain ⟨t', htb, htf, _, _, htp⟩ := ht.exists_read
  obtain ⟨_, _, _, _, _, hs⟩ := exists_headerRun htf htp
  constructor
  · intro h
    refine ⟨fun hsome => ?_, fun hk => ?_⟩
    · obtain ⟨e, rfl⟩ := Option.isSome_iff_exists.1 hsome
      exact endsOpen_of_readsAlone h
    · have hbare : (untyped loc (.if t' c a)).bare = (⟨loc, type, .if t c a⟩ : Node).bare :=
        bare_untyped (by rw [Shape.map, Shape.map, htb])
      exact (leavesStart_congr htb).1 (hs.leavesStart ((readsAlone_congr hbare).2 h) hk)
  · rintro ⟨hopen, hk⟩
    obtain ⟨c', hcb, hcf, hcp⟩ := hc.exists_read
    have hk' : c'.kind = .functionDecl → t'.LeavesStart := fun h =>
      (leavesStart_congr htb).2 (hk (kind_of_bare hcb ▸ h))
    cases a with
    | none =>
      have hbare : (untyped loc (.if t' c' none)).bare = (⟨loc, type, .if t c none⟩ : Node).bare :=
        bare_untyped (by rw [Shape.map, Shape.map, htb, hcb])
      exact (readsAlone_congr hbare).1 (hs.readsAlone_if hcp hk' hcf)
    | some e =>
      obtain ⟨e', heb, hef, hep⟩ := (ha e rfl).exists_read
      have hbare : (untyped loc (.if t' c' (some e'))).bare =
          (⟨loc, type, .if t c (some e)⟩ : Node).bare :=
        bare_untyped (by rw [Shape.map, Shape.map, htb, hcb, Option.map_some, Option.map_some, heb])
      rw [endsOpen_eq_of_bare hcb, hopen rfl] at hcf
      exact (readsAlone_congr hbare).1 (hs.readsAlone_ifElse hcp hk' hcf hef hep)

/-- An `if` without an `else` before an `else`: `if (a) if (b) c;` and `else d;` on the next line. -/
theorem not_readsAlone_of_danglingElse :
    let name (w : String) : Node := untyped .start (.identifier w)
    let line (w : String) : Node := untyped .start (.expression (name w))
    let inner := untyped .start (.if (name "b") (line "c") none)
    (name "a").ReadsInParens ∧ inner.ReadsAlone ∧ (line "d").ReadsAlone ∧
      ¬ ReadsAlone (untyped .start (.if (name "a") inner (some (line "d")))) := by
  intro name line inner
  have ht : (name "a").ReadsInParens := by
    have hstop : (readTokens "(a)".toList).stop = none := by decide +kernel
    have htokens : (scriptTokens "(a)").tokens =
        [⟨.lparen, "(", ⟨1, 1⟩⟩, ⟨.name, "a", ⟨1, 2⟩⟩, ⟨.rparen, ")", ⟨1, 3⟩⟩,
          ⟨.terminator, "", ⟨1, 3⟩⟩] := by
      decide +kernel
    have hname : (name "a").SpelledAt 12 [⟨.name, "a", ⟨1, 2⟩⟩] := .name rfl
    have hgroup : (name "a").SpelledAt 12 (⟨.lparen, "(", ⟨1, 1⟩⟩ :: _ ++ [⟨.rparen, ")", ⟨1, 3⟩⟩]) :=
      (hname.lift (by decide) (by decide)).group rfl rfl
    have hstmt : (line "a").SpelledStmt false (_ ++ [⟨.terminator, "", ⟨1, 3⟩⟩]) :=
      .expression (hgroup.lift (by decide) (by decide)) rfl
    exact .of_spelled rfl hstop (htokens ▸ .cons hstmt .nil)
  have hname : ∀ w ∈ ["b", "c", "d"], Fits .expr (name w) := by
    intro w hw
    refine .ref (.name ?_)
    simp only [List.mem_cons, List.not_mem_nil, or_false] at hw
    rcases hw with rfl | rfl | rfl
    · exact Lexes.name (w := ['b']) rfl rfl rfl
    · exact Lexes.name (w := ['c']) rfl rfl rfl
    · exact Lexes.name (w := ['d']) rfl rfl rfl
  have hreadable : ∀ {n : Node}, n.nodes.all (·.isReadable) → n.Readable := List.all_eq_true.1
  have hinner : inner.ReadsAlone :=
    .of_fits (.line (.if (hname "b" (by simp)) (.expression (hname "c" (by simp))))) (hreadable rfl)
  have hline : (line "d").ReadsAlone := .of_fits (.line (.expression (hname "d" (by simp)))) (hreadable rfl)
  refine ⟨ht, hinner, hline, fun h => ?_⟩
  have hopen := ((readsAlone_if_iff ht hinner fun _ he => Option.some.inj he ▸ hline).1 h).1 rfl
  cases hopen

end Node

end AutoAwait
