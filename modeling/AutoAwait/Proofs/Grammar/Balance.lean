import AutoAwait.Proofs.Grammar.First
import AutoAwait.Proofs.Token.Layout

/-!
# Tokens between balanced brackets

Whatever the grammar can spell closes each bracket that it opens, and each operator in it has an
operand after it. So a text that is read as a whole leaves no bracket open, and has no two operators
in it that could be taken for the mark of a comment.

* `Balanced` describes such lists of tokens, `Spells.balanced` says that all forms are spelled so;
* `Balanced.depth?_eq` counts the brackets, `Balanced.isChain` looks at the operators.
-/

namespace AutoAwait

namespace TokenKind

/-- Is this neither a bracket nor a dot nor an operator that a comment could begin with? -/
def isPlain : TokenKind → Bool
  | .lparen | .lbracket | .lbrace | .blockOpen | .rparen | .rbracket | .rbrace | .mulOp
  | .dot => false
  | _ => true

/-- Is this a bracket that opens? -/
def isOpening : TokenKind → Bool
  | .lparen | .lbracket | .lbrace | .blockOpen => true
  | _ => false

/-- Is this a bracket that closes? -/
def isClosing : TokenKind → Bool
  | .rparen | .rbracket | .rbrace => true
  | _ => false

theorem isPlain_of_isConstant {k : TokenKind} (h : k.isConstant) : k.isPlain := by
  cases k <;> first | rfl | cases h

theorem isPlain_of_isUnaryOperator {k : TokenKind} (h : Grammar.isUnaryOperator k) :
    k.isPlain := by
  cases k <;> first | rfl | cases h

theorem isPlain_of_assigns {k : TokenKind} (h : k.assigns) : k.isPlain := by
  cases k <;> first | rfl | cases h

theorem isPlain_of_declares {k : TokenKind} (h : k.declares) : k.isPlain := by
  cases k <;> first | rfl | cases h

theorem isPlain_of_isLiteralKey {k : TokenKind} (h : k.isLiteralKey) : k.isPlain := by
  cases k <;> first | rfl | cases h

theorem depth?_of_isPlain {k : TokenKind} (h : k.isPlain) (n : Nat) : k.depth? n = some n := by
  cases k <;> first | rfl | cases h

theorem depth?_of_isOpening {k : TokenKind} (h : k.isOpening) (n : Nat) :
    k.depth? n = some (n + 1) := by
  cases k <;> first | rfl | cases h

theorem depth?_of_isClosing {k : TokenKind} (h : k.isClosing) (n : Nat) :
    k.depth? (n + 1) = some n := by
  cases k <;> first | rfl | cases h

end TokenKind

/-- Is every bracket closed that is opened, does a name follow each dot, and something other than an
operator between two operands each such operator? -/
inductive Balanced : List Token → Prop
  | nil : Balanced []
  | atom {t} (h : t.kind.isPlain) : Balanced [t]
  | access {d t} (hd : d.kind = .dot) (ht : t.kind = .name) : Balanced [d, t]
  | append {ts us} (ht : Balanced ts) (hu : Balanced us) : Balanced (ts ++ us)
  | enclosed {l r ts} (hl : l.kind.isOpening) (h : Balanced ts) (hr : r.kind.isClosing) :
      Balanced (l :: ts ++ [r])
  | operator {op t ts} {l : Nat} (ho : op.kind.operatorLevel? = some l)
      (ht : t.kind.startsPhrase) (h : Balanced (t :: ts)) : Balanced (op :: t :: ts)

namespace Balanced

variable {t : Token} {ts : List Token}

theorem cons (ht : t.kind.isPlain) (h : Balanced ts) : Balanced (t :: ts) := (atom ht).append h

theorem snoc (h : Balanced ts) (ht : t.kind.isPlain) : Balanced (ts ++ [t]) := h.append (atom ht)

theorem depth?_eq (h : Balanced ts) (n : Nat) : depth? n ts = some n := by
  induction h generalizing n with
  | nil => rfl
  | atom h => rw [depth?_cons, TokenKind.depth?_of_isPlain h]; rfl
  | access hd ht => simp [TokenKind.depth?, hd, ht]
  | append _ _ iht ihu => rw [depth?_append, iht]; exact ihu n
  | enclosed hl _ hr ih =>
    rw [depth?_append, depth?_cons, TokenKind.depth?_of_isOpening hl, Option.bind_some, ih,
      Option.bind_some, depth?_cons, TokenKind.depth?_of_isClosing hr]
    rfl
  | @operator op t ts l ho ht _ ih =>
    have hop : op.kind.depth? n = some n := by
      rcases hk : op.kind with _ | _ | _ | k | _ <;> rw [hk] at ho <;> first | rfl | cases ho
    rw [depth?_cons, hop]
    exact ih n

/-- Balanced tokens that begin with a bracket go on at least to where it is closed. -/
theorem enclosed_prefix {l r : Token} {us vs ws : List Token} (h : Balanced ts) (hne : ts ≠ [])
    (he : ts ++ vs = l :: us ++ r :: ws) (hl : l.kind.isOpening) (hu : depth? 0 us = some 0) :
    ∃ cs, ts = l :: us ++ r :: cs ∧ ws = cs ++ vs := by
  obtain ⟨t, ts, rfl⟩ := List.exists_cons_of_ne_nil hne
  obtain ⟨rfl, hrest⟩ := List.cons.inj he
  have hinner : depth? 1 ts = some 0 := by
    have hd := h.depth?_eq 0
    rwa [depth?_cons, TokenKind.depth?_of_isOpening hl] at hd
  -- the bracket is still open after each part of what it encloses
  have hopen : ∀ as, us ≠ ts ++ as := by
    rintro as rfl
    rw [depth?_append] at hu
    obtain ⟨m, hm, -⟩ := Option.bind_eq_some_iff.1 hu
    cases (depth?_succ hm).symm.trans hinner
  rcases List.append_eq_append_iff.1 hrest with ⟨as, rfl, -⟩ | ⟨bs, rfl, hbs⟩
  · exact absurd rfl (hopen as)
  · cases bs with
    | nil => exact absurd (by simp) (hopen [])
    | cons b cs =>
      obtain ⟨rfl, rfl⟩ := List.cons.inj hbs
      exact ⟨cs, rfl, rfl⟩

/-- What balanced tokens stand before the bracket that closes the one before them is determined. -/
theorem eq_of_closing {r r' : Token} {us vs ws : List Token} (h : Balanced ts) (h' : Balanced us)
    (hr : r.kind.isClosing) (hr' : r'.kind.isClosing) (he : ts ++ r :: vs = us ++ r' :: ws) :
    ts = us ∧ r = r' ∧ vs = ws := by
  -- no balanced list goes on past the bracket
  have hpast : ∀ {as bs cs : List Token} {t : Token}, Balanced as → Balanced bs →
      t.kind.isClosing → bs ≠ as ++ t :: cs := by
    rintro as _ cs t ha hb ht rfl
    have hd := hb.depth?_eq 0
    rw [depth?_append, ha.depth?_eq, Option.bind_some, depth?_cons] at hd
    generalize t.kind = k at ht hd
    cases k <;> first | cases hd | cases ht
  rcases List.append_eq_append_iff.1 he with ⟨as, has, hrest⟩ | ⟨as, has, hrest⟩ <;> cases as
  case inl.nil | inr.nil => simp_all
  case inl.cons a as =>
    obtain ⟨rfl, -⟩ := List.cons.inj hrest
    exact absurd has (hpast h h' hr)
  case inr.cons a as =>
    obtain ⟨rfl, -⟩ := List.cons.inj hrest
    exact absurd has (hpast h' h hr')

/-- Neither an operator between two operands nor a dot is the last token. -/
theorem last_ne (h : Balanced ts) : ∀ t ∈ ts.getLast?, t.kind ≠ .mulOp ∧ t.kind ≠ .dot := by
  induction h with
  | nil => nofun
  | @atom t h =>
    intro u hu
    obtain rfl : t = u := Option.some.inj hu
    constructor <;> intro hk <;> rw [hk] at h <;> cases h
  | @access d t _ ht =>
    intro u hu
    obtain rfl : t = u := Option.some.inj hu
    rw [ht]
    decide
  | @append ts us _ _ iht ihu =>
    intro t ht
    rw [List.getLast?_append] at ht
    cases hu : us.getLast? with
    | none => rw [hu] at ht; exact iht t ht
    | some u => rw [hu] at ht; exact ihu t (hu.symm ▸ ht)
  | @enclosed l r ts _ _ hr _ =>
    intro t ht
    rw [List.getLast?_concat] at ht
    cases ht
    constructor <;> intro hk <;> rw [hk] at hr <;> cases hr
  | operator _ _ _ ih =>
    intro t ht
    rw [List.getLast?_cons_cons] at ht
    exact ih t ht

theorem isChain (h : Balanced ts) : ts.IsChain fun t t' => ¬ t.OpensComment t' := by
  induction h with
  | nil => exact .nil
  | atom _ => exact .singleton _
  | access hd ht =>
    refine .cons_cons (fun hc => ?_) (.singleton _)
    rw [hc.1] at hd
    cases hd
  | append ht _ iht ihu =>
    exact List.isChain_append.2 ⟨iht, ihu, fun t h _ _ hc => (ht.last_ne t h).1 hc.1⟩
  | @enclosed l r ts hl h hr ih =>
    refine List.isChain_append.2 ⟨?_, .singleton r, fun t ht u hu hc => ?_⟩
    · refine List.isChain_cons.2 ⟨fun t _ hc => ?_, ih⟩
      rw [hc.1] at hl
      cases hl
    · cases hu
      rcases hc.2 with hk | hk <;> rw [hk] at hr <;> cases hr
  | operator ho ht _ ih =>
    refine .cons_cons (fun hc => ?_) ih
    rcases hc.2 with hk | hk <;> rw [hk] at ht <;> cases ht

end Balanced

/-- Each form is spelled by balanced tokens. -/
theorem Spells.balanced {f : Form} {ts : List Token} (h : Spells f ts) : Balanced ts := by
  have hp : ∀ {t : Token} {k}, t.kind = k → k.isPlain → t.kind.isPlain := by
    rintro t _ rfl h
    exact h
  have ho : ∀ {t : Token} {k}, t.kind = k → k.isOpening → t.kind.isOpening := by
    rintro t _ rfl h
    exact h
  have hc : ∀ {t : Token} {k}, t.kind = k → k.isClosing → t.kind.isClosing := by
    rintro t _ rfl h
    exact h
  induction h with
  -- Expressions
  | nameRef ht | number ht | string ht | this ht | name ht | shorthand ht => exact .atom (hp ht rfl)
  | constant ht => exact .atom (TokenKind.isPlain_of_isConstant ht)
  | group hl _ hr ih | array hl _ hr ih | object hl _ hr ih | parens hl _ hr ih
  | block hl _ hr ih =>
    exact .enclosed (ho hl rfl) ih (hc hr rfl)
  | function hk _ _ _ ihn ihp ihb => exact ((ihn.cons (hp hk rfl)).append ihp).append ihb
  | construct hk ht _ _ ihp iha => exact ((ihp.cons (hp ht rfl)).cons (hp hk rfl)).append iha
  | member _ _ hd ht ih => exact ih.append (.access hd ht)
  | index _ hl _ hr iho ihk =>
    rw [List.append_assoc]
    exact iho.append (.enclosed (ho hl rfl) ihk (hc hr rfl))
  | call _ _ _ ihc iha => exact ihc.append iha
  | update _ hop ih => exact ih.snoc (hp hop rfl)
  | unary hop _ ih => exact ih.cons (TokenKind.isPlain_of_isUnaryOperator hop)
  | binary hop _ hb iha ihb =>
    obtain ⟨t, us, rfl, ht⟩ := hb.starts rfl
    exact iha.append (.operator hop ht ihb)
  | conditional _ hq _ hd _ iht ihc iha =>
    exact (iht.append (ihc.cons (hp hq rfl))).append (iha.cons (hp hd rfl))
  | assignment _ hop _ iht ihv => exact iht.append (ihv.cons (TokenKind.isPlain_of_assigns hop))
  | arrowName ht ha _ ih => exact (ih.cons (hp ha rfl)).cons (hp ht rfl)
  | @arrow l r a ps b ts bs hl _ hr ha _ ih ihb =>
    rw [show l :: ts ++ r :: a :: bs = (l :: ts ++ [r]) ++ a :: bs by simp]
    exact (Balanced.enclosed (ho hl rfl) ih (hc hr rfl)).append (ihb.cons (hp ha rfl))
  | lift _ _ ih | arrowBlock _ ih | arrowPhrase _ ih | optSome _ ih | list _ ih | itemsLast _ ih
  | initPhrase _ ih | blockStmt _ ih => exact ih
  -- Parts of expressions and statements
  | pathNil | optNone | moreNil | listNil | itemsNil | stmtsNil => exact .nil
  | path hd ht _ ih => exact (Balanced.access hd ht).append ih
  | pair ht hcolon _ ih =>
    exact (ih.cons (hp hcolon rfl)).cons (ht.elim (hp · rfl) TokenKind.isPlain_of_isLiteralKey)
  | commas _ _ ih ihs | stmts _ _ ih ihs => exact ih.append ihs
  | more hcomma _ _ ih ihs => exact (ih.cons (hp hcomma rfl)).append ihs
  | items _ hcomma _ ih ihs => exact ih.append (ihs.cons (hp hcomma rfl))
  | value hk _ ih | declarator hk _ ih | finalizer hk _ ih | alternate hk _ ih | stray hk _ ih =>
    exact ih.cons (hp hk rfl)
  | initDecl hk _ ih => exact ih.cons (TokenKind.isPlain_of_declares hk)
  | handler hk _ _ ihp ihb => exact (ihp.cons (hp hk rfl)).append ihb
  -- Statements
  | declaration hk _ he ih => exact (ih.cons (TokenKind.isPlain_of_declares hk)).snoc (hp he rfl)
  | expression _ he ih => exact ih.snoc (hp he rfl)
  | «return» hk _ he ih | throw hk _ he ih => exact (ih.cons (hp hk rfl)).snoc (hp he rfl)
  | «if» hk _ _ _ _ iht ihs iha => exact ((iht.cons (hp hk rfl)).append ihs).append iha
  | «while» hk _ _ iht ihs => exact (iht.cons (hp hk rfl)).append ihs
  | @«for» k l i d t e u r s is ts us ss hk hl _ hd _ he _ hr _ ihi iht ihu ihs =>
    rw [show k :: l :: is ++ d :: ts ++ e :: us ++ r :: ss =
      k :: ((l :: (is ++ d :: ts ++ e :: us) ++ [r]) ++ ss) by simp]
    have hin := (ihi.append (iht.cons (hp hd rfl))).append (ihu.cons (hp he rfl))
    exact ((Balanced.enclosed (ho hl rfl) hin (hc hr rfl)).append ihs).cons (hp hk rfl)
  | @forOf k l d n o p r s ts ss hk hl hd hn hof _ hr _ ihp ihs =>
    rw [show k :: l :: d :: n :: o :: ts ++ r :: ss =
      k :: ((l :: (d :: n :: o :: ts) ++ [r]) ++ ss) by simp]
    have hin := ((ihp.cons (hp hof rfl)).cons (hp hn rfl)).cons (TokenKind.isPlain_of_declares hd)
    exact ((Balanced.enclosed (ho hl rfl) hin (hc hr rfl)).append ihs).cons (hp hk rfl)
  | functionDecl hk hn _ _ ihp ihb =>
    exact ((ihp.cons (hp hn rfl)).cons (hp hk rfl)).append ihb
  | «break» hk he | «continue» hk he => exact (Balanced.atom (hp he rfl)).cons (hp hk rfl)
  | «try» hk _ _ _ ihb ihh ihf => exact ((ihb.cons (hp hk rfl)).append ihh).append ihf

end AutoAwait
