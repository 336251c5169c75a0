import AutoAwait.Proofs.Printing.Emits
import AutoAwait.Proofs.Printing.Readable
import AutoAwait.Proofs.Printing.Spelled

/-!
# Printed expressions are spelled by their tokens

For each form of expression: if the tokens of what is printed for its parts spell the parts, then
those of what is printed for the whole spell the whole.

* `Layout.Inner` are the states in which any expression can be read;
* `Doc.Reads` is about pieces that are read in such a state, `Node.ReadsAt` about an expression,
  which can also begin a statement;
* `Doc.Reads.commas` and `Node.ReadsAt.atLeast` are about lists and about parentheses.
-/

namespace AutoAwait

open Node

namespace TokenKind

/-- Is a token of this kind emitted as it is, and can any expression be read after it? -/
def isInner (k : TokenKind) : Bool := k.isSimple && k.isQuiet && !k.opensBlock

variable {k : TokenKind}

theorem isInner_of_isConstant (h : k.isConstant) : k.isInner := by
  cases k with
  | keyword w => cases w <;> first | rfl | cases h
  | _ => cases h

theorem isInner_of_declares (h : k.declares) : k.isInner := by
  cases k with
  | keyword w => cases w <;> first | rfl | cases h
  | _ => cases h

theorem isInner_of_isUnaryOperator (h : Grammar.isUnaryOperator k) : k.isInner := by
  cases k with
  | keyword w => cases w <;> first | rfl | cases h
  | _ => first | rfl | cases h

theorem isInner_iff : k.isInner ↔ k.isSimple ∧ k.isQuiet ∧ k.opensBlock = false := by
  rw [isInner, Bool.and_eq_true, Bool.and_eq_true, Bool.not_eq_true', and_assoc]

theorem isSimple_of_isInner (h : k.isInner) : k.isSimple := (isInner_iff.1 h).1

theorem isInner_of_operatorLevel {l : Nat} (h : k.operatorLevel? = some l) : k.isInner := by
  cases k <;> first | rfl | cases h

theorem isInner_of_assigns (h : k.assigns) : k.isInner := by
  cases k <;> first | rfl | cases h

end TokenKind

/-! ## Where any expression can be read -/

namespace Layout

variable {s s' : Layout} {t : Token} {k : TokenKind} {b : Bracket} {P : Prop}

/-- Can any expression be read here? -/
def Inner (s : Layout) : Prop := ∀ d, s.Ready d

namespace Inner

theorem fresh (h : s.Inner) : s.Fresh := (h []).toFresh

theorem atStart (h : s.Inner) : s.atStart = false :=
  Bool.eq_false_iff.2 fun hs => (h [.word "function"]).decl hs (List.prefix_refl _)

theorem past (hs : s.Fresh) (ht : t.kind = k) (hk : k.isInner) : (s.past t).Inner :=
  Ready.past hs ht (TokenKind.isInner_iff.1 hk).2.1 (TokenKind.isInner_iff.1 hk).2.2

theorem inside (hn : s.newline = none) (ht : t.kind = k)
    (hk : k.isQuiet ∧ k ≠ .name ∧ k.opensBlock = false) (hb : b ≠ .block) : (s.inside b t).Inner :=
  Ready.inside hn ht hk hb

theorem after (h : s.Inner) : s.After P s where
  toFresh := h.fresh
  opened := rfl
  start hs := by
    rw [h.atStart] at hs
    cases hs

end Inner

theorem Ready.not_opensBlock {d : Doc} (h : s.Ready (.word "\x7b" :: d)) : s.opensBlock = false :=
  Bool.eq_false_iff.2 fun hb => h.block hb (List.prefix_append [_] d)

theorem Ready.not_atStart {d : Doc} (h : s.Ready (.word "function" :: d)) : s.atStart = false :=
  Bool.eq_false_iff.2 fun hs => h.decl hs (List.prefix_append [_] d)

end Layout

namespace Doc

variable {d e l r : Doc} {s s' : Layout} {k : TokenKind} {w op : String} {P P' : Prop}
  {Q Q' R : List Token → Prop}

/-! ## Tokens that any expression can follow -/

theorem Emits.inner {Q : List Token → Layout → Prop} (hs : s.Fresh) (hw : IsToken k w)
    (hk : k.isInner) (h : ∀ t : Token, t.kind = k → t.text = w → (s.past t).Inner →
      Emits d (s.past t) fun us s' => Q (t :: us) s') : Emits (.word w :: d) s Q := by
  refine .plain hs.newline hs.dot hw (TokenKind.isSimple_of_isInner hk) ?_ fun t ht htext =>
    h t ht htext (.past hs ht hk)
  rintro rfl
  cases hk

/-! ## Pieces where any expression can be read -/

/-- Wherever any expression can be read, `Q` holds of what is emitted for the pieces; and if a
statement could start after them, then `P` holds. -/
def Reads (d : Doc) (P : Prop) (Q : List Token → Prop) : Prop :=
  ∀ s : Layout, s.Inner → Emits d s fun us s' => Q us ∧ s.After P s'

namespace Reads

theorem imp (h : Reads d P Q) (hp : P → P') (hq : ∀ us, Q us → Q' us) : Reads d P' Q' :=
  fun s hs => (h s hs).imp fun us _ hu => ⟨hq us hu.1, hu.2.imp hp⟩

/-- One token. -/
theorem token (hw : IsToken k w) (hk : k.isInner)
    (h : ∀ t : Token, t.kind = k → t.text = w → Q [t]) : Reads [.word w] P Q :=
  fun _ hs => .inner hs.fresh hw hk fun t ht htext hi => .nil ⟨h t ht htext, hi.after.of_past⟩

end Reads

variable {α : Type} {form : α → Form} {tree : α → Except ParseError Node} {ns : List Node}
  {f : Node → Doc}

/-- Pieces in parentheses that are no header's. -/
theorem Emits.inParens (hs : s.Fresh) (h : Reads d P Q)
    (hq : ∀ l us r, l.kind = .lparen → Q us → r.kind = .rparen → R (l :: us ++ [r])) :
    Emits d.parens s fun us s' => R us ∧ s.After P' s' :=
  .parens hs fun l hl => (h _ (.inside hs.newline hl (by decide) (by decide))).imp fun us s' hu =>
    ⟨hu.2.newline, hu.2.opened, fun r hr => ⟨hq l us r hl hu.1 hr,
      .outside hu.2.newline hu.2.opened hr (by decide)⟩⟩

/-- An operator between pieces. -/
theorem Emits.infixed (ho : IsToken k op) (hk : k.isInner)
    (hl : Emits l s fun us s' => Q us ∧ s.After P s') (hr : Reads r P' Q')
    (hq : ∀ us t vs, Q us → t.kind = k → t.text = op → Q' vs → R (us ++ t :: vs)) :
    Emits (infixed op l r) s fun us s' => R us ∧ s.After P' s' := by
  unfold Node.infixed
  rw [List.append_assoc]
  refine hl.append fun us s' hu => .space <| .inner hu.2.toFresh ho hk fun t ht htext hi => .space ?_
  exact (hr _ hi).imp fun vs s'' hv => ⟨hq us t vs hu.1 ht htext hv.1, .trans hu.2.opened hv.2.of_past⟩

namespace Reads

theorem infixed (ho : IsToken k op) (hk : k.isInner) (hl : Reads l P Q) (hr : Reads r P' Q')
    (hq : ∀ us t vs, Q us → t.kind = k → t.text = op → Q' vs → R (us ++ t :: vs)) :
    Reads (infixed op l r) P' R :=
  fun s hs => .infixed ho hk (hl s hs) hr hq

/-- Things with commas between them. -/
theorem commas (hne : ns ≠ []) (h : ∀ n ∈ ns, Reads (f n) P (SpelledAs form tree n)) :
    Reads (commas (ns.map f)) P (SpelledAll .commas form tree ns) := by
  induction ns with
  | nil => exact absurd rfl hne
  | cons n ns ih =>
    obtain ⟨hn, h⟩ := List.forall_mem_cons.1 h
    cases ns with
    | nil => exact hn.imp id fun us => spelledAll_single
    | cons m ns =>
      have hd : Doc.commas ((n :: m :: ns).map f) =
          f n ++ (.word "," :: .space :: Doc.commas ((m :: ns).map f)) := by
        simp [Doc.commas, separate]
      rw [hd]
      intro s hs
      refine (hn s hs).append fun us s' hu => ?_
      refine .inner hu.2.toFresh (isToken_firm (s := (",", .comma)) (by decide)) rfl
        fun t ht _ hi => .space ?_
      exact (ih (List.cons_ne_nil _ _) h _ hi).imp fun vs s'' hv =>
        ⟨spelledAll_cons hu.1 ht hv.1, .trans hu.2.opened hv.2.of_past⟩

theorem list (h : ∀ n ∈ ns, Reads (f n) P (SpelledAs form tree n)) :
    Reads (Doc.commas (ns.map f)) P (SpelledAll .list form tree ns) := by
  cases ns with
  | nil => exact fun s hs => .nil ⟨spelledAll_nil, hs.after⟩
  | cons n ns => exact (commas (List.cons_ne_nil _ _) h).imp id fun us => spelledAll_list

end Reads

end Doc

/-! ## Expressions -/

namespace Node

open Doc

variable [CharNames]
variable {n m o a b c e : Node} {ns as ps : List Node} {d : Doc} {s : Layout} {least level : Nat}
  {k : TokenKind} {op w : String} {loc loc' : Position} {type type' : Option ShellType}

/-- Wherever the pieces can stand as an expression, they are read as one that binds as tightly as
`least` and gives the tree. -/
def ReadsAt (least : Nat) (n : Node) (d : Doc) : Prop :=
  ∀ s : Layout, s.Ready d → Emits d s fun us s' => n.SpelledAt least us ∧ s.After n.hasBraces s'

/-- Is what is printed for an expression read as the expression? -/
def ReadsBack (level : Nat) (n : Node) : Prop := n.ReadsAt n.precedence (n.expr level)

omit [CharNames] in
theorem precedence_le (n : Node) : 1 ≤ n.precedence ∧ n.precedence ≤ 12 := by
  have ho : ∀ op, 1 ≤ operatorPrecedence op ∧ operatorPrecedence op ≤ 12 := by
    intro op
    unfold operatorPrecedence
    repeat' split
    all_goals decide
  unfold precedence
  split <;> first | exact ho _ | decide

namespace ReadsAt

theorem reads (h : n.ReadsAt least d) : Reads d n.hasBraces (n.SpelledAt least) :=
  fun s hs => h s (hs d)

theorem lift {l : Nat} (h : n.ReadsAt l d) (hl : 1 ≤ least) (hm : least ≤ l) : n.ReadsAt least d :=
  fun s hs => (h s hs).imp fun _ _ hu => ⟨hu.1.lift hl hm, hu.2⟩

theorem parens (h : n.ReadsAt least d) (hl : 1 ≤ least) : n.ReadsAt 12 d.parens :=
  fun _ hs => .inParens hs.toFresh (h.lift (Nat.le_refl 1) hl).reads fun _ _ _ hl hu hr =>
    hu.group hl hr

/-- An expression, in parentheses if it binds too loosely. -/
theorem atLeast (h : n.ReadsAt n.precedence d) (hl : 1 ≤ least ∧ least ≤ 12) :
    n.ReadsAt least (n.atLeast least d) := by
  unfold Node.atLeast
  split
  · exact (h.parens n.precedence_le.1).lift hl.1 hl.2
  · exact h.lift hl.1 (by omega)

/-- What is accessed or called. -/
theorem operand (h : n.ReadsAt n.precedence d) : n.ReadsAt 11 (n.operand d) := by
  have ha : n.ReadsAt 11 (n.atLeast memberPrecedence d) := h.atLeast (by decide)
  unfold Node.operand
  split
  · exact (ha.parens (by decide)).lift (by decide) (by decide)
  · exact ha

end ReadsAt

/-! ### Parts of expressions -/

theorem reads_items (h : ∀ e ∈ ns, e.ReadsBack level) :
    Reads (Doc.commas (items level ns)) True (SpelledAll .list (.phrase 1) Phrase.toNode ns) := by
  rw [items_eq]
  refine .list fun e he => ?_
  have he : e.ReadsAt 1 (e.atLeast assignmentPrecedence (e.expr level)) :=
    ReadsAt.atLeast (h e he) (by decide)
  exact he.reads.imp (fun _ => trivial) fun us hu => hu.phrase

/-- The arguments of a call. -/
theorem emits_arguments (hs : s.Fresh) (h : ∀ e ∈ ns, e.ReadsBack level) :
    Emits (Doc.commas (items level ns)).parens s fun us s' =>
      SpelledAll .parenthesised (.phrase 1) Phrase.toNode ns us ∧ s.After False s' :=
  .inParens hs (reads_items h) fun _ _ _ hl hu hr => spelledAll_parens hl hu hr

theorem spelledAs_of_name {t : Token} (h : Fits .name n) (ht : t.kind = .name)
    (htext : t.text = n.nameText) : SpelledAs .name Token.nameNode n [t] := by
  cases h with
  | name h =>
    change t.text = _ at htext
    subst htext
    exact spelledAs_name ht

theorem reads_name {P : Prop} (h : Fits .name n) :
    Reads [.word n.nameText] P (SpelledAs .name Token.nameNode n) :=
  .token h.isToken_nameText rfl fun _ => spelledAs_of_name h

/-! ### Expressions that are one token -/

theorem ReadsBack.token (hw : IsToken k w) (hk : k.isInner) (hd : n.expr level = [.word w])
    (h : ∀ t : Token, t.kind = k → t.text = w → n.SpelledAt n.precedence [t]) :
    ReadsBack level n := by
  intro s hs
  rw [hd]
  refine .inner hs.toFresh hw hk fun t ht htext hi => .nil ⟨h t ht htext, hi.after.of_past⟩

theorem ReadsBack.name (h : Fits .name n) : ReadsBack level n := by
  cases h with
  | name h =>
    refine .token h rfl (by simp only [expr]) fun t ht htext => ?_
    subst htext
    exact .name ht

theorem ReadsBack.number {v : LiteralValue} {raw : String} (h : IsToken .number raw)
    (hv : ∀ p, Token.toNumber ⟨.number, raw, p⟩ = .ok (.untyped p (.literal v raw))) :
    ReadsBack level ⟨loc, type, .literal v raw⟩ := by
  refine .token h rfl (by simp only [expr]) fun t ht htext => ?_
  subst htext
  exact .number ht hv

theorem ReadsBack.text {raw : String} (h : IsToken .string raw) :
    ReadsBack level ⟨loc, type, .literal (.text (StringLiteral.value raw)) raw⟩ := by
  refine .token h rfl (by simp only [expr]) fun t ht htext => ?_
  subst htext
  exact .text ht

theorem ReadsBack.constant {v : LiteralValue} {raw : String} {w : Keyword}
    (hk : (TokenKind.keyword w).isConstant)
    (hv : ∀ text p, Token.toConstant ⟨.keyword w, text, p⟩ = .untyped p (.literal v raw)) :
    ReadsBack level ⟨loc, type, .literal v raw⟩ := by
  obtain rfl := eq_spelling_of_constant hk hv
  exact .token (isToken_keyword w) (TokenKind.isInner_of_isConstant hk) (by simp only [expr])
    fun t ht _ => .constant hk ht hv

theorem ReadsBack.this : ReadsBack level ⟨loc, type, .this⟩ :=
  .token (isToken_keyword .this) rfl (by simp only [expr]; rfl) fun _ ht _ => .this ht

/-! ### Accesses and calls -/

theorem ReadsBack.array (h : ∀ e ∈ ns, e.ReadsBack level) :
    ReadsBack level ⟨loc, type, .array ns⟩ := by
  intro s hs
  simp only [expr]
  refine .brackets hs.newline fun l hl => ?_
  refine (reads_items h _ (.inside hs.newline hl (by decide) (by decide))).imp fun us s' hu =>
    ⟨hu.2.newline, hu.2.opened, fun r hr => ⟨.array hl hu.1 hr, ?_⟩⟩
  exact .outside hu.2.newline hu.2.opened hr (by decide)

theorem emits_attr (hs : s.newline = none) (hd : s.prev = some .dot) (h : Fits .attr n) :
    Emits (n.expr level) s fun us s' =>
      (∃ t loc type, us = [t] ∧ t.kind = .name ∧ n = ⟨loc, type, .identifier t.text⟩) ∧
        s.After False s' := by
  cases h with
  | @attr loc type _ h =>
    simp only [expr]
    refine .attr hs hd h fun t ht htext => .nil ⟨⟨t, loc, type, rfl, ht, by rw [htext]⟩, ?_⟩
    exact .attr hs hd ht

/-- Something before a dot and a name. -/
theorem emits_member {Q R : List Token → Prop} {P : Prop} (ho : Emits d s fun us s' => Q us ∧ s.After P s')
    (hp : Fits .attr m) (hq : ∀ us d t loc type, Q us → d.kind = .dot → t.kind = .name →
      m = ⟨loc, type, .identifier t.text⟩ → R (us ++ [d, t])) :
    Emits (d ++ .word "." :: m.expr level) s fun us s' => R us ∧ s.After False s' := by
  refine ho.append fun us s' hu => ?_
  refine .plain hu.2.newline hu.2.dot (isToken_firm (s := (".", .dot)) (by decide)) rfl (by simp)
    fun d hd _ => ?_
  refine (emits_attr (s := s'.past d) hu.2.newline (congrArg some hd) hp).imp fun vs s'' hv => ?_
  obtain ⟨⟨t, loc, type, rfl, ht, hm⟩, ha⟩ := hv
  exact ⟨hq us d t loc type hu.1 hd ht hm, .trans hu.2.opened ha.of_past⟩

theorem ReadsBack.member (ho : o.ReadsBack level) (hp : Fits .attr m) :
    ReadsBack level ⟨loc, type, .member o m false⟩ := by
  intro s hs
  simp only [expr] at hs ⊢
  refine (emits_member (ReadsAt.operand ho s hs.left) hp ?_).imp fun us s' hu =>
    ⟨hu.1, hu.2.imp False.elim⟩
  rintro us d t loc type hu hd ht rfl
  exact hu.member hd ht

theorem ReadsBack.index (ho : o.ReadsBack level) (hp : n.ReadsBack level) :
    ReadsBack level ⟨loc, type, .member o n true⟩ := by
  intro s hs
  simp only [expr] at hs ⊢
  rw [List.append_assoc] at hs ⊢
  refine (ReadsAt.operand ho s hs.left).append fun us s' hu => ?_
  refine .brackets hu.2.newline fun l hl => ?_
  refine (ReadsAt.reads hp _ (.inside hu.2.newline hl (by decide) (by decide))).imp fun vs u hv =>
    ⟨hv.2.newline, hv.2.opened, fun r hr => ⟨?_, ?_⟩⟩
  · have hk : SpelledAt ⟨loc, type, .member o n true⟩ 11 _ :=
      hu.1.index hl (hv.1.lift (Nat.le_refl 1) n.precedence_le.1) hr
    rw [List.append_assoc] at hk
    exact hk
  · exact .trans hu.2.opened (.outside hv.2.newline hv.2.opened hr (by decide))

theorem ReadsBack.call (hc : c.ReadsBack level) (ha : ∀ a ∈ as, a.ReadsBack level) :
    ReadsBack level ⟨loc, type, .call c as⟩ := by
  intro s hs
  simp only [expr] at hs ⊢
  refine (ReadsAt.operand hc s hs.left).append fun us s' hu => ?_
  exact (emits_arguments hu.2.toFresh ha).imp fun vs u hv =>
    ⟨hu.1.call hv.1, .trans hu.2.opened (hv.2.imp False.elim)⟩

/-! ### What `new` applies to -/

/-- Is what is printed for a name, or for names with dots between them, read as such? -/
def ReadsPath (level : Nat) (n : Node) : Prop :=
  ∀ s : Layout, s.Fresh → Emits (n.expr level) s fun us s' => n.SpelledPath us ∧ s.After False s'

theorem ReadsPath.name (h : Fits .name n) : ReadsPath level n := by
  cases h with
  | name h =>
    intro s hs
    simp only [expr]
    refine .inner hs h rfl fun t ht htext hi => .nil ⟨?_, hi.after.of_past⟩
    subst htext
    exact .name ht

/-- Names with dots between them need no parentheses. -/
theorem path_precedence (h : Fits .path n) : memberPrecedence ≤ n.precedence ∧
    n.kind ≠ .function ∧ n.isNumber = false := by
  cases h with
  | pathName h =>
    cases h
    exact ⟨show 11 ≤ 12 by decide, show NodeKind.identifier ≠ .function by decide, rfl⟩
  | pathMember => exact ⟨Nat.le_refl _, show NodeKind.member ≠ .function by decide, rfl⟩

theorem ReadsPath.member (hf : Fits .path o) (ho : o.ReadsPath level) (hp : Fits .attr m) :
    ReadsPath level ⟨loc, type, .member o m false⟩ := by
  intro s hs
  have hprec := path_precedence hf
  have hd : o.operand (o.expr level) = o.expr level := by
    simp only [operand, atLeast, if_neg (Nat.not_lt.2 hprec.1), hprec.2, or_self, Bool.false_eq_true,
      if_false]
  simp only [expr, hd]
  refine emits_member (ho s hs) hp ?_
  rintro us d t loc type hu hd ht rfl
  exact hu.member hd ht

theorem ReadsBack.construct (hf : Fits .path c) (hc : c.ReadsPath level)
    (ha : ∀ a ∈ as, a.ReadsBack level) : ReadsBack level ⟨loc, type, .construct c as⟩ := by
  intro s hs
  simp only [expr, atLeast, if_neg (Nat.not_lt.2 (path_precedence hf).1), List.cons_append]
  refine .inner hs.toFresh (isToken_keyword .new) rfl fun k hk _ hi => .space ?_
  refine (hc _ hi.fresh).append fun us s' hu => ?_
  refine (emits_arguments hu.2.toFresh ha).imp fun vs u hv => ⟨?_, ?_⟩
  · exact (SpelledAt.construct hk hu.1 hv.1).lift (l := 11) (by decide) (by decide)
  · exact .of_past (.trans hu.2.opened (hv.2.imp False.elim))

/-! ### Operators -/

theorem ReadsBack.await (h : a.ReadsBack level) : ReadsBack level ⟨loc, type, .await a⟩ := by
  intro s hs
  simp only [expr]
  refine .inner hs.toFresh (isToken_keyword .await) rfl fun t ht _ hi => .space ?_
  have ha : a.ReadsAt 9 (a.atLeast unaryPrecedence (a.expr level)) := ReadsAt.atLeast h (by decide)
  refine (ha.reads _ hi).imp fun us s' hu => ⟨hu.1.unary (by rw [ht]; rfl) fun n hn => ?_, ?_⟩
  · rw [unaryShape, ht, Shape.map, Shape.map, hn]
  · exact .of_past (hu.2.imp (hasBraces_of_part (by simp [Shape.parts, Shape.kids])))

theorem ReadsBack.assignment (ho : IsToken k op) (hk : k.assigns) (hl : a.ReadsBack level)
    (ht : a.kind.isTarget) (hr : b.ReadsBack level) :
    ReadsBack level ⟨loc, type, .assignment op a b⟩ := by
  intro s hs
  have ha : a.ReadsAt 11 (a.atLeast memberPrecedence (a.expr level)) :=
    ReadsAt.atLeast hl (by decide)
  have hb : b.ReadsAt 1 (b.atLeast assignmentPrecedence (b.expr level)) :=
    ReadsAt.atLeast hr (by decide)
  simp only [expr] at hs ⊢
  refine (Emits.infixed ho (TokenKind.isInner_of_assigns hk) (ha s hs.left.left) hb.reads ?_).imp
    fun us s' hu => ⟨hu.1, hu.2.imp (hasBraces_of_part (by simp [Shape.parts, Shape.kids]))⟩
  rintro us t vs hu hk' rfl hv
  exact hu.assignment ht (by rw [hk']; exact hk) hv

omit [CharNames] in
/-- The precedence of an operator is the level at which it is read. -/
theorem operatorPrecedence_of_isToken {l : Nat} (ho : IsToken k op) (hk : k.operatorLevel? = some l) :
    operatorPrecedence op = l := by
  have hs : ∀ s ∈ symbols, s.2.operatorLevel?.all fun l =>
      operatorPrecedence (String.ofList s.1) == l := by decide
  have hw : k.isWord = false := by cases k <;> first | rfl | cases hk
  have h := hs _ (ho.mem_symbols hw)
  rw [hk, String.ofList_toList] at h
  simpa using h

/-- A binary operator, its operands in parentheses if they bind more loosely than `la` and `lb`. -/
theorem ReadsBack.operator {l : Nat} {s : Shape Node} (la lb : Nat) (ho : IsToken k op)
    (hk : k.operatorLevel? = some l) (ha : a.ReadsBack level) (hb : b.ReadsBack level)
    (hla : l ≤ la ∧ la ≤ 12) (hlb : l + 1 ≤ lb ∧ lb ≤ 12)
    (hprec : precedence ⟨loc, type, s⟩ = l) (hpart : b ∈ s.parts)
    (hd : expr level ⟨loc, type, s⟩ =
      infixed op (a.atLeast la (a.expr level)) (b.atLeast lb (b.expr level)))
    (hs : ∀ t n m, t.kind = k → t.text = op → n.bare = a.bare → m.bare = b.bare →
      (binaryShape t n m).map bare = s.map bare) : ReadsBack level ⟨loc, type, s⟩ := by
  have hl : 1 ≤ l := by
    cases k <;> cases hk <;> decide
  have ha : a.ReadsAt l (a.atLeast la (a.expr level)) :=
    (ReadsAt.atLeast ha ⟨hl.trans hla.1, hla.2⟩).lift hl hla.1
  have hb : b.ReadsAt (l + 1) (b.atLeast lb (b.expr level)) :=
    (ReadsAt.atLeast hb ⟨by omega, hlb.2⟩).lift (by omega) hlb.1
  intro u hu
  rw [hprec]
  rw [hd] at hu ⊢
  refine (Emits.infixed ho (TokenKind.isInner_of_operatorLevel hk) (ha u hu.left.left) hb.reads ?_).imp
    fun us s' h => ⟨h.1, h.2.imp (hasBraces_of_part hpart)⟩
  intro us t vs hu ht htext hv
  exact hu.binary (by rw [ht]; exact hk) hv fun n m hn hm => hs t n m ht htext hn hm

theorem ReadsBack.binary {l : Nat} (ho : IsToken k op) (hk : k.operatorLevel? = some l)
    (hn : k ≠ .logicAnd ∧ k ≠ .logicOr) (ha : a.ReadsBack level) (hb : b.ReadsBack level) :
    ReadsBack level ⟨loc, type, .binary op a b⟩ := by
  have hp := operatorPrecedence_of_isToken ho hk
  refine .operator (operatorPrecedence op) (operatorPrecedence op + 1) ho hk ha hb ?_ ?_ hp
    (by simp [Shape.parts, Shape.kids]) (by simp only [expr]) ?_
  · exact ⟨hp.ge, (by cases k <;> cases hk <;> omega)⟩
  · exact ⟨by omega, (by cases k <;> cases hk <;> omega)⟩
  · rintro t n m ht rfl hn' hm
    have hs : binaryShape t n m = .binary t.text n m := by
      unfold binaryShape
      rw [ht]
      split
      · exact absurd rfl hn.1
      · exact absurd rfl hn.2
      · rfl
    rw [hs, Shape.map, Shape.map, hn', hm]

theorem ReadsBack.logical (ho : IsToken k op) (hk : k = .logicAnd ∨ k = .logicOr)
    (ha : a.ReadsBack level) (hb : b.ReadsBack level) :
    ReadsBack level ⟨loc, type, .logical op a b⟩ := by
  obtain ⟨l, hl, hle⟩ : ∃ l, k.operatorLevel? = some l ∧ l + 1 ≤ 12 := by
    rcases hk with rfl | rfl <;> exact ⟨_, rfl, by decide⟩
  have hp := operatorPrecedence_of_isToken ho hl
  have hprimary : primaryPrecedence = 12 := rfl
  refine .operator (if mixesNullish op a then primaryPrecedence else operatorPrecedence op)
    (if mixesNullish op b then primaryPrecedence else operatorPrecedence op + 1) ho hl ha hb ?_ ?_ hp
    (by simp [Shape.parts, Shape.kids]) (by simp only [expr]) ?_
  · split <;> omega
  · split <;> omega
  · rintro t n m ht rfl hn hm
    have hs : binaryShape t n m = .logical t.text n m := by
      unfold binaryShape
      rcases hk with rfl | rfl <;> rw [ht]
    rw [hs, Shape.map, Shape.map, hn, hm]

theorem ReadsBack.unary (ho : IsToken k op) (hk : Grammar.isUnaryOperator k)
    (hn : k ≠ .keyword .await) (h : a.ReadsBack level) :
    ReadsBack level ⟨loc, type, .unary op a⟩ := by
  have ha : a.ReadsAt 9 (a.atLeast unaryPrecedence (a.expr level)) := ReadsAt.atLeast h (by decide)
  intro s hs
  have hinner := TokenKind.isInner_of_isUnaryOperator hk
  have hrest : ∀ t : Token, t.kind = k → t.text = op → (s.past t).Inner →
      Emits (a.atLeast unaryPrecedence (a.expr level)) (s.past t) fun us s' =>
        SpelledAt ⟨loc, type, .unary op a⟩ 9 (t :: us) ∧
          s.After (hasBraces ⟨loc, type, .unary op a⟩) s' := by
    rintro t ht rfl hi
    refine (ha.reads _ hi).imp fun us s' hu => ⟨hu.1.unary (by rw [ht]; exact hk) fun n hn' => ?_, ?_⟩
    · have hs : unaryShape t n = .unary t.text n := by
        unfold unaryShape
        rw [ht]
        split
        · exact absurd rfl hn
        · rfl
      rw [hs, Shape.map, Shape.map, hn']
    · exact .of_past (hu.2.imp (hasBraces_of_part (by simp [Shape.parts, Shape.kids])))
  simp only [expr, prefixed]
  split
  · exact .inner hs.toFresh ho hinner fun t ht htext hi => .space (hrest t ht htext hi)
  · exact .inner hs.toFresh ho hinner hrest

theorem ReadsBack.update (ho : IsToken .incDec op) (h : a.ReadsBack level) :
    ReadsBack level ⟨loc, type, .update op a false⟩ := by
  intro s hs
  have ha : a.ReadsAt 11 (a.atLeast memberPrecedence (a.expr level)) :=
    ReadsAt.atLeast h (by decide)
  simp only [expr] at hs ⊢
  refine (ha s hs.left).append fun us s' hu => ?_
  refine .inner hu.2.toFresh ho rfl fun t ht htext hi => .nil ⟨?_, ?_⟩
  · subst htext
    exact hu.1.update ht
  · exact .trans hu.2.opened hi.after.of_past

theorem ReadsBack.conditional (ht : n.ReadsBack level) (hc : c.ReadsBack level)
    (ha : a.ReadsBack level) : ReadsBack level ⟨loc, type, .conditional n c a⟩ := by
  intro s hs
  have ht : n.ReadsAt 3 (n.atLeast (conditionalPrecedence + 1) (n.expr level)) :=
    ReadsAt.atLeast ht (by decide)
  have hc : c.ReadsAt 1 (c.atLeast assignmentPrecedence (c.expr level)) :=
    ReadsAt.atLeast hc (by decide)
  have ha : a.ReadsAt 1 (a.atLeast assignmentPrecedence (a.expr level)) :=
    ReadsAt.atLeast ha (by decide)
  simp only [expr] at hs ⊢
  have hbranches : Reads _ _ fun us => ∃ vs d ws, us = vs ++ d :: ws ∧ c.SpelledAt 1 vs ∧
      d.kind = .colon ∧ a.SpelledAt 1 ws :=
    .infixed (isToken_symbol (by decide) : IsToken .colon ":") rfl hc.reads ha.reads
      fun vs d ws hv hd _ hw => ⟨vs, d, ws, rfl, hv, hd, hw⟩
  refine (Emits.infixed (isToken_symbol (k := .question) (by decide)) rfl (ht s hs.left.left) hbranches
    ?_).imp fun us s' hu => ⟨hu.1, hu.2.imp (hasBraces_of_part (by simp [Shape.parts, Shape.kids]))⟩
  rintro us q _ hu hq - ⟨vs, d, ws, rfl, hv, hd, hw⟩
  exact hu.conditional hq hv hd hw

/-! ### Objects -/

/-- Is what is printed for an entry of an object read as the entry? -/
def ReadsEntry (level : Nat) (n : Node) : Prop :=
  Reads (n.entry level) True (SpelledAs .entry ObjectEntry.toNode n)

theorem reads_key {P : Prop} (h : Fits .key n) : Reads (n.expr level) P fun us =>
    ∃ t, us = [t] ∧ (t.kind = .name ∨ t.kind.isLiteralKey) ∧ Gives bare t.toKey n := by
  cases h with
  | nameKey h =>
    cases h with
    | name h =>
      simp only [expr]
      refine .token h rfl fun t ht htext => ⟨t, rfl, .inl ht, ?_⟩
      subst htext
      rw [Token.toKey, ht]
      exact .pure (bare_toIdentifier t)
  | textKey h =>
    simp only [expr]
    refine .token h rfl fun t ht htext => ⟨t, rfl, .inr (by rw [ht]; rfl), ?_⟩
    subst htext
    rw [Token.toKey, ht]
    exact .pure (bare_untyped rfl)
  | numberKey h hv =>
    simp only [expr]
    refine .token h rfl fun t ht htext => ⟨t, rfl, .inr (by rw [ht]; rfl), ?_⟩
    subst htext
    obtain ⟨k, text, p⟩ := t
    obtain rfl : k = .number := ht
    exact ⟨_, hv p, bare_untyped rfl⟩

theorem ReadsEntry.shorthand {kloc vloc : Position} {ktype vtype : Option ShellType}
    (h : IsToken .name w) : ReadsEntry level
      ⟨loc, type, .property ⟨kloc, ktype, .identifier w⟩ ⟨vloc, vtype, .identifier w⟩ true⟩ := by
  unfold ReadsEntry
  simp only [entry, expr]
  refine .token h rfl fun t ht htext => ?_
  subst htext
  exact spelledAs_shorthand ht

theorem ReadsEntry.pair (hk : Fits .key n) (hv : a.ReadsBack level) :
    ReadsEntry level ⟨loc, type, .property n a false⟩ := by
  intro s hs
  have hv : a.ReadsAt 1 (a.atLeast assignmentPrecedence (a.expr level)) :=
    ReadsAt.atLeast hv (by decide)
  simp only [entry]
  refine (reads_key (P := True) hk s hs).append fun us s' hu => ?_
  obtain ⟨⟨t, rfl, ht, hkey⟩, ha⟩ := hu
  refine .inner ha.toFresh (isToken_firm (s := (":", .colon)) (by decide)) rfl fun d hd _ hi => ?_
  refine .space ((hv.reads _ hi).imp fun vs u hu => ⟨spelledAs_pair ht hkey hd hu.1, ?_⟩)
  exact .trans ha.opened (hu.2.imp fun _ => trivial).of_past

theorem ReadsBack.object (h : ∀ e ∈ ns, e.ReadsEntry level) :
    ReadsBack level ⟨loc, type, .object ns⟩ := by
  have hentries : Reads (Doc.commas (entries level ns)) True
      (SpelledAll .list .entry ObjectEntry.toNode ns) := by
    rw [entries_eq]
    exact .list h
  obtain ⟨d, hd, hr⟩ : ∃ d, expr level ⟨loc, type, .object ns⟩ = .word "\x7b" :: d ++ [.word "\x7d"] ∧
      Reads d True (SpelledAll .list .entry ObjectEntry.toNode ns) := by
    cases ns with
    | nil => exact ⟨[], by simp only [expr, List.cons_append, List.nil_append], hentries⟩
    | cons n ns =>
      refine ⟨.space :: (Doc.commas (entries level (n :: ns)) ++ [.space]), by simp [expr, entries], ?_⟩
      exact fun s hs => .space ((hentries s hs).append fun us s' hu => .space (.nil (by simpa using hu)))
  intro s hs
  rw [hd] at hs ⊢
  refine .object hs.newline hs.not_opensBlock fun l hl => ?_
  refine (hr _ (.inside hs.newline hl (by decide) (by decide))).imp fun us s' hu =>
    ⟨hu.2.newline, hu.2.opened, fun r hr => ⟨.object hl hu.1 hr, ?_⟩⟩
  exact .outside hu.2.newline hu.2.opened hr (by decide)

end Node

end AutoAwait
