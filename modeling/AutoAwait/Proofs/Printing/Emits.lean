import AutoAwait.Proofs.Printing.Reading
import AutoAwait.Proofs.Token.Steps

/-!
# What the terminator step emits for printed pieces

A statement about pieces says what is emitted for them and which state comes after them, whatever
the tokens are that they are read as. It is proved piece by piece, from left to right.

* `Doc.Emits` is such a statement, with one rule for each kind of token: `Emits.plain`,
  `Emits.parens`, `Emits.header`, `Emits.braces` and so on;
* `Layout.Ready` says of a state that pieces can be read in it as an expression, `Layout.After` what
  is known of the state after an expression, `Layout.Done` of that after a statement.
-/

namespace AutoAwait

namespace Layout

variable {s s' : Layout} {t : Token} {k : TokenKind} {b : Bracket} {d e : Doc} {P : Prop}

/-! ## Before and after an expression -/

/-- Can an expression that is printed as `d` be read here? A brace would open an object, and
`function` would not start a declaration. -/
structure Ready (s : Layout) (d : Doc) : Prop extends s.Fresh where
  block : s.opensBlock → ¬ [Piece.word "\x7b"] <+: d
  decl : s.atStart → ¬ [Piece.word "function"] <+: d

/-- What is known of the state `s'` after an expression that was read in the state `s`: if a statement
can start there, then `P` holds. -/
structure After (s : Layout) (P : Prop) (s' : Layout) : Prop extends s'.Fresh where
  opened : s'.opened = s.opened
  start : s'.atStart → P

/-- What is known of the state `s'` after a statement that was read in the state `s`. -/
structure Done (s s' : Layout) : Prop extends s'.Fresh where
  opened : s'.opened = s.opened
  atStart : s'.atStart
  closed : s'.canEnd → s'.closedBlock

namespace Ready

theorem left (h : s.Ready (d ++ e)) : s.Ready d :=
  ⟨h.toFresh, fun hb hd => h.block hb (hd.trans (List.prefix_append d e)),
    fun hs hd => h.decl hs (hd.trans (List.prefix_append d e))⟩

theorem of_opensBlock (hs : s.Fresh) (hb : s.opensBlock = false) (d : Doc) : s.Ready d := by
  have ha : s.atStart = false := by
    unfold opensBlock at hb
    rw [Bool.or_eq_false_iff, Bool.or_eq_false_iff] at hb
    exact hb.1.1
  exact ⟨hs, by simp [hb], by simp [ha]⟩

/-- After a token that opens nothing. -/
theorem past (hs : s.Fresh) (ht : t.kind = k) (hq : k.isQuiet) (hb : k.opensBlock = false)
    (d : Doc) : (s.past t).Ready d := by
  refine of_opensBlock (hs.past (by rwa [ht])) ?_ d
  have he : k ≠ .keyword .else := by
    rintro rfl
    cases hb
  rw [opensBlock]
  change (t.kind == .keyword .else || false || t.kind.opensBlock) = false
  rw [ht, hb, beq_eq_false_iff_ne.2 he]
  rfl

/-- After a token that opens a bracket other than a block's. -/
theorem inside (hn : s.newline = none) (ht : t.kind = k)
    (hk : k.isQuiet ∧ k ≠ .name ∧ k.opensBlock = false) (hb : b ≠ .block) (d : Doc) :
    (s.inside b t).Ready d := by
  refine of_opensBlock (.inside hn (by rw [ht]; exact hk.1) (by rw [ht]; exact hk.2.1)) ?_ d
  rw [opensBlock]
  change (b == .block || false || t.kind.opensBlock) = false
  rw [ht, hk.2.2, beq_eq_false_iff_ne.2 hb]
  rfl

end Ready

namespace After

theorem imp {Q : Prop} (h : s.After P s') (hi : P → Q) : s.After Q s' :=
  { h with start := fun hs => hi (h.start hs) }

theorem trans {u : Layout} (h : s'.opened = s.opened) (hu : s'.After P u) : s.After P u :=
  { hu with opened := hu.opened.trans h }

theorem of_past {u : Layout} (hu : (s.past t).After P u) : s.After P u := { hu with }

/-- After a name that stands after a dot. -/
theorem attr (hn : s.newline = none) (hd : s.prev = some .dot) (ht : t.kind = .name) :
    s.After P (s.past t) where
  toFresh := .of_prev hn (congrArg some ht) rfl fun _ => by
    change s.prev.any _ = _
    rw [hd]
    rfl
  opened := rfl
  start h := by
    change (t.kind == .keyword .else) = true at h
    rw [ht] at h
    cases h

theorem outside (hn : s'.newline = none) (ho : s'.opened = b :: s.opened) (ht : t.kind = k)
    (hk : k.isQuiet ∧ k ≠ .name) : s.After P (s'.outside t) where
  toFresh := .outside hn (by rw [ht]; exact hk.1) (by rw [ht]; exact hk.2)
  opened := congrArg List.tail ho
  start := nofun

end After

namespace Done

theorem after (h : s.Done s') (hp : P) : s.After P s' := ⟨h.toFresh, h.opened, fun _ => hp⟩

theorem trans {u : Layout} (h : s'.opened = s.opened) (hu : s'.Done u) : s.Done u :=
  { hu with opened := hu.opened.trans h }

theorem of_past {u : Layout} (hu : (s.past t).Done u) : s.Done u := { hu with }

/-- Where a statement has just ended. -/
theorem self (h : s.Done s') : s'.Done s' := { h with opened := rfl }

theorem terminate (hn : s.newline = none) : s.Done s.terminate where
  toFresh := .terminate hn
  opened := rfl
  atStart := rfl
  closed := nofun

theorem pastBlock (hn : s'.newline = none) (ho : s'.opened = b :: s.opened) (ht : t.kind = .rbrace) :
    s.Done (s'.pastBlock t) where
  toFresh := .pastBlock hn (by rw [ht]; rfl) (by rw [ht]; rintro ⟨⟩)
  opened := congrArg List.tail ho
  atStart := rfl
  closed _ := rfl

end Done

end Layout

namespace Doc

variable {d e : Doc} {s s' : Layout} {Q R : List Token → Layout → Prop} {k : TokenKind} {w : String}

/-- Whatever the tokens are that the pieces are read as, `Q` holds of what is emitted for them and of
the state after them. -/
def Emits (d : Doc) (s : Layout) (Q : List Token → Layout → Prop) : Prop :=
  ∀ ts, Tokens d ts → Q (s.run ts).1 (s.run ts).2

namespace Emits

theorem imp (h : Emits d s R) (hi : ∀ us s', R us s' → Q us s') : Emits d s Q :=
  fun ts hts => hi _ _ (h ts hts)

theorem nil (h : Q [] s) : Emits [] s Q := by
  intro ts hts
  cases hts
  exact h

theorem space (h : Emits d s Q) : Emits (.space :: d) s Q := by
  intro ts hts
  cases hts with
  | space hts => exact h ts hts

theorem append (hd : Emits d s R)
    (he : ∀ us s', R us s' → Emits e s' fun vs s'' => Q (us ++ vs) s'') : Emits (d ++ e) s Q := by
  intro ts hts
  obtain ⟨us, vs, rfl, hus, hvs⟩ := hts.split
  rw [Layout.run_append]
  exact he _ _ (hd us hus) vs hvs

theorem word (hw : IsToken k w)
    (h : ∀ t : Token, t.kind = k → t.text = w → ∃ us s', s.step t = (us, s') ∧
      Emits d s' fun vs s'' => Q (us ++ vs) s'') : Emits (.word w :: d) s Q := by
  intro ts hts
  cases hts with
  | word ht hts =>
    obtain ⟨us, s', hs, he⟩ := h _ (ht.unique hw) rfl
    rw [Layout.run, hs]
    exact he _ hts

/-! ### Tokens that are no brackets -/

/-- A token that is emitted as it is, perhaps the word `function` or a name after it. -/
theorem plain (hn : s.newline = none) (hd : s.prev ≠ some .dot) (hw : IsToken k w) (hk : k.isSimple)
    (hf : k = .keyword .function → s.atStart = false)
    (h : ∀ t : Token, t.kind = k → t.text = w → Emits d (s.past t) fun us s' => Q (t :: us) s') :
    Emits (.word w :: d) s Q := by
  refine word hw fun t ht htext => ⟨[t], s.past t, ?_, h t ht htext⟩
  have hr : s.rekind t = t := by
    have hb : t.kind ≠ .lbrace := by
      rw [ht]
      rintro rfl
      cases hk
    have hfun : ¬ (t.kind = .keyword .function ∧ s.atStart) := by
      rintro ⟨hfun, ha⟩
      rw [hf (ht.symm.trans hfun)] at ha
      cases ha
    simp [Layout.rekind, hd, hb, hfun]
  have hstep := Layout.step_past (t := t) hn ?_ (by rw [hr, ht]; exact hk)
  · rwa [hr] at hstep
  · rw [ht]
    constructor <;> rintro rfl <;> cases hk

/-- A name after a dot. -/
theorem attr (hn : s.newline = none) (hd : s.prev = some .dot)
    (hw : IsToken .name w ∨ ∃ k, IsToken (.keyword k) w)
    (h : ∀ t : Token, t.kind = .name → t.text = w →
      Emits d (s.past t) fun us s' => Q (t :: us) s') : Emits (.word w :: d) s Q := by
  rcases hw with hw | ⟨k, hw⟩
  · refine word hw fun t ht htext => ⟨[t], s.past t, ?_, h t ht htext⟩
    have hr : s.rekind t = t :=
      Layout.rekind_eq (by rw [ht]; rfl) (by rw [ht]; rintro ⟨⟩)
    have hstep := Layout.step_past (t := t) hn (by rw [ht]; constructor <;> rintro ⟨⟩)
      (by rw [hr, ht]; rfl)
    rwa [hr] at hstep
  · refine word hw fun t ht htext => ⟨[{ t with kind := .name }], s.past { t with kind := .name }, ?_,
      h { t with kind := .name } rfl htext⟩
    have hr : s.rekind t = { t with kind := .name } := if_pos ⟨hd, by rw [ht]; rfl⟩
    have hstep := Layout.step_past (t := t) hn (by rw [ht]; constructor <;> rintro ⟨⟩)
      (by rw [hr]; rfl)
    rwa [hr] at hstep

/-- A `function` that starts a declaration. -/
theorem functionDecl (hs : s.Fresh) (ha : s.atStart)
    (h : ∀ t : Token, t.kind = .functionDecl →
      Emits d (s.past t) fun us s' => Q (t :: us) s') : Emits (.word "function" :: d) s Q := by
  refine word (isToken_keyword .function) fun t ht htext =>
    ⟨[{ t with kind := .functionDecl }], s.past { t with kind := .functionDecl }, ?_,
      h { t with kind := .functionDecl } rfl⟩
  have hr : s.rekind t = { t with kind := .functionDecl } := by
    simp [Layout.rekind, hs.dot, ht, ha]
  have hstep := Layout.step_past (t := t) hs.newline (by rw [ht]; constructor <;> rintro ⟨⟩)
    (by rw [hr]; rfl)
  rwa [hr] at hstep

/-- A semicolon in a header. -/
theorem semicolon (hs : s.Fresh) (hp : s.inParens)
    (h : ∀ t : Token, t.kind = .semicolon → Emits d (s.emit t) fun us s' => Q (t :: us) s') :
    Emits (.word ";" :: d) s Q :=
  word (isToken_firm (s := (";", .semicolon)) (by decide)) fun t ht _ =>
    ⟨[t], s.emit t, Layout.step_semicolon hs.newline ht hp, h t ht⟩

/-- The end of a statement. -/
theorem terminator (hs : s.Fresh) (hp : s.inParens = false)
    (h : ∀ t : Token, t.kind = .terminator → Q [t] s.terminate) : Emits [.word ";"] s Q :=
  word (isToken_firm (s := (";", .semicolon)) (by decide)) fun t ht _ =>
    ⟨[Layout.terminatorAt t], s.terminate, Layout.step_terminator hs.newline ht hp,
      .nil (h _ rfl)⟩

/-! ### Brackets -/

/-- Something in parentheses that are no header's. -/
theorem parens (hs : s.Fresh)
    (h : ∀ l : Token, l.kind = .lparen → Emits d (s.inside .paren l) fun us s' =>
      s'.newline = none ∧ s'.opened = .paren :: s.opened ∧
        ∀ r : Token, r.kind = .rparen → Q (l :: us ++ [r]) (s'.outside r)) :
    Emits d.parens s Q := by
  refine word (isToken_firm (s := ("(", .lparen)) (by decide)) fun l hl _ =>
    ⟨[l], s.inside .paren l, by rw [Layout.step_lparen hs.newline hl, hs.header]; rfl, ?_⟩
  refine (h l hl).append fun us s' hs' => ?_
  refine word (isToken_firm (s := (")", .rparen)) (by decide)) fun r hr _ =>
    ⟨[r], s'.outside r, Layout.step_close hs'.1 (.inl hr) ?_, .nil (by simpa using hs'.2.2 r hr)⟩
  rw [hs'.2.1]
  rintro ⟨⟩

/-- A header. -/
theorem header (hn : s.newline = none) (hh : s.opensHeader)
    (h : ∀ l : Token, l.kind = .lparen → Emits d (s.inside .header l) fun us s' =>
      s'.newline = none ∧ s'.opened = .header :: s.opened ∧
        ∀ r : Token, r.kind = .rparen → Q (l :: us ++ [r]) (s'.pastHeader r)) :
    Emits d.parens s Q := by
  refine word (isToken_firm (s := ("(", .lparen)) (by decide)) fun l hl _ =>
    ⟨[l], s.inside .header l, by rw [Layout.step_lparen hn hl, hh]; rfl, ?_⟩
  refine (h l hl).append fun us s' hs' => ?_
  refine word (isToken_firm (s := (")", .rparen)) (by decide)) fun r hr _ =>
    ⟨[r], s'.pastHeader r, Layout.step_closeHeader hs'.1 hr ?_, .nil (by simpa using hs'.2.2 r hr)⟩
  rw [hs'.2.1]
  rfl

/-- Something in square brackets. -/
theorem brackets (hn : s.newline = none)
    (h : ∀ l : Token, l.kind = .lbracket → Emits d (s.inside .square l) fun us s' =>
      s'.newline = none ∧ s'.opened = .square :: s.opened ∧
        ∀ r : Token, r.kind = .rbracket → Q (l :: us ++ [r]) (s'.outside r)) :
    Emits (.word "[" :: d ++ [.word "]"]) s Q := by
  refine word (isToken_firm (s := ("[", .lbracket)) (by decide)) fun l hl _ =>
    ⟨[l], s.inside .square l, Layout.step_lbracket hn hl, ?_⟩
  refine (h l hl).append fun us s' hs' => ?_
  refine word (isToken_firm (s := ("]", .rbracket)) (by decide)) fun r hr _ =>
    ⟨[r], s'.outside r, Layout.step_close hs'.1 (.inr hr) ?_, .nil (by simpa using hs'.2.2 r hr)⟩
  rw [hs'.2.1]
  rintro ⟨⟩

/-- An object. -/
theorem object (hn : s.newline = none) (hb : s.opensBlock = false)
    (h : ∀ l : Token, l.kind = .lbrace → Emits d (s.inside .object l) fun us s' =>
      s'.newline = none ∧ s'.opened = .object :: s.opened ∧
        ∀ r : Token, r.kind = .rbrace → Q (l :: us ++ [r]) (s'.outside r)) :
    Emits (.word "\x7b" :: d ++ [.word "\x7d"]) s Q := by
  refine word (isToken_firm (s := ("\x7b", .lbrace)) (by decide)) fun l hl _ =>
    ⟨[l], s.inside .object l, Layout.step_lbrace hn hl hb, ?_⟩
  refine (h l hl).append fun us s' hs' => ?_
  refine word (isToken_firm (s := ("\x7d", .rbrace)) (by decide)) fun r hr _ =>
    ⟨[r], s'.outside r, Layout.step_rbrace hs'.1 hr ?_, .nil (by simpa using hs'.2.2 r hr)⟩
  rw [hs'.2.1]
  rintro ⟨⟩

/-- The brace that opens a block. -/
theorem openBlock (hn : s.newline = none) (hb : s.opensBlock)
    (h : ∀ l : Token, l.kind = .blockOpen →
      Emits d (s.inside .block l) fun us s' => Q (l :: us) s') : Emits (.word "\x7b" :: d) s Q :=
  word (isToken_firm (s := ("\x7b", .lbrace)) (by decide)) fun l hl _ =>
    ⟨[{ l with kind := .blockOpen }], s.inside .block { l with kind := .blockOpen },
      Layout.step_blockOpen hn hl hb, h { l with kind := .blockOpen } rfl⟩

/-- The brace that closes an empty block. -/
theorem closeEmpty {bs : List Bracket} (hn : s.newline = none) (ho : s.opened = .block :: bs)
    (hc : s.canEnd = false) (h : ∀ r : Token, r.kind = .rbrace → Q [r] (s.pastBlock r)) :
    Emits [.word "\x7d"] s Q :=
  word (isToken_firm (s := ("\x7d", .rbrace)) (by decide)) fun r hr _ =>
    ⟨[r], s.pastBlock r, Layout.step_closeBlock hn hr (by rw [ho]; rfl) hc, .nil (h r hr)⟩

/-! ### Newlines -/

/-- A line: at the newline before it a terminator may be emitted. -/
theorem line {depth : Nat} (hn : s.newline = none) (hw : IsToken k w)
    (hk : k ≠ .newline ∧ k ≠ .semicolon)
    (h : ∀ us u, Strays us → (u = s ∨ u = s.terminate) →
      Emits (.word w :: d) u fun vs s' => Q (us ++ vs) s') :
    Emits (.newline depth :: .word w :: d) s Q := by
  intro ts hts
  cases hts with
  | newline hnl hts =>
    obtain ⟨_⟩ | ⟨ht, hts'⟩ := id hts
    rw [Layout.run_newline hn hnl (by rw [ht.unique hw]; exact hk)]
    split
    · exact h [_] _ (.inr ⟨_, rfl, rfl⟩) (.inr rfl) _ hts
    · exact h [] _ (.inl rfl) (.inl rfl) _ hts

/-- An `else` on a new line goes on with the statement before it. -/
theorem elseLine {depth : Nat} (hn : s.newline = none) (hc : s.canEnd → s.closedBlock)
    (h : Emits (.word "else" :: d) s Q) : Emits (.newline depth :: .word "else" :: d) s Q := by
  intro ts hts
  cases hts with
  | newline hnl hts =>
    generalize hw : "else" = w at hts h
    cases hts with
    | @word _ t ts ht hts' =>
      have hk : t.kind = .keyword .else := ht.unique (hw ▸ isToken_keyword .else)
      rw [Layout.run_newline hn hnl (by rw [hk]; constructor <;> rintro ⟨⟩), if_neg]
      · exact h _ (.word ht hts')
      · rw [Bool.and_eq_true]
        rintro ⟨hne, hb⟩
        have hcan : s.canEnd := (Bool.and_eq_true_iff.1 hne).1
        rw [Layout.beginsStatement, hk, hc hcan] at hb
        cases hb

/-- The brace that closes a block, on a line of its own. -/
theorem closeBlock {depth : Nat} {bs : List Bracket} (hn : s.newline = none)
    (ho : s.opened = .block :: bs)
    (h : ∀ us (u : Layout) (r : Token), Strays us → u.newline = none → u.opened = .block :: bs →
      r.kind = .rbrace → Q (us ++ [r]) (u.pastBlock r)) : Emits [.newline depth, .word "\x7d"] s Q := by
  have hb : IsToken .rbrace "\x7d" := isToken_firm (s := ("\x7d", .rbrace)) (by decide)
  intro ts hts
  cases hts with
  | newline hnl hts =>
    generalize hw : "\x7d" = w at hts
    cases hts with
    | @word _ r ts hr hts =>
      have hk : r.kind = .rbrace := hr.unique (hw ▸ hb)
      cases hts
      rw [Layout.run_newline hn hnl (by rw [hk]; constructor <;> rintro ⟨⟩)]
      split
      · rw [Layout.run, Layout.step_closeBlock (s := s.terminate) hn hk (by exact congrArg _ ho) rfl]
        exact h [_] _ r (.inr ⟨_, rfl, rfl⟩) hn ho hk
      · -- where the newline does not count no statement can end
        rename_i he
        have hc : s.canEnd = false := by
          rw [Layout.newlineEnds, Layout.beginsStatement, hk, ho] at he
          simpa [TokenKind.continuesLine, TokenKind.followsBlock] using he
        rw [Layout.run, Layout.step_closeBlock hn hk (by rw [ho]; rfl) hc]
        exact h [] _ r (.inl rfl) hn ho hk

end Emits

end Doc

end AutoAwait
