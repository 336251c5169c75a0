import AutoAwait.Proofs.Token.Layout

/-!
# The terminator step, token by token

What is emitted for a token, and what is remembered after it, wherever there is no newline pending:

* `Layout.past` is the state after a token that is no bracket, `Layout.inside` after one that opens
  a bracket, `Layout.outside`, `Layout.pastHeader` and `Layout.pastBlock` after one that closes one;
* `Layout.Fresh` holds of a state in which nothing that stands before a token decides what it is;
* `Layout.run_newline` is about a newline before another token.
-/

namespace AutoAwait

namespace TokenKind

/-- Does a token of this kind neither open nor close anything? -/
def isSimple : TokenKind → Bool
  | .lparen | .lbracket | .lbrace | .blockOpen | .rparen | .rbracket | .rbrace | .newline
  | .semicolon => false
  | _ => true

/-- May a token of this kind be followed by any other without changing what that is? -/
def isQuiet (k : TokenKind) : Bool := k != .dot && !k.startsHeader

end TokenKind

namespace Layout

variable {s : Layout} {t : Token} {b : Bracket}

/-! ## The states after a token -/

/-- After a token that opens and closes nothing. -/
def past (s : Layout) (t : Token) : Layout :=
  { s.emit t with atStart := t.kind == .keyword .else }

/-- After a token that opens a bracket. -/
def inside (s : Layout) (b : Bracket) (t : Token) : Layout :=
  { s.emit t with opened := b :: s.opened, atStart := b == .block }

/-- After a token that closes a bracket other than a header's or a block's. -/
def outside (s : Layout) (t : Token) : Layout :=
  { s.emit t with opened := s.opened.tail, atStart := false }

/-- After the token that closes a header. -/
def pastHeader (s : Layout) (t : Token) : Layout :=
  { s.emit t with opened := s.opened.tail, afterHeader := true, canEnd := false }

/-- After the token that closes a block. -/
def pastBlock (s : Layout) (t : Token) : Layout :=
  { s.emit t with opened := s.opened.tail, closedBlock := true, atStart := true }

/-- Is no newline pending, and does what stands before a token not decide what the token is? -/
structure Fresh (s : Layout) : Prop where
  newline : s.newline = none
  dot : s.prev ≠ some .dot
  header : s.opensHeader = false

namespace Fresh

theorem start : start.Fresh := ⟨rfl, nofun, rfl⟩

theorem not_startsFunction (h : s.Fresh) : s.prev.any (·.startsFunction) = false := by
  have hh := h.header
  unfold opensHeader at hh
  cases hp : s.prev with
  | none => rfl
  | some k =>
    rw [hp] at hh
    cases k with
    | keyword k => cases k <;> first | rfl | cases hh
    | _ => first | rfl | cases hh

theorem of_prev {k : TokenKind} (hn : s.newline = none) (hp : s.prev = some k) (hk : k.isQuiet)
    (hname : k = .name → s.beforePrev.any (·.startsFunction) = false) : s.Fresh := by
  unfold TokenKind.isQuiet at hk
  rw [Bool.and_eq_true, bne_iff_ne, Bool.not_eq_true'] at hk
  refine ⟨hn, ?_, ?_⟩
  · rw [hp]
    exact fun h => hk.1 (Option.some.inj h)
  · rw [opensHeader, hp, Option.any_some, hk.2, Bool.false_or]
    by_cases h : k = .name
    · rw [hname h, Bool.and_false]
    · rw [beq_eq_false_iff_ne.2 fun he => h (Option.some.inj he), Bool.false_and]

theorem past (h : s.Fresh) (hk : t.kind.isQuiet) : (s.past t).Fresh :=
  of_prev h.newline rfl hk fun _ => h.not_startsFunction

theorem inside (h : s.newline = none) (hk : t.kind.isQuiet) (hn : t.kind ≠ .name) :
    (s.inside b t).Fresh := of_prev h rfl hk fun h => absurd h hn

theorem outside (h : s.newline = none) (hk : t.kind.isQuiet) (hn : t.kind ≠ .name) :
    (s.outside t).Fresh := of_prev h rfl hk fun h => absurd h hn

theorem pastHeader (h : s.newline = none) (hk : t.kind.isQuiet) (hn : t.kind ≠ .name) :
    (s.pastHeader t).Fresh := of_prev h rfl hk fun h => absurd h hn

theorem pastBlock (h : s.newline = none) (hk : t.kind.isQuiet) (hn : t.kind ≠ .name) :
    (s.pastBlock t).Fresh := of_prev h rfl hk fun h => absurd h hn

theorem terminate (h : s.newline = none) : s.terminate.Fresh :=
  of_prev h rfl rfl nofun

theorem emit (h : s.newline = none) (hk : t.kind.isQuiet) (hn : t.kind ≠ .name) :
    (s.emit t).Fresh := of_prev h rfl hk fun h => absurd h hn

end Fresh

/-! ## Single tokens -/

theorem step_eq_place (hn : s.newline = none) (ht : t.kind ≠ .newline ∧ t.kind ≠ .semicolon) :
    s.step t = s.place t := by
  obtain ⟨_, _, _, _, _, _, _, _, newline⟩ := s
  cases hn
  exact step_of_ne ht.1 ht.2

theorem step_past (hn : s.newline = none) (ht : t.kind ≠ .newline ∧ t.kind ≠ .semicolon)
    (hk : (s.rekind t).kind.isSimple) : s.step t = ([s.rekind t], s.past (s.rekind t)) := by
  rw [step_eq_place hn ht, place]
  generalize s.rekind t = u at hk
  obtain ⟨k, text, loc⟩ := u
  cases k <;> first | rfl | cases hk

/-- A token that is neither a reserved word nor a brace that opens is what it is. -/
theorem step_eq_of_kind {k : TokenKind} (hn : s.newline = none) (ht : t.kind = k)
    (hk : k ≠ .newline ∧ k ≠ .semicolon ∧ k.isKeyword = false ∧ k ≠ .lbrace) :
    s.step t = s.place t ∧ s.rekind t = t :=
  ⟨step_eq_place hn (by rw [ht]; exact ⟨hk.1, hk.2.1⟩),
    rekind_eq (by rw [ht]; exact hk.2.2.1) (by rw [ht]; exact hk.2.2.2)⟩

theorem step_lparen (hn : s.newline = none) (ht : t.kind = .lparen) :
    s.step t = ([t], s.inside (if s.opensHeader then .header else .paren) t) := by
  obtain ⟨hs, hr⟩ := step_eq_of_kind hn ht (by decide)
  rw [hs, place, hr]
  simp only [ht]
  cases s.opensHeader <;> rfl

theorem step_lbracket (hn : s.newline = none) (ht : t.kind = .lbracket) :
    s.step t = ([t], s.inside .square t) := by
  obtain ⟨hs, hr⟩ := step_eq_of_kind hn ht (by decide)
  rw [hs, place, hr]
  simp only [ht]
  rfl

theorem step_lbrace (hn : s.newline = none) (ht : t.kind = .lbrace) (hb : s.opensBlock = false) :
    s.step t = ([t], s.inside .object t) := by
  have hr : s.rekind t = t := by simp [rekind, hb, ht, TokenKind.isKeyword]
  rw [step_eq_place hn (by rw [ht]; decide), place, hr]
  simp only [ht]
  rfl

theorem step_blockOpen (hn : s.newline = none) (ht : t.kind = .lbrace) (hb : s.opensBlock) :
    s.step t = ([{ t with kind := .blockOpen }], s.inside .block { t with kind := .blockOpen }) := by
  have hr : s.rekind t = { t with kind := .blockOpen } := by
    simp [rekind, hb, ht, TokenKind.isKeyword]
  rw [step_eq_place hn (by rw [ht]; decide), place, hr]
  rfl

theorem step_close (hn : s.newline = none) (ht : t.kind = .rparen ∨ t.kind = .rbracket)
    (hb : s.opened.head? ≠ some .header) : s.step t = ([t], s.outside t) := by
  rcases ht with ht | ht <;> obtain ⟨hs, hr⟩ := step_eq_of_kind hn ht (by decide) <;>
    rw [hs, place, hr] <;> simp only [ht] <;> exact if_neg hb

theorem step_closeHeader (hn : s.newline = none) (ht : t.kind = .rparen)
    (hb : s.opened.head? = some .header) : s.step t = ([t], s.pastHeader t) := by
  obtain ⟨hs, hr⟩ := step_eq_of_kind hn ht (by decide)
  rw [hs, place, hr]
  simp only [ht]
  exact if_pos hb

theorem step_rbrace (hn : s.newline = none) (ht : t.kind = .rbrace)
    (hb : s.opened.head? ≠ some .block) : s.step t = ([t], s.outside t) := by
  obtain ⟨hs, hr⟩ := step_eq_of_kind hn ht (by decide)
  rw [hs, place, hr]
  simp only [ht, beq_eq_false_iff_ne.2 hb, Bool.false_and, Bool.false_eq_true, if_false]
  rfl

theorem step_closeBlock (hn : s.newline = none) (ht : t.kind = .rbrace)
    (hb : s.opened.head? = some .block) (hc : s.canEnd = false) :
    s.step t = ([t], s.pastBlock t) := by
  obtain ⟨hs, hr⟩ := step_eq_of_kind hn ht (by decide)
  rw [hs, place, hr]
  simp only [ht, hb, hc, Bool.and_false, Bool.false_eq_true, if_false, BEq.rfl]
  rfl

theorem step_semicolon (hn : s.newline = none) (ht : t.kind = .semicolon) (hp : s.inParens) :
    s.step t = ([t], s.emit t) := by
  obtain ⟨_, _, _, _, _, _, _, _, newline⟩ := s
  cases hn
  rw [step, ht]
  exact if_pos hp

theorem step_terminator (hn : s.newline = none) (ht : t.kind = .semicolon)
    (hp : s.inParens = false) : s.step t = ([terminatorAt t], s.terminate) := by
  obtain ⟨_, _, _, _, _, _, _, _, newline⟩ := s
  cases hn
  rw [step, ht]
  exact if_neg (by simpa using hp)

/-! ## Newlines -/

/-- A newline before a token either does nothing or ends the statement. -/
theorem run_newline {n : Token} (hs : s.newline = none) (hn : n.kind = .newline)
    (ht : t.kind ≠ .newline ∧ t.kind ≠ .semicolon) (ts : List Token) :
    s.run (n :: t :: ts) =
      if s.newlineEnds && s.beginsStatement t.kind then
        (terminatorAt n :: (s.terminate.run (t :: ts)).1, (s.terminate.run (t :: ts)).2)
      else s.run (t :: ts) := by
  have hstep : s.step n = ([], if s.newlineEnds then { s with newline := some n } else s) := by
    rw [step, hn]
  rw [run, hstep]
  cases he : s.newlineEnds with
  | false => rfl
  | true =>
    have ht' := step_of_ne (s := { s with newline := some n }) ht.1 ht.2
    have hb : beginsStatement { s with newline := some n } t.kind = s.beginsStatement t.kind := rfl
    have hfresh : { s with newline := none } = s := by
      obtain ⟨_, _, _, _, _, _, _, _, newline⟩ := s
      cases hs
      rfl
    simp only [hb, hfresh] at ht'
    simp only [if_true, Bool.true_and, List.nil_append]
    rw [run, ht', run, run, step_eq_place (s := s.terminate) hs ht, step_eq_place hs ht]
    cases s.beginsStatement t.kind <;> rfl

end Layout

end AutoAwait
