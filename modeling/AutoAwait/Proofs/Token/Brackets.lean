import AutoAwait.Proofs.Grammar.Balance
import AutoAwait.Proofs.Token.Steps

/-!
# The terminator step inside brackets

The step looks at the innermost open bracket only. So it does not matter to an expression what it
stands in, as long as no newline and no semicolon stands directly in it.

* `Layout.under` puts open brackets around a state, `Layout.step_under` says that the step does not
  notice;
* `Layout.Entry` holds of a state where an expression begins, in parentheses or after an arrow, and
  `Layout.Entry.alike_next` says that after its first token all such states are alike;
* `Layout.run_parens` and `Layout.run_header` are about tokens in parentheses.
-/

namespace AutoAwait

namespace TokenKind

variable {k : TokenKind}

/-- Is this the kind of a token whose meaning does not depend on the bracket that it stands in? -/
def isFree : TokenKind → Bool
  | .newline | .semicolon | .rparen | .rbracket | .rbrace => false
  | _ => true

theorem isFree_of_isSimple (h : k.isSimple) : k.isFree := by
  cases k <;> first | rfl | cases h

theorem isFree_of_isOpening (h : k.isOpening) : k.isFree := by
  cases k <;> first | rfl | cases h

theorem isFree_of_startsStatement (h : k.startsStatement) : k.isFree := by
  cases k <;> first | rfl | cases h

theorem ne_of_isFree (h : k.isFree) : k ≠ .newline ∧ k ≠ .semicolon := by
  constructor <;> rintro rfl <;> cases h

theorem depth?_of_isSimple (h : k.isSimple) (n : Nat) : k.depth? n = some n := by
  cases k <;> first | rfl | cases h

end TokenKind

namespace Layout

variable {φ : Position → Position} {s s' : Layout} {t : Token} {ts : List Token}

/-! ## Brackets that are opened and closed -/

/-- What does not tell names from reserved words nor braces from braces sees no new kind. -/
theorem apply_rekind {α : Type} {f : TokenKind → α} (hname : ∀ k, f (.keyword k) = f .name)
    (hbrace : f .lbrace = f .blockOpen) (hdecl : f (.keyword .function) = f .functionDecl)
    (s : Layout) (t : Token) : f (s.rekind t).kind = f t.kind := by
  unfold rekind
  split
  · rename_i h
    obtain ⟨k, text, loc⟩ := t
    cases k with
    | keyword k => exact (hname k).symm
    | _ => cases h.2
  · split
    · rename_i h
      rw [h.1]
      exact hbrace.symm
    · split
      · rename_i h
        rw [h.1]
        exact hdecl.symm
      · rfl

theorem depth?_place (s : Layout) (t : Token) (n : Nat) :
    depth? n (s.place t).1 = t.kind.depth? n := by
  obtain ⟨us, hus, hi⟩ := s.place_emits t
  have hus' : depth? n us = some n := by
    rcases hi with rfl | ⟨rfl, -⟩ <;> rfl
  have hr : (s.rekind t).kind.depth? n = t.kind.depth? n :=
    apply_rekind (f := (·.depth? n)) (fun _ => rfl) rfl rfl s t
  rw [hus, depth?_append, hus', Option.bind_some, depth?_cons, hr]
  exact Option.bind_fun_some _

/-- The terminators that are emitted open and close nothing. -/
theorem depth?_step (s : Layout) (t : Token) (n : Nat) :
    depth? n (s.step t).1 = t.kind.depth? n := by
  by_cases hn : t.kind = .newline
  · rw [step, hn]
    rfl
  by_cases hs : t.kind = .semicolon
  · rw [step, hs]
    simp only
    split
    · rw [depth?_cons, hs]
      rfl
    · rfl
  rw [step_of_ne hn hs]
  split
  · split
    · exact depth?_place _ t n
    · exact depth?_place _ t n
  · exact depth?_place _ t n

theorem depth?_run (s : Layout) (ts : List Token) (n : Nat) :
    depth? n (s.run ts).1 = depth? n ts := by
  induction ts generalizing s n with
  | nil => rfl
  | cons t ts ih =>
    rw [run, depth?_append, depth?_step, depth?_cons]
    simp only [ih]

theorem opened_step {m : Nat} (h : t.kind.depth? s.opened.length = some m) :
    (s.step t).2.opened.length = m := step_depth ((depth?_step s t _).trans h)

theorem opened_run {m : Nat} (h : depth? s.opened.length ts = some m) :
    (s.run ts).2.opened.length = m := run_depth ((depth?_run s ts _).trans h)

/-! ## Brackets further out -/

/-- The state with the brackets `bs` open further out. -/
def under (s : Layout) (bs : List Bracket) : Layout := { s with opened := s.opened ++ bs }

variable {bs : List Bracket}

theorem place_under (bs : List Bracket) (h : s.opened = [] → t.kind.isFree) :
    (s.under bs).place t = ((s.place t).1, (s.place t).2.under bs) := by
  have hr : (s.under bs).rekind t = s.rekind t := rfl
  unfold place
  rw [hr]
  rw [← apply_rekind (f := (·.isFree)) (fun _ => rfl) rfl rfl s t] at h
  generalize s.rekind t = u at h
  obtain ⟨k, text, loc⟩ := u
  cases k with
  | rparen | rbracket | rbrace =>
    -- the bracket that is closed is not one of those further out
    obtain ⟨b, cs, hs⟩ := List.exists_cons_of_ne_nil fun hs => Bool.false_ne_true (h hs)
    have hopened : (s.under bs).opened = b :: (cs ++ bs) := by rw [under, hs]; rfl
    have hcan : (s.under bs).canEnd = s.canEnd := rfl
    simp only [hopened, hs, hcan, List.head?_cons, List.tail_cons]
    split <;> rfl
  | _ => rfl

/-- The step does not notice brackets further out, unless the token stands directly in them and could
close one of them or end a statement. -/
theorem step_under (bs : List Bracket) (h : s.opened = [] → t.kind.isFree) :
    (s.under bs).step t = ((s.step t).1, (s.step t).2.under bs) := by
  -- the innermost bracket matters to newlines and semicolons
  have hhead : t.kind.isFree = false → (s.under bs).opened.head? = s.opened.head? := by
    intro hf
    obtain ⟨b, cs, hs⟩ := List.exists_cons_of_ne_nil fun hs => Bool.false_ne_true (hf.symm.trans (h hs))
    rw [under, hs]
    rfl
  by_cases hn : t.kind = .newline
  · have hends : (s.under bs).newlineEnds = s.newlineEnds := by
      rw [newlineEnds, newlineEnds, hhead (by rw [hn]; rfl)]
      rfl
    rw [step, step, hn]
    simp only [hends]
    split <;> rfl
  by_cases hs : t.kind = .semicolon
  · have hparens : inParens { s.under bs with newline := none } =
        inParens { s with newline := none } := by
      rw [inParens, inParens]
      simp only [hhead (by rw [hs]; rfl)]
    rw [step, step, hs]
    simp only [hparens]
    split <;> rfl
  have hplace : ∀ u : Layout, u.opened = s.opened →
      (u.under bs).place t = ((u.place t).1, (u.place t).2.under bs) :=
    fun u hu => place_under bs fun hopened => h (hu.symm.trans hopened)
  have hnew : (s.under bs).newline = s.newline := rfl
  rw [step_of_ne hn hs, step_of_ne hn hs, hnew]
  cases s.newline with
  | none => exact hplace { s with newline := none } rfl
  | some n =>
    have hbegins : (s.under bs).beginsStatement t.kind = s.beginsStatement t.kind := rfl
    have hterminate : ({ s.under bs with newline := none } : Layout).terminate =
        ({ s with newline := none } : Layout).terminate.under bs := rfl
    simp only [hbegins]
    split
    · rw [hterminate, hplace ({ s with newline := none } : Layout).terminate rfl]
    · exact hplace { s with newline := none } rfl

/-- Before a parenthesis that closes no terminator is implied. -/
theorem step_rparen (s : Layout) (ht : t.kind = .rparen) : (s.step t).1 = [t] := by
  have hr : ∀ u : Layout, u.rekind t = t := fun u =>
    rekind_eq (by rw [ht]; rfl) (by rw [ht]; rintro ⟨⟩)
  have hplace : ∀ u : Layout, (u.place t).1 = [t] := by
    intro u
    obtain ⟨us, hus, rfl | ⟨-, hk⟩⟩ := u.place_emits t
    · rw [hus, hr]
      rfl
    · rw [hr, ht] at hk
      cases hk
  rw [step_of_ne (by rw [ht]; rintro ⟨⟩) (by rw [ht]; rintro ⟨⟩)]
  cases s.newline with
  | none => exact hplace _
  | some n =>
    have hb : s.beginsStatement t.kind = false := by rw [beginsStatement, ht]; rfl
    simp only [hb, Bool.false_eq_true, if_false]
    exact hplace _

/-- Outside all brackets a semicolon is a terminator. -/
theorem step_semicolon_of_opened (h : s.opened = []) (ht : t.kind = .semicolon) :
    (s.step t).1 = [terminatorAt t] := by
  rw [step, ht]
  simp [inParens, h]

/-! ## Where an expression begins -/

/-- Does an expression begin here, right after a parenthesis that opens or an arrow? -/
structure Entry (s : Layout) : Prop where
  newline : s.newline = none
  prev : s.prev = some .lparen ∨ s.prev = some .arrow
  atStart : s.atStart = false
  afterHeader : s.afterHeader = false

namespace Entry

/-- The state after the first token of an expression. -/
def next (s : Layout) (t : Token) : Layout :=
  match t.kind with
  | .lparen => s.inside .paren t
  | .lbracket => s.inside .square t
  | .lbrace => s.inside .object t
  | _ => s.past t

theorem step (h : s.Entry) (ht : t.kind.startsPhrase) (hb : t.kind = .lbrace → s.prev = some .lparen) :
    s.step t = ([t], next s t) := by
  have hheader : s.opensHeader = false := by
    rcases h.prev with hp | hp <;> rw [opensHeader, hp] <;> rfl
  by_cases hbrace : t.kind = .lbrace
  · have hblock : s.opensBlock = false := by
      rw [opensBlock, h.atStart, h.afterHeader, hb hbrace]
      rfl
    rw [step_lbrace h.newline hbrace hblock, next, hbrace]
  have hr : s.rekind t = t := by
    rcases h.prev with hp | hp <;> simp [rekind, hp, hbrace, h.atStart]
  obtain ⟨k, text, loc⟩ := t
  cases k with
  | lparen => rw [step_lparen h.newline rfl, hheader]; rfl
  | lbracket => exact step_lbracket h.newline rfl
  | lbrace => exact absurd rfl hbrace
  | name | number | string | keyword | addOp | bang =>
    rw [step_past h.newline (by constructor <;> rintro ⟨⟩) (by rw [hr]; rfl), hr]
    rfl
  | _ => cases ht

/-- In parentheses. -/
theorem inside (hn : s.newline = none) (ht : t.kind = .lparen) :
    (s.inside .paren t).Entry ∧ (s.inside .paren t).prev = some .lparen :=
  ⟨⟨hn, .inl (congrArg some ht), rfl, rfl⟩, congrArg some ht⟩

theorem alike_next (h : s.Entry) (h' : s'.Entry) (ho : s'.opened = s.opened) (t : Token) :
    Alike φ (next s t) (next s' (t.move φ)) := by
  have hbefore : s'.prev.any (·.startsFunction) = s.prev.any (·.startsFunction) := by
    rcases h.prev with hp | hp <;> rcases h'.prev with hp' | hp' <;> rw [hp, hp'] <;> rfl
  have hnew : s'.newline = s.newline.map (·.move φ) := by rw [h.newline, h'.newline]; rfl
  have hpast : Alike φ (s.past t) (s'.past (t.move φ)) :=
    { opened := ho, canEnd := rfl, atStart := rfl, afterHeader := rfl, closedBlock := rfl
      prev := rfl, beforePrev := fun _ => hbefore, last := fun _ => rfl, newline := hnew }
  have hinside : ∀ b, Alike φ (s.inside b t) (s'.inside b (t.move φ)) := fun b =>
    { hpast with opened := congrArg (b :: ·) ho, atStart := rfl }
  unfold next
  rw [Token.move_kind]
  split
  · exact hinside .paren
  · exact hinside .square
  · exact hinside .object
  · exact hpast

end Entry

/-- What is emitted for tokens in parentheses that are no header's. -/
theorem run_parens {l r : Token} (hn : s.newline = none) (hh : s.opensHeader = false)
    (hl : l.kind = .lparen) (hr : r.kind = .rparen) (ts : List Token) :
    (s.run (l :: ts ++ [r])).1 = l :: ((s.inside .paren l).run ts).1 ++ [r] := by
  have hstep : s.step l = ([l], s.inside .paren l) := by
    rw [step_lparen hn hl, hh]
    rfl
  rw [List.cons_append, run, hstep, run_append]
  simp [run, step_rparen _ hr]

/-- What is emitted for a header, if outside further brackets nothing is pending at its end. -/
theorem run_header {l r : Token} {ts : List Token} (hn : s.newline = none) (hh : s.opensHeader)
    (hl : l.kind = .lparen) (hr : r.kind = .rparen)
    (hnew : ((s.inside .header l).run ts).2.newline = none)
    (ho : ((s.inside .header l).run ts).2.opened.head? = some .header) :
    s.run (l :: ts ++ [r]) = (l :: ((s.inside .header l).run ts).1 ++ [r],
      ((s.inside .header l).run ts).2.pastHeader r) := by
  have hstep : s.step l = ([l], s.inside .header l) := by
    rw [step_lparen hn hl, hh]
    rfl
  rw [List.cons_append, run, hstep, run_append]
  simp [run, step_closeHeader hnew hr ho]

end Layout

end AutoAwait
