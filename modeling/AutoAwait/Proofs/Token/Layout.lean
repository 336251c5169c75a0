import AutoAwait.Proofs.Token.Reading
import AutoAwait.Token.Terminator

/-!
# What the terminator step remembers

* `Layout.Alike` relates two states of the step between which it cannot tell, over texts at different
  places: `Layout.run_alike`, `Layout.finish_alike`;
* `depth?` counts the brackets that are open after some tokens, and the step has as many open:
  `Layout.run_depth`;
* `Layout.isChain_of_run` says that the step puts nothing between two operators.
-/

namespace AutoAwait

/-- Is nothing emitted, or a terminator only? -/
def Strays (us : List Token) : Prop := us = [] ∨ ∃ e : Token, us = [e] ∧ e.kind = .terminator

/-! ## Counting brackets -/

/-- How many brackets are open after a token of this kind, if `n` are open before; none if it closes
one that has not been opened. -/
def TokenKind.depth? (k : TokenKind) (n : Nat) : Option Nat :=
  match k with
  | .lparen | .lbracket | .lbrace | .blockOpen => some (n + 1)
  | .rparen | .rbracket | .rbrace => if n = 0 then none else some (n - 1)
  | _ => some n

/-- How many brackets are open after some tokens, if `n` are open before. -/
def depth? : Nat → List Token → Option Nat
  | n, [] => some n
  | n, t :: ts => (t.kind.depth? n).bind fun m => depth? m ts

@[simp] theorem depth?_nil (n : Nat) : depth? n [] = some n := rfl

@[simp] theorem depth?_cons (n : Nat) (t : Token) (ts : List Token) :
    depth? n (t :: ts) = (t.kind.depth? n).bind fun m => depth? m ts := rfl

theorem depth?_append (n : Nat) (ts us : List Token) :
    depth? n (ts ++ us) = (depth? n ts).bind fun m => depth? m us := by
  induction ts generalizing n with
  | nil => rfl
  | cons t ts ih =>
    rw [List.cons_append, depth?_cons, depth?_cons, Option.bind_assoc]
    simp only [ih]

/-- What closes no bracket that was open before leaves alone any more of them. -/
theorem depth?_succ {n m : Nat} {ts : List Token} (h : depth? n ts = some m) :
    depth? (n + 1) ts = some (m + 1) := by
  induction ts generalizing n with
  | nil => exact congrArg _ (congrArg (· + 1) (Option.some.inj h))
  | cons t ts ih =>
    rw [depth?_cons] at h
    obtain ⟨k, hk, h⟩ := Option.bind_eq_some_iff.1 h
    have hsucc : t.kind.depth? (n + 1) = some (k + 1) := by
      unfold TokenKind.depth? at hk ⊢
      split at hk <;> simp_all <;> omega
    rw [depth?_cons, hsucc]
    exact ih h

namespace Layout

variable {φ : Position → Position} {s s' : Layout} {t : Token}

theorem finish_strays (s : Layout) : Strays s.finish := by
  unfold finish
  split
  · exact .inr ⟨_, rfl, rfl⟩
  · exact .inr ⟨_, rfl, rfl⟩
  · exact .inl rfl

theorem run_append (s : Layout) (ts us : List Token) : s.run (ts ++ us) =
    ((s.run ts).1 ++ ((s.run ts).2.run us).1, ((s.run ts).2.run us).2) := by
  induction ts generalizing s with
  | nil => rfl
  | cons t ts ih => simp only [List.cons_append, run, ih, List.append_assoc]

/-- What is emitted for a token that closes a parenthesis or a square bracket, and what is remembered
after it: a block can follow a header. -/
def closeBracket (s : Layout) (t : Token) : List Token × Layout :=
  if s.opened.head? = some .header then
    ([t], { s.emit t with opened := s.opened.tail, afterHeader := true, canEnd := false })
  else ([t], { s.emit t with opened := s.opened.tail, atStart := false })

/-! ## States that cannot be told apart -/

/-- The kind of a token before, if it can matter: a terminator is like the start of a text. -/
def seen (k : Option TokenKind) : Option TokenKind := if k = some .terminator then none else k

/-- Are two states alike, the second one over a text that has been moved? -/
structure Alike (φ : Position → Position) (s s' : Layout) : Prop where
  opened : s'.opened = s.opened
  canEnd : s'.canEnd = s.canEnd
  atStart : s'.atStart = s.atStart
  afterHeader : s'.afterHeader = s.afterHeader
  closedBlock : s'.closedBlock = s.closedBlock
  prev : seen s'.prev = seen s.prev
  /-- The token before the last one matters only where that is a name, which may name a function. -/
  beforePrev : s.prev = some .name →
    s'.beforePrev.any (·.startsFunction) = s.beforePrev.any (·.startsFunction)
  /-- The last token matters only where a statement can end. -/
  last : s.canEnd → s'.last = s.last.map (·.move φ)
  newline : s'.newline = s.newline.map (·.move φ)

theorem any_seen {f : TokenKind → Bool} (hf : f .terminator = false) {j k : Option TokenKind}
    (h : seen j = seen k) : j.any f = k.any f := by
  have hs : ∀ i, (seen i).any f = i.any f := by
    intro i
    unfold seen
    split
    · rename_i hi
      rw [hi]
      exact hf.symm
    · rfl
  rw [← hs j, ← hs k, h]

theorem eq_seen {i : TokenKind} (hi : i ≠ .terminator) {j k : Option TokenKind}
    (h : seen j = seen k) : j = some i ↔ k = some i := by
  have hs : ∀ l, seen l = some i ↔ l = some i := by
    intro l
    unfold seen
    split
    · rename_i hl
      rw [hl]
      simp [Ne.symm hi]
    · rfl
  rw [← hs j, ← hs k, h]

namespace Alike

theorem emit (h : Alike φ s s') (t : Token) : Alike φ (s.emit t) (s'.emit (t.move φ)) :=
  { h with
    canEnd := rfl, afterHeader := rfl, closedBlock := rfl, prev := rfl
    beforePrev := fun _ => any_seen rfl h.prev
    last := fun _ => rfl }

theorem terminate (h : Alike φ s s') : Alike φ s.terminate s'.terminate :=
  { h with
    canEnd := rfl, atStart := rfl, afterHeader := rfl, closedBlock := rfl, prev := rfl
    beforePrev := fun _ => any_seen rfl h.prev
    last := nofun }

theorem withOpened (h : Alike φ s s') {bs bs' : List Bracket} (hb : bs' = bs) :
    Alike φ { s with opened := bs } { s' with opened := bs' } := { h with opened := hb }

theorem opensHeader (h : Alike φ s s') : s'.opensHeader = s.opensHeader := by
  have hn := eq_seen (i := .name) (by decide) h.prev
  rw [Layout.opensHeader, Layout.opensHeader, any_seen (f := TokenKind.startsHeader) rfl h.prev]
  by_cases hp : s.prev = some .name
  · rw [hn.2 hp, hp, h.beforePrev hp]
  · rw [beq_eq_false_iff_ne.2 hp, beq_eq_false_iff_ne.2 fun hp' => hp (hn.1 hp')]
    rfl

theorem opensBlock (h : Alike φ s s') : s'.opensBlock = s.opensBlock := by
  rw [Layout.opensBlock, Layout.opensBlock, h.atStart, h.afterHeader,
    any_seen (f := TokenKind.opensBlock) rfl h.prev]

theorem rekind (h : Alike φ s s') (t : Token) : s'.rekind (t.move φ) = (s.rekind t).move φ := by
  simp only [Layout.rekind, eq_seen (i := .dot) (by decide) h.prev, h.opensBlock, h.atStart,
    Token.move_kind]
  split
  · rfl
  · split
    · rfl
    · split <;> rfl

theorem closeBracket (h : Alike φ s s') (t : Token) :
    (s'.closeBracket (t.move φ)).1 = (s.closeBracket t).1.map (·.move φ) ∧
      Alike φ (s.closeBracket t).2 (s'.closeBracket (t.move φ)).2 := by
  simp only [Layout.closeBracket, h.opened]
  split
  · exact ⟨rfl, { h.emit t with
      opened := rfl, afterHeader := rfl, canEnd := rfl, last := nofun }⟩
  · exact ⟨rfl, { h.emit t with opened := rfl, atStart := rfl }⟩

theorem place (h : Alike φ s s') (t : Token) :
    (s'.place (t.move φ)).1 = (s.place t).1.map (·.move φ) ∧
      Alike φ (s.place t).2 (s'.place (t.move φ)).2 := by
  unfold Layout.place
  rw [h.rekind]
  generalize s.rekind t = t
  simp only [Token.move_kind]
  split
  · simp only [h.opened, h.canEnd]
    split
    · refine ⟨rfl, ?_⟩
      exact { ((h.withOpened rfl).terminate.emit t) with closedBlock := rfl, atStart := rfl }
    · refine ⟨rfl, ?_⟩
      exact { ((h.withOpened rfl).emit t) with closedBlock := rfl, atStart := rfl }
  · exact ⟨rfl, { h.emit t with opened := congrArg (.block :: ·) h.opened, atStart := rfl }⟩
  · exact ⟨rfl, { h.emit t with opened := congrArg (.object :: ·) h.opened, atStart := rfl }⟩
  · refine ⟨rfl, { h.emit t with opened := ?_, atStart := rfl }⟩
    simp only [h.opensHeader, h.opened]
  · exact ⟨rfl, { h.emit t with opened := congrArg (.square :: ·) h.opened, atStart := rfl }⟩
  · exact h.closeBracket t
  · exact h.closeBracket t
  · exact ⟨rfl, { h.emit t with atStart := rfl }⟩

theorem newlineEnds (h : Alike φ s s') : s'.newlineEnds = s.newlineEnds := by
  rw [Layout.newlineEnds, Layout.newlineEnds, h.canEnd, h.opened]

theorem beginsStatement (h : Alike φ s s') (k : TokenKind) :
    s'.beginsStatement k = s.beginsStatement k := by
  rw [Layout.beginsStatement, Layout.beginsStatement, h.closedBlock]

theorem inParens (h : Alike φ s s') : s'.inParens = s.inParens := by
  rw [Layout.inParens, Layout.inParens, h.opened]

theorem withNewline (h : Alike φ s s') {n n' : Option Token} (hn : n' = n.map (·.move φ)) :
    Alike φ { s with newline := n } { s' with newline := n' } := { h with newline := hn }

theorem step (h : Alike φ s s') (t : Token) :
    (s'.step (t.move φ)).1 = (s.step t).1.map (·.move φ) ∧
      Alike φ (s.step t).2 (s'.step (t.move φ)).2 := by
  have hfresh : Alike φ { s with newline := none } { s' with newline := none } := h.withNewline rfl
  unfold Layout.step
  simp only [Token.move_kind]
  split
  · simp only [h.newlineEnds]
    split
    · exact ⟨rfl, h.withNewline rfl⟩
    · exact ⟨rfl, h⟩
  · simp only [hfresh.inParens]
    split
    · exact ⟨rfl, hfresh.emit t⟩
    · exact ⟨rfl, hfresh.terminate⟩
  · rw [h.newline]
    cases s.newline with
    | none => exact hfresh.place t
    | some n =>
      simp only [Option.map_some, h.beginsStatement]
      split
      · obtain ⟨ht, hs⟩ := hfresh.terminate.place t
        refine ⟨?_, hs⟩
        rw [ht]
        rfl
      · exact hfresh.place t

theorem run (h : Alike φ s s') (ts : List Token) :
    (s'.run (ts.map (·.move φ))).1 = (s.run ts).1.map (·.move φ) ∧
      Alike φ (s.run ts).2 (s'.run (ts.map (·.move φ))).2 := by
  induction ts generalizing s s' with
  | nil => exact ⟨rfl, h⟩
  | cons t ts ih =>
    obtain ⟨ht, hs⟩ := h.step t
    obtain ⟨hts, hs'⟩ := ih hs
    refine ⟨?_, hs'⟩
    simp only [List.map_cons, Layout.run, ht, hts, List.map_append]

theorem finish (h : Alike φ s s') : s'.finish = s.finish.map (·.move φ) := by
  unfold Layout.finish
  rw [h.newline, h.canEnd]
  cases s.newline with
  | some n => rfl
  | none =>
    cases hc : s.canEnd with
    | false => rfl
    | true =>
      rw [h.last hc]
      cases s.last <;> rfl

end Alike

/-- After a terminator outside all brackets the step is as at the start of a text. -/
theorem alike_start (φ : Position → Position) (h : s.opened = []) (hn : s.newline = none) :
    Alike φ start s.terminate where
  opened := h
  canEnd := rfl
  atStart := rfl
  afterHeader := rfl
  closedBlock := rfl
  prev := rfl
  beforePrev := nofun
  last := nofun
  newline := hn

/-! ## Open brackets -/

/-- A token is emitted after the terminator that it implies, if it implies one. -/
theorem place_emits (s : Layout) (t : Token) : ∃ us, (s.place t).1 = us ++ [s.rekind t] ∧
    (us = [] ∨ us = [terminatorAt (s.rekind t)] ∧ (s.rekind t).kind = .rbrace) := by
  unfold place
  generalize s.rekind t = t
  obtain ⟨k, text, loc⟩ := t
  cases k with
  | rbrace =>
    by_cases hi : (s.opened.head? == some .block && s.canEnd) = true
    · exact ⟨[terminatorAt _], by simp [hi], .inr ⟨rfl, rfl⟩⟩
    · exact ⟨[], by simp [hi], .inl rfl⟩
  | rparen | rbracket =>
    by_cases hh : s.opened.head? = some .header
    · exact ⟨[], by simp [hh], .inl rfl⟩
    · exact ⟨[], by simp [hh], .inl rfl⟩
  | _ => exact ⟨[], rfl, .inl rfl⟩

theorem place_opened (s : Layout) (t : Token) {m : Nat}
    (h : (s.rekind t).kind.depth? s.opened.length = some m) :
    (s.place t).2.opened.length = m := by
  have hclose : (if s.opened.length = 0 then none else some (s.opened.length - 1)) = some m →
      s.opened.tail.length = m := by
    intro h
    split at h
    · cases h
    · rw [List.length_tail]
      exact Option.some.inj h
  unfold place
  generalize s.rekind t = t at h
  obtain ⟨k, text, loc⟩ := t
  cases k with
  | rbrace =>
    simp only
    split <;> exact hclose h
  | rparen | rbracket =>
    simp only
    split <;> exact hclose h
  | _ => exact Option.some.inj h

theorem place_depth {m : Nat} (h : depth? s.opened.length (s.place t).1 = some m) :
    (s.place t).2.opened.length = m := by
  obtain ⟨us, hus, hi⟩ := s.place_emits t
  have hus' : depth? s.opened.length us = some s.opened.length := by
    rcases hi with rfl | ⟨rfl, -⟩ <;> rfl
  rw [hus, depth?_append, hus'] at h
  refine s.place_opened t ?_
  simpa using h

/-- A token that is neither a newline nor a semicolon is placed, after the terminator that a newline
before it stands for, if it stands for one. -/
theorem step_of_ne (hn : t.kind ≠ .newline) (hs : t.kind ≠ .semicolon) : s.step t =
    match s.newline with
    | some n =>
      if s.beginsStatement t.kind then
        (terminatorAt n :: (({ s with newline := none } : Layout).terminate.place t).1,
          (({ s with newline := none } : Layout).terminate.place t).2)
      else ({ s with newline := none } : Layout).place t
    | none => ({ s with newline := none } : Layout).place t := by
  obtain ⟨k, text, loc⟩ := t
  cases k <;> first | exact absurd rfl hn | exact absurd rfl hs | rfl

theorem step_depth {m : Nat} (h : depth? s.opened.length (s.step t).1 = some m) :
    (s.step t).2.opened.length = m := by
  by_cases hn : t.kind = .newline
  · rw [step, hn] at h ⊢
    simp only at h ⊢
    split <;> exact Option.some.inj h
  by_cases hs : t.kind = .semicolon
  · rw [step, hs] at h ⊢
    simp only at h ⊢
    split at h
    · rw [if_pos ‹_›]
      have h : some s.opened.length = some m := by simpa [hs, TokenKind.depth?] using h
      exact Option.some.inj h
    · rw [if_neg ‹_›]
      exact Option.some.inj h
  rw [step_of_ne hn hs] at h ⊢
  split at h
  · split at h
    · rw [if_pos ‹_›]
      exact place_depth (s := terminate { s with newline := none }) h
    · rw [if_neg ‹_›]
      exact place_depth (s := { s with newline := none }) h
  · exact place_depth (s := { s with newline := none }) h

theorem run_depth {m : Nat} {ts : List Token} (h : depth? s.opened.length (s.run ts).1 = some m) :
    (s.run ts).2.opened.length = m := by
  induction ts generalizing s with
  | nil => exact Option.some.inj h
  | cons t ts ih =>
    rw [run, depth?_append] at h
    obtain ⟨k, hk, h⟩ := Option.bind_eq_some_iff.1 h
    refine ih ?_
    rw [step_depth hk]
    exact h

/-! ## Operators -/

theorem rekind_eq (hk : t.kind.isKeyword = false) (hb : t.kind ≠ .lbrace) : s.rekind t = t := by
  have hf : t.kind ≠ .keyword .function := by
    intro hf
    rw [hf] at hk
    cases hk
  simp [rekind, hk, hb, hf]

theorem place_newline (s : Layout) (t : Token) : (s.place t).2.newline = s.newline := by
  unfold place
  generalize s.rekind t = t
  obtain ⟨k, text, loc⟩ := t
  cases k with
  | rbrace | rparen | rbracket =>
    simp only
    split <;> rfl
  | _ => rfl

/-- After a token that is no newline none is pending. -/
theorem newline_step {s : Layout} (ht : t.kind ≠ .newline) : (s.step t).2.newline = none := by
  by_cases hs : t.kind = .semicolon
  · rw [step, hs]
    simp only
    split <;> rfl
  rw [step_of_ne ht hs]
  split
  · split
    · rw [place_newline]
      rfl
    · rw [place_newline]
  · rw [place_newline]

theorem place_operator (s : Layout) (h : t.kind = .mulOp ∨ t.kind = .compoundAssign) :
    (s.place t).1 = [t] := by
  have hr : s.rekind t = t := by
    apply rekind_eq <;> rcases h with h | h <;> rw [h] <;> simp [TokenKind.isKeyword]
  obtain ⟨us, hus, he⟩ := s.place_emits t
  rw [hr] at hus he
  rcases he with rfl | ⟨-, hk⟩
  · exact hus
  · rcases h with h | h <;> rw [h] at hk <;> cases hk

/-- An operator is emitted as it is, and right after what was emitted before if there was no newline
between. -/
theorem step_operator (s : Layout) (h : t.kind = .mulOp ∨ t.kind = .compoundAssign) :
    ∃ us, (s.step t).1 = us ++ [t] ∧ (s.newline = none → us = []) ∧
      (s.step t).2.newline = none := by
  rw [step_of_ne (by rcases h with h | h <;> simp [h]) (by rcases h with h | h <;> simp [h])]
  split
  · rename_i n hn
    split
    · exact ⟨[terminatorAt n], by rw [place_operator _ h]; rfl, by simp [hn], place_newline _ t⟩
    · exact ⟨[], place_operator _ h, fun _ => rfl, place_newline _ t⟩
  · exact ⟨[], place_operator _ h, fun _ => rfl, place_newline _ t⟩

/-- Two operators that stand one right after the other do so in what is emitted. -/
theorem isChain_of_run {ts : List Token}
    (h : (s.run ts).1.IsChain fun t t' => ¬ t.OpensComment t') :
    ts.IsChain fun t t' => ¬ t.OpensComment t' := by
  induction ts generalizing s with
  | nil => exact .nil
  | cons t ts ih =>
    have hts := ih (List.isChain_append.1 h).2.1
    cases ts with
    | nil => exact .singleton t
    | cons t' ts =>
      refine .cons_cons (fun hc => ?_) hts
      obtain ⟨us, hus, -, hn⟩ := s.step_operator (.inl hc.1)
      obtain ⟨vs, hvs, hv, -⟩ := (s.step t).2.step_operator hc.2
      obtain rfl := hv hn
      rw [run, run, hus, hvs, List.nil_append, List.append_assoc] at h
      exact (List.isChain_cons_cons.1 (List.isChain_append.1 h).2.1).1 hc

end Layout

end AutoAwait
