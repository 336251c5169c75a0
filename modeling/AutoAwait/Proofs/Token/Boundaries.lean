import AutoAwait.Proofs.Token.Gaps
import AutoAwait.Proofs.Token.Genuine

/-!
# Where statements start

Which braces the terminator step takes for blocks and which `function`s for declarations, told
without the step's memory.

* `Emitted.atBoundary` is the rule as it is meant: a statement starts after a boundary;
* `Emitted.startsStatement` is the rule that the step follows: a semicolon in a parenthesis and a
  bracket that closes a header are passed over (`Emitted.passedOver`), so that a boundary before
  them still counts;
* `ClassifiedBy` says that the kinds of all emitted tokens follow such a rule, `kindAfter_eq_iff`
  tells where the two rules give one kind;
* `Layout.StartMarks` ties the step's memory to the emitted tokens: `Layout.StartMarks.step`;
* `classifiedBy_and_kindAfter_eq_iff` is the main statement.
-/

namespace AutoAwait

namespace Emitted

/-- Are these tokens a statement boundary: nothing yet, or a terminator, a brace that opens or has
closed a block, or `else` last? -/
def atBoundary : Emitted → Bool
  | [] => true
  | t :: us => t.kind == .terminator || t.kind == .blockOpen || t.kind == .keyword .else ||
      closed [.rbrace] .block (t :: us)

/-- Is the last token passed over when the step looks for a boundary: is it a semicolon, which is
emitted in parentheses only, or a bracket that has closed a header? -/
def passedOver : Emitted → Bool
  | [] => false
  | t :: us => t.kind == .semicolon || closed Layout.closing .header (t :: us)

/-- Does the step take these tokens for the start of a statement? -/
def startsStatement : Emitted → Bool
  | [] => true
  | t :: us => if passedOver (t :: us) then startsStatement us else atBoundary (t :: us)

/-- The kind with which a token of kind `k` is emitted, where `starts` tells whether a statement
starts, and the kinds `closers` close headers. -/
def kindAfter (starts : Emitted → Bool) (closers : List TokenKind) (us : Emitted)
    (k : TokenKind) : TokenKind :=
  if afterDot us ∧ k.isKeyword then .name
  else if k = .lbrace ∧
      (starts us || closed closers .header us || us.head?.any (·.kind.opensBlock)) then .blockOpen
  else if k = .keyword .function ∧ starts us then .functionDecl
  else k

end Emitted

open Emitted

/-- **The rule for kinds.** Every token but a newline or a semicolon is emitted, after what the gap
before it implies, with the kind that the tokens emitted so far determine. (Terminators are not read
from a text but set by the step.) -/
def ClassifiedBy (starts : Emitted → Bool) (closers : List TokenKind) : Prop :=
  ∀ (ts : List Token) (t : Token), (∀ u ∈ ts, u.kind ≠ .terminator) →
    t.kind ≠ .newline → t.kind ≠ .semicolon →
      let gap := implied Layout.closing ts (emitted ts).reverse (some t)
      emitted (ts ++ [t]) = emitted ts ++ gap ++
        [{ t with kind := kindAfter starts closers (gap ++ (emitted ts).reverse) t.kind }]

/-! ## The two rules -/

section rules
variable {us : Emitted} {t : Token} {k : TokenKind}

theorem kind_of_passedOver (h : passedOver (t :: us)) : t.kind = .semicolon ∨
    (t.kind = .rparen ∨ t.kind = .rbracket) ∧ closed Layout.closing .header (t :: us) := by
  rw [passedOver, Bool.or_eq_true, beq_iff_eq] at h
  refine h.imp_right fun hc => ⟨?_, hc⟩
  rw [closed, Bool.and_eq_true] at hc
  simpa using hc.1

/-- A token that is passed over is no boundary. -/
theorem atBoundary_of_passedOver (h : passedOver (t :: us)) : atBoundary (t :: us) = false := by
  rcases kind_of_passedOver h with h | ⟨h | h, -⟩ <;> simp [atBoundary, closed, h]

/-- A token that is passed over is neither a dot nor one of those that open blocks. -/
theorem kindAfter_of_passedOver (starts : Emitted → Bool) (h : passedOver (t :: us)) :
    kindAfter starts Layout.closing (t :: us) k =
      if k = .lbrace ∧ (starts (t :: us) || closed Layout.closing .header (t :: us)) then .blockOpen
      else if k = .keyword .function ∧ starts (t :: us) then .functionDecl
      else k := by
  have hdot : afterDot (t :: us) = false := by
    rcases kind_of_passedOver h with h | ⟨h | h, -⟩ <;> simp [afterDot, h]
  have hopens : (t :: us).head?.any (·.kind.opensBlock) = false := by
    rcases kind_of_passedOver h with h | ⟨h | h, -⟩ <;> simp [TokenKind.opensBlock, h]
  rw [kindAfter, hdot, hopens]
  simp

theorem startsStatement_eq (us : Emitted) :
    startsStatement us = (atBoundary us || passedOver us && startsStatement us.tail) := by
  cases us with
  | nil => rfl
  | cons t us =>
    rw [startsStatement]
    by_cases h : passedOver (t :: us)
    · rw [if_pos h, atBoundary_of_passedOver h, h]
      rfl
    · rw [if_neg h, Bool.eq_false_iff.2 h]
      simp

/-- The two rules give one kind, but for a brace or a `function` after a semicolon in a parenthesis
and a `function` after a bracket that closes a header, where the step still takes what comes before
for the start of a statement. -/
theorem kindAfter_eq_iff (us : Emitted) (k : TokenKind) :
    kindAfter startsStatement Layout.closing us k = kindAfter atBoundary Layout.closing us k ↔
      ¬ (startsStatement us.tail ∧
        (us.head?.any (·.kind == .semicolon) ∧ (k = .lbrace ∨ k = .keyword .function) ∨
          closed Layout.closing .header us ∧ k = .keyword .function)) := by
  cases us with
  | nil => simp [kindAfter, startsStatement, atBoundary, closed]
  | cons t us =>
    have hs := startsStatement_eq (t :: us)
    by_cases hp : passedOver (t :: us)
    · have hb := atBoundary_of_passedOver hp
      rw [hb, hp, Bool.false_or, Bool.true_and, List.tail_cons] at hs
      have hc : closed Layout.closing .header (t :: us) = !(t.kind == .semicolon) := by
        rcases kind_of_passedOver hp with h | ⟨h | h, hc⟩
        · simp [closed, h]
        · rw [hc, h]; rfl
        · rw [hc, h]; rfl
      rw [kindAfter_of_passedOver _ hp, kindAfter_of_passedOver _ hp, hs, hb, hc, List.tail_cons]
      cases startsStatement us with
      | false => simp
      | true =>
        by_cases hl : k = .lbrace <;> by_cases hf : k = .keyword .function <;>
          by_cases ht : t.kind = .semicolon <;> simp [hl, hf, ht]
    · have hb : startsStatement (t :: us) = atBoundary (t :: us) := by
        rw [hs, Bool.eq_false_iff.2 hp]
        simp
      have hk : kindAfter startsStatement Layout.closing (t :: us) k =
          kindAfter atBoundary Layout.closing (t :: us) k := by
        rw [kindAfter, kindAfter, hb]
      refine iff_of_true hk ?_
      rintro ⟨-, ⟨h, -⟩ | ⟨h, -⟩⟩
      · exact hp (by simp_all [passedOver])
      · exact hp (by rw [passedOver, h, Bool.or_true])

end rules

/-! ## The step's memory -/

namespace Layout

variable {us : Emitted} {ts : List Token} {s : Layout} {t : Token}

/-- What is remembered of the start of a statement after some tokens have been emitted. -/
structure StartMarks (us : Emitted) (s : Layout) : Prop where
  atStart : s.atStart = startsStatement us
  afterHeader : s.afterHeader = closed closing .header us

namespace StartMarks

theorem terminate (t : Token) : StartMarks (terminatorAt t :: us) s.terminate where
  atStart := rfl
  afterHeader := rfl

/-- The step sets the kind of a token by the tokens emitted before. -/
theorem rekind_eq (h : StartMarks us s) (hm : Marks us s) (t : Token) :
    s.rekind t = { t with kind := kindAfter startsStatement closing us t.kind } := by
  have hopens : s.opensBlock = (startsStatement us || closed closing .header us ||
      us.head?.any (·.kind.opensBlock)) := by
    rw [Layout.opensBlock, h.atStart, h.afterHeader, hm.prev, Option.any_map]
  rw [rekind, kindAfter, hopens, h.atStart]
  simp only [hm.afterDot]
  split
  · rfl
  split
  · rfl
  split <;> rfl

/-- A token that is emitted and not passed over. -/
theorem emit {start : Bool} (hs : t.kind ≠ .semicolon)
    (hc : closed closing .header (t :: us) = false) (ha : start = atBoundary (t :: us))
    (bs : List Bracket) (ends closes : Bool) :
    StartMarks (t :: us) { s.emit t with
      opened := bs, canEnd := ends, closedBlock := closes, atStart := start } where
  atStart := by
    rw [startsStatement, passedOver, hc, beq_eq_false_iff_ne.2 hs]
    exact ha
  afterHeader := hc.symm

theorem closeBracket (h : StartMarks us s) (hm : Marks us s) (hk : t.kind ∈ closing) :
    StartMarks ((s.closeBracket t).1.reverse ++ us) (s.closeBracket t).2 := by
  have hc : closed closing .header (t :: us) = (s.opened.head? == some .header) := by
    rw [closed, hm.opened, show closing.contains t.kind = true by simpa using hk]
    rfl
  by_cases hh : s.opened.head? = some .header
  · -- the start of a statement is left as it was
    have hp : passedOver (t :: us) = true := by
      rw [passedOver, hc, hh]
      exact Bool.or_true _
    simp only [Layout.closeBracket, if_pos hh]
    constructor
    · show s.atStart = startsStatement (t :: us)
      rw [startsStatement, if_pos hp, h.atStart]
    · show true = closed closing .header (t :: us)
      rw [hc, hh]
      rfl
  · simp only [Layout.closeBracket, if_neg hh]
    rw [beq_eq_false_iff_ne.2 hh] at hc
    refine emit ?_ hc ?_ _ _ _
    · exact (show ∀ k ∈ closing, k ≠ .semicolon by decide) _ hk
    · obtain ⟨k, text, loc⟩ := t
      rcases List.mem_pair.1 hk with rfl | rfl <;> rfl

theorem place (h : StartMarks us s) (hm : Marks us s) (t : Token) (hs : t.kind ≠ .semicolon)
    (ht : t.kind ≠ .terminator) : StartMarks ((s.place t).1.reverse ++ us) (s.place t).2 := by
  have hk : (s.rekind t).kind ≠ .semicolon ∧ (s.rekind t).kind ≠ .terminator := by
    unfold rekind
    split
    · exact ⟨nofun, nofun⟩
    split
    · exact ⟨nofun, nofun⟩
    split
    · exact ⟨nofun, nofun⟩
    · exact ⟨hs, ht⟩
  unfold Layout.place
  generalize s.rekind t = t at hk
  obtain ⟨k, text, loc⟩ := t
  cases k with
  | semicolon => exact absurd rfl hk.1
  | terminator => exact absurd rfl hk.2
  | rbrace =>
    have hcloses : ∀ vs, Emitted.opened vs = Emitted.opened us →
        (s.opened.head? == some .block) = atBoundary (⟨.rbrace, text, loc⟩ :: vs) := by
      intro vs hvs
      simp only [atBoundary, closed, hvs, hm.opened]
      rfl
    simp only
    split
    · exact emit hk.1 rfl (hcloses (_ :: us) rfl) _ _ _
    · exact emit hk.1 rfl (hcloses us rfl) _ _ _
  | rparen | rbracket => exact h.closeBracket hm (by simp)
  | keyword w => exact emit hk.1 rfl (by cases w <;> rfl) _ _ _
  | _ => exact emit hk.1 rfl rfl _ _ _

theorem withNewline (h : StartMarks us s) (n : Option Token) :
    StartMarks us { s with newline := n } := { h with }

/-- Every token of a text keeps the memory in step with what is emitted. -/
theorem step (h : StartMarks us s) (hm : Marks us s) (ht : t.kind ≠ .terminator) :
    StartMarks ((s.step t).1.reverse ++ us) (s.step t).2 := by
  by_cases hn : t.kind = .newline
  · rw [Layout.step, hn]
    simp only
    split
    · exact h.withNewline (some t)
    · exact h
  by_cases hs : t.kind = .semicolon
  · rw [Layout.step, hs]
    simp only
    split
    · -- a semicolon in a parenthesis leaves the start of a statement as it was
      constructor
      · show s.atStart = startsStatement (t :: us)
        rw [startsStatement, passedOver, hs]
        exact h.atStart
      · show false = closed closing .header (t :: us)
        rw [closed, hs]
        rfl
    · exact terminate t
  · rw [step_of_ne hn hs]
    split
    · rename_i n _
      split
      · rw [List.reverse_cons, List.append_assoc]
        exact (terminate n).place ((hm.withNewline none).terminate n) t hs ht
      · exact (h.withNewline none).place (hm.withNewline none) t hs ht
    · exact (h.withNewline none).place (hm.withNewline none) t hs ht

end StartMarks

/-- The gap before a token, and the kind that the token is emitted with. -/
theorem step_kind (hf : Follows ts us s) (h : StartMarks us s) (hn : t.kind ≠ .newline)
    (hs : t.kind ≠ .semicolon) :
    let gap := implied closing ts us (some t)
    (s.step t).1 = gap ++
      [{ t with kind := kindAfter startsStatement closing (gap ++ us) t.kind }] := by
  intro gap
  obtain ⟨k, -, he, -⟩ := hf.step_token hn hs
  have hm := hf.toMarks.withNewline none
  -- what is placed comes last, so that it is enough to know the gap before it
  have hplace : ∀ {vs : Emitted} {s' : Layout} (gs : List Token), Marks vs s' → StartMarks vs s' →
      (s.step t).1 = gs ++ (s'.place t).1 → vs = gs ++ us →
      (s.step t).1 = gap ++
        [{ t with kind := kindAfter startsStatement closing (gap ++ us) t.kind }] := by
    intro vs s' gs hm' h' hstep hvs
    rw [place_fst, ← List.append_assoc] at hstep
    have hgap : gap = _ := List.append_inj_left' (he.symm.trans hstep) rfl
    rw [hstep, hgap, h'.rekind_eq hm']
    split
    · rename_i hb
      simp [kindAfter, hb.1, TokenKind.isKeyword]
    · rw [List.append_nil, ← hvs]
  by_cases hb : s.newline.isSome ∧ s.beginsStatement t.kind
  · obtain ⟨n, hnew⟩ := Option.isSome_iff_exists.1 hb.1
    refine hplace [terminatorAt n] (hm.terminate n) (.terminate n) ?_ rfl
    rw [step_of_ne hn hs, hnew]
    exact congrArg Prod.fst (if_pos hb.2)
  · refine hplace [] hm (h.withNewline none) ?_ rfl
    rw [step_of_ne hn hs]
    split
    · rename_i n hnew
      exact congrArg Prod.fst (if_neg fun hb' => hb ⟨by rw [hnew]; rfl, hb'⟩)
    · rfl

/-- After any run over a text the memory is what the emitted tokens say. -/
theorem starts_run (ts : List Token) (h : ∀ t ∈ ts, t.kind ≠ .terminator) :
    StartMarks (emitted ts).reverse (start.run ts).2 := by
  induction ts using List.reverseRecOn with
  | nil => exact ⟨rfl, rfl⟩
  | append_singleton ts t ih =>
    have hrun := (ih fun u hu => h u (List.mem_append_left _ hu)).step
      (follows_run ts).toMarks (h t (List.mem_append_right _ (List.mem_singleton.2 rfl)))
    rw [emitted_snoc, List.reverse_append, run_append, run, run]
    exact hrun

end Layout

/-- The tokens of a text hold no terminators before the step has set them. -/
theorem ne_terminator_of_mem_readTokens {cs : List Char} {t : Token}
    (h : t ∈ (readTokens cs).tokens) : t.kind ≠ .terminator := by
  have ht : IsToken t.kind t.text := isToken_of_mem_tokensFrom h
  intro hk
  rw [hk] at ht
  have hsymbols : ∀ s ∈ symbols, s.2 ≠ .terminator := by decide
  exact hsymbols _ (ht.mem_symbols rfl) rfl

open Layout in
theorem classifiedBy_startsStatement : ClassifiedBy startsStatement [.rparen, .rbracket] := by
  intro ts t hts hn hs gap
  rw [emitted_snoc, step_kind (follows_run ts) (starts_run ts hts) hn hs, List.append_assoc]

/-- **What is taken for a block or a declaration** in a text, where no terminators have been set
yet: the step passes over semicolons in parentheses and over brackets that close headers. Only right
after them does it part with the rule that is meant, when a boundary stands before them. -/
theorem classifiedBy_and_kindAfter_eq_iff (cs : List Char) (us : Emitted) (k : TokenKind) :
    (∀ t ∈ (readTokens cs).tokens, t.kind ≠ .terminator) ∧
      ClassifiedBy startsStatement [.rparen, .rbracket] ∧
        (kindAfter startsStatement [.rparen, .rbracket] us k =
            kindAfter atBoundary [.rparen, .rbracket] us k ↔
          ¬ (startsStatement us.tail ∧
            (us.head?.any (·.kind == .semicolon) ∧ (k = .lbrace ∨ k = .keyword .function) ∨
              closed [.rparen, .rbracket] .header us ∧ k = .keyword .function))) :=
  ⟨fun _ => ne_terminator_of_mem_readTokens, classifiedBy_startsStatement, kindAfter_eq_iff us k⟩

/-- In `for (f = function () {}; {}; ) g` the brace after the semicolon stands at no boundary, but a
block has been closed before the semicolon: an object is meant, and a block is opened. -/
theorem not_classifiedBy_atBoundary :
    (layOut (readTokens "for (f = function () \x7b\x7d; \x7b\x7d; ) g".toList)).tokens.map (·.kind) =
        [.keyword .for, .lparen, .name, .assign, .keyword .function, .lparen, .rparen, .blockOpen,
          .rbrace, .semicolon, .blockOpen, .rbrace, .semicolon, .rparen, .name, .terminator] ∧
      ¬ ClassifiedBy atBoundary [.rparen] := by
  refine ⟨by decide +kernel, fun h => ?_⟩
  let ts := (readTokens "for (f = function () \x7b\x7d;".toList).tokens
  have he := h ts ⟨.lbrace, "\x7b", ⟨1, 26⟩⟩ (by decide +kernel) (by decide) (by decide)
  have hk := congrArg (fun us => us.getLast?.map (·.kind)) he
  rw [List.getLast?_concat] at hk
  exact absurd hk (by decide +kernel)

end AutoAwait
