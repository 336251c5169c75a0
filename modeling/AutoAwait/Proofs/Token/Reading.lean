import AutoAwait.Proofs.Token.Lexing
import AutoAwait.Proofs.Tree.Move

/-!
# The tokens of a text in two parts

* `lexemes_blanks` says that blanks before a text only move its tokens;
* `Token.OpensComment` says that two tokens, one right after the other, could be read as the opening
  mark of a comment; in no script are there such two;
* `readTokens_append` gives the tokens of two texts with a line between them that holds a semicolon.
-/

namespace AutoAwait

namespace Token

/-- A token at another place. -/
def move (φ : Position → Position) (t : Token) : Token := { t with loc := φ t.loc }

@[simp] theorem move_kind (φ : Position → Position) (t : Token) : (t.move φ).kind = t.kind := rfl

@[simp] theorem move_text (φ : Position → Position) (t : Token) : (t.move φ).text = t.text := rfl

@[simp] theorem move_loc (φ : Position → Position) (t : Token) : (t.move φ).loc = φ t.loc := rfl

/-- The kind and the text of a token. -/
def word (t : Token) : TokenKind × String := (t.kind, t.text)

/-- Do the kinds of two tokens allow that they are the halves of the mark that opens a comment? -/
def OpensComment (t t' : Token) : Prop :=
  t.kind = .mulOp ∧ (t'.kind = .mulOp ∨ t'.kind = .compoundAssign)

end Token

theorem tokensFrom_cons (p : Position) (l : Lexeme) (ls : List Lexeme) : tokensFrom p (l :: ls) =
    (match l.kind with
      | .token kind => [⟨kind, String.ofList l.text, p⟩]
      | _ => []) ++ tokensFrom (p.advance l.text) ls := by
  rw [tokensFrom]
  cases l.kind <;> rfl

theorem tokensFrom_append (p : Position) (ls ls' : List Lexeme) : tokensFrom p (ls ++ ls') =
    tokensFrom p ls ++ tokensFrom (p.advance (ls.flatMap (·.text))) ls' := by
  induction ls generalizing p with
  | nil => rfl
  | cons l ls ih =>
    rw [List.cons_append, tokensFrom_cons, tokensFrom_cons, ih, List.flatMap_cons,
      Position.advance_append, List.append_assoc]

/-- The tokens of a text at another place, if all that it goes on to is moved with it. -/
theorem tokensFrom_move {φ : Position → Position} {p : Position}
    (h : ∀ cs, (φ p).advance cs = φ (p.advance cs)) (ls : List Lexeme) :
    tokensFrom (φ p) ls = (tokensFrom p ls).map (·.move φ) := by
  induction ls generalizing p with
  | nil => rfl
  | cons l ls ih =>
    have hnext : ∀ cs, (φ (p.advance l.text)).advance cs = φ ((p.advance l.text).advance cs) := by
      intro cs
      rw [← h, ← Position.advance_append, h, Position.advance_append]
    rw [tokensFrom_cons, tokensFrom_cons, h, ih hnext, List.map_append]
    cases l.kind <;> rfl

theorem tokensFrom_down (lines : Nat) (p : Position) (ls : List Lexeme) :
    tokensFrom (p.down lines) ls = (tokensFrom p ls).map (·.move (.down lines)) :=
  tokensFrom_move (Position.advance_down lines p) ls

/-! ## Blanks between tokens -/

theorem lexes_blank {c : Char} (hc : isInlineBlank c) (cs : List Char) :
    Lexes (c :: cs) ⟨.blank, c :: cs.takeWhile isInlineBlank⟩ (cs.dropWhile isInlineBlank) := by
  have hb : blank? (c :: cs) =
      some (c :: cs.takeWhile isInlineBlank, cs.dropWhile isInlineBlank) := by
    simp [blank?, hc]
  simp only [isInlineBlank, Bool.or_eq_true, beq_iff_eq] at hc
  rcases hc with ((rfl | rfl) | rfl) | rfl <;> exact .blank rfl rfl rfl rfl rfl hb

/-- A blank moves the tokens after it and changes nothing else. -/
theorem lexemes_blank {c : Char} (hc : isInlineBlank c) (cs : List Char) :
    (lexemes (c :: cs)).2 = (lexemes cs).2 ∧
      ∀ p, tokensFrom p (lexemes (c :: cs)).1 = tokensFrom (p.advance [c]) (lexemes cs).1 := by
  have hl := lexemes_cons (lexes_blank hc cs)
  cases cs with
  | nil =>
    rw [hl]
    exact ⟨rfl, fun p => rfl⟩
  | cons d cs =>
    by_cases hd : isInlineBlank d
    · -- the blank and those after it are one lexeme
      rw [List.takeWhile_cons_of_pos hd, List.dropWhile_cons_of_pos hd] at hl
      rw [hl, lexemes_cons (lexes_blank hd cs)]
      refine ⟨rfl, fun p => ?_⟩
      rw [tokensFrom_cons, tokensFrom_cons, ← Position.advance_append]
      rfl
    · rw [List.takeWhile_cons_of_neg hd, List.dropWhile_cons_of_neg hd] at hl
      rw [hl]
      exact ⟨rfl, fun p => tokensFrom_cons _ _ _⟩

theorem lexemes_blanks {ws : List Char} (h : ∀ c ∈ ws, isInlineBlank c) (cs : List Char) :
    (lexemes (ws ++ cs)).2 = (lexemes cs).2 ∧
      ∀ p, tokensFrom p (lexemes (ws ++ cs)).1 = tokensFrom (p.advance ws) (lexemes cs).1 := by
  induction ws with
  | nil => exact ⟨rfl, fun p => rfl⟩
  | cons c ws ih =>
    obtain ⟨hc, h⟩ := List.forall_mem_cons.1 h
    obtain ⟨hrest, htokens⟩ := lexemes_blank hc (ws ++ cs)
    rw [List.cons_append]
    refine ⟨hrest.trans (ih h).1, fun p => ?_⟩
    rw [htokens, (ih h).2]
    rfl

/-! ## Two texts with a semicolon between them -/

/-- Lexemes that together open a comment are two tokens, one right after the other. -/
theorem isChain_lexemes {p : Position} {ls : List Lexeme}
    (h : (tokensFrom p ls).IsChain fun t t' => ¬ t.OpensComment t') :
    ls.IsChain fun l l' => ¬ OpensComment l l' := by
  induction ls generalizing p with
  | nil => exact .nil
  | cons l ls ih =>
    rw [tokensFrom_cons] at h
    have hls := ih (List.isChain_append.1 h).2.1
    cases ls with
    | nil => exact .singleton l
    | cons l' ls =>
      refine .cons_cons ?_ hls
      rintro ⟨hk, hk'⟩
      rw [tokensFrom_cons] at h
      have hl : ∃ k, l'.kind = .token k ∧ (k = .mulOp ∨ k = .compoundAssign) := by
        rcases hk' with hk' | hk'
        · exact ⟨_, hk', .inl rfl⟩
        · exact ⟨_, hk', .inr rfl⟩
      obtain ⟨k, hl, hk'⟩ := hl
      simp only [hk, hl, List.singleton_append] at h
      exact (List.isChain_cons_cons.1 h).1 ⟨rfl, hk'⟩

theorem lexes_newline (cs : List Char) : Lexes ('\n' :: cs) ⟨.token .newline, ['\n']⟩ cs :=
  .symbol rfl rfl rfl rfl rfl rfl rfl

theorem lexes_semicolon (cs : List Char) : Lexes (';' :: cs) ⟨.token .semicolon, [';']⟩ cs :=
  .symbol rfl rfl rfl rfl rfl rfl rfl

theorem readTokens_stop {cs : List Char} (h : (readTokens cs).stop = none) :
    (lexemes cs).2 = [] :=
  List.head?_eq_none_iff.1 (Option.map_eq_none_iff.1 h)

/-- The tokens of a line that holds a semicolon, and of what follows it some lines further down. -/
theorem tokensFrom_seam (p : Position) (ls : List Lexeme) : ∃ q r n,
    ((p.advance ['\n']).advance [';']).advance ['\n'] = Position.start.down n ∧
      tokensFrom p (⟨.token .newline, ['\n']⟩ :: ⟨.token .semicolon, [';']⟩ ::
        ⟨.token .newline, ['\n']⟩ :: ls) =
          ⟨.newline, "\n", p⟩ :: ⟨.semicolon, ";", q⟩ :: ⟨.newline, "\n", r⟩ ::
            (tokensFrom .start ls).map (·.move (.down n)) := by
  have hn := Position.advance_newline ((p.advance ['\n']).advance [';']) []
  rw [List.nil_append] at hn
  refine ⟨p.advance ['\n'], (p.advance ['\n']).advance [';'], _, hn, ?_⟩
  rw [← tokensFrom_down, ← hn]
  rfl

/-- Two texts with a line between them that holds a semicolon: the tokens of the second one are some
lines further down. -/
theorem readTokens_append {cs : List Char} (h : (readTokens cs).stop = none)
    (hc : (readTokens cs).tokens.IsChain fun t t' => ¬ t.OpensComment t') (ds : List Char) :
    ∃ p q r n, readTokens (cs ++ '\n' :: ';' :: '\n' :: ds) =
      { tokens := (readTokens cs).tokens ++
          (⟨.newline, "\n", p⟩ :: ⟨.semicolon, ";", q⟩ :: ⟨.newline, "\n", r⟩ ::
            (readTokens ds).tokens.map (·.move (.down n)))
        stop := (readTokens ds).stop.map fun s => (s.1, s.2.down n) } := by
  have hstop := readTokens_stop h
  have hl := lexemes_newline hstop (isChain_lexemes hc) (';' :: '\n' :: ds)
  rw [lexemes_cons (lexes_newline _), lexemes_cons (lexes_semicolon _),
    lexemes_cons (lexes_newline _)] at hl
  obtain ⟨q, r, n, hn, htokens⟩ := tokensFrom_seam (Position.start.advance cs) (lexemes ds).1
  refine ⟨Position.start.advance cs, q, r, n, ?_⟩
  simp only [readTokens, hl, tokensFrom_append, flatMap_text_lexemes hstop, htokens]
  congr 1
  cases (lexemes ds).2 with
  | nil => rfl
  | cons c es =>
    simp only [List.flatMap_append, List.flatMap_cons, flatMap_text_lexemes hstop,
      Position.advance_append, hn, Position.advance_down]
    rfl

end AutoAwait
