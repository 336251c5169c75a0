import AutoAwait.Proofs.Grammar.First
import AutoAwait.Proofs.Grammar.Fits
import AutoAwait.Proofs.Printing.Reading
import AutoAwait.Proofs.Token.Brackets

/-!
# The first and the last word of a printed expression

* `Fits.begins`: at whatever depth an expression is printed, it begins with the same word;
* `Fits.ends`: it ends with a word, so that nothing is trimmed from its end.
-/

namespace AutoAwait

open Node

namespace Doc

/-! ## The first word -/

/-- Do pieces that depend on a depth begin with this word at every depth? An expression can begin
with it, and the word `function` stands by itself. -/
structure Begin (f : Nat → Doc) (w : String) : Prop where
  pieces : ∀ level, ∃ d, f level = .word w :: d ∧
    (w = "function" → d.head? = some .space ∨ d.head? = some (.word "("))
  token : ∃ k, IsToken k w ∧ k.startsPhrase

namespace Begin

variable {f g : Nat → Doc} {w : String} {n : Node}

theorem start (h : Begin f w) : ∃ c cs, w.toList = c :: cs ∧ c ≠ '=' := by
  obtain ⟨k, hw, hk⟩ := h.token
  refine hw.start ⟨?_, ?_, ?_⟩ <;> rintro rfl <;> cases hk

/-- A token other than `function`, and whatever comes after it. -/
theorem word {k : TokenKind} (h : IsToken k w) (hk : k.startsPhrase)
    (hf : k ≠ .keyword .function) : Begin (fun level => .word w :: g level) w := by
  refine ⟨fun _ => ⟨_, rfl, ?_⟩, k, h, hk⟩
  rintro rfl
  exact absurd (h.unique (isToken_keyword .function)) hf

theorem append (h : Begin f w) (g : Nat → Doc) : Begin (fun level => f level ++ g level) w := by
  refine ⟨fun level => ?_, h.token⟩
  obtain ⟨d, hd, hf⟩ := h.pieces level
  refine ⟨d ++ g level, by rw [hd]; rfl, fun hw => ?_⟩
  rcases hf hw with hf | hf
  · exact .inl (by simp [hf])
  · exact .inr (by simp [hf])

theorem parens (f : Nat → Doc) : Begin (fun level => (f level).parens) "(" :=
  .word (isToken_firm (s := ("(", .lparen)) (by decide)) rfl (by decide)

theorem atLeast (least : Nat) (h : Begin (n.expr ·) w) :
    ∃ w', Begin (fun level => n.atLeast least (n.expr level)) w' := by
  unfold Node.atLeast
  split
  · exact ⟨_, parens _⟩
  · exact ⟨w, h⟩

theorem operand (h : Begin (n.expr ·) w) :
    ∃ w', Begin (fun level => n.operand (n.expr level)) w' := by
  unfold Node.operand
  split
  · exact ⟨_, parens _⟩
  · exact h.atLeast _

end Begin

end Doc

/-- A constant is printed as the word that it is. -/
theorem eq_spelling_of_constant {k : Keyword} {v : LiteralValue} {raw : String}
    (hk : (TokenKind.keyword k).isConstant)
    (hv : ∀ text p, Token.toConstant ⟨.keyword k, text, p⟩ = .untyped p (.literal v raw)) :
    raw = k.spelling := by
  have h := congrArg Node.shape (hv "" .start)
  cases k with
  | «true» | «false» | null => exact (Shape.literal.inj h).2.symm
  | _ => cases hk

theorem Fits.isToken_nameText [CharNames] {n : Node} (h : Fits .name n) :
    IsToken .name n.nameText := by
  obtain ⟨x, hx, ht⟩ := h.name_shape
  rwa [nameText, Node.name?, hx]

theorem Fits.expr_name [CharNames] {n : Node} (h : Fits .name n) (level : Nat) :
    n.expr level = [.word n.nameText] := by
  cases h with
  | name h => simp only [expr]; rfl

theorem begins_arrowParams [CharNames] {ps : List Node} (h : ∀ p ∈ ps, Fits .name p) :
    ∃ w, Doc.Begin (fun _ => arrowParams ps) w := by
  match ps with
  | [] => exact ⟨_, .parens _⟩
  | [p] => exact ⟨_, .word (h p (.head _)).isToken_nameText rfl (by decide)⟩
  | p :: q :: ps => exact ⟨_, .parens _⟩

/-- An expression begins with the same word at every depth. -/
theorem Fits.begins [CharNames] {n : Node} (h : Fits .expr n) : ∃ w, Doc.Begin (n.expr ·) w := by
  generalize hr : Role.expr = r at h
  induction h <;> cases hr
  case ref h _ =>
    cases h with
    | name h =>
      simp only [expr]
      exact ⟨_, .word h rfl (by decide)⟩
  case number h _ =>
    simp only [expr]
    exact ⟨_, .word h rfl (by decide)⟩
  case text h =>
    simp only [expr]
    exact ⟨_, .word h rfl (by decide)⟩
  case constant k hk hv =>
    obtain rfl := eq_spelling_of_constant hk hv
    simp only [expr]
    refine ⟨_, .word (isToken_keyword k) (TokenKind.startsPhrase_of_isConstant hk) ?_⟩
    rintro ⟨⟩
    cases hk
  case this =>
    simp only [expr]
    exact ⟨_, .word (isToken_keyword .this) rfl (by decide)⟩
  case array =>
    simp only [expr]
    exact ⟨_, .word (isToken_firm (s := ("[", .lbracket)) (by decide)) rfl (by decide)⟩
  case object ps _ _ =>
    have hb := isToken_firm (s := ("\x7b", .lbrace)) (by decide)
    cases ps <;> simp only [expr] <;> exact ⟨_, .word hb rfl (by decide)⟩
  case member ih _ =>
    obtain ⟨w, hw⟩ := ih rfl
    obtain ⟨w', hw'⟩ := hw.operand
    simp only [expr]
    exact ⟨w', hw'.append _⟩
  case index ih _ =>
    obtain ⟨w, hw⟩ := ih rfl
    obtain ⟨w', hw'⟩ := hw.operand
    simp only [expr]
    exact ⟨w', (hw'.append _).append _⟩
  case call ih _ =>
    obtain ⟨w, hw⟩ := ih rfl
    obtain ⟨w', hw'⟩ := hw.operand
    simp only [expr]
    exact ⟨w', hw'.append _⟩
  case construct =>
    simp only [expr]
    exact ⟨_, .word (isToken_keyword .new) rfl (by decide)⟩
  case await =>
    simp only [expr]
    exact ⟨_, .word (isToken_keyword .await) rfl (by decide)⟩
  case assignment ih _ =>
    obtain ⟨w, hw⟩ := ih rfl
    obtain ⟨w', hw'⟩ := hw.atLeast memberPrecedence
    simp only [expr, infixed]
    exact ⟨w', (hw'.append _).append _⟩
  case binary op _ _ _ _ _ _ _ ih _ =>
    obtain ⟨w, hw⟩ := ih rfl
    obtain ⟨w', hw'⟩ := hw.atLeast (operatorPrecedence op)
    simp only [expr, infixed]
    exact ⟨w', (hw'.append _).append _⟩
  case logical op l _ _ _ _ _ ih _ =>
    obtain ⟨w, hw⟩ := ih rfl
    obtain ⟨w', hw'⟩ := hw.atLeast
      (if mixesNullish op l then primaryPrecedence else operatorPrecedence op)
    simp only [expr, infixed]
    exact ⟨w', (hw'.append _).append _⟩
  case unary op a ho hk _ _ _ =>
    refine ⟨op, fun level => ?_, _, ho, TokenKind.startsPhrase_of_isUnaryOperator hk⟩
    have hf : op ≠ "function" := by
      rintro rfl
      rw [ho.unique (isToken_keyword .function)] at hk
      cases hk
    simp only [expr, prefixed]
    split <;> exact ⟨_, rfl, fun h => absurd h hf⟩
  case update ih =>
    obtain ⟨w, hw⟩ := ih rfl
    obtain ⟨w', hw'⟩ := hw.atLeast memberPrecedence
    simp only [expr]
    exact ⟨w', hw'.append _⟩
  case conditional ih _ _ =>
    obtain ⟨w, hw⟩ := ih rfl
    obtain ⟨w', hw'⟩ := hw.atLeast (conditionalPrecedence + 1)
    simp only [expr, infixed]
    exact ⟨w', (hw'.append _).append _⟩
  case function id _ _ _ _ _ _ _ _ =>
    refine ⟨"function", fun level => ?_, _, isToken_keyword .function, rfl⟩
    simp only [expr, functionDoc]
    refine ⟨_, rfl, fun _ => ?_⟩
    cases id with
    | none => exact .inr rfl
    | some id => exact .inl rfl
  case arrowBlock hp _ _ _ =>
    obtain ⟨w, hw⟩ := begins_arrowParams hp
    simp only [expr, infixed]
    exact ⟨w, (hw.append _).append _⟩
  case arrow hp _ _ _ =>
    obtain ⟨w, hw⟩ := begins_arrowParams hp
    simp only [expr, infixed]
    exact ⟨w, (hw.append _).append _⟩

/-- An expression that begins with the word `function` is one that a statement is put in parentheses
for. -/
theorem Doc.Begin.beginsLikeStatement {n : Node} (h : Doc.Begin (n.expr ·) "function") (level : Nat) :
    Node.beginsLikeStatement (n.expr level).render := by
  obtain ⟨d, hd, hf⟩ := h.pieces level
  have hbreak : isWordChar ' ' = false ∧ isWordChar '(' = false := by decide
  have hd : n.expr level = .word "function" :: d := hd
  rw [hd]
  rcases hf rfl with hf | hf <;> obtain ⟨e, rfl⟩ := List.head?_eq_some_iff.1 hf <;>
    simp [Node.beginsLikeStatement, Piece.text, hbreak]

/-- A statement begins with a word with which a statement can begin; it is `function` only where one
is declared. -/
theorem Fits.begins_stmt [CharNames] {n : Node} {opened : Bool} (h : Fits (.stmt opened) n)
    (level : Nat) :
    ∃ k w d, n.stmt level = .word w :: d ∧ IsToken k w ∧ k.startsStatement ∧
      (k = .keyword .function → n.kind = .functionDecl) := by
  have hword : ∀ {k : Keyword} {P : Prop} (d : Doc), (TokenKind.keyword k).startsStatement →
      k ≠ .function → ∃ j w e, (.word k.spelling :: d : Doc) = .word w :: e ∧ IsToken j w ∧
        j.startsStatement ∧ (j = .keyword .function → P) := fun {k} _ _ hk hf =>
    ⟨.keyword k, _, _, rfl, isToken_keyword k, hk, fun he => absurd (TokenKind.keyword.inj he) hf⟩
  cases h with
  | declared h =>
    cases h with
    | @declaration _ _ k _ hk =>
      simp only [Node.stmt]
      exact hword _ (TokenKind.startsStatement_of_declares hk) (by rintro rfl; cases hk)
  | @expression _ _ e h =>
    obtain ⟨w, hw⟩ := h.begins
    obtain ⟨d, hd, -⟩ := hw.pieces level
    obtain ⟨k, hk, hp⟩ := hw.token
    simp only [Node.stmt, asStatement]
    split
    · exact ⟨.lparen, _, _, rfl, isToken_firm (s := ("(", .lparen)) (by decide), rfl, by rintro ⟨⟩⟩
    · rename_i hb
      refine ⟨k, w, _, by rw [hd]; rfl, hk, TokenKind.startsStatement_of_startsPhrase hp, ?_⟩
      rintro rfl
      obtain rfl : w = "function" := hk.eq_spelling
      exact absurd (hw.beginsLikeStatement level) hb
  | @«return» _ _ a _ =>
    cases a <;> simp only [Node.stmt] <;> exact hword (k := .return) _ rfl (by decide)
  | «if» | ifElse =>
    simp only [Node.stmt]
    exact hword (k := .if) _ rfl (by decide)
  | «while» =>
    simp only [Node.stmt]
    exact hword (k := .while) _ rfl (by decide)
  | forDecl | «for» | forOf =>
    simp only [Node.stmt]
    exact hword (k := .for) _ rfl (by decide)
  | functionDecl =>
    simp only [Node.stmt]
    exact ⟨.keyword .function, _, _, rfl, isToken_keyword .function, rfl, fun _ => rfl⟩
  | block h =>
    cases h with
    | @body _ _ ns _ =>
      have hb := isToken_firm (s := ("\x7b", .lbrace)) (by decide)
      simp only [Node.stmt]
      cases Node.stmts (level + 1) ns <;> exact ⟨.lbrace, _, _, rfl, hb, rfl, by rintro ⟨⟩⟩
  | «break» =>
    simp only [Node.stmt]
    exact hword (k := .break) _ rfl (by decide)
  | «continue» =>
    simp only [Node.stmt]
    exact hword (k := .continue) _ rfl (by decide)
  | throw =>
    simp only [Node.stmt]
    exact hword (k := .throw) _ rfl (by decide)
  | «try» =>
    simp only [Node.stmt]
    exact hword (k := .try) _ rfl (by decide)

/-! ## The last word -/

namespace Doc

variable {d e : Doc} {w : String}

/-- Is the last piece a word? -/
def EndsInWord (d : Doc) : Prop := ∃ e k w, d = e ++ [.word w] ∧ IsToken k w ∧ k ≠ .newline

theorem EndsInWord.append (d : Doc) (h : EndsInWord e) : EndsInWord (d ++ e) := by
  obtain ⟨e, k, w, rfl, hw⟩ := h
  exact ⟨d ++ e, k, w, by rw [List.append_assoc], hw⟩

theorem EndsInWord.cons (p : Piece) (h : EndsInWord e) : EndsInWord (p :: e) := h.append [p]

theorem endsInWord_token {k : TokenKind} (h : IsToken k w) (hk : k ≠ .newline) :
    EndsInWord [.word w] := ⟨[], k, w, rfl, h, hk⟩

theorem endsInWord_symbol {k : TokenKind} (h : (w, k) ∈ firmSymbols) : EndsInWord [.word w] := by
  have hs : ∀ s ∈ firmSymbols, s.2 ≠ .newline := by decide
  exact endsInWord_token (isToken_firm h) (hs _ h)

theorem endsInWord_parens (d : Doc) : EndsInWord d.parens :=
  (endsInWord_symbol (k := .rparen) (by decide)).append _

theorem trimEnd_append (hd : trimEnd e = e) (he : e ≠ []) (d : Doc) :
    trimEnd (d ++ e) = d ++ e := by
  induction d with
  | nil => exact hd
  | cons p d ih =>
    rw [List.cons_append, trimEnd, ih]
    cases hde : d ++ e with
    | nil => exact absurd (List.append_eq_nil_iff.1 hde).2 he
    | cons q qs => rfl

theorem EndsInWord.trimEnd_eq (h : EndsInWord d) : trimEnd d = d := by
  obtain ⟨d, k, w, rfl, hw, hk⟩ := h
  refine trimEnd_append ?_ (List.cons_ne_nil _ _) d
  obtain ⟨cs, c, hc⟩ := (List.eq_nil_or_concat' w.toList).resolve_left hw.split.2
  have hb : isBlank c = false := hw.last_not_blank hk c (by simp [hc])
  have ht : (w.toList.reverse.dropWhile isBlank).reverse = cs ++ [c] := by
    rw [hc, List.reverse_append, List.reverse_singleton, List.singleton_append,
      List.dropWhile_cons_of_neg (by simp [hb])]
    simp
  have hword : Piece.trimEnd (.word w) = [.word w] := by
    rw [Piece.trimEnd, ht, ← hc]
    split
    · exact absurd ‹_› hw.split.2
    · rw [String.ofList_toList]
  rw [trimEnd, trimEnd]
  exact hword

theorem trimEnd_space (d : Doc) : trimEnd (d ++ [.space]) = trimEnd d := by
  induction d with
  | nil => rfl
  | cons p d ih => rw [List.cons_append, trimEnd, ih, trimEnd]

/-- What is trimmed from the end of the header of a counting loop is the space that stands before
the last part, if that part is missing. -/
theorem trimEnd_header (d e : Doc) {u : Option Doc} (hu : ∀ f ∈ u, EndsInWord f) :
    trimEnd (d ++ [.word ";", .space] ++ e ++ [.word ";", .space] ++ u.getD []) =
      d ++ .word ";" :: .space :: (e ++ .word ";" :: (u.elim [] (.space :: ·))) := by
  have hs : EndsInWord [.word ";"] := endsInWord_symbol (k := .semicolon) (by decide)
  cases u with
  | none =>
    have hd : d ++ [.word ";", .space] ++ e ++ [.word ";", .space] ++ [] =
        (d ++ .word ";" :: .space :: (e ++ [.word ";"])) ++ [.space] := by simp
    rw [Option.getD_none, hd, trimEnd_space]
    exact ((((hs.append e).cons _).cons _).append d).trimEnd_eq
  | some f =>
    have hd : d ++ [.word ";", .space] ++ e ++ [.word ";", .space] ++ f =
        d ++ .word ";" :: .space :: (e ++ .word ";" :: .space :: f) := by simp
    rw [Option.getD_some, hd]
    exact ((((((hu f rfl).cons _).cons _).append e).cons _).cons _ |>.append d).trimEnd_eq

theorem EndsInWord.braces (level : Nat) (lines : List Doc) : EndsInWord (braces level lines) := by
  have hb : EndsInWord [.word "\x7d"] := endsInWord_symbol (k := .rbrace) (by decide)
  unfold Doc.braces
  split
  · exact hb.cons _
  · exact (hb.cons _).append _

theorem EndsInWord.atLeast {n : Node} (least : Nat) (h : EndsInWord d) :
    EndsInWord (n.atLeast least d) := by
  unfold Node.atLeast
  split
  · exact endsInWord_parens d
  · exact h

end Doc

theorem Fits.ends_body [CharNames] {n : Node} (h : Fits .body n) (level : Nat) :
    Doc.EndsInWord (n.body level) := by
  cases h with
  | body h =>
    simp only [Node.body]
    exact .braces _ _

/-- An expression, or a name after a dot, ends with a word. -/
theorem Fits.ends [CharNames] {n : Node} {r : Role} (h : Fits r n) (hr : r = .expr ∨ r = .attr)
    (level : Nat) :
    Doc.EndsInWord (n.expr level) := by
  induction h <;> first | (rcases hr with hr | hr <;> cases hr; done) | try simp only [expr]
  case attr h =>
    rcases h with h | ⟨k, h⟩ <;> exact Doc.endsInWord_token h (by simp)
  case ref h _ =>
    cases h with
    | name h =>
      simp only [expr]
      exact Doc.endsInWord_token h (by decide)
  case number h _ => exact Doc.endsInWord_token h (by decide)
  case text h => exact Doc.endsInWord_token h (by decide)
  case constant k hk hv =>
    obtain rfl := eq_spelling_of_constant hk hv
    exact Doc.endsInWord_token (isToken_keyword k) (by simp)
  case this => exact Doc.endsInWord_token (isToken_keyword .this) (by decide)
  case array => exact (Doc.endsInWord_symbol (k := .rbracket) (by decide)).append _
  case object ps _ _ =>
    have hb := Doc.endsInWord_symbol (w := "\x7d") (k := .rbrace) (by decide)
    cases ps <;> simp only [expr]
    · exact hb.cons _
    · exact (hb.cons _).append _
  case member ih => exact ((ih (.inr rfl)).cons _).append _
  case index => exact (Doc.endsInWord_symbol (k := .rbracket) (by decide)).append _
  case call => exact (Doc.endsInWord_parens _).append _
  case construct => exact (Doc.endsInWord_parens _).append _
  case await ih => exact (((ih (.inl rfl)).atLeast _).cons _).cons _
  case assignment ih => exact ((ih (.inl rfl)).atLeast _).append _
  case binary ih => exact ((ih (.inl rfl)).atLeast _).append _
  case logical ih => exact ((ih (.inl rfl)).atLeast _).append _
  case unary a _ _ _ _ ih =>
    have ha := (ih (.inl rfl)).atLeast (n := a) unaryPrecedence
    unfold prefixed
    split
    · exact (ha.cons _).cons _
    · exact ha.cons _
  case update ho _ _ => exact (Doc.endsInWord_token ho (by decide)).append _
  case conditional ih => exact (((ih (.inl rfl)).atLeast _).append _).append _
  case function hb _ _ _ =>
    unfold functionDoc
    exact ((hb.ends_body level).cons _).append _
  case arrowBlock b _ hb _ _ =>
    have hk : b.kind = .block := by cases hb; rfl
    rw [if_pos hk]
    exact (hb.ends_body level).append _
  case arrow b _ hb _ ih =>
    rw [if_neg (hb.kind_ne rfl)]
    refine Doc.EndsInWord.append _ ?_
    unfold arrowBody
    split
    · exact Doc.endsInWord_parens _
    · exact (ih (.inl rfl)).atLeast _

end AutoAwait
