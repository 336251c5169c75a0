import AutoAwait.Proofs.Printing.Doc
import AutoAwait.Proofs.Token.Reading
import AutoAwait.Proofs.Token.Words

/-!
# Reading printed pieces

Each word that is printed is to be read as one token. That is so if no word can be read together
with what comes after it.

* `Doc.Tokens` says which tokens pieces are read as, wherever these stand;
* `Doc.Separated` says that each word before some other characters ends where it ends, and
  `Doc.Firm` that it does so before all characters that end a name or a number;
* `Doc.readTokens_render` is the main statement: the text of separated pieces is read as their
  tokens;
* `Doc.tokensAt` are the tokens of pieces at a place, `Doc.tokensAt_append` those of pieces one after
  the other.
-/

namespace AutoAwait

theorem lexemes_spaces (n : Nat) (cs : List Char) :
    (lexemes (List.replicate n ' ' ++ cs)).2 = (lexemes cs).2 ∧
      ∀ p, tokensFrom p (lexemes (List.replicate n ' ' ++ cs)).1 =
        tokensFrom (p.advance (List.replicate n ' ')) (lexemes cs).1 :=
  lexemes_blanks (fun c hc => by rw [List.eq_of_mem_replicate hc]; rfl) cs

namespace Doc

variable {rest : List Char}

/-! ## The characters of pieces -/

/-- The characters of pieces. -/
def chars (d : Doc) : List Char := d.render.toList

@[simp] theorem chars_nil : chars [] = [] := rfl

@[simp] theorem chars_word (w : String) (d : Doc) :
    chars (.word w :: d) = w.toList ++ chars d := by
  simp [chars, Piece.text]

@[simp] theorem chars_space (d : Doc) : chars (.space :: d) = ' ' :: chars d := by
  simp [chars, Piece.text]

@[simp] theorem chars_newline (depth : Nat) (d : Doc) :
    chars (.newline depth :: d) = '\n' :: (List.replicate (2 * depth) ' ' ++ chars d) := by
  simp [chars, Piece.text]

@[simp] theorem chars_append (d e : Doc) : chars (d ++ e) = chars d ++ chars e := by
  simp [chars]

/-! ## The tokens of pieces -/

/-- Are these the tokens of the pieces, wherever they stand? -/
inductive Tokens : Doc → List Token → Prop
  | nil : Tokens [] []
  | word {d t ts} (ht : IsToken t.kind t.text) (h : Tokens d ts) :
      Tokens (.word t.text :: d) (t :: ts)
  | space {d ts} (h : Tokens d ts) : Tokens (.space :: d) ts
  | newline {depth d t ts} (ht : t.kind = .newline) (h : Tokens d ts) :
      Tokens (.newline depth :: d) (t :: ts)

variable {d e : Doc} {ts us : List Token} {w : String}

theorem Tokens.split (h : Tokens (d ++ e) ts) :
    ∃ us vs, ts = us ++ vs ∧ Tokens d us ∧ Tokens e vs := by
  induction d generalizing ts with
  | nil => exact ⟨[], ts, rfl, .nil, h⟩
  | cons p d ih =>
    cases h with
    | word ht h =>
      obtain ⟨us, vs, rfl, hd, he⟩ := ih h
      exact ⟨_, vs, rfl, .word ht hd, he⟩
    | space h =>
      obtain ⟨us, vs, rfl, hd, he⟩ := ih h
      exact ⟨us, vs, rfl, .space hd, he⟩
    | newline ht h =>
      obtain ⟨us, vs, rfl, hd, he⟩ := ih h
      exact ⟨_, vs, rfl, .newline ht hd, he⟩

/-! ## Separated words -/

/-- Is each word of the pieces, with some characters after the last piece, read as a token? -/
def Separated : Doc → List Char → Prop
  | [], _ => True
  | .word w :: d, rest =>
    (∃ k, Lexes (w.toList ++ (chars d ++ rest)) ⟨.token k, w.toList⟩ (chars d ++ rest)) ∧
      Separated d rest
  | .space :: d, rest | .newline _ :: d, rest => Separated d rest

theorem separated_append :
    Separated (d ++ e) rest ↔ Separated d (chars e ++ rest) ∧ Separated e rest := by
  induction d with
  | nil => simp [Separated]
  | cons p d ih => cases p <;> simp [Separated, ih, and_assoc]

/-- The tokens of the text of the pieces, where it begins at the place `p`. -/
def tokensAt (p : Position) (d : Doc) : List Token := tokensFrom p (lexemes (chars d)).1

/-- **Printed words are read again.** The text of separated pieces is read as their tokens. -/
theorem tokens_of_separated (h : d.Separated []) (p : Position) :
    (lexemes (chars d)).2 = [] ∧ Tokens d (d.tokensAt p) := by
  unfold tokensAt
  induction d generalizing p with
  | nil => exact ⟨rfl, .nil⟩
  | cons piece d ih =>
    cases piece with
    | word w =>
      obtain ⟨⟨k, hl⟩, h⟩ := h
      rw [List.append_nil] at hl
      have ht := hl.isToken
      rw [String.ofList_toList] at ht
      rw [chars_word, lexemes_cons hl, tokensFrom_cons]
      simp only [String.ofList_toList]
      obtain ⟨hrest, htokens⟩ := ih h (p.advance w.toList)
      exact ⟨hrest, .word (t := ⟨k, w, p⟩) ht htokens⟩
    | space =>
      obtain ⟨hrest, htokens⟩ := lexemes_blank (c := ' ') rfl (chars d)
      rw [chars_space, hrest, htokens]
      exact ⟨(ih h p).1, .space (ih h _).2⟩
    | newline depth =>
      obtain ⟨hrest, htokens⟩ := lexemes_spaces (2 * depth) (chars d)
      rw [chars_newline, lexemes_cons (lexes_newline _), tokensFrom_cons, htokens]
      exact ⟨hrest.trans (ih h p).1, .newline rfl (ih h _).2⟩

/-- Separated pieces before other characters: the tokens of both, one after the other. -/
theorem tokensFrom_append (h : d.Separated []) (hr : d.Separated rest) (p : Position) :
    tokensFrom p (lexemes (chars d ++ rest)).1 =
      d.tokensAt p ++ tokensFrom (p.advance (chars d)) (lexemes rest).1 := by
  unfold tokensAt
  induction d generalizing p with
  | nil => rfl
  | cons piece d ih =>
    cases piece with
    | word w =>
      obtain ⟨⟨k, hl⟩, h⟩ := h
      obtain ⟨⟨k', hl'⟩, hr⟩ := hr
      obtain rfl : k = k' := hl.isToken.unique hl'.isToken
      rw [List.append_nil] at hl
      rw [chars_word, List.append_assoc, lexemes_cons hl, lexemes_cons hl', tokensFrom_cons,
        tokensFrom_cons, ih h hr, Position.advance_append, List.append_assoc]
    | space =>
      rw [chars_space, List.cons_append, (lexemes_blank rfl _).2, (lexemes_blank rfl _).2, ih h hr]
      rfl
    | newline depth =>
      rw [chars_newline, List.cons_append, List.append_assoc, lexemes_cons (lexes_newline _),
        lexemes_cons (lexes_newline _), tokensFrom_cons, tokensFrom_cons, (lexemes_spaces _ _).2,
        (lexemes_spaces _ _).2, ih h hr, List.append_assoc, ← Position.advance_append,
        ← Position.advance_append]
      rfl

theorem tokensAt_append (hd : d.Separated []) (h : (d ++ e).Separated []) (p : Position) :
    (d ++ e).tokensAt p = d.tokensAt p ++ e.tokensAt (p.advance (chars d)) := by
  have hsep := (separated_append.1 h).1
  rw [List.append_nil] at hsep
  rw [tokensAt, chars_append]
  exact tokensFrom_append hd hsep p

theorem tokensAt_space (d : Doc) (p : Position) :
    tokensAt p (.space :: d) = d.tokensAt (p.advance [' ']) := by
  rw [tokensAt, chars_space, (lexemes_blank rfl _).2]
  rfl

theorem tokens_readTokens_render (d : Doc) :
    (readTokens d.render.toList).tokens = d.tokensAt .start := rfl

/-- The text of the pieces further right on the first line. -/
theorem tokensAt_right (d : Doc) {p : Position} (hp : 1 ≤ p.line) (columns : Nat) :
    d.tokensAt (p.right columns) = (d.tokensAt p).map (·.move (.right columns)) :=
  tokensFrom_move (Position.advance_right columns hp) _

theorem readTokens_render (h : d.Separated []) :
    (readTokens d.render.toList).stop = none ∧ d.Tokens (readTokens d.render.toList).tokens := by
  obtain ⟨hrest, htokens⟩ := tokens_of_separated h .start
  refine ⟨?_, htokens⟩
  change (lexemes (chars d)).2.head?.map _ = none
  rw [hrest]
  rfl

/-! ## Pieces that can stand before anything that ends a word -/

/-- Is each word of the pieces read as a token before all characters that end a word? -/
def Firm (d : Doc) : Prop := ∀ rest, Breaks rest → d.Separated rest

/-- Do the pieces end a word before them? -/
def Ends (d : Doc) : Prop := ∀ rest, Breaks rest → Breaks (chars d ++ rest)

theorem ends_nil : Ends [] := fun _ h => h

theorem ends_space (d : Doc) : Ends (.space :: d) := by
  intro rest _
  rw [chars_space]
  exact breaks_cons (by decide) _

theorem ends_newline (depth : Nat) (d : Doc) : Ends (.newline depth :: d) := by
  intro rest _
  rw [chars_newline]
  exact breaks_cons (by decide) _

theorem firm_nil : Firm [] := fun _ _ => trivial

theorem Firm.space (h : Firm d) : Firm (.space :: d) := h

theorem Firm.newline {depth : Nat} (h : Firm d) : Firm (.newline depth :: d) := h

theorem Firm.append (hd : Firm d) (he : Firm e) (hs : Ends e) : Firm (d ++ e) :=
  fun rest hr => separated_append.2 ⟨hd _ (hs rest hr), he rest hr⟩

/-- A name, a number or a string. -/
theorem Firm.word {k : TokenKind} (hw : IsToken k w) (hk : k.isWord) (h : Firm d) (hs : Ends d) :
    Firm (.word w :: d) :=
  fun rest hr => ⟨⟨k, hw.lexes_of_breaks hk (hs rest hr)⟩, h rest hr⟩

/-- A token before a space. -/
theorem Firm.apart {k : TokenKind} (hw : IsToken k w) (h : Firm d) :
    Firm (.word w :: .space :: d) := by
  refine fun rest hr => ⟨⟨k, ?_⟩, h rest hr⟩
  rw [chars_space]
  exact hw.lexes_space _

/-- A symbol that nothing can go on with. -/
theorem Firm.symbol {k : TokenKind} (hw : (w, k) ∈ firmSymbols) (h : Firm d) :
    Firm (.word w :: d) :=
  fun rest hr => ⟨⟨k, lexes_firm hw _⟩, h rest hr⟩

end Doc

end AutoAwait
