import AutoAwait.ParseTree.Parser
import AutoAwait.Proofs.Token.Lexing
import AutoAwait.Text.WordChar
import Mathlib.Data.List.TakeWhile

/-!
# Tokens that can be read again

A token is read in the same way wherever it stands, as long as what comes after it cannot go on with
it: any token before the end of the text and most before a space or a bracket.

* `IsToken` says which texts are tokens of which kind, `Lexes.isToken` that those of a text are;
* `Breaks` describes what ends a name, a number and a string: `IsToken.lexes_of_breaks`;
* `IsToken.lexes_space` is about symbols before a space, `lexes_firm` about symbols that nothing
  can go on with, `lexes_sign` about operators before their operands.
-/

namespace AutoAwait

/-! ## Characters -/

theorem toNat_of_isDecimalDigit {c : Char} (h : isDecimalDigit c) :
    (0x30 ≤ c.toNat ∧ c.toNat ≤ 0x39) ∨ 0x660 ≤ c.toNat := by
  have hr : ∀ r ∈ decimalRuns, r = (0x30, 0x39) ∨ 0x660 ≤ r.1 := by decide
  obtain ⟨r, hmem, hl, hu⟩ := (CodeRanges.mem_iff _ _).1 h
  rcases hr r hmem with rfl | h
  · exact .inl ⟨hl, hu⟩
  · exact .inr (Nat.le_trans h hl)

theorem toNat_of_isNameStart {c : Char} (h : isNameStart c) :
    (0x41 ≤ c.toNat ∧ c.toNat ≤ 0x5a) ∨ (0x61 ≤ c.toNat ∧ c.toNat ≤ 0x7a) ∨ c = '_' ∨ c = '$' := by
  change (decide (c.val ≥ 65 ∧ c.val ≤ 90) || (decide (c.val ≥ 97) && decide (c.val ≤ 122)) ||
    c == '_' || c == '$') = true at h
  simp only [Bool.or_eq_true, Bool.and_eq_true, decide_eq_true_eq, beq_iff_eq] at h
  rcases h with (((⟨hl, hu⟩ | ⟨hl, hu⟩) | h) | h)
  · exact .inl ⟨hl, hu⟩
  · exact .inr (.inl ⟨hl, hu⟩)
  · exact .inr (.inr (.inl h))
  · exact .inr (.inr (.inr h))

theorem isDecimalDigit_of_isNameStart {c : Char} (h : isNameStart c) :
    isDecimalDigit c = false := by
  rw [← Bool.not_eq_true]
  intro hd
  have hd := toNat_of_isDecimalDigit hd
  rcases toNat_of_isNameStart h with h | h | rfl | rfl
  · omega
  · omega
  · revert hd; decide
  · revert hd; decide

/-! ## Numbers and names before other characters -/

/-- Do characters end a name, a number or a string? -/
structure Breaks (rest : List Char) : Prop where
  name : ∀ c ∈ rest.head?, isNameChar c = false
  digit : ∀ c ∈ rest.head?, isDecimalDigit c = false
  point : fraction isDecimalDigit rest = ([], rest)

theorem breaks_nil : Breaks [] := ⟨nofun, nofun, rfl⟩

theorem breaks_cons {c : Char}
    (h : c ∈ [' ', '\n', '(', ')', '[', ']', '\x7b', '\x7d', ',', ';', ':', '+', '-'])
    (rest : List Char) : Breaks (c :: rest) := by
  -- `all` goes through the list; `∀ c ∈` could be decided over all characters
  have hall : [' ', '\n', '(', ')', '[', ']', '\x7b', '\x7d', ',', ';', ':', '+', '-'].all fun c =>
      !isNameChar c && (decide (c.toNat < 0x30) || decide (0x39 < c.toNat ∧ c.toNat < 0x660)) &&
        c != '.' := by
    decide
  have hc := List.all_eq_true.1 hall c h
  simp only [Bool.and_eq_true, Bool.not_eq_true', Bool.or_eq_true, decide_eq_true_eq,
    bne_iff_ne] at hc
  obtain ⟨⟨hn, hd⟩, hp⟩ := hc
  refine ⟨?_, ?_, ?_⟩
  · rintro _ ⟨⟩
    exact hn
  · rintro _ ⟨⟩
    rw [← Bool.not_eq_true]
    intro hdigit
    have := toNat_of_isDecimalDigit hdigit
    omega
  · rw [fraction]
    rintro cs ⟨⟩
    exact hp rfl

theorem breaks_dot {cs : List Char} (h : ∀ c ∈ cs.head?, isDecimalDigit c = false) :
    Breaks ('.' :: cs) := by
  refine ⟨?_, ?_, ?_⟩
  · rintro _ ⟨⟩
    decide
  · rintro _ ⟨⟩
    decide
  · cases cs with
    | nil => rfl
    | cons c cs => simp [fraction, h c rfl]

section runs
variable {p : Char → Bool} {rest : List Char}

theorem takeWhile_of_head (h : ∀ c ∈ rest.head?, p c = false) : rest.takeWhile p = [] := by
  cases rest with
  | nil => rfl
  | cons c cs => simp [h c rfl]

theorem dropWhile_of_head (h : ∀ c ∈ rest.head?, p c = false) : rest.dropWhile p = rest := by
  cases rest with
  | nil => rfl
  | cons c cs => simp [h c rfl]

theorem takeWhile_again (h : ∀ c ∈ rest.head?, p c = false) (cs : List Char) :
    (cs.takeWhile p ++ rest).takeWhile p = cs.takeWhile p := by
  rw [List.takeWhile_append_of_pos fun _ => List.mem_takeWhile_imp, takeWhile_of_head h,
    List.append_nil]

theorem dropWhile_again (h : ∀ c ∈ rest.head?, p c = false) (cs : List Char) :
    (cs.takeWhile p ++ rest).dropWhile p = rest := by
  rw [List.dropWhile_append_of_pos fun _ => List.mem_takeWhile_imp, dropWhile_of_head h]

/-- Is there a fraction, it is a point and digits. -/
theorem fraction_eq (p : Char → Bool) (cs : List Char) : (fraction p cs).1 = [] ∨
    ∃ ds : List Char, (fraction p cs).1 = '.' :: ds.takeWhile p ∧
      (ds.takeWhile p).isEmpty = false := by
  unfold fraction
  split
  · split
    · exact .inl rfl
    · exact .inr ⟨_, rfl, Bool.eq_false_iff.2 ‹_›⟩
  · exact .inl rfl

/-- A fraction is read again before characters that do not go on with it. -/
theorem fraction_again (h : ∀ c ∈ rest.head?, p c = false) {cs : List Char}
    (hp : (fraction p cs).1 = [] → fraction p rest = ([], rest)) :
    fraction p ((fraction p cs).1 ++ rest) = ((fraction p cs).1, rest) := by
  obtain hf | ⟨ds, hf, hd⟩ := fraction_eq p cs
  · rw [hf]
    exact hp hf
  · rw [hf, List.cons_append, fraction, takeWhile_again h, dropWhile_again h, if_neg (by simp [hd])]

theorem sign_eq (cs : List Char) :
    (sign cs).1 = [] ∨ (sign cs).1 = ['+'] ∨ (sign cs).1 = ['-'] := by
  unfold sign
  split
  · exact .inr (.inl rfl)
  · exact .inr (.inr rfl)
  · exact .inl rfl

/-- Is there an exponent, it is a letter, perhaps a sign, and digits. -/
theorem exponent_eq (p : Char → Bool) (cs : List Char) : (exponent p cs).1 = [] ∨
    ∃ (c : Char) (ds es : List Char), (c = 'e' ∨ c = 'E') ∧
      (exponent p cs).1 = c :: (sign ds).1 ++ es.takeWhile p ∧
      (es.takeWhile p).isEmpty = false := by
  cases cs with
  | nil => exact .inl rfl
  | cons c cs =>
    simp only [exponent]
    split
    · rename_i h
      exact .inr ⟨c, cs, (sign cs).2, h.1, rfl, h.2⟩
    · exact .inl rfl

/-- An exponent is read again before characters that do not go on with it. -/
theorem exponent_again (hp : p '+' = false ∧ p '-' = false) (h : ∀ c ∈ rest.head?, p c = false)
    {cs : List Char} (he : (exponent p cs).1 = [] → exponent p rest = ([], rest)) :
    exponent p ((exponent p cs).1 ++ rest) = ((exponent p cs).1, rest) := by
  obtain hf | ⟨c, ds, es, hc, hf, hd⟩ := exponent_eq p cs
  · rw [hf]
    exact he hf
  · have hs : sign ((sign ds).1 ++ (es.takeWhile p ++ rest)) =
        ((sign ds).1, es.takeWhile p ++ rest) := by
      rcases sign_eq ds with hs | hs | hs
      · rw [hs, List.nil_append]
        cases es with
        | nil => cases hd
        | cons e es =>
          have he : p e := by
            by_contra he
            simp [he] at hd
          rw [List.takeWhile_cons_of_pos he, List.cons_append, sign]
          · rintro _ ⟨⟩
            rw [hp.1] at he
            cases he
          · rintro _ ⟨⟩
            rw [hp.2] at he
            cases he
      · rw [hs]
        rfl
      · rw [hs]
        rfl
    rw [hf, List.cons_append, List.cons_append, List.append_assoc, exponent]
    simp only [hs, takeWhile_again h, dropWhile_again h, hd, hc, and_self, if_true,
      List.cons_append]

end runs

/-- A number is read again before characters that do not go on with it. -/
theorem number?_again {cs w rest ds : List Char} (h : number? cs = some (w, rest))
    (hd : Breaks ds) : number? (w ++ ds) = some (w, ds) := by
  have hexp : exponent isDecimalDigit ds = ([], ds) := by
    cases ds with
    | nil => rfl
    | cons d ds =>
      have hn := hd.name d rfl
      rw [exponent, if_neg]
      rintro ⟨rfl | rfl, -⟩ <;> exact absurd hn (by decide)
  rw [number?] at h
  split at h
  · cases h
  · rename_i hi
    cases h
    -- what follows the digits, the fraction and the exponent in turn
    have he : exponent isDecimalDigit ((exponent isDecimalDigit
        (fraction isDecimalDigit (cs.dropWhile isDecimalDigit)).2).1 ++ ds) = (_, ds) :=
      exponent_again (by decide) hd.digit fun _ => hexp
    have hehead : ∀ c ∈ ((exponent isDecimalDigit
        (fraction isDecimalDigit (cs.dropWhile isDecimalDigit)).2).1 ++ ds).head?,
        isDecimalDigit c = false := by
      obtain hf | ⟨c, _, _, hc, hf, -⟩ := exponent_eq isDecimalDigit
        (fraction isDecimalDigit (cs.dropWhile isDecimalDigit)).2
      · rw [hf]
        exact hd.digit
      · rw [hf]
        rintro _ ⟨⟩
        rcases hc with rfl | rfl <;> decide
    have hf : fraction isDecimalDigit ((fraction isDecimalDigit (cs.dropWhile isDecimalDigit)).1 ++
        ((exponent isDecimalDigit (fraction isDecimalDigit (cs.dropWhile isDecimalDigit)).2).1 ++
          ds)) = ((fraction isDecimalDigit (cs.dropWhile isDecimalDigit)).1,
        (exponent isDecimalDigit (fraction isDecimalDigit (cs.dropWhile isDecimalDigit)).2).1 ++
          ds) := by
      refine fraction_again hehead fun _ => ?_
      obtain hf | ⟨c, _, _, hc, hf, -⟩ := exponent_eq isDecimalDigit
        (fraction isDecimalDigit (cs.dropWhile isDecimalDigit)).2
      · rw [hf]
        exact hd.point
      · rw [hf]
        rcases hc with rfl | rfl <;> rfl
    have hfhead : ∀ c ∈ ((fraction isDecimalDigit (cs.dropWhile isDecimalDigit)).1 ++
        ((exponent isDecimalDigit (fraction isDecimalDigit (cs.dropWhile isDecimalDigit)).2).1 ++
          ds)).head?, isDecimalDigit c = false := by
      obtain hf | ⟨_, hf, -⟩ := fraction_eq isDecimalDigit (cs.dropWhile isDecimalDigit)
      · rw [hf]
        exact hehead
      · rw [hf]
        rintro _ ⟨⟩
        decide
    rw [number?, List.append_assoc, List.append_assoc, takeWhile_again hfhead,
      dropWhile_again hfhead, if_neg hi]
    simp only [hf, he]

/-- A name is read again before a character that does not go on with it. -/
theorem name?_again {cs w rest ds : List Char} (h : name? cs = some (w, rest)) (hd : Breaks ds) :
    name? (w ++ ds) = some (w, ds) := by
  cases cs with
  | nil => cases h
  | cons c cs =>
    rw [name?] at h
    split at h
    · cases h
      rw [List.cons_append, name?, if_pos ‹_›, takeWhile_again hd.name, dropWhile_again hd.name]
    · cases h

/-! ## Tokens by themselves -/

theorem quoted?_of_head {cs : List Char} (h : ∀ c ∈ cs.head?, c ≠ '\'' ∧ c ≠ '"') :
    quoted? cs = none := by
  cases cs with
  | nil => rfl
  | cons c cs =>
    rw [quoted?_cons, if_neg]
    rintro (rfl | rfl)
    · exact (h _ rfl).1 rfl
    · exact (h _ rfl).2 rfl

theorem number?_of_head {cs : List Char} (h : ∀ c ∈ cs.head?, isDecimalDigit c = false) :
    number? cs = none := by
  rw [number?, takeWhile_of_head h]
  rfl

/-- Is this a kind of tokens that a space or a bracket ends? -/
def TokenKind.isWord : TokenKind → Bool
  | .string | .number | .name | .keyword _ => true
  | _ => false

theorem isWord_nameKind (w : List Char) : (nameKind w).isWord := by
  unfold nameKind
  split <;> rfl

theorem isWord_of_mem_symbols {s : List Char × TokenKind} (h : s ∈ symbols) :
    s.2.isWord = false := by
  revert s
  decide

/-- A name, a number or a string is read again before characters that end it. -/
theorem Lexes.again {cs w rest ds : List Char} {k : TokenKind} (h : Lexes cs ⟨.token k, w⟩ rest)
    (hk : k.isWord) (hd : Breaks ds) : Lexes (w ++ ds) ⟨.token k, w⟩ ds := by
  have hquote : ∀ {c : Char}, isDecimalDigit c ∨ isNameStart c → c ≠ '\'' ∧ c ≠ '"' := by
    intro c hc
    constructor <;> rintro rfl <;> revert hc <;> decide
  generalize hl : (⟨.token k, w⟩ : Lexeme) = l at h
  cases h with
  | string h =>
    cases hl
    exact .string ((quoted?_some h).2 ds)
  | number _ h =>
    cases hl
    have hw := (number?_split h).2
    refine .number (quoted?_of_head fun c hc => hquote (.inl ?_)) (number?_again h hd)
    cases w with
    | nil => cases hw
    | cons _ _ =>
      cases hc
      exact hw
  | name _ _ h =>
    obtain ⟨rfl, rfl⟩ : k = nameKind _ ∧ w = _ := by simpa using hl
    have hw := (name?_split h).2
    have hhead : ∀ c ∈ (w ++ ds).head?, isNameStart c := by
      cases w with
      | nil => cases hw
      | cons _ _ =>
        rintro _ ⟨⟩
        exact hw
    exact .name (quoted?_of_head fun c hc => hquote (.inr (hhead c hc)))
      (number?_of_head fun c hc => isDecimalDigit_of_isNameStart (hhead c hc)) (name?_again h hd)
  | symbol _ _ _ _ _ _ h =>
    cases hl
    rw [isWord_of_mem_symbols (symbol?_split h).2] at hk
    cases hk
  | _ => cases hl

theorem Lexes.symbol_of_not_isWord {cs w rest : List Char} {k : TokenKind}
    (h : Lexes cs ⟨.token k, w⟩ rest) (hk : k.isWord = false) : (w, k) ∈ symbols := by
  generalize hl : (⟨.token k, w⟩ : Lexeme) = l at h
  cases h with
  | name _ _ h =>
    obtain ⟨rfl, rfl⟩ : k = nameKind _ ∧ w = _ := by simpa using hl
    rw [isWord_nameKind] at hk
    cases hk
  | symbol _ _ _ _ _ _ h =>
    cases hl
    exact (symbol?_split h).2
  | string _ | number _ _ => cases hl; cases hk
  | _ => cases hl

/-- Is this text a token of this kind, read by itself? -/
def IsToken (k : TokenKind) (text : String) : Prop :=
  Lexes text.toList ⟨.token k, text.toList⟩ []

/-- A reserved word has one spelling. -/
theorem IsToken.eq_spelling {k : Keyword} {text : String} (h : IsToken (.keyword k) text) :
    text = k.spelling := by
  have hs : ∀ s ∈ symbols, s.2.isKeyword = false := by decide
  unfold IsToken at h
  generalize hl : (⟨.token (.keyword k), text.toList⟩ : Lexeme) = l at h
  cases h with
  | name _ _ _ =>
    obtain ⟨hk, rfl⟩ : nameKind _ = .keyword k ∧ _ = text.toList := by simpa [eq_comm] using hl
    unfold nameKind at hk
    rw [String.ofList_toList] at hk
    split at hk
    · rename_i w hw
      cases hk
      exact (Keyword.spelling_of_ofString? hw).symm
    · cases hk
  | symbol _ _ _ _ _ _ h =>
    cases hl
    have hk := hs _ (symbol?_split h).2
    cases hk
  | _ => cases hl

/-- A text is a token of one kind only. -/
theorem IsToken.unique {k k' : TokenKind} {text : String} (h : IsToken k text)
    (h' : IsToken k' text) : k = k' := by
  have he := (lexeme?_iff.2 h).symm.trans (lexeme?_iff.2 h')
  simpa using he

theorem isToken_keyword (k : Keyword) : IsToken (.keyword k) k.spelling := by
  cases k <;> exact lexeme?_iff.1 (by decide +kernel)

/-- Names and reserved words begin like names. -/
theorem IsToken.nameStart {k : TokenKind} {text : String} (h : IsToken k text)
    (hk : k = .name ∨ k.isKeyword) : text.toList.head?.any isNameStart := by
  have hs : ∀ s ∈ symbols, ¬ (s.2 = .name ∨ s.2.isKeyword) := by decide
  unfold IsToken at h
  generalize hl : (⟨.token k, text.toList⟩ : Lexeme) = l at h
  cases h with
  | string _ | number _ _ => cases hl; rcases hk with hk | hk <;> cases hk
  | name _ _ h =>
    obtain ⟨-, ht⟩ : k = nameKind _ ∧ text.toList = _ := by simpa using hl
    rw [ht]
    exact (name?_split h).2
  | symbol _ _ _ _ _ _ h =>
    cases hl
    exact absurd hk (hs _ (symbol?_split h).2)
  | _ => cases hl

/-- A token is on one line, unless it is a line break. -/
theorem IsToken.not_mem_newline {k : TokenKind} {text : String} (h : IsToken k text)
    (hk : k ≠ .newline) : '\n' ∉ text.toList := by
  have hs : ∀ s ∈ symbols, s.2 ≠ .newline → '\n' ∉ s.1 := by decide
  unfold IsToken at h
  intro hmem
  obtain ⟨cs, ds, hsplit⟩ := List.append_of_mem hmem
  -- what a word is read from leaves the line break over
  have hrest : ∀ {o : Option (List Char × List Char)} {w : List Char},
      o.map (fun r => (r.1, r.2 ++ '\n' :: ds)) ≠ some (w, []) := by
    rintro (- | ⟨v, vs⟩) w h
    · cases h
    · simp at h
  generalize hl : (⟨.token k, text.toList⟩ : Lexeme) = l at h
  cases h with
  | string h =>
    rw [hsplit, quoted?_newline] at h
    exact hrest h
  | number _ h =>
    rw [hsplit, number?_before cuts_newline] at h
    exact hrest h
  | name _ _ h =>
    rw [hsplit, name?_before cuts_newline] at h
    exact hrest h
  | symbol _ _ _ _ _ _ h =>
    cases hl
    exact hs _ (symbol?_split h).2 hk hmem
  | _ => cases hl

theorem isToken_symbol {k : TokenKind} {text : String} (h : (text.toList, k) ∈ symbols) :
    IsToken k text := by
  have hs : ∀ s ∈ symbols, lexeme? s.1 = some (⟨.token s.2, s.1⟩, []) := by decide
  exact lexeme?_iff.1 (hs _ h)

/-- A token of a text is one by itself. -/
theorem Lexes.isToken {cs w rest : List Char} {k : TokenKind} (h : Lexes cs ⟨.token k, w⟩ rest) :
    IsToken k (String.ofList w) := by
  cases hk : k.isWord with
  | true =>
    rw [IsToken, String.toList_ofList]
    simpa using h.again hk breaks_nil
  | false =>
    refine isToken_symbol ?_
    rw [String.toList_ofList]
    exact h.symbol_of_not_isWord hk

namespace IsToken

variable {k : TokenKind} {text : String}

/-- A name, a number or a string before characters that end it. -/
theorem lexes_of_breaks (h : IsToken k text) (hk : k.isWord) {rest : List Char}
    (hr : Breaks rest) : Lexes (text.toList ++ rest) ⟨.token k, text.toList⟩ rest :=
  Lexes.again h hk hr

theorem mem_symbols (h : IsToken k text) (hk : k.isWord = false) : (text.toList, k) ∈ symbols :=
  h.symbol_of_not_isWord hk

/-- A symbol before a space. -/
theorem lexes_space (h : IsToken k text) (rest : List Char) :
    Lexes (text.toList ++ ' ' :: rest) ⟨.token k, text.toList⟩ (' ' :: rest) := by
  have hs : ∀ s ∈ symbols, ∀ rest,
      lexeme? (s.1 ++ ' ' :: rest) = some (⟨.token s.2, s.1⟩, ' ' :: rest) := by
    unfold symbols
    repeat refine List.forall_mem_cons.2 ⟨fun _ => rfl, ?_⟩
    exact nofun
  cases hk : k.isWord with
  | true => exact h.lexes_of_breaks hk (breaks_cons (by decide) rest)
  | false => exact lexeme?_iff.1 (hs _ (h.mem_symbols hk) rest)

end IsToken

/-- The symbols that nothing can go on with, but a dot. -/
def firmSymbols : List (String × TokenKind) :=
  [("(", .lparen), (")", .rparen), ("[", .lbracket), ("]", .rbracket), ("\x7b", .lbrace),
    ("\x7d", .rbrace), (",", .comma), (";", .semicolon), (":", .colon), (".", .dot),
    ("++", .incDec), ("--", .incDec)]

/-- A symbol that nothing can go on with is a token before any characters. -/
theorem lexes_firm {s : String × TokenKind} (h : s ∈ firmSymbols) (rest : List Char) :
    Lexes (s.1.toList ++ rest) ⟨.token s.2, s.1.toList⟩ rest := by
  have hs : ∀ s ∈ firmSymbols, ∀ rest,
      lexeme? (s.1.toList ++ rest) = some (⟨.token s.2, s.1.toList⟩, rest) := by
    unfold firmSymbols
    repeat refine List.forall_mem_cons.2 ⟨fun _ => rfl, ?_⟩
    exact nofun
  exact lexeme?_iff.1 (hs s h rest)

theorem isToken_firm {s : String × TokenKind} (h : s ∈ firmSymbols) : IsToken s.2 s.1 := by
  simpa [IsToken] using lexes_firm h []

/-- The operators before an operand that are no words. -/
theorem IsToken.sign {k : TokenKind} {text : String} (h : IsToken k text)
    (hk : Grammar.isUnaryOperator k) (hw : k.isWord = false) :
    (text.toList, k) = (['+'], .addOp) ∨ (text.toList, k) = (['-'], .addOp) ∨
      (text.toList, k) = (['!'], .bang) := by
  have hs : ∀ s ∈ symbols, Grammar.isUnaryOperator s.2 →
      s = (['+'], .addOp) ∨ s = (['-'], .addOp) ∨ s = (['!'], .bang) := by decide +kernel
  exact hs _ (h.mem_symbols hw) hk

/-- An operator before its operand, which begins neither with the same character nor with `=`. -/
theorem lexes_sign {k : TokenKind} {text : String} (h : IsToken k text)
    (hk : Grammar.isUnaryOperator k) (hw : k.isWord = false) {rest : List Char}
    (hr : text.toList.isPrefixOf rest = false) (he : rest.head? ≠ some '=') :
    Lexes (text.toList ++ rest) ⟨.token k, text.toList⟩ rest := by
  have hm := h.sign hk hw
  generalize text.toList = w at hm hr ⊢
  cases rest with
  | nil => rcases hm with ⟨⟨⟩⟩ | ⟨⟨⟩⟩ | ⟨⟨⟩⟩ <;> exact .symbol rfl rfl rfl rfl rfl rfl rfl
  | cons c cs =>
    have hc : ('=' == c) = false := by
      rw [beq_eq_false_iff_ne]
      rintro rfl
      exact he rfl
    have ho : ∀ {o : Char}, [o].isPrefixOf (c :: cs) = false → (o == c) = false := by
      intro o ho
      rwa [List.isPrefixOf, List.isPrefixOf, Bool.and_true] at ho
    rcases hm with ⟨⟨⟩⟩ | ⟨⟨⟩⟩ | ⟨⟨⟩⟩ <;> refine .symbol rfl rfl rfl rfl rfl rfl ?_ <;>
      simp [symbol?, symbols, List.find?, List.isPrefixOf, hc, ho hr]

/-! ## The first and the last character of a token -/

/-- Few tokens begin with an equals sign. -/
theorem IsToken.start {k : TokenKind} {text : String} (h : IsToken k text)
    (hk : k ≠ .assign ∧ k ≠ .equality ∧ k ≠ .arrow) :
    ∃ c cs, text.toList = c :: cs ∧ c ≠ '=' := by
  obtain ⟨c, cs, hc⟩ := List.exists_cons_of_ne_nil h.split.2
  refine ⟨c, cs, hc, ?_⟩
  rintro rfl
  replace hc : text.toList = '=' :: cs := hc
  unfold IsToken at h
  rw [hc] at h
  generalize hl : (⟨.token k, '=' :: cs⟩ : Lexeme) = l at h
  cases h with
  | string h =>
    rw [quoted?_cons, if_neg (by decide)] at h
    cases h
  | number _ h =>
    cases hl
    exact absurd (number?_split h).2 (by simp; decide)
  | name _ _ h =>
    obtain ⟨-, rfl⟩ : k = nameKind _ ∧ '=' :: cs = _ := by simpa using hl
    exact absurd (name?_split h).2 (by simp; decide)
  | symbol _ _ _ _ _ _ h =>
    cases hl
    have hs : ∀ s ∈ symbols, s.1.head? = some '=' →
        s.2 = .assign ∨ s.2 = .equality ∨ s.2 = .arrow := by
      decide
    have hm := hs _ (symbol?_split h).2 rfl
    tauto
  | _ => cases hl

theorem quotedRest_last {q : Char} {cs w rest : List Char}
    (h : quotedRest q cs = some (w, rest)) : w.getLast? = some q := by
  fun_induction quotedRest q cs generalizing w with
  | case1 | case2 | case5 => cases h
  | case3 c cs hc ih =>
    obtain ⟨⟨w, _⟩, hr, ⟨⟩⟩ := Option.map_eq_some_iff.1 h
    simp [List.getLast?_cons, ih hr]
  | case4 cs hn =>
    cases h
    rfl
  | case6 c cs hn hcq hc ih =>
    obtain ⟨⟨w, _⟩, hr, ⟨⟩⟩ := Option.map_eq_some_iff.1 h
    simp [List.getLast?_cons, ih hr]

theorem quoted?_last {cs w rest : List Char} (h : quoted? cs = some (w, rest)) :
    w.getLast? = some '\'' ∨ w.getLast? = some '"' := by
  cases cs with
  | nil => cases h
  | cons c cs =>
    rw [quoted?_cons] at h
    split at h
    · rename_i hc
      obtain ⟨⟨w, _⟩, hr, ⟨⟩⟩ := Option.map_eq_some_iff.1 h
      rcases hc with rfl | rfl
      · exact .inl (by simp [List.getLast?_cons, quotedRest_last hr])
      · exact .inr (by simp [List.getLast?_cons, quotedRest_last hr])
    · cases h

theorem mem_getLast_takeWhile {p : Char → Bool} {cs : List Char} {c : Char}
    (h : c ∈ (cs.takeWhile p).getLast?) : p c :=
  List.mem_takeWhile_imp (List.mem_of_getLast? h)

theorem number?_last {cs w rest : List Char} (h : number? cs = some (w, rest)) :
    ∀ c ∈ w.getLast?, isDecimalDigit c := by
  rw [number?] at h
  split at h
  · cases h
  · cases h
    -- an exponent and a fraction that are there end in a digit, as the digits before them do
    have hlast : ∀ {us vs : List Char}, (∀ c ∈ us.getLast?, isDecimalDigit c) →
        (vs = [] ∨ ∃ ws : List Char, vs.getLast? = (ws.takeWhile isDecimalDigit).getLast?) →
        ∀ c ∈ (us ++ vs).getLast?, isDecimalDigit c := by
      intro us vs hus hvs c hc
      rw [List.getLast?_append] at hc
      rcases hvs with rfl | ⟨ws, hws⟩
      · exact hus c (by simpa using hc)
      · rw [hws] at hc
        cases hl : (ws.takeWhile isDecimalDigit).getLast? with
        | none => exact hus c (by simpa [hl] using hc)
        | some d =>
          rw [hl] at hc
          obtain rfl : d = c := Option.some.inj hc
          exact mem_getLast_takeWhile hl
    refine hlast (hlast (fun _ => mem_getLast_takeWhile) ?_) ?_
    · obtain hf | ⟨ds, hf, hd⟩ := fraction_eq isDecimalDigit (cs.dropWhile isDecimalDigit)
      · exact .inl hf
      · refine .inr ⟨ds, ?_⟩
        rw [hf, List.getLast?_cons]
        cases hl : (ds.takeWhile isDecimalDigit).getLast? with
        | none => simp [List.getLast?_eq_none_iff.1 hl] at hd
        | some d => rfl
    · obtain hf | ⟨c, ds, es, -, hf, hd⟩ := exponent_eq isDecimalDigit
        (fraction isDecimalDigit (cs.dropWhile isDecimalDigit)).2
      · exact .inl hf
      · refine .inr ⟨es, ?_⟩
        rw [hf, List.getLast?_append]
        cases hl : (es.takeWhile isDecimalDigit).getLast? with
        | none => simp [List.getLast?_eq_none_iff.1 hl] at hd
        | some d => rfl

theorem name?_last {cs w rest : List Char} (h : name? cs = some (w, rest)) :
    ∀ c ∈ w.getLast?, isNameChar c := by
  cases cs with
  | nil => cases h
  | cons c cs =>
    rw [name?] at h
    split at h
    · rename_i hc
      cases h
      intro d hd
      rcases List.mem_cons.1 (List.mem_of_getLast? hd) with rfl | hd
      · exact isNameChar_of_isNameStart hc
      · exact List.mem_takeWhile_imp hd
    · cases h

theorem isBlank_eq_false {c : Char} (h : 0x20 < c.toNat ∧ c.toNat < 0x85) : isBlank c = false := by
  have hr : ∀ r ∈ blanks, r.2 ≤ 0x20 ∨ 0x85 ≤ r.1 := by decide
  rw [← Bool.not_eq_true]
  intro hb
  obtain ⟨r, hmem, hl, hu⟩ := (CodeRanges.mem_iff _ _).1 hb
  rcases hr r hmem with hr | hr <;> omega

theorem isBlank_of_isDecimalDigit {c : Char} (h : isDecimalDigit c) : isBlank c = false := by
  have hd : ∀ r ∈ decimalRuns, ∀ b ∈ blanks, r.2 < b.1 ∨ b.2 < r.1 := by decide
  rw [← Bool.not_eq_true]
  intro hb
  obtain ⟨r, hr, hrl, hru⟩ := (CodeRanges.mem_iff _ _).1 h
  obtain ⟨b, hb, hbl, hbu⟩ := (CodeRanges.mem_iff _ _).1 hb
  rcases hd r hr b hb with h | h <;> omega

theorem toNat_of_isNameChar {c : Char} (h : isNameChar c) : 0x20 < c.toNat ∧ c.toNat < 0x85 := by
  change (decide (c.val ≥ 65 ∧ c.val ≤ 90) || (decide (c.val ≥ 97) && decide (c.val ≤ 122)) ||
    (decide (c.val ≥ 48) && decide (c.val ≤ 57)) || c == '_' || c == '$') = true at h
  simp only [Bool.or_eq_true, Bool.and_eq_true, decide_eq_true_eq, beq_iff_eq] at h
  rcases h with (((⟨hl, hu⟩ | ⟨hl, hu⟩) | ⟨hl, hu⟩) | rfl) | rfl
  · exact ⟨Nat.lt_of_lt_of_le (by decide) hl, Nat.lt_of_le_of_lt hu (by decide)⟩
  · exact ⟨Nat.lt_of_lt_of_le (by decide) hl, Nat.lt_of_le_of_lt hu (by decide)⟩
  · exact ⟨Nat.lt_of_lt_of_le (by decide) hl, Nat.lt_of_le_of_lt hu (by decide)⟩
  · decide
  · decide

/-- No token but a newline ends with a blank. -/
theorem IsToken.last_not_blank {k : TokenKind} {text : String} (h : IsToken k text)
    (hk : k ≠ .newline) : ∀ c ∈ text.toList.getLast?, isBlank c = false := by
  unfold IsToken at h
  generalize hl : (⟨.token k, text.toList⟩ : Lexeme) = l at h
  cases h with
  | string h =>
    cases hl
    intro c hc
    rcases quoted?_last h with hq | hq <;> obtain rfl := Option.some.inj (hq.symm.trans hc) <;>
      decide
  | number _ h =>
    cases hl
    exact fun c hc => isBlank_of_isDecimalDigit (number?_last h c hc)
  | name _ _ h =>
    obtain ⟨-, rfl⟩ : k = nameKind _ ∧ text.toList = _ := by simpa using hl
    exact fun c hc => isBlank_eq_false (toNat_of_isNameChar (name?_last h c hc))
  | symbol _ _ _ _ _ _ h =>
    cases hl
    have hs : ∀ s ∈ symbols, s.2 ≠ .newline → (s.1.getLast?.all fun c => !isBlank c) = true := by
      decide
    intro c hc
    have hb := hs _ (symbol?_split h).2 hk
    rw [show text.toList.getLast? = some c from hc] at hb
    simpa using hb
  | _ => cases hl

end AutoAwait
