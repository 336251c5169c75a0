import AutoAwait.Token.Lexeme
import Mathlib.Data.List.Chain
import Mathlib.Data.List.Find

/-!
# Cutting a text in two

What is read before a character that no number, name or symbol goes on with does not depend on that
character. No lexeme but a block comment goes over a newline, so a text that can be read to its end
is read in the same way before a newline and whatever follows.

* `Cuts` describes such characters; `number?_before`, `name?_before` and `symbol?_before` are about
  what stands before them;
* `Lexes.split` says that a lexeme is a part of its text and never empty;
* `Lexes.newline` that a newline after the text changes nothing;
* `lexemes_newline` is about whole texts.
-/

namespace AutoAwait

/-! ## Runs of characters -/

section runs
variable {p : Char → Bool} {x : Char}

theorem takeWhile_before (hp : p x = false) (cs ds : List Char) :
    (cs ++ x :: ds).takeWhile p = cs.takeWhile p := by
  induction cs with
  | nil => simp [hp]
  | cons c cs ih =>
    rw [List.cons_append, List.takeWhile_cons, List.takeWhile_cons, ih]

theorem dropWhile_before (hp : p x = false) (cs ds : List Char) :
    (cs ++ x :: ds).dropWhile p = cs.dropWhile p ++ x :: ds := by
  induction cs with
  | nil => simp [hp]
  | cons c cs ih =>
    rw [List.cons_append, List.dropWhile_cons, List.dropWhile_cons, ih]
    split <;> rfl

theorem fraction_split (cs : List Char) : (fraction p cs).1 ++ (fraction p cs).2 = cs := by
  unfold fraction
  split
  · split
    · rfl
    · simp [List.takeWhile_append_dropWhile]
  · rfl

theorem sign_split (cs : List Char) : (sign cs).1 ++ (sign cs).2 = cs := by
  unfold sign
  split <;> rfl

theorem exponent_split (cs : List Char) : (exponent p cs).1 ++ (exponent p cs).2 = cs := by
  cases cs with
  | nil => rfl
  | cons c cs =>
    simp only [exponent]
    split
    · simp [List.takeWhile_append_dropWhile, sign_split]
    · rfl

theorem fraction_of_ne {c : Char} (hc : c ≠ '.') (cs : List Char) :
    fraction p (c :: cs) = ([], c :: cs) := by
  rw [fraction]
  rintro ds ⟨⟩
  exact hc rfl

theorem fraction_before (hp : p x = false) (hx : x ≠ '.') (cs ds : List Char) :
    fraction p (cs ++ x :: ds) = ((fraction p cs).1, (fraction p cs).2 ++ x :: ds) := by
  cases cs with
  | nil => exact fraction_of_ne hx ds
  | cons c cs =>
    by_cases hc : c = '.'
    · subst hc
      simp only [List.cons_append, fraction, takeWhile_before hp, dropWhile_before hp]
      split <;> rfl
    · rw [List.cons_append, fraction_of_ne hc, fraction_of_ne hc]
      rfl

theorem sign_of_ne {c : Char} (hc : c ≠ '+' ∧ c ≠ '-') (cs : List Char) :
    sign (c :: cs) = ([], c :: cs) := by
  rw [sign] <;> rintro ds ⟨⟩
  · exact hc.1 rfl
  · exact hc.2 rfl

theorem sign_before (hx : x ≠ '+' ∧ x ≠ '-') (cs ds : List Char) :
    sign (cs ++ x :: ds) = ((sign cs).1, (sign cs).2 ++ x :: ds) := by
  cases cs with
  | nil => exact sign_of_ne hx ds
  | cons c cs =>
    by_cases hplus : c = '+'
    · subst hplus
      rfl
    · by_cases hminus : c = '-'
      · subst hminus
        rfl
      · rw [List.cons_append, sign_of_ne ⟨hplus, hminus⟩, sign_of_ne ⟨hplus, hminus⟩]
        rfl

theorem exponent_before (hp : p x = false) (hx : x ≠ '+' ∧ x ≠ '-') (he : x ≠ 'e' ∧ x ≠ 'E')
    (cs ds : List Char) :
    exponent p (cs ++ x :: ds) = ((exponent p cs).1, (exponent p cs).2 ++ x :: ds) := by
  cases cs with
  | nil => simp [exponent, he]
  | cons c cs =>
    simp only [List.cons_append, exponent, sign_before hx, takeWhile_before hp,
      dropWhile_before hp]
    split <;> simp

end runs

theorem isNameChar_of_isNameStart {c : Char} (h : isNameStart c) : isNameChar c := by
  simp only [isNameStart, isNameChar, Char.isAlphanum, Bool.or_eq_true] at h ⊢
  tauto

/-- Does no number, name or symbol go on with this character? -/
structure Cuts (x : Char) : Prop where
  digit : isDecimalDigit x = false
  name : isNameChar x = false
  point : x ≠ '.'
  sign : x ≠ '+' ∧ x ≠ '-'
  symbol : ∀ s ∈ symbols, x ∉ s.1.tail

theorem cuts_newline : Cuts '\n' := ⟨by decide, by decide, by decide, by decide, by decide⟩

/-! ## The readers -/

theorem quotedRest_escape (q c : Char) (cs : List Char) : quotedRest q ('\\' :: c :: cs) =
    if c = '\n' then none else (quotedRest q cs).map fun r => ('\\' :: c :: r.1, r.2) := rfl

theorem quotedRest_cons {c : Char} (hc : c ≠ '\\') (q : Char) (cs : List Char) :
    quotedRest q (c :: cs) =
      if c = q then some ([c], cs)
      else if c = '\n' then none else (quotedRest q cs).map fun r => (c :: r.1, r.2) := by
  rw [quotedRest]
  · simp only [hc, false_or]
  · rintro d ds rfl
    exact absurd rfl hc

/-- The rest of a string literal is found whatever comes after it. -/
theorem quotedRest_some {q : Char} (hq : q ≠ '\\') {cs w rest : List Char}
    (h : quotedRest q cs = some (w, rest)) :
    cs = w ++ rest ∧ ∀ ds, quotedRest q (w ++ ds) = some (w, ds) := by
  fun_induction quotedRest q cs generalizing w with
  | case1 | case2 | case5 => cases h
  | case3 c cs hc ih =>
    obtain ⟨⟨w, _⟩, hr, ⟨⟩⟩ := Option.map_eq_some_iff.1 h
    obtain ⟨rfl, hw⟩ := ih hr
    refine ⟨rfl, fun ds => ?_⟩
    rw [List.cons_append, List.cons_append, quotedRest_escape, if_neg hc, hw]
    rfl
  | case4 cs hn =>
    cases h
    refine ⟨rfl, fun ds => ?_⟩
    rw [List.cons_append, quotedRest_cons hq, if_pos rfl]
    rfl
  | case6 c cs hn hcq hc ih =>
    obtain ⟨⟨w, _⟩, hr, ⟨⟩⟩ := Option.map_eq_some_iff.1 h
    obtain ⟨rfl, hw⟩ := ih hr
    rw [not_or] at hc
    refine ⟨rfl, fun ds => ?_⟩
    rw [List.cons_append, quotedRest_cons hc.1, if_neg hcq, if_neg hc.2, hw]
    rfl

/-- A string literal that is not closed on its line is not closed on a later one. -/
theorem quotedRest_none {q : Char} (hn : q ≠ '\n') {cs : List Char}
    (h : quotedRest q cs = none) (ds : List Char) : quotedRest q (cs ++ '\n' :: ds) = none := by
  fun_induction quotedRest q cs with
  | case1 =>
    rw [List.nil_append, quotedRest_cons (by decide), if_neg (Ne.symm hn), if_pos rfl]
  | case2 cs => rfl
  | case3 c cs hc ih =>
    rw [List.cons_append, List.cons_append, quotedRest_escape, if_neg hc,
      ih (Option.map_eq_none_iff.1 h), Option.map_none]
  | case4 => cases h
  | case5 c cs hn' hcq hc =>
    rcases hc with rfl | rfl
    · cases cs with
      | nil => rfl
      | cons d cs => exact absurd rfl (hn' d cs rfl)
    · rw [List.cons_append, quotedRest_cons (by decide), if_neg hcq, if_pos rfl]
  | case6 c cs hn' hcq hc ih =>
    rw [not_or] at hc
    rw [List.cons_append, quotedRest_cons hc.1, if_neg hcq, if_neg hc.2,
      ih (Option.map_eq_none_iff.1 h), Option.map_none]

theorem quoted?_cons (c : Char) (cs : List Char) : quoted? (c :: cs) =
    if c = '\'' ∨ c = '"' then (quotedRest c cs).map fun r => (c :: r.1, r.2) else none := rfl

theorem quote_ne {c : Char} (h : c = '\'' ∨ c = '"') : c ≠ '\\' ∧ c ≠ '\n' := by
  rcases h with rfl | rfl <;> decide

theorem quoted?_some {cs w rest : List Char} (h : quoted? cs = some (w, rest)) :
    cs = w ++ rest ∧ ∀ ds, quoted? (w ++ ds) = some (w, ds) := by
  cases cs with
  | nil => cases h
  | cons c cs =>
    rw [quoted?_cons] at h
    split at h
    · rename_i hc
      obtain ⟨⟨w, _⟩, hr, ⟨⟩⟩ := Option.map_eq_some_iff.1 h
      obtain ⟨rfl, hw⟩ := quotedRest_some (quote_ne hc).1 hr
      refine ⟨rfl, fun ds => ?_⟩
      rw [List.cons_append, quoted?_cons, if_pos hc, hw]
      rfl
    · cases h

theorem quoted?_newline (cs ds : List Char) :
    quoted? (cs ++ '\n' :: ds) = (quoted? cs).map fun r => (r.1, r.2 ++ '\n' :: ds) := by
  cases h : quoted? cs with
  | some r =>
    obtain ⟨rfl, hw⟩ := quoted?_some h
    rw [List.append_assoc, hw]
    rfl
  | none =>
    cases cs with
    | nil => rfl
    | cons c cs =>
      rw [quoted?_cons] at h
      rw [List.cons_append, quoted?_cons]
      split at h
      · rename_i hc
        rw [if_pos hc, quotedRest_none (quote_ne hc).2 (Option.map_eq_none_iff.1 h)]
        rfl
      · rw [if_neg ‹_›]
        rfl

theorem number?_before {x : Char} (hx : Cuts x) (cs ds : List Char) :
    number? (cs ++ x :: ds) = (number? cs).map fun r => (r.1, r.2 ++ x :: ds) := by
  have he : x ≠ 'e' ∧ x ≠ 'E' := by
    constructor <;> rintro rfl <;> exact absurd hx.name (by decide)
  simp only [number?, takeWhile_before hx.digit, dropWhile_before hx.digit,
    fraction_before hx.digit hx.point, exponent_before hx.digit hx.sign he]
  split <;> rfl

theorem number?_split {cs w rest : List Char} (h : number? cs = some (w, rest)) :
    cs = w ++ rest ∧ (w.head?.any isDecimalDigit) := by
  rw [number?] at h
  split at h
  · cases h
  · rename_i hd
    cases h
    refine ⟨?_, ?_⟩
    · rw [List.append_assoc, exponent_split, List.append_assoc, fraction_split,
        List.takeWhile_append_dropWhile]
    · cases cs with
      | nil => simp at hd
      | cons c cs =>
        by_cases hc : isDecimalDigit c
        · simp [hc]
        · simp [hc] at hd

theorem name?_before {x : Char} (hx : Cuts x) (cs ds : List Char) :
    name? (cs ++ x :: ds) = (name? cs).map fun r => (r.1, r.2 ++ x :: ds) := by
  cases cs with
  | nil =>
    have hs : isNameStart x = false := by
      rw [← Bool.not_eq_true]
      intro h
      exact absurd (hx.name.symm.trans (isNameChar_of_isNameStart h)) (by decide)
    simp [name?, hs]
  | cons c cs =>
    simp only [List.cons_append, name?, takeWhile_before hx.name, dropWhile_before hx.name]
    split <;> rfl

theorem name?_split {cs w rest : List Char} (h : name? cs = some (w, rest)) :
    cs = w ++ rest ∧ (w.head?.any isNameStart) := by
  cases cs with
  | nil => cases h
  | cons c cs =>
    rw [name?] at h
    split at h
    · cases h
      exact ⟨by simp [List.takeWhile_append_dropWhile], by simpa⟩
    · cases h

/-! ## Comments and blanks -/

theorem commentRest_cons {c : Char} {cs : List Char} (h : ¬ (c = '*' ∧ cs.head? = some '/')) :
    commentRest (c :: cs) = (commentRest cs).map fun r => (c :: r.1, r.2) := by
  rw [commentRest]
  rintro ds rfl rfl
  exact h ⟨rfl, rfl⟩

theorem commentRest_some {cs w rest : List Char} (h : commentRest cs = some (w, rest)) :
    cs = w ++ rest ∧ ∀ ds, commentRest (w ++ ds) = some (w, ds) := by
  fun_induction commentRest cs generalizing w with
  | case1 cs =>
    cases h
    exact ⟨rfl, fun _ => rfl⟩
  | case2 c cs hn ih =>
    obtain ⟨⟨w, _⟩, hr, ⟨⟩⟩ := Option.map_eq_some_iff.1 h
    obtain ⟨rfl, hw⟩ := ih hr
    refine ⟨rfl, fun ds => ?_⟩
    rw [List.cons_append, commentRest_cons ?_, hw]
    · rfl
    · rintro ⟨rfl, he⟩
      cases w with
      | nil => simpa [commentRest] using hw []
      | cons d w =>
        cases he
        exact hn _ rfl rfl
  | case3 => cases h

theorem blockComment?_some {cs w rest : List Char} (h : blockComment? cs = some (w, rest)) :
    cs = w ++ rest ∧ ∀ ds, blockComment? (w ++ ds) = some (w, ds) := by
  unfold blockComment? at h
  split at h
  · obtain ⟨⟨w, _⟩, hr, ⟨⟩⟩ := Option.map_eq_some_iff.1 h
    obtain ⟨rfl, hw⟩ := commentRest_some hr
    refine ⟨rfl, fun ds => ?_⟩
    rw [List.cons_append, List.cons_append, blockComment?, hw]
    rfl
  · cases h

/-- A block comment can only be opened by its mark. -/
theorem blockComment?_none {cs : List Char} (h : ∀ ds, cs ≠ '/' :: '*' :: ds) :
    blockComment? cs = none := by
  rw [blockComment?]
  rintro ds rfl
  exact h ds rfl

theorem lineComment?_slashes (cs : List Char) : lineComment? ('/' :: '/' :: cs) =
    some ('/' :: '/' :: cs.takeWhile (· ≠ '\n'), cs.dropWhile (· ≠ '\n')) := rfl

theorem lineComment?_none {cs : List Char} (h : ∀ ds, cs ≠ '/' :: '/' :: ds) :
    lineComment? cs = none := by
  rw [lineComment?]
  rintro ds rfl
  exact h ds rfl

theorem lineComment?_newline (cs ds : List Char) :
    lineComment? (cs ++ '\n' :: ds) = (lineComment? cs).map fun r => (r.1, r.2 ++ '\n' :: ds) := by
  by_cases h : ∃ es, cs = '/' :: '/' :: es
  · obtain ⟨es, rfl⟩ := h
    rw [List.cons_append, List.cons_append, lineComment?_slashes, lineComment?_slashes,
      takeWhile_before (by decide), dropWhile_before (by decide)]
    rfl
  · rw [@lineComment?_none cs fun es he => h ⟨es, he⟩, lineComment?_none]
    · rfl
    · intro es he
      rcases cs with _ | ⟨a, _ | ⟨b, cs⟩⟩ <;> cases he
      exact h ⟨cs, rfl⟩

theorem lineComment?_split {cs w rest : List Char} (h : lineComment? cs = some (w, rest)) :
    cs = w ++ rest ∧ ∃ ds, w = '/' :: '/' :: ds := by
  unfold lineComment? at h
  split at h
  · cases h
    exact ⟨by simp [List.takeWhile_append_dropWhile], _, rfl⟩
  · cases h

theorem blank?_newline (cs ds : List Char) :
    blank? (cs ++ '\n' :: ds) = (blank? cs).map fun r => (r.1, r.2 ++ '\n' :: ds) := by
  have hn : isInlineBlank '\n' = false := by decide
  simp only [blank?, takeWhile_before hn, dropWhile_before hn]
  split <;> rfl

theorem blank?_split {cs w rest : List Char} (h : blank? cs = some (w, rest)) :
    cs = w ++ rest ∧ (w.head?.any isInlineBlank) := by
  rw [blank?] at h
  split at h
  · cases h
  · rename_i hb
    cases h
    refine ⟨List.takeWhile_append_dropWhile.symm, ?_⟩
    cases cs with
    | nil => simp at hb
    | cons c cs =>
      by_cases hc : isInlineBlank c
      · simp [hc]
      · simp [hc] at hb

/-! ## Symbols -/

theorem symbol_ne_nil {w : List Char} {k : TokenKind} (h : (w, k) ∈ symbols) : w ≠ [] := by
  have hs : ∀ s ∈ symbols, s.1 ≠ [] := by decide
  exact hs _ h

theorem isPrefixOf_before {x : Char} {w : List Char} (hw : x ∉ w) (cs ds : List Char) :
    w.isPrefixOf (cs ++ x :: ds) = w.isPrefixOf cs := by
  induction w generalizing cs with
  | nil => cases cs <;> rfl
  | cons a w ih =>
    simp only [List.mem_cons, not_or] at hw
    cases cs with
    | nil => simp [List.isPrefixOf, Ne.symm hw.1]
    | cons c cs => simp [List.isPrefixOf, ih hw.2]

theorem symbol?_split {cs : List Char} {k : TokenKind} {w rest : List Char}
    (h : symbol? cs = some (k, w, rest)) : cs = w ++ rest ∧ (w, k) ∈ symbols := by
  rw [symbol?] at h
  obtain ⟨s, hs, ⟨⟩⟩ := Option.map_eq_some_iff.1 h
  have hp := List.find?_some hs
  exact ⟨(List.prefix_iff_eq_append.1 (List.isPrefixOf_iff_prefix.1 hp)).symm,
    List.mem_of_find?_eq_some hs⟩

theorem symbol?_before {x : Char} (hx : Cuts x) {cs : List Char} (hc : cs ≠ [])
    (ds : List Char) :
    symbol? (cs ++ x :: ds) = (symbol? cs).map fun r => (r.1, r.2.1, r.2.2 ++ x :: ds) := by
  have hp : ∀ s ∈ symbols, s.1.isPrefixOf (cs ++ x :: ds) = s.1.isPrefixOf cs := by
    intro s hs
    obtain ⟨c, cs, rfl⟩ := List.exists_cons_of_ne_nil hc
    obtain ⟨a, w, hw⟩ := List.exists_cons_of_ne_nil (symbol_ne_nil hs)
    have ht := hx.symbol s hs
    rw [hw, List.tail_cons] at ht
    rw [hw, List.cons_append, List.isPrefixOf, List.isPrefixOf, isPrefixOf_before ht]
  rw [symbol?, symbol?, List.find?_congr hp, Option.map_map]
  cases hs : symbols.find? fun s => s.1.isPrefixOf cs with
  | none => rfl
  | some s =>
    have hpre : s.1.isPrefixOf cs := by simpa using List.find?_some hs
    have hs := List.isPrefixOf_iff_prefix.1 hpre
    simp [List.drop_append_of_le_length hs.length_le]

/-! ## Lexemes -/

/-- The first lexeme of a text and what is left: that of the first class that matches. -/
inductive Lexes (cs : List Char) : Lexeme → List Char → Prop
  | string {w rest} (h : quoted? cs = some (w, rest)) : Lexes cs ⟨.token .string, w⟩ rest
  | number {w rest} (hq : quoted? cs = none) (h : number? cs = some (w, rest)) :
      Lexes cs ⟨.token .number, w⟩ rest
  | name {w rest} (hq : quoted? cs = none) (hn : number? cs = none)
      (h : name? cs = some (w, rest)) : Lexes cs ⟨.token (nameKind w), w⟩ rest
  | blockComment {w rest} (hq : quoted? cs = none) (hn : number? cs = none)
      (hm : name? cs = none) (h : blockComment? cs = some (w, rest)) :
      Lexes cs ⟨.blockComment, w⟩ rest
  | lineComment {w rest} (hq : quoted? cs = none) (hn : number? cs = none)
      (hm : name? cs = none) (hb : blockComment? cs = none)
      (h : lineComment? cs = some (w, rest)) : Lexes cs ⟨.lineComment, w⟩ rest
  | blank {w rest} (hq : quoted? cs = none) (hn : number? cs = none) (hm : name? cs = none)
      (hb : blockComment? cs = none) (hl : lineComment? cs = none)
      (h : blank? cs = some (w, rest)) : Lexes cs ⟨.blank, w⟩ rest
  | symbol {k w rest} (hq : quoted? cs = none) (hn : number? cs = none) (hm : name? cs = none)
      (hb : blockComment? cs = none) (hl : lineComment? cs = none) (hs : blank? cs = none)
      (h : symbol? cs = some (k, w, rest)) : Lexes cs ⟨.token k, w⟩ rest

theorem lexeme?_iff {cs : List Char} {l : Lexeme} {rest : List Char} :
    lexeme? cs = some (l, rest) ↔ Lexes cs l rest := by
  constructor
  · intro h
    unfold lexeme? at h
    cases hq : quoted? cs with
    | some r =>
      simp [hq] at h
      obtain ⟨rfl, rfl⟩ := h
      exact .string hq
    | none =>
    cases hn : number? cs with
    | some r =>
      simp [hq, hn] at h
      obtain ⟨rfl, rfl⟩ := h
      exact .number hq hn
    | none =>
    cases hm : name? cs with
    | some r =>
      simp [hq, hn, hm] at h
      obtain ⟨rfl, rfl⟩ := h
      exact .name hq hn hm
    | none =>
    cases hb : blockComment? cs with
    | some r =>
      simp [hq, hn, hm, hb] at h
      obtain ⟨rfl, rfl⟩ := h
      exact .blockComment hq hn hm hb
    | none =>
    cases hl : lineComment? cs with
    | some r =>
      simp [hq, hn, hm, hb, hl] at h
      obtain ⟨rfl, rfl⟩ := h
      exact .lineComment hq hn hm hb hl
    | none =>
    cases hs : blank? cs with
    | some r =>
      simp [hq, hn, hm, hb, hl, hs] at h
      obtain ⟨rfl, rfl⟩ := h
      exact .blank hq hn hm hb hl hs
    | none =>
    cases hy : symbol? cs with
    | some r =>
      simp [hq, hn, hm, hb, hl, hs, hy] at h
      obtain ⟨rfl, rfl⟩ := h
      exact .symbol hq hn hm hb hl hs hy
    | none => simp [hq, hn, hm, hb, hl, hs, hy] at h
  · intro h
    cases h <;> simp [lexeme?, *]

theorem Lexes.split {cs : List Char} {l : Lexeme} {rest : List Char} (h : Lexes cs l rest) :
    cs = l.text ++ rest ∧ l.text ≠ [] := by
  cases h with
  | string h =>
    obtain ⟨rfl, hw⟩ := quoted?_some h
    refine ⟨rfl, ?_⟩
    rintro rfl
    cases hw []
  | number _ h =>
    obtain ⟨rfl, hw⟩ := number?_split h
    refine ⟨rfl, ?_⟩
    rintro rfl
    cases hw
  | name _ _ h =>
    obtain ⟨rfl, hw⟩ := name?_split h
    refine ⟨rfl, ?_⟩
    rintro rfl
    cases hw
  | blockComment _ _ _ h =>
    obtain ⟨rfl, hw⟩ := blockComment?_some h
    refine ⟨rfl, ?_⟩
    rintro rfl
    cases hw []
  | lineComment _ _ _ _ h =>
    obtain ⟨rfl, ds, rfl⟩ := lineComment?_split h
    exact ⟨rfl, nofun⟩
  | blank _ _ _ _ _ h =>
    obtain ⟨rfl, hw⟩ := blank?_split h
    refine ⟨rfl, ?_⟩
    rintro rfl
    cases hw
  | symbol _ _ _ _ _ _ h =>
    obtain ⟨rfl, hs⟩ := symbol?_split h
    exact ⟨rfl, symbol_ne_nil hs⟩

/-- A newline after a text does not change its first lexeme, unless that is the first half of the
mark that opens a block comment. -/
theorem Lexes.newline {cs : List Char} {l : Lexeme} {rest : List Char} (h : Lexes cs l rest)
    (hc : ¬ (l.text = ['/'] ∧ rest.head? = some '*')) (ds : List Char) :
    Lexes (cs ++ '\n' :: ds) l (rest ++ '\n' :: ds) := by
  have hne : cs ≠ [] := by
    rintro rfl
    obtain ⟨he, hl⟩ := h.split
    exact hl (List.append_eq_nil_iff.1 he.symm).1
  have hq : quoted? cs = none → quoted? (cs ++ '\n' :: ds) = none := fun h => by
    rw [quoted?_newline, h, Option.map_none]
  have hn : number? cs = none → number? (cs ++ '\n' :: ds) = none := fun h => by
    rw [number?_before cuts_newline, h, Option.map_none]
  have hm : name? cs = none → name? (cs ++ '\n' :: ds) = none := fun h => by
    rw [name?_before cuts_newline, h, Option.map_none]
  have hl : lineComment? cs = none → lineComment? (cs ++ '\n' :: ds) = none := fun h => by
    rw [lineComment?_newline, h, Option.map_none]
  have hs : blank? cs = none → blank? (cs ++ '\n' :: ds) = none := fun h => by
    rw [blank?_newline, h, Option.map_none]
  have hb : blockComment? cs = none → (∀ es, cs ≠ '/' :: '*' :: es) →
      blockComment? (cs ++ '\n' :: ds) = none := by
    intro h hne
    refine blockComment?_none fun es he => ?_
    rcases cs with _ | ⟨a, _ | ⟨b, cs⟩⟩ <;> cases he
    exact hne cs rfl
  cases h with
  | string h => exact .string (by rw [quoted?_newline, h]; rfl)
  | number hq' h => exact .number (hq hq') (by rw [number?_before cuts_newline, h]; rfl)
  | name hq' hn' h => exact .name (hq hq') (hn hn') (by rw [name?_before cuts_newline, h]; rfl)
  | blockComment hq' hn' hm' h =>
    obtain ⟨rfl, hw⟩ := blockComment?_some h
    exact .blockComment (hq hq') (hn hn') (hm hm') (by rw [List.append_assoc, hw])
  | lineComment hq' hn' hm' hb' h =>
    obtain ⟨rfl, es, rfl⟩ := lineComment?_split h
    exact .lineComment (hq hq') (hn hn') (hm hm') (hb hb' nofun)
      (by rw [lineComment?_newline, h]; rfl)
  | @blank w rest hq' hn' hm' hb' hl' h =>
    obtain ⟨rfl, hw⟩ := blank?_split h
    refine .blank (hq hq') (hn hn') (hm hm') (hb hb' fun es he => ?_) (hl hl')
      (by rw [blank?_newline, h]; rfl)
    cases w with
    | nil => cases hw
    | cons c w =>
      obtain ⟨rfl, -⟩ := List.cons.inj he
      cases hw
  | symbol hq' hn' hm' hb' hl' hs' h =>
    refine .symbol (hq hq') (hn hn') (hm hm') (hb hb' fun es he => ?_) (hl hl') (hs hs')
      (by rw [symbol?_before cuts_newline hne, h]; rfl)
    subst he
    cases h
    exact hc ⟨rfl, rfl⟩

theorem Lexes.slash {cs : List Char} {l : Lexeme} {rest : List Char} (h : Lexes cs l rest)
    (ht : l.text = ['/']) : l.kind = .token .mulOp := by
  have hs : ∀ s ∈ symbols, s.1 = ['/'] → s.2 = .mulOp := by decide
  cases h with
  | string h | blockComment _ _ _ h =>
    subst ht
    first | cases (quoted?_some h).2 [] | cases (blockComment?_some h).2 []
  | number _ h =>
    subst ht
    exact absurd (number?_split h).2 (by decide)
  | name _ _ h =>
    subst ht
    exact absurd (name?_split h).2 (by decide)
  | lineComment _ _ _ _ h =>
    obtain ⟨-, ds, rfl⟩ := lineComment?_split h
    cases ht
  | blank _ _ _ _ _ h =>
    subst ht
    exact absurd (blank?_split h).2 (by decide)
  | symbol _ _ _ _ _ _ h => exact congrArg _ (hs _ (symbol?_split h).2 ht)

theorem Lexes.star {cs : List Char} {l : Lexeme} {rest : List Char} (h : Lexes cs l rest)
    (ht : cs.head? = some '*') : l.kind = .token .mulOp ∨ l.kind = .token .compoundAssign := by
  have hs : ∀ s ∈ symbols, s.1.head? = some '*' → s.2 = .mulOp ∨ s.2 = .compoundAssign := by decide
  obtain ⟨es, rfl⟩ : ∃ es, cs = '*' :: es := by
    cases cs with
    | nil => cases ht
    | cons c es =>
      cases ht
      exact ⟨es, rfl⟩
  obtain ⟨hsplit, hne⟩ := h.split
  rw [hsplit, List.head?_append_of_ne_nil _ hne] at ht
  cases h with
  | string h | blockComment _ _ _ h | lineComment _ _ _ _ h => cases h
  | number _ h =>
    have hd := (number?_split h).2
    rw [show _ = some '*' from ht] at hd
    exact absurd hd (by decide)
  | name _ _ h =>
    have hd := (name?_split h).2
    rw [show _ = some '*' from ht] at hd
    exact absurd hd (by decide)
  | blank _ _ _ _ _ h =>
    have hd := (blank?_split h).2
    rw [show _ = some '*' from ht] at hd
    exact absurd hd (by decide)
  | symbol _ _ _ _ _ _ h =>
    exact (hs _ (symbol?_split h).2 ht).imp (congrArg _) (congrArg _)

/-! ## Whole texts -/

theorem Lexes.length_lt {cs : List Char} {l : Lexeme} {rest : List Char} (h : Lexes cs l rest) :
    rest.length < cs.length := by
  obtain ⟨rfl, hne⟩ := h.split
  have hpos := List.length_pos_iff.2 hne
  rw [List.length_append]
  omega

theorem lexemesUpTo_succ {cs : List Char} {l : Lexeme} {rest : List Char} (h : Lexes cs l rest)
    (n : Nat) : lexemesUpTo (n + 1) cs = (l :: (lexemesUpTo n rest).1, (lexemesUpTo n rest).2) := by
  rw [lexemesUpTo, lexeme?_iff.2 h]

theorem lexemesUpTo_none {cs : List Char} (h : lexeme? cs = none) (n : Nat) :
    lexemesUpTo n cs = ([], cs) := by
  cases n with
  | zero => rfl
  | succ n => rw [lexemesUpTo, h]

/-- More steps than there are characters change nothing. -/
theorem lexemesUpTo_eq {n : Nat} {cs : List Char} (hn : cs.length ≤ n) :
    lexemesUpTo n cs = lexemes cs := by
  rw [lexemes]
  generalize hm : cs.length = m at hn
  induction m using Nat.strongRecOn generalizing n cs with
  | ind m ih =>
    cases h : lexeme? cs with
    | none => rw [lexemesUpTo_none h, lexemesUpTo_none h]
    | some r =>
      obtain ⟨l, rest⟩ := r
      have hl := lexeme?_iff.1 h
      have hlen := hl.length_lt
      obtain ⟨k, rfl⟩ : ∃ k, n = k + 1 := ⟨n - 1, by omega⟩
      obtain ⟨j, rfl⟩ : ∃ j, m = j + 1 := ⟨m - 1, by omega⟩
      rw [lexemesUpTo_succ hl, lexemesUpTo_succ hl, ih rest.length (by omega) rfl (by omega),
        ih rest.length (by omega) rfl (by omega) (n := j)]

theorem lexemes_cons {cs : List Char} {l : Lexeme} {rest : List Char} (h : Lexes cs l rest) :
    lexemes cs = (l :: (lexemes rest).1, (lexemes rest).2) := by
  obtain ⟨rfl, hne⟩ := h.split
  have hpos := List.length_pos_iff.2 hne
  rw [← lexemesUpTo_eq (n := (l.text ++ rest).length + 1) (by omega), lexemesUpTo_succ h,
    lexemesUpTo_eq (by simp)]

theorem lexemes_none {cs : List Char} (h : lexeme? cs = none) : lexemes cs = ([], cs) :=
  lexemesUpTo_none h _

/-- The lexemes of a text, read off one after the other. -/
theorem lexemes_induction {P : List Char → Prop} (none : ∀ cs, lexeme? cs = none → P cs)
    (cons : ∀ cs l rest, Lexes cs l rest → P rest → P cs) (cs : List Char) : P cs := by
  generalize hm : cs.length = m
  induction m using Nat.strongRecOn generalizing cs with
  | ind m ih =>
    cases h : lexeme? cs with
    | none => exact none cs h
    | some r =>
      have hl := lexeme?_iff.1 h
      exact cons cs r.1 r.2 hl (ih r.2.length (hm ▸ hl.length_lt) r.2 rfl)

/-- A text read to its end is the texts of its lexemes. -/
theorem flatMap_text_lexemes {cs : List Char} (h : (lexemes cs).2 = []) :
    (lexemes cs).1.flatMap (·.text) = cs := by
  induction cs using lexemes_induction with
  | none cs hn =>
    rw [lexemes_none hn] at h ⊢
    exact h.symm
  | cons cs l rest hl ih =>
    rw [lexemes_cons hl] at h ⊢
    rw [List.flatMap_cons, ih h]
    exact hl.split.1.symm

/-- Do two lexemes together begin like a block comment? -/
def OpensComment (l l' : Lexeme) : Prop :=
  l.kind = .token .mulOp ∧ (l'.kind = .token .mulOp ∨ l'.kind = .token .compoundAssign)

/-- A text that is read to its end is read in the same way before a newline. -/
theorem lexemes_newline {cs : List Char} (h : (lexemes cs).2 = [])
    (hc : (lexemes cs).1.IsChain fun l l' => ¬ OpensComment l l') (ds : List Char) :
    lexemes (cs ++ '\n' :: ds) =
      ((lexemes cs).1 ++ (lexemes ('\n' :: ds)).1, (lexemes ('\n' :: ds)).2) := by
  induction cs using lexemes_induction with
  | none cs hn =>
    rw [lexemes_none hn] at h ⊢
    rw [show cs = [] from h]
    rfl
  | cons cs l rest hl ih =>
    rw [lexemes_cons hl] at h hc ⊢
    have hopen : ¬ (l.text = ['/'] ∧ rest.head? = some '*') := by
      rintro ⟨ht, hr⟩
      cases hn : lexeme? rest with
      | none =>
        rw [lexemes_none hn] at h
        rw [show rest = [] from h] at hr
        cases hr
      | some r =>
        have hl' := lexeme?_iff.1 hn
        rw [lexemes_cons hl'] at hc
        exact (List.isChain_cons_cons.1 hc).1 ⟨hl.slash ht, hl'.star hr⟩
    rw [lexemes_cons (hl.newline hopen ds), ih h hc.tail]
    rfl

end AutoAwait
