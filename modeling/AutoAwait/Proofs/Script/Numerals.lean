import AutoAwait.Proofs.Script.Faults
import Mathlib.Data.List.TakeWhile

/-!
# Numerals as expressions and as keys

A numeral is read in two places, as an expression and as the key of an object's entry, and not by
one rule: an exponent makes it a double as an expression, but only a point does as a key. A numeral
that stands for no integer where one is required is the only error of reading a script that is not
one of the parser's own.

* `Token.toKey_eq_toNumber_iff` tells which numerals have one value in both places;
* `Unreadable` says that a script has a numeral that cannot be read where it stands;
* `parseScript_numerals` says that this is what such an error means.
-/

namespace AutoAwait

namespace Token

variable {t : Token}

/-- Is there a point in the text of the token? -/
def hasPoint (t : Token) : Bool := t.text.toList.any (· == '.')

/-- Is there the letter of an exponent in the text of the token? -/
def hasExponent (t : Token) : Bool := t.text.toList.any fun c => c == 'e' || c == 'E'

/-- Is the text of the token digits only, and not too many? -/
def isInteger (t : Token) : Bool :=
  t.text.toList.all isDecimalDigit && t.text.toList.length ≤ Numeral.maxDigits

theorem toNumber_eq : t.toNumber =
    if t.hasPoint || t.hasExponent then .ok t.toDouble else t.toInteger := by
  have hany : (t.text.toList.any fun c => c == '.' || c == 'e' || c == 'E') =
      (t.hasPoint || t.hasExponent) := by
    rw [hasPoint, hasExponent, Bool.eq_iff_iff]
    simp only [Bool.or_eq_true, List.any_eq_true, ← exists_or, ← and_or_left, or_assoc]
  rw [toNumber, hany]

theorem toKey_eq [CharNames] (hk : t.kind = .number) : t.toKey =
    if t.hasPoint then .ok t.toDouble else t.toInteger := by
  have hpoint : t.hasPoint ↔ '.' ∈ t.text.toList := by simp [hasPoint]
  rw [toKey, hk]
  simp only [hpoint]

/-- An integer is never a double. -/
theorem toInteger_ne_toDouble : t.toInteger ≠ .ok t.toDouble := by
  unfold toInteger toDouble
  split
  · intro h
    have hshape := congrArg Node.shape (Except.ok.inj h)
    cases hshape
  · nofun

/-- **A numeral has one value in both places** if and only if it has a point or no exponent. -/
theorem toKey_eq_toNumber_iff [CharNames] (hk : t.kind = .number) :
    t.toKey = t.toNumber ↔ t.hasPoint ∨ t.hasExponent = false := by
  rw [toKey_eq hk, toNumber_eq]
  by_cases hp : t.hasPoint
  · simp [hp]
  · by_cases he : t.hasExponent
    · simpa [hp, he] using toInteger_ne_toDouble
    · simp [hp, he]

theorem toInteger_isOk : t.toInteger.isOk = t.isInteger := by
  rw [toInteger, isInteger, Numeral.integer?]
  by_cases hd : t.text.toList.all isDecimalDigit
  · rw [hd, List.takeWhile_eq_self_iff.2 (List.all_eq_true.1 hd)]
    by_cases hl : Numeral.maxDigits < t.text.toList.length
    · simp [hl, Except.isOk, Except.toBool]
    · simp [hl, not_lt.1 hl, Except.isOk, Except.toBool]
  · have hl : (t.text.toList.takeWhile isDecimalDigit).length < t.text.toList.length := by
      by_contra hl
      have htake := (List.takeWhile_prefix isDecimalDigit).eq_of_length_le (not_lt.1 hl)
      exact hd (List.all_eq_true.2 (List.takeWhile_eq_self_iff.1 htake))
    rw [Bool.eq_false_iff.2 hd, Bool.false_and]
    by_cases hm : Numeral.maxDigits < (t.text.toList.takeWhile isDecimalDigit).length
    · simp [hm, Except.isOk, Except.toBool]
    · simp [hm, hl, Except.isOk, Except.toBool]

theorem toNumber_isOk : t.toNumber.isOk = (t.hasPoint || t.hasExponent || t.isInteger) := by
  rw [toNumber_eq]
  split
  · rename_i h
    rw [h]
    rfl
  · rename_i h
    rw [Bool.eq_false_iff.2 h, toInteger_isOk]
    rfl

theorem toKey_isOk [CharNames] (hk : t.kind = .number) :
    t.toKey.isOk = (t.hasPoint || t.isInteger) := by
  rw [toKey_eq hk]
  split
  · rename_i h
    rw [h]
    rfl
  · rename_i h
    rw [Bool.eq_false_iff.2 h, toInteger_isOk]
    rfl

end Token

/-- A numeral of the script cannot be read where it stands. -/
inductive Unreadable (ss : List Statement) : Prop
  /-- As an expression it needs a point, an exponent or digits only, and not too many. -/
  | number {t} (h : (Phrase.number t).OccursIn ss)
      (ht : (t.hasPoint || t.hasExponent || t.isInteger) = false)
  /-- As a key it needs a point or digits only, and not too many. -/
  | key {loc es t p} (h : (Phrase.object loc es).OccursIn ss) (he : ObjectEntry.pair t p ∈ es)
      (hk : t.kind = .number) (ht : (t.hasPoint || t.isInteger) = false)

variable {ss : List Statement}

/-- A numeral that cannot be read is what an error that is not the parser's own means. -/
theorem unreadable_iff [CharNames] :
    Unreadable ss ↔ ∃ problem, Misused ss (.badInteger problem) := by
  constructor
  · intro h
    cases h with
    | @number t h ht =>
      rw [← Token.toNumber_isOk] at ht
      cases hn : t.toNumber with
      | ok n =>
        rw [hn] at ht
        cases ht
      | error e =>
        obtain ⟨problem, rfl⟩ := Token.toNumber_error hn
        exact ⟨problem, .number h hn⟩
    | @key _ _ t _ h he hk ht =>
      rw [← Token.toKey_isOk hk] at ht
      cases hn : t.toKey with
      | ok n =>
        rw [hn] at ht
        cases ht
      | error e =>
        obtain ⟨problem, rfl⟩ := Token.toKey_error hn
        exact ⟨problem, .key h he hn⟩
  · rintro ⟨problem, h⟩
    cases h with
    | number h ht =>
      refine .number h ?_
      rw [← Token.toNumber_isOk, ht]
      rfl
    | @key _ _ t _ _ h he ht =>
      have hk : t.kind = .number := by
        unfold Token.toKey at ht
        split at ht
        · cases ht
        · assumption
        · cases ht
      refine .key h he hk ?_
      rw [← Token.toKey_isOk hk, ht]
      rfl

theorem parseStatements_error {stream : TokenStream} {e : ParseError}
    (h : parseStatements stream = .error e) (problem : Numeral.IntegerProblem) :
    e ≠ .badInteger problem := by
  rintro rfl
  obtain ⟨_, _, he⟩ | ⟨rest, -, he, -⟩ := parseStatements_misfit h
  · cases he
  · cases rest <;> cases he

/-- **What becomes of numerals.** The two places of a numeral agree on all but those with an
exponent and no point. An error that is not the parser's own means that a numeral cannot be read
where it stands; and where nothing else is wrong with what the grammar lets pass, any such numeral
is that error. -/
theorem parseScript_numerals [CharNames] (source : String) :
    (∀ t : Token, t.kind = .number →
      (t.toKey = t.toNumber ↔ t.hasPoint ∨ t.hasExponent = false)) ∧
    (∀ problem, parseScript source = .error (.badInteger problem) →
      ∃ ss, parseStatements (scriptTokens source) = .ok ss ∧ Unreadable ss) ∧
    ∀ ss, parseStatements (scriptTokens source) = .ok ss →
      (∀ loc, ¬ Misused ss (.invalidTarget loc) ∧ ¬ Misused ss (.invalidParameter loc)) →
        (Unreadable ss ↔ ∃ problem, parseScript source = .error (.badInteger problem)) := by
  refine ⟨fun t => Token.toKey_eq_toNumber_iff, ?_, ?_⟩
  · intro problem h
    cases hss : parseStatements (scriptTokens source) with
    | error e =>
      rw [parseScript, hss] at h
      cases h
      exact absurd rfl (parseStatements_error hss problem)
    | ok ss =>
      rw [parseScript, hss] at h
      exact ⟨ss, rfl, unreadable_iff.2 ⟨problem, Node.ofStatements_error h⟩⟩
  · intro ss hss hfine
    have hscript : parseScript source = Node.ofStatements ss := by rw [parseScript, hss]; rfl
    rw [hscript, unreadable_iff]
    constructor
    · rintro ⟨problem, h⟩
      cases he : Node.ofStatements ss with
      | ok tree => exact absurd h (Node.ofStatements_ok he _)
      | error e =>
        have hm := Node.ofStatements_error he
        cases e with
        | badInteger problem => exact ⟨problem, rfl⟩
        | invalidTarget loc => exact absurd hm (hfine loc).1
        | invalidParameter loc => exact absurd hm (hfine loc).2
        | _ => cases hm
    · rintro ⟨problem, h⟩
      exact ⟨problem, Node.ofStatements_error h⟩

/-- As an expression `1e5` is a double, as a key it is refused with an error that is not the
parser's own. -/
theorem parseScript_exponent_key :
    (parseScript "x = 1e5").isOk ∧
      parseScript "x = \x7b1e5: 1\x7d" = .error (.badInteger (.notInteger "1e5")) :=
  ⟨by decide +kernel, mem_errors.1 (by decide +kernel)⟩

end AutoAwait
