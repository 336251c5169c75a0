import AutoAwait.Text.DecimalDigit
import AutoAwait.Text.NumberParts
import AutoAwait.Text.Quoted

/-!
# The value of a numeral

A numeral is read exactly. An integer can have at most `maxDigits` digits. A numeral with a fraction
or an exponent stands for the double-precision number nearest to it, of two equally near ones the
one with an even last place; what is too large stands for infinity.

* `roundToDouble` gives the bits of the double nearest to a fraction of natural numbers;
* `Numeral.double` and `Numeral.integer?` read a numeral.
-/

namespace AutoAwait

/-- The quotient of two numbers rounded to the nearest one, a tie to the even one. -/
def divRoundEven (n d : Nat) : Nat :=
  let q := n / d
  let r := n % d
  if 2 * r < d then q
  else if d < 2 * r then q + 1
  else if q % 2 = 0 then q else q + 1

/-- The bits of positive infinity. -/
def infinityBits : UInt64 := 0x7ff0000000000000

/-- The significand of `n / d` rounded to a multiple of `2 ^ (q - 1074)`. -/
def significand (n d q : Nat) : Nat :=
  if q ≤ 1074 then divRoundEven (n * Nat.pow 2 (1074 - q)) d
  else divRoundEven n (d * Nat.pow 2 (q - 1074))

/-- The bits of the double nearest to `n / d`, where `n` and `d` are positive.

Doubles whose leading bit stands for `2 ^ (k - 1074)` are the multiples of `2 ^ (k - 52 - 1074)`,
and no double is finer than `2 ^ -1074`. The bits of a double are its place in the ascending list of
all, so a significand that is rounded up to the next power of two gives the right bits too. -/
def roundToDouble (n d : Nat) : UInt64 :=
  let k := n.log2 + 1074 - d.log2
  let k := if n * Nat.pow 2 1074 < d * Nat.pow 2 k then k - 1 else k
  let q := k - 52
  let bits := q * Nat.pow 2 52 + significand n d q
  if bits < infinityBits.toNat then UInt64.ofNat bits else infinityBits

/-- The bits of the double nearest to `m * 10 ^ e`. A number with more than 310 digits before its
point is infinite, one below the place 330 after it is zero. -/
def decimalToDouble (m : Nat) (digits : Nat) (e : Int) : UInt64 :=
  if m = 0 then 0
  else if 310 < digits + e then infinityBits
  else if digits + e < -330 then 0
  else if 0 ≤ e then roundToDouble (m * Nat.pow 10 e.toNat) 1
  else roundToDouble m (Nat.pow 10 (-e).toNat)

namespace Numeral

/-- The digits at which an integer is too long. -/
def maxDigits : Nat := 4300

/-- The number that a run of decimal digits stands for. -/
def digitsValue (cs : List Char) : Nat := cs.foldl (fun n c => n * 10 + (digitOf? c).getD 0) 0

/-- Why a numeral stands for no integer. -/
inductive IntegerProblem where
  | tooLong (digits : Nat)
  | notInteger (text : String)
deriving DecidableEq

/-- The text of a problem. Of a long text only the first 200 characters of the quoted form are
shown. -/
def IntegerProblem.message : IntegerProblem → String
  | .tooLong n =>
    "Exceeds the limit (4300 digits) for integer string conversion: value has " ++ toString n
      ++ " digits; use sys.set_int_max_str_digits() to increase the limit"
  | .notInteger text =>
    "invalid literal for int() with base 10: " ++ String.ofList ((quoted text).toList.take 200)

/-- The integer that a numeral stands for. -/
def integer? (raw : String) : Except IntegerProblem Int :=
  let digits := raw.toList.takeWhile isDecimalDigit
  if maxDigits < digits.length then .error (.tooLong digits.length)
  else if digits.length < raw.toList.length then .error (.notInteger raw)
  else .ok (digitsValue digits)

/-- The value of what follows the letter of an exponent: an optional sign and digits. -/
def exponentValue : List Char → Int
  | '-' :: cs => -(digitsValue cs : Int)
  | '+' :: cs => digitsValue cs
  | cs => digitsValue cs

/-- The bits of the double that a numeral stands for. -/
def double (raw : String) : UInt64 :=
  let cs := raw.toList
  let f := fraction isDecimalDigit (cs.dropWhile isDecimalDigit)
  let e := exponent isDecimalDigit f.2
  let digits := (cs.takeWhile isDecimalDigit ++ f.1.tail).dropWhile fun c => digitOf? c == some 0
  decimalToDouble (digitsValue digits) digits.length (exponentValue e.1.tail - f.1.tail.length)

end Numeral

end AutoAwait
