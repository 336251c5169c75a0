/-!
# The parts of a written number

A number is written with digits, then perhaps a fraction and perhaps an exponent. What a digit is
depends on the language, and so does what the digits before the fraction may be.

* `fraction`, `sign` and `exponent` split a text into one of these parts, which may be empty, and
  the characters after it.
-/

namespace AutoAwait

section
variable (isDigit : Char → Bool)

/-- A point and the digits after it, or nothing. -/
def fraction : List Char → List Char × List Char
  | '.' :: cs =>
    if (cs.takeWhile isDigit).isEmpty then ([], '.' :: cs)
    else ('.' :: cs.takeWhile isDigit, cs.dropWhile isDigit)
  | cs => ([], cs)

/-- A sign, or nothing. -/
def sign : List Char → List Char × List Char
  | '+' :: cs => (['+'], cs)
  | '-' :: cs => (['-'], cs)
  | cs => ([], cs)

/-- The letter `e` of either case, an optional sign and digits, or nothing. -/
def exponent : List Char → List Char × List Char
  | [] => ([], [])
  | c :: cs =>
    let digits := (sign cs).2
    if (c = 'e' ∨ c = 'E') ∧ (digits.takeWhile isDigit).isEmpty = false then
      (c :: (sign cs).1 ++ digits.takeWhile isDigit, digits.dropWhile isDigit)
    else ([], c :: cs)

end

end AutoAwait
