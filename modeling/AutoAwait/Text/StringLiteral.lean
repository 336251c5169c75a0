/-!
# The value of a string literal

Between its quotes a literal holds characters and escapes. The escapes are those of a letter, of one
to three octal digits, of two, four or eight hexadecimal digits after `x`, `u` or `U`, of the name
of a character in braces after `N`, and a backslash before a carriage return, which stands for
nothing. A backslash before any other character stands for itself. A literal with a malformed
escape, an unknown name, a bare carriage return or a null character is not read: its value is the
text between the quotes as it stands.

Which names there are is not said here: the table of names is a parameter, and what is proved about
scripts holds for any table. A `String` has no place for half of a surrogate pair, so an escape of
one stands for the replacement character.

* `CharNames` is a table of the names of characters;
* `StringLiteral.value` is the value of a literal.
-/

namespace AutoAwait

/-- The characters that have names, as the Unicode standard gives them. -/
class CharNames where
  /-- The character of a name. -/
  named? : String → Option Char

/-- No table at hand: a program that is run without one knows no names. -/
instance : CharNames := ⟨fun _ => none⟩

namespace StringLiteral

variable [CharNames]

/-- The value of a hexadecimal digit. -/
def hexValue? (c : Char) : Option Nat :=
  if '0' ≤ c ∧ c ≤ '9' then some (c.toNat - '0'.toNat)
  else if 'a' ≤ c ∧ c ≤ 'f' then some (c.toNat - 'a'.toNat + 10)
  else if 'A' ≤ c ∧ c ≤ 'F' then some (c.toNat - 'A'.toNat + 10)
  else none

/-- The value of an octal digit. -/
def octalValue? (c : Char) : Option Nat :=
  if '0' ≤ c ∧ c ≤ '7' then some (c.toNat - '0'.toNat) else none

/-- Reads `n` hexadecimal digits after the value `acc`. -/
def hexDigits? : Nat → Nat → List Char → Option (Nat × List Char)
  | 0, acc, cs => some (acc, cs)
  | _ + 1, _, [] => none
  | n + 1, acc, c :: cs => (hexValue? c).bind fun d => hexDigits? n (acc * 16 + d) cs

/-- Reads at most `n` octal digits after the value `acc`. -/
def octalDigits : Nat → Nat → List Char → Nat × List Char
  | n + 1, acc, c :: cs =>
    match octalValue? c with
    | some d => octalDigits n (acc * 8 + d) cs
    | none => (acc, c :: cs)
  | _, acc, cs => (acc, cs)

/-- The character of a code point. Half of a surrogate pair is none of its own: the replacement
character stands for it. -/
def charOf? (n : Nat) : Option Char :=
  if h : n.isValidChar then some (Char.ofNatAux n h)
  else if n < 0x110000 then some '\ufffd'
  else none

/-- The character that `n` hexadecimal digits stand for, and what follows them. -/
def hexEscape? (n : Nat) (cs : List Char) : Option (List Char × List Char) :=
  (hexDigits? n 0 cs).bind fun r => (charOf? r.1).map fun c => ([c], r.2)

/-- The character whose name stands in braces, and what follows them. -/
def namedEscape? : List Char → Option (List Char × List Char)
  | '{' :: cs =>
    match cs.span (· ≠ '}') with
    | (c :: name, _ :: rest) =>
      (CharNames.named? (String.ofList (c :: name))).map fun c => ([c], rest)
    | _ => none
  | _ => none

/-- What the characters after a backslash stand for, and what follows them. -/
def escape? : List Char → Option (List Char × List Char)
  | [] => none
  | '\r' :: cs => some ([], cs)
  | '\\' :: cs => some (['\\'], cs)
  | '\'' :: cs => some (['\''], cs)
  | '"' :: cs => some (['"'], cs)
  | 'a' :: cs => some (['\x07'], cs)
  | 'b' :: cs => some (['\x08'], cs)
  | 'f' :: cs => some (['\x0c'], cs)
  | 'n' :: cs => some (['\n'], cs)
  | 'r' :: cs => some (['\r'], cs)
  | 't' :: cs => some (['\t'], cs)
  | 'v' :: cs => some (['\x0b'], cs)
  | 'x' :: cs => hexEscape? 2 cs
  | 'u' :: cs => hexEscape? 4 cs
  | 'U' :: cs => hexEscape? 8 cs
  | 'N' :: cs => namedEscape? cs
  | '\x00' :: _ => none
  | c :: cs =>
    match octalValue? c with
    | some d => (charOf? (octalDigits 2 d cs).1).map fun o => ([o], (octalDigits 2 d cs).2)
    | none => some (['\\', c], cs)

/-- Reads the text between the quotes, in at most `fuel` steps. -/
def unescapeUpTo : Nat → List Char → Option (List Char)
  | _, [] => some []
  | 0, _ => none
  | _ + 1, '\r' :: _ => none
  | _ + 1, '\x00' :: _ => none
  | fuel + 1, '\\' :: cs =>
    (escape? cs).bind fun r => (unescapeUpTo fuel r.2).map fun rest => r.1 ++ rest
  | fuel + 1, c :: cs => (unescapeUpTo fuel cs).map fun rest => c :: rest

/-- The text that stands between the quotes, its escapes read; none if it cannot be read. -/
def unescape? (cs : List Char) : Option (List Char) := unescapeUpTo cs.length cs

/-- The value of a string literal, given with its quotes. -/
def value (raw : String) : String :=
  let inner := raw.toList.tail.dropLast
  String.ofList ((unescape? inner).getD inner)

end StringLiteral

end AutoAwait
