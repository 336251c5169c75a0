import AutoAwait.Bindings
import AutoAwait.Json.Basic
import AutoAwait.Text.NumberParts
import AutoAwait.Text.Numeral
import AutoAwait.Text.StringLiteral

/-!
# Reading JSON

A reader of JSON texts. Beside what JSON has it takes the words `NaN`, `Infinity` and `-Infinity`
for numbers; of the fields of one name in an object the last one counts. Half of a surrogate pair
that stands alone is read as the replacement character, since a `String` has no place for it.

* `Json.read` reads a text; where it cannot, it says why, and in which line.
-/

namespace AutoAwait

/-- Why a text is not JSON. -/
inductive JsonProblem where
  | value | propertyName | colon | comma | extraData | unterminatedString | controlCharacter
  | badEscape | badUnicodeEscape | byteOrderMark
deriving DecidableEq

/-- The text of a problem. -/
def JsonProblem.message : JsonProblem → String
  | .value => "Expecting value"
  | .propertyName => "Expecting property name enclosed in double quotes"
  | .colon => "Expecting ':' delimiter"
  | .comma => "Expecting ',' delimiter"
  | .extraData => "Extra data"
  | .unterminatedString => "Unterminated string starting at"
  | .controlCharacter => "Invalid control character at"
  | .badEscape => "Invalid \\escape"
  | .badUnicodeEscape => "Invalid \\uXXXX escape"
  | .byteOrderMark => "Unexpected UTF-8 BOM (decode using utf-8-sig)"

/-- Why a text cannot be read. -/
inductive JsonError where
  | notJson (line : Nat) (problem : JsonProblem)
  | badInteger (problem : Numeral.IntegerProblem)

namespace Json

/-- Why a part of a text cannot be read; a problem comes with the characters from where it is. -/
inductive Failure where
  | problem (p : JsonProblem) (rest : List Char)
  | badInteger (p : Numeral.IntegerProblem)

/-- Is this character blank in JSON? -/
def isJsonBlank (c : Char) : Bool := c == ' ' || c == '\t' || c == '\n' || c == '\r'

/-- The text after its blanks. -/
def skipBlanks (cs : List Char) : List Char := cs.dropWhile isJsonBlank

/-! ## Strings -/

/-- Is this the first half of a pair that stands for one character? -/
def isHighHalf (n : Nat) : Bool := 0xd800 ≤ n && n < 0xdc00

/-- Is this the second half of a pair that stands for one character? -/
def isLowHalf (n : Nat) : Bool := 0xdc00 ≤ n && n < 0xe000

/-- The four digits of an escape. At least one character follows them, if only the closing quote. -/
def unicodeDigits (cs : List Char) : Except Failure (Nat × List Char) :=
  if cs.length ≤ 4 then .error (.problem .badUnicodeEscape cs)
  else
    match StringLiteral.hexDigits? 4 0 cs with
    | some r => .ok r
    | none => .error (.problem .badUnicodeEscape cs)

/-- The second half after a first one, with the characters after it, if there is one. -/
def lowHalf (cs : List Char) : Except Failure (Option (Nat × List Char)) :=
  match cs with
  | '\\' :: 'u' :: rest =>
    if cs.length ≤ 6 then .ok none
    else
      match StringLiteral.hexDigits? 4 0 rest with
      | some (n, rest) => .ok (if isLowHalf n then some (n, rest) else none)
      | none => .error (.problem .badUnicodeEscape rest)
  | _ => .ok none

/-- The character of a code point; the replacement character stands for half of a pair. -/
def charOfCode (n : Nat) : Char := (StringLiteral.charOf? n).getD '\ufffd'

/-- The character that the escape `\u` stands for, from its digits on. -/
def unicodeEscape (cs : List Char) : Except Failure (Char × List Char) := do
  let (n, rest) ← unicodeDigits cs
  if isHighHalf n then
    match ← lowHalf rest with
    | some (m, rest) => return (charOfCode (0x10000 + (n - 0xd800) * 0x400 + (m - 0xdc00)), rest)
    | none => return (charOfCode n, rest)
  else return (charOfCode n, rest)

/-- The character that a letter after a backslash stands for. -/
def simpleEscape? : Char → Option Char
  | '"' => some '"'
  | '\\' => some '\\'
  | '/' => some '/'
  | 'b' => some '\x08'
  | 'f' => some '\x0c'
  | 'n' => some '\n'
  | 'r' => some '\r'
  | 't' => some '\t'
  | _ => none

/-- The rest of a string that started at `start`, up to and with its closing quote. -/
def stringRest (start : List Char) : Nat → List Char → Except Failure (List Char × List Char)
  | 0, _ | _, [] => .error (.problem .unterminatedString start)
  | fuel + 1, c :: cs =>
    if c = '"' then .ok ([], cs)
    else if c = '\\' then
      match cs with
      | [] => .error (.problem .unterminatedString start)
      | 'u' :: digits => do
        let (d, rest) ← unicodeEscape digits
        let (ds, rest) ← stringRest start fuel rest
        return (d :: ds, rest)
      | e :: rest =>
        match simpleEscape? e with
        | none => .error (.problem .badEscape (c :: cs))
        | some d => do
          let (ds, rest) ← stringRest start fuel rest
          return (d :: ds, rest)
    else if c.toNat < 0x20 then .error (.problem .controlCharacter (c :: cs))
    else do
      let (ds, rest) ← stringRest start fuel cs
      return (c :: ds, rest)

/-- A string; `cs` follows its opening quote. -/
def readString (cs : List Char) : Except Failure (String × List Char) := do
  let (ds, rest) ← stringRest ('"' :: cs) (cs.length + 1) cs
  return (String.ofList ds, rest)

/-! ## Numbers -/

/-- The integer part of a number: a zero, or digits that do not start with one. -/
def integerPart (cs : List Char) : List Char × List Char :=
  match cs with
  | '0' :: rest => (['0'], rest)
  | _ => (cs.takeWhile Char.isDigit, cs.dropWhile Char.isDigit)

/-- A number that starts with the given sign. -/
def readUnsigned (start sign cs : List Char) : Except Failure (Json × List Char) :=
  let whole := integerPart cs
  if whole.1.isEmpty then .error (.problem .value start)
  else
    let fraction := fraction Char.isDigit whole.2
    let exponent := exponent Char.isDigit fraction.2
    if fraction.1.isEmpty ∧ exponent.1.isEmpty ∧ Numeral.maxDigits < whole.1.length then
      .error (.badInteger (.tooLong whole.1.length))
    else
      .ok (.number (String.ofList (sign ++ whole.1 ++ fraction.1 ++ exponent.1)), exponent.2)

/-- A number. -/
def readNumber (cs : List Char) : Except Failure (Json × List Char) :=
  match cs with
  | '-' :: rest => readUnsigned cs ['-'] rest
  | _ => readUnsigned cs [] cs

/-! ## Values -/

/-- The words that stand for a value. -/
def words : List (List Char × Json) :=
  [("null".toList, .null), ("true".toList, .bool true), ("false".toList, .bool false),
    ("NaN".toList, .number "NaN"), ("Infinity".toList, .number "Infinity"),
    ("-Infinity".toList, .number "-Infinity")]

/-- A word that stands for a value. -/
def readWord (cs : List Char) : Option (Json × List Char) :=
  (words.find? fun w => w.1.isPrefixOf cs).map fun w => (w.2, cs.drop w.1.length)

mutual

/-- Reads a value in at most `fuel` steps. -/
def readValue : Nat → List Char → Except Failure (Json × List Char)
  | 0, cs => .error (.problem .value cs)
  | fuel + 1, cs =>
    match cs with
    | [] => .error (.problem .value [])
    | '"' :: rest => do
      let (s, rest) ← readString rest
      return (.string s, rest)
    | '{' :: rest =>
      match skipBlanks rest with
      | '}' :: rest => .ok (.object [], rest)
      | rest => do
        let (fields, rest) ← readFields fuel [] rest
        return (.object fields, rest)
    | '[' :: rest =>
      match skipBlanks rest with
      | ']' :: rest => .ok (.array [], rest)
      | rest => do
        let (items, rest) ← readItems fuel rest
        return (.array items, rest)
    | cs =>
      match readWord cs with
      | some r => .ok r
      | none => readNumber cs

/-- Reads the fields of an object after the fields `acc`, up to and with the closing brace. -/
def readFields : Nat → List (String × Json) → List Char →
    Except Failure (List (String × Json) × List Char)
  | 0, _, cs => .error (.problem .propertyName cs)
  | fuel + 1, acc, cs =>
    match cs with
    | '"' :: rest => do
      let (name, rest) ← readString rest
      match skipBlanks rest with
      | ':' :: rest => do
        let (value, rest) ← readValue fuel (skipBlanks rest)
        let acc := Bindings.put acc name value
        match skipBlanks rest with
        | '}' :: rest => return (acc, rest)
        | ',' :: rest => readFields fuel acc (skipBlanks rest)
        | rest => .error (.problem .comma rest)
      | rest => .error (.problem .colon rest)
    | cs => .error (.problem .propertyName cs)

/-- Reads the items of an array, up to and with the closing bracket. -/
def readItems : Nat → List Char → Except Failure (List Json × List Char)
  | 0, cs => .error (.problem .value cs)
  | fuel + 1, cs => do
    let (item, rest) ← readValue fuel cs
    match skipBlanks rest with
    | ']' :: rest => return ([item], rest)
    | ',' :: rest => do
      let (items, rest) ← readItems fuel (skipBlanks rest)
      return (item :: items, rest)
    | rest => .error (.problem .comma rest)

end

/-- Reads a whole text, with the characters from where a problem is. Every character opens at most
one list, which takes two steps. -/
def readAll (cs : List Char) : Except Failure Json :=
  if cs.head? = some '\ufeff' then .error (.problem .byteOrderMark cs)
  else do
    let (j, rest) ← readValue (2 * cs.length + 1) (skipBlanks cs)
    match skipBlanks rest with
    | [] => return j
    | rest => .error (.problem .extraData rest)

/-- Reads a text. -/
def read (text : String) : Except JsonError Json :=
  let cs := text.toList
  match readAll cs with
  | .ok j => .ok j
  | .error (.problem p rest) =>
    .error (.notJson (1 + (cs.take (cs.length - rest.length)).count '\n') p)
  | .error (.badInteger p) => .error (.badInteger p)

end Json

end AutoAwait
