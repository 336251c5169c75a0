import AutoAwait.Text.Numeral
import AutoAwait.Text.Quoted
import AutoAwait.Token.Basic

/-!
# Why a script cannot be read

* `ParseError.message` is the text of an error, without its place; `ParseError.loc?` its place;
* `ParseError.text` is the text with the place.
-/

namespace AutoAwait

/-- Why a script cannot be read. -/
inductive ParseError where
  /-- A token that no script could have in its place. -/
  | unexpectedToken (token : Token)
  /-- The script ends where none could end; `loc` is the place of the last token. -/
  | unexpectedEnd (loc : Position)
  /-- A character at which no token starts. -/
  | unexpectedCharacter (c : Char) (loc : Position)
  /-- What is assigned to is neither a name nor a member. -/
  | invalidTarget (loc : Position)
  /-- A parameter of an arrow function is not a name. -/
  | invalidParameter (loc : Position)
  /-- A numeral that stands for no integer where one is required. -/
  | badInteger (problem : Numeral.IntegerProblem)
deriving DecidableEq

namespace ParseError

/-- The text of an error. A token without a text is shown by its kind. -/
def message : ParseError → String
  | .unexpectedToken t =>
    "unexpected token " ++ quoted (if t.text.isEmpty then t.kind.label else t.text)
  | .unexpectedEnd _ => "unexpected end of input"
  | .unexpectedCharacter c _ => "unexpected character " ++ quoted (String.ofList [c])
  | .invalidTarget _ => "invalid assignment target"
  | .invalidParameter _ => "arrow function parameters must be identifiers"
  | .badInteger p => p.message

/-- The place of an error in the script. -/
def loc? : ParseError → Option Position
  | .unexpectedToken t => some t.loc
  | .unexpectedEnd p | .unexpectedCharacter _ p | .invalidTarget p | .invalidParameter p => some p
  | .badInteger _ => none

/-- The text of an error, after its place if it has one. -/
def text (e : ParseError) : String := Position.label e.loc? ++ e.message

end ParseError

end AutoAwait
