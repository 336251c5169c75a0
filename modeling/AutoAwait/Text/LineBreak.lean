/-!
# Line breaks

A line of a text file ends with a newline, a carriage return, or a carriage return and a newline.

* `plainBreaks` gives every line of a text a newline for its end.
-/

namespace AutoAwait

/-- The characters of a text with a newline for each line break. -/
def plainBreaks : List Char → List Char
  | [] => []
  | '\r' :: '\n' :: cs => '\n' :: plainBreaks cs
  | c :: cs => (if c = '\r' then '\n' else c) :: plainBreaks cs

/-- A text with a newline for each line break. -/
def withPlainBreaks (text : String) : String := String.ofList (plainBreaks text.toList)

end AutoAwait
