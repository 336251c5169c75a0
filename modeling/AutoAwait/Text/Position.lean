/-!
# Positions in a text

A position is a line and a column, both counted from one in characters. A newline ends a line;
every other character, carriage returns included, takes one column.

* `Position.label` is how messages begin that have a place;
* `Position.advance` is the position after a run of characters; `advance_append` says that runs
  compose.
-/

namespace AutoAwait

/-- A place in a text: line and column, both from one. -/
structure Position where
  line : Nat
  column : Nat
deriving DecidableEq, Inhabited

namespace Position

/-- The first character of a text. -/
def start : Position := ⟨1, 1⟩

/-- The position after one character read at `p`. -/
def next (p : Position) (c : Char) : Position :=
  if c = '\n' then ⟨p.line + 1, 1⟩ else ⟨p.line, p.column + 1⟩

/-- The position after the characters `cs` read from `p` on. -/
def advance (p : Position) (cs : List Char) : Position := cs.foldl next p

@[simp] theorem advance_nil (p : Position) : p.advance [] = p := rfl

@[simp] theorem advance_cons (p : Position) (c : Char) (cs : List Char) :
    p.advance (c :: cs) = (p.next c).advance cs := rfl

theorem advance_append (p : Position) (cs ds : List Char) :
    p.advance (cs ++ ds) = (p.advance cs).advance ds := by
  simp [advance]

/-- What stands before a message that is about a place, if it is about one. -/
def label : Option Position → String
  | none => ""
  | some p => toString p.line ++ ":" ++ toString p.column ++ ": "

end Position

end AutoAwait
