import AutoAwait.Token.Lexeme

/-!
# Statement terminators

A semicolon may be left out at the end of a line, before a closing brace and at the end of the text.
This step reads the tokens in order, drops the newlines and sets the three kinds of token that
reading characters cannot tell apart:

* a *terminator* stands for a semicolon outside parentheses and wherever one is implied: at a
  newline after a token that can end a statement, in a block or outside all brackets, unless the
  next token continues the expression; before a `}` that closes a block; and at the end;
* a `{` *opens a block* at the start of a statement, after the parenthesis of a control or function
  header, and after `=>`, `else`, `try`, `catch` and `finally`; any other opens an object;
* a `function` at the start of a statement *starts a declaration*.

A reserved word after a dot is a plain name.

`Layout` is what the step remembers, `Layout.step` and `Layout.finish` are its moves, `layOut` runs
it over a whole token stream.
-/

namespace AutoAwait

/-- What an open bracket encloses: a block, an object, a control or function header, any other
parenthesis, or square brackets. -/
inductive Bracket where
  | block | object | header | paren | square
deriving DecidableEq

namespace TokenKind

/-- Can a statement end with this token? -/
def endsStatement : TokenKind → Bool
  | .name | .number | .string | .rparen | .rbracket | .rbrace | .incDec => true
  | .keyword k =>
    match k with
    | .true | .false | .null | .this | .return | .break | .continue => true
    | _ => false
  | _ => false

/-- Does this token, at the start of a line, continue the line before? -/
def continuesLine : TokenKind → Bool
  | .dot | .lparen | .lbracket | .comma | .colon | .question | .assign | .compoundAssign
  | .equality | .comparison | .logicOr | .logicAnd | .addOp | .mulOp | .arrow | .rparen
  | .rbracket => true
  | _ => false

/-- May this token follow a block on the next line without ending the statement? -/
def followsBlock : TokenKind → Bool
  | .keyword .else | .keyword .catch | .keyword .finally => true
  | _ => false

/-- Does a brace right after this token open a block? -/
def opensBlock : TokenKind → Bool
  | .arrow | .keyword .else | .keyword .try | .keyword .catch | .keyword .finally => true
  | _ => false

/-- Does a parenthesis right after this token open a header? -/
def startsHeader : TokenKind → Bool
  | .functionDecl => true
  | .keyword k =>
    match k with
    | .if | .while | .for | .catch | .function => true
    | _ => false
  | _ => false

/-- Does a name right after this token name a function? -/
def startsFunction : TokenKind → Bool
  | .functionDecl | .keyword .function => true
  | _ => false

end TokenKind

/-- What is remembered between two tokens. -/
structure Layout where
  /-- The open brackets, innermost first. -/
  opened : List Bracket
  /-- Can the last emitted token end a statement here? -/
  canEnd : Bool
  /-- Is this the start of a statement? -/
  atStart : Bool
  /-- Has the last emitted token closed a header? -/
  afterHeader : Bool
  /-- Has the last emitted token closed a block? -/
  closedBlock : Bool
  /-- The kind of the last emitted token. -/
  prev : Option TokenKind
  /-- The kind of the emitted token before that. -/
  beforePrev : Option TokenKind
  /-- The last emitted token that was read from the text. -/
  last : Option Token
  /-- The last newline since then at which the statement may end. -/
  newline : Option Token

namespace Layout

/-- At the start of a text. -/
def start : Layout :=
  { opened := [], canEnd := false, atStart := true, afterHeader := false, closedBlock := false
    prev := none, beforePrev := none, last := none, newline := none }

/-- After the token `t` is emitted. -/
def emit (s : Layout) (t : Token) : Layout :=
  { s with
    canEnd := t.kind.endsStatement, afterHeader := false, closedBlock := false
    prev := some t.kind, beforePrev := s.prev, last := some t }

/-- After a terminator is emitted. -/
def terminate (s : Layout) : Layout :=
  { s with
    canEnd := false, atStart := true, afterHeader := false, closedBlock := false
    prev := some .terminator, beforePrev := s.prev }

/-- The terminator that stands for the token `t`. -/
def terminatorAt (t : Token) : Token := ⟨.terminator, "", t.loc⟩

/-- May a statement end at a newline here? -/
def newlineEnds (s : Layout) : Bool :=
  s.canEnd &&
    match s.opened.head? with
    | none | some .block => true
    | _ => false

/-- Does a token of kind `k` after a newline begin a new statement? -/
def beginsStatement (s : Layout) (k : TokenKind) : Bool :=
  !k.continuesLine && !(k.followsBlock && s.closedBlock)

/-- Is a semicolon here part of a header or a parenthesis? -/
def inParens (s : Layout) : Bool :=
  match s.opened.head? with
  | some .paren | some .header => true
  | _ => false

/-- Does a parenthesis here open a header? -/
def opensHeader (s : Layout) : Bool :=
  s.prev.any (·.startsHeader) || (s.prev == some .name && s.beforePrev.any (·.startsFunction))

/-- Does a brace here open a block? -/
def opensBlock (s : Layout) : Bool :=
  s.atStart || s.afterHeader || s.prev.any (·.opensBlock)

/-- The token as it is emitted here: a reserved word after a dot is a name, a brace may open a
block, a `function` may start a declaration. -/
def rekind (s : Layout) (t : Token) : Token :=
  if s.prev = some .dot ∧ t.kind.isKeyword then { t with kind := .name }
  else if t.kind = .lbrace ∧ s.opensBlock then { t with kind := .blockOpen }
  else if t.kind = .keyword .function ∧ s.atStart then { t with kind := .functionDecl }
  else t

/-- Emits a token other than a newline or a semicolon, and before it the terminator that a `}`
closing a block implies. -/
def place (s : Layout) (token : Token) : List Token × Layout :=
  let t := s.rekind token
  match t.kind with
  | .rbrace =>
    let closes := s.opened.head? == some .block
    let implied := closes && s.canEnd
    let s := { s with opened := s.opened.tail }
    let s := if implied then s.terminate else s
    (if implied then [terminatorAt t, t] else [t],
      { s.emit t with closedBlock := closes, atStart := closes })
  | .blockOpen => ([t], { s.emit t with opened := .block :: s.opened, atStart := true })
  | .lbrace => ([t], { s.emit t with opened := .object :: s.opened, atStart := false })
  | .lparen =>
    ([t], { s.emit t with
      opened := (if s.opensHeader then .header else .paren) :: s.opened, atStart := false })
  | .lbracket => ([t], { s.emit t with opened := .square :: s.opened, atStart := false })
  | .rparen | .rbracket =>
    if s.opened.head? = some .header then
      ([t], { s.emit t with opened := s.opened.tail, afterHeader := true, canEnd := false })
    else ([t], { s.emit t with opened := s.opened.tail, atStart := false })
  | k => ([t], { s.emit t with atStart := k == .keyword .else })

/-- Reads one token: the tokens emitted for it, and what is remembered after it. -/
def step (s : Layout) (t : Token) : List Token × Layout :=
  match t.kind with
  | .newline => ([], if s.newlineEnds then { s with newline := some t } else s)
  | .semicolon =>
    let s := { s with newline := none }
    if s.inParens then ([t], s.emit t) else ([terminatorAt t], s.terminate)
  | k =>
    let fresh := { s with newline := none }
    match s.newline with
    | some n =>
      if s.beginsStatement k then
        let r := fresh.terminate.place t
        (terminatorAt n :: r.1, r.2)
      else fresh.place t
    | none => fresh.place t

/-- The terminator that the end of the text implies. -/
def finish (s : Layout) : List Token :=
  match s.newline, s.canEnd, s.last with
  | some n, _, _ => [terminatorAt n]
  | none, true, some t => [terminatorAt t]
  | none, _, _ => []

/-- Reads a list of tokens: the tokens emitted, and what is remembered after them. -/
def run (s : Layout) : List Token → List Token × Layout
  | [] => ([], s)
  | t :: ts =>
    let r := s.step t
    let rs := r.2.run ts
    (r.1 ++ rs.1, rs.2)

end Layout

/-- The token stream with its terminators. Where reading stopped at a character, the end of the text
was not seen and implies nothing. -/
def layOut (stream : TokenStream) : TokenStream :=
  let r := Layout.start.run stream.tokens
  { stream with tokens := if stream.stop.isNone then r.1 ++ r.2.finish else r.1 }

end AutoAwait
