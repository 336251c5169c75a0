import AutoAwait.ParseTree.Basic

/-!
# Reading parse trees

The grammar of scripts, read by recursive descent. Each parser looks at one token to decide how to
go on, and fails at the first token that no script could have in that place.

An expression that may be an assignment or an arrow function can begin like any other: with a name,
or with a parenthesis whose content is told apart by what follows it. Everywhere else (after an
operator) an opening parenthesis holds exactly one expression. An `else` belongs to the nearest
`if`, and `new` takes the longest dotted name and the arguments right after it.

Each use of the grammar inside itself comes after at least one token, so with `n` tokens to read it
is enough to unfold the grammar `n` times: `Grammar.level n` reads inputs of at most `n` tokens.

* `parseTokens` reads a whole script: its statements, or the tokens from the first one that does not
  fit.
-/

namespace AutoAwait

/-- A parser: given tokens it returns a value and the tokens after what it read, or fails with the
tokens from the first one that does not fit. -/
def Parser (α : Type) : Type := List Token → Except (List Token) (α × List Token)

namespace Parser

variable {α β : Type}

instance : Monad Parser where
  pure a := fun ts => .ok (a, ts)
  bind p f := fun ts =>
    match p ts with
    | .ok (a, rest) => f a rest
    | .error rest => .error rest

/-- Fits nothing. -/
def stuck : Parser α := fun ts => .error ts

/-- The kind of the next token, which is not read. -/
def peek : Parser (Option TokenKind) := fun ts => .ok (ts.head?.map (·.kind), ts)

/-- Reads a token of the kind `k`. -/
def token (k : TokenKind) : Parser Token
  | t :: ts => if t.kind = k then .ok (t, ts) else .error (t :: ts)
  | [] => .error []

/-- Reads one token of any kind. -/
def anyToken : Parser Token
  | t :: ts => .ok (t, ts)
  | [] => .error []

/-- Is the next token of the kind `k`? -/
def isNext (k : TokenKind) : Parser Bool := return (← peek) == some k

/-- Reads with `p` if the next token is of the kind `k`. -/
def optional (k : TokenKind) (p : Parser α) : Parser (Option α) := do
  if ← isNext k then return some (← p) else return none

/-- Reads with `p` unless the next token is of the kind `k`. -/
def notBefore (k : TokenKind) (p : Parser α) : Parser (Option α) := do
  if ← isNext k then return none else return some (← p)

/-- Reads with `p` as long as the next token is of the kind `k`, at most `n` times. -/
def whileNext (k : TokenKind) (p : Parser α) : Nat → Parser (List α)
  | 0 => pure []
  | n + 1 => do
    if ← isNext k then
      let a ← p
      return a :: (← whileNext k p n)
    else return []

end Parser

open AutoAwait.Parser

/-- The parsers that the grammar uses inside itself, and how many tokens they can read. -/
structure Grammar where
  fuel : Nat
  /-- An expression. -/
  phrase : Parser Phrase
  /-- An operand: an expression that binds at least as tightly as a sign before its operand. -/
  operand : Parser Phrase
  statement : Parser Statement

namespace Grammar

variable (g : Grammar)

/-! ## Lists -/

/-- Expressions separated by commas, at least one. -/
def phrases : Parser (List Phrase) := do
  let p ← g.phrase
  return p :: (← Parser.whileNext .comma (token .comma *> g.phrase) g.fuel)

/-- The arguments of a call, in parentheses. -/
def arguments : Parser (List Phrase) := do
  let _ ← token .lparen
  let args ← Parser.notBefore .rparen g.phrases
  let _ ← token .rparen
  return args.getD []

/-- The parameters of a function, in parentheses. -/
def params : Parser (List Token) := do
  let _ ← token .lparen
  let names ← Parser.optional .name do
    let p ← token .name
    return p :: (← Parser.whileNext .comma (token .comma *> token .name) g.fuel)
  let _ ← token .rparen
  return names.getD []

/-- Items separated by commas up to and with the token `close`; a comma may follow the last one. -/
def itemsUntil {α : Type} (close : TokenKind) (item : Parser α) : Nat → Parser (List α)
  | 0 => do
    let _ ← token close
    return []
  | n + 1 => do
    if ← isNext close then
      let _ ← token close
      return []
    else
      let a ← item
      if ← isNext .comma then
        let _ ← token .comma
        return a :: (← itemsUntil close item n)
      else
        let _ ← token close
        return [a]

/-- Statements and stray terminators, up to a closing brace or the end. -/
def statements : Nat → Parser (List Statement)
  | 0 => pure []
  | n + 1 => do
    match ← peek with
    | none | some .rbrace => return []
    | some .terminator =>
      let _ ← token .terminator
      statements n
    | some _ =>
      let s ← g.statement
      return s :: (← statements n)

/-- A block. -/
def block : Parser Block := do
  let brace ← token .blockOpen
  let body ← g.statements g.fuel
  let _ ← token .rbrace
  return ⟨brace.loc, body⟩

/-! ## Expressions -/

/-- An entry of an object literal. -/
def objectEntry : Parser ObjectEntry := do
  match ← peek with
  | some .name =>
    let key ← token .name
    if ← isNext .colon then
      let _ ← token .colon
      return .pair key (← g.phrase)
    else return .shorthand key
  | some .string | some .number =>
    let key ← anyToken
    let _ ← token .colon
    return .pair key (← g.phrase)
  | _ => stuck

/-- An expression that is no operator's: a name, a literal, a bracketed form, a function or `new`.
An opening parenthesis holds one expression. -/
def primary : Parser Phrase := do
  match ← peek with
  | some .name => return .name (← anyToken)
  | some .number => return .number (← anyToken)
  | some .string => return .string (← anyToken)
  | some (.keyword .true) | some (.keyword .false) | some (.keyword .null) =>
    return .constant (← anyToken)
  | some (.keyword .this) => return .this (← anyToken)
  | some .lparen =>
    let paren ← token .lparen
    let inner ← g.phrase
    let _ ← token .rparen
    return .group paren.loc inner
  | some .lbracket =>
    let bracket ← token .lbracket
    return .array bracket.loc (← itemsUntil .rbracket g.phrase g.fuel)
  | some .lbrace =>
    let brace ← token .lbrace
    return .object brace.loc (← itemsUntil .rbrace g.objectEntry g.fuel)
  | some (.keyword .function) =>
    let keyword ← anyToken
    let name ← Parser.optional .name (token .name)
    let params ← g.params
    return .function keyword.loc name params (← g.block)
  | some (.keyword .new) =>
    let keyword ← anyToken
    let target ← token .name
    let path ← Parser.whileNext .dot (token .dot *> token .name) g.fuel
    return .construct keyword.loc target path (← Parser.optional .lparen g.arguments)
  | _ => stuck

/-- The accesses and calls that follow `p`, at most `n` of them. -/
def suffixes : Nat → Phrase → Parser Phrase
  | 0, p => pure p
  | n + 1, p => do
    match ← peek with
    | some .dot =>
      let _ ← token .dot
      suffixes n (.member p (← token .name))
    | some .lbracket =>
      let _ ← token .lbracket
      let key ← g.phrase
      let _ ← token .rbracket
      suffixes n (.index p key)
    | some .lparen => suffixes n (.call p (← g.arguments))
    | _ => return p

/-- `p` with the `++` or `--` that follows it, if one does. -/
def updated (p : Phrase) : Parser Phrase := do
  match ← Parser.optional .incDec (token .incDec) with
  | some op => return .update p op
  | none => return p

/-- Is this the kind of an operator that stands before its operand? -/
def isUnaryOperator : TokenKind → Bool
  | .addOp | .bang | .keyword .typeof | .keyword .await => true
  | _ => false

/-- An operator and its operand. -/
def unary : Parser Phrase := do
  let op ← anyToken
  return .unary op (← g.operand)

/-- An operand. -/
def operandStep : Parser Phrase := do
  if (← peek).any isUnaryOperator then g.unary
  else
    let p ← g.primary
    updated (← g.suffixes g.fuel p)

/-- The kinds of binary operators, loosest first. -/
def binaryOperators : List TokenKind :=
  [.logicOr, .logicAnd, .equality, .comparison, .addOp, .mulOp]

/-- Operators of the kind `k` after `left`, each with its right side, at most `n` of them. -/
def chain (k : TokenKind) (right : Parser Phrase) : Nat → Phrase → Parser Phrase
  | 0, left => pure left
  | n + 1, left => do
    if ← isNext k then
      let op ← token k
      chain k right n (.binary op left (← right))
    else return left

/-- The binary operators of the given kinds, loosest first, that follow the operand `p`. -/
def binary : List TokenKind → Phrase → Parser Phrase
  | [], p => pure p
  | k :: tighter, p => do
    let left ← binary tighter p
    chain k (do binary tighter (← g.operand)) g.fuel left

/-- The binary operators and the conditional that follow the operand `p`. -/
def conditional (p : Phrase) : Parser Phrase := do
  let test ← g.binary binaryOperators p
  if ← isNext .question then
    let _ ← token .question
    let consequent ← g.phrase
    let _ ← token .colon
    return .conditional test consequent (← g.phrase)
  else return test

/-- What follows the access or call `p` at the start of an expression: an assignment to it, or the
operators that it is the first operand of. -/
def assignment (p : Phrase) : Parser Phrase := do
  match ← peek with
  | some .assign | some .compoundAssign =>
    let op ← anyToken
    return .assignment op p (← g.phrase)
  | _ => g.conditional (← updated p)

/-- The arrow and the body of an arrow function. -/
def arrow (start : Position) (params : List Phrase) : Parser Phrase := do
  let _ ← token .arrow
  if ← isNext .blockOpen then return .arrow start params (.block (← g.block))
  else return .arrow start params (.phrase (← g.phrase))

/-- An expression. -/
def phraseStep : Parser Phrase := do
  match ← peek with
  | some .name =>
    let name ← token .name
    if ← isNext .arrow then g.arrow name.loc [.name name]
    else g.assignment (← g.suffixes g.fuel (.name name))
  | some .lparen =>
    let paren ← token .lparen
    let inner ← Parser.notBefore .rparen g.phrases
    let _ ← token .rparen
    match inner.getD [], ← isNext .arrow with
    | [p], false => g.assignment (← g.suffixes g.fuel (.group paren.loc p))
    | ps, _ => g.arrow paren.loc ps
  | some k =>
    if isUnaryOperator k then g.conditional (← g.unary)
    else
      let p ← g.primary
      g.assignment (← g.suffixes g.fuel p)
  | none => stuck

/-! ## Statements -/

/-- The declarator of `name`, with its first value if one follows. -/
def declarator (name : Token) : Parser Declarator :=
  return ⟨name, ← Parser.optional .assign (token .assign *> g.phrase)⟩

/-- The declarators of a declaration, the first of which declares `name`. -/
def declarators (name : Token) : Parser (List Declarator) := do
  let d ← g.declarator name
  return d :: (← Parser.whileNext .comma
    (do let _ ← token .comma; g.declarator (← token .name)) g.fuel)

/-- A condition in parentheses. -/
def condition : Parser Phrase := do
  let _ ← token .lparen
  let p ← g.phrase
  let _ ← token .rparen
  return p

/-- The rest of the header of a counting loop, from the semicolon after its start on, and its
body. -/
def countingLoop (keyword : Position) (init : Option LoopInit) : Parser Statement := do
  let _ ← token .semicolon
  let test ← Parser.notBefore .semicolon g.phrase
  let _ ← token .semicolon
  let update ← Parser.notBefore .rparen g.phrase
  let _ ← token .rparen
  return .for keyword init test update (← g.statement)

/-- The header and the body of a loop, after its keyword. -/
def loop (keyword : Position) : Parser Statement := do
  let _ ← token .lparen
  match ← peek with
  | some (.keyword .let) | some (.keyword .const) | some (.keyword .var) =>
    let kind ← anyToken
    let name ← token .name
    if ← isNext (.keyword .of) then
      let _ ← token (.keyword .of)
      let iterated ← g.phrase
      let _ ← token .rparen
      return .forOf keyword kind name iterated (← g.statement)
    else g.countingLoop keyword (some (.declaration kind (← g.declarators name)))
  | some .semicolon => g.countingLoop keyword none
  | _ => g.countingLoop keyword (some (.phrase (← g.phrase)))

/-- The `catch` part of a `try`. -/
def handler : Parser Handler := do
  let keyword ← token (.keyword .catch)
  let param ← Parser.optional .lparen do
    let _ ← token .lparen
    let name ← token .name
    let _ ← token .rparen
    return name
  return ⟨keyword.loc, param, ← g.block⟩

/-- A statement. -/
def statementStep : Parser Statement := do
  match ← peek with
  | some (.keyword .let) | some (.keyword .const) | some (.keyword .var) =>
    let keyword ← anyToken
    let ds ← g.declarators (← token .name)
    let _ ← token .terminator
    return .declaration keyword ds
  | some (.keyword .return) =>
    let keyword ← anyToken
    let value ← Parser.notBefore .terminator g.phrase
    let _ ← token .terminator
    return .return keyword.loc value
  | some (.keyword .if) =>
    let keyword ← anyToken
    let test ← g.condition
    let consequent ← g.statement
    return .if keyword.loc test consequent
      (← Parser.optional (.keyword .else) (anyToken *> g.statement))
  | some (.keyword .while) =>
    let keyword ← anyToken
    let test ← g.condition
    return .while keyword.loc test (← g.statement)
  | some (.keyword .for) =>
    let keyword ← anyToken
    g.loop keyword.loc
  | some .functionDecl =>
    let keyword ← anyToken
    let name ← token .name
    let params ← g.params
    return .function keyword.loc name params (← g.block)
  | some .blockOpen => return .block (← g.block)
  | some (.keyword .break) =>
    let keyword ← anyToken
    let _ ← token .terminator
    return .break keyword.loc
  | some (.keyword .continue) =>
    let keyword ← anyToken
    let _ ← token .terminator
    return .continue keyword.loc
  | some (.keyword .throw) =>
    let keyword ← anyToken
    let value ← g.phrase
    let _ ← token .terminator
    return .throw keyword.loc value
  | some (.keyword .try) =>
    let keyword ← anyToken
    let body ← g.block
    let handler ← Parser.optional (.keyword .catch) g.handler
    let finalizer ← Parser.optional (.keyword .finally) (anyToken *> g.block)
    return .try keyword.loc body handler finalizer
  | _ =>
    let p ← g.phraseStep
    let _ ← token .terminator
    return .expression p

/-- The grammar unfolded `n` times. -/
def level : Nat → Grammar
  | 0 => ⟨0, stuck, stuck, stuck⟩
  | n + 1 =>
    let g := level n
    ⟨n + 1, g.phraseStep, g.operandStep, g.statementStep⟩

end Grammar

/-- Reads a whole script: its statements, or the tokens from the first one that does not fit. -/
def parseTokens (ts : List Token) : Except (List Token) (List Statement) :=
  match (Grammar.level ts.length).statements ts.length ts with
  | .ok (body, []) => .ok body
  | .ok (_, rest) => .error rest
  | .error rest => .error rest

end AutoAwait
