import AutoAwait.Text.DecimalDigit
import AutoAwait.Text.NumberParts
import AutoAwait.Token.Basic

/-!
# Lexemes

A text is cut into lexemes from left to right: tokens, blanks and comments. At each place the first
of these classes that matches gives the lexeme: quoted string, number, name, block comment, line
comment, blank, and last the symbols in the order of `symbols`. Where none matches, reading stops.

* `lexemes` cuts a text and returns what it could not read;
* `readTokens` keeps the tokens, with their places, and the character where reading stopped.
-/

namespace AutoAwait

/-- What a lexeme is. -/
inductive LexemeKind where
  | token (kind : TokenKind)
  | blank
  | lineComment
  | blockComment
deriving DecidableEq

/-- A run of characters that belong together. -/
structure Lexeme where
  kind : LexemeKind
  text : List Char
deriving DecidableEq

/-! ## The classes of lexemes

Each reader returns the text that it matched and the characters after it. -/

/-- The rest of a string literal up to and with its closing quote `q`. A backslash takes the next
character with it; neither it nor any other character of the literal is a newline. -/
def quotedRest (q : Char) : List Char → Option (List Char × List Char)
  | [] => none
  | '\\' :: c :: cs =>
    if c = '\n' then none else (quotedRest q cs).map fun r => ('\\' :: c :: r.1, r.2)
  | c :: cs =>
    if c = q then some ([c], cs)
    else if c = '\\' ∨ c = '\n' then none
    else (quotedRest q cs).map fun r => (c :: r.1, r.2)

/-- A string literal, in single or double quotes. -/
def quoted? : List Char → Option (List Char × List Char)
  | [] => none
  | c :: cs =>
    if c = '\'' ∨ c = '"' then (quotedRest c cs).map fun r => (c :: r.1, r.2) else none

/-- A number: digits, an optional fraction and an optional exponent. -/
def number? (cs : List Char) : Option (List Char × List Char) :=
  if (cs.takeWhile isDecimalDigit).isEmpty then none
  else
    let f := fraction isDecimalDigit (cs.dropWhile isDecimalDigit)
    let e := exponent isDecimalDigit f.2
    some (cs.takeWhile isDecimalDigit ++ f.1 ++ e.1, e.2)

/-- May a name start with this character? -/
def isNameStart (c : Char) : Bool := c.isAlpha || c == '_' || c == '$'

/-- May a name go on with this character? -/
def isNameChar (c : Char) : Bool := c.isAlphanum || c == '_' || c == '$'

/-- A name, reserved words included. -/
def name? : List Char → Option (List Char × List Char)
  | [] => none
  | c :: cs =>
    if isNameStart c then some (c :: cs.takeWhile isNameChar, cs.dropWhile isNameChar) else none

/-- The rest of a block comment up to and with its closing mark. -/
def commentRest : List Char → Option (List Char × List Char)
  | '*' :: '/' :: cs => some (['*', '/'], cs)
  | c :: cs => (commentRest cs).map fun r => (c :: r.1, r.2)
  | [] => none

/-- A block comment; without its closing mark there is none. -/
def blockComment? : List Char → Option (List Char × List Char)
  | '/' :: '*' :: cs => (commentRest cs).map fun r => ('/' :: '*' :: r.1, r.2)
  | _ => none

/-- A line comment, up to the next newline, which is not part of it. -/
def lineComment? : List Char → Option (List Char × List Char)
  | '/' :: '/' :: cs => some ('/' :: '/' :: cs.takeWhile (· ≠ '\n'), cs.dropWhile (· ≠ '\n'))
  | _ => none

/-- Is this character blank inside a line? -/
def isInlineBlank (c : Char) : Bool := c == ' ' || c == '\t' || c == '\x0c' || c == '\r'

/-- A run of blanks inside a line. -/
def blank? (cs : List Char) : Option (List Char × List Char) :=
  if (cs.takeWhile isInlineBlank).isEmpty then none
  else some (cs.takeWhile isInlineBlank, cs.dropWhile isInlineBlank)

/-- The symbols and their kinds; of two that match, the first is taken. -/
def symbols : List (List Char × TokenKind) :=
  [(['=', '=', '='], .equality), (['!', '=', '='], .equality), (['=', '='], .equality),
    (['!', '='], .equality),
    (['-', '='], .compoundAssign), (['+', '='], .compoundAssign), (['*', '='], .compoundAssign),
    (['/', '='], .compoundAssign), (['%', '='], .compoundAssign),
    (['<', '='], .comparison), (['>', '='], .comparison), (['<'], .comparison),
    (['>'], .comparison),
    (['|', '|'], .logicOr), (['?', '?'], .logicOr),
    (['+', '+'], .incDec), (['-', '-'], .incDec),
    (['=', '>'], .arrow), (['&', '&'], .logicAnd),
    (['*'], .mulOp), (['/'], .mulOp), (['%'], .mulOp), (['+'], .addOp), (['-'], .addOp),
    (['!'], .bang), ([':'], .colon), ([','], .comma), (['.'], .dot), (['='], .assign),
    (['{'], .lbrace), (['('], .lparen), (['['], .lbracket), (['\n'], .newline), (['?'], .question),
    (['}'], .rbrace), ([')'], .rparen), ([']'], .rbracket), ([';'], .semicolon)]

/-- The first symbol of the table that the text starts with. -/
def symbol? (cs : List Char) : Option (TokenKind × List Char × List Char) :=
  (symbols.find? fun s => s.1.isPrefixOf cs).map fun s => (s.2, s.1, cs.drop s.1.length)

/-- The kind of a name: that of the reserved word it spells, if it spells one. -/
def nameKind (text : List Char) : TokenKind :=
  match Keyword.ofString? (String.ofList text) with
  | some k => .keyword k
  | none => .name

/-- The first lexeme of a text, and the characters after it. -/
def lexeme? (cs : List Char) : Option (Lexeme × List Char) :=
  (quoted? cs).map (fun r => (⟨.token .string, r.1⟩, r.2))
    <|> (number? cs).map (fun r => (⟨.token .number, r.1⟩, r.2))
    <|> (name? cs).map (fun r => (⟨.token (nameKind r.1), r.1⟩, r.2))
    <|> (blockComment? cs).map (fun r => (⟨.blockComment, r.1⟩, r.2))
    <|> (lineComment? cs).map (fun r => (⟨.lineComment, r.1⟩, r.2))
    <|> (blank? cs).map (fun r => (⟨.blank, r.1⟩, r.2))
    <|> (symbol? cs).map (fun r => (⟨.token r.1, r.2.1⟩, r.2.2))

/-- Cuts off at most `fuel` lexemes. -/
def lexemesUpTo : Nat → List Char → List Lexeme × List Char
  | 0, cs => ([], cs)
  | fuel + 1, cs =>
    match lexeme? cs with
    | none => ([], cs)
    | some (l, rest) =>
      let r := lexemesUpTo fuel rest
      (l :: r.1, r.2)

/-- The lexemes of a text, and the characters that are left where no lexeme starts: none are left
if the whole text could be read. A lexeme is never empty, so there are no more lexemes than
characters. -/
def lexemes (cs : List Char) : List Lexeme × List Char := lexemesUpTo cs.length cs

/-! ## The tokens of a text -/

/-- The tokens among lexemes that start at `p`. -/
def tokensFrom (p : Position) : List Lexeme → List Token
  | [] => []
  | l :: ls =>
    match l.kind with
    | .token kind => ⟨kind, String.ofList l.text, p⟩ :: tokensFrom (p.advance l.text) ls
    | _ => tokensFrom (p.advance l.text) ls

/-- The tokens of a text as far as it could be read. -/
structure TokenStream where
  tokens : List Token
  /-- The character at which reading stopped, with its place; none if the text was read to its
  end. -/
  stop : Option (Char × Position)

/-- Reads the tokens of a text. -/
def readTokens (cs : List Char) : TokenStream :=
  let (ls, rest) := lexemes cs
  { tokens := tokensFrom .start ls
    stop := rest.head?.map fun c => (c, Position.start.advance (ls.flatMap (·.text))) }

end AutoAwait
