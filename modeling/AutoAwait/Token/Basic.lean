import AutoAwait.Text.Position

/-!
# Tokens

A token has a kind, the text it was read from and the place where that text starts. Three kinds are
not found by reading characters but set by the terminator step (`AutoAwait.Token.Terminator`): the
statement terminator, the brace that opens a block and the `function` that starts a declaration.

* `TokenKind.label` is the published name of a kind;
* `Keyword.ofString?` finds the reserved words.
-/

namespace AutoAwait

/-- The reserved words. -/
inductive Keyword where
  | «let» | const | var | «return» | «break» | «continue» | throw | «if» | «else» | «while» | «for»
  | of | «try» | «catch» | «finally» | function | new | «true» | «false» | null | this | typeof
  | await
deriving DecidableEq

/-- The kinds of tokens. -/
inductive TokenKind where
  | string | number | name
  | keyword (k : Keyword)
  /-- `===`, `!==`, `==`, `!=` -/
  | equality
  /-- `-=`, `+=`, `*=`, `/=`, `%=` -/
  | compoundAssign
  /-- `<=`, `>=`, `<`, `>` -/
  | comparison
  /-- `||`, `??` -/
  | logicOr
  /-- `++`, `--` -/
  | incDec
  /-- `=>` -/
  | arrow
  /-- `&&` -/
  | logicAnd
  /-- `*`, `/`, `%` -/
  | mulOp
  /-- `+`, `-` -/
  | addOp
  | bang | colon | comma | dot | assign
  | lbrace | lparen | lbracket | newline | question | rbrace | rparen | rbracket | semicolon
  /-- The end of a statement, written or implied. -/
  | terminator
  /-- A `{` that opens a block. -/
  | blockOpen
  /-- A `function` that starts a declaration. -/
  | functionDecl
deriving DecidableEq

/-- A piece of the text with its kind and the place where it starts. -/
structure Token where
  kind : TokenKind
  text : String
  loc : Position
deriving DecidableEq

namespace Keyword

/-- All reserved words. -/
def all : List Keyword :=
  [.let, .const, .var, .return, .break, .continue, .throw, .if, .else, .while, .for, .of, .try,
    .catch, .finally, .function, .new, .true, .false, .null, .this, .typeof, .await]

/-- The spelling of a reserved word. -/
def spelling : Keyword → String
  | .let => "let"
  | .const => "const"
  | .var => "var"
  | .return => "return"
  | .break => "break"
  | .continue => "continue"
  | .throw => "throw"
  | .if => "if"
  | .else => "else"
  | .while => "while"
  | .for => "for"
  | .of => "of"
  | .try => "try"
  | .catch => "catch"
  | .finally => "finally"
  | .function => "function"
  | .new => "new"
  | .true => "true"
  | .false => "false"
  | .null => "null"
  | .this => "this"
  | .typeof => "typeof"
  | .await => "await"

/-- The published name of a reserved word's kind. -/
def label : Keyword → String
  | .let => "LET"
  | .const => "CONST"
  | .var => "VAR"
  | .return => "RETURN"
  | .break => "BREAK"
  | .continue => "CONTINUE"
  | .throw => "THROW"
  | .if => "IF"
  | .else => "ELSE"
  | .while => "WHILE"
  | .for => "FOR"
  | .of => "OF"
  | .try => "TRY"
  | .catch => "CATCH"
  | .finally => "FINALLY"
  | .function => "FUNCTION"
  | .new => "NEW"
  | .true => "TRUE"
  | .false => "FALSE"
  | .null => "NULL"
  | .this => "THIS"
  | .typeof => "TYPEOF"
  | .await => "AWAIT"

/-- The reserved word with this spelling. -/
def ofString? (s : String) : Option Keyword := all.find? fun k => k.spelling == s

theorem mem_all (k : Keyword) : k ∈ all := by cases k <;> decide

/-- No two reserved words have one spelling. -/
theorem ofString?_spelling (k : Keyword) : ofString? k.spelling = some k := by
  cases k <;> decide

theorem spelling_of_ofString? {s : String} {k : Keyword} (h : ofString? s = some k) :
    k.spelling = s := by
  simpa using List.find?_some h

end Keyword

namespace TokenKind

/-- The published name of a kind. -/
def label : TokenKind → String
  | .string => "STRING"
  | .number => "NUMBER"
  | .name => "NAME"
  | .keyword k => k.label
  | .equality => "EQ_OP"
  | .compoundAssign => "COMPOUND_ASSIGN"
  | .comparison => "COMP_OP"
  | .logicOr => "LOGIC_OR"
  | .incDec => "INCDEC"
  | .arrow => "ARROW"
  | .logicAnd => "LOGIC_AND"
  | .mulOp => "MUL_OP"
  | .addOp => "ADD_OP"
  | .bang => "BANG"
  | .colon => "COLON"
  | .comma => "COMMA"
  | .dot => "DOT"
  | .assign => "EQUAL"
  | .lbrace => "LBRACE"
  | .lparen => "LPAR"
  | .lbracket => "LSQB"
  | .newline => "NEWLINE"
  | .question => "QMARK"
  | .rbrace => "RBRACE"
  | .rparen => "RPAR"
  | .rbracket => "RSQB"
  | .semicolon => "SEMICOLON"
  | .terminator => "_TERM"
  | .blockOpen => "LBLOCK"
  | .functionDecl => "FUNCTION_DECL"

/-- Is this the kind of a reserved word? -/
def isKeyword : TokenKind → Bool
  | .keyword _ => true
  | _ => false

end TokenKind

end AutoAwait
