import AutoAwait.Node.Basic
import AutoAwait.Text.WordChar

/-!
# Printing trees

A tree is printed as a list of pieces: words, single spaces and line breaks, each break with the
depth of the line after it. A level of depth is two spaces. Parentheses are printed where an operand
binds more loosely than its place asks for, and where the text would otherwise be read differently:
around a statement that would begin like a block or a declaration, a function that is called or
accessed, a number that is accessed, an object that is the body of an arrow function, and a mixture
of `??` with `||` or `&&`.

* `Node.precedence` is how tightly an expression binds;
* `Node.expr` and `Node.stmt` are the pieces of an expression and of a statement;
* `formatScript`, `formatStatement` and `formatExpression` are their texts.
-/

namespace AutoAwait

/-- A piece of printed text. -/
inductive Piece where
  | word (text : String)
  | space
  /-- A line break; the next line is `depth` levels deep. -/
  | newline (depth : Nat)
deriving DecidableEq

/-- A text in pieces. -/
abbrev Doc := List Piece

namespace Piece

/-- The text of a piece. -/
def text : Piece → String
  | .word t => t
  | .space => " "
  | .newline depth => String.ofList ('\n' :: List.replicate (2 * depth) ' ')

/-- A piece without the blanks at its end. -/
def trimEnd : Piece → Doc
  | .word t =>
    match (t.toList.reverse.dropWhile isBlank).reverse with
    | [] => []
    | cs => [.word (String.ofList cs)]
  | .space | .newline _ => []

end Piece

namespace Doc

/-- The text of a list of pieces. -/
def render (d : Doc) : String := String.join (d.map Piece.text)

/-- Pieces in parentheses. -/
def parens (d : Doc) : Doc := .word "(" :: d ++ [.word ")"]

/-- Items with the same pieces between any two of them. -/
def separate (sep : Doc) : List Doc → Doc
  | [] => []
  | [d] => d
  | d :: ds => d ++ sep ++ separate sep ds

/-- Items separated by commas. -/
def commas (ds : List Doc) : Doc := separate [.word ",", .space] ds

/-- Pieces without the blanks at their end. -/
def trimEnd : Doc → Doc
  | [] => []
  | p :: ps =>
    match trimEnd ps with
    | [] => p.trimEnd
    | q :: qs => p :: q :: qs

/-- Lines of depth `level + 1` in braces; the closing brace is `level` deep. -/
def braces (level : Nat) (lines : List Doc) : Doc :=
  match lines with
  | [] => [.word "\x7b", .word "\x7d"]
  | _ =>
    .word "\x7b" :: lines.flatMap (fun d => .newline (level + 1) :: d)
      ++ [.newline level, .word "\x7d"]

end Doc

/-! ## How tightly expressions bind -/

/-- The precedence of an assignment or an arrow function. -/
def assignmentPrecedence : Nat := 1

/-- The precedence of a conditional expression. -/
def conditionalPrecedence : Nat := 2

/-- The precedence of an operator before its operand. -/
def unaryPrecedence : Nat := 9

/-- The precedence of an operator after its operand. -/
def updatePrecedence : Nat := 10

/-- The precedence of an access or a call. -/
def memberPrecedence : Nat := 11

/-- The precedence of what needs no parentheses. -/
def primaryPrecedence : Nat := 12

/-- The precedence of a binary operator. -/
def operatorPrecedence (op : String) : Nat :=
  if op = "??" ∨ op = "||" then 3
  else if op = "&&" then 4
  else if op = "==" ∨ op = "!=" ∨ op = "===" ∨ op = "!==" then 5
  else if op = "<" ∨ op = ">" ∨ op = "<=" ∨ op = ">=" then 6
  else if op = "+" ∨ op = "-" then 7
  else if op = "*" ∨ op = "/" ∨ op = "%" then 8
  else 3

namespace Node

/-- How tightly an expression binds. -/
def precedence (n : Node) : Nat :=
  match n.shape with
  | .assignment .. | .arrow .. => assignmentPrecedence
  | .conditional .. => conditionalPrecedence
  | .binary op _ _ | .logical op _ _ => operatorPrecedence op
  | .unary .. | .await .. => unaryPrecedence
  | .update .. => updatePrecedence
  | .member .. | .call .. | .construct .. => memberPrecedence
  | _ => primaryPrecedence

/-- The operator of a logical expression. -/
def logicalOperator? (n : Node) : Option String :=
  match n.shape with
  | .logical op _ _ => some op
  | _ => none

/-- Is the operand `n` of the logical operator `op` an expression that `op` may not be mixed with?
Neither `||` nor `&&` may be mixed with `??`. -/
def mixesNullish (op : String) (n : Node) : Bool :=
  match n.logicalOperator? with
  | some op' => op != op' && (op == "??" || op' == "??")
  | none => false

/-- Is this a literal number? -/
def isNumber (n : Node) : Bool :=
  match n.shape with
  | .literal (.int _) _ | .literal (.float _) _ => true
  | _ => false

/-! ## Pieces that do not depend on the parts' pieces -/

/-- The name of a node that has one. -/
def nameText (n : Node) : String := n.name?.getD ""

/-- What stands for a node that cannot stand here. -/
def unsupported (n : Node) : Doc := [.word ("/* <unsupported " ++ n.kind.label ++ "> */")]

/-- The pieces `d` of the expression `n`, in parentheses if it binds more loosely than `least`. -/
def atLeast (least : Nat) (n : Node) (d : Doc) : Doc := if n.precedence < least then d.parens else d

/-- The pieces `d` of `n` as what is accessed or called. -/
def operand (n : Node) (d : Doc) : Doc :=
  let d := atLeast memberPrecedence n d
  if n.kind = .function ∨ n.isNumber then d.parens else d

/-- Names in parentheses. -/
def paramList (ps : List Node) : Doc := (Doc.commas (ps.map fun p => [.word p.nameText])).parens

/-- A function with the given name and parameters, and a body of the pieces `body`. -/
def functionDoc (name : Option Node) (params : List Node) (body : Doc) : Doc :=
  let name : Doc :=
    match name with
    | some n => [.space, .word n.nameText]
    | none => []
  .word "function" :: name ++ paramList params ++ .space :: body

/-- Does a statement of this text begin like a block or like the declaration of a function? -/
def beginsLikeStatement (text : String) : Bool :=
  let cs := text.toList
  let word := "function".toList
  cs.head? == some '{' || (word.isPrefixOf cs && !((cs.drop word.length).head?.any isWordChar))

/-- The pieces `d` of an expression as those of a statement. -/
def asStatement (d : Doc) : Doc :=
  (if beginsLikeStatement d.render then d.parens else d) ++ [.word ";"]

/-- An operator before the pieces `d` of its operand. They are kept apart if the operator is a word
or could be read together with what follows it. -/
def prefixed (op : String) (d : Doc) : Doc :=
  if op = "typeof" ∨ op.toList.isPrefixOf d.render.toList then .word op :: .space :: d
  else .word op :: d

/-- An operator between the pieces of its operands. -/
def infixed (op : String) (l r : Doc) : Doc := l ++ [.space, .word op, .space] ++ r

/-- The pieces `d` of the body of an arrow function. -/
def arrowBody (body : Node) (d : Doc) : Doc :=
  if body.kind = .object then (atLeast assignmentPrecedence body d).parens
  else atLeast assignmentPrecedence body d

/-- The parameters of an arrow function. -/
def arrowParams : List Node → Doc
  | [p] => [.word p.nameText]
  | ps => paramList ps

/-- What stands between the branches of an `if`. -/
def elseJoint (level : Nat) (consequent : Node) : Doc :=
  if consequent.kind = .block then [.space, .word "else", .space]
  else [.newline level, .word "else", .space]

/-! ## Trees -/

mutual

/-- The pieces of an expression, without parentheses around it. -/
def expr (level : Nat) : Node → Doc
  | ⟨_, _, .identifier n⟩ => [.word n]
  | ⟨_, _, .literal _ raw⟩ => [.word raw]
  | ⟨_, _, .this⟩ => [.word "this"]
  | ⟨_, _, .array es⟩ => .word "[" :: Doc.commas (items level es) ++ [.word "]"]
  | ⟨_, _, .object []⟩ => [.word "\x7b", .word "\x7d"]
  | ⟨_, _, .object (p :: ps)⟩ =>
    .word "\x7b" :: .space :: Doc.commas (entry level p :: entries level ps)
      ++ [.space, .word "\x7d"]
  | ⟨_, _, .member o p false⟩ => operand o (expr level o) ++ .word "." :: expr level p
  | ⟨_, _, .member o p true⟩ =>
    operand o (expr level o) ++ .word "[" :: expr level p ++ [.word "]"]
  | ⟨_, _, .call c as⟩ => operand c (expr level c) ++ (Doc.commas (items level as)).parens
  | ⟨_, _, .construct c as⟩ =>
    .word "new" :: .space :: atLeast memberPrecedence c (expr level c)
      ++ (Doc.commas (items level as)).parens
  | ⟨_, _, .await a⟩ => .word "await" :: .space :: atLeast unaryPrecedence a (expr level a)
  | ⟨_, _, .assignment op l r⟩ =>
    infixed op (atLeast memberPrecedence l (expr level l))
      (atLeast assignmentPrecedence r (expr level r))
  | ⟨_, _, .binary op l r⟩ =>
    infixed op (atLeast (operatorPrecedence op) l (expr level l))
      (atLeast (operatorPrecedence op + 1) r (expr level r))
  | ⟨_, _, .logical op l r⟩ =>
    infixed op
      (atLeast (if mixesNullish op l then primaryPrecedence else operatorPrecedence op) l
        (expr level l))
      (atLeast (if mixesNullish op r then primaryPrecedence else operatorPrecedence op + 1) r
        (expr level r))
  | ⟨_, _, .unary op a⟩ => prefixed op (atLeast unaryPrecedence a (expr level a))
  | ⟨_, _, .update op a true⟩ => .word op :: atLeast memberPrecedence a (expr level a)
  | ⟨_, _, .update op a false⟩ => atLeast memberPrecedence a (expr level a) ++ [.word op]
  | ⟨_, _, .conditional t c a⟩ =>
    infixed "?" (atLeast (conditionalPrecedence + 1) t (expr level t))
      (infixed ":" (atLeast assignmentPrecedence c (expr level c))
        (atLeast assignmentPrecedence a (expr level a)))
  | ⟨_, _, .function id ps b⟩ => functionDoc id ps (body level b)
  | ⟨_, _, .arrow ps b⟩ =>
    infixed "=>" (arrowParams ps)
      (if b.kind = .block then body level b else arrowBody b (expr level b))
  | n => n.unsupported

/-- The pieces of expressions in a list. -/
def items (level : Nat) : List Node → List Doc
  | [] => []
  | n :: ns => atLeast assignmentPrecedence n (expr level n) :: items level ns

/-- The pieces of an entry of an object. -/
def entry (level : Nat) : Node → Doc
  | ⟨_, _, .property k _ true⟩ => expr level k
  | ⟨_, _, .property k v false⟩ =>
    expr level k ++ .word ":" :: .space :: atLeast assignmentPrecedence v (expr level v)
  | n => n.unsupported

/-- The pieces of the entries of an object. -/
def entries (level : Nat) : List Node → List Doc
  | [] => []
  | n :: ns => entry level n :: entries level ns

/-- The pieces of a declared name and its first value. -/
def declarator (level : Nat) : Node → Doc
  | ⟨_, _, .declarator id none⟩ => [.word id.nameText]
  | ⟨_, _, .declarator id (some e)⟩ =>
    infixed "=" [.word id.nameText] (atLeast assignmentPrecedence e (expr level e))
  | n => n.unsupported

/-- The pieces of declared names. -/
def declarators (level : Nat) : List Node → List Doc
  | [] => []
  | n :: ns => declarator level n :: declarators level ns

/-- The pieces of a declaration, without its end. -/
def declaration (level : Nat) : Node → Doc
  | ⟨_, _, .declaration kind ds⟩ => .word kind :: .space :: Doc.commas (declarators level ds)
  | n => n.unsupported

/-- The pieces of a braced body. -/
def body (level : Nat) : Node → Doc
  | ⟨_, _, .block b⟩ => Doc.braces level (stmts (level + 1) b)
  | ⟨_, _, .program b⟩ => Doc.braces level (stmts (level + 1) b)
  | n => n.unsupported

/-- The pieces of a part of a loop's header, nothing if it is missing. -/
def optExpr (level : Nat) : Option Node → Doc
  | none => []
  | some e => expr level e

/-- The pieces of what a counting loop starts with. -/
def loopInit (level : Nat) : Option Node → Doc
  | none => []
  | some i => if i.kind = .declaration then declaration level i else expr level i

/-- The pieces of the `catch` part of a `try`. -/
def handler (level : Nat) : Node → Doc
  | ⟨_, _, .catchClause none b⟩ => .word "catch" :: .space :: body level b
  | ⟨_, _, .catchClause (some p) b⟩ =>
    .word "catch" :: .space :: Doc.parens [.word p.nameText] ++ .space :: body level b
  | n => n.unsupported

/-- The pieces of a `catch` part that can be missing, with the space before it. -/
def optHandler (level : Nat) : Option Node → Doc
  | none => []
  | some h => .space :: handler level h

/-- The pieces of a `finally` part that can be missing, with the space before it. -/
def optFinalizer (level : Nat) : Option Node → Doc
  | none => []
  | some b => .space :: .word "finally" :: .space :: body level b

/-- The pieces of a statement. The first line carries no indentation of its own. -/
def stmt (level : Nat) : Node → Doc
  | ⟨_, _, .expression e⟩ => asStatement (expr level e)
  | ⟨_, _, .declaration kind ds⟩ =>
    .word kind :: .space :: Doc.commas (declarators level ds) ++ [.word ";"]
  | ⟨_, _, .return none⟩ => [.word "return", .word ";"]
  | ⟨_, _, .return (some a)⟩ => .word "return" :: .space :: expr level a ++ [.word ";"]
  | ⟨_, _, .block b⟩ => Doc.braces level (stmts (level + 1) b)
  | ⟨_, _, .functionDecl id ps b⟩ => functionDoc (some id) ps (body level b)
  | ⟨_, _, .if t c none⟩ =>
    .word "if" :: .space :: (expr level t).parens ++ .space :: stmt level c
  | ⟨_, _, .if t c (some a)⟩ =>
    .word "if" :: .space :: (expr level t).parens ++ .space :: stmt level c
      ++ elseJoint level c ++ stmt level a
  | ⟨_, _, .while t b⟩ =>
    .word "while" :: .space :: (expr level t).parens ++ .space :: stmt level b
  | ⟨_, _, .for i t u b⟩ =>
    .word "for" :: .space ::
      (Doc.trimEnd (loopInit level i ++ [.word ";", .space] ++ optExpr level t
        ++ [.word ";", .space] ++ optExpr level u)).parens
      ++ .space :: stmt level b
  | ⟨_, _, .forOf l r b⟩ =>
    .word "for" :: .space :: (infixed "of" (declaration level l) (expr level r)).parens
      ++ .space :: stmt level b
  | ⟨_, _, .break⟩ => [.word "break", .word ";"]
  | ⟨_, _, .continue⟩ => [.word "continue", .word ";"]
  | ⟨_, _, .throw a⟩ => .word "throw" :: .space :: expr level a ++ [.word ";"]
  | ⟨_, _, .try b h f⟩ =>
    .word "try" :: .space :: body level b ++ optHandler level h ++ optFinalizer level f
  | n => n.unsupported

/-- The pieces of statements in a list. -/
def stmts (level : Nat) : List Node → List Doc
  | [] => []
  | n :: ns => stmt level n :: stmts level ns

end

end Node

/-- The text of an expression, in parentheses if it binds more loosely than `least`. -/
def formatExpression (n : Node) (level least : Nat) : String :=
  (Node.atLeast least n (n.expr level)).render

/-- The text of a statement. -/
def formatStatement (n : Node) (level : Nat) : String := (n.stmt level).render

/-- The pieces of a script, one statement after the other. -/
def Node.script (n : Node) : Doc :=
  Doc.separate [.newline 0] (Node.stmts 0 (n.statements?.getD []))

/-- The text of a script. -/
def formatScript (n : Node) : String := n.script.render

end AutoAwait
