import AutoAwait.Token.Basic

/-!
# Parse trees

A parse tree says how a script is put together as it is written: parentheses are kept, a name is
still a token, and the left side of an assignment can be anything that the grammar admits there.

* `Phrase` is an expression, `Statement` a statement, `Block` a braced list of statements;
* `Phrase.start` is the place of a phrase's first token, its parentheses included.
-/

namespace AutoAwait

mutual

/-- An expression as it is written. -/
inductive Phrase where
  | name (token : Token)
  | number (token : Token)
  | string (token : Token)
  /-- `true`, `false`, `null` -/
  | constant (token : Token)
  | this (token : Token)
  /-- An expression in parentheses. -/
  | group (paren : Position) (inner : Phrase)
  | array (bracket : Position) (elements : List Phrase)
  | object (brace : Position) (entries : List ObjectEntry)
  | function (keyword : Position) (name : Option Token) (params : List Token) (body : Block)
  /-- `new` with a dotted name, its first segment and the others, and arguments, if given. -/
  | construct (keyword : Position) (target : Token) (path : List Token)
      (args : Option (List Phrase))
  | member (object : Phrase) (name : Token)
  | index (object key : Phrase)
  | call (callee : Phrase) (args : List Phrase)
  /-- `x++`, `x--` -/
  | update (target : Phrase) (operator : Token)
  /-- An operator before its operand. -/
  | unary (operator : Token) (operand : Phrase)
  | binary (operator : Token) (left right : Phrase)
  | conditional (test consequent alternate : Phrase)
  | assignment (operator : Token) (target value : Phrase)
  /-- An arrow function; what stands for its parameters are expressions to the grammar. -/
  | arrow (start : Position) (params : List Phrase) (body : ArrowBody)

/-- What follows `=>`. -/
inductive ArrowBody where
  | block (b : Block)
  | phrase (p : Phrase)

/-- An entry of an object literal. -/
inductive ObjectEntry where
  | pair (key : Token) (value : Phrase)
  | shorthand (name : Token)

/-- A name that is declared, and its first value, if given. -/
inductive Declarator where
  | mk (name : Token) (init : Option Phrase)

/-- A braced list of statements. -/
inductive Block where
  | mk (brace : Position) (body : List Statement)

/-- What a counting loop starts with. -/
inductive LoopInit where
  | declaration (keyword : Token) (declarators : List Declarator)
  | phrase (p : Phrase)

/-- The `catch` part of a `try`. -/
inductive Handler where
  | mk (keyword : Position) (param : Option Token) (body : Block)

/-- A statement as it is written. -/
inductive Statement where
  | declaration (keyword : Token) (declarators : List Declarator)
  | expression (p : Phrase)
  | «return» (keyword : Position) (value : Option Phrase)
  | «if» (keyword : Position) (test : Phrase) (consequent : Statement)
      (alternate : Option Statement)
  | «while» (keyword : Position) (test : Phrase) (body : Statement)
  | «for» (keyword : Position) (init : Option LoopInit) (test update : Option Phrase)
      (body : Statement)
  | forOf (keyword : Position) (kind name : Token) (iterated : Phrase) (body : Statement)
  | function (keyword : Position) (name : Token) (params : List Token) (body : Block)
  | block (b : Block)
  | «break» (keyword : Position)
  | «continue» (keyword : Position)
  | throw (keyword : Position) (value : Phrase)
  | «try» (keyword : Position) (body : Block) (handler : Option Handler) (finalizer : Option Block)

end

instance : Inhabited Phrase := ⟨.name ⟨.name, "", .start⟩⟩

/-- The place of the first token of a phrase. -/
def Phrase.start : Phrase → Position
  | .name t | .number t | .string t | .constant t | .this t => t.loc
  | .group p _ | .array p _ | .object p _ | .function p .. | .construct p .. => p
  | .member p _ | .index p _ | .call p _ | .update p _ => p.start
  | .unary op _ => op.loc
  | .binary _ l _ => l.start
  | .conditional t _ _ => t.start
  | .assignment _ t _ => t.start
  | .arrow p _ _ => p

end AutoAwait
