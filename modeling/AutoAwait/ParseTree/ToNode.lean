import AutoAwait.Node.Basic
import AutoAwait.ParseTree.Basic
import AutoAwait.ParseTree.Error
import AutoAwait.Text.StringLiteral

/-!
# From parse trees to syntax trees

A syntax tree has no parentheses, gives literals their values and says what each name is for. A node
that begins with a parenthesised part is placed at the parenthesis, the part itself at its own first
token. Two things that the grammar lets pass are refused here: an assignment to something other than
a name or a member, and a parameter of an arrow function that is not a name.

* `Phrase.toNode` and `Statement.toNode` are the trees of expressions and statements;
* `Node.ofStatements` is the tree of a script.
-/

namespace AutoAwait

variable [CharNames]

/-- A node that is not typed yet. -/
def Node.untyped (loc : Position) (shape : Shape Node) : Node := ⟨loc, none, shape⟩

namespace Token

/-- A name as an identifier. -/
def toIdentifier (t : Token) : Node := .untyped t.loc (.identifier t.text)

/-- A string token as a literal. -/
def toText (t : Token) : Node :=
  .untyped t.loc (.literal (.text (StringLiteral.value t.text)) t.text)

/-- A number token as a literal whose numeral is read as an integer. -/
def toInteger (t : Token) : Except ParseError Node :=
  match Numeral.integer? t.text with
  | .ok i => .ok (.untyped t.loc (.literal (.int i) t.text))
  | .error p => .error (.badInteger p)

/-- A number token as a literal whose numeral is read as a double. -/
def toDouble (t : Token) : Node :=
  .untyped t.loc (.literal (.float (Numeral.double t.text)) t.text)

/-- A number token as an expression: a double if there is a fraction or an exponent. -/
def toNumber (t : Token) : Except ParseError Node :=
  if t.text.toList.any fun c => c == '.' || c == 'e' || c == 'E' then .ok t.toDouble
  else t.toInteger

/-- A token as the key of an object's entry. A number without a point must be an integer here. -/
def toKey (t : Token) : Except ParseError Node :=
  match t.kind with
  | .string => .ok t.toText
  | .number => if '.' ∈ t.text.toList then .ok t.toDouble else t.toInteger
  | _ => .ok t.toIdentifier

/-- A reserved word as the constant it stands for. -/
def toConstant (t : Token) : Node :=
  .untyped t.loc <|
    match t.kind with
    | .keyword .true => .literal (.bool true) "true"
    | .keyword .false => .literal (.bool false) "false"
    | _ => .literal .null "null"

end Token

namespace NodeKind

/-- Can a node of this kind be assigned to? -/
def isTarget : NodeKind → Bool
  | .identifier | .member => true
  | _ => false

end NodeKind

/-- The operator `op` between two operands. -/
def binaryShape (op : Token) (left right : Node) : Shape Node :=
  match op.kind with
  | .logicAnd | .logicOr => .logical op.text left right
  | _ => .binary op.text left right

/-- The operator `op` before its operand. -/
def unaryShape (op : Token) (operand : Node) : Shape Node :=
  match op.kind with
  | .keyword .await => .await operand
  | _ => .unary op.text operand

/-- What `new` applies to: the name `target` followed by the segments of `path`. -/
def constructTarget (target : Token) (path : List Token) : Node :=
  path.foldl (fun o t => .untyped t.loc (.member o t.toIdentifier false)) target.toIdentifier

mutual

/-- The tree of an expression. -/
def Phrase.toNode : Phrase → Except ParseError Node
  | .name t => .ok t.toIdentifier
  | .number t => t.toNumber
  | .string t => .ok t.toText
  | .constant t => .ok t.toConstant
  | .this t => .ok (.untyped t.loc .this)
  | .group _ p => p.toNode
  | .array loc es => return .untyped loc (.array (← phraseNodes es))
  | .object loc es => return .untyped loc (.object (← entryNodes es))
  | .function loc name params body =>
    return .untyped loc
      (.function (name.map (·.toIdentifier)) (params.map (·.toIdentifier)) (← body.toNode))
  | .construct loc target path args =>
    return .untyped loc (.construct (constructTarget target path) (← argumentNodes args))
  | .member o t => return .untyped o.start (.member (← o.toNode) t.toIdentifier false)
  | .index o k => return .untyped o.start (.member (← o.toNode) (← k.toNode) true)
  | .call c args => return .untyped c.start (.call (← c.toNode) (← phraseNodes args))
  | .update p op => return .untyped p.start (.update op.text (← p.toNode) false)
  | .unary op p => return .untyped op.loc (unaryShape op (← p.toNode))
  | .binary op l r => return .untyped l.start (binaryShape op (← l.toNode) (← r.toNode))
  | .conditional t c a =>
    return .untyped t.start (.conditional (← t.toNode) (← c.toNode) (← a.toNode))
  | .assignment op p v => do
    let target ← p.toNode
    if target.kind.isTarget then
      return .untyped p.start (.assignment op.text target (← v.toNode))
    else .error (.invalidTarget p.start)
  | .arrow loc ps body => do
    let params ← parameterNodes ps
    return .untyped loc (.arrow params (← body.toNode))

/-- The trees of a list of expressions. -/
def phraseNodes : List Phrase → Except ParseError (List Node)
  | [] => .ok []
  | p :: ps => return (← p.toNode) :: (← phraseNodes ps)

/-- The trees of the arguments of `new`. -/
def argumentNodes : Option (List Phrase) → Except ParseError (List Node)
  | none => .ok []
  | some ps => phraseNodes ps

/-- The trees of what stands for the parameters of an arrow function; each must be a name. -/
def parameterNodes : List Phrase → Except ParseError (List Node)
  | [] => .ok []
  | p :: ps => do
    let param ← p.toNode
    if param.kind = .identifier then return param :: (← parameterNodes ps)
    else .error (.invalidParameter param.loc)

/-- The tree of an entry of an object literal. -/
def ObjectEntry.toNode : ObjectEntry → Except ParseError Node
  | .shorthand t => .ok (.untyped t.loc (.property t.toIdentifier t.toIdentifier true))
  | .pair t p => do
    let key ← t.toKey
    return .untyped t.loc (.property key (← p.toNode) false)

/-- The trees of a list of entries. -/
def entryNodes : List ObjectEntry → Except ParseError (List Node)
  | [] => .ok []
  | e :: es => return (← e.toNode) :: (← entryNodes es)

/-- The tree of the body of an arrow function. -/
def ArrowBody.toNode : ArrowBody → Except ParseError Node
  | .block b => b.toNode
  | .phrase p => p.toNode

/-- The tree of a declarator. -/
def Declarator.toNode : Declarator → Except ParseError Node
  | .mk t init => return .untyped t.loc (.declarator t.toIdentifier (← optionalNode init))

/-- The trees of a list of declarators. -/
def declaratorNodes : List Declarator → Except ParseError (List Node)
  | [] => .ok []
  | d :: ds => return (← d.toNode) :: (← declaratorNodes ds)

/-- The tree of an expression that can be missing. -/
def optionalNode : Option Phrase → Except ParseError (Option Node)
  | none => .ok none
  | some p => return some (← p.toNode)

/-- The tree of a block. -/
def Block.toNode : Block → Except ParseError Node
  | .mk loc body => return .untyped loc (.block (← statementNodes body))

/-- The tree of a block that can be missing. -/
def optionalBlock : Option Block → Except ParseError (Option Node)
  | none => .ok none
  | some b => return some (← b.toNode)

/-- The tree of what a counting loop starts with. -/
def LoopInit.toNode : LoopInit → Except ParseError Node
  | .declaration t ds => return .untyped t.loc (.declaration t.text (← declaratorNodes ds))
  | .phrase p => p.toNode

/-- The tree of a loop's start that can be missing. -/
def optionalInit : Option LoopInit → Except ParseError (Option Node)
  | none => .ok none
  | some i => return some (← i.toNode)

/-- The tree of the `catch` part of a `try`. -/
def Handler.toNode : Handler → Except ParseError Node
  | .mk loc param body =>
    return .untyped loc (.catchClause (param.map (·.toIdentifier)) (← body.toNode))

/-- The tree of a `catch` part that can be missing. -/
def optionalHandler : Option Handler → Except ParseError (Option Node)
  | none => .ok none
  | some h => return some (← h.toNode)

/-- The tree of a statement. -/
def Statement.toNode : Statement → Except ParseError Node
  | .declaration t ds => return .untyped t.loc (.declaration t.text (← declaratorNodes ds))
  | .expression p => return .untyped p.start (.expression (← p.toNode))
  | .return loc value => return .untyped loc (.return (← optionalNode value))
  | .if loc test consequent alternate => do
    let alternate ← optionalStatement alternate
    return .untyped loc (.if (← test.toNode) (← consequent.toNode) alternate)
  | .while loc test body => return .untyped loc (.while (← test.toNode) (← body.toNode))
  | .for loc init test update body =>
    return .untyped loc
      (.for (← optionalInit init) (← optionalNode test) (← optionalNode update) (← body.toNode))
  | .forOf loc kind name iterated body =>
    return .untyped loc
      (.forOf
        (.untyped kind.loc
          (.declaration kind.text [.untyped name.loc (.declarator name.toIdentifier none)]))
        (← iterated.toNode) (← body.toNode))
  | .function loc name params body =>
    return .untyped loc
      (.functionDecl name.toIdentifier (params.map (·.toIdentifier)) (← body.toNode))
  | .block b => b.toNode
  | .break loc => .ok (.untyped loc .break)
  | .continue loc => .ok (.untyped loc .continue)
  | .throw loc value => return .untyped loc (.throw (← value.toNode))
  | .try loc body handler finalizer =>
    return .untyped loc
      (.try (← body.toNode) (← optionalHandler handler) (← optionalBlock finalizer))

/-- The tree of a statement that can be missing. -/
def optionalStatement : Option Statement → Except ParseError (Option Node)
  | none => .ok none
  | some s => return some (← s.toNode)

/-- The trees of a list of statements. -/
def statementNodes : List Statement → Except ParseError (List Node)
  | [] => .ok []
  | s :: ss => return (← s.toNode) :: (← statementNodes ss)

end

/-- The tree of a script. -/
def Node.ofStatements (body : List Statement) : Except ParseError Node :=
  return .untyped .start (.program (← statementNodes body))

end AutoAwait
