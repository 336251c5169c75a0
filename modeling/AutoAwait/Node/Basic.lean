import AutoAwait.ShellType.Basic
import AutoAwait.Text.Position

/-!
# The syntax tree

A node has a place in the text, a shell type once it is typed, and a *shape*: what kind of node it
is, with its parts. `Shape α` is one layer of syntax, with `α` in the places of the parts that are
nodes; a tree is a node whose parts are trees. Any node can stand in any place: the walker may put
one there, so no function on trees assumes that a part has the kind that the grammar gives it.

* `Shape.kids` lists the parts of a shape in the order in which the source reads, each with the
  *slot* it fills; `Shape.traverse` runs an action on each of them in that order and puts the
  results in their slots;
* `Node.fold` is recursion over a tree, `Node.fold_eq` its equation;
* `Node.nodes` lists a tree in pre-order.
-/

namespace AutoAwait

/-- The value of a literal. A number with a fraction or an exponent is given by the bits of the
double-precision value nearest to it. -/
inductive LiteralValue where
  | null
  | bool (b : Bool)
  | text (s : String)
  | int (i : Int)
  | float (bits : UInt64)
deriving DecidableEq

/-- One layer of syntax. -/
inductive Shape (α : Type) where
  | identifier (name : String)
  | literal (value : LiteralValue) (raw : String)
  | this
  | array (elements : List α)
  | property (key value : α) (shorthand : Bool)
  | object (properties : List α)
  | member (object property : α) (computed : Bool)
  | call (callee : α) (arguments : List α)
  | construct (callee : α) (arguments : List α)
  | await (argument : α)
  | assignment (operator : String) (left right : α)
  | binary (operator : String) (left right : α)
  | logical (operator : String) (left right : α)
  | unary (operator : String) (argument : α)
  | update (operator : String) (argument : α) (before : Bool)
  | conditional (test consequent alternate : α)
  | block (body : List α)
  | function (id : Option α) (params : List α) (body : α)
  | arrow (params : List α) (body : α)
  | functionDecl (id : α) (params : List α) (body : α)
  | expression (expression : α)
  | declarator (id : α) (init : Option α)
  | declaration (kind : String) (declarations : List α)
  | «return» (argument : Option α)
  | «if» (test consequent : α) (alternate : Option α)
  | «while» (test body : α)
  | «for» (init test update : Option α) (body : α)
  | forOf (left right body : α)
  | «break»
  | «continue»
  | throw (argument : α)
  | catchClause (param : Option α) (body : α)
  | «try» (block : α) (handler finalizer : Option α)
  | program (body : List α)

/-- A syntax tree. -/
structure Node where
  loc : Position
  type : Option ShellType
  shape : Shape Node

/-- The kinds of nodes. -/
inductive NodeKind where
  | identifier | literal | this | array | property | object | member | call | construct | await
  | assignment | binary | logical | unary | update | conditional | block | function | arrow
  | functionDecl | expression | declarator | declaration | «return» | «if» | «while» | «for»
  | forOf | «break» | «continue» | throw | catchClause | «try» | program
deriving DecidableEq

namespace NodeKind

/-- All kinds. -/
def all : List NodeKind :=
  [.identifier, .literal, .this, .array, .property, .object, .member, .call, .construct, .await,
    .assignment, .binary, .logical, .unary, .update, .conditional, .block, .function, .arrow,
    .functionDecl, .expression, .declarator, .declaration, .return, .if, .while, .for, .forOf,
    .break, .continue, .throw, .catchClause, .try, .program]

/-- The published name of a kind. -/
def label : NodeKind → String
  | .identifier => "Identifier"
  | .literal => "Literal"
  | .this => "ThisExpression"
  | .array => "ArrayExpression"
  | .property => "ObjectProperty"
  | .object => "ObjectExpression"
  | .member => "MemberExpression"
  | .call => "CallExpression"
  | .construct => "NewExpression"
  | .await => "AwaitExpression"
  | .assignment => "AssignmentExpression"
  | .binary => "BinaryExpression"
  | .logical => "LogicalExpression"
  | .unary => "UnaryExpression"
  | .update => "UpdateExpression"
  | .conditional => "ConditionalExpression"
  | .block => "BlockStatement"
  | .function => "FunctionExpression"
  | .arrow => "ArrowFunctionExpression"
  | .functionDecl => "FunctionDeclaration"
  | .expression => "ExpressionStatement"
  | .declarator => "VariableDeclarator"
  | .declaration => "VariableDeclaration"
  | .return => "ReturnStatement"
  | .if => "IfStatement"
  | .while => "WhileStatement"
  | .for => "ForStatement"
  | .forOf => "ForOfStatement"
  | .break => "BreakStatement"
  | .continue => "ContinueStatement"
  | .throw => "ThrowStatement"
  | .catchClause => "CatchClause"
  | .try => "TryStatement"
  | .program => "Program"

/-- Is this the kind of an expression? -/
def isExpression : NodeKind → Bool
  | .identifier | .literal | .this | .array | .object | .member | .call | .construct | .await
  | .assignment | .binary | .logical | .unary | .update | .conditional | .function | .arrow => true
  | _ => false

/-- Is this the kind of a function? -/
def isFunction : NodeKind → Bool
  | .function | .arrow | .functionDecl => true
  | _ => false

/-- Does a node of this kind open a scope below the program's, other than a function's? -/
def opensScope : NodeKind → Bool
  | .block | .for | .forOf | .while | .catchClause => true
  | _ => false

end NodeKind

/-- A place among the parts of a node: the name of the part and, in a list of parts, the index. -/
structure Slot where
  key : String
  index : Option Nat
deriving DecidableEq

namespace Shape

variable {α β : Type}

/-- The kind of a shape. -/
def kind : Shape α → NodeKind
  | .identifier .. => .identifier
  | .literal .. => .literal
  | .this => .this
  | .array .. => .array
  | .property .. => .property
  | .object .. => .object
  | .member .. => .member
  | .call .. => .call
  | .construct .. => .construct
  | .await .. => .await
  | .assignment .. => .assignment
  | .binary .. => .binary
  | .logical .. => .logical
  | .unary .. => .unary
  | .update .. => .update
  | .conditional .. => .conditional
  | .block .. => .block
  | .function .. => .function
  | .arrow .. => .arrow
  | .functionDecl .. => .functionDecl
  | .expression .. => .expression
  | .declarator .. => .declarator
  | .declaration .. => .declaration
  | .return .. => .return
  | .if .. => .if
  | .while .. => .while
  | .for .. => .for
  | .forOf .. => .forOf
  | .break => .break
  | .continue => .continue
  | .throw .. => .throw
  | .catchClause .. => .catchClause
  | .try .. => .try
  | .program .. => .program

/-- A part that is always there. -/
def one (key : String) (a : α) : List (Slot × α) := [(⟨key, none⟩, a)]

/-- A part that can be missing. -/
def opt (key : String) (a : Option α) : List (Slot × α) := a.toList.map fun a => (⟨key, none⟩, a)

/-- A list of parts. -/
def many (key : String) (as : List α) : List (Slot × α) := as.mapIdx fun i a => (⟨key, some i⟩, a)

/-- The parts that are nodes, each with its slot, in the order in which the source reads. -/
def kids : Shape α → List (Slot × α)
  | .identifier _ | .literal _ _ | .this | .break | .continue => []
  | .array es => many "elements" es
  | .property k v _ => one "key" k ++ one "value" v
  | .object ps => many "properties" ps
  | .member o p _ => one "object" o ++ one "property" p
  | .call c as => one "callee" c ++ many "arguments" as
  | .construct c as => one "callee" c ++ many "arguments" as
  | .await a => one "argument" a
  | .assignment _ l r => one "left" l ++ one "right" r
  | .binary _ l r => one "left" l ++ one "right" r
  | .logical _ l r => one "left" l ++ one "right" r
  | .unary _ a => one "argument" a
  | .update _ a _ => one "argument" a
  | .conditional t c a => one "test" t ++ one "consequent" c ++ one "alternate" a
  | .block b => many "body" b
  | .function i ps b => opt "id" i ++ many "params" ps ++ one "body" b
  | .arrow ps b => many "params" ps ++ one "body" b
  | .functionDecl i ps b => one "id" i ++ many "params" ps ++ one "body" b
  | .expression e => one "expression" e
  | .declarator i e => one "id" i ++ opt "init" e
  | .declaration _ ds => many "declarations" ds
  | .return a => opt "argument" a
  | .if t c a => one "test" t ++ one "consequent" c ++ opt "alternate" a
  | .while t b => one "test" t ++ one "body" b
  | .for i t u b => opt "init" i ++ opt "test" t ++ opt "update" u ++ one "body" b
  | .forOf l r b => one "left" l ++ one "right" r ++ one "body" b
  | .throw a => one "argument" a
  | .catchClause p b => opt "param" p ++ one "body" b
  | .try b h f => one "block" b ++ opt "handler" h ++ opt "finalizer" f
  | .program b => many "body" b

section traverse
variable {m : Type → Type} [Monad m] (f : Slot → α → m β)

/-- Runs the action on a part that is always there. -/
def traverseOne (key : String) (a : α) : m β := f ⟨key, none⟩ a

/-- Runs the action on a part that can be missing. -/
def traverseOpt (key : String) : Option α → m (Option β)
  | none => pure none
  | some a => return some (← f ⟨key, none⟩ a)

/-- Runs the action on a list of parts, the first of which has the index `i`. -/
def traverseMany (key : String) (i : Nat) : List α → m (List β)
  | [] => pure []
  | a :: as => return (← f ⟨key, some i⟩ a) :: (← traverseMany key (i + 1) as)

/-- Runs an action on each part, in the order of `kids`, and puts the results in their slots. -/
def traverse : Shape α → m (Shape β)
  | .identifier n => pure (.identifier n)
  | .literal v r => pure (.literal v r)
  | .this => pure .this
  | .array es => return .array (← traverseMany f "elements" 0 es)
  | .property k v s => return .property (← traverseOne f "key" k) (← traverseOne f "value" v) s
  | .object ps => return .object (← traverseMany f "properties" 0 ps)
  | .member o p c => return .member (← traverseOne f "object" o) (← traverseOne f "property" p) c
  | .call c as => return .call (← traverseOne f "callee" c) (← traverseMany f "arguments" 0 as)
  | .construct c as =>
    return .construct (← traverseOne f "callee" c) (← traverseMany f "arguments" 0 as)
  | .await a => return .await (← traverseOne f "argument" a)
  | .assignment o l r =>
    return .assignment o (← traverseOne f "left" l) (← traverseOne f "right" r)
  | .binary o l r => return .binary o (← traverseOne f "left" l) (← traverseOne f "right" r)
  | .logical o l r => return .logical o (← traverseOne f "left" l) (← traverseOne f "right" r)
  | .unary o a => return .unary o (← traverseOne f "argument" a)
  | .update o a b => return .update o (← traverseOne f "argument" a) b
  | .conditional t c a =>
    return .conditional (← traverseOne f "test" t) (← traverseOne f "consequent" c)
      (← traverseOne f "alternate" a)
  | .block b => return .block (← traverseMany f "body" 0 b)
  | .function i ps b =>
    return .function (← traverseOpt f "id" i) (← traverseMany f "params" 0 ps)
      (← traverseOne f "body" b)
  | .arrow ps b => return .arrow (← traverseMany f "params" 0 ps) (← traverseOne f "body" b)
  | .functionDecl i ps b =>
    return .functionDecl (← traverseOne f "id" i) (← traverseMany f "params" 0 ps)
      (← traverseOne f "body" b)
  | .expression e => return .expression (← traverseOne f "expression" e)
  | .declarator i e => return .declarator (← traverseOne f "id" i) (← traverseOpt f "init" e)
  | .declaration k ds => return .declaration k (← traverseMany f "declarations" 0 ds)
  | .return a => return .return (← traverseOpt f "argument" a)
  | .if t c a =>
    return .if (← traverseOne f "test" t) (← traverseOne f "consequent" c)
      (← traverseOpt f "alternate" a)
  | .while t b => return .while (← traverseOne f "test" t) (← traverseOne f "body" b)
  | .for i t u b =>
    return .for (← traverseOpt f "init" i) (← traverseOpt f "test" t) (← traverseOpt f "update" u)
      (← traverseOne f "body" b)
  | .forOf l r b =>
    return .forOf (← traverseOne f "left" l) (← traverseOne f "right" r) (← traverseOne f "body" b)
  | .break => pure .break
  | .continue => pure .continue
  | .throw a => return .throw (← traverseOne f "argument" a)
  | .catchClause p b => return .catchClause (← traverseOpt f "param" p) (← traverseOne f "body" b)
  | .try b h g =>
    return .try (← traverseOne f "block" b) (← traverseOpt f "handler" h)
      (← traverseOpt f "finalizer" g)
  | .program b => return .program (← traverseMany f "body" 0 b)

end traverse

/-- Applies a function to each part. -/
def map (f : α → β) : Shape α → Shape β
  | .identifier n => .identifier n
  | .literal v r => .literal v r
  | .this => .this
  | .array es => .array (es.map f)
  | .property k v s => .property (f k) (f v) s
  | .object ps => .object (ps.map f)
  | .member o p c => .member (f o) (f p) c
  | .call c as => .call (f c) (as.map f)
  | .construct c as => .construct (f c) (as.map f)
  | .await a => .await (f a)
  | .assignment o l r => .assignment o (f l) (f r)
  | .binary o l r => .binary o (f l) (f r)
  | .logical o l r => .logical o (f l) (f r)
  | .unary o a => .unary o (f a)
  | .update o a b => .update o (f a) b
  | .conditional t c a => .conditional (f t) (f c) (f a)
  | .block b => .block (b.map f)
  | .function i ps b => .function (i.map f) (ps.map f) (f b)
  | .arrow ps b => .arrow (ps.map f) (f b)
  | .functionDecl i ps b => .functionDecl (f i) (ps.map f) (f b)
  | .expression e => .expression (f e)
  | .declarator i e => .declarator (f i) (e.map f)
  | .declaration k ds => .declaration k (ds.map f)
  | .return a => .return (a.map f)
  | .if t c a => .if (f t) (f c) (a.map f)
  | .while t b => .while (f t) (f b)
  | .for i t u b => .for (i.map f) (t.map f) (u.map f) (f b)
  | .forOf l r b => .forOf (f l) (f r) (f b)
  | .break => .break
  | .continue => .continue
  | .throw a => .throw (f a)
  | .catchClause p b => .catchClause (p.map f) (f b)
  | .try b h g => .try (f b) (h.map f) (g.map f)
  | .program b => .program (b.map f)

section map
variable {γ : Type} {m : Type → Type} [Monad m] (g : Slot → β → m γ) (f : α → β)

theorem traverseMany_map (key : String) (i : Nat) (as : List α) :
    traverseMany g key i (as.map f) = traverseMany (fun slot a => g slot (f a)) key i as := by
  induction as generalizing i with
  | nil => rfl
  | cons a as ih => simp [traverseMany, ih]

theorem traverseOpt_map (key : String) (a : Option α) :
    traverseOpt g key (a.map f) = traverseOpt (fun slot a => g slot (f a)) key a := by
  cases a <;> rfl

theorem traverse_map (s : Shape α) :
    (s.map f).traverse g = s.traverse fun slot a => g slot (f a) := by
  cases s <;> simp [map, traverse, traverseMany_map, traverseOpt_map, traverseOne]

end map

/-- The name that an identifier has. -/
def name? : Shape α → Option String
  | .identifier n => some n
  | _ => none

end Shape

namespace Node

/-! ## Recursion over a tree -/

section fold
variable {β : Type} (step : Node → Shape (Node × β) → β)

mutual

/-- Recursion over a tree: `step` is given a node and its shape, with each part beside its own
result. -/
def fold : Node → β
  | ⟨loc, type, shape⟩ => step ⟨loc, type, shape⟩ (foldShape shape)

/-- The parts of a shape beside their results. -/
def foldShape : Shape Node → Shape (Node × β)
  | .identifier n => .identifier n
  | .literal v r => .literal v r
  | .this => .this
  | .array es => .array (foldMany es)
  | .property k v s => .property (k, fold k) (v, fold v) s
  | .object ps => .object (foldMany ps)
  | .member o p c => .member (o, fold o) (p, fold p) c
  | .call c as => .call (c, fold c) (foldMany as)
  | .construct c as => .construct (c, fold c) (foldMany as)
  | .await a => .await (a, fold a)
  | .assignment o l r => .assignment o (l, fold l) (r, fold r)
  | .binary o l r => .binary o (l, fold l) (r, fold r)
  | .logical o l r => .logical o (l, fold l) (r, fold r)
  | .unary o a => .unary o (a, fold a)
  | .update o a b => .update o (a, fold a) b
  | .conditional t c a => .conditional (t, fold t) (c, fold c) (a, fold a)
  | .block b => .block (foldMany b)
  | .function i ps b => .function (foldOpt i) (foldMany ps) (b, fold b)
  | .arrow ps b => .arrow (foldMany ps) (b, fold b)
  | .functionDecl i ps b => .functionDecl (i, fold i) (foldMany ps) (b, fold b)
  | .expression e => .expression (e, fold e)
  | .declarator i e => .declarator (i, fold i) (foldOpt e)
  | .declaration k ds => .declaration k (foldMany ds)
  | .return a => .return (foldOpt a)
  | .if t c a => .if (t, fold t) (c, fold c) (foldOpt a)
  | .while t b => .while (t, fold t) (b, fold b)
  | .for i t u b => .for (foldOpt i) (foldOpt t) (foldOpt u) (b, fold b)
  | .forOf l r b => .forOf (l, fold l) (r, fold r) (b, fold b)
  | .break => .break
  | .continue => .continue
  | .throw a => .throw (a, fold a)
  | .catchClause p b => .catchClause (foldOpt p) (b, fold b)
  | .try b h f => .try (b, fold b) (foldOpt h) (foldOpt f)
  | .program b => .program (foldMany b)

/-- The trees of a list beside their results. -/
def foldMany : List Node → List (Node × β)
  | [] => []
  | n :: ns => (n, fold n) :: foldMany ns

/-- A tree that can be missing, beside its result. -/
def foldOpt : Option Node → Option (Node × β)
  | none => none
  | some n => some (n, fold n)

end

end fold

theorem foldMany_eq {β : Type} (step : Node → Shape (Node × β) → β) (ns : List Node) :
    foldMany step ns = ns.map fun n => (n, fold step n) := by
  induction ns with
  | nil => rfl
  | cons n ns ih => simp [foldMany, ih]

theorem foldOpt_eq {β : Type} (step : Node → Shape (Node × β) → β) (n : Option Node) :
    foldOpt step n = n.map fun n => (n, fold step n) := by
  cases n <;> rfl

theorem foldShape_eq {β : Type} (step : Node → Shape (Node × β) → β) (s : Shape Node) :
    foldShape step s = s.map fun n => (n, fold step n) := by
  cases s <;> simp [foldShape, Shape.map, foldMany_eq, foldOpt_eq]

/-- The equation of recursion over a tree. -/
theorem fold_eq {β : Type} (step : Node → Shape (Node × β) → β) (n : Node) :
    fold step n = step n (n.shape.map fun k => (k, fold step k)) := by
  cases n with
  | mk loc type shape => rw [fold, foldShape_eq]

/-- The kind of a node. -/
def kind (n : Node) : NodeKind := n.shape.kind

/-- The name that an identifier has. -/
def name? (n : Node) : Option String := n.shape.name?

/-- The statements of a block or a program. -/
def statements? (n : Node) : Option (List Node) :=
  match n.shape with
  | .block b | .program b => some b
  | _ => none

/-- A tree in pre-order: the node itself, then its parts in the order in which the source reads. -/
def nodes : Node → List Node :=
  fold fun n s => n :: s.kids.flatMap (·.2.2)

end Node

end AutoAwait
