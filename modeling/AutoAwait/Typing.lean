import AutoAwait.Event
import AutoAwait.Node.Walk
import AutoAwait.SymbolTable

/-!
# Typing and awaiting

One walk over a program gives every node a shell type, from the types of its parts, and puts a call
that returns a promise under an `await`, unless it stands under one already. Functions and blocks
open a frame for the names they declare; a function collects the types that it returns.

The pass stops at the first error: what was typed and awaited until then stays.

* `Typing.enter` and `Typing.leave` are what the pass does at a node;
* `Typing.run` types a program whose own frame is open.
-/

namespace AutoAwait

/-- Why a program cannot be typed. -/
inductive TypingError where
  /-- A computed access to something that may be asynchronous. -/
  | dynamicAccess (typeName hint : String) (loc : Position)
  /-- A function returns different types, one of which may be asynchronous. -/
  | ambiguousReturn (name : Option String) (types : List ShellType) (loc : Position)
  | scope (e : ScopeError)

/-- The text of an error, without its place. -/
def TypingError.message : TypingError → String
  | .dynamicAccess _ hint _ =>
    "Cannot access shell API attributes dynamically."
      ++ (if hint.isEmpty then "" else " " ++ hint)
  | .ambiguousReturn name types _ =>
    "Error: conditional statement. Function '" ++ functionLabel name
      ++ "' may return different shell API types ("
      ++ ", ".intercalate (types.map (·.text)) ++ ")"
  | .scope e => e.message

/-- The place of an error in the script. -/
def TypingError.loc? : TypingError → Option Position
  | .dynamicAccess _ _ p | .ambiguousReturn _ _ p => some p
  | .scope _ => none

/-- The text of an error, after its place if it has one. -/
def TypingError.text (e : TypingError) : String := Position.label e.loc? ++ e.message

/-- What the pass has found so far. -/
structure Typing where
  table : SymbolTable
  /-- For each function that is open, the innermost first, the types that it returns. -/
  returns : List (List ShellType)
  /-- What was logged, the latest first. -/
  log : List Event
  failure : Option TypingError

namespace Typing

/-- The pass before its first node. -/
def start (table : SymbolTable) : Typing := ⟨table, [], [], none⟩

/-- Logs an event. -/
def note (p : Typing) (e : Event) : Typing := { p with log := e :: p.log }

/-- Stops with an error. -/
def fail (p : Typing) (e : TypingError) : Typing := { p with failure := some e }

/-- The type of a node that may be missing or not typed; it is then unknown. -/
def typeOf (p : Typing) (n : Option Node) : ShellType := (n.bind (·.type)).getD p.table.unknown

/-- Logs that a reference holds a name that is not registered, if it does. -/
def noteMissing (p : Typing) (ref : TypeRef) : Typing :=
  match p.table.registry.missing? ref with
  | some n => p.note (.missingType n)
  | none => p

/-! ## Entering a node -/

/-- Opens the frame of a node. -/
def openScope (p : Typing) (kind : NodeKind) : Typing :=
  { p.note (.openScope p.table.depth kind) with table := p.table.push }

/-- Declares a name in the innermost frame. -/
def declare (p : Typing) (name : String) (t : ShellType) : Typing :=
  match p.table.declare name (.type t) with
  | .ok table => { p with table := table }
  | .error e => p.fail (.scope e)

/-- Declares a parameter; nothing is known of it. -/
def declareParam (p : Typing) (param : Node) : Typing :=
  p.declare (param.name?.getD "") p.table.unknown

/-- Enters a function with the given parameters. -/
def enterFunction (p : Typing) (kind : NodeKind) (params : List Node) : Typing :=
  params.foldl declareParam ({ p with returns := [] :: p.returns }.openScope kind)

/-- Enters a node. -/
def enter (n : Node) (p : Typing) : Entering × Typing :=
  if p.failure.isSome then (.skip, p)
  else
    match n.shape with
    | .function _ params _ | .arrow params _ | .functionDecl _ params _ =>
      (.descend, p.enterFunction n.kind params)
    | .catchClause param _ => (.descend, param.toList.foldl declareParam (p.openScope n.kind))
    | _ => (.descend, if n.kind.opensScope then p.openScope n.kind else p)

/-! ## Leaving a node -/

/-- A node with its type. -/
def typed (n : Node) (t : ShellType) : Node := { n with type := some t }

/-- Closes the frame of a node. -/
def closeScope (p : Typing) (kind : NodeKind) : Typing :=
  match p.table.pop with
  | .ok (_, table) => { p with table := table }.note (.closeScope table.depth kind)
  | .error e => p.fail (.scope e)

/-- Binds a name where it is bound, or else in the innermost frame. -/
def update (p : Typing) (name : String) (t : ShellType) : Typing :=
  match p.table.update name (.type t) with
  | .ok table => { p with table := table }
  | .error e => p.fail (.scope e)

/-- The name of the attribute that a member access asks for, unless only a run could tell. -/
def attributeName? (property : Node) (computed : Bool) : Option String :=
  match property.shape with
  | .literal (.text s) _ => some s
  | .literal _ raw => some raw
  | .identifier n => if computed then none else some n
  | _ => none

/-- What the attribute of an object of type `t` refers to: an attribute that a database does not
list is a collection. -/
def attributeRef (t : ShellType) (attr : String) : Option TypeRef :=
  match t.attribute? attr with
  | some ref => some ref
  | none => if t.isDatabase then some (.named ShellType.collectionName) else none

/-- The hint for a computed access to a database. -/
def databaseHint : String :=
  "If you are accessing a collection try Database.get('collection')."

/-- Leaves a member access. -/
def leaveMember (n object property : Node) (computed : Bool) (p : Typing) : Node × Typing :=
  let t := p.typeOf object
  match attributeName? property computed with
  | none =>
    if t.hasAsyncChild then
      (n, p.fail (.dynamicAccess t.name (if t.isDatabase then databaseHint else "") n.loc))
    else (typed n p.table.unknown, p.note (.dynamicMember t.name))
  | some attr =>
    match attributeRef t attr with
    | some ref =>
      let found := p.table.resolve ref
      (typed n found, (p.noteMissing ref).note (.member t.name attr found.name))
    | none =>
      let found := p.table.unknown
      (typed n found, p.note (.member t.name attr found.name))

/-- The reference to what a call of something of type `t` returns. -/
def returnRef? : ShellType → Option TypeRef
  | .function _ r _ => some r
  | _ => none

/-- The type that a call of `callee` returns. -/
def calleeReturns (p : Typing) (callee : Node) : ShellType :=
  match returnRef? (p.typeOf callee) with
  | some r => p.table.resolve r
  | none => p.table.unknown

/-- Logs that what a call of `callee` returns is not registered, if it is not. -/
def noteMissingReturn (p : Typing) (callee : Node) : Typing :=
  match returnRef? (p.typeOf callee) with
  | some r => p.noteMissing r
  | none => p

/-- A call under an `await`, which has the place and the type of the call. -/
def awaited (call : Node) : Node := ⟨call.loc, call.type, .await call⟩

/-- Leaves a call: one that returns a promise is awaited, unless its parent awaits it already. -/
def leaveCall (place : Place) (n callee : Node) (p : Typing) : Node × Typing :=
  let calleeType := p.typeOf callee
  let call := typed n (p.calleeReturns callee)
  let p := (p.noteMissingReturn callee).note
    (.call callee.kind calleeType.name (p.calleeReturns callee).name)
  if calleeType.returnsPromise ∧ place.parent? ≠ some .await then (awaited call, p) else (call, p)

/-- Leaves a declarator: its name gets the type of its first value. -/
def leaveDeclarator (n id : Node) (init : Option Node) (p : Typing) : Node × Typing :=
  let t := p.typeOf init
  let name := id.name?.getD ""
  let n := typed n p.table.unknown
  let q := p.update name t
  if q.failure.isSome then (n, q) else (n, q.note (.declarator name (init.map fun _ => t.name)))

/-- Leaves an assignment: a name that is assigned to gets the type of the value. -/
def leaveAssignment (n left right : Node) (p : Typing) : Node × Typing :=
  let t := p.typeOf right
  let q :=
    match left.name? with
    | some name => p.update name t
    | none => p
  if q.failure.isSome then (n, q)
  else (typed n t, q.note (.assignment left.kind right.kind t.name))

/-- The type that a function returns, from the types of its `return` statements in order, and how
it was found. Where there are none, an arrow function with an expression for a body returns its
value. -/
def functionReturns (p : Typing) (n body : Node) (types : List ShellType) :
    ShellType × ReturnRule :=
  match types with
  | [] =>
    if n.kind = .arrow ∧ body.kind ≠ .block then (p.typeOf body, .singleValue)
    else (p.table.unknown, .noReturn)
  | [t] => (t, .singleReturn)
  | _ => (p.table.unknown, .severalReturns)

/-- Leaves a function: its name, if it has one, gets its type in the frame around it. -/
def leaveFunction (n : Node) (id : Option Node) (body : Node) (p : Typing) : Node × Typing :=
  let p := p.closeScope n.kind
  let types := p.returns.headD []
  let p := { p with returns := p.returns.tail }
  let name := id.map fun i => i.name?.getD ""
  if 2 ≤ types.length ∧ types.any (·.hasAsyncChild) then
    (n, p.fail (.ambiguousReturn name types n.loc))
  else
    let r := p.functionReturns n body types
    let t := ShellType.function none (.type r.1) false
    let q :=
      match name with
      | some name => p.declare name t
      | none => p
    if q.failure.isSome then (n, q) else (typed n t, q.note (.function name r.1.name r.2))

/-- Leaves a `return` statement: the function around it, if there is one, returns its type. -/
def leaveReturn (n : Node) (argument : Option Node) (p : Typing) : Node × Typing :=
  let t := p.typeOf argument
  let returns :=
    match p.returns with
    | [] => []
    | types :: outer => (types ++ [t]) :: outer
  (typed n t, { p with returns := returns }.note (.return t.name))

/-- The node that stands in the place of one that is left, its parts typed. -/
def leaveNode (place : Place) (n : Node) (p : Typing) : Node × Typing :=
  match n.shape with
  | .identifier name =>
    let ref := p.table.lookup name
    let t := p.table.resolve ref
    (typed n t, (p.noteMissing ref).note (.identifier name t.name))
  | .member object property computed => p.leaveMember n object property computed
  | .call callee _ => p.leaveCall place n callee
  | .construct callee _ =>
    let t := p.calleeReturns callee
    (typed n t, (p.noteMissingReturn callee).note (.construct t.name))
  | .await argument =>
    let t := p.typeOf argument
    (typed n t, p.note (.await t.name))
  | .declarator id init => p.leaveDeclarator n id init
  | .assignment _ left right => p.leaveAssignment n left right
  | .function id _ body => p.leaveFunction n id body
  | .arrow _ body => p.leaveFunction n none body
  | .functionDecl id _ body => p.leaveFunction n (some id) body
  | .return argument => p.leaveReturn n argument
  | _ =>
    if n.kind.opensScope then
      let q := p.closeScope n.kind
      (typed n q.table.unknown, q)
    else (typed n p.table.unknown, p.note (.other n.kind))

/-- Leaves a node. After an error nothing changes any more. -/
def leave (place : Place) (n : Node) (p : Typing) : Leaving × Typing :=
  if p.failure.isSome then (.keep, p)
  else
    let r := p.leaveNode place n
    (.replace r.1 false, r.2)

/-- The pass as a visitor. -/
def visitor : Visitor Typing where
  enter _ n := fun p => enter n p
  leave place n := fun p => leave place n p

/-- Types a program whose own frame is open: the tree as far as it was typed, and what was found.
The program itself is of unknown type. -/
def run (program : Node) (table : SymbolTable) : Node × Typing :=
  let r := Node.visitParts visitor 1 program (start table)
  (if r.2.failure.isSome then r.1 else typed r.1 r.2.table.unknown, r.2)

end Typing

end AutoAwait
