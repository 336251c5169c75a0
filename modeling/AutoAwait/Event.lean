import AutoAwait.Node.Basic

/-!
# What is logged

Each step of the program that a log shows is an event, with the part of the program that logs it and
its text.

* `Event.line` is the line of a log for an event.
-/

namespace AutoAwait

/-- How the type that a function returns was found. -/
inductive ReturnRule where
  | singleValue | noReturn | singleReturn | severalReturns
deriving DecidableEq

/-- What can be logged. -/
inductive Event where
  /-- The command reads the file of this name, or the standard input. -/
  | rewriting (name : String)
  /-- A script of so many characters is compiled. -/
  | compiling (characters : Nat)
  | loadedCatalog (types scope : Nat)
  /-- A type name is not registered. -/
  | missingType (name : String)
  | unwinding (depth target : Nat)
  | openScope (depth : Nat) (kind : NodeKind)
  | closeScope (depth : Nat) (kind : NodeKind)
  | identifier (name typeName : String)
  | dynamicMember (object : String)
  | member (object attr typeName : String)
  | call (callee : NodeKind) (calleeType typeName : String)
  | construct (typeName : String)
  | await (typeName : String)
  | declarator (name : String) (init : Option String)
  | assignment (left right : NodeKind) (typeName : String)
  | function (name : Option String) (returns : String) (rule : ReturnRule)
  | «return» (typeName : String)
  | other (kind : NodeKind)
deriving DecidableEq

namespace ReturnRule

/-- The words for a rule. -/
def text : ReturnRule → String
  | .singleValue => "single value"
  | .noReturn => "no return in block statement"
  | .singleReturn => "single return stmt"
  | .severalReturns => "multi return stmt"

end ReturnRule

/-- How a function is called in messages: by its name if it has one that is not empty. -/
def functionLabel (name : Option String) : String :=
  match name with
  | none | some "" => "<lambda>"
  | some n => n

namespace Event

/-- The part of the program that logs an event. -/
def logger : Event → String
  | .rewriting _ => "shellasync.cli"
  | .compiling _ => "shellasync.writer"
  | .loadedCatalog _ _ => "shellasync.catalog"
  | .missingType _ | .unwinding _ _ => "shellasync.symbols"
  | _ => "shellasync.inference"

/-- A list of named values, with braces around it. -/
def braced (text : String) : String := "\x7b " ++ text ++ " \x7d"

/-- The text of an event. -/
def message : Event → String
  | .rewriting name => "rewriting " ++ name
  | .compiling n => "compiling " ++ toString n ++ " characters"
  | .loadedCatalog types scope =>
    "loaded catalog with " ++ toString types ++ " types and " ++ toString scope
      ++ " scope entries"
  | .missingType n => "type name '" ++ n ++ "' is not in the registry, treating as unknown"
  | .unwinding depth target =>
    "unwinding scope stack from " ++ toString depth ++ " to " ++ toString target
  | .openScope depth kind => "---new scope at i=" ++ toString depth ++ " " ++ kind.label
  | .closeScope depth kind => "---pop scope at i=" ++ toString depth ++ " " ++ kind.label
  | .identifier n t => "Identifier: " ++ braced ("name: " ++ n) ++ " ==> " ++ t
  | .dynamicMember o =>
    "MemberExpression: " ++ braced ("object.sType: " ++ o ++ ", dynamic") ++ " ==> unknown"
  | .member o a t =>
    "MemberExpression: " ++ braced ("object.sType: " ++ o ++ ", property.name: " ++ a)
      ++ " ==> " ++ t
  | .call k c t =>
    "CallExpression: " ++ braced ("callee.type: " ++ k.label ++ ", callee.shellType: " ++ c)
      ++ " ==> " ++ t
  | .construct t => "NewExpression ==> " ++ t
  | .await t => "AwaitExpression ==> " ++ t
  | .declarator n init =>
    "VariableDeclarator: "
      ++ braced ("id.name: " ++ n ++ ", init.shellType: " ++ init.getD "null") ++ " ==> unknown"
  | .assignment l r t =>
    "AssignmentExpression: " ++ braced ("left: " ++ l.label ++ ", right.type: " ++ r.label)
      ++ " ==> " ++ t
  | .function n t rule =>
    "Function: " ++ braced ("id: " ++ functionLabel n) ++ " ==> function<" ++ t
      ++ "> (determined via " ++ rule.text ++ ")"
  | .return t => "ReturnStatement ==> " ++ t
  | .other k => "*" ++ k.label ++ " ==> unknown"

/-- The line of a log for an event. -/
def line (e : Event) : String := e.logger ++ ": " ++ e.message

end Event

end AutoAwait
