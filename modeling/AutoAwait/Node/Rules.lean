import AutoAwait.Node.Walk

/-!
# Rewriting by rules

A rule names a kind of node, a moment of the walk, and what to do with such a node at that moment.
At each node the first rule that applies is followed.

* `Rule.applies` says where a rule applies;
* `Node.rewriteWith` rewrites a tree by rules, `Node.rewritePartsWith` the parts of a node. Both
  tell what the walk entered and left.
-/

namespace AutoAwait

/-- The two moments at which a walk is at a node. -/
inductive Moment where
  | entering | leaving
deriving DecidableEq

/-- What a rule does with a node. -/
inductive RuleAction where
  /-- Does not walk over the parts; when the node is left that is too late and nothing happens. -/
  | skip
  /-- Puts the node under an `await` that has its place. -/
  | await
  /-- Puts a tree in the place of the node. -/
  | replace (tree : Node)

/-- What to do with the nodes of a kind. -/
structure Rule where
  moment : Moment
  kind : NodeKind
  /-- The name that the node must have, if any. -/
  name : Option String
  action : RuleAction
  /-- Is what takes the place of the node walked over? -/
  again : Bool

/-- A step of a walk: a node of some kind, in some place, is entered or left. -/
structure WalkStep where
  moment : Moment
  kind : NodeKind
  place : Place
deriving DecidableEq

namespace Rule

/-- Does a rule apply to a node at a moment? -/
def applies (r : Rule) (moment : Moment) (n : Node) : Bool :=
  r.moment = moment && r.kind = n.kind && (r.name.isNone || r.name == n.name?)

/-- The first rule that applies to a node at a moment. -/
def find? (rules : List Rule) (moment : Moment) (n : Node) : Option Rule :=
  rules.find? (·.applies moment n)

/-- What to do with a node that is entered. -/
def entering (r : Rule) (n : Node) : Entering :=
  match r.action with
  | .skip => .skip
  | .await => .replace ⟨n.loc, none, .await n⟩ r.again
  | .replace tree => .replace tree r.again

/-- What to do with a node that is left. -/
def leaving (r : Rule) (n : Node) : Leaving :=
  match r.action with
  | .skip => .keep
  | .await => .replace ⟨n.loc, none, .await n⟩ r.again
  | .replace tree => .replace tree r.again

/-- Follows rules, and collects the steps of the walk, the latest first. -/
def visitor (rules : List Rule) : Visitor (List WalkStep) where
  enter place n := fun steps =>
    (((find? rules .entering n).map (·.entering n)).getD .descend,
      ⟨.entering, n.kind, place⟩ :: steps)
  leave place n := fun steps =>
    (((find? rules .leaving n).map (·.leaving n)).getD .keep,
      ⟨.leaving, n.kind, place⟩ :: steps)

/-- How many walks over replacements can go on inside each other. A walk over what a rule has put
somewhere that comes to follow the same rule again would not end; so each rule counts once, and one
walk is the one over the tree itself. -/
def depth (rules : List Rule) : Nat := rules.length + 1

end Rule

namespace Node

/-- Rewrites a tree by rules; with the steps of the walk in order. -/
def rewriteWith (rules : List Rule) (root : Node) : Node × List WalkStep :=
  let r := visit (Rule.visitor rules) (Rule.depth rules) .root root []
  (r.1, r.2.reverse)

/-- Rewrites the parts of a node by rules; with the steps of the walk in order. -/
def rewritePartsWith (rules : List Rule) (root : Node) : Node × List WalkStep :=
  let r := visitParts (Rule.visitor rules) (Rule.depth rules) root []
  (r.1, r.2.reverse)

end Node

end AutoAwait
