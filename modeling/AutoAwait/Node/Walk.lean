import AutoAwait.Node.Basic

/-!
# Walking over a tree

A walk enters a node, walks over its parts in the order in which the source reads, and leaves the
node. A visitor is told of each entering and leaving. On entering it may skip the parts or put
another node in the place of this one, which is then neither walked over nor left; on leaving it may
put another node in its place. A replacement is walked over only if the visitor asks for it.

* `Node.walk` is one walk, given what to do with replacements that are to be walked over;
  `Node.walk_eq` is its equation;
* `Node.visit` walks over a node and over replacements, inside each other up to a given depth;
* `Node.visitParts` does so with the parts of a node.
-/

namespace AutoAwait

/-- Where a node stands: at the root, or in a slot of a parent of some kind. -/
inductive Place where
  | root
  | part (parent : NodeKind) (slot : Slot)
deriving DecidableEq

namespace Place

/-- The kind of the parent. -/
def parent? : Place → Option NodeKind
  | .root => none
  | .part k _ => some k

/-- The slot in the parent. -/
def slot? : Place → Option Slot
  | .root => none
  | .part _ s => some s

end Place

/-- What to do with a node that is entered. -/
inductive Entering where
  | descend
  | skip
  | replace (n : Node) (again : Bool)

/-- What to do with a node that is left. -/
inductive Leaving where
  | keep
  | replace (n : Node) (again : Bool)

/-- What is done at each node, with a state of type `σ`. -/
structure Visitor (σ : Type) where
  enter : Place → Node → StateM σ Entering
  leave : Place → Node → StateM σ Leaving

namespace Node

variable {σ : Type} (v : Visitor σ)

/-- Leaves a node; `again` walks over a replacement. -/
def leaveWith (again : Place → Node → StateM σ Node) (place : Place) (n : Node) :
    StateM σ Node := do
  match ← v.leave place n with
  | .keep => return n
  | .replace m true => again place m
  | .replace m false => return m

/-- Walks over a tree that stands in a given place; `again` walks over a replacement. The result is
what stands in the place afterwards. -/
def walk (again : Place → Node → StateM σ Node) : Node → Place → StateM σ Node :=
  fold fun n parts place => do
    match ← v.enter place n with
    | .replace m true => again place m
    | .replace m false => return m
    | .skip => leaveWith v again place n
    | .descend =>
      let shape ← parts.traverse fun slot part => part.2 (.part n.kind slot)
      leaveWith v again place { n with shape := shape }

/-- The equation of a walk. -/
theorem walk_eq (again : Place → Node → StateM σ Node) (n : Node) (place : Place) :
    n.walk v again place = (do
      match ← v.enter place n with
      | .replace m true => again place m
      | .replace m false => return m
      | .skip => leaveWith v again place n
      | .descend =>
        let shape ← n.shape.traverse fun slot part => part.walk v again (.part n.kind slot)
        leaveWith v again place { n with shape := shape }) := by
  unfold walk
  rw [fold_eq]
  simp only [Shape.traverse_map]

/-- Walks over a tree and over replacements; of replacements inside each other at most `depth` are
walked over. -/
def visit : Nat → Place → Node → StateM σ Node
  | 0, _, n => pure n
  | depth + 1, place, n => n.walk v (visit depth) place

/-- Walks over the parts of a node. -/
def visitParts (depth : Nat) (n : Node) : StateM σ Node := do
  let shape ← n.shape.traverse fun slot part => visit v depth (.part n.kind slot) part
  return { n with shape := shape }

end Node

end AutoAwait
