import AutoAwait.Proofs.Printing.Edges
import AutoAwait.Proofs.Tree.Parts

/-!
# Trees that are printed so that they can be read

There are three things that the printer does not guard against. The body of an arrow function is
read as a block if its text begins with a brace. After a function with a body in braces, the header
of a counting loop goes on as if a statement began. And a function that is declared without braces
around it is read as a declaration only where a statement begins.

* `Node.isReadable` says that a node is in none of these places, `Node.Readable` says so of all
  nodes of a tree;
* `Node.hasBraces` says whether there is a function with a body in braces in an expression.
-/

namespace AutoAwait

namespace Node

/-- Is this a function that is an expression and has a body in braces? -/
def isBraced (n : Node) : Bool :=
  match n.shape with
  | .function .. => true
  | .arrow _ b => b.kind = .block
  | _ => false

/-- Is there such a function in the tree? -/
def hasBraces (n : Node) : Bool := n.nodes.any (·.isBraced)

/-- Does the body of an arrow function begin like a block although it is no object? -/
def seemsBraced (n : Node) : Bool :=
  match n.shape with
  | .arrow _ b =>
    b.kind ≠ .block && b.kind ≠ .object &&
      (formatExpression b 0 assignmentPrecedence).toList.head? == some '{'
  | _ => false

/-- Is there a function with a body in braces in the header of a counting loop? -/
def hasBracesInHeader (n : Node) : Bool :=
  match n.shape with
  | .for i t u _ => i.any (·.hasBraces) || t.any (·.hasBraces) || u.any (·.hasBraces)
  | _ => false

/-- Is the declaration of a function what an `if` or a loop is about, without braces around it? -/
def declaresUnbraced (n : Node) : Bool :=
  match n.shape with
  | .if _ b _ | .while _ b | .for _ _ _ b | .forOf _ _ b => b.kind = .functionDecl
  | _ => false

/-- Is the text of the node read as it was meant? -/
def isReadable (n : Node) : Bool :=
  !n.seemsBraced && !n.hasBracesInHeader && !n.declaresUnbraced

/-- Is the text of each node read as it was meant? -/
def Readable (n : Node) : Prop := ∀ m ∈ n.nodes, m.isReadable

variable {n k : Node}

theorem hasBraces_of_part (hk : k ∈ n.shape.parts) (h : k.hasBraces) : n.hasBraces := by
  obtain ⟨m, hm, hb⟩ := List.any_eq_true.1 h
  exact List.any_eq_true.2 ⟨m, mem_nodes_of_part hk hm, hb⟩

theorem hasBraces_of_isBraced (h : n.isBraced) : n.hasBraces :=
  List.any_eq_true.2 ⟨n, mem_nodes_self n, h⟩

namespace Readable

theorem part (h : n.Readable) (hk : k ∈ n.shape.parts) : k.Readable :=
  fun m hm => h m (mem_nodes_of_part hk hm)

theorem seemsBraced (h : n.Readable) : n.seemsBraced = false := by
  have hn := h n (mem_nodes_self n)
  simp only [isReadable, Bool.and_eq_true, Bool.not_eq_true'] at hn
  exact hn.1.1

theorem hasBracesInHeader (h : n.Readable) : n.hasBracesInHeader = false := by
  have hn := h n (mem_nodes_self n)
  simp only [isReadable, Bool.and_eq_true, Bool.not_eq_true'] at hn
  exact hn.1.2

theorem declaresUnbraced (h : n.Readable) : n.declaresUnbraced = false := by
  have hn := h n (mem_nodes_self n)
  simp only [isReadable, Bool.and_eq_true, Bool.not_eq_true'] at hn
  exact hn.2

end Readable

end Node

end AutoAwait
