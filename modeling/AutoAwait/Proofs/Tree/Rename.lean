import AutoAwait.Proofs.Tree.Path

/-!
# Renaming a variable

A variable gets another name wherever it stands in a tree. Names that stand for no variable stay:
the names of attributes and the keys of objects.

* `Node.rename` renames a variable in a whole tree;
* `Node.renameInside` renames a variable of the scope that a node opens: in all of its parts but the
  name of a function, which belongs to the scope around it;
* `Node.replaceAt` puts a tree in the place that a path leads to.
-/

namespace AutoAwait

/-- The name `z` where `x` is renamed to `y`. -/
def renameName (x y z : String) : String := if z = x then y else z

theorem renameName_self (x y : String) : renameName x y x = y := if_pos rfl

theorem renameName_of_ne {x z : String} (y : String) (h : z ≠ x) : renameName x y z = z := if_neg h

/-- Different names stay different if none of them is the new one. -/
theorem renameName_inj {x y z w : String} (hz : z ≠ y) (hw : w ≠ y) :
    renameName x y z = renameName x y w ↔ z = w := by
  unfold renameName
  split <;> split <;> simp_all [eq_comm]

namespace Shape

/-- A name that stands for no variable stays; anything else in its place is renamed. -/
def label (k : Node × Node) : Node := if k.1.shape.kind = .identifier then k.1 else k.2

/-- One layer of syntax with a variable renamed, from its parts beside the renamed parts. A shorthand
entry of an object is written out if its value is renamed. -/
def rename (x y : String) : Shape (Node × Node) → Shape Node
  | .identifier z => .identifier (renameName x y z)
  | .property k v short => .property (label k) v.2 (short && k.1.name? ≠ some x)
  | .member o k computed => .member o.2 (if computed then k.2 else label k) computed
  | s => s.map (·.2)

end Shape

namespace Node

/-- A tree with the variable `x` renamed to `y`. -/
def rename (x y : String) : Node → Node := fold fun n parts => { n with shape := parts.rename x y }

theorem rename_eq (x y : String) (n : Node) :
    n.rename x y = { n with shape := (n.shape.map fun k => (k, k.rename x y)).rename x y } := by
  rw [rename, fold_eq]

/-- All kinds of nodes but three have their parts renamed and nothing else. -/
theorem shape_rename (x y : String) {n : Node}
    (h : n.kind ≠ .identifier ∧ n.kind ≠ .property ∧ n.kind ≠ .member) :
    (n.rename x y).shape = n.shape.map (rename x y) := by
  have he : (n.shape.map fun k => (k, k.rename x y)).rename x y =
      (n.shape.map fun k => (k, k.rename x y)).map (·.2) := by
    obtain ⟨loc, type, s⟩ := n
    cases s
    case identifier => exact absurd rfl h.1
    case property => exact absurd rfl h.2.1
    case member => exact absurd rfl h.2.2
    all_goals rfl
  rw [rename_eq, he, Shape.map_map]

theorem kind_rename (x y : String) (n : Node) : (n.rename x y).kind = n.kind := by
  obtain ⟨loc, type, s⟩ := n
  rw [rename_eq]
  cases s <;> rfl

theorem name?_rename (x y : String) (n : Node) :
    (n.rename x y).name? = n.name?.map (renameName x y) := by
  obtain ⟨loc, type, s⟩ := n
  rw [rename_eq]
  cases s <;> rfl

/-- A part that is renamed unless it is a name that stands for no variable. -/
def relabel (x y : String) (n : Node) : Node := Shape.label (n, n.rename x y)

theorem relabel_cases (x y : String) (n : Node) :
    n.relabel x y = n ∧ n.kind = .identifier ∨ n.relabel x y = n.rename x y ∧ n.name? = none := by
  obtain ⟨loc, type, s⟩ := n
  cases s <;> first | exact .inl ⟨rfl, rfl⟩ | exact .inr ⟨rfl, rfl⟩

theorem name?_relabel (x y : String) (n : Node) : (n.relabel x y).name? = n.name? := by
  rcases relabel_cases x y n with ⟨h, -⟩ | ⟨h, hn⟩
  · rw [h]
  · rw [h, name?_rename, hn]
    rfl

/-- A node with a variable of the scope that it opens renamed. -/
def renameInside (x y : String) (c : Node) : Node :=
  { c with shape :=
    match c.shape with
    | .function id params body =>
      .function (id.map (relabel x y)) (params.map (rename x y)) (body.rename x y)
    | .functionDecl id params body =>
      .functionDecl (id.relabel x y) (params.map (rename x y)) (body.rename x y)
    | s => s.map (rename x y) }

/-- A tree with another one in the place that a path leads to. -/
def replaceAt : Node → Path → Node → Node
  | _, [], m => m
  | n, slot :: path, m =>
    { n with shape := n.shape.mapSlots fun s k => if s = slot then k.replaceAt path m else k }

variable {n m c : Node} {path : Path}

/-- A node in whose place stands one of its kind. -/
theorem kind_replaceAt (hc : n.at? path = some c) (hm : m.kind = c.kind) :
    (n.replaceAt path m).kind = n.kind := by
  cases path with
  | nil =>
    obtain rfl : n = c := Option.some.inj hc
    exact hm
  | cons slot path => exact (Shape.rel_mapSlots _ n.shape).kind.symm

/-- A node above one that is no name and no literal is none itself. -/
theorem not_leaf_of_at? (hc : n.at? path = some c)
    (hleaf : c.kind ≠ .identifier ∧ c.kind ≠ .literal) :
    n.kind ≠ .identifier ∧ n.kind ≠ .literal := by
  cases path with
  | nil =>
    obtain rfl : n = c := Option.some.inj hc
    exact hleaf
  | cons slot path =>
    obtain ⟨k, hk, -⟩ := Option.bind_eq_some_iff.1 hc
    obtain ⟨loc, type, s⟩ := n
    cases s with
    | identifier | literal => cases hk
    | _ => simp [Node.kind, Shape.kind]

end Node

end AutoAwait
