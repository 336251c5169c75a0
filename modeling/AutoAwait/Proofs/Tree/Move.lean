import AutoAwait.Proofs.Tree.Path

/-!
# Moving a tree in the text

* `Position.down` is a place some lines further down, `Position.right` one further right if it is on
  the first line;
* `Node.move` moves each node of a tree, whatever else it says stays.
-/

namespace AutoAwait

/-- The place `lines` lines further down. -/
def Position.down (lines : Nat) (p : Position) : Position := ⟨p.line + lines, p.column⟩

theorem Position.advance_down (lines : Nat) (p : Position) (cs : List Char) :
    (p.down lines).advance cs = (p.advance cs).down lines := by
  induction cs generalizing p with
  | nil => rfl
  | cons c cs ih =>
    have hn : (p.down lines).next c = (p.next c).down lines := by
      unfold Position.next Position.down
      split
      · rw [Nat.add_right_comm]
      · rfl
    rw [advance_cons, advance_cons, hn, ih]

/-- The place `columns` columns further right, on the first line. -/
def Position.right (columns : Nat) (p : Position) : Position :=
  if p.line = 1 then ⟨p.line, p.column + columns⟩ else p

theorem Position.advance_right (columns : Nat) {p : Position} (hp : 1 ≤ p.line) (cs : List Char) :
    (p.right columns).advance cs = (p.advance cs).right columns := by
  induction cs generalizing p with
  | nil => rfl
  | cons c cs ih =>
    have hn : (p.right columns).next c = (p.next c).right columns := by
      unfold Position.next Position.right
      by_cases hc : c = '\n' <;> by_cases hl : p.line = 1 <;> simp [hc, hl] <;> omega
    have hline : 1 ≤ (p.next c).line := by
      unfold Position.next
      split
      · exact Nat.le_add_left 1 p.line
      · exact hp
    rw [advance_cons, advance_cons, hn, ih hline]

/-- After a newline a text goes on as a text begins, some lines further down. -/
theorem Position.advance_newline (p : Position) (cs : List Char) :
    p.advance (cs ++ ['\n']) = Position.start.down (p.advance cs).line := by
  rw [advance_append]
  show Position.next _ '\n' = _
  simp [Position.next, Position.down, Position.start, Nat.add_comm]

namespace Node

variable (φ : Position → Position)

/-- A tree with each node at another place. -/
def move : Node → Node := fold fun n parts => ⟨φ n.loc, n.type, parts.map (·.2)⟩

theorem move_eq (n : Node) : n.move φ = ⟨φ n.loc, n.type, n.shape.map (move φ)⟩ := by
  rw [move, fold_eq, Shape.map_map]

theorem move_mk (loc : Position) (type : Option ShellType) (shape : Shape Node) :
    (⟨loc, type, shape⟩ : Node).move φ = ⟨φ loc, type, shape.map (move φ)⟩ := move_eq φ _

@[simp] theorem move_type (n : Node) : (n.move φ).type = n.type := by rw [move_eq]

@[simp] theorem move_loc (n : Node) : (n.move φ).loc = φ n.loc := by rw [move_eq]

@[simp] theorem move_shape (n : Node) : (n.move φ).shape = n.shape.map (move φ) := by rw [move_eq]

@[simp] theorem move_kind (n : Node) : (n.move φ).kind = n.kind := by
  rw [kind, move_shape]
  exact (Shape.rel_map _ _).kind.symm

@[simp] theorem move_name? (n : Node) : (n.move φ).name? = n.name? := by
  rw [name?, move_shape]
  exact (Shape.rel_map _ _).name?.symm

@[simp] theorem bare_move (n : Node) : (n.move φ).bare = n.bare := by
  induction n using induction with
  | step n ih =>
    rw [bare_eq, bare_eq n, move_shape, Shape.map_map]
    have hs : n.shape.map (fun k => (k.move φ).bare) = n.shape.map bare := by
      apply ((Shape.rel_map _ n.shape).symm.comp (Shape.rel_map _ n.shape)).eq_of_parts
      rw [Shape.parts_map, Shape.parts_map]
      exact List.map_congr_left ih
    rw [hs]

theorem types_move (n : Node) : (n.move φ).nodes.map (·.type) = n.nodes.map (·.type) := by
  induction n using induction with
  | step n ih =>
    rw [nodes_eq, nodes_eq n, List.map_cons, List.map_cons, move_type, move_shape, Shape.parts_map,
      List.flatMap_map, List.map_flatMap, List.map_flatMap]
    congr 1
    exact List.flatMap_congr ih

theorem move_id (n : Node) : n.move id = n := by
  induction n using induction with
  | step n ih =>
    rw [move_eq]
    have hs : n.shape.map (move id) = n.shape := by
      apply (Shape.rel_map _ n.shape).symm.eq_of_part?
      intro slot a b ha hb
      rw [Shape.part?_map, hb] at ha
      exact (Option.some.inj ha).symm.trans (ih b (Shape.mem_parts_of_part? hb))
    rw [hs]
    cases n
    rfl

end Node

end AutoAwait
