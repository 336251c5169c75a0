import AutoAwait.Proofs.Typing.Fresh

/-!
# The names that a program looks up

What the pass asks a table for, told from the program alone: each name that it looks up, with the
names that the program has bound by then in the scopes that are open there. A name that it has bound
in none of them is free: only the table that the pass starts with can tell its type.

* `Scopes` are the names bound so far, `Scopes.enter` and `Scopes.leave` what a node does to them;
* `Shape.reads` says of which parts of a node the pass reads the type;
* `Node.lookups` lists what is looked up, `Node.freeNames` the free names whose type is read.
-/

namespace AutoAwait

open Typing (framesOf)

/-- The names that a program has bound so far in each of its open scopes, the innermost scope
first. -/
abbrev Scopes := List (List String)

namespace Scopes

/-- Has a scope that is open bound the name? -/
def binds (s : Scopes) (name : String) : Bool := s.any (·.contains name)

/-- Binds a name in the innermost scope. -/
def bind (s : Scopes) (name : String) : Scopes :=
  match s with
  | [] => []
  | top :: outer => (name :: top) :: outer

/-- Assigns to a name: one that no scope has bound yet counts as bound in the innermost one. -/
def assign (s : Scopes) (name : String) : Scopes := if s.binds name then s else bind s name

/-- The scopes once a node is entered. -/
def enter (s : Scopes) (n : Node) : Scopes :=
  if framesOf n.kind = 1 then n.paramNames.foldl bind ([] :: s) else s

/-- The scopes once a node is left: its own is closed, and the name that it assigns is bound. -/
def leave (s : Scopes) (n : Node) : Scopes :=
  let s := s.drop (framesOf n.kind)
  match n.assigned? with
  | none => s
  | some name => if n.kind.isFunction then bind s name else assign s name

theorem leave_eq (s : Scopes) (n : Node) :
    s.leave n = n.assigned?.elim (s.drop (framesOf n.kind)) fun name =>
      if n.kind.isFunction then bind (s.drop (framesOf n.kind)) name
      else assign (s.drop (framesOf n.kind)) name := by
  unfold leave
  cases n.assigned? <;> rfl

end Scopes

/-- Does the pass read the type of the part in a slot when it leaves a node? -/
def Shape.reads {α : Type} (s : Shape α) (slot : Slot) : Bool :=
  match s with
  | .member .. => slot.key = "object"
  | .call .. | .construct .. => slot.key = "callee"
  | .assignment .. => slot.key = "right"
  | .declarator .. => slot.key = "init"
  | .arrow .. => slot.key = "body"
  | .await .. | .return .. => true
  | _ => false

theorem Shape.Rel.reads {α β : Type} {R : α → β → Prop} {s : Shape α} {t : Shape β} (h : Rel R s t) :
    t.reads = s.reads := by
  cases h <;> rfl

/-- A name that is looked up. -/
structure Lookup where
  name : String
  /-- What the program has bound by then. -/
  scopes : Scopes
  /-- Is the type of the name read? -/
  read : Bool

/-- Is this a name whose type is read, and that only the table can tell? -/
def Lookup.free (l : Lookup) : Bool := l.read && !l.scopes.binds l.name

namespace Node

/-- What is looked up in a tree that stands where its type is read, or is not. -/
def lookups : Node → Bool → StateM Scopes (List Lookup) :=
  fold fun n parts read => do
    modify (·.enter n)
    let found ← parts.traverse fun slot part => part.2 (n.shape.reads slot)
    let scopes ← get
    set (scopes.leave n)
    return (n.name?.map fun name => ⟨name, scopes, read⟩).toList ++ found.parts.flatten

/-- What is looked up in some parts, one after the other; `reads` says of which the type is read. -/
def lookupsIn (reads : Slot → Bool) (ks : List (Slot × Node)) : StateM Scopes (List (List Lookup)) :=
  ks.mapM fun k => lookups k.2 (reads k.1)

/-- What is looked up in the parts of a node. -/
def partLookups (n : Node) (s : Scopes) : List Lookup × Scopes :=
  let r := lookupsIn n.shape.reads n.shape.kids s
  (r.1.flatten, r.2)

/-- The free names of a program whose types the pass reads. -/
def freeNames (program : Node) : List String :=
  ((program.partLookups [[]]).1.filter (·.free)).map (·.name)

theorem lookups_eq (n : Node) (read : Bool) (s : Scopes) :
    n.lookups read s =
      let r := n.partLookups (s.enter n)
      ((n.name?.map (⟨·, r.2, read⟩)).toList ++ r.1, r.2.leave n) := by
  have h := Shape.parts_traverse_run (fun slot k => lookups k (n.shape.reads slot)) n.shape (s.enter n)
  rw [lookups, fold_eq]
  simp only [Shape.traverse_map]
  rw [partLookups, lookupsIn, ← h]
  rfl

theorem lookupsIn_cons (reads : Slot → Bool) (k : Slot × Node) (ks : List (Slot × Node))
    (s : Scopes) :
    lookupsIn reads (k :: ks) s =
      let r := lookups k.2 (reads k.1) s
      let rs := lookupsIn reads ks r.2
      (r.1 :: rs.1, rs.2) := Shape.mapM_cons_run ..

theorem mem_lookupsIn {reads : Slot → Bool} {ks : List (Slot × Node)} {s : Scopes} {l : Lookup}
    (h : l ∈ (lookupsIn reads ks s).1.flatten) :
    ∃ k ∈ ks, ∃ read s, l ∈ (lookups k.2 read s).1 := by
  induction ks generalizing s with
  | nil => cases h
  | cons k ks ih =>
    rw [lookupsIn_cons, List.flatten_cons] at h
    rcases List.mem_append.1 h with h | h
    · exact ⟨k, List.mem_cons_self, _, _, h⟩
    · obtain ⟨k', hk, hl⟩ := ih h
      exact ⟨k', List.mem_cons_of_mem _ hk, hl⟩

/-- What is looked up is the name of a node of the tree. -/
theorem exists_of_mem_lookups {n : Node} {read : Bool} {s : Scopes} {l : Lookup}
    (h : l ∈ (n.lookups read s).1) : ∃ m ∈ n.nodes, m.name? = some l.name := by
  induction n using induction generalizing read s with
  | step n ih =>
    rw [lookups_eq] at h
    rcases List.mem_append.1 h with h | h
    · obtain ⟨name, hn, rfl⟩ := Option.map_eq_some_iff.1 (Option.mem_toList.1 h)
      exact ⟨n, mem_nodes_self n, hn⟩
    · obtain ⟨k, hk, read, s, hl⟩ := mem_lookupsIn h
      have hk : k.2 ∈ n.shape.parts := List.mem_map.2 ⟨k, hk, rfl⟩
      obtain ⟨m, hm, hn⟩ := ih k.2 hk hl
      exact ⟨m, mem_nodes_of_part hk hm, hn⟩

theorem exists_of_mem_partLookups {n : Node} {s : Scopes} {l : Lookup}
    (h : l ∈ (n.partLookups s).1) : ∃ m ∈ n.nodes, m.name? = some l.name := by
  obtain ⟨k, hk, read, s, hl⟩ := mem_lookupsIn h
  obtain ⟨m, hm, hn⟩ := exists_of_mem_lookups hl
  exact ⟨m, mem_nodes_of_part (List.mem_map.2 ⟨k, hk, rfl⟩) hm, hn⟩

end Node

end AutoAwait
