import AutoAwait.Proofs.Tree.Path

/-!
# Recorded walks

A walk is told by the calls of its visitor's hooks: which node was entered or left, where it stands,
and what the hook answered. A recorder writes them down beside the state of the visitor.

* `Visitor.recorded` is the recorder; `Node.visit_recorded` says that nothing else changes by it;
* `Visitor.Plain` are the visitors that never ask for a walk over a replacement, and
  `Node.visit_plain` says that their walks end, however deep replacements may be walked over.
-/

namespace AutoAwait

variable {α β σ τ : Type}

/-- What a hook answers. -/
inductive HookAnswer where
  | enter (answer : Entering)
  | leave (answer : Leaving)

/-- A call of a hook: the path from the root to the node, what the hook is told, and what it
answers. -/
structure HookCall where
  path : Path
  place : Place
  node : Node
  answer : HookAnswer

/-- The state of a visitor and what was recorded so far. -/
structure Recording (σ : Type) where
  state : σ
  /-- The slots that lead to the open node, the innermost first. -/
  trail : List Slot
  /-- The calls of hooks, in order. -/
  calls : List HookCall

/-- Is a node walked over, or at least left, after this answer? -/
def Entering.opens : Entering → Bool
  | .replace _ _ => false
  | _ => true

/-- A visitor whose calls are recorded. -/
def Visitor.recorded (v : Visitor σ) : Visitor (Recording σ) where
  enter place n := fun r =>
    let a := v.enter place n r.state
    let trail := place.slot?.toList ++ r.trail
    (a.1, ⟨a.2, if a.1.opens then trail else r.trail,
      r.calls ++ [⟨trail.reverse, place, n, .enter a.1⟩]⟩)
  leave place n := fun r =>
    let a := v.leave place n r.state
    (a.1, ⟨a.2, r.trail.drop place.slot?.toList.length,
      r.calls ++ [⟨r.trail.reverse, place, n, .leave a.1⟩]⟩)

/-- The recorded walk over a tree. -/
def Node.record (v : Visitor σ) (n : Node) (s : σ) : Node × Recording σ :=
  n.visit v.recorded 1 .root ⟨s, [], []⟩

/-! ## Recording changes nothing -/

namespace Shape

/-- Two traversals with states, one of which has more in its state than the other. -/
theorem traverse_project (π : σ → τ) {f : Slot → α → StateM σ β} {g : Slot → α → StateM τ β}
    (s : Shape α) (h : ∀ k ∈ s.parts, ∀ slot x, ((f slot k x).1, π (f slot k x).2) = g slot k (π x))
    (x : σ) : ((s.traverse f x).1, π (s.traverse f x).2) = s.traverse g (π x) := by
  have hl : ∀ (ks : List (Slot × α)), (∀ k ∈ ks, k.2 ∈ s.parts) → ∀ x,
      ((ks.mapM (fun k => f k.1 k.2) x).1, π (ks.mapM (fun k => f k.1 k.2) x).2) =
        ks.mapM (fun k => g k.1 k.2) (π x) := by
    intro ks
    induction ks with
    | nil => exact fun _ _ => rfl
    | cons k ks ih =>
      intro hks x
      obtain ⟨hk, hks⟩ := List.forall_mem_cons.1 hks
      rw [mapM_cons_run, mapM_cons_run, ← h k.2 hk, ← ih hks]
  have hparts := hl s.kids (fun k hk => List.mem_map.2 ⟨k, hk, rfl⟩) x
  rw [← parts_traverse_run, ← parts_traverse_run] at hparts
  obtain ⟨hparts, hstate⟩ := Prod.ext_iff.1 hparts
  have hshape : (s.traverse f x).1 = (s.traverse g (π x)).1 :=
    ((rel_traverse f s x).symm.comp (rel_traverse g s (π x))).eq_of_parts hparts
  exact Prod.ext hshape hstate

end Shape

namespace Node

variable {v : Visitor σ} {n : Node} {place : Place}

section recorded
variable {again' : Place → Node → StateM (Recording σ) Node} {again : Place → Node → StateM σ Node}
variable (h : ∀ place m r,
  ((again' place m r).1, (again' place m r).2.state) = again place m r.state)
include h

theorem leaveWith_recorded (n : Node) (place : Place) (r : Recording σ) :
    ((leaveWith v.recorded again' place n r).1, (leaveWith v.recorded again' place n r).2.state) =
      leaveWith v again place n r.state := by
  simp only [leaveWith, Shape.bind_run]
  have ha : (v.recorded.leave place n r).1 = (v.leave place n r.state).1 := rfl
  rw [ha]
  cases (v.leave place n r.state).1 with
  | keep => rfl
  | replace m walked =>
    cases walked with
    | true => exact h _ _ _
    | false => rfl

theorem walk_recorded (n : Node) (place : Place) (r : Recording σ) :
    ((n.walk v.recorded again' place r).1, (n.walk v.recorded again' place r).2.state) =
      n.walk v again place r.state := by
  induction n using induction generalizing place r with
  | step n ih =>
    rw [walk_eq, walk_eq, Shape.bind_run, Shape.bind_run]
    have ha : (v.recorded.enter place n r).1 = (v.enter place n r.state).1 := rfl
    rw [ha]
    cases (v.enter place n r.state).1 with
    | replace m walked =>
      cases walked with
      | true => exact h _ _ _
      | false => rfl
    | skip => exact leaveWith_recorded h n place _
    | descend =>
      have hparts := Shape.traverse_project (·.state) n.shape
        (fun k hk slot x => ih k hk (.part n.kind slot) x) (v.recorded.enter place n r).2
      simp only [Shape.bind_run, leaveWith_recorded h]
      exact congrArg (fun x => leaveWith v again place { n with shape := x.1 } x.2) hparts

end recorded

/-- **Recording changes nothing**: neither the tree that a walk leads to nor the state of the
visitor. -/
theorem visit_recorded (v : Visitor σ) (depth : Nat) (place : Place) (n : Node) (r : Recording σ) :
    ((visit v.recorded depth place n r).1, (visit v.recorded depth place n r).2.state) =
      visit v depth place n r.state := by
  induction depth generalizing place n r with
  | zero => rfl
  | succ depth ih => exact walk_recorded (fun place m r => ih place m r) n place r

end Node

/-! ## Visitors that ask for no other walk -/

/-- A visitor that puts no other node in the place of one that it enters, and asks for no walk over
what it puts in the place of one that it leaves. -/
structure Visitor.Plain (v : Visitor σ) : Prop where
  enter : ∀ place n s m again, (v.enter place n s).1 ≠ .replace m again
  leave : ∀ place n s m, (v.leave place n s).1 ≠ .replace m true

/-- What stands in the place of a node that is left. -/
def Leaving.result (n : Node) : Leaving → Node
  | .keep => n
  | .replace m _ => m

namespace Node

variable {v : Visitor σ}

theorem leaveWith_plain (hv : v.Plain) (again : Place → Node → StateM σ Node) (place : Place)
    (n : Node) (s : σ) :
    leaveWith v again place n s = ((v.leave place n s).1.result n, (v.leave place n s).2) := by
  simp only [leaveWith, Shape.bind_run]
  cases ha : (v.leave place n s).1 with
  | keep => rfl
  | replace m walked =>
    cases walked with
    | true => exact absurd ha (hv.leave place n s m)
    | false => rfl

theorem walk_plain (hv : v.Plain) (again again' : Place → Node → StateM σ Node) (n : Node)
    (place : Place) : n.walk v again place = n.walk v again' place := by
  induction n using induction generalizing place with
  | step n ih =>
    funext s
    rw [walk_eq, walk_eq, Shape.bind_run, Shape.bind_run]
    cases ha : (v.enter place n s).1 with
    | replace m walked => exact absurd ha (hv.enter place n s m walked)
    | skip => simp only [leaveWith_plain hv]
    | descend =>
      simp only [Shape.bind_run, leaveWith_plain hv]
      have hparts : n.shape.traverse (fun slot k => k.walk v again (.part n.kind slot))
          (v.enter place n s).2 =
            n.shape.traverse (fun slot k => k.walk v again' (.part n.kind slot))
              (v.enter place n s).2 :=
        Shape.traverse_project id n.shape
          (fun k hk slot x => congrFun (ih k hk (.part n.kind slot)) x) (v.enter place n s).2
      rw [hparts]

/-- **A walk of such a visitor ends.** It leads to the same whatever number of replacements inside
each other may be walked over, since none is. -/
theorem visit_plain (hv : v.Plain) (depth : Nat) (place : Place) (n : Node) :
    visit v (depth + 1) place n = visit v 1 place n :=
  walk_plain hv _ _ n place

theorem recorded_plain (hv : v.Plain) : v.recorded.Plain where
  enter place n r := hv.enter place n r.state
  leave place n r := hv.leave place n r.state

end Node

end AutoAwait
