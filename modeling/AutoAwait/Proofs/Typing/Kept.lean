import AutoAwait.Proofs.Typing.Frames

/-!
# What a rewriting leaves alone

The pass binds names in the frames that it was given: variables where they are bound already, also in
frames far below, and functions in the frame around them. All other names are left alone in every
frame, also if an error stops the pass in the middle of nested scopes.

* `Node.assigned?` is the name that a node binds in a frame around it;
* `Typing.Leaves` lists what leaving a node can do to the table, `Typing.leaves` says that it does no
  more;
* `SymbolTable.column` is what the frames bind a name to; `Typing.KeptBy.walk` is the induction over
  a walk, for all that is told of the frames;
* `ProgramScope.rewrite_keeps` is the main statement.
-/

namespace AutoAwait

/-- The name that a node binds in a frame around it: that of a variable that is declared or assigned
to, or of a function. -/
def Node.assigned? (n : Node) : Option String :=
  match n.shape with
  | .declarator id _ | .functionDecl id _ _ => some (id.name?.getD "")
  | .function id _ _ => id.map (·.name?.getD "")
  | .assignment _ left _ => left.name?
  | _ => none

/-- Nodes whose parts have the same names bind the same name. -/
theorem Node.assigned?_eq {n m : Node}
    (h : n.shape.Rel (fun k l => k.name? = l.name?) m.shape) : n.assigned? = m.assigned? := by
  obtain ⟨loc, type, shape⟩ := n
  obtain ⟨loc', type', shape'⟩ := m
  unfold Node.assigned?
  dsimp only at h ⊢
  cases h with
  | declarator hid _ | functionDecl hid _ _ => simp only [hid]
  | function hid _ _ =>
    cases hid with
    | none => rfl
    | some h => simp only [Option.map_some, h]
  | assignment hl _ => exact hl
  | _ => rfl

/-! ## One name in all frames -/

namespace SymbolTable

variable {t u : SymbolTable} {name other : String} {ref : TypeRef}

/-- What the frames bind a name to, the innermost frame first. -/
def column (t : SymbolTable) (name : String) : List (Option TypeRef) := t.frames.map (·.get? name)

@[simp] theorem length_column (t : SymbolTable) (name : String) :
    (t.column name).length = t.depth := by simp [column, depth]

/-- Declaring another name in some frame. -/
theorem get?_put_other {f : Frame} (h : other ≠ name) : (f.put other ref).get? name = f.get? name := by
  rw [Bindings.get?_put, if_neg h]

theorem column_declare (h : t.declare other ref = .ok u) (hn : other ≠ name) :
    u.column name = t.column name := by
  unfold declare at h
  split at h
  · cases h
  · next f fs hf =>
    cases h
    simp only [column, hf, List.map_cons, get?_put_other hn]

theorem column_rebind {fs gs : List Frame} (h : rebind other ref fs = some gs) (hn : other ≠ name) :
    gs.map (·.get? name) = fs.map (·.get? name) := by
  induction fs generalizing gs with
  | nil => cases h
  | cons f fs ih =>
    simp only [rebind] at h
    split at h
    · cases h
      simp only [List.map_cons, get?_put_other hn]
    · obtain ⟨gs, hg, rfl⟩ := Option.map_eq_some_iff.1 h
      simp only [List.map_cons, ih hg]

theorem column_update (h : t.update other ref = .ok u) (hn : other ≠ name) :
    u.column name = t.column name := by
  unfold update at h
  split at h
  · cases h
    exact column_rebind ‹_› hn
  · exact column_declare h hn

section
variable {i : Nat} {f g : Frame} (hf : t.frames[i]? = some f) (hg : u.frames[i]? = some g)
include hf hg

theorem get?_of_column (h : u.column name = t.column name) : g.get? name = f.get? name := by
  have hi := congrArg (·[i]?) h
  simpa only [column, List.getElem?_map, hf, hg, Option.map_some, Option.some.injEq] using hi

/-- Only the innermost of two frames in one place can bind more names than the other. -/
theorem names_of_extendTop {new : List String} (h : u.boundNames = extendTop t.boundNames new) :
    (∀ name ∈ Bindings.names f, name ∈ Bindings.names g) ∧
      (0 < i → Bindings.names g = Bindings.names f) := by
  have hi := congrArg (·[i]?) h
  simp only [boundNames, List.getElem?_map, hg, Option.map_some] at hi
  cases ht : t.frames with
  | nil => simp [ht] at hf
  | cons top below =>
    cases i with
    | zero =>
      obtain rfl : top = f := by simpa [ht] using hf
      simp only [ht, List.map_cons, extendTop, List.getElem?_cons_zero, Option.some.injEq] at hi
      exact ⟨fun name hn => hi ▸ List.mem_append_left _ hn, fun h => absurd h (Nat.lt_irrefl 0)⟩
    | succ i =>
      have hn : Bindings.names g = Bindings.names f := by
        simpa [ht, extendTop, show below[i]? = some f by simpa [ht] using hf] using hi
      exact ⟨fun name h => hn ▸ h, fun _ => hn⟩

end

theorem unwind_ok {depth : Nat} (h : depth ≤ t.depth) :
    t.unwind depth = .ok { t with frames := t.frames.drop (t.depth - depth) } := by
  rw [unwind, if_neg (by omega), Int.toNat_natCast]

end SymbolTable

namespace Typing

variable {again : Place → Node → StateM Typing Node}
variable {p q : Typing} {n m : Node} {place : Place} {name : String} {u : SymbolTable}

/-! ## Steps -/

theorem declare_registry (p : Typing) (name : String) (t : ShellType) :
    (p.declare name t).table.registry = p.table.registry := by
  unfold declare
  split
  · exact (SymbolTable.bound_of_declare ‹_›).1
  · rfl

theorem update_registry (p : Typing) (name : String) (t : ShellType) :
    (p.update name t).table.registry = p.table.registry := by
  unfold update
  split
  · exact (SymbolTable.bound_of_update ‹_›).1
  · rfl

theorem closeScope_registry (p : Typing) (kind : NodeKind) :
    (p.closeScope kind).table.registry = p.table.registry := by
  unfold closeScope
  split
  · exact (SymbolTable.pop_ok ‹_›).1.symm
  · rfl

theorem declare_column {other : String} (h : other ≠ name) (t : ShellType) :
    (p.declare other t).table.column name = p.table.column name := by
  unfold declare
  split
  · exact SymbolTable.column_declare ‹_› h
  · rfl

theorem update_column {other : String} (h : other ≠ name) (t : ShellType) :
    (p.update other t).table.column name = p.table.column name := by
  unfold update
  split
  · exact SymbolTable.column_update ‹_› h
  · rfl

theorem closeScope_column (p : Typing) (kind : NodeKind) (name : String) :
    (p.closeScope kind).table.column name = (p.table.column name).drop 1 := by
  unfold closeScope
  split
  · next f t ht =>
    show t.column name = _
    simp only [SymbolTable.column, (SymbolTable.pop_ok ht).2, List.map_cons, List.drop_one, List.tail_cons]
  · next e he =>
    have hd := SymbolTable.pop_error he
    rw [← SymbolTable.length_column p.table name, List.length_eq_zero_iff] at hd
    show p.table.column name = _
    rw [hd]
    rfl

/-- What leaving a node can do to the table: close the frame that the node has opened, and bind the
name that the node assigns to. -/
inductive Leaves (n : Node) (p : Typing) : SymbolTable → Prop
  | stay (h : framesOf n.kind = 0) : Leaves n p p.table
  | update {name t} (h : framesOf n.kind = 0) (hn : n.assigned? = some name) :
      Leaves n p (p.update name t).table
  | close (h : framesOf n.kind = 1) : Leaves n p (p.closeScope n.kind).table
  | define {q : Typing} {name t} (h : framesOf n.kind = 1) (hq : q.table = (p.closeScope n.kind).table)
      (hn : n.assigned? = some name) : Leaves n p (q.declare name t).table

theorem Leaves.of_eq (h : framesOf n.kind = 0) (hu : u = p.table) : Leaves n p u := hu ▸ .stay h

theorem leaves_function (p : Typing) (n : Node) {id : Option Node} (body : Node)
    (hk : framesOf n.kind = 1) (hn : n.assigned? = id.map (·.name?.getD "")) :
    Leaves n p (p.leaveFunction n id body).2.table := by
  unfold leaveFunction
  dsimp only
  split
  · exact .close hk
  · cases id with
    | none =>
      dsimp only [Option.map_none]
      split <;> exact .close hk
    | some id =>
      dsimp only [Option.map_some]
      split <;> exact .define hk rfl hn

/-- Leaving a node does no more to the table than is listed. -/
theorem leaves (place : Place) (n : Node) (p : Typing) :
    Leaves n p (p.leaveNode place n).2.table := by
  obtain ⟨loc, type, shape⟩ := n
  cases shape with
  | identifier name => exact .of_eq rfl (noteMissing_table ..)
  | member o k computed =>
    simp only [leaveNode, leaveMember]
    split
    · split <;> exact .stay rfl
    · split
      · exact .of_eq rfl (noteMissing_table ..)
      · exact .stay rfl
  | call callee args =>
    simp only [leaveNode, leaveCall]
    split <;> exact .of_eq rfl (noteMissingReturn_table ..)
  | construct callee args => exact .of_eq rfl (noteMissingReturn_table ..)
  | declarator id init =>
    simp only [leaveNode, leaveDeclarator]
    split <;> exact .update rfl rfl
  | assignment op left right =>
    have hn : Node.assigned? ⟨loc, type, .assignment op left right⟩ = left.name? := rfl
    simp only [leaveNode, leaveAssignment]
    cases hl : left.name? with
    | none =>
      dsimp only
      split <;> exact .stay rfl
    | some name =>
      dsimp only
      split <;> exact .update rfl (hn.trans hl)
  | function id params body | arrow params body | functionDecl id params body =>
    exact leaves_function _ _ _ rfl rfl
  | block _ | «for» _ _ _ _ | forOf _ _ _ | «while» _ _ | catchClause _ _ => exact .close rfl
  | _ => exact .stay rfl

theorem Leaves.registry (h : Leaves n p u) : u.registry = p.table.registry := by
  cases h with
  | stay => rfl
  | update => exact update_registry _ _ _
  | close => exact closeScope_registry _ _
  | define _ hq =>
    rw [declare_registry, hq]
    exact closeScope_registry _ _

theorem Leaves.column (h : Leaves n p u) (hn : n.assigned? ≠ some name) :
    u.column name = (p.table.column name).drop (framesOf n.kind) := by
  have hne {other : String} (h : n.assigned? = some other) : other ≠ name := fun he => hn (he ▸ h)
  cases h with
  | stay h => rw [h]; rfl
  | update h ha => rw [h, update_column (hne ha)]; rfl
  | close h => rw [h, closeScope_column]
  | define h hq ha => rw [h, declare_column (hne ha), hq, closeScope_column]

theorem declareParams_table (p : Typing) (params : List Node) (name : String) :
    (params.foldl declareParam p).table.registry = p.table.registry ∧
      ((params.foldl declareParam p).table.column name).drop 1 = (p.table.column name).drop 1 := by
  induction params generalizing p with
  | nil => exact ⟨rfl, rfl⟩
  | cons k params ih =>
    obtain ⟨hr, hc⟩ := ih (p.declareParam k)
    refine ⟨hr.trans (declare_registry _ _ _), hc.trans ?_⟩
    unfold declareParam declare
    split
    · next u hu =>
      unfold SymbolTable.declare at hu
      split at hu
      · cases hu
      · next f fs hf =>
        cases hu
        simp only [SymbolTable.column, hf, List.map_cons, List.drop_one, List.tail_cons]
    · rfl

/-- Entering a node opens its frame above those that are there. -/
theorem enter_table (n : Node) (h : p.failure = none) (name : String) :
    (enter n p).2.table.registry = p.table.registry ∧
      ((enter n p).2.table.column name).drop (framesOf n.kind) = p.table.column name := by
  obtain ⟨loc, type, shape⟩ := n
  simp only [enter, h, Option.isSome_none, Bool.false_eq_true, if_false]
  cases shape with
  | function id params body | arrow params body | functionDecl id params body =>
    exact declareParams_table _ params name
  | catchClause param body => exact declareParams_table _ param.toList name
  | _ => exact ⟨rfl, rfl⟩

/-! ## Walks -/

/-- The walk over the parts of a node keeps the name that it binds. -/
theorem assigned?_descended (h : (descended again n p).2.failure = none) :
    (descended again n p).1.assigned? = n.assigned? :=
  (Node.assigned?_eq (walkParts_ok h fun _ k _ _ hq => (walk_rewrites k hq).name?)).symm

/-- No walk changes the registry. -/
theorem carried_registry :
    Carried (fun p q => q.table.registry = p.table.registry) (fun _ _ => True) where
  refl _ := rfl
  trans hp hq := hq.trans hp
  before _ _ := trivial
  failed {n _ _} hp hr _ := hr.trans (enter_table n hp "").1
  left {_ n _ _ _} hp hr _ _ _ :=
    ⟨((leaves ..).registry.trans hr).trans (enter_table n hp "").1, fun _ => trivial⟩

/-- A walk that succeeds closes the frames that it opens. -/
theorem carried_depth :
    Carried (fun p q => q.failure = none → p.failure = none ∧ q.table.depth = p.table.depth)
      (fun _ _ => True) :=
  Carried.measure enter_depth leaveNode_depth

/-- What `f` tells of each frame is left alone by nodes that `P` allows: entering a node tells of its
frame besides, and leaving it tells of the others what was told before, where `G` holds of that. -/
structure KeptBy {β : Type} (f : SymbolTable → List β) (G : List β → Prop)
    (P : NodeKind → Option String → Prop) : Prop where
  length : ∀ t, (f t).length = t.depth
  more : ∀ {l l'}, l <:+ l' → G l → G l'
  enter : ∀ (n : Node) {p : Typing}, p.failure = none →
    (f (enter n p).2.table).drop (framesOf n.kind) = f p.table
  leave : ∀ place (n : Node) (p : Typing), P n.kind n.assigned? →
    G ((f p.table).drop (framesOf n.kind)) →
      f (p.leaveNode place n).2.table = (f p.table).drop (framesOf n.kind)

namespace KeptBy

variable {β : Type} {f : SymbolTable → List β} {G : List β → Prop}
  {P : NodeKind → Option String → Prop}

/-- What is kept by the walks over the parts of a node is kept by the walk over all of them. -/
theorem parts (hf : KeptBy f G P)
    (ih : ∀ k ∈ n.shape.parts, ∀ slot p, G (f p.table) →
      f p.table <:+ f (walkPart again n.kind slot k p).2.table) (p : Typing) (hg : G (f p.table)) :
    f p.table <:+ f (walkParts again n p).2.table := by
  rw [walkParts_snd]
  replace ih : ∀ k ∈ n.shape.kids, ∀ p, G (f p.table) →
      f p.table <:+ f (walkPart again n.kind k.1 k.2 p).2.table :=
    fun k hk => ih k.2 (List.mem_map.2 ⟨k, hk, rfl⟩) k.1
  generalize n.shape.kids = ks at ih
  induction ks generalizing p with
  | nil => exact List.suffix_rfl
  | cons k ks ih' =>
    obtain ⟨hk, hks⟩ := List.forall_mem_cons.1 ih
    rw [Shape.mapM_cons_run]
    exact (hk p hg).trans (ih' _ (hf.more (hk p hg) hg) hks)

theorem walk (hf : KeptBy f G P) (n : Node) (hn : ∀ m ∈ n.nodes, P m.kind m.assigned?)
    (place : Place) (p : Typing) (hg : G (f p.table)) :
    f p.table <:+ f (n.walk visitor again place p).2.table := by
  induction n using Node.induction generalizing place p with
  | step n ih =>
    cases hp : p.failure with
    | some e =>
      have hw : (n.walk visitor again place p).2 = p :=
        congrArg Prod.snd (walk_failed (by simp [hp]))
      exact hw.symm ▸ List.suffix_rfl
    | none =>
      have he := hf.enter n hp
      have hs : f p.table <:+ f (Typing.enter n p).2.table := he ▸ List.drop_suffix _ _
      have hq : f (Typing.enter n p).2.table <:+ f (descended again n p).2.table :=
        hf.parts (fun k hk slot q =>
          ih k hk (fun m hm => hn m (Node.mem_nodes_of_part hk hm)) (.part n.kind slot) q) _
          (hf.more hs hg)
      rw [walk_run hp]
      split
      · exact hs.trans hq
      · next hfail =>
        have hfail := Option.not_isSome_iff_eq_none.1 hfail
        have hd := ((carried_depth.parts (fun k _ slot q => carried_depth.walk k _ q) _).1 hfail).2
        have hk : (descended again n p).1.kind = n.kind := kind_walkParts
        have hkept : (f (descended again n p).2.table).drop (framesOf n.kind) = f p.table := by
          rw [← hq.eq_of_length (by rw [hf.length, hf.length]; exact hd.symm), he]
        have hc := hf.leave place (descended again n p).1 (descended again n p).2
          (by rw [hk, assigned?_descended hfail]; exact hn n (Node.mem_nodes_self n))
          (by rw [hk, hkept]; exact hg)
        rw [hk, hkept] at hc
        exact hc.symm ▸ List.suffix_rfl

theorem run (hf : KeptBy f G P) {program : Node}
    (hn : ∀ m ∈ program.nodes, P m.kind m.assigned?) (t : SymbolTable) (hg : G (f t)) :
    f t <:+ f (run program t).2.table :=
  hf.parts (fun k hk slot q =>
    hf.walk k (fun m hm => hn m (Node.mem_nodes_of_part hk hm)) (.part program.kind slot) q)
    (start t) hg

end KeptBy

/-- What the frames that stay bind a name to that the node itself does not assign. -/
theorem walk_column (h : (n.walk visitor again place p).2.failure = none)
    (hn : n.assigned? ≠ some name) :
    (n.walk visitor again place p).2.table.column name =
      ((descended again n p).2.table.column name).drop (framesOf n.kind) := by
  obtain ⟨-, hd, he⟩ := walk_ok h
  have hk : (descended again n p).1.kind = n.kind := kind_walkParts
  rw [he, (leaves _ _ _).column (by rwa [assigned?_descended hd]), hk]

/-- The frames stay, and what they bind a name to that the tree does not assign. -/
theorem column_kept (name : String) :
    KeptBy (·.column name) (fun _ => True) (fun _ assigned => assigned ≠ some name) where
  length t := t.length_column name
  more _ _ := trivial
  enter n _ hp := (enter_table n hp name).2
  leave _ _ _ hn _ := (leaves ..).column hn

theorem depth_le_run (program : Node) (t : SymbolTable) :
    t.depth ≤ (run program t).2.table.depth := by
  rcases Nat.eq_zero_or_pos t.depth with h | h
  · omega
  · exact (run_above h program).1.depth_le

end Typing

/-! ## Rewritings -/

namespace ProgramScope

variable {s : ProgramScope} {t : SymbolTable} {tree : Node} {name : String}

theorem enter_registry (s : ProgramScope) (t : SymbolTable) :
    (s.enter t).2.registry = t.registry := by
  cases s <;> rfl

/-- After a rewriting the table is that of the pass without the frames that the pass has left open. -/
theorem rewrite_table (s : ProgramScope) (t : SymbolTable) (tree : Node) :
    (s.rewrite t tree).table =
      let u := (Typing.run tree (s.enter t).2).2.table
      { u with frames := u.frames.drop (u.depth - (s.enter t).2.depth) } := by
  have hle := Typing.depth_le_run tree (s.enter t).2
  simp only [rewrite]
  cases hf : (Typing.run tree (s.enter t).2).2.failure with
  | none =>
    have hd := ((Typing.carried_depth.run tree (s.enter t).2).1 hf).2
    simp only [hd, Typing.start, Nat.sub_self, List.drop_zero]
  | some e =>
    simp only [SymbolTable.unwind_ok hle]

/-- A rewriting ends with the tree and the error of the pass. -/
theorem rewrite_outcome (s : ProgramScope) (t : SymbolTable) (tree : Node) :
    (s.rewrite t tree).tree = (Typing.run tree (s.enter t).2).1 ∧
      (s.rewrite t tree).failure = (Typing.run tree (s.enter t).2).2.failure ∧
      (s.rewrite t tree).scope = (s.enter t).1 := by
  have hle := Typing.depth_le_run tree (s.enter t).2
  simp only [rewrite]
  cases hf : (Typing.run tree (s.enter t).2).2.failure with
  | none => exact ⟨rfl, rfl, rfl⟩
  | some e =>
    simp only [SymbolTable.unwind_ok hle, and_self]

theorem rewrite_registry (s : ProgramScope) (t : SymbolTable) (tree : Node) :
    (s.rewrite t tree).table.registry = t.registry := by
  rw [rewrite_table]
  exact (Typing.carried_registry.run tree (s.enter t).2).1.trans (enter_registry s t)

theorem rewrite_depth (s : ProgramScope) (t : SymbolTable) (tree : Node) :
    (s.rewrite t tree).table.depth = (s.enter t).2.depth := by
  have hle := Typing.depth_le_run tree (s.enter t).2
  rw [rewrite_table]
  simp only [SymbolTable.depth, List.length_drop] at hle ⊢
  omega

theorem rewrite_column (hn : ∀ n ∈ tree.nodes, n.assigned? ≠ some name) :
    (s.rewrite t tree).table.column name = (s.enter t).2.column name := by
  have hs := List.suffix_iff_eq_drop.1
    ((Typing.column_kept name).run hn (s.enter t).2 trivial)
  rw [rewrite_table, hs]
  simp only [SymbolTable.column, List.map_drop, List.length_map, SymbolTable.depth]

/-- The frames bind the names that they had bound, and the innermost one can bind more. -/
theorem rewrite_boundNames (s : ProgramScope) (t : SymbolTable) (tree : Node) :
    ∃ new, (s.rewrite t tree).table.boundNames = extendTop (s.enter t).2.boundNames new := by
  have hd := rewrite_depth s t tree
  rcases Nat.eq_zero_or_pos (s.enter t).2.depth with h | h
  · refine ⟨[], ?_⟩
    rw [← SymbolTable.length_boundNames, List.length_eq_zero_iff] at h
    rw [h, extendTop_nil, ← List.length_eq_zero_iff, SymbolTable.length_boundNames, hd,
      ← SymbolTable.length_boundNames, h]
    rfl
  · exact (rewrite_frames s t tree h).2.2.1

/-- **What a rewriting leaves alone.** Whether it fails or not, a rewriting changes neither the
registry nor the number of frames that are open once the program frame is. The innermost of them
loses no name, the others bind just the names that they had bound; and a name that the program
assigns nowhere is bound in each of them to what it was bound to. -/
theorem rewrite_keeps (s : ProgramScope) (t : SymbolTable) (tree : Node) :
    let before := (s.enter t).2
    let after := (s.rewrite t tree).table
    after.registry = t.registry ∧ after.frames.length = before.frames.length ∧
      ∀ i f, before.frames[i]? = some f → ∃ g, after.frames[i]? = some g ∧
        (∀ name ∈ Bindings.names f, name ∈ Bindings.names g) ∧
        (0 < i → Bindings.names g = Bindings.names f) ∧
        ∀ name, (∀ n ∈ tree.nodes, n.assigned? ≠ some name) → g.get? name = f.get? name := by
  intro before after
  have hd : after.frames.length = before.frames.length := rewrite_depth s t tree
  refine ⟨rewrite_registry s t tree, hd, fun i f hf => ?_⟩
  have hg := List.getElem?_eq_getElem (l := after.frames) (hd ▸ (List.getElem?_eq_some_iff.1 hf).1)
  obtain ⟨new, hb⟩ := rewrite_boundNames s t tree
  obtain ⟨hsub, heq⟩ := SymbolTable.names_of_extendTop hf hg hb
  exact ⟨_, hg, hsub, heq, fun name hn => SymbolTable.get?_of_column hf hg (rewrite_column hn)⟩

end ProgramScope

end AutoAwait
