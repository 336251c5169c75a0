import AutoAwait.Proofs.Tree.Rename
import AutoAwait.Proofs.Typing.Declared
import AutoAwait.Proofs.Typing.InStep

/-!
# Scopes of their own

A variable of an inner scope is out of sight once the scope is closed, so it does not matter what it
is called. Renamed to a name that nothing else has, it leads to the same frames around the scope and
to the same awaits.

* `SymbolTable.Levels` relates the frames of two passes over a scope, in the second of which a
  variable of the scope has another name;
* `Typing.walk_rename` keeps the two passes in step inside the scope,
  `Typing.walk_renameInside` brings them together where it is closed;
* `Typing.walk_replaceAt` takes this to a whole tree.
-/

namespace AutoAwait

namespace Node

/-- The parameters of a function or of a handler. -/
def params (n : Node) : List Node :=
  match n.shape with
  | .function _ params _ | .arrow params _ | .functionDecl _ params _ => params
  | .catchClause param _ => param.toList
  | _ => []

/-- The names that a function or a handler binds in its own frame. -/
def paramNames (n : Node) : List String := n.params.map (·.name?.getD "")

end Node

namespace Node

theorem mem_parts_of_mem_params {n k : Node} (h : k ∈ n.params) : k ∈ n.shape.parts := by
  obtain ⟨loc, type, s⟩ := n
  cases s with
  | function id params body | arrow params body | functionDecl id params body =>
    have hp : k ∈ params := h
    simp [Shape.parts, Shape.kids, hp]
  | catchClause param body =>
    have hp : k ∈ param.toList := h
    simp only [Shape.parts, Shape.kids, List.map_append, Shape.map_snd_opt]
    exact List.mem_append_left _ hp
  | _ => cases h

end Node

namespace SymbolTable

/-- Does the frame `g` bind what `f` binds, with `x` renamed to `y`? -/
def Tracks (x y : String) (f g : Frame) : Prop :=
  ∀ z, z ≠ y → g.get? (renameName x y z) = f.get? z

/-- The frames of two passes over a scope. The frames of the scope, one and `i` more above it, bind
`x` under the name `y` in the second pass; the frames around it are the same. These bind `x` to what
`col` lists, and do not bind `y`; if one of them binds `x`, so does the lowest frame of the scope. -/
inductive Levels (x y : String) (col : List (Option TypeRef)) : Nat → List Frame → List Frame → Prop
  | own {f g outer} (own : Tracks x y f g) (column : outer.map (·.get? x) = col)
      (free : ∀ r ∈ outer.map (·.get? y), r = none)
      (hidden : (∃ r ∈ col, r ≠ none) → f.binds x) : Levels x y col 0 (f :: outer) (g :: outer)
  | above {f g fs gs i} (top : Tracks x y f g) (rest : Levels x y col i fs gs) :
      Levels x y col (i + 1) (f :: fs) (g :: gs)

variable {x y z : String} {col : List (Option TypeRef)} {i : Nat} {ref : TypeRef}
variable {f g : Frame} {fs gs : List Frame}

theorem tracks_nil (x y : String) : Tracks x y [] [] := fun _ _ => rfl

theorem Tracks.put (h : Tracks x y f g) (hz : z ≠ y) (ref : TypeRef) :
    Tracks x y (f.put z ref) (g.put (renameName x y z) ref) := by
  intro w hw
  rw [Bindings.get?_put, Bindings.get?_put, h w hw]
  simp only [renameName_inj hz hw]

theorem Tracks.binds (h : Tracks x y f g) (hz : z ≠ y) :
    g.binds (renameName x y z) = f.binds z := by
  rw [Bindings.binds, h z hz, Bindings.binds]

theorem find?_eq_none (h : ∀ r ∈ fs.map (·.get? z), r = none) : find? z fs = none :=
  List.findSome?_eq_none_iff.2 fun f hf => h _ (List.mem_map.2 ⟨f, hf, rfl⟩)

theorem rebind_eq_none (h : ∀ r ∈ fs.map (·.get? z), r = none) : rebind z ref fs = none := by
  induction fs with
  | nil => rfl
  | cons f fs ih =>
    rw [List.map_cons, List.forall_mem_cons] at h
    rw [rebind, Bindings.binds, h.1, ih h.2]
    rfl

namespace Levels

/-- A variable that the lowest frame of the scope does not bind is bound in no frame around it. -/
theorem not_hidden (hidden : (∃ r ∈ col, r ≠ none) → f.binds x) (hf : f.get? x = none) :
    ∀ r ∈ col, r = none := by
  intro r hr
  by_contra hne
  have hb := hidden ⟨r, hr, hne⟩
  rw [Bindings.binds, hf] at hb
  cases hb

theorem find? (h : Levels x y col i fs gs) (hz : z ≠ y) :
    SymbolTable.find? (renameName x y z) gs = SymbolTable.find? z fs := by
  induction h with
  | above top _ ih =>
    rw [SymbolTable.find?, SymbolTable.find?, List.findSome?_cons, List.findSome?_cons, top z hz]
    split
    · rfl
    · exact ih
  | @own f g outer own column free hidden =>
    rw [SymbolTable.find?, SymbolTable.find?, List.findSome?_cons, List.findSome?_cons, own z hz]
    split
    · rfl
    · next hf =>
      by_cases hx : z = x
      · subst hx
        have hnone := find?_eq_none (column.symm ▸ not_hidden hidden hf)
        rw [renameName_self]
        exact (find?_eq_none free).trans hnone.symm
      · rw [renameName_of_ne y hx]

/-- Binding a name anew where it is bound keeps the levels. -/
theorem rebind (h : Levels x y col i fs gs) (hz : z ≠ y) (ref : TypeRef) :
    Option.Rel (Levels x y col i) (SymbolTable.rebind z ref fs)
      (SymbolTable.rebind (renameName x y z) ref gs) := by
  induction h with
  | @above f g fs gs i top rest ih =>
    rw [SymbolTable.rebind, SymbolTable.rebind, top.binds hz]
    split
    · exact .some (.above (top.put hz ref) rest)
    · generalize SymbolTable.rebind z ref fs = a, SymbolTable.rebind (renameName x y z) ref gs = b
        at ih
      cases ih with
      | none => exact .none
      | some ih => exact .some (.above top ih)
  | @own f g outer own column free hidden =>
    rw [SymbolTable.rebind, SymbolTable.rebind, own.binds hz]
    split
    · refine .some (.own (own.put hz ref) column free fun hc => ?_)
      rw [Bindings.binds_put, hidden hc, Bool.or_true]
    · next hf =>
      by_cases hx : z = x
      · subst hx
        have hnone := not_hidden hidden (by simpa [Bindings.binds] using hf)
        rw [renameName_self, rebind_eq_none (column.symm ▸ hnone), rebind_eq_none free]
        exact .none
      · rw [renameName_of_ne y hx]
        cases ho : SymbolTable.rebind z ref outer with
        | none => exact .none
        | some outer' =>
          refine .some (.own own ((column_rebind ho hx).trans column) ?_ hidden)
          rw [column_rebind ho hz]
          exact free

/-- Binding a name in the innermost frame keeps the levels. -/
theorem put (h : Levels x y col i (f :: fs) (g :: gs)) (hz : z ≠ y) (ref : TypeRef) :
    Levels x y col i (f.put z ref :: fs) (g.put (renameName x y z) ref :: gs) := by
  cases h with
  | above top rest => exact .above (top.put hz ref) rest
  | own own column free hidden =>
    refine .own (own.put hz ref) column free fun hc => ?_
    rw [Bindings.binds_put, hidden hc, Bool.or_true]

theorem exists_cons (h : Levels x y col i fs gs) :
    ∃ f fs' g gs', fs = f :: fs' ∧ gs = g :: gs' := by
  cases h with
  | above => exact ⟨_, _, _, _, rfl, rfl⟩
  | own => exact ⟨_, _, _, _, rfl, rfl⟩

theorem pop (h : Levels x y col (i + 1) fs gs) :
    ∃ f fs' g gs', fs = f :: fs' ∧ gs = g :: gs' ∧ Levels x y col i fs' gs' := by
  cases h with
  | above _ rest => exact ⟨_, _, _, _, rfl, rfl, rest⟩

/-- The frames around the scope. -/
theorem outer (h : Levels x y col 0 fs gs) :
    gs.drop 1 = fs.drop 1 ∧ (fs.drop 1).map (·.get? x) = col := by
  cases h with
  | own _ column => exact ⟨rfl, column⟩

/-- What the frames around a scope bind its variable to. -/
theorem column_drop (h : Levels x y col i fs gs) :
    (fs.drop (fs.length - col.length)).map (·.get? x) = col := by
  have hd : col.length < fs.length ∧ (fs.drop (fs.length - col.length)).map (·.get? x) = col := by
    induction h with
    | @own f g outer _ column _ _ =>
      subst column
      simp
    | above _ _ ih =>
      rw [List.length_cons, Nat.succ_sub (Nat.le_of_lt ih.1), List.drop_succ_cons]
      exact ⟨Nat.lt_succ_of_lt ih.1, ih.2⟩
  exact hd.2

end Levels

end SymbolTable

namespace Typing

variable {x y : String} {col : List (Option TypeRef)} {i : Nat} {p q : Typing}

/-- Two passes over a scope, in the second of which `x` is called `y`. -/
structure Renamed (x y : String) (col : List (Option TypeRef)) (i : Nat) (p q : Typing) : Prop where
  failure : p.failure = none ∧ q.failure = none
  registry : q.table.registry = p.table.registry
  returns : q.returns = p.returns
  levels : SymbolTable.Levels x y col i p.table.frames q.table.frames

theorem renamed_inStep (hx : x ≠ "") (hy : y ≠ "") (col : List (Option TypeRef)) :
    InStep (renameName x y) (· ≠ y) (Renamed x y col) where
  unnamed := ⟨hy.symm, renameName_of_ne y hx.symm⟩
  failure h := h.failure
  registry h := h.registry
  returns h := h.returns
  lookup h hz := by
    rw [SymbolTable.lookup, SymbolTable.lookup, h.levels.find? hz, SymbolTable.unknown,
      SymbolTable.unknown, h.registry]
  agree h hp hq := by
    refine ⟨?_, ?_, ?_, ?_⟩
    · rw [← hp.failure, ← hq.failure]
      exact h.failure
    · rw [← hp.table, ← hq.table]
      exact h.registry
    · rw [← hp.returns, ← hq.returns]
      exact h.returns
    · rw [← hp.table, ← hq.table]
      exact h.levels
  withReturns h r := ⟨h.failure, h.registry, rfl, h.levels⟩
  declare {i p q z} h hz t _ := by
    obtain ⟨f, fs, g, gs, hf, hg⟩ := h.levels.exists_cons
    have hl := h.levels
    rw [hf, hg] at hl
    simp only [declare, SymbolTable.declare, hf, hg]
    exact ⟨h.failure, h.registry, h.returns, hl.put hz _⟩
  update {i p q z} h hz t _ := by
    obtain ⟨f, fs, g, gs, hf, hg⟩ := h.levels.exists_cons
    have hl := h.levels
    have hr := h.levels.rebind hz (.type t)
    rw [hf, hg] at hl
    simp only [update, SymbolTable.update, SymbolTable.declare, hf, hg] at hr ⊢
    generalize SymbolTable.rebind z (.type t) (f :: fs) = a,
      SymbolTable.rebind (renameName x y z) (.type t) (g :: gs) = b at hr
    cases hr with
    | none => exact ⟨h.failure, h.registry, h.returns, hl.put hz _⟩
    | some hr => exact ⟨h.failure, h.registry, h.returns, hr⟩
  openScope h kind kind' :=
    ⟨h.failure, h.registry, h.returns, .above (SymbolTable.tracks_nil x y) h.levels⟩
  closeScope {i p q} h kind kind' := by
    obtain ⟨f, fs, g, gs, hf, hg, hl⟩ := h.levels.pop
    simp only [closeScope, SymbolTable.pop, hf, hg]
    exact ⟨h.failure, h.registry, h.returns, hl⟩

/-! ## Inside the scope -/

variable {again : Place → Node → StateM Typing Node} {n k : Node} {place : Place}

theorem attributeName?_relabel (x y : String) (k : Node) (computed : Bool) :
    attributeName? (k.relabel x y) computed = attributeName? k computed := by
  rcases k.relabel_cases x y with ⟨h, -⟩ | ⟨h, hn⟩
  · rw [h]
  · rw [h, Node.rename_eq]
    obtain ⟨loc, type, s⟩ := k
    cases s <;> first | rfl | cases hn

theorem attributeName?_rename (x y : String) (k : Node) :
    attributeName? (k.rename x y) true = attributeName? k true := by
  rw [Node.rename_eq]
  obtain ⟨loc, type, s⟩ := k
  cases s <;> rfl

theorem named_rename (x : String) (h : k.name? ≠ some y) :
    k.Named (renameName x y) (· ≠ y) (k.rename x y) :=
  ⟨k.name?_rename x y, fun _ hz he => h (he ▸ hz)⟩

/-- A tree and its parts with a variable renamed. -/
theorem twin_rename (x : String) (h : ∀ m ∈ n.nodes, m.name? ≠ some y) :
    n.shape.Twin (renameName x y) (· ≠ y) (Node.Named (renameName x y) (· ≠ y))
      (n.rename x y).shape := by
  have hn := h n (Node.mem_nodes_self n)
  have hpart : ∀ k ∈ n.shape.parts, k.name? ≠ some y := fun k hk =>
    h k (Node.mem_nodes_of_part hk (Node.mem_nodes_self k))
  have hrel : n.shape.Rel (Node.Named (renameName x y) (· ≠ y)) (n.shape.map (Node.rename x y)) := by
    refine (Shape.rel_map _ _).of_part? fun slot a b ha hb => ?_
    rw [Shape.part?_map, ha] at hb
    obtain rfl := Option.some.inj hb
    exact named_rename x (hpart a (Shape.mem_parts_of_part? ha))
  obtain ⟨loc, type, s⟩ := n
  cases s with
  | identifier z =>
    rw [Node.rename_eq]
    exact .identifier fun hz => hn (hz ▸ rfl)
  | property k v short =>
    rw [Node.rename_eq]
    exact .property
  | member o k computed =>
    rw [Node.rename_eq]
    refine .member (named_rename x (hpart o (by simp [Shape.parts, Shape.kids, Shape.one]))) ?_
    cases computed
    · exact attributeName?_relabel x y k false
    · exact attributeName?_rename x y k
  | _ =>
    rw [Node.shape_rename x y (by simp [Node.kind, Shape.kind])]
    exact .other hrel (by simp [Shape.kind])

/-- Is a part renamed, or a name that stands for no variable? -/
def RenamedPart (x y : String) (shown : Prop) (k l : Node) : Prop :=
  l = k.rename x y ∨ l = k ∧ k.kind = .identifier ∧ ¬shown

theorem renamedPart_relabel (x y : String) {shown : Prop} (h : ¬shown) (k : Node) :
    RenamedPart x y shown k (k.relabel x y) := by
  rcases k.relabel_cases x y with ⟨hl, hk⟩ | ⟨hl, -⟩
  · exact .inr ⟨hl, hk, h⟩
  · exact .inl hl

theorem kids_rename (x y : String) (n : Node) :
    List.Forall₂ (fun k l => k.1 = l.1 ∧ RenamedPart x y (n.shape.showsType k.1) k.2 l.2)
      n.shape.kids (n.rename x y).shape.kids := by
  obtain ⟨loc, type, s⟩ := n
  cases s with
  | identifier z => exact .nil
  | property k v short =>
    rw [Node.rename_eq]
    exact .cons ⟨rfl, renamedPart_relabel x y nofun k⟩ (.cons ⟨rfl, .inl rfl⟩ .nil)
  | member o k computed =>
    rw [Node.rename_eq]
    refine .cons ⟨rfl, .inl rfl⟩ (.cons ⟨rfl, ?_⟩ .nil)
    cases computed
    · exact renamedPart_relabel x y nofun k
    · exact .inl rfl
  | _ =>
    rw [Node.shape_rename x y (by simp [Node.kind, Shape.kind])]
    exact (Shape.rel_map _ _).kids.imp fun _ _ h => ⟨h.1, .inl h.2⟩

variable {m : Node}

/-- Parts that are renamed, or names that stand for no variable, stay in step. -/
theorem partTwins_of_renamed {shown : Slot → Prop} (hx : x ≠ "") (hy : y ≠ "")
    (hkids : List.Forall₂ (fun k l => k.1 = l.1 ∧ RenamedPart x y (shown k.1) k.2 l.2)
      n.shape.kids m.shape.kids)
    (ih : ∀ k ∈ n.shape.parts, ∀ {i p q place}, Renamed x y col i p q →
      (k.walk visitor again place p).2.failure = none →
        InStep.Twins (Renamed x y col) i True k (k.rename x y) (k.walk visitor again place p)
          ((k.rename x y).walk visitor again place q)) (p : Typing) :
    InStep.PartTwins again (Renamed x y col) shown n m p := by
  intro slot k l hk hl i q h hs
  have hr := Shape.lookup_rel (R := fun slot k l => RenamedPart x y (shown slot) k l) hkids slot
  rw [show n.shape.kids.lookup slot = some k from hk,
    show m.shape.kids.lookup slot = some l from hl] at hr
  cases hr with
  | some hr =>
    rcases hr with rfl | ⟨rfl, hkind, hshown⟩
    · exact (ih k (Shape.mem_parts_of_part? hk) h hs).imp fun _ => trivial
    · exact ((renamed_inStep hx hy col).walk_identifier hkind h).imp hshown

/-- **A variable of a scope under another name.** Inside the scope the passes stay in step. -/
theorem walk_rename (hx : x ≠ "") (hy : y ≠ "") (n : Node) (hn : ∀ m ∈ n.nodes, m.name? ≠ some y)
    {place : Place} (h : Renamed x y col i p q)
    (hs : (n.walk visitor again place p).2.failure = none) :
    InStep.Twins (Renamed x y col) i True n (n.rename x y) (n.walk visitor again place p)
      ((n.rename x y).walk visitor again place q) := by
  induction n using Node.induction generalizing i p q place with
  | step n ih =>
    have hkids := kids_rename x y n
    refine (renamed_inStep hx hy col).walk (twin_rename x hn) (hkids.imp fun _ _ h => h.1) ?_ h hs
    exact partTwins_of_renamed hx hy hkids (fun k hk _ _ _ _ h hs =>
      ih k hk (fun m hm => hn m (Node.mem_nodes_of_part hk hm)) h hs) _

theorem partTwins_rename {shown : Slot → Prop} (hx : x ≠ "") (hy : y ≠ "")
    (hn : ∀ k ∈ n.nodes, k.name? ≠ some y)
    (hkids : List.Forall₂ (fun k l => k.1 = l.1 ∧ RenamedPart x y (shown k.1) k.2 l.2)
      n.shape.kids m.shape.kids) (p : Typing) :
    InStep.PartTwins again (Renamed x y col) shown n m p :=
  partTwins_of_renamed hx hy hkids (fun k hk _ _ _ _ h hs =>
    walk_rename hx hy k (fun m hm => hn m (Node.mem_nodes_of_part hk hm)) h hs) p

/-! ## Around the scope -/

/-- What the frame of a node binds once the node is entered: its parameters, of which nothing is
known. -/
def paramFrame (t : ShellType) (params : List Node) : Frame :=
  params.foldl (fun f k => f.put (k.name?.getD "") (.type t)) []

theorem declareParams_eq {f : Frame} {fs : List Frame} (params : List Node)
    (h : p.table.frames = f :: fs) :
    params.foldl declareParam p =
      { p with table := { p.table with
        frames := params.foldl (fun f k => f.put (k.name?.getD "") (.type p.table.unknown)) f :: fs } } := by
  induction params generalizing p f with
  | nil => rw [List.foldl_nil, List.foldl_nil, ← h]
  | cons k params ih =>
    have hd : p.declareParam k = { p with table := { p.table with
        frames := f.put (k.name?.getD "") (.type p.table.unknown) :: fs } } := by
      simp only [declareParam, declare, SymbolTable.declare, h]
    rw [List.foldl_cons, List.foldl_cons, hd, ih rfl]
    rfl

/-- The state in which the pass has entered a node that opens a frame. -/
theorem enter_scope (hk : framesOf n.kind = 1) (h : p.failure = none) :
    (enter n p).2.failure = none ∧ (enter n p).2.table =
      { p.table with frames := paramFrame p.table.unknown n.params :: p.table.frames } ∧
      (enter n p).2.returns = if n.kind.isFunction then [] :: p.returns else p.returns := by
  obtain ⟨loc, type, s⟩ := n
  simp only [enter, h, Option.isSome_none, Bool.false_eq_true, if_false]
  cases s <;> try cases hk
  case function id params body | arrow params body | functionDecl id params body =>
    simp only [enterFunction]
    rw [declareParams_eq params rfl]
    exact ⟨h, rfl, rfl⟩
  case catchClause param body =>
    have hd := declareParams_eq (p := p.openScope .catchClause) param.toList rfl
    change (param.toList.foldl declareParam (p.openScope .catchClause)).failure = none ∧
      (param.toList.foldl declareParam (p.openScope .catchClause)).table = _ ∧
      (param.toList.foldl declareParam (p.openScope .catchClause)).returns = _
    rw [hd]
    exact ⟨h, rfl, rfl⟩
  all_goals exact ⟨h, rfl, rfl⟩

theorem tracks_paramFrame (hx : x ≠ "") (hy : y ≠ "") (t : ShellType) {params : List Node}
    (hn : ∀ k ∈ params, k.name? ≠ some y) :
    SymbolTable.Tracks x y (paramFrame t params) (paramFrame t (params.map (Node.rename x y))) := by
  have hf : ∀ {f g}, SymbolTable.Tracks x y f g → SymbolTable.Tracks x y
      (params.foldl (fun f k => f.put (k.name?.getD "") (.type t)) f)
      ((params.map (Node.rename x y)).foldl (fun f k => f.put (k.name?.getD "") (.type t)) g) := by
    induction params with
    | nil => exact id
    | cons k params ih =>
      intro f g h
      rw [List.forall_mem_cons] at hn
      obtain ⟨hl, hz⟩ := (renamed_inStep hx hy []).nameText (named_rename x hn.1)
      refine ih hn.2 ?_
      change SymbolTable.Tracks x y _ (g.put ((k.rename x y).name?.getD "") _)
      rw [hl]
      exact h.put hz _
  exact hf (SymbolTable.tracks_nil x y)

theorem binds_paramFrame (t : ShellType) {params : List Node}
    (hn : x ∈ params.map (·.name?.getD "")) : (paramFrame t params).binds x := by
  have hf : ∀ {f : Frame}, (f.binds x ∨ x ∈ params.map (·.name?.getD "")) →
      (params.foldl (fun f k => f.put (k.name?.getD "") (.type t)) f).binds x := by
    clear hn
    induction params with
    | nil => simp
    | cons k params ih =>
      intro f h
      refine ih ?_
      rw [Bindings.binds_put]
      rw [List.map_cons, List.mem_cons] at h
      rcases h with h | rfl | h
      · exact .inl (by simp [h])
      · exact .inl (by simp)
      · exact .inr h
  exact hf (.inr hn)

theorem params_renameInside (x y : String) (n : Node) :
    (n.renameInside x y).params = n.params.map (Node.rename x y) := by
  obtain ⟨loc, type, s⟩ := n
  cases s with
  | catchClause param body => cases param <;> rfl
  | _ => rfl

theorem kind_renameInside (x y : String) (n : Node) : (n.renameInside x y).kind = n.kind := by
  obtain ⟨loc, type, s⟩ := n
  cases s <;> rfl

theorem kids_renameInside (x y : String) (n : Node) :
    List.Forall₂ (fun k l => k.1 = l.1 ∧ RenamedPart x y (k.1.key ≠ "id") k.2 l.2)
      n.shape.kids (n.renameInside x y).shape.kids := by
  have hmany : ∀ key (params : List Node), List.Forall₂
      (fun (k l : Slot × Node) => k.1 = l.1 ∧ RenamedPart x y (k.1.key ≠ "id") k.2 l.2)
      (Shape.many key params) (Shape.many key (params.map (Node.rename x y))) := fun key params =>
    (Shape.forall₂_many key (R := fun k l => l = k.rename x y)
      (List.forall₂_map_right_iff.2 (List.forall₂_same.2 fun _ _ => rfl))).imp
        fun _ _ h => ⟨h.1, .inl h.2⟩
  obtain ⟨loc, type, s⟩ := n
  cases s with
  | function id params body =>
    refine List.rel_append (List.rel_append ?_ (hmany _ params)) (.cons ⟨rfl, .inl rfl⟩ .nil)
    cases id with
    | none => exact .nil
    | some id => exact .cons ⟨rfl, renamedPart_relabel x y (by simp) id⟩ .nil
  | functionDecl id params body =>
    exact List.rel_append (List.rel_append (.cons ⟨rfl, renamedPart_relabel x y (by simp) id⟩ .nil)
      (hmany _ params)) (.cons ⟨rfl, .inl rfl⟩ .nil)
  | _ => exact (Shape.rel_map _ _).kids.imp fun _ _ h => ⟨h.1, .inl h.2⟩

/-- Closing the scope brings two passes together. -/
theorem agreeing_closeScope (h : Renamed x y col 0 p q) (hi : i ≤ col.length)
    (kind kind' : NodeKind) :
    Agreeing i (p.closeScope kind) (q.closeScope kind') := by
  obtain ⟨f, fs, g, gs, hf, hg⟩ := h.levels.exists_cons
  obtain ⟨hsame, hcol⟩ := h.levels.outer
  rw [hf, hg] at hsame
  rw [hf] at hcol
  obtain rfl : gs = fs := hsame
  simp only [closeScope, SymbolTable.pop, hf, hg, h.registry]
  refine ⟨⟨rfl, h.returns.symm, ?_⟩, h.failure.1, ?_⟩
  · exact h.failure.1.trans h.failure.2.symm
  · show i ≤ gs.length
    rwa [← hcol, List.length_map] at hi

theorem not_binds (h : ¬p.table.Binds y) : ∀ r ∈ p.table.frames.map (·.get? y), r = none := by
  intro r hr
  obtain ⟨f, hf, rfl⟩ := List.mem_map.1 hr
  by_contra hne
  exact h (List.mem_map.2 ⟨f, hf, Option.isSome_iff_ne_none.2 hne⟩)

/-- **Entering the scope.** The passes are in step if the new name is bound nowhere, and the old one
nowhere but in the frame of the scope, if that binds it. -/
theorem renamed_enter (hx : x ≠ "") (hy : y ≠ "") (hk : framesOf n.kind = 1)
    (hn : ∀ m ∈ n.nodes, m.name? ≠ some y) (hfree : ¬p.table.Binds y)
    (hidden : p.table.Binds x → x ∈ n.paramNames) (ha : Agree p q) (hp : p.failure = none) :
    Renamed x y (p.table.column x) 0 (enter n p).2 (enter (n.renameInside x y) q).2 := by
  have hk' : framesOf (n.renameInside x y).kind = 1 := by rwa [kind_renameInside]
  obtain ⟨hf, ht, hr⟩ := enter_scope hk hp
  obtain ⟨hf', ht', hr'⟩ := enter_scope hk' (ha.failure ▸ hp)
  refine ⟨⟨hf, hf'⟩, ?_, ?_, ?_⟩
  · rw [ht, ht', ha.table]
  · rw [hr, hr', kind_renameInside, ha.returns]
  · rw [ht, ht', params_renameInside, ← ha.table]
    refine .own (tracks_paramFrame hx hy _ fun k hk => ?_) rfl (not_binds hfree) fun ⟨r, hr, hne⟩ => ?_
    · exact hn k (Node.mem_nodes_of_part (Node.mem_parts_of_mem_params hk) (Node.mem_nodes_self k))
    · obtain ⟨f, hf, rfl⟩ := List.mem_map.1 hr
      exact binds_paramFrame _ (hidden (List.mem_map.2 ⟨f, hf, Option.isSome_iff_ne_none.2 hne⟩))

/-- Leaving a function of the scope, whose own name is not renamed. -/
theorem left_function {id id' : Option Node} {body body' : Node} (h : Renamed x y col 0 p q)
    (hi : i ≤ col.length) (hk : m.kind = n.kind)
    (hid : Option.Rel (fun k l => l.name? = k.name?) id id') (hb : body'.kind = body.kind)
    (ht : body'.type = body.type) (hs : (p.leaveFunction n id body).2.failure = none) :
    InStep.Left Agreeing i (p.leaveFunction n id body) (q.leaveFunction m id' body') := by
  refine agreeing_inStep.leaveFunction (agreeing_closeScope h hi _ _) hk (fun hc t => ?_) hb ht hs
  cases hid with
  | none => exact .none
  | some hid =>
    refine .some fun hf => ?_
    rw [hid]
    exact agreeing_inStep.declare hc trivial t hf

/-- **Leaving the scope.** The states agree again, and the types are the same. -/
theorem left_scope {s t : Shape Node} {loc : Position} {type : Option ShellType}
    (hk : framesOf n.kind = 1) (hn : n.shape.Rel (fun _ _ => True) s)
    (hm : (n.renameInside x y).shape.Rel (fun _ _ => True) t)
    (hparts : ∀ slot, (n.part? slot = none ∧ (n.renameInside x y).part? slot = none) ∨
      ∃ k l, InStep.PartPair (Renamed x y col) 0 (·.key ≠ "id") n (n.renameInside x y) s t slot k l)
    (h : Renamed x y col 0 p q) (hi : i ≤ col.length)
    (hs : (p.leaveNode awaitPlace ⟨loc, type, s⟩).2.failure = none) :
    InStep.Left Agreeing i (p.leaveNode awaitPlace ⟨loc, type, s⟩)
      (q.leaveNode awaitPlace ⟨loc, type, t⟩) := by
  obtain ⟨nloc, ntype, ns⟩ := n
  have hpair : ∀ slot {k l a b}, (slot, k) ∈ ns.kids →
      (slot, l) ∈ (Node.renameInside x y ⟨nloc, ntype, ns⟩).shape.kids → (slot, a) ∈ s.kids →
      (slot, b) ∈ t.kids → b.kind = a.kind ∧ (slot.key ≠ "id" → b.type = a.type) ∧
        k.name? = a.name? ∧ l.name? = b.name? := by
    intro slot k l a b hk hl ha hb
    obtain ⟨hkind, htype, hka, hlb⟩ := InStep.part_of_pairs hparts
      (Shape.mem_kids_iff_part?.1 hk) (Shape.mem_kids_iff_part?.1 hl)
      (Shape.mem_kids_iff_part?.1 ha) (Shape.mem_kids_iff_part?.1 hb)
    exact ⟨hkind, htype, hka.name?, hlb.name?⟩
  cases ns <;> try cases hk
  case block | «while» | «for» | forOf | catchClause =>
    cases hn
    cases hm
    exact InStep.left_typed (agreeing_closeScope h hi _ _)
      (agreeing_inStep.unknown (agreeing_closeScope h hi _ _))
  case arrow params body =>
    cases hn with
    | @arrow _ _ _ b =>
      cases hm with
      | @arrow _ _ _ b' =>
        obtain ⟨hb, ht, -⟩ := hpair ⟨"body", none⟩ (k := body) (l := body.rename x y) (a := b)
          (b := b') (by simp [Shape.kids, Shape.one]) (List.mem_append_right _ (.head _))
          (by simp [Shape.kids, Shape.one]) (by simp [Shape.kids, Shape.one])
        exact left_function h hi rfl .none hb (ht (by simp)) hs
  case function id params body =>
    cases hn with
    | @function _ id₁ _ _ _ b hid =>
      cases hm with
      | @function _ id₂ _ _ _ b' hid' =>
        obtain ⟨hb, ht, -⟩ := hpair ⟨"body", none⟩ (k := body) (l := body.rename x y) (a := b)
          (b := b') (by simp [Shape.kids, Shape.one]) (List.mem_append_right _ (.head _))
          (by simp [Shape.kids, Shape.one]) (by simp [Shape.kids, Shape.one])
        refine left_function h hi rfl ?_ hb (ht (by simp)) hs
        cases hid with
        | none =>
          cases hid'
          exact .none
        | @some i a _ =>
          cases hid' with
          | @some _ b _ =>
            obtain ⟨-, -, ha, hb⟩ := hpair ⟨"id", none⟩ (k := i) (l := i.relabel x y) (a := a)
              (b := b) (.head _) (.head _) (.head _) (.head _)
            exact .some (hb.symm.trans ((i.name?_relabel x y).trans ha))
  case functionDecl id params body =>
    cases hn with
    | @functionDecl _ a _ _ _ b =>
      cases hm with
      | @functionDecl _ a' _ _ _ b' =>
        obtain ⟨hb, ht, -⟩ := hpair ⟨"body", none⟩ (k := body) (l := body.rename x y) (a := b)
          (b := b') (by simp [Shape.kids, Shape.one]) (List.mem_append_right _ (.head _))
          (by simp [Shape.kids, Shape.one]) (by simp [Shape.kids, Shape.one])
        obtain ⟨-, -, ha, ha'⟩ := hpair ⟨"id", none⟩ (k := id) (l := id.relabel x y) (a := a)
          (b := a') (.head _) (.head _) (.head _) (.head _)
        exact left_function h hi rfl (.some (ha'.symm.trans ((id.name?_relabel x y).trans ha))) hb
          (ht (by simp)) hs

theorem not_returnsPromise (hk : framesOf n.kind = 1) : n.returnsPromise = false := by
  refine Bool.eq_false_iff.2 fun h => ?_
  rw [Node.kind_of_returnsPromise h] at hk
  cases hk

/-- **A scope whose variable has another name.** After the scope the passes agree, they have awaited the
same calls, and the variable is what it was before, unless the node is a function of that name. -/
theorem walk_renameInside (hx : x ≠ "") (hy : y ≠ "") (hk : framesOf n.kind = 1)
    (hn : ∀ m ∈ n.nodes, m.name? ≠ some y) (hfree : ¬p.table.Binds y)
    (hidden : p.table.Binds x → x ∈ n.paramNames) (h : Agreeing i p q)
    (hs : (n.walk visitor again place p).2.failure = none) :
    InStep.Twins Agreeing i True n (n.renameInside x y) (n.walk visitor again place p)
        ((n.renameInside x y).walk visitor again place q) ∧
      (n.assigned? ≠ some x →
        (n.walk visitor again place p).2.table.column x = p.table.column x) := by
  obtain ⟨ha, hp, hi⟩ := h
  have hS := renamed_inStep hx hy (p.table.column x)
  have hkids := kids_renameInside x y n
  have hkind := kind_renameInside x y n
  have hw : (n.walk visitor again awaitPlace p).2.failure = none := by rwa [walk_state awaitPlace place]
  obtain ⟨-, hd, he⟩ := walk_ok hw
  have htwins : InStep.PartTwins again (Renamed x y (p.table.column x)) (·.key ≠ "id") n
      (n.renameInside x y) (enter n p).2 :=
    partTwins_rename hx hy hn hkids _
  obtain ⟨hstate, hparts⟩ := hS.parts hkind (hkids.imp fun _ _ h => h.1) htwins
    (renamed_enter hx hy hk hn hfree hidden ha hp) hd
  have hi' : i ≤ (p.table.column x).length := by
    rwa [SymbolTable.length_column]
  have hrel := Shape.rel_traverse (walkPart again n.kind) n.shape (enter n p).2
  have hrel' := Shape.rel_traverse (walkPart again (n.renameInside x y).kind)
    (n.renameInside x y).shape (enter (n.renameInside x y) q).2
  have hf : ((descended again n p).2.leaveNode awaitPlace (descended again n p).1).2.failure =
      none := he ▸ hw
  have hleft := left_scope hk hrel hrel' hparts hstate hi' hf
  refine ⟨InStep.walk_of_left hkind hs (ha.failure ▸ hp) (hS.failure hstate).2 hparts ?_ hleft
    (agreeing_inStep.failure hleft.1).2, fun hassigned => ?_⟩
  · rw [not_returnsPromise, not_returnsPromise]
    · rw [← hk]
      exact congrArg framesOf hrel.kind.symm
    · rw [← hk, ← hkind]
      exact congrArg framesOf hrel'.kind.symm
  · rw [walk_column hs hassigned, hk]
    refine Eq.trans ?_ hstate.levels.outer.2
    rw [SymbolTable.column, List.map_drop]

end Typing

end AutoAwait
