import AutoAwait.Proofs.Typing.Kept
import AutoAwait.Proofs.Typing.Rerun

/-!
# Where the names that a program declares are bound

A declaration of a variable binds its name where it is bound already, or else in the innermost
frame. So after a rewriting every name that the program declares is bound somewhere, and a name that
was bound before is bound in the same frames as before, unless a function has that name.

* `SymbolTable.marks` tells which frames bind a name; `Typing.marks_kept` says what leaves it alone;
* `Node.topNames` are the names that a program declares outside of all nested scopes;
* `ProgramScope.rewrite_declares` and `ProgramScope.rewrite_marks` are the main statements.
-/

namespace AutoAwait

theorem Bindings.binds_put {α : Type} (b : Bindings α) (n m : String) (a : α) :
    (b.put n a).binds m = (decide (n = m) || b.binds m) := by
  rw [binds, get?_put]
  by_cases h : n = m <;> simp [h, binds]

theorem Bindings.mem_names_iff_binds {α : Type} {b : Bindings α} {n : String} :
    n ∈ b.names ↔ b.binds n := by
  refine ⟨fun h => ?_, Bindings.mem_names_of_binds⟩
  induction b with
  | nil => cases h
  | cons p b ih =>
    by_cases hp : p.1 = n
    · simp [binds, get?, hp]
    · have hb : n ∈ names b := by simpa [names, Ne.symm hp] using h
      simpa [binds, get?, hp] using ih hb

/-! ## Frames that bind a name -/

namespace SymbolTable

variable {t u : SymbolTable} {name : String} {ref : TypeRef}

/-- Does each frame bind the name, the innermost frame first? -/
def marks (t : SymbolTable) (name : String) : List Bool := t.frames.map (·.binds name)

/-- Does some frame bind the name? -/
def Binds (t : SymbolTable) (name : String) : Prop := true ∈ t.marks name

theorem marks_eq (t : SymbolTable) (name : String) :
    t.marks name = (t.column name).map (·.isSome) := by
  rw [marks, column, List.map_map]
  rfl

theorem map_binds (fs : List Frame) (name : String) :
    fs.map (·.binds name) = (fs.map Bindings.names).map (decide <| name ∈ ·) := by
  rw [List.map_map]
  refine List.map_congr_left fun f _ => ?_
  rw [Bool.eq_iff_iff, ← Bindings.mem_names_iff_binds]
  exact decide_eq_true_iff.symm

theorem binds_iff : t.Binds name ↔ ∃ ns ∈ t.boundNames, name ∈ ns := by
  simp [Binds, marks, boundNames, Bindings.mem_names_iff_binds]

/-- Binding a name where it is bound already. -/
theorem marks_rebind {fs gs : List Frame} (h : rebind name ref fs = some gs) :
    gs.map (·.binds name) = fs.map (·.binds name) ∧ true ∈ fs.map (·.binds name) := by
  induction fs generalizing gs with
  | nil => cases h
  | cons f fs ih =>
    simp only [rebind] at h
    split at h
    · next hb =>
      cases h
      simp [Bindings.binds_put, hb]
    · obtain ⟨gs, hg, rfl⟩ := Option.map_eq_some_iff.1 h
      obtain ⟨hm, hb⟩ := ih hg
      exact ⟨congrArg (f.binds name :: ·) hm, List.mem_cons_of_mem _ hb⟩

theorem rebind_of_binds (ref : TypeRef) (h : t.Binds name) :
    ∃ fs, rebind name ref t.frames = some fs := by
  obtain ⟨f, hf, hb⟩ := List.mem_map.1 h
  generalize t.frames = fs at hf
  induction fs with
  | nil => cases hf
  | cons g fs ih =>
    unfold rebind
    split
    · exact ⟨_, rfl⟩
    · rcases List.mem_cons.1 hf with rfl | hf
      · contradiction
      · obtain ⟨gs, hg⟩ := ih hf
        exact ⟨g :: gs, by rw [hg]; rfl⟩

/-- A variable that is bound somewhere stays where it is. -/
theorem marks_update (h : t.update name ref = .ok u) (hb : t.Binds name) :
    u.marks name = t.marks name := by
  obtain ⟨fs, hfs⟩ := rebind_of_binds ref hb
  rw [update, hfs] at h
  cases h
  exact (marks_rebind hfs).1

theorem binds_update (h : t.update name ref = .ok u) : u.Binds name := by
  unfold update at h
  split at h
  · next fs hr =>
    cases h
    obtain ⟨hm, hb⟩ := marks_rebind hr
    rwa [← hm] at hb
  · unfold declare at h
    split at h
    · cases h
    · cases h
      simp [Binds, marks, Bindings.binds_put]

/-- What stands on some frames binds what these bind. -/
theorem Binds.of_standsOn (h : t.Binds name) (hs : StandsOn t.boundNames u.boundNames) :
    u.Binds name := by
  obtain ⟨above, extra, hu⟩ := hs
  obtain ⟨ns, hns, hn⟩ := binds_iff.1 h
  refine binds_iff.2 ?_
  rw [hu]
  cases ht : t.boundNames with
  | nil =>
    rw [ht] at hns
    cases hns
  | cons top below =>
    rw [ht] at hns
    rcases List.mem_cons.1 hns with rfl | hns
    · exact ⟨ns ++ extra, by simp [extendTop], List.mem_append_left _ hn⟩
    · exact ⟨ns, by simp [extendTop, hns], hn⟩

end SymbolTable

/-! ## Names that a program declares -/

namespace Node

/-- The name that a declarator declares. -/
def declaredName? (n : Node) : Option String :=
  match n.shape with
  | .declarator id _ => some (id.name?.getD "")
  | _ => none

/-- The first value of a declarator. -/
def initializer? (n : Node) : Option Node :=
  match n.shape with
  | .declarator _ init => init
  | _ => none

/-- The names that a declaration declares. -/
def declaredNames (n : Node) : List String :=
  match n.shape with
  | .declaration _ ds => ds.filterMap declaredName?
  | _ => []

/-- The names that the declarations among the statements of a program declare. -/
def topNames (program : Node) : List String := program.shape.parts.flatMap declaredNames

end Node

namespace Typing

variable {again : Place → Node → StateM Typing Node}
variable {p : Typing} {n : Node} {place : Place} {name : String} {u : SymbolTable}

/-! ### Names that are bound -/

theorem update_marks (h : p.table.Binds name) (t : ShellType) :
    (p.update name t).table.marks name = p.table.marks name := by
  unfold update
  split
  · exact SymbolTable.marks_update ‹_› h
  · rfl

theorem isFunction_of_assigned (h : framesOf n.kind = 1) (hn : n.assigned? = some name) :
    n.kind.isFunction := by
  obtain ⟨loc, type, shape⟩ := n
  cases shape with
  | function | arrow | functionDecl => rfl
  | declarator | assignment => cases h
  | _ => cases hn

/-- Leaving a node that is no function of the name leaves the name bound where it is. -/
theorem Leaves.marks (h : Leaves n p u) (hn : n.kind.isFunction → n.assigned? ≠ some name)
    (hb : true ∈ (p.table.marks name).drop (framesOf n.kind)) :
    u.marks name = (p.table.marks name).drop (framesOf n.kind) := by
  by_cases hne : n.assigned? = some name
  · cases h with
    | stay h => rw [h]; rfl
    | update h ha =>
      obtain rfl := Option.some.inj (ha.symm.trans hne)
      rw [h] at hb ⊢
      exact update_marks hb _
    | close h =>
      rw [h, SymbolTable.marks_eq, closeScope_column, SymbolTable.marks_eq, List.map_drop]
    | define h hq ha => exact absurd hne (hn (isFunction_of_assigned h hne))
  · rw [SymbolTable.marks_eq, h.column hne, List.map_drop, ← SymbolTable.marks_eq]

/-- A name that is bound somewhere stays bound where it is, unless a function has that name. -/
theorem marks_kept (name : String) :
    KeptBy (·.marks name) (true ∈ ·)
      (fun kind assigned => kind.isFunction → assigned ≠ some name) where
  length t := by simp [SymbolTable.marks, SymbolTable.depth]
  more hs hb := hs.subset hb
  enter n _ hp := by
    rw [SymbolTable.marks_eq, ← List.map_drop, (enter_table n hp name).2, ← SymbolTable.marks_eq]
  leave _ _ _ hn hb := (leaves ..).marks hn hb

/-- A walk that succeeds loses no frame and no name. -/
theorem walk_standsOn (hd : 0 < p.table.depth)
    (h : (n.walk visitor again place p).2.failure = none) :
    StandsOn p.table.boundNames (n.walk visitor again place p).2.table.boundNames ∧
      (n.walk visitor again place p).2.table.depth = p.table.depth := by
  have hp := (walk_ok h).1
  -- what was logged before the walk does not matter
  have ha : Agree p { p with log := [] } := ⟨rfl, rfl, rfl⟩
  obtain ⟨hs, -⟩ := walk_agree n ha h
  have hc : Above p.table { p with log := [] } →
      Above p.table (n.walk visitor again place { p with log := [] }).2 :=
    ((carried_above hd).walk n place _).1.1
  refine ⟨?_, (((carried_above hd).walk n place p).1.2 h).2⟩
  rw [hs.table]
  exact (hc ⟨rfl, .refl _, List.forall_mem_nil _, by simp [hp]⟩).stack

/-- What some parts of a node leave bound is bound after all of them. -/
theorem walkParts_binds {D : Node → Prop}
    (hD : ∀ k slot p, D k → 0 < p.table.depth →
      (walkPart again n.kind slot k p).2.failure = none →
        (walkPart again n.kind slot k p).2.table.Binds name)
    (hd : 0 < p.table.depth) (h : (walkParts again n p).2.failure = none)
    (hn : ∃ k ∈ n.shape.parts, D k) : (walkParts again n p).2.table.Binds name := by
  rw [walkParts_snd] at h ⊢
  replace hn : p.table.Binds name ∨ ∃ k ∈ n.shape.kids, D k.2 := by
    obtain ⟨_, hm, hn⟩ := hn
    obtain ⟨k, hk, rfl⟩ := List.mem_map.1 hm
    exact .inr ⟨k, hk, hn⟩
  generalize n.shape.kids = ks at h hn ⊢
  induction ks generalizing p with
  | nil =>
    rcases hn with hn | ⟨k, hk, -⟩
    · exact hn
    · cases hk
  | cons k ks ih =>
    rw [Shape.mapM_cons_run] at h ⊢
    have hk := failure_of_mapM h
    obtain ⟨hs, hdepth⟩ := walk_standsOn hd hk
    refine ih (by rw [hdepth]; exact hd) h ?_
    rcases hn with hn | ⟨l, hl, hn⟩
    · exact .inl (hn.of_standsOn hs)
    · rcases List.mem_cons.1 hl with rfl | hl
      · exact .inl (hD _ _ _ hn hd hk)
      · exact .inr ⟨l, hl, hn⟩

theorem update_ok {t : ShellType} (h : (p.update name t).failure = none) :
    p.table.update name (.type t) = .ok (p.update name t).table := by
  unfold update at h ⊢
  split at h
  · assumption
  · cases h

/-- A declarator binds its name to the type of its first value. -/
theorem walk_declarator (hn : n.declaredName? = some name)
    (h : (n.walk visitor again place p).2.failure = none) :
    let q := (descended again n p).2
    q.table.update name (.type (q.typeOf (descended again n p).1.initializer?)) =
      .ok (n.walk visitor again place p).2.table := by
  obtain ⟨-, hq, he⟩ := walk_ok h
  rw [he] at h ⊢
  have hrel : n.shape.Rel (fun k l => k.name? = l.name?) (descended again n p).1.shape :=
    walkParts_ok hq fun slot k _ q hk => (walk_rewrites k hk).name?
  generalize (descended again n p).2 = q at h ⊢
  generalize (descended again n p).1 = m at h hrel ⊢
  obtain ⟨loc, type, shape⟩ := n
  obtain ⟨loc', type', shape'⟩ := m
  cases hrel with
  | @declarator id id' _ init' hid _ =>
    obtain rfl : id.name?.getD "" = name := Option.some.inj hn
    simp only [leaveNode, leaveDeclarator, Node.initializer?, hid] at h ⊢
    have hu : (q.update (id'.name?.getD "") (q.typeOf init')).failure = none := by
      by_contra hu
      rw [if_pos (Option.ne_none_iff_isSome.1 hu)] at h
      exact hu h
    rw [update_ok hu, hu]
    rfl
  | _ => cases hn

/-- A declaration leaves its names bound. -/
theorem walk_declaration (hn : name ∈ n.declaredNames) (hd : 0 < p.table.depth)
    (h : (n.walk visitor again place p).2.failure = none) :
    (n.walk visitor again place p).2.table.Binds name := by
  obtain ⟨hp, hq, he⟩ := walk_ok h
  rw [he]
  have hk : (descended again n p).1.kind = n.kind := kind_walkParts
  obtain ⟨loc, type, shape⟩ := n
  cases shape with
  | declaration kind ds =>
    have henter : (enter ⟨loc, type, .declaration kind ds⟩ p).2 = p := by
      simp only [enter, hp]
      rfl
    have hb : (descended again ⟨loc, type, .declaration kind ds⟩ p).2.table.Binds name := by
      refine walkParts_binds (D := (·.declaredName? = some name))
        (fun k slot q hk _ hq => SymbolTable.binds_update (walk_declarator hk hq)) ?_ hq ?_
      · rwa [henter]
      · obtain ⟨d, hd, hn⟩ := List.mem_filterMap.1 hn
        exact ⟨d, by simpa [Shape.parts, Shape.kids] using hd, hn⟩
    generalize (descended again ⟨loc, type, .declaration kind ds⟩ p).2 = q at hb ⊢
    generalize (descended again ⟨loc, type, .declaration kind ds⟩ p).1 = m at hk ⊢
    obtain ⟨loc', type', shape'⟩ := m
    cases shape' <;> cases hk
    exact hb
  | _ => cases hn

end Typing

namespace ProgramScope

variable {s : ProgramScope} {t : SymbolTable} {tree : Node} {name : String}

/-- **What a program declares is bound** after a rewriting that succeeds. -/
theorem rewrite_declares (hd : 0 < (s.enter t).2.depth) (h : (s.rewrite t tree).failure = none)
    (hn : name ∈ tree.topNames) : (s.rewrite t tree).table.Binds name := by
  obtain ⟨hf, -, htable, -⟩ := rewrite_ok h
  rw [htable]
  rw [Typing.run_eq] at hf ⊢
  refine Typing.walkParts_binds (D := (name ∈ ·.declaredNames))
    (fun k slot q hk hd hq => Typing.walk_declaration hk hd hq) hd hf ?_
  exact List.mem_flatMap.1 hn

/-- **A name that is bound stays where it is** in a rewriting that succeeds, unless the program has
a function of that name. -/
theorem rewrite_marks (h : (s.rewrite t tree).failure = none)
    (hn : ∀ n ∈ tree.nodes, n.kind.isFunction → n.assigned? ≠ some name)
    (hb : (s.enter t).2.Binds name) :
    (s.rewrite t tree).table.marks name = (s.enter t).2.marks name := by
  have hs := (Typing.marks_kept name).run hn (s.enter t).2 hb
  rw [← (rewrite_ok h).2.2.1] at hs
  refine (hs.eq_of_length ?_).symm
  rw [(Typing.marks_kept name).length, (Typing.marks_kept name).length, rewrite_depth]

end ProgramScope

end AutoAwait
