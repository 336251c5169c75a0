import AutoAwait.Proofs.Typing.Lockstep

/-!
# The names that a program mentions

The pass depends on a table only through the names that the program mentions. Two tables with one
registry and as many frames, which bind those names alike in each frame, lead to the same error or
to the same program with the same types, and they bind those names alike afterwards.

* `SymbolTable.AgreesOn` compares two tables frame by frame, on some names;
* `ProgramScope.rewrite_agreesOn` is the main statement.
-/

namespace AutoAwait

/-- Does a tree mention a name? -/
def Node.Mentions (n : Node) (name : String) : Prop := ∃ m ∈ n.nodes, m.name? = some name

namespace SymbolTable

variable {R : TypeRef → TypeRef → Prop} {K : String → Prop} {t u : SymbolTable} {r : Registry}
variable {a b : List (Option TypeRef)}

/-- Two tables with one registry and as many frames, where frames in the same place bind each name
that `K` holds of to what `R` relates, or do not bind it. -/
structure AgreesOn (R : TypeRef → TypeRef → Prop) (K : String → Prop) (t u : SymbolTable) :
    Prop where
  registry : u.registry = t.registry
  length : u.frames.length = t.frames.length
  frames : ∀ (i : Nat) (f g : Frame), t.frames[i]? = some f → u.frames[i]? = some g →
    ∀ name, K name → Option.Rel R (f.get? name) (g.get? name)

/-! ## Columns of names that are bound alike -/

theorem visible_rel (h : List.Forall₂ (Option.Rel R) a b) :
    Option.Rel R (visible a) (visible b) := by
  induction h with
  | nil => exact .none
  | cons h _ ih =>
    cases h with
    | none => exact ih
    | some h => exact .some h

theorem isSome_visible (h : List.Forall₂ (Option.Rel R) a b) :
    (visible b).isSome = (visible a).isSome := by
  have hv := visible_rel h
  generalize visible a = x, visible b = y at hv
  cases hv <;> rfl

theorem rebound_rel (hrefl : ∀ v, R v v) (ref : TypeRef) (h : List.Forall₂ (Option.Rel R) a b) :
    List.Forall₂ (Option.Rel R) (rebound ref a) (rebound ref b) := by
  induction h with
  | nil => exact .nil
  | cons h hs ih =>
    cases h with
    | none => exact .cons .none ih
    | some h => exact .cons (.some (hrefl ref)) hs

theorem updated_rel (hrefl : ∀ v, R v v) (ref : TypeRef) (h : List.Forall₂ (Option.Rel R) a b) :
    List.Forall₂ (Option.Rel R) (updated ref a) (updated ref b) := by
  rw [updated, updated, isSome_visible h]
  split
  · exact rebound_rel hrefl ref h
  · refine .cons (.some (hrefl ref)) ?_
    cases h with
    | nil => exact .nil
    | cons _ hs => exact hs

/-- Each frame binds the name in one table as in the other, if `K` holds of it. -/
def SameColumns (R : TypeRef → TypeRef → Prop) (K : String → Prop) : ColumnRel :=
  fun _ name a b => K name → List.Forall₂ (Option.Rel R) a b

theorem sameColumns_lockstep (hrefl : ∀ v, R v v)
    (hresolve : ∀ v w, R v w → r.resolve w = r.resolve v) (K : String → Prop) :
    Lockstep r (fun _ name => K name) (SameColumns R K) where
  sees {s z a b} h hk := by
    have hv := visible_rel (h hk)
    rw [shows, shows]
    generalize visible a = x, visible b = y at hv
    cases hv with
    | none => rfl
    | some hv => exact hresolve _ _ hv
  push h hk := .cons .none (h hk)
  pop h hk := (List.forall₂_cons.1 (h hk)).2
  declare h ref hk := .cons (.some (hrefl ref)) (List.forall₂_cons.1 (h hk)).2
  update h ref hk := updated_rel hrefl ref (h hk)
  other h _ _ := h

theorem AgreesOn.paired (h : AgreesOn R K t u) (s : Scopes) :
    Paired t.registry (SameColumns R K) s t u where
  registry := ⟨rfl, h.registry⟩
  depth := h.length
  columns z hz := by
    rw [List.forall₂_iff_get]
    refine ⟨by rw [length_column, length_column]; exact h.length.symm, fun i hi hi' => ?_⟩
    simp only [column, List.get_eq_getElem, List.getElem_map]
    exact h.frames i _ _ (List.getElem?_eq_getElem _) (List.getElem?_eq_getElem _) z hz

theorem Paired.agreesOn {s : Scopes} (h : Paired r (SameColumns R K) s t u) : AgreesOn R K t u where
  registry := h.registry.2.trans h.registry.1.symm
  length := h.depth
  frames i f g hf hg z hz := by
    have hc := List.forall₂_iff_get.1 (h.columns z hz)
    obtain ⟨hi, rfl⟩ := List.getElem?_eq_some_iff.1 hf
    obtain ⟨hi', rfl⟩ := List.getElem?_eq_some_iff.1 hg
    have := hc.2 i (by rw [length_column]; exact hi) (by rw [length_column]; exact hi')
    simpa only [column, List.get_eq_getElem, List.getElem_map] using this

/-- Tables that agree do so once as many frames are closed in both. -/
theorem AgreesOn.drop (h : AgreesOn R K t u) (i : Nat) :
    AgreesOn R K { t with frames := t.frames.drop i } { u with frames := u.frames.drop i } where
  registry := h.registry
  length := by rw [List.length_drop, List.length_drop, h.length]
  frames j f g hf hg := by
    rw [List.getElem?_drop] at hf hg
    exact h.frames (i + j) f g hf hg

theorem AgreesOn.enter (h : AgreesOn R K t u) (s : ProgramScope) :
    (s.enter u).1 = (s.enter t).1 ∧ AgreesOn R K (s.enter t).2 (s.enter u).2 := by
  cases s with
  | unopened =>
    refine ⟨congrArg ProgramScope.open h.length, h.registry, congrArg Nat.succ h.length, ?_⟩
    intro i f g hf hg name hn
    cases i with
    | zero =>
      cases hf
      cases hg
      exact .none
    | succ i => exact h.frames i f g hf hg name hn
  | «open» place => exact ⟨rfl, h⟩
  | closed frame => exact ⟨rfl, h⟩

end SymbolTable

open SymbolTable (AgreesOn)

/-- The pass over a program from two tables that agree on the names that it mentions. -/
theorem Typing.run_agreesOn {program : Node} {t u : SymbolTable}
    (h : AgreesOn Eq program.Mentions t u) :
    (run program u).2.failure = (run program t).2.failure ∧
      (run program u).1 = (run program t).1 ∧
      AgreesOn Eq program.Mentions (run program t).2.table (run program u).2.table := by
  have hC : Lockstep t.registry (fun _ name => program.Mentions name)
      (SymbolTable.SameColumns Eq program.Mentions) :=
    SymbolTable.sameColumns_lockstep (fun _ => rfl) (fun _ _ h => h ▸ rfl) _
  have hl := run_lockstep hC False program (h.paired [[]]) fun l hl _ =>
    Node.exists_of_mem_partLookups hl
  obtain ⟨s, -, hp⟩ := hl.beside.table
  exact ⟨hl.beside.failure, hl.alike.eq (hl.type trivial), hp.agreesOn⟩

namespace ProgramScope

/-- **Only the names that a program mentions matter.** Take two tables with one registry and as many
frames, which bind each name that a program mentions alike in each frame. Rewriting the program from
them ends with the same error, if any, and with the same tree, types included; and the tables that
it leaves bind those names alike in each frame. -/
theorem rewrite_agreesOn (s : ProgramScope) {t u : SymbolTable} {tree : Node}
    (h : AgreesOn Eq tree.Mentions t u) :
    (s.rewrite u tree).failure = (s.rewrite t tree).failure ∧
      (s.rewrite u tree).tree = (s.rewrite t tree).tree ∧
      (s.rewrite u tree).scope = (s.rewrite t tree).scope ∧
      AgreesOn Eq tree.Mentions (s.rewrite t tree).table (s.rewrite u tree).table := by
  obtain ⟨hscope, henter⟩ := h.enter s
  obtain ⟨hfailure, htree, htable⟩ := Typing.run_agreesOn henter
  obtain ⟨ht, htf, hts⟩ := rewrite_outcome s t tree
  obtain ⟨hu, huf, hus⟩ := rewrite_outcome s u tree
  refine ⟨by rw [htf, huf, hfailure], by rw [ht, hu, htree], by rw [hts, hus, hscope], ?_⟩
  rw [rewrite_table, rewrite_table]
  simp only [SymbolTable.depth, htable.length, henter.length]
  exact htable.drop _

/-- A binding of another name does not change what becomes of the script `f()`. -/
theorem rewrite_agreesOn_of_call :
    let f : ShellType := .function none .absent true
    let call : Node := ⟨.start, none, .call ⟨.start, none, .identifier "f"⟩ []⟩
    let tree : Node := ⟨.start, none, .program [⟨.start, none, .expression call⟩]⟩
    let t : SymbolTable := .ofScope (.ofTypes []) [("f", .type f)]
    let u : SymbolTable := .ofScope (.ofTypes []) [("g", .type f), ("f", .type f)]
    AgreesOn Eq tree.Mentions t u ∧
      (unopened.rewrite u tree).tree = (unopened.rewrite t tree).tree := by
  intro f call tree t u
  have h : AgreesOn Eq tree.Mentions t u := by
    have hn : ∀ m ∈ tree.nodes, m.name? = none ∨ m.name? = some "f" := by decide
    refine ⟨rfl, rfl, fun i p q hp hq name ⟨m, hm, hname⟩ => ?_⟩
    obtain rfl : name = "f" := by
      rcases hn m hm with h | h
      · rw [hname] at h
        cases h
      · exact Option.some.inj (hname.symm.trans h)
    cases i with
    | zero =>
      cases hp
      cases hq
      exact .some rfl
    | succ i => cases hp
  exact ⟨h, (rewrite_agreesOn unopened h).2.1⟩

end ProgramScope

end AutoAwait
