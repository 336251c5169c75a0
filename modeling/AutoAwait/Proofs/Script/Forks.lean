import AutoAwait.Proofs.Results
import AutoAwait.Proofs.Script.Writers
import AutoAwait.Proofs.Typing.Kept

/-!
# Forks of a table

The tables of a session share one registry, and every fork starts from a copy of a frame. As long as
no type is registered, a table does not notice the others: whatever they are asked for in between,
it answers its own steps as it would alone.

* `Session.own` are the steps of one table among those of a session, `Session.seen` what they show,
  and `Session.shown` what the steps of a session with one table show. A step is left as it is,
  except that a tree which the table does not keep is handed over to it (`Session.given`);
* `Effect` is what a step does, which depends on the table and the program frame of its writer only;
  `Session.does` lists all that a step can do;
* `Session.Mirrors` relates a session with many tables to one with one of them, the trees that are
  kept in both included; each step preserves it: `Session.Mirrors.other` and `Session.Mirrors.same`;
  `Session.Mirrors.part_eq` is the run;
* `Session.forks_isolated` is the main statement.
-/

namespace AutoAwait

/-- What a step on a table shows. -/
structure Sighting where
  answer : Except SessionError SessionAnswer
  /-- What was logged, in order. -/
  log : List Event
  /-- The table after the step. -/
  table : SymbolTable

namespace Session

/-- Performs a step for a writer. -/
def perform [CharNames] (s : Session) (c : String × SessionStep) : SessionOutcome := c.2.run s c.1

/-- The session after some steps. -/
def performed [CharNames] (s : Session) (steps : List (String × SessionStep)) : Session :=
  steps.foldl (fun s c => (s.perform c).session) s

/-- The writer whose kept tree a step replaces, if it replaces one. -/
def keeper [CharNames] (s : Session) (c : String × SessionStep) : Option String :=
  match c.2 with
  | .create .. | .rewrite _ => some c.1
  | .transform _ => if (s.perform c).answer.isOk then some c.1 else none
  | .rerun treeOf => (s.writer treeOf).tree.map fun _ => treeOf
  | _ => none

/-- What a step is for the table `i`, if it is a step of that table. Forking a table is not a step
of it. The trees that are kept for the writers `mine` are the table's own; any other tree that is
rewritten again is handed over as it is then, and where none is kept nothing is rewritten. -/
def given (s : Session) (i : Nat) (mine : List String) :
    String × SessionStep → Option (String × SessionStep)
  | (name, .create of fork) =>
    if fork = false ∧ (s.writer of).table = i then some (name, .create of false) else none
  | (name, .rerun treeOf) =>
    if (s.writer name).table = i then
      (s.writer treeOf).tree.map fun tree =>
        (name, if treeOf ∈ mine then .rerun treeOf else .rewrite tree)
    else none
  | c => if (s.writer c.1).table = i then some c else none

/-- The writers whose kept trees are a table's own, after a step that replaces the tree of the
writer `k`, while the table on its own replaces that of `k'`. -/
def stillMine (mine : List String) (k k' : Option String) : List String :=
  if k = k' then k.toList ++ mine else mine.filter fun w => k ≠ some w ∧ k' ≠ some w

/-- The steps of the table `i` among those of a session, each with what it shows. -/
def part [CharNames] (i : Nat) (s : Session) (mine : List String) :
    List (String × SessionStep) → List ((String × SessionStep) × Sighting)
  | [] => []
  | c :: steps =>
    let d := s.given i mine c
    let o := s.perform c
    (d.map fun d => (d, ⟨o.answer, o.log, o.session.tables.table i⟩)).toList ++
      part i o.session (stillMine mine (s.keeper c) (d.bind s.keeper)) steps

/-- The steps of the table `i` among those of a session; no tree is its own before them. -/
def own [CharNames] (i : Nat) (s : Session) (steps : List (String × SessionStep)) :
    List (String × SessionStep) :=
  (s.part i [] steps).map (·.1)

/-- What the steps of the table `i` show. -/
def seen [CharNames] (i : Nat) (s : Session) (steps : List (String × SessionStep)) :
    List Sighting :=
  (s.part i [] steps).map (·.2)

/-- What the steps of a session with one table show. -/
def shown [CharNames] (s : Session) : List (String × SessionStep) → List Sighting
  | [] => []
  | c :: steps =>
    let o := s.perform c
    ⟨o.answer, o.log, o.session.tables.table 0⟩ :: shown o.session steps

/-- Among the steps of the session `s` those of the table `i` show what they show in the session
`a`, where they are the only ones, and they leave the same table. -/
structure Isolated [CharNames] (i : Nat) (s a : Session) (steps : List (String × SessionStep)) :
    Prop where
  seen : s.seen i steps = a.shown (s.own i steps)
  table : (s.performed steps).tables.table i = (a.performed (s.own i steps)).tables.table 0

end Session

/-! ## Tables -/

namespace Tables

variable {ts : Tables} {i j : Nat} {u : SymbolTable}

theorem table_put_other (h : j ≠ i) (hr : u.registry = ts.registry) :
    (ts.put j u).table i = ts.table i := by
  simp [table, put, List.getD_eq_getElem?_getD, h, hr]

/-- Putting a table where it is changes nothing. -/
theorem put_table (ts : Tables) (i : Nat) : ts.put i (ts.table i) = ts := by
  have hset : ts.frameStacks.set i (ts.frameStacks.getD i []) = ts.frameStacks := by
    rcases Nat.lt_or_ge i ts.frameStacks.length with h | h
    · simp [List.getD_eq_getElem?_getD, h]
    · exact List.set_eq_of_length_le h
  simp only [put, table, hset]

theorem length_fork (ts : Tables) (j : Nat) :
    (ts.fork j).1.frameStacks.length = ts.frameStacks.length + 1 := List.length_append

theorem table_fork (h : i < ts.frameStacks.length) (j : Nat) :
    (ts.fork j).1.table i = ts.table i := by
  simp [table, fork, List.getD_eq_getElem?_getD, List.getElem?_append_left h]

theorem table_fork_new (ts : Tables) (j : Nat) :
    (ts.fork j).1.table ts.frameStacks.length = (ts.table j).fork := by
  simp [table, fork, List.getD_eq_getElem?_getD, SymbolTable.fork]

end Tables

namespace SymbolTable

variable {t u : SymbolTable} {name : String} {ref : TypeRef}

theorem declare_registry (h : t.declare name ref = .ok u) : u.registry = t.registry := by
  unfold declare at h
  split at h <;> cases h
  rfl

theorem update_registry (h : t.update name ref = .ok u) : u.registry = t.registry := by
  unfold update at h
  split at h
  · cases h
    rfl
  · exact declare_registry h

theorem pop_registry {f : Frame} (h : t.pop = .ok (f, u)) : u.registry = t.registry := by
  unfold pop at h
  split at h <;> cases h
  rfl

theorem unwind_registry {d : Int} (h : t.unwind d = .ok u) : u.registry = t.registry := by
  unfold unwind at h
  split at h <;> cases h
  rfl

end SymbolTable

/-- Only registering a type changes the registry. -/
theorem TableStep.run_registry {step : TableStep}
    (hs : ∀ name type, step ≠ .register name type) {t u : SymbolTable} {a : TableAnswer}
    (h : step.run t = .ok (a, u)) : u.registry = t.registry := by
  cases step with
  | push | lookup _ | lookupType _ | resolve _ | unknown | summary | describe =>
    cases h
    rfl
  | register name type => exact absurd rfl (hs name type)
  | pop =>
    obtain ⟨⟨f, v⟩, hv, he⟩ := map_ok.1 h
    cases he
    exact SymbolTable.pop_registry hv
  | declare name ref =>
    obtain ⟨v, hv, he⟩ := map_ok.1 h
    cases he
    exact SymbolTable.declare_registry hv
  | update name ref =>
    obtain ⟨v, hv, he⟩ := map_ok.1 h
    cases he
    exact SymbolTable.update_registry hv
  | unwind d =>
    obtain ⟨v, hv, he⟩ := map_ok.1 h
    cases he
    exact SymbolTable.unwind_registry hv

theorem ProgramScope.compile_registry [CharNames] (s : ProgramScope) (t : SymbolTable)
    (source : String) :
    (s.compile t source).table.registry = t.registry := by
  unfold compile
  split
  · rfl
  · exact rewrite_registry s t _

/-! ## What a step does -/

/-- What a step does to the table of its writer and to the program frames of the writers over it,
and what it shows. -/
structure Effect where
  table : SymbolTable
  /-- The program frame of a writer over the table, from its name and its program frame before. -/
  scope : String → ProgramScope → ProgramScope
  answer : Except SessionError SessionAnswer
  log : List Event
  /-- The tree that is kept, if one is. -/
  tree : Option Node

/-- The writer whose kept tree is replaced, if one is, where it is kept for `owner`. -/
def Effect.keeper (e : Effect) (owner : String) : Option String := e.tree.map fun _ => owner

/-- The step of a writer has led to this effect, where a tree is kept for the writer `owner`. -/
structure Effect.Of (e : Effect) (s : Session) (name owner : String) (o : SessionOutcome) :
    Prop where
  tables : o.session.tables = s.tables.put (s.writer name).table e.table
  table : ∀ w, (o.session.writer w).table = (s.writer w).table
  scope : ∀ w, (o.session.writer w).scope =
    if (s.writer w).table = (s.writer name).table then e.scope w (s.writer w).scope
    else (s.writer w).scope
  answer : o.answer = e.answer
  log : o.log = e.log
  tree : ∀ w, (o.session.writer w).tree =
    if e.keeper owner = some w then e.tree else (s.writer w).tree

/-- What rewriting a tree answers. -/
def Rewriting.answer (r : Rewriting) : Except SessionError SessionAnswer :=
  match r.failure with
  | none => .ok (.rewritten r.tree)
  | some e => .error (.compile (.typing e))

/-- What compiling a script answers: the tree if it is kept, and else its code. -/
def Compilation.answer (r : Compilation) (keepTree : Bool) : Except SessionError SessionAnswer :=
  match r.result with
  | .error e => .error (.compile e)
  | .ok tree => if keepTree then .ok (.rewritten tree) else .ok (.code (formatScript tree))

/-- The tree that is kept of a compiled script, if trees are kept. -/
def Compilation.kept (r : Compilation) (keepTree : Bool) : Option Node :=
  if keepTree then r.result.toOption else none

namespace Effect

variable {e : Effect} {s : Session} {name : String} {o : SessionOutcome}

/-- A step that keeps something of its writer over the table that it leaves. -/
theorem of_keep {v : SessionWriter} (hv : v.table = (s.writer name).table)
    (hs : o.session =
      Session.keep { s with tables := s.tables.put (s.writer name).table e.table } name v)
    (hscope : ∀ w scope, e.scope w scope = if name = w then v.scope else scope)
    (ha : o.answer = e.answer) (hl : o.log = e.log)
    (ht : v.tree = e.tree.or (s.writer name).tree) : e.Of s name name o where
  tables := by rw [hs]; rfl
  table w := by
    rw [hs, Session.writer_keep]
    split
    · next hw => rw [← hw, hv]
    · rfl
  scope w := by
    rw [hs, Session.writer_keep, hscope]
    split
    · next hw => rw [← hw, if_pos rfl]
    · exact (ite_self _).symm
  answer := ha
  log := hl
  tree w := by
    rw [hs, Session.writer_keep, keeper]
    split
    · next hw =>
      subst hw
      rw [ht]
      cases e.tree <;> simp
    · next hw =>
      rw [if_neg fun h => ?_]
      · rfl
      · obtain ⟨_, -, rfl⟩ := Option.map_eq_some_iff.1 h
        exact hw rfl

/-- A tree can be kept for any writer besides. -/
theorem Of.keep_tree (h : e.Of s name name o) (he : e.tree = none) (owner : String) (tree : Node) :
    Of { e with tree := some tree } s name owner { o with
      session := o.session.keep owner { o.session.writer owner with tree := some tree } } where
  tables := h.tables
  table w := by
    rw [← h.table w, Session.writer_keep]
    split
    · next hw => rw [← hw]
    · rfl
  scope w := by
    rw [← h.scope w, Session.writer_keep]
    split
    · next hw => rw [← hw]
    · rfl
  answer := h.answer
  log := h.log
  tree w := by
    have hw := h.tree w
    rw [keeper, he, Option.map_none, if_neg (Option.some_ne_none _).symm] at hw
    rw [Session.writer_keep]
    simp only [keeper, Option.map_some, Option.some.injEq]
    split
    · rfl
    · exact hw

/-- A step that only asks. -/
theorem of_unchanged {t : SymbolTable} (ht : s.tableOf name = t) (hs : o.session = s) :
    (⟨t, fun _ scope => scope, o.answer, o.log, none⟩ : Effect).Of s name name o where
  tables := by rw [hs, ← ht, Session.tableOf, Tables.put_table]
  table w := by rw [hs]
  scope w := by rw [hs, ite_self]
  answer := rfl
  log := rfl
  tree w := by rw [hs, keeper, Option.map_none, if_neg (Option.some_ne_none _).symm]

end Effect

namespace Session

/-- What becomes of a writer when the table of a number changes. -/
def follow (i : Nat) (before after : SymbolTable) (w : SessionWriter) : SessionWriter :=
  if w.table = i then { w with scope := w.scope.follow before after } else w

theorem writer_change (s : Session) (name : String) (t : SymbolTable) (w : String) :
    (s.change name t).writer w =
      follow (s.writer name).table (s.tableOf name) t (s.writer w) := by
  have hmap : (s.change name t).writers =
      s.writers.map fun p => (p.1, follow (s.writer name).table (s.tableOf name) t p.2) := by
    refine List.map_congr_left fun p _ => ?_
    unfold follow
    split <;> rfl
  rw [writer, hmap, Bindings.get?_map]
  cases h : s.writers.get? w with
  | some v =>
    have hw : s.writer w = v := by rw [writer, h]; rfl
    rw [hw]
    rfl
  | none =>
    -- a name that has no writer yet stands for one with nothing open
    have hw : s.writer w = ⟨0, .unopened, none⟩ := by rw [writer, h]; rfl
    rw [hw]
    exact (ite_self _).symm

/-- Rewriting a tree has an effect, whoever keeps the tree. -/
theorem rewrite_effect (name : String) (tree : Node) (scope : ProgramScope) (t : SymbolTable) :
    ∃ e : Effect, e.table.registry = t.registry ∧ e.tree.isSome ∧
      ∀ s : Session, (s.writer name).scope = scope → s.tableOf name = t →
        ∀ owner, e.Of s name owner (s.rewrite name owner tree) := by
  let r := scope.rewrite t tree
  refine ⟨⟨r.table, fun w other => if name = w then r.scope else other, r.answer, r.log,
    some r.tree⟩, ProgramScope.rewrite_registry scope t tree, rfl, ?_⟩
  rintro s rfl rfl owner
  refine Effect.Of.keep_tree (o := ⟨Session.keep
    { s with tables := s.tables.put (s.writer name).table r.table } name
      { s.writer name with scope := r.scope }, _, _⟩)
    (e := ⟨r.table, fun w other => if name = w then r.scope else other, r.answer, r.log, none⟩)
    ?_ rfl owner r.tree
  exact Effect.of_keep (v := { s.writer name with scope := r.scope })
    rfl rfl (fun _ _ => rfl) rfl rfl rfl

/-- A step that changes a table has an effect on all writers over it. -/
theorem change_effect (s : Session) (name : String) (t : SymbolTable)
    (answer : Except SessionError SessionAnswer) (log : List Event) :
    Effect.Of ⟨t, fun _ other => other.follow (s.tableOf name) t, answer, log, none⟩ s name name
      ⟨s.change name t, answer, log⟩ where
  tables := rfl
  table w := by
    rw [writer_change, follow]
    split <;> rfl
  scope w := by
    rw [writer_change, follow]
    split <;> rfl
  answer := rfl
  log := rfl
  tree w := by
    rw [if_neg (by simp [Effect.keeper]), writer_change, follow]
    split <;> rfl

end Session

namespace SessionStep

/-- Compiling a script has an effect. -/
theorem compile_effect [CharNames] (name source : String) (keepTree : Bool) (scope : ProgramScope)
    (t : SymbolTable) :
    ∃ e : Effect, e.table.registry = t.registry ∧ e.tree.isSome = (keepTree && e.answer.isOk) ∧
      ∀ s : Session, (s.writer name).scope = scope → s.tableOf name = t →
        e.Of s name name (runCompile s name source keepTree) := by
  refine ⟨⟨(scope.compile t source).table,
    fun w other => if name = w then (scope.compile t source).scope else other,
    (scope.compile t source).answer keepTree, (scope.compile t source).log,
    (scope.compile t source).kept keepTree⟩, ProgramScope.compile_registry scope t source, ?_, ?_⟩
  · simp only [Compilation.answer, Compilation.kept]
    cases (scope.compile t source).result <;> cases keepTree <;> rfl
  rintro s rfl rfl
  simp only [runCompile, Session.tableOf, Compilation.answer, Compilation.kept]
  generalize (s.writer name).scope.compile (s.tables.table (s.writer name).table) source = r
  cases r.result with
  | error f =>
    exact Effect.of_keep (v := { s.writer name with scope := r.scope })
      rfl rfl (fun _ _ => rfl) rfl rfl (by cases keepTree <;> rfl)
  | ok tree =>
    cases keepTree with
    | false =>
      exact Effect.of_keep (v := { s.writer name with scope := r.scope })
        rfl rfl (fun _ _ => rfl) rfl rfl rfl
    | true =>
      exact Effect.of_keep (v := { s.writer name with scope := r.scope, tree := some tree })
        rfl rfl (fun _ _ => rfl) rfl rfl rfl

/-- A step of a writer over its table. -/
def isOwn : SessionStep → Bool
  | .create _ _ | .rerun _ => false
  | _ => true

theorem run_effect [CharNames] {step : SessionStep} (ho : step.isOwn)
    (hr : ∀ name type, step ≠ .table (.register name type)) (name : String) (scope : ProgramScope)
    (t : SymbolTable) :
    ∃ e : Effect, e.table.registry = t.registry ∧
      ∀ s : Session, (s.writer name).scope = scope → s.tableOf name = t →
        e.Of s name name (step.run s name) ∧ s.keeper (name, step) = e.keeper name := by
  cases step with
  | create _ _ | rerun _ => cases ho
  | compile source =>
    obtain ⟨e, hreg, hkept, he⟩ := compile_effect name source false scope t
    have hnone : e.tree = none := by simpa using hkept
    refine ⟨e, hreg, fun s hs ht => ⟨he s hs ht, ?_⟩⟩
    rw [Effect.keeper, hnone]
    rfl
  | transform source =>
    obtain ⟨e, hreg, hkept, he⟩ := compile_effect name source true scope t
    refine ⟨e, hreg, fun s hs ht => ⟨he s hs ht, ?_⟩⟩
    have hok : (s.perform (name, .transform source)).answer.isOk = e.tree.isSome := by
      rw [hkept, Bool.true_and, ← (he s hs ht).answer]
      rfl
    simp only [Session.keeper, Effect.keeper, hok]
    cases e.tree <;> rfl
  | rewrite tree =>
    obtain ⟨e, hreg, hkept, he⟩ := Session.rewrite_effect name tree scope t
    obtain ⟨kept, hkept⟩ := Option.isSome_iff_exists.1 hkept
    refine ⟨e, hreg, fun s hs ht => ⟨he s hs ht name, ?_⟩⟩
    rw [Effect.keeper, hkept]
    rfl
  | bindings =>
    refine ⟨⟨t, fun _ other => other, .ok (.bindings (scope.bindings t)), scope.bindingsLog t,
      none⟩, rfl, ?_⟩
    rintro s rfl rfl
    exact ⟨Effect.of_unchanged (o := SessionStep.bindings.run s name) rfl rfl, rfl⟩
  | table step =>
    cases hstep : step.run t with
    | error f =>
      refine ⟨⟨t, fun _ other => other, .error (.scope f), step.log t, none⟩, rfl, ?_⟩
      rintro s rfl rfl
      simp only [run, hstep]
      exact ⟨Effect.of_unchanged (o := ⟨s, .error (.scope f), step.log (s.tableOf name)⟩) rfl rfl,
        rfl⟩
    | ok r =>
      obtain ⟨a, u⟩ := r
      refine ⟨⟨u, fun _ other => other.follow t u, .ok (.table a), step.log t, none⟩,
        TableStep.run_registry (fun n ty he => hr n ty (congrArg _ he)) hstep, ?_⟩
      rintro s rfl rfl
      simp only [run, hstep]
      exact ⟨s.change_effect name u (.ok (.table a)) (step.log (s.tableOf name)), rfl⟩

end SessionStep

/-! ## One table of a session -/

namespace Session

/-- The table `i` of the session `s` and its writers are the first table of the session `a` and
writers of that, and the same trees are kept for the writers `mine`. -/
structure Mirrors (i : Nat) (mine : List String) (s a : Session) : Prop where
  table : s.tables.table i = a.tables.table 0
  lt : i < s.tables.frameStacks.length
  pos : 0 < a.tables.frameStacks.length
  writer : ∀ w, (s.writer w).table = i →
    (a.writer w).table = 0 ∧ (a.writer w).scope = (s.writer w).scope
  tree : ∀ w ∈ mine, (a.writer w).tree = (s.writer w).tree

variable {i j : Nat} {mine : List String} {s a : Session} {e : Effect} {name owner owner' : String}
  {o o' : SessionOutcome}

/-- Trees stay the same for the writers that they still are the table's own of. -/
theorem tree_stillMine {x x' y y' : String → Option Node} {k k' : Option String} {n : Option Node}
    (h : ∀ w ∈ mine, x' w = x w) (hy : ∀ w, y w = if k = some w then n else x w)
    (hy' : ∀ w, y' w = if k' = some w then n else x' w) :
    ∀ w ∈ stillMine mine k k', y' w = y w := by
  intro w hw
  rw [hy, hy']
  unfold stillMine at hw
  split at hw
  · next hk =>
    subst hk
    split
    · rfl
    · next hne =>
      rcases List.mem_append.1 hw with hw | hw
      · exact absurd (Option.mem_toList.1 hw) hne
      · exact h w hw
  · obtain ⟨hw, hne⟩ := List.mem_filter.1 hw
    obtain ⟨hne, hne'⟩ := of_decide_eq_true hne
    rw [if_neg hne, if_neg hne', h w hw]

namespace Mirrors

theorem tableOf (h : Mirrors i mine s a) (hn : (s.writer name).table = i) :
    a.tableOf name = s.tableOf name := by
  rw [Session.tableOf, Session.tableOf, hn, (h.writer name hn).1, h.table]

/-- A step of another table is not noticed, except that a tree may be its own then. -/
theorem effect_other (h : Mirrors i mine s a) (hn : (s.writer name).table ≠ i)
    (hr : e.table.registry = s.tables.registry) (he : e.Of s name owner o) :
    Mirrors i (stillMine mine (e.keeper owner) none) o.session a where
  table := by rw [he.tables, Tables.table_put_other hn hr, h.table]
  lt := by rw [he.tables, Tables.length_put]; exact h.lt
  pos := h.pos
  writer w hw := by
    rw [he.table] at hw
    rw [he.scope, if_neg fun hj => hn (hj.symm.trans hw)]
    exact h.writer w hw
  tree := tree_stillMine h.tree he.tree fun w =>
    (if_neg (Option.some_ne_none w).symm).symm

/-- A step of the table has the same effect in both sessions. -/
theorem effect_same (h : Mirrors i mine s a) (hn : (s.writer name).table = i)
    (he : e.Of s name owner o) (he' : e.Of a name owner' o') :
    Mirrors i (stillMine mine (e.keeper owner) (e.keeper owner')) o.session o'.session where
  table := by
    rw [he.tables, he'.tables, hn, (h.writer name hn).1, Tables.table_put h.lt,
      Tables.table_put h.pos]
  lt := by rw [he.tables, Tables.length_put]; exact h.lt
  pos := by rw [he'.tables, Tables.length_put]; exact h.pos
  writer w hw := by
    rw [he.table] at hw
    obtain ⟨ht, hs⟩ := h.writer w hw
    rw [he.scope, he'.scope, he'.table, hw, hn, ht, (h.writer name hn).1, if_pos rfl, if_pos rfl,
      hs]
    exact ⟨rfl, rfl⟩
  tree := tree_stillMine h.tree he.tree he'.tree

/-- A writer that is put over another table is none of this table any more. -/
theorem keep_other (h : Mirrors i mine s a) {v : SessionWriter} (hv : v.table ≠ i) :
    Mirrors i (stillMine mine (some name) none) (s.keep name v) a where
  table := h.table
  lt := h.lt
  pos := h.pos
  writer w hw := by
    rw [writer_keep] at hw ⊢
    split at hw
    · exact absurd hw hv
    · next hne => rw [if_neg hne]; exact h.writer w hw
  tree := by
    refine tree_stillMine h.tree (n := v.tree) (fun w => ?_) fun w =>
      (if_neg (Option.some_ne_none w).symm).symm
    rw [writer_keep]
    simp only [Option.some.injEq]
    split <;> rfl

/-- A writer that is put over the table in both sessions, with the same tree. -/
theorem keep_same (h : Mirrors i mine s a) {v v' : SessionWriter} (hv' : v'.table = 0)
    (hs : v'.scope = v.scope) (ht : v'.tree = v.tree) :
    Mirrors i (stillMine mine (some name) (some name)) (s.keep name v) (a.keep name v') where
  table := h.table
  lt := h.lt
  pos := h.pos
  writer w hw := by
    rw [writer_keep] at hw ⊢
    rw [writer_keep]
    split at hw
    · next he => rw [if_pos he, if_pos he]; exact ⟨hv', hs⟩
    · next hne => rw [if_neg hne, if_neg hne]; exact h.writer w hw
  tree := by
    refine tree_stillMine h.tree (n := v.tree) (fun w => ?_) fun w => ?_
    all_goals
      rw [writer_keep]
      simp only [Option.some.injEq]
      split
    exacts [rfl, rfl, ht, rfl]

theorem fork (h : Mirrors i mine s a) (j : Nat) :
    Mirrors i mine { s with tables := (s.tables.fork j).1 } a where
  table := by rw [← h.table]; exact Tables.table_fork h.lt j
  lt := by
    rw [Tables.length_fork]
    exact Nat.lt_succ_of_lt h.lt
  pos := h.pos
  writer := h.writer
  tree := h.tree

end Mirrors

/-- Does a step register no type? -/
def Unregistering (c : String × SessionStep) : Prop :=
  ∀ name type, c.2 ≠ .table (.register name type)

theorem given_of_isOwn {c : String × SessionStep} (ho : c.2.isOwn) :
    s.given i mine c = if (s.writer c.1).table = i then some c else none := by
  obtain ⟨name, step⟩ := c
  cases step <;> first | rfl | cases ho

/-- All that a step of a writer can do: a fork is added for it, it is put over a table, nothing
happens, or the step has an effect. In another session the step `d mine` has that effect, if the
trees that are kept for the writers `mine` are the same there. -/
inductive Does [CharNames] (s : Session) (name : String) : SessionStep → Prop
  | fork (of : String) : Does s name (.create of true)
  | join (of : String) : Does s name (.create of false)
  | idle {treeOf : String} (nothing : (s.writer treeOf).tree = none) : Does s name (.rerun treeOf)
  | effect {step : SessionStep} (d : List String → SessionStep) (owner : String)
      (owner' : List String → String) {e : Effect}
      (given : ∀ i mine, s.given i mine (name, step) =
        if (s.writer name).table = i then some (name, d mine) else none)
      (registry : e.table.registry = s.tables.registry)
      (led : e.Of s name owner (step.run s name))
      (kept : s.keeper (name, step) = e.keeper owner)
      (kept' : ∀ mine, s.keeper (name, d mine) = e.keeper (owner' mine))
      (alike : ∀ mine, ∀ a : Session, (a.writer name).scope = (s.writer name).scope →
        a.tableOf name = s.tableOf name → (∀ w ∈ mine, (a.writer w).tree = (s.writer w).tree) →
          e.Of a name (owner' mine) ((d mine).run a name)) : Does s name step

/-- Rewriting a kept tree again is rewriting that tree, whoever keeps it then. -/
theorem does_rerun [CharNames] (s : Session) (name : String) {treeOf : String} {tree : Node}
    (ht : (s.writer treeOf).tree = some tree) : Does s name (.rerun treeOf) := by
  obtain ⟨e, hr, hkept, he⟩ :=
    rewrite_effect name tree (s.writer name).scope (s.tableOf name)
  obtain ⟨kept, hkept⟩ := Option.isSome_iff_exists.1 hkept
  have hrun : ∀ a : Session, (a.writer treeOf).tree = some tree →
      (SessionStep.rerun treeOf).run a name = a.rewrite name treeOf tree := fun a ha => by
    simp only [SessionStep.run, ha]
  have hkeeper : s.keeper (name, .rerun treeOf) = e.keeper treeOf := by
    simp only [keeper, ht, Effect.keeper, hkept, Option.map_some]
  refine .effect (fun mine => if treeOf ∈ mine then .rerun treeOf else .rewrite tree) treeOf
    (fun mine => if treeOf ∈ mine then treeOf else name) (fun i mine => ?_) hr ?_ hkeeper
    (fun mine => ?_) fun mine a hs htable hmine => ?_
  · simp only [given, ht, Option.map_some]
  · rw [hrun s ht]
    exact he s rfl rfl treeOf
  · split
    · exact hkeeper
    · simp only [keeper, Effect.keeper, hkept, Option.map_some]
  · split
    · next hown =>
      rw [hrun a ((hmine _ hown).trans ht)]
      exact he a hs htable treeOf
    · exact he a hs htable name

/-- Every step that registers no type is one of these. -/
theorem does [CharNames] (s : Session) (name : String) {step : SessionStep}
    (hc : Unregistering (name, step)) : Does s name step := by
  by_cases ho : step.isOwn
  · obtain ⟨e, hr, he⟩ := SessionStep.run_effect ho hc name (s.writer name).scope (s.tableOf name)
    obtain ⟨hled, hkept⟩ := he s rfl rfl
    exact .effect (fun _ => step) name (fun _ => name) (fun i mine => given_of_isOwn ho) hr hled
      hkept (fun _ => hkept) fun _ a hs ht _ => (he a hs ht).1
  · cases step with
    | create of fork =>
      cases fork with
      | true => exact .fork of
      | false => exact .join of
    | rerun treeOf =>
      cases ht : (s.writer treeOf).tree with
      | none => exact .idle ht
      | some tree => exact s.does_rerun name ht
    | _ => exact absurd rfl ho

namespace Mirrors

variable {c d : String × SessionStep}

/-- **A step of another table** is not noticed. -/
theorem other [CharNames] (h : Mirrors i mine s a) (hc : Unregistering c)
    (hg : s.given i mine c = none) :
    Mirrors i (stillMine mine (s.keeper c) none) (s.perform c).session a := by
  obtain ⟨name, step⟩ := c
  cases s.does name hc with
  | fork of => exact (h.fork _).keep_other (Nat.ne_of_gt h.lt)
  | join of =>
    have hof : (s.writer of).table ≠ i := fun hof => by simp [given, hof] at hg
    exact h.keep_other hof
  | idle nothing =>
    simp only [perform, SessionStep.run, keeper, nothing, Option.map_none]
    exact h
  | effect _ _ _ given registry led kept =>
    have hn : (s.writer name).table ≠ i := fun hn => by simp [given, hn] at hg
    rw [kept]
    exact h.effect_other hn registry led

/-- **A step of the table** has the same effect and shows the same in both sessions. -/
theorem same [CharNames] (h : Mirrors i mine s a) (hc : Unregistering c)
    (hg : s.given i mine c = some d) :
    Mirrors i (stillMine mine (s.keeper c) (s.keeper d)) (s.perform c).session
        (a.perform d).session ∧
      (a.perform d).answer = (s.perform c).answer ∧ (a.perform d).log = (s.perform c).log := by
  obtain ⟨name, step⟩ := c
  cases s.does name hc with
  | fork of => simp [given] at hg
  | join of =>
    simp only [given, true_and] at hg
    split at hg
    · next hof =>
      cases hg
      exact ⟨h.keep_same (h.writer of hof).1 rfl rfl, rfl, rfl⟩
    · cases hg
  | idle nothing => simp [given, nothing] at hg
  | effect _ _ _ given _ led kept kept' alike =>
    rw [given] at hg
    split at hg
    · next hn =>
      cases hg
      have ha := alike mine a (h.writer name hn).2 (h.tableOf hn) h.tree
      rw [kept, kept']
      exact ⟨h.effect_same hn led ha, ha.answer.trans led.answer.symm, ha.log.trans led.log.symm⟩
    · cases hg

/-- As long as no type is registered, the steps of the table show what they show alone. -/
theorem part_eq [CharNames] (h : Mirrors i mine s a) {steps : List (String × SessionStep)}
    (hc : ∀ c ∈ steps, Unregistering c) :
    (s.part i mine steps).map (·.2) = a.shown ((s.part i mine steps).map (·.1)) ∧
      (s.performed steps).tables.table i =
        (a.performed ((s.part i mine steps).map (·.1))).tables.table 0 := by
  induction steps generalizing mine s a with
  | nil => exact ⟨rfl, h.table⟩
  | cons c steps ih =>
    obtain ⟨hc, hsteps⟩ := List.forall_mem_cons.1 hc
    rw [part]
    cases hg : s.given i mine c with
    | none => exact ih (h.other hc hg) hsteps
    | some d =>
      obtain ⟨hm, ha, hl⟩ := h.same hc hg
      obtain ⟨hseen, htable⟩ := ih hm hsteps
      refine ⟨?_, htable⟩
      show Sighting.mk _ _ _ :: _ = Sighting.mk _ _ _ :: shown _ _
      rw [ha, hl, ← hm.table]
      exact congrArg _ hseen

/-- As long as no type is registered, the table is isolated. -/
theorem isolated [CharNames] (h : Mirrors i [] s a) {steps : List (String × SessionStep)}
    (hc : ∀ c ∈ steps, Unregistering c) : Isolated i s a steps :=
  ⟨(h.part_eq hc).1, (h.part_eq hc).2⟩

end Mirrors

/-! ## Forks -/

/-- Every writer of a session is over one of its tables. -/
def Placed (s : Session) : Prop := ∀ w, (s.writer w).table < s.tables.frameStacks.length

namespace Placed

variable {c : String × SessionStep}

theorem effect (h : Placed s) (he : e.Of s name owner o) : Placed o.session := fun w => by
  rw [he.table, he.tables, Tables.length_put]
  exact h w

theorem keep (h : Placed s) {v : SessionWriter} (hv : v.table < s.tables.frameStacks.length) :
    Placed (s.keep name v) := fun w => by
  rw [writer_keep]
  split
  · exact hv
  · exact h w

theorem fork (h : Placed s) (j : Nat) :
    Placed { s with tables := (s.tables.fork j).1 } := fun w => by
  rw [Tables.length_fork]
  exact Nat.lt_succ_of_lt (h w)

theorem perform [CharNames] (h : Placed s) (hc : Unregistering c) :
    Placed (s.perform c).session := by
  obtain ⟨name, step⟩ := c
  cases s.does name hc with
  | fork of =>
    refine (h.fork (s.writer of).table).keep ?_
    rw [Tables.length_fork]
    exact Nat.lt_succ_self _
  | join of => exact h.keep (h of)
  | idle nothing =>
    simp only [Session.perform, SessionStep.run, nothing]
    exact h
  | effect _ _ _ _ _ led => exact h.effect led

theorem performed [CharNames] (h : Placed s) {steps : List (String × SessionStep)}
    (hc : ∀ c ∈ steps, Unregistering c) : Placed (s.performed steps) := by
  induction steps generalizing s with
  | nil => exact h
  | cons c steps ih =>
    obtain ⟨hc, hsteps⟩ := List.forall_mem_cons.1 hc
    exact ih (h.perform hc) hsteps

end Placed

theorem placed_start (t : SymbolTable) (w : String) : Placed (start t w) := fun v => by
  rw [(sharedBy_start t w).table v]
  exact Nat.zero_lt_one

theorem mirrors_start (t : SymbolTable) (w : String) : Mirrors 0 [] (start t w) (start t w) where
  table := rfl
  lt := Nat.zero_lt_one
  pos := Nat.zero_lt_one
  writer _ hw := ⟨hw, rfl⟩
  tree := List.forall_mem_nil _

/-- A fork is the first table of a session of its own. -/
theorem mirrors_fork [CharNames] (h : Placed s) (v of : String) :
    Mirrors s.tables.frameStacks.length [] (s.perform (v, .create of true)).session
      (start (s.tableOf of).fork v) where
  table := Tables.table_fork_new s.tables (s.writer of).table
  lt := by
    show _ < (s.tables.fork (s.writer of).table).1.frameStacks.length
    rw [Tables.length_fork]
    exact Nat.lt_succ_self _
  pos := Nat.zero_lt_one
  writer w hw := by
    refine ⟨(sharedBy_start _ v).table w, ?_⟩
    have hwriter : (s.perform (v, .create of true)).session.writer w =
        if v = w then ⟨s.tables.frameStacks.length, .unopened, none⟩ else s.writer w :=
      writer_keep _ v _ w
    rw [hwriter] at hw ⊢
    split at hw
    · next hv => rw [if_pos hv, (sharedBy_start _ v).unopened w (List.not_mem_nil)]
    · exact absurd hw (Nat.ne_of_lt (h w))
  tree := List.forall_mem_nil _

/-- **Forks are isolated.** As long as no type is registered, whatever steps are performed for the
writers over a table and over forks of it and of their forks: the steps of each table show what they
show in a session of their own. For the table itself this is a session that begins with it, for a
fork one that begins with a fork of the table that it is a fork of, as that was then. A tree that a
table keeps is kept there as well; one that it takes over from another table is given to it. -/
theorem forks_isolated [CharNames] (t : SymbolTable) (w : String)
    {steps : List (String × SessionStep)}
    (h : ∀ c ∈ steps, Unregistering c) :
    Isolated 0 (start t w) (start t w) steps ∧
      ∀ before v of after, steps = before ++ (v, .create of true) :: after →
        let s := (start t w).performed before
        Isolated s.tables.frameStacks.length (s.perform (v, .create of true)).session
          (start (s.tableOf of).fork v) after := by
  refine ⟨(mirrors_start t w).isolated h, ?_⟩
  rintro before v of after rfl s
  obtain ⟨hbefore, hafter⟩ := List.forall_mem_append.1 h
  exact (mirrors_fork ((placed_start t w).performed hbefore) v of).isolated
    (List.forall_mem_cons.1 hafter).2

/-- The script `let c = coll` is compiled for a fork, and then a script that reads `c` for the table
itself. -/
theorem forks_isolated_of_declaration :
    let find : ShellType := .function none .absent true
    let coll : ShellType := .object none "Collection" true (some [("find", .type find)])
    let t : SymbolTable := .ofScope (.ofTypes []) [("coll", .type coll)]
    let calls : List (String × SessionStep) :=
      [("v", .compile "let c = coll"), ("w", .compile "c.find()")]
    let steps := ("v", .create "w" true) :: calls
    (∀ c ∈ steps, Unregistering c) ∧ Isolated 0 (start t "w") (start t "w") steps ∧
      Isolated 1 ((start t "w").perform ("v", .create "w" true)).session (start t.fork "v")
        calls := by
  intro find coll t calls steps
  have h : ∀ c ∈ steps, Unregistering c := by
    simp only [steps, calls, List.forall_mem_cons]
    exact ⟨nofun, nofun, nofun, nofun⟩
  obtain ⟨htable, hfork⟩ := forks_isolated t "w" h
  exact ⟨h, htable, hfork [] "v" "w" calls rfl⟩

end Session

end AutoAwait
