import AutoAwait.Proofs.Typing.Frames
import AutoAwait.Session
import Mathlib.Data.List.Induction

/-!
# Writers that share a table

Several writers over one table are called in any order, for scripts and for trees; some calls fail.
Each writer opens its program frame with the first of its calls that comes to a tree, on top of the
frames that are open then, and no call closes a program frame.

* `WriterCall` is a call of a writer, `Session.after` the session after some calls;
* `openedBy` are the writers that have opened their program frame, in the order in which they did;
* `Session.SharedBy` is what each call preserves: `Session.SharedBy.call`, from all that a call can
  do, `Session.SharedBy.call_cases`;
* `Session.after_writers` is the main statement.
-/

namespace AutoAwait

theorem Bindings.get?_map {α β : Type} (f : α → β) (b : Bindings α) (name : String) :
    Bindings.get? (b.map fun p => (p.1, f p.2)) name = (b.get? name).map f := by
  induction b with
  | nil => rfl
  | cons p b ih =>
    simp only [List.map_cons, get?]
    split
    · rfl
    · exact ih

/-- What a writer is called for. -/
inductive WriterCall where
  | compile (source : String)
  | transform (source : String)
  | rewrite (tree : Node)

namespace WriterCall

/-- The step of a session that is the call. -/
def toStep : WriterCall → SessionStep
  | .compile source => .compile source
  | .transform source => .transform source
  | .rewrite tree => .rewrite tree

/-- Does a call come to a tree? One for a script that cannot be read does not. -/
def isRead [CharNames] : WriterCall → Bool
  | .compile source | .transform source => (parseScript source).isOk
  | .rewrite _ => true

end WriterCall

/-- The writers that have opened their program frame after some calls, in the order in which they
did. -/
def openedBy [CharNames] (calls : List (String × WriterCall)) : List String :=
  ((calls.filter (·.2.isRead)).map (·.1)).eraseDups

/-- The writers that have opened their program frame when one more does. -/
def withOpened (ws : List String) (name : String) : List String :=
  if name ∈ ws then ws else ws ++ [name]

theorem eraseDups_snoc (ws : List String) (name : String) :
    (ws ++ [name]).eraseDups = withOpened ws.eraseDups name := by
  rw [List.eraseDups_append]
  by_cases h : name ∈ ws <;> simp [withOpened, h, List.removeAll, List.eraseDups_cons]

theorem openedBy_snoc [CharNames] (calls : List (String × WriterCall)) (c : String × WriterCall) :
    openedBy (calls ++ [c]) =
      if c.2.isRead then withOpened (openedBy calls) c.1 else openedBy calls := by
  by_cases hc : c.2.isRead
  · simp [openedBy, hc, eraseDups_snoc]
  · simp [openedBy, hc]

namespace Tables

theorem length_put (ts : Tables) (i : Nat) (u : SymbolTable) :
    (ts.put i u).frameStacks.length = ts.frameStacks.length := List.length_set

theorem table_put {ts : Tables} {i : Nat} (h : i < ts.frameStacks.length) (u : SymbolTable) :
    (ts.put i u).table i = u := by
  simp [table, put, List.getD_eq_getElem?_getD, h]

end Tables

namespace Session

variable {t : SymbolTable} {s : Session} {ws : List String} {name : String}

/-- Calls a writer. -/
def call [CharNames] (s : Session) (c : String × WriterCall) : SessionOutcome :=
  c.2.toStep.run s c.1

/-- The session after some calls. -/
def after [CharNames] (s : Session) (calls : List (String × WriterCall)) : Session :=
  calls.foldl (fun s c => (s.call c).session) s

theorem after_snoc [CharNames] (s : Session) (calls : List (String × WriterCall))
    (c : String × WriterCall) :
    s.after (calls ++ [c]) = ((s.after calls).call c).session := by
  simp [after]

theorem writer_keep (s : Session) (name : String) (w : SessionWriter) (other : String) :
    (s.keep name w).writer other = if name = other then w else s.writer other := by
  simp only [writer, keep, Bindings.get?_put]
  split <;> rfl

theorem scope_called (s : Session) (name w : String) :
    (if name = w then (s.writer name).scope else (s.writer w).scope) = (s.writer w).scope := by
  split
  · next hn => rw [hn]
  · rfl

/-- The writers of a session share a table that stands on the frames of `t`: above these are the
program frames of the writers `ws`, in order, and the other writers have opened none. -/
structure SharedBy (t : SymbolTable) (ws : List String) (s : Session) : Prop where
  single : s.tables.frameStacks.length = 1
  depth : (s.tables.table 0).depth = t.depth + ws.length
  table : ∀ w, (s.writer w).table = 0
  opened : ∀ i w, ws[i]? = some w → (s.writer w).scope = .open (t.depth + i)
  unopened : ∀ w, w ∉ ws → (s.writer w).scope = .unopened

namespace SharedBy

theorem table_put (h : SharedBy t ws s) (u : SymbolTable) : (s.tables.put 0 u).table 0 = u :=
  Tables.table_put (by rw [h.single]; exact Nat.zero_lt_one) u

/-- Only the writer that is called changes, and the table of all. -/
theorem change (h : SharedBy t ws s) (name : String) {s' : Session} {u : SymbolTable}
    {scope : ProgramScope} (ht : s'.tables = s.tables.put 0 u) (hw : ∀ w, (s'.writer w).table = 0 ∧
      (s'.writer w).scope = if name = w then scope else (s.writer w).scope)
    {ws' : List String} (hd : u.depth = t.depth + ws'.length)
    (ho : ∀ i w, ws'[i]? = some w →
      (if name = w then scope else (s.writer w).scope) = .open (t.depth + i))
    (hu : ∀ w, w ∉ ws' → (if name = w then scope else (s.writer w).scope) = .unopened) :
    SharedBy t ws' s' where
  single := by rw [ht, Tables.length_put, h.single]
  depth := by rw [← hd, ht, h.table_put]
  table w := (hw w).1
  opened i w hi := (hw w).2.trans (ho i w hi)
  unopened w hm := (hw w).2.trans (hu w hm)

/-- Keeping a writer over the shared table changes no other one. -/
theorem writer_kept (h : SharedBy t ws s) (name : String) (tables : Tables) {v : SessionWriter}
    (hv : v.table = 0) (w : String) :
    let v' := ({ s with tables := tables }.keep name v).writer w
    v'.table = 0 ∧ v'.scope = if name = w then v.scope else (s.writer w).scope := by
  rw [writer_keep]
  split
  · exact ⟨hv, rfl⟩
  · exact ⟨h.table w, rfl⟩

theorem tableOf (h : SharedBy t ws s) (w : String) : s.tableOf w = s.tables.table 0 := by
  rw [Session.tableOf, h.table]

/-- A writer that is called for a tree has its program frame above those that were opened before. -/
theorem enter (h : SharedBy t ws s) (name : String) :
    let r := (s.writer name).scope.enter (s.tables.table 0)
    r.2.depth = t.depth + (withOpened ws name).length ∧
      StandsOn (s.tables.table 0).boundNames r.2.boundNames ∧
      (∀ i w, (withOpened ws name)[i]? = some w →
        (if name = w then r.1 else (s.writer w).scope) = .open (t.depth + i)) ∧
      ∀ w, w ∉ withOpened ws name → (if name = w then r.1 else (s.writer w).scope) = .unopened := by
  by_cases hm : name ∈ ws
  · obtain ⟨i, hi⟩ := List.mem_iff_getElem?.1 hm
    have he : (s.writer name).scope.enter (s.tables.table 0) =
        ((s.writer name).scope, s.tables.table 0) := by rw [h.opened i name hi]; rfl
    simp only [withOpened, hm, if_true, he, scope_called]
    exact ⟨h.depth, .refl _, h.opened, h.unopened⟩
  · have he : (s.writer name).scope.enter (s.tables.table 0) =
        (.open (t.depth + ws.length), (s.tables.table 0).push) := by
      rw [h.unopened name hm, ← h.depth]; rfl
    simp only [withOpened, hm, if_false, he]
    refine ⟨?_, (StandsOn.refl _).push, fun i w hi => ?_, fun w hw => ?_⟩
    · rw [SymbolTable.depth_push, h.depth, List.length_append]
      rfl
    · by_cases hl : i < ws.length
      · rw [List.getElem?_append_left hl] at hi
        rw [if_neg fun hn : name = w => hm (hn ▸ List.mem_of_getElem? hi)]
        exact h.opened i w hi
      · rw [List.getElem?_append_right (by omega), List.getElem?_singleton] at hi
        split at hi
        · rw [if_pos (Option.some.inj hi), show i = ws.length by omega]
        · cases hi
    · rw [List.mem_append, not_or, List.mem_singleton] at hw
      rw [if_neg (Ne.symm hw.2)]
      exact h.unopened w hw.1

/-- What rewriting a tree for a writer does to the table that the writers share. -/
theorem rewrite (h : SharedBy t ws s) (name : String) (tree : Node) :
    let v := (s.writer name).scope.enter (s.tables.table 0)
    let r := (s.writer name).scope.rewrite (s.tables.table 0) tree
    r.scope = v.1 ∧ r.table.depth = v.2.depth ∧
      StandsOn (s.tables.table 0).boundNames r.table.boundNames ∧
      (∀ e ∈ r.log, ∀ d, e.leaves? = some d → r.table.depth ≤ d) ∧
      ∀ e, r.failure ≠ some (.scope e) := by
  intro v r
  obtain ⟨hd, hs, -⟩ := h.enter name
  have hpos : 0 < v.2.depth := by
    have hm : name ∈ withOpened ws name := by
      unfold withOpened
      split <;> simp [*]
    have := List.length_pos_of_mem hm
    show 0 < ((s.writer name).scope.enter (s.tables.table 0)).2.depth
    omega
  obtain ⟨hscope, -, ⟨new, hnew⟩, hclose, hframed⟩ :=
    (s.writer name).scope.rewrite_frames (s.tables.table 0) tree hpos
  have hdepth : r.table.depth = v.2.depth := by
    simpa using congrArg List.length hnew
  refine ⟨hscope, hdepth, ?_, ?_, hframed⟩
  · show StandsOn _ r.table.boundNames
    rw [hnew]
    exact hs.extend new
  · rw [hdepth]
    exact hclose

end SharedBy

/-- What a call of the writer `name` for a tree leads to: the tree is rewritten over the table. -/
structure Rewritten (s : Session) (name : String) (tree : Node) (o : SessionOutcome) : Prop where
  tables : o.session.tables =
    s.tables.put 0 ((s.writer name).scope.rewrite (s.tables.table 0) tree).table
  writers : ∀ w, (o.session.writer w).table = 0 ∧ (o.session.writer w).scope =
    if name = w then ((s.writer name).scope.rewrite (s.tables.table 0) tree).scope
    else (s.writer w).scope
  log : ∃ before, (∀ e ∈ before, ∃ k, e = .compiling k) ∧
    o.log = before ++ ((s.writer name).scope.rewrite (s.tables.table 0) tree).log
  answer : ∀ e, o.answer = .error e → ∃ f, e = .compile (.typing f) ∧
    ((s.writer name).scope.rewrite (s.tables.table 0) tree).failure = some f

/-- What a call for a script that cannot be read leads to. -/
structure Unread (s : Session) (o : SessionOutcome) : Prop where
  tables : o.session.tables = s.tables.put 0 (s.tables.table 0)
  writers : ∀ w, (o.session.writer w).table = 0 ∧ (o.session.writer w).scope = (s.writer w).scope
  log : ∀ e ∈ o.log, ∃ k, e = .compiling k
  answer : ∃ e, o.answer = .error (.compile (.parse e))

namespace SharedBy

/-- A call for a script that can be read rewrites its tree. -/
theorem compile_rewritten [CharNames] (h : SharedBy t ws s) (name : String) {source : String}
    {tree : Node}
    (hp : parseScript source = .ok tree) (keepTree : Bool) :
    Rewritten s name tree (SessionStep.runCompile s name source keepTree) := by
  have hl : ∀ e ∈ [Event.compiling source.length], ∃ k, e = .compiling k := by simp
  simp only [SessionStep.runCompile, ProgramScope.compile, h.table, hp]
  cases hf : ((s.writer name).scope.rewrite (s.tables.table 0) tree).failure with
  | some e =>
    refine ⟨rfl, h.writer_kept name _ rfl, ⟨_, hl, rfl⟩, ?_⟩
    rintro _ ⟨⟩
    exact ⟨e, rfl, hf⟩
  | none =>
    cases keepTree with
    | false => exact ⟨rfl, h.writer_kept name _ rfl, ⟨_, hl, rfl⟩, nofun⟩
    | true => exact ⟨rfl, h.writer_kept name _ rfl, ⟨_, hl, rfl⟩, nofun⟩

theorem compile_cases [CharNames] (h : SharedBy t ws s) (name source : String) (keepTree : Bool) :
    let o := SessionStep.runCompile s name source keepTree
    ((parseScript source).isOk = false ∧ Unread s o) ∨
      (parseScript source).isOk ∧ ∃ tree, Rewritten s name tree o := by
  cases hp : parseScript source with
  | error e =>
    have ho : SessionStep.runCompile s name source keepTree =
        ⟨{ s with tables := s.tables.put 0 (s.tables.table 0) }.keep name
          { s.writer name with table := 0 }, .error (.compile (.parse e)),
          [.compiling source.length]⟩ := by
      simp only [SessionStep.runCompile, ProgramScope.compile, hp, h.table]
    rw [ho]
    refine .inl ⟨rfl, rfl, fun w => ?_, by simp, e, rfl⟩
    rw [← scope_called s name w]
    exact h.writer_kept name _ rfl w
  | ok tree => exact .inr ⟨rfl, tree, h.compile_rewritten name hp keepTree⟩

theorem rewritten (h : SharedBy t ws s) (name : String) (tree : Node) :
    Rewritten s name tree (s.rewrite name name tree) := by
  -- The tree is kept for the writer after its frame.
  have hk := h.writer_kept name
    (s.tables.put 0 ((s.writer name).scope.rewrite (s.tables.table 0) tree).table)
    (v := ⟨0, ((s.writer name).scope.rewrite (s.tables.table 0) tree).scope,
      (s.writer name).tree⟩) rfl
  simp only [Session.rewrite, h.table]
  refine ⟨rfl, fun w => ?_, ⟨[], List.forall_mem_nil _, rfl⟩, fun e he => ?_⟩
  · rw [writer_keep]
    split
    · simpa using hk name
    · next hn => simpa [hn] using hk w
  · dsimp only at he
    split at he
    · cases he
    · cases he
      exact ⟨_, rfl, ‹_›⟩

/-- All that a call of a writer can do. -/
theorem call_cases [CharNames] (h : SharedBy t ws s) (c : String × WriterCall) :
    (c.2.isRead = false ∧ Unread s (s.call c)) ∨
      c.2.isRead ∧ ∃ tree, Rewritten s c.1 tree (s.call c) := by
  obtain ⟨name, call⟩ := c
  cases call with
  | compile source => exact h.compile_cases name source false
  | transform source => exact h.compile_cases name source true
  | rewrite tree => exact .inr ⟨rfl, tree, h.rewritten name tree⟩

end SharedBy

/-! ## Frames -/

/-- What a call of a writer does to a table: the table `u` that it leaves stands on the frames of
the table `t` that it found, nothing that was logged tells of the closing of one of the frames of
`u`, and no frame was lacking. -/
structure KeepsFrames (t u : SymbolTable) (r : SessionOutcome) : Prop where
  stack : StandsOn t.boundNames u.boundNames
  closings : ∀ e ∈ r.log, ∀ d, e.leaves? = some d → u.depth ≤ d
  framed : (∀ e, r.answer ≠ .error (.scope e)) ∧
    ∀ e, r.answer ≠ .error (.compile (.typing (.scope e)))

namespace SharedBy

theorem unread (h : SharedBy t ws s) {o : SessionOutcome} (hu : Unread s o) :
    SharedBy t ws o.session ∧ KeepsFrames (s.tables.table 0) (o.session.tables.table 0) o := by
  have ht : o.session.tables.table 0 = s.tables.table 0 := by rw [hu.tables, h.table_put]
  obtain ⟨e, he⟩ := hu.answer
  refine ⟨⟨?_, ht ▸ h.depth, fun w => (hu.writers w).1, fun i w hi => ?_, fun w hw => ?_⟩, ?_⟩
  · rw [hu.tables, Tables.length_put, h.single]
  · rw [(hu.writers w).2, h.opened i w hi]
  · rw [(hu.writers w).2, h.unopened w hw]
  · refine ⟨ht ▸ .refl _, fun e he d hd => ?_, by simp [he], by simp [he]⟩
    obtain ⟨k, rfl⟩ := hu.log e he
    cases hd

/-- A call that rewrites a tree opens the program frame of the writer, if that is not open. -/
theorem of_rewritten (h : SharedBy t ws s) {tree : Node} {o : SessionOutcome}
    (hr : Rewritten s name tree o) :
    SharedBy t (withOpened ws name) o.session ∧
      KeepsFrames (s.tables.table 0) (o.session.tables.table 0) o := by
  obtain ⟨hscope, hdepth, hstack, hclose, hframed⟩ := h.rewrite name tree
  obtain ⟨hd, -, ho, hu⟩ := h.enter name
  refine ⟨h.change name hr.tables hr.writers (hdepth.trans hd) ?_ ?_, ?_⟩
  · rwa [hscope]
  · rwa [hscope]
  · rw [hr.tables, h.table_put]
    refine ⟨hstack, fun e he d hd => ?_, fun e he => ?_, fun e he => ?_⟩
    · obtain ⟨before, hb, hlog⟩ := hr.log
      rw [hlog, List.mem_append] at he
      rcases he with he | he
      · obtain ⟨k, rfl⟩ := hb e he
        cases hd
      · exact hclose e he d hd
    · obtain ⟨f, hf, -⟩ := hr.answer _ he
      cases hf
    · obtain ⟨f, hf, hf'⟩ := hr.answer _ he
      cases hf
      exact hframed e hf'

/-- **A call of a writer** that comes to a tree leaves a program frame for it, and one that does not
changes nothing. -/
theorem call [CharNames] (h : SharedBy t ws s) (c : String × WriterCall) :
    SharedBy t (if c.2.isRead then withOpened ws c.1 else ws) (s.call c).session ∧
      KeepsFrames (s.tables.table 0) ((s.call c).session.tables.table 0) (s.call c) := by
  rcases h.call_cases c with ⟨hc, hu⟩ | ⟨hc, tree, hr⟩
  · rw [hc]
    exact h.unread hu
  · rw [hc]
    exact h.of_rewritten hr

end SharedBy

theorem sharedBy_start (t : SymbolTable) (first : String) : SharedBy t [] (start t first) where
  single := rfl
  depth := rfl
  table w := by
    simp only [start, writer, Bindings.get?]
    split <;> rfl
  opened := nofun
  unopened w _ := by
    simp only [start, writer, Bindings.get?]
    split <;> rfl

theorem sharedBy_after [CharNames] (t : SymbolTable) (first : String)
    (calls : List (String × WriterCall)) :
    SharedBy t (openedBy calls) ((start t first).after calls) := by
  induction calls using List.reverseRecOn with
  | nil => exact sharedBy_start t first
  | append_singleton calls c ih =>
    rw [after_snoc, openedBy_snoc]
    exact (ih.call c).1

/-- **Writers that share a table.** After any calls of writers over a table, the table has one frame
more than at first for each writer that was called for a tree. The program frame of such a writer is
where it was opened: above the frames that were there at first and those of the writers that opened
theirs before. Whatever a further call leads to, the frames that are open stay open with the names
that they bind, what is logged tells of no closing of one of them, and no frame is lacking. -/
theorem after_writers [CharNames] (t : SymbolTable) (first : String)
    (calls : List (String × WriterCall)) :
    let s := (start t first).after calls
    (∀ w, (s.tableOf w).depth = t.depth + (openedBy calls).length) ∧
      (∀ i w, (openedBy calls)[i]? = some w → (s.writer w).scope = .open (t.depth + i)) ∧
      (∀ w, w ∉ openedBy calls → (s.writer w).scope = .unopened) ∧
      ∀ c w, KeepsFrames (s.tableOf w) ((s.call c).session.tableOf w) (s.call c) := by
  intro s
  have h := sharedBy_after t first calls
  refine ⟨fun w => by rw [h.tableOf, h.depth], h.opened, h.unopened, fun c w => ?_⟩
  rw [h.tableOf, (h.call c).1.tableOf]
  exact (h.call c).2

end Session

end AutoAwait
