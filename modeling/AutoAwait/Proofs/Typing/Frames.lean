import AutoAwait.Proofs.Typing.Awaits

/-!
# The frames that the pass works on

The pass opens frames above those that it is given and closes no others. So the frames that were
open before it are open when it has ended, whether it has failed or not.

* `StandsOn` relates two stacks of frames by the names that they bind;
* `Typing.walk_depth` says that a walk that succeeds closes the frames that it opens;
* `Typing.Above` says that the frames of a table are there still, `Typing.carried_above` that a walk
  keeps it so;
* `ProgramScope.rewrite_frames` is the main statement.
-/

namespace AutoAwait

theorem Bindings.mem_names_of_binds {α : Type} {b : Bindings α} {n : String} (h : b.binds n) :
    n ∈ b.names := by
  induction b with
  | nil => cases h
  | cons p b ih =>
    by_cases hp : p.1 = n
    · simp [names, hp]
    · have : Bindings.binds b n := by simpa [binds, get?, hp] using h
      exact List.mem_cons_of_mem _ (ih this)

/-! ## Stacks of names -/

/-- The stack `ns` with the names `extra` added to the innermost frame. -/
def extendTop (ns : List (List String)) (extra : List String) : List (List String) :=
  match ns with
  | [] => []
  | top :: below => (top ++ extra) :: below

@[simp] theorem extendTop_nil (ns : List (List String)) : extendTop ns [] = ns := by
  cases ns <;> simp [extendTop]

@[simp] theorem length_extendTop (ns : List (List String)) (extra : List String) :
    (extendTop ns extra).length = ns.length := by
  cases ns <;> rfl

theorem extendTop_extendTop (ns : List (List String)) (xs ys : List String) :
    extendTop (extendTop ns xs) ys = extendTop ns (xs ++ ys) := by
  cases ns <;> simp [extendTop]

/-- Does the stack `ns` stand on the stack `base`: are its bottom frames those of `base`, where the
innermost of them may bind more names? -/
def StandsOn (base ns : List (List String)) : Prop :=
  ∃ above extra, ns = above ++ extendTop base extra

namespace StandsOn

variable {base ns ms : List (List String)} {top : List String}

theorem refl (base : List (List String)) : StandsOn base base := ⟨[], [], by simp⟩

theorem length_le (h : StandsOn base ns) : base.length ≤ ns.length := by
  obtain ⟨above, extra, rfl⟩ := h
  simp

theorem push (h : StandsOn base ns) : StandsOn base (top :: ns) := by
  obtain ⟨above, extra, rfl⟩ := h
  exact ⟨top :: above, extra, rfl⟩

theorem pop (h : StandsOn base (top :: ns)) (hl : base.length ≤ ns.length) : StandsOn base ns := by
  obtain ⟨above, extra, he⟩ := h
  cases above with
  | nil =>
    have := congrArg List.length he
    simp only [List.nil_append, List.length_cons, length_extendTop] at this
    omega
  | cons a above => exact ⟨above, extra, (List.cons.inj he).2⟩

/-- More names can be bound in the innermost frame. -/
theorem bind (h : StandsOn base (top :: ns)) (names : List String) :
    StandsOn base ((top ++ names) :: ns) := by
  obtain ⟨above, extra, he⟩ := h
  cases above with
  | nil =>
    refine ⟨[], extra ++ names, ?_⟩
    rw [List.nil_append, ← extendTop_extendTop, ← List.nil_append (extendTop base extra), ← he]
    rfl
  | cons a above =>
    obtain ⟨rfl, rfl⟩ := List.cons.inj he
    exact ⟨(top ++ names) :: above, extra, rfl⟩

theorem extend (h : StandsOn base ns) (names : List String) :
    StandsOn base (extendTop ns names) := by
  cases ns with
  | nil => exact h
  | cons top ns => exact h.bind names

/-- If as many frames are left as there were at first, they are those. -/
theorem eq_of_length (h : StandsOn base ns) (hl : ns.length = base.length) :
    ∃ extra, ns = extendTop base extra := by
  obtain ⟨above, extra, rfl⟩ := h
  have : above = [] := by simpa using hl
  exact ⟨extra, by rw [this, List.nil_append]⟩

theorem drop (h : StandsOn base ns) :
    StandsOn base (ns.drop (ns.length - base.length)) := by
  obtain ⟨above, extra, rfl⟩ := h
  exact ⟨[], extra, by simp⟩

end StandsOn

namespace SymbolTable

variable {t u : SymbolTable} {name : String} {ref : TypeRef} {e : ScopeError}

/-- The names that the frames bind, the innermost frame first. -/
def boundNames (t : SymbolTable) : List (List String) := t.frames.map Bindings.names

@[simp] theorem length_boundNames (t : SymbolTable) : t.boundNames.length = t.depth := by
  simp [boundNames, depth]

theorem depth_push (t : SymbolTable) : t.push.depth = t.depth + 1 := rfl

theorem pop_ok {f : Frame} (h : t.pop = .ok (f, u)) :
    t.registry = u.registry ∧ t.frames = f :: u.frames := by
  unfold pop at h
  split at h
  · cases h
  · next hf =>
    cases h
    exact ⟨rfl, hf⟩

theorem pop_error (h : t.pop = .error e) : t.depth = 0 := by
  unfold pop at h
  split at h
  · next hf => exact congrArg List.length hf
  · cases h

/-- Does the table `u` come from `t` by binding a name: are the frames the same but for their
values, where the innermost one may bind more names? -/
def Bound (t u : SymbolTable) : Prop :=
  u.registry = t.registry ∧ ∃ top below new, t.boundNames = top :: below ∧
    u.boundNames = (top ++ new) :: below

theorem declare_error (h : t.declare name ref = .error e) : t.depth = 0 := by
  unfold declare at h
  split at h
  · next hf => exact congrArg List.length hf
  · cases h

theorem bound_of_declare (h : t.declare name ref = .ok u) : Bound t u := by
  unfold declare at h
  split at h
  · cases h
  · next f fs hf =>
    cases h
    refine ⟨rfl, Bindings.names f, fs.map Bindings.names,
      if name ∈ Bindings.names f then [] else [name], by simp [boundNames, hf], ?_⟩
    simp only [boundNames, List.map_cons, Bindings.names_put]
    split <;> simp

theorem names_rebind {fs gs : List Frame} (h : rebind name ref fs = some gs) :
    gs.map Bindings.names = fs.map Bindings.names ∧ fs ≠ [] := by
  induction fs generalizing gs with
  | nil => cases h
  | cons f fs ih =>
    simp only [rebind] at h
    split at h
    · next hb =>
      cases h
      simp [Bindings.names_put, Bindings.mem_names_of_binds hb]
    · obtain ⟨gs, hg, rfl⟩ := Option.map_eq_some_iff.1 h
      simp [(ih hg).1]

theorem update_error (h : t.update name ref = .error e) : t.depth = 0 := by
  unfold update at h
  split at h
  · cases h
  · exact declare_error h

theorem bound_of_update (h : t.update name ref = .ok u) : Bound t u := by
  unfold update at h
  split at h
  · next fs hr =>
    cases h
    obtain ⟨hn, hne⟩ := names_rebind hr
    obtain ⟨f, below, hf⟩ := List.exists_cons_of_ne_nil hne
    refine ⟨rfl, Bindings.names f, below.map Bindings.names, [], by simp [boundNames, hf], ?_⟩
    simp [boundNames, hn, hf]
  · exact bound_of_declare h

theorem Bound.depth (h : Bound t u) : u.depth = t.depth := by
  obtain ⟨-, top, below, new, ht, hu⟩ := h
  rw [← length_boundNames, ← length_boundNames, ht, hu]
  rfl

/-- A table can be unwound to the depth of frames that it stands on; then just these are left. -/
theorem unwind_standsOn {base : SymbolTable} (h : StandsOn base.boundNames t.boundNames) :
    ∃ u, t.unwind base.depth = .ok u ∧ u.registry = t.registry ∧ u.depth = base.depth ∧
      StandsOn base.boundNames u.boundNames := by
  have hl : base.depth ≤ t.depth := by simpa using h.length_le
  refine ⟨{ t with frames := t.frames.drop (t.depth - base.depth) }, ?_, rfl, ?_, ?_⟩
  · rw [unwind, if_neg (by omega)]
    rfl
  · show (t.frames.drop (t.depth - base.depth)).length = base.depth
    rw [List.length_drop]
    unfold depth at *
    omega
  · have hd := h.drop
    simp only [length_boundNames] at hd
    simpa only [boundNames, List.map_drop] using hd

end SymbolTable

/-! ## The pass and the frames below it -/

/-- The depth that is left where an event tells of frames that are closed. -/
def Event.leaves? : Event → Option Nat
  | .closeScope depth _ => some depth
  | .unwinding _ target => some target
  | _ => none

namespace Typing

variable {again : Place → Node → StateM Typing Node}
variable {base : SymbolTable} {p q : Typing} {n : Node} {place : Place}

/-! ### Depth -/

/-- How many frames a node of some kind opens. -/
def framesOf (kind : NodeKind) : Nat := if kind.isFunction || kind.opensScope then 1 else 0

theorem declare_depth (p : Typing) (name : String) (t : ShellType) :
    (p.declare name t).table.depth = p.table.depth := by
  unfold declare
  split
  · exact (SymbolTable.bound_of_declare ‹_›).depth
  · rfl

theorem update_depth (p : Typing) (name : String) (t : ShellType) :
    (p.update name t).table.depth = p.table.depth := by
  unfold update
  split
  · exact (SymbolTable.bound_of_update ‹_›).depth
  · rfl

theorem declareParams_depth (p : Typing) (params : List Node) :
    (params.foldl declareParam p).table.depth = p.table.depth := by
  induction params generalizing p with
  | nil => rfl
  | cons k params ih => exact (ih _).trans (declare_depth ..)

theorem closeScope_depth (p : Typing) (kind : NodeKind) :
    (p.closeScope kind).table.depth = p.table.depth - 1 := by
  unfold closeScope
  split
  · next f t ht =>
    show t.depth = p.table.depth - 1
    rw [SymbolTable.depth, SymbolTable.depth, (SymbolTable.pop_ok ht).2]
    rfl
  · next e he =>
    show p.table.depth = p.table.depth - 1
    rw [SymbolTable.pop_error he]

theorem noteMissing_table (p : Typing) (ref : TypeRef) : (p.noteMissing ref).table = p.table := by
  unfold noteMissing
  split <;> rfl

theorem noteMissingReturn_table (p : Typing) (callee : Node) :
    (p.noteMissingReturn callee).table = p.table := by
  unfold noteMissingReturn
  split
  · exact noteMissing_table ..
  · rfl

theorem enter_depth (n : Node) {p : Typing} (h : p.failure = none) :
    (enter n p).2.table.depth = p.table.depth + framesOf n.kind := by
  obtain ⟨loc, type, shape⟩ := n
  simp only [enter, h, Option.isSome_none, Bool.false_eq_true, if_false]
  cases shape with
  | function id params body | arrow params body | functionDecl id params body =>
    exact declareParams_depth _ _
  | catchClause param body => exact declareParams_depth _ _
  | _ => rfl

theorem leaveFunction_depth (p : Typing) (n : Node) (id : Option Node) (body : Node) :
    (p.leaveFunction n id body).2.table.depth = p.table.depth - 1 := by
  have hc := closeScope_depth p n.kind
  unfold leaveFunction
  simp only
  split
  · exact hc
  · cases id with
    | none =>
      simp only [Option.map_none]
      split <;> exact hc
    | some k =>
      simp only [Option.map_some]
      split <;> exact (declare_depth ..).trans hc

theorem leaveNode_depth (p : Typing) (place : Place) (n : Node) :
    (p.leaveNode place n).2.table.depth = p.table.depth - framesOf n.kind := by
  obtain ⟨loc, type, shape⟩ := n
  cases shape with
  | identifier name => exact congrArg SymbolTable.depth (noteMissing_table ..)
  | member o k computed =>
    simp only [leaveNode, leaveMember]
    split
    · split <;> rfl
    · split
      · exact congrArg SymbolTable.depth (noteMissing_table ..)
      · rfl
  | call callee args =>
    simp only [leaveNode, leaveCall]
    split <;> exact congrArg SymbolTable.depth (noteMissingReturn_table ..)
  | construct callee args => exact congrArg SymbolTable.depth (noteMissingReturn_table ..)
  | declarator id init =>
    simp only [leaveNode, leaveDeclarator]
    split <;> exact update_depth ..
  | assignment op left right =>
    simp only [leaveNode, leaveAssignment]
    cases left.name? with
    | none => dsimp only; split <;> rfl
    | some name => dsimp only; split <;> exact update_depth ..
  | function id params body | arrow params body | functionDecl id params body =>
    exact leaveFunction_depth ..
  | block _ | «for» _ _ _ _ | forOf _ _ _ | «while» _ _ | catchClause _ _ =>
    exact closeScope_depth ..
  | _ => rfl

/-! ### Frames below -/

/-- The pass over a table that stands on the frames of `base`: they are still there, nothing that
was logged tells of the closing of one of them, and the pass has not lacked a frame. -/
structure Above (base : SymbolTable) (p : Typing) : Prop where
  registry : p.table.registry = base.registry
  stack : StandsOn base.boundNames p.table.boundNames
  closings : ∀ e ∈ p.log, ∀ d, e.leaves? = some d → base.depth ≤ d
  framed : ∀ e, p.failure ≠ some (.scope e)

namespace Above

theorem depth_le (h : Above base p) : base.depth ≤ p.table.depth := by
  simpa using h.stack.length_le

theorem start (t : SymbolTable) : Above t (start t) :=
  ⟨rfl, .refl _, List.forall_mem_nil _, by rintro _ ⟨⟩⟩

theorem noteClosing (h : Above base p) {e : Event}
    (he : ∀ d, e.leaves? = some d → base.depth ≤ d) : Above base (p.note e) :=
  ⟨h.registry, h.stack, List.forall_mem_cons.2 ⟨he, h.closings⟩, h.framed⟩

theorem note (h : Above base p) {e : Event} (he : e.leaves? = none) : Above base (p.note e) := by
  refine h.noteClosing fun d hd => ?_
  rw [he] at hd
  cases hd

theorem fail (h : Above base p) {e : TypingError} (he : ∀ s, e ≠ .scope s) :
    Above base (p.fail e) :=
  ⟨h.registry, h.stack, h.closings, fun s hs => he s (Option.some.inj hs)⟩

theorem withReturns (h : Above base p) (r : List (List ShellType)) :
    Above base { p with returns := r } := ⟨h.registry, h.stack, h.closings, h.framed⟩

theorem bound (h : Above base p) {t : SymbolTable} (hb : SymbolTable.Bound p.table t) :
    Above base { p with table := t } := by
  obtain ⟨hr, top, below, new, hp, ht⟩ := hb
  refine ⟨hr.trans h.registry, ?_, h.closings, h.framed⟩
  have hs := h.stack
  rw [hp] at hs
  rw [ht]
  exact hs.bind new

theorem declare (h : Above base p) (hb : 0 < base.depth) (name : String) (t : ShellType) :
    Above base (p.declare name t) := by
  have := h.depth_le
  unfold Typing.declare
  split
  · exact h.bound (SymbolTable.bound_of_declare ‹_›)
  · next e he =>
    have := SymbolTable.declare_error he
    omega

theorem update (h : Above base p) (hb : 0 < base.depth) (name : String) (t : ShellType) :
    Above base (p.update name t) := by
  have := h.depth_le
  unfold Typing.update
  split
  · exact h.bound (SymbolTable.bound_of_update ‹_›)
  · next e he =>
    have := SymbolTable.update_error he
    omega

theorem openScope (h : Above base p) (kind : NodeKind) : Above base (p.openScope kind) :=
  have hn := h.note (e := .openScope p.table.depth kind) rfl
  ⟨hn.registry, hn.stack.push, hn.closings, hn.framed⟩

/-- A frame above those of `base` can be closed. -/
theorem closeScope (h : Above base p) (hd : base.depth < p.table.depth) (kind : NodeKind) :
    Above base (p.closeScope kind) := by
  unfold Typing.closeScope
  split
  · next f t ht =>
    obtain ⟨hr, hf⟩ := SymbolTable.pop_ok ht
    have hs := h.stack
    have hp : p.table.boundNames = Bindings.names f :: t.boundNames := by
      simp [SymbolTable.boundNames, hf]
    have hdt : base.depth ≤ t.depth := by
      have := congrArg List.length hp
      simp only [SymbolTable.length_boundNames, List.length_cons] at this
      omega
    rw [hp] at hs
    refine noteClosing (p := { p with table := t }) ⟨hr.symm.trans h.registry, ?_, h.closings, h.framed⟩ ?_
    · exact hs.pop (by simpa using hdt)
    · rintro d hd
      cases hd
      exact hdt
  · next e he =>
    have := SymbolTable.pop_error he
    omega

theorem noteMissing (h : Above base p) (ref : TypeRef) : Above base (p.noteMissing ref) := by
  unfold Typing.noteMissing
  split
  · exact h.note rfl
  · exact h

theorem noteMissingReturn (h : Above base p) (callee : Node) :
    Above base (p.noteMissingReturn callee) := by
  unfold Typing.noteMissingReturn
  split
  · exact h.noteMissing _
  · exact h

theorem declareParams (h : Above base p) (hb : 0 < base.depth) (params : List Node) :
    Above base (params.foldl declareParam p) := by
  induction params generalizing p with
  | nil => exact h
  | cons k params ih => exact ih (h.declare hb _ _)

theorem enter (h : Above base p) (hb : 0 < base.depth) (n : Node) :
    Above base (enter n p).2 := by
  unfold Typing.enter
  split
  · exact h
  · split
    · exact ((h.withReturns _).openScope _).declareParams hb _
    · exact ((h.withReturns _).openScope _).declareParams hb _
    · exact ((h.withReturns _).openScope _).declareParams hb _
    · exact (h.openScope _).declareParams hb _
    · dsimp only
      split
      · exact h.openScope _
      · exact h

theorem leaveFunction (h : Above base p) (hb : 0 < base.depth) (hd : base.depth < p.table.depth)
    (n : Node) (id : Option Node) (body : Node) : Above base (p.leaveFunction n id body).2 := by
  have hc := (h.closeScope hd n.kind).withReturns (p.closeScope n.kind).returns.tail
  unfold Typing.leaveFunction
  simp only
  split
  · exact hc.fail (by rintro _ ⟨⟩)
  · cases id with
    | none =>
      simp only [Option.map_none]
      split
      · exact hc
      · exact hc.note rfl
    | some k =>
      simp only [Option.map_some]
      split
      · exact hc.declare hb _ _
      · exact (hc.declare hb _ _).note rfl

/-- Leaving a node keeps the frames below, if the frame of the node is there to be closed. -/
theorem leaveNode (h : Above base p) (hb : 0 < base.depth)
    (hd : base.depth + framesOf n.kind ≤ p.table.depth) : Above base (p.leaveNode place n).2 := by
  obtain ⟨loc, type, shape⟩ := n
  cases shape with
  | identifier name => exact (h.noteMissing _).note rfl
  | member o k computed =>
    simp only [Typing.leaveNode, leaveMember]
    split
    · split
      · exact h.fail (by rintro _ ⟨⟩)
      · exact h.note rfl
    · split
      · exact (h.noteMissing _).note rfl
      · exact h.note rfl
  | call callee args =>
    simp only [Typing.leaveNode, leaveCall]
    split <;> exact (h.noteMissingReturn _).note rfl
  | construct callee args => exact (h.noteMissingReturn _).note rfl
  | await argument => exact h.note rfl
  | declarator id init =>
    simp only [Typing.leaveNode, leaveDeclarator]
    split
    · exact h.update hb _ _
    · exact (h.update hb _ _).note rfl
  | assignment op left right =>
    simp only [Typing.leaveNode, leaveAssignment]
    cases left.name? with
    | none =>
      dsimp only
      split
      · exact h
      · exact h.note rfl
    | some name =>
      dsimp only
      split
      · exact h.update hb _ _
      · exact (h.update hb _ _).note rfl
  | function id params body | arrow params body | functionDecl id params body =>
    exact h.leaveFunction hb hd _ _ _
  | «return» argument => exact (h.withReturns _).note rfl
  | block _ | «for» _ _ _ _ | forOf _ _ _ | «while» _ _ | catchClause _ _ =>
    exact h.closeScope hd _
  | _ => exact h.note rfl

end Above

/-- A walk closes the frames that it opens, those that were there before stay, and the frames that a
walk that fails leaves open stand on them. -/
theorem carried_above (hb : 0 < base.depth) :
    Carried (fun p q => (Above base p → Above base q) ∧
      (q.failure = none → p.failure = none ∧ q.table.depth = p.table.depth)) (fun _ _ => True) := by
  have hm :=
    Carried.measure (f := fun p => p.table.depth) (w := framesOf) enter_depth leaveNode_depth
  constructor
  case refl => exact fun p => ⟨id, hm.refl p⟩
  case trans => exact fun hp hq => ⟨hq.1 ∘ hp.1, hm.trans hp.2 hq.2⟩
  case before => exact fun _ _ => trivial
  case failed => exact fun hp hr hf => ⟨fun h => hr.1 (h.enter hb _), hm.failed hp hr.2 hf⟩
  case left =>
    intro place n m p q hp hr hq hk ht
    refine ⟨⟨fun h => (hr.1 (h.enter hb n)).leaveNode hb ?_, (hm.left hp hr.2 hq hk ht).1⟩,
      fun _ => trivial⟩
    have := h.depth_le
    rw [hk, (hr.2 hq).2, enter_depth n hp]
    omega

theorem run_above {t : SymbolTable} (ht : 0 < t.depth) (program : Node) :
    Above t (run program t).2 ∧
      ((run program t).2.failure = none → (run program t).2.table.depth = t.depth) := by
  obtain ⟨ha, hd⟩ := ((carried_above ht).run program t).1
  exact ⟨ha (.start t), fun h => (hd h).2⟩

end Typing

namespace ProgramScope

variable {s : ProgramScope} {t : SymbolTable}

/-- **The frames of a rewriting.** Whether it fails or not, a rewriting ends with the frames that
were open when the program frame had been opened: as many, with the names that they had bound, and
more in the innermost one at most. What it logs tells of no closing of one of these, its errors are
none of the scope stack, and the registry stays. -/
theorem rewrite_frames (s : ProgramScope) (t : SymbolTable) (tree : Node)
    (ht : 0 < (s.enter t).2.depth) :
    let r := s.rewrite t tree
    let u := (s.enter t).2
    r.scope = (s.enter t).1 ∧ r.table.registry = t.registry ∧
      (∃ new, r.table.boundNames = extendTop u.boundNames new) ∧
      (∀ e ∈ r.log, ∀ d, e.leaves? = some d → u.depth ≤ d) ∧
      ∀ e, r.failure ≠ some (.scope e) := by
  obtain ⟨ha, hd⟩ := Typing.run_above ht tree
  have hu : (s.enter t).2.registry = t.registry := by cases s <;> rfl
  simp only [rewrite]
  cases hf : (Typing.run tree (s.enter t).2).2.failure with
  | none =>
    have hl := ha.stack.eq_of_length (by simpa using hd hf)
    refine ⟨rfl, ha.registry.trans hu, hl, ?_, by rintro _ ⟨⟩⟩
    exact fun e he => ha.closings e (List.mem_reverse.1 he)
  | some e =>
    obtain ⟨v, hv, hr, hdv, hs⟩ := SymbolTable.unwind_standsOn ha.stack
    simp only [hv]
    refine ⟨trivial, (hr.trans ha.registry).trans hu, hs.eq_of_length (by simpa using hdv), ?_, ?_⟩
    · intro e he d hd
      rw [List.mem_reverse] at he
      split at he
      · rcases List.mem_cons.1 he with rfl | he
        · cases hd
          exact Nat.le_refl _
        · exact ha.closings e he d hd
      · exact ha.closings e he d hd
    · exact fun e' he => ha.framed e' (hf.trans he)

end ProgramScope

end AutoAwait
