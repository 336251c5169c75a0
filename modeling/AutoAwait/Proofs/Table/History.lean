import AutoAwait.Proofs.Results
import AutoAwait.Proofs.Typing.Frames
import AutoAwait.TableStep

/-!
# The history of a scope

A scope is opened, names are declared, updated and looked up, other scopes are opened and closed
within it, and at last it is closed. Which frame an update binds a name in depends on all frames that
are open at that moment. Still the frames around the scope can be told from those updates alone that
found the name bound in one of them and nowhere further in.

* `SymbolTable.bindingAt?` is what the frame at a place binds a name to, `SymbolTable.Innermost` says
  that no frame further in binds the name as well;
* `SymbolTable.bindingAt?_update` is what an update does to each frame below the innermost one, and
  `SymbolTable.denotes_lookup` what is found when a name is looked up;
* `SymbolTable.perform` performs steps and keeps their `History`; `TableStep.Balanced` says that steps
  close the frames that they open, and no others;
* `History.Reaches` is what a history keeps of the frames below it: `History.Reaches.step` for one
  step, `History.Reaches.run` for all;
* `SymbolTable.perform_scope` is the main statement.
-/

namespace AutoAwait

namespace SymbolTable

variable {t u : SymbolTable} {r : Registry} {f : Frame} {fs gs : List Frame}
variable {name other : String} {ref : TypeRef} {i : Nat}

/-! ## Frames by their places -/

/-- What the frame at a place, counted from the bottom, binds a name to. -/
def bindingAt? (t : SymbolTable) (place : Nat) (name : String) : Option TypeRef :=
  (t.frameAt? place).bind (·.get? name)

/-- Is the frame at a place the innermost one that binds a name? -/
def Innermost (t : SymbolTable) (name : String) (place : Nat) : Prop :=
  (t.bindingAt? place name).isSome ∧ ∀ j < t.depth, place < j → t.bindingAt? j name = none

instance (t : SymbolTable) (name : String) (place : Nat) : Decidable (t.Innermost name place) :=
  inferInstanceAs (Decidable (_ ∧ _))

/-- Is a reference what the innermost frame that binds a name binds it to, or the unknown type of the
registry if no frame binds it? -/
def Denotes (t : SymbolTable) (name : String) (ref : TypeRef) : Prop :=
  (∃ i, t.Innermost name i ∧ t.bindingAt? i name = some ref) ∨
    (∀ i, t.bindingAt? i name = none) ∧ ref = .type t.registry.unknown

theorem bindingAt?_eq_none (r : Registry) (h : fs.length ≤ i) (name : String) :
    bindingAt? ⟨r, fs⟩ i name = none := by
  rw [bindingAt?, frameAt?, List.getElem?_eq_none (by simpa using h)]
  rfl

/-- The place of the innermost frame is the number of the others. -/
theorem bindingAt?_cons (r : Registry) (f : Frame) (fs : List Frame) (i : Nat) (name : String) :
    bindingAt? ⟨r, f :: fs⟩ i name =
      if i = fs.length then f.get? name else bindingAt? ⟨r, fs⟩ i name := by
  simp only [bindingAt?, frameAt?, List.reverse_cons, List.getElem?_append, List.length_reverse]
  split
  · next h => rw [if_neg (Nat.ne_of_lt h)]
  · next h =>
    rw [List.getElem?_eq_none (l := fs.reverse) (by simpa using h)]
    split
    · next he => simp [he]
    · next hne => rw [List.getElem?_eq_none (by simp; omega)]

/-- Frames that stay the lowest ones bind what they have bound. -/
theorem bindingAt?_of_frames (above : List Frame) (h : u.frames = above ++ t.frames)
    (hi : i < t.depth) (name : String) : u.bindingAt? i name = t.bindingAt? i name := by
  have hi : i < t.frames.reverse.length := by rwa [List.length_reverse]
  rw [bindingAt?, bindingAt?, frameAt?, frameAt?, h, List.reverse_append,
    List.getElem?_append_left hi]

/-! An innermost frame either binds the name, and then it is the one, or it makes no difference. -/

theorem innermost_cons_binds (h : f.binds name) :
    Innermost ⟨r, f :: fs⟩ name i ↔ i = fs.length := by
  have htop : (bindingAt? ⟨r, f :: fs⟩ fs.length name).isSome := by
    rw [bindingAt?_cons, if_pos rfl]
    exact h
  constructor
  · rintro ⟨hi, ha⟩
    rcases Nat.lt_trichotomy i fs.length with hlt | heq | hgt
    · rw [ha fs.length (Nat.lt_succ_self _) hlt] at htop
      cases htop
    · exact heq
    · rw [bindingAt?_eq_none r hgt] at hi
      cases hi
  · rintro rfl
    exact ⟨htop, fun j hj hij => absurd hj (Nat.not_lt.2 hij)⟩

theorem bindingAt?_cons_unbound (h : ¬f.binds name) (i : Nat) :
    bindingAt? ⟨r, f :: fs⟩ i name = bindingAt? ⟨r, fs⟩ i name := by
  rw [bindingAt?_cons]
  split
  · next hi =>
    rw [bindingAt?_eq_none r (Nat.le_of_eq hi.symm)]
    simpa [Bindings.binds] using h
  · rfl

theorem innermost_cons_unbound (h : ¬f.binds name) :
    Innermost ⟨r, f :: fs⟩ name i ↔ Innermost ⟨r, fs⟩ name i := by
  simp only [Innermost, bindingAt?_cons_unbound h]
  refine and_congr_right fun _ => ⟨fun ha j hj => ha j (Nat.lt_succ_of_lt hj), fun ha j hj hij => ?_⟩
  rcases Nat.lt_or_ge j fs.length with hlt | hge
  · exact ha j hlt hij
  · exact bindingAt?_eq_none r hge name

/-! ## Operations -/

/-- Looking up a name finds what it denotes. -/
theorem denotes_lookup (t : SymbolTable) (name : String) : t.Denotes name (t.lookup name) := by
  obtain ⟨r, fs⟩ := t
  show Denotes ⟨r, fs⟩ name ((find? name fs).getD (.type r.unknown))
  induction fs with
  | nil => exact .inr ⟨fun _ => rfl, rfl⟩
  | cons f fs ih =>
    cases hf : f.get? name with
    | some a =>
      have hb : f.binds name := by rw [Bindings.binds, hf]; rfl
      have hfind : find? name (f :: fs) = some a := by rw [find?, List.findSome?_cons, hf]
      refine .inl ⟨fs.length, (innermost_cons_binds hb).2 rfl, ?_⟩
      rw [bindingAt?_cons, if_pos rfl, hf, hfind]
      rfl
    | none =>
      have hb : ¬f.binds name := by simp [Bindings.binds, hf]
      have hfind : find? name (f :: fs) = find? name fs := by rw [find?, List.findSome?_cons, hf]; rfl
      rw [hfind]
      simpa only [Denotes, innermost_cons_unbound hb, bindingAt?_cons_unbound hb] using ih

/-- A name is bound anew in the innermost frame that binds it, and nothing else changes. -/
theorem bindingAt?_rebind (h : rebind name ref fs = some gs) (i : Nat) (other : String) :
    bindingAt? ⟨r, gs⟩ i other =
      if name = other ∧ Innermost ⟨r, fs⟩ name i then some ref else bindingAt? ⟨r, fs⟩ i other := by
  induction fs generalizing gs with
  | nil => cases h
  | cons f fs ih =>
    simp only [rebind] at h
    split at h
    · next hb =>
      cases h
      simp only [bindingAt?_cons, innermost_cons_binds hb, Bindings.get?_put]
      by_cases hi : i = fs.length <;> simp [hi]
    · next hb =>
      obtain ⟨gs, hg, rfl⟩ := Option.map_eq_some_iff.1 h
      have hl : gs.length = fs.length := by simpa using congrArg List.length (names_rebind hg).1
      simp only [bindingAt?_cons, ih hg, innermost_cons_unbound hb, hl]
      by_cases hi : i = fs.length
      · -- there are not as many frames further out
        have hnone := bindingAt?_eq_none r (Nat.le_of_eq hi.symm) name
        have hnot : ¬Innermost ⟨r, fs⟩ name i := fun hin => by simpa [hnone] using hin.1
        rw [if_pos hi, if_pos hi, if_neg fun hc => hnot hc.2]
      · rw [if_neg hi, if_neg hi]

theorem not_innermost_of_rebind (h : rebind name ref fs = none) (i : Nat) :
    ¬Innermost ⟨r, fs⟩ name i := by
  induction fs with
  | nil => exact fun hi => nomatch hi.1
  | cons f fs ih =>
    simp only [rebind] at h
    split at h
    · cases h
    · next hb =>
      rw [innermost_cons_unbound hb]
      exact ih (Option.map_eq_none_iff.1 h)

/-- Declaring a name changes the innermost frame alone. -/
theorem bindingAt?_declare (h : t.declare other ref = .ok u) (hi : i + 1 < t.depth) (name : String) :
    u.bindingAt? i name = t.bindingAt? i name := by
  unfold declare at h
  split at h
  · cases h
  · next f fs hf =>
    cases h
    have hi : i < (⟨t.registry, fs⟩ : SymbolTable).depth := by simpa [depth, hf] using hi
    exact (bindingAt?_of_frames [f.put other ref] rfl hi name).trans
      (bindingAt?_of_frames [f] hf hi name).symm

/-- **An update and the frames below the innermost one.** In such a frame the name is bound anew if
this is the innermost frame that binds it, and nothing else changes. -/
theorem bindingAt?_update (h : t.update other ref = .ok u) (hi : i + 1 < t.depth) (name : String) :
    u.bindingAt? i name =
      if other = name ∧ t.Innermost other i then some ref else t.bindingAt? i name := by
  unfold update at h
  split at h
  · next hr =>
    cases h
    exact bindingAt?_rebind hr i name
  · next hr => rw [bindingAt?_declare h hi, if_neg fun hc => not_innermost_of_rebind hr i hc.2]

/-- The innermost frame of a table that has one can be closed. -/
theorem exists_pop (h : 0 < t.depth) :
    ∃ f u, t.pop = .ok (f, u) ∧ u.registry = t.registry ∧ t.depth = u.depth + 1 ∧
      t.boundNames = Bindings.names f :: u.boundNames ∧
      ∀ i < u.depth, ∀ name, u.bindingAt? i name = t.bindingAt? i name := by
  cases hp : t.pop with
  | error e => exact absurd (pop_error hp) (Nat.ne_of_gt h)
  | ok p =>
    obtain ⟨f, u⟩ := p
    obtain ⟨hr, hf⟩ := pop_ok hp
    refine ⟨f, u, rfl, hr.symm, congrArg List.length hf, ?_, fun i hi name => ?_⟩
    · rw [boundNames, hf, List.map_cons, boundNames]
    · exact (bindingAt?_of_frames [f] hf hi name).symm

end SymbolTable

/-- What stands on some frames still does when a name is bound. -/
theorem StandsOn.of_bound {base : List (List String)} {t u : SymbolTable}
    (h : StandsOn base t.boundNames) (hb : t.Bound u) : StandsOn base u.boundNames := by
  obtain ⟨-, top, below, new, ht, hu⟩ := hb
  rw [ht] at h
  rw [hu]
  exact h.bind new

/-! ## Histories -/

/-- A step that has been performed. -/
structure PerformedStep where
  step : TableStep
  /-- The table that it was performed on. -/
  table : SymbolTable
  answer : TableAnswer

/-- What a step binds a name to if it is an update of the name, and the frame at a place was then the
innermost one that bound it. -/
def PerformedStep.updated? (p : PerformedStep) (name : String) (place : Nat) : Option TypeRef :=
  match p.step with
  | .update other ref => if other = name ∧ p.table.Innermost other place then some ref else none
  | _ => none

/-- The steps that have been performed on a table, in order, and the table after them. -/
structure History where
  steps : List PerformedStep
  table : SymbolTable

namespace History

/-- Performs one more step. -/
def perform (h : History) (s : TableStep) : Except ScopeError History :=
  (s.run h.table).map fun r => ⟨h.steps ++ [⟨s, h.table, r.1⟩], r.2⟩

/-- What a name has been bound to, in order, by the updates of it that were performed while the frame
at a place was the innermost one that bound it. -/
def updates (h : History) (name : String) (place : Nat) : List TypeRef :=
  h.steps.filterMap (·.updated? name place)

end History

/-- Performs steps on a table, one after the other. -/
def SymbolTable.perform (t : SymbolTable) (steps : List TableStep) : Except ScopeError History :=
  steps.foldlM History.perform ⟨[], t⟩

namespace TableStep

/-- How many of the frames that some steps open are open after one of the steps, told from how many
were open before it. A step that closes any other frame is not allowed for, nor is one that neither
opens or closes a frame nor binds a name or looks one up. -/
def nest? (opened : Nat) : TableStep → Option Nat
  | .push => some (opened + 1)
  | .pop => if opened = 0 then none else some (opened - 1)
  | .declare _ _ | .update _ _ | .lookup _ => some opened
  | _ => none

/-- Do some steps open and close frames, bind names and look names up in such a way that they close
each frame that they open, and no other? -/
def Balanced (steps : List TableStep) : Prop := steps.foldlM nest? 0 = some 0

end TableStep

namespace History

variable {base u : SymbolTable} {h : History} {s : TableStep} {a : TableAnswer} {k k' : Nat}

theorem updates_append (h : History) (p : PerformedStep) (u : SymbolTable) (name : String) (i : Nat) :
    updates ⟨h.steps ++ [p], u⟩ name i = h.updates name i ++ (p.updated? name i).toList := by
  rw [updates, List.filterMap_append, updates]
  cases hp : p.updated? name i <;> simp [hp]

/-- A history keeps every step that is performed. -/
theorem map_step_of_foldlM {steps : List TableStep} {h' : History}
    (hrun : steps.foldlM perform h = .ok h') :
    h'.steps.map (·.step) = h.steps.map (·.step) ++ steps := by
  induction steps generalizing h with
  | nil =>
    cases hrun
    exact (List.append_nil _).symm
  | cons s steps ih =>
    rw [List.foldlM_cons] at hrun
    obtain ⟨h₁, hs, hrun⟩ := bind_ok.1 hrun
    obtain ⟨r, -, rfl⟩ := map_ok.1 hs
    rw [ih hrun, List.map_append, List.append_assoc]
    rfl

/-- A history has led from the table `base` to one with `k` frames above those of `base`. These are
still there; the innermost of them may bind more names than it did, and each other one binds a name
to what the last update has bound it to that found it bound there and not further in, if there was
one. -/
structure Reaches (base : SymbolTable) (k : Nat) (h : History) : Prop where
  registry : h.table.registry = base.registry
  depth : h.table.depth = base.depth + k
  names : StandsOn base.boundNames h.table.boundNames
  bindings : ∀ i, i + 1 < base.depth → ∀ name,
    h.table.bindingAt? i name = (h.updates name i).getLast?.or (base.bindingAt? i name)
  steps : ∀ p ∈ h.steps, p.table.registry = base.registry ∧
    ∃ u, p.step.run p.table = .ok (p.answer, u)

namespace Reaches

/-- What a step has to do for the frames below to be kept. -/
theorem next (hr : Reaches base k h) (hs : s.run h.table = .ok (a, u))
    (registry : u.registry = h.table.registry) (depth : u.depth = base.depth + k')
    (names : StandsOn base.boundNames u.boundNames)
    (bindings : ∀ i, i + 1 < base.depth → ∀ name, u.bindingAt? i name =
      (PerformedStep.updated? ⟨s, h.table, a⟩ name i).or (h.table.bindingAt? i name)) :
    ∃ h', h.perform s = .ok h' ∧ Reaches base k' h' := by
  refine ⟨⟨h.steps ++ [⟨s, h.table, a⟩], u⟩, by rw [perform, hs]; rfl,
    registry.trans hr.registry, depth, names, fun i hi name => ?_, ?_⟩
  · rw [updates_append, List.getLast?_append, bindings i hi, hr.bindings i hi, Option.or_assoc]
    cases PerformedStep.updated? ⟨s, h.table, a⟩ name i <;> rfl
  · rw [List.forall_mem_append]
    exact ⟨hr.steps, List.forall_mem_singleton.2 ⟨hr.registry, u, hs⟩⟩

/-- A step that binds a name. -/
theorem bind (hr : Reaches base k h) (hs : s.run h.table = .ok (a, u)) (hu : h.table.Bound u)
    (bindings : ∀ i, i + 1 < base.depth → ∀ name, u.bindingAt? i name =
      (PerformedStep.updated? ⟨s, h.table, a⟩ name i).or (h.table.bindingAt? i name)) :
    ∃ h', h.perform s = .ok h' ∧ Reaches base k h' :=
  hr.next hs hu.1 (hu.depth.trans hr.depth) (hr.names.of_bound hu) bindings

/-- Closing a frame above those that are kept. -/
theorem pop (hr : Reaches base k h) (hk : 0 < k) :
    ∃ h', h.perform .pop = .ok h' ∧ Reaches base (k - 1) h' := by
  have hd := hr.depth
  obtain ⟨f, u, hp, hreg, hdu, hnames, hbind⟩ := SymbolTable.exists_pop (t := h.table) (by omega)
  have hstands := hr.names
  rw [hnames] at hstands
  refine hr.next (s := .pop) (by rw [TableStep.run, hp]; rfl) hreg (by omega)
    (hstands.pop ?_) fun i hi name => hbind i (by omega) name
  rw [SymbolTable.length_boundNames, SymbolTable.length_boundNames]
  omega

/-- **One step of a history** can be performed, and it keeps the frames below. -/
theorem step (hr : Reaches base k h) (hb : 0 < base.depth) (hk : s.nest? k = some k') :
    ∃ h', h.perform s = .ok h' ∧ Reaches base k' h' := by
  have hd := hr.depth
  cases s with
  | push =>
    cases hk
    refine hr.next rfl rfl ?_ hr.names.push fun i hi name => ?_
    · rw [SymbolTable.depth_push, hd, Nat.add_assoc]
    · exact SymbolTable.bindingAt?_of_frames [[]] rfl (by omega) name
  | pop =>
    simp only [TableStep.nest?] at hk
    split at hk
    · cases hk
    · next hne =>
      cases hk
      exact hr.pop (Nat.pos_of_ne_zero hne)
  | declare other ref =>
    cases hk
    cases hu : h.table.declare other ref with
    | error e => exact absurd (SymbolTable.declare_error hu) (by omega)
    | ok u =>
      refine hr.bind (s := .declare other ref) (by rw [TableStep.run, hu]; rfl)
        (SymbolTable.bound_of_declare hu) fun i hi name => ?_
      exact SymbolTable.bindingAt?_declare hu (by omega) name
  | update other ref =>
    cases hk
    cases hu : h.table.update other ref with
    | error e => exact absurd (SymbolTable.update_error hu) (by omega)
    | ok u =>
      refine hr.bind (s := .update other ref) (by rw [TableStep.run, hu]; rfl)
        (SymbolTable.bound_of_update hu) fun i hi name => ?_
      rw [SymbolTable.bindingAt?_update hu (by omega), PerformedStep.updated?]
      dsimp only
      split <;> rfl
  | lookup other =>
    cases hk
    exact hr.next rfl rfl hd hr.names fun i hi name => rfl
  | _ => cases hk

/-- **All steps of a history** can be performed, and they keep the frames below. -/
theorem run (hr : Reaches base k h) (hb : 0 < base.depth) {steps : List TableStep}
    (hk : steps.foldlM TableStep.nest? k = some k') :
    ∃ h', steps.foldlM History.perform h = .ok h' ∧ Reaches base k' h' := by
  induction steps generalizing h k with
  | nil =>
    cases hk
    exact ⟨h, rfl, hr⟩
  | cons s steps ih =>
    rw [List.foldlM_cons] at hk ⊢
    obtain ⟨j, hj, hk⟩ := Option.bind_eq_some_iff.1 hk
    obtain ⟨h₁, hs, hr₁⟩ := hr.step hb hj
    rw [hs]
    exact ih hr₁ hk

end Reaches

end History

namespace SymbolTable

/-- **A scope and the frames around it.** A scope is opened; then frames are opened and closed, names
are declared, updated and looked up, and the scope is closed. All of this can be performed. After it
there are as many frames as before, with exactly the names that they bound. Each of them binds a name
to what it bound it to, unless the name was updated while this was the innermost frame that bound it:
then to what the last of these updates has bound it to. What was looked up was found in the innermost
frame that bound the name at that moment; if none did, it was the unknown type of the registry. -/
theorem perform_scope (t : SymbolTable) {steps : List TableStep} (h : TableStep.Balanced steps) :
    ∃ history, t.perform (.push :: steps ++ [.pop]) = .ok history ∧
      history.steps.map (·.step) = .push :: steps ++ [.pop] ∧
      history.table.depth = t.depth ∧
      history.table.boundNames = t.boundNames ∧
      (∀ i < t.depth, ∀ name, history.table.bindingAt? i name =
        (history.updates name i).getLast?.or (t.bindingAt? i name)) ∧
      ∀ p ∈ history.steps, ∀ name, p.step = .lookup name →
        p.table.registry = t.registry ∧ p.table.Denotes name (p.table.lookup name) ∧
          p.answer = .type (t.registry.describe (p.table.lookup name)) := by
  -- the frames are compared with those at the opening of the scope, whose own frame may bind more
  have hopen : History.perform ⟨[], t⟩ .push = .ok ⟨[⟨.push, t, .done⟩], t.push⟩ := rfl
  have hopened : History.Reaches t.push 0 ⟨[⟨.push, t, .done⟩], t.push⟩ :=
    ⟨rfl, rfl, .refl _, fun _ _ _ => rfl, List.forall_mem_singleton.2 ⟨rfl, _, rfl⟩⟩
  obtain ⟨inner, hrun, hinner⟩ := hopened.run (Nat.succ_pos _) h
  have hdepth : inner.table.depth = t.depth + 1 := hinner.depth
  obtain ⟨f, u, hp, -, hdu, hnames, hbind⟩ := exists_pop (t := inner.table) (by omega)
  let closing : PerformedStep := ⟨.pop, inner.table, .frame (inner.table.describeFrame f)⟩
  have hclose : inner.perform .pop = .ok ⟨inner.steps ++ [closing], u⟩ := by
    rw [History.perform, TableStep.run, hp]
    rfl
  have hperform : t.perform (.push :: steps ++ [.pop]) = .ok ⟨inner.steps ++ [closing], u⟩ := by
    rw [perform, List.cons_append, List.foldlM_cons]
    refine bind_ok.2 ⟨_, hopen, ?_⟩
    rw [List.foldlM_append]
    exact bind_ok.2 ⟨inner, hrun, bind_ok.2 ⟨_, hclose, rfl⟩⟩
  refine ⟨_, hperform, History.map_step_of_foldlM hperform, Nat.succ.inj (hdu.symm.trans hdepth), ?_,
    fun i hi name => ?_, fun p hmem name hlookup => ?_⟩
  · -- only the frame that is closed has come to bind more names
    obtain ⟨extra, hextra⟩ := hinner.names.eq_of_length (by simpa using hinner.depth)
    rw [hnames] at hextra
    exact (List.cons.inj hextra).2
  · have hpush : t.push.bindingAt? i name = t.bindingAt? i name :=
      bindingAt?_of_frames [[]] rfl hi name
    have hupdates : (closing.updated? name i).toList = [] := rfl
    rw [hbind i (by omega), hinner.bindings i (Nat.succ_lt_succ hi), hpush, History.updates_append,
      hupdates, List.append_nil]
  · rcases List.mem_append.1 hmem with hmem | hmem
    · obtain ⟨hreg, v, hv⟩ := hinner.steps p hmem
      rw [hlookup] at hv
      have hreg : p.table.registry = t.registry := hreg
      refine ⟨hreg, p.table.denotes_lookup name, ?_⟩
      rw [← hreg]
      exact (congrArg Prod.fst (Except.ok.inj hv)).symm
    · cases List.mem_singleton.1 hmem
      cases hlookup

/-- The variable `x` is updated, then hidden by another one and updated within a frame further in, and
so is `db`, which is not hidden. -/
theorem perform_scope_of_shadowing :
    let t : SymbolTable := ⟨.ofTypes [], [[("x", .absent)], [("db", .named "Database")]]⟩
    let steps : List TableStep := [.update "x" (.named "A"), .declare "x" .absent, .push,
      .update "x" (.named "B"), .update "db" (.named "C"), .lookup "x", .pop]
    TableStep.Balanced steps ∧
      ∃ history, t.perform (.push :: steps ++ [.pop]) = .ok history ∧
        history.table.boundNames = [["x"], ["db"]] ∧
        history.table.bindingAt? 1 "x" = some (.named "A") ∧
        history.table.bindingAt? 0 "db" = some (.named "C") := by
  intro t steps
  have h : TableStep.Balanced steps := rfl
  obtain ⟨history, hrun, -, -, hnames, hbind, -⟩ := perform_scope t h
  have hx : (t.perform (.push :: steps ++ [.pop])).map (·.updates "x" 1) = .ok [.named "A"] := rfl
  have hdb : (t.perform (.push :: steps ++ [.pop])).map (·.updates "db" 0) = .ok [.named "C"] := rfl
  rw [hrun] at hx hdb
  have hx : history.updates "x" 1 = [.named "A"] := Except.ok.inj hx
  have hdb : history.updates "db" 0 = [.named "C"] := Except.ok.inj hdb
  refine ⟨h, history, hrun, hnames, ?_, ?_⟩
  · rw [hbind 1 (by decide), hx]
    rfl
  · rw [hbind 0 (by decide), hdb]
    rfl

end SymbolTable

end AutoAwait
