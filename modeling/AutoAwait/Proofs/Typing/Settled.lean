import AutoAwait.Proofs.Typing.Mentioned

/-!
# The names that a program leaves open

Of the names that a program mentions only the free ones matter to its awaits: those whose type it
reads where it has not bound them in any scope that is open. Once it has bound a name, the name has
the type that the program has given it, whatever the table that the pass started from.

* `SymbolTable.Synced` relates what two tables bind a name to that the program has bound in some of
  its open scopes;
* `Typing.run_settled` is the main statement: tables that agree on the free names lead to the same
  awaits.
-/

namespace AutoAwait

theorem Scopes.binds_cons (top : List String) (outer : Scopes) (name : String) :
    Scopes.binds (top :: outer) name = (top.contains name || Scopes.binds outer name) := rfl

namespace SymbolTable

/-- What two tables bind a name to. Nothing is known while the program has not bound the name. Where
it has bound it in the innermost scope, the name has one value in both tables, which may stand in
different frames; where it has bound it in an outer scope, that is so of the frames below, and the
innermost frames bind the name alike. -/
inductive Synced (z : String) : Scopes → List (Option TypeRef) → List (Option TypeRef) → Prop
  | free {s a b} (unbound : Scopes.binds s z = false) : Synced z s a b
  | here {top outer a b} (unbound : Scopes.binds outer z = false) (same : visible b = visible a)
      (bound : (visible a).isSome) : Synced z (top :: outer) a b
  | inner {top outer x a b} (bound : Scopes.binds outer z) (below : Synced z outer a b) :
      Synced z (top :: outer) (x :: a) (x :: b)

variable {z : String} {s : Scopes} {a b : List (Option TypeRef)} {x y : Option TypeRef} {r : Registry}

theorem visible_none (a : List (Option TypeRef)) : visible (none :: a) = visible a := rfl

theorem updated_none (ref : TypeRef) (h : (visible a).isSome) :
    updated ref (none :: a) = none :: updated ref a := by
  rw [updated, updated, visible_none, if_pos h, if_pos h, rebound]

theorem visible_updated (ref : TypeRef) (a : List (Option TypeRef)) :
    visible (updated ref a) = some ref := by
  have hr : ∀ {a}, (visible a).isSome → visible (rebound ref a) = some ref := by
    intro a ha
    induction a with
    | nil => cases ha
    | cons x a ih =>
      cases x with
      | none => exact ih ha
      | some v => rfl
  rw [updated]
  split
  · exact hr ‹_›
  · rfl

namespace Synced

theorem visible_eq (h : Synced z s a b) (hb : Scopes.binds s z) :
    visible b = visible a ∧ (visible a).isSome := by
  induction h with
  | free unbound =>
    rw [unbound] at hb
    cases hb
  | here _ same bound => exact ⟨same, bound⟩
  | @inner _ _ x _ _ bound _ ih =>
    cases x with
    | none => exact ih bound
    | some v => exact ⟨rfl, rfl⟩

theorem push (h : Synced z s a b) : Synced z ([] :: s) (none :: a) (none :: b) := by
  cases hs : Scopes.binds s z with
  | false => exact .free hs
  | true => exact .inner hs h

theorem pop (h : Synced z s (x :: a) (y :: b)) : Synced z (s.drop 1) a b := by
  cases h with
  | free unbound =>
    refine .free ?_
    cases s with
    | nil => rfl
    | cons top outer =>
      rw [Scopes.binds_cons, Bool.or_eq_false_iff] at unbound
      exact unbound.2
  | here unbound => exact .free unbound
  | inner _ below => exact below

/-- Binding the name in the innermost frames of both tables. -/
theorem declare (h : Synced z s (x :: a) (y :: b)) (ref : TypeRef) :
    Synced z (Scopes.bind s z) (some ref :: a) (some ref :: b) := by
  cases s with
  | nil => exact .free rfl
  | cons top outer =>
    cases ho : Scopes.binds outer z with
    | false => exact .here ho rfl rfl
    | true => exact .inner ho h.pop

theorem rebind (h : Synced z s a b) (hb : Scopes.binds s z) (ref : TypeRef) :
    Synced z s (updated ref a) (updated ref b) := by
  induction h with
  | free unbound => exact .free unbound
  | here unbound same bound =>
    refine .here unbound ?_ ?_
    · rw [visible_updated, visible_updated]
    · rw [visible_updated]
      rfl
  | @inner top outer x a b bound below ih =>
    cases x with
    | some v => exact .inner bound below
    | none =>
      obtain ⟨same, hv⟩ := below.visible_eq bound
      rw [updated_none ref hv, updated_none ref (same ▸ hv)]
      exact .inner bound (ih bound)

/-- Assigning to the name in both tables. -/
theorem update (h : Synced z s a b) (ref : TypeRef) :
    Synced z (Scopes.assign s z) (updated ref a) (updated ref b) := by
  unfold Scopes.assign
  split
  · exact h.rebind ‹_› ref
  · next hs =>
    cases s with
    | nil => exact .free rfl
    | cons top outer =>
      rw [Bool.not_eq_true, Scopes.binds_cons, Bool.or_eq_false_iff] at hs
      refine .here hs.2 ?_ ?_
      · rw [visible_updated, visible_updated]
      · rw [visible_updated]
        rfl

/-- Binding another name. -/
theorem other {w : String} (h : Synced z s a b) (hw : w ≠ z) : Synced z (Scopes.bind s w) a b := by
  have hb : ∀ top : List String, (w :: top).contains z = top.contains z := by
    intro top
    rw [List.contains_cons, beq_false_of_ne (Ne.symm hw), Bool.false_or]
  cases h with
  | free unbound =>
    refine .free ?_
    cases s with
    | nil => rfl
    | cons top outer =>
      rw [Scopes.bind, Scopes.binds_cons, hb]
      exact unbound
  | here unbound same bound => exact .here unbound same bound
  | inner bound below => exact .inner bound below

end Synced

theorem synced_lockstep (r : Registry) :
    Lockstep r (fun s z => Scopes.binds s z) (fun s z => Synced z s) where
  sees h hb := by rw [shows, shows, (h.visible_eq hb).1]
  push h := h.push
  pop h := h.pop
  declare h ref := h.declare ref
  update h ref := h.update ref
  other h _ hw := h.other hw

/-- Two tables that give some names one type, frame by frame. -/
abbrev AgreesInType (K : String → Prop) (t u : SymbolTable) : Prop :=
  AgreesOn (fun v w => t.resolve w = t.resolve v) K t u

end SymbolTable

/-- **Only the free names matter.** Take two tables with one registry and as many frames, which bind
each free name of a program in the same frames to the same types. The pass over the program ends with
the same error from both, if any, and puts awaits around the same calls. -/
theorem Typing.run_settled {program : Node} {t u : SymbolTable}
    (h : SymbolTable.AgreesInType (· ∈ program.freeNames) t u) :
    (run program u).2.failure = (run program t).2.failure ∧
      (run program u).1.withoutTypes = (run program t).1.withoutTypes := by
  have hfree : Lockstep t.registry (fun _ name => name ∈ program.freeNames)
      (SymbolTable.SameColumns (fun v w => t.resolve w = t.resolve v) (· ∈ program.freeNames)) := by
    apply SymbolTable.sameColumns_lockstep
    · intro v
      rfl
    · intro v w h
      exact h
  have hC := hfree.and (SymbolTable.synced_lockstep t.registry)
  have hp := h.paired [[]]
  have hl := run_lockstep hC True program
    ⟨hp.registry, hp.depth, fun z => ⟨hp.columns z, .free rfl⟩⟩ fun l hl hread => by
      cases hb : l.scopes.binds l.name with
      | true => exact .inr hb
      | false =>
        refine .inl (List.mem_map.2 ⟨l, List.mem_filter.2 ⟨hl, ?_⟩, rfl⟩)
        rw [Lookup.free, hread trivial, hb]
        rfl
  exact ⟨hl.beside.failure, hl.alike.withoutTypes⟩

end AutoAwait
