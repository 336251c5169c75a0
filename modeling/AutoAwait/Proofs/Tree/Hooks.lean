import AutoAwait.Proofs.Tree.Recorded
import Mathlib.Data.List.Flatten

/-!
# The calls of hooks in a walk

A visitor that asks for no walk over a replacement is called for the nodes of the tree that is
walked over, and for no others: for each node that has no skipped node above it, once when it is
entered and once when it is left.

* `Node.paths` are the paths of a tree in the order in which the source reads;
* `Node.substitute` is a tree with nodes replaced, those below first;
* `Bracketed` are the calls of hooks that open and close nodes like brackets;
* `Trace` is what is told of the calls in one walk; `Trace.descend` puts it together from the walks
  over the parts, and `Node.walk_trace` is the induction;
* `Node.record_hooks` is the main statement.
-/

namespace AutoAwait

variable {σ : Type}

/-! ## Paths and substitutions -/

namespace Node

/-- The paths to the nodes of a tree in pre-order. -/
def paths : Node → List Path :=
  fold fun _ parts => [] :: parts.kids.flatMap fun k => k.2.2.map (k.1 :: ·)

theorem paths_eq (n : Node) :
    n.paths = [] :: n.shape.kids.flatMap fun k => k.2.paths.map (k.1 :: ·) := by
  have hkids : ∀ {β : Type} (f : Node → β) (s : Shape Node),
      (s.map f).kids = s.kids.map fun k => (k.1, f k.2) := by
    intro β f s
    refine (List.forall₂_eq_eq_eq ▸ List.forall₂_map_right_iff.2 ?_ : (s.map f).kids = _)
    exact List.Forall₂.flip ((Shape.rel_map f s).kids.imp fun k l h => Prod.ext h.1.symm h.2)
  rw [paths, fold_eq, hkids, List.flatMap_map]

theorem cons_mem_paths {n : Node} {slot : Slot} {path : Path} :
    slot :: path ∈ n.paths ↔ ∃ k, (slot, k) ∈ n.shape.kids ∧ path ∈ k.paths := by
  rw [paths_eq, List.mem_cons, List.mem_flatMap]
  constructor
  · rintro (h | ⟨⟨s, k⟩, hk, h⟩)
    · cases h
    · obtain ⟨p, hp, he⟩ := List.mem_map.1 h
      cases he
      exact ⟨k, hk, hp⟩
  · rintro ⟨k, hk, hp⟩
    exact .inr ⟨(slot, k), hk, List.mem_map.2 ⟨path, hp, rfl⟩⟩

/-- No path is listed twice. -/
theorem nodup_paths (n : Node) : n.paths.Nodup := by
  induction n using induction with
  | step n ih =>
    rw [paths_eq, List.nodup_cons, List.nodup_flatMap]
    refine ⟨?_, fun k hk => ?_, ?_⟩
    · simp
    · exact (ih k.2 (List.mem_map.2 ⟨k, hk, rfl⟩)).map (List.cons_injective)
    · refine (List.pairwise_map.1 n.shape.nodup_slots).imp fun hne => List.disjoint_left.2 ?_
      rintro path hp hq
      obtain ⟨p, -, rfl⟩ := List.mem_map.1 hp
      obtain ⟨q, -, he⟩ := List.mem_map.1 hq
      exact hne (List.cons.inj he).1.symm

/-- The paths lead to the nodes of the tree, one after the other. -/
theorem map_at?_paths (n : Node) : n.paths.map n.at? = n.nodes.map some := by
  induction n using induction with
  | step n ih =>
    rw [paths_eq, nodes_eq, List.map_cons, List.map_cons, Shape.parts, List.flatMap_map,
      List.map_flatMap, List.map_flatMap]
    refine congrArg _ (List.flatMap_congr fun k hk => ?_)
    rw [← ih k.2 (List.mem_map.2 ⟨k, hk, rfl⟩), List.map_map]
    refine List.map_congr_left fun path _ => ?_
    rw [Function.comp, at?, part?, Shape.mem_kids_iff_part?.1 hk, Option.bind_some]

/-- A tree with nodes replaced: each part with its replacements in its slot, then the node. -/
def substitute : Node → (Path → Option Node) → Node :=
  fold fun n parts replaced => (replaced []).getD
    { n with shape := parts.mapSlots fun slot k => k.2 fun path => replaced (slot :: path) }

/-- A tree with nodes replaced below the root. -/
def substituteBelow (n : Node) (replaced : Path → Option Node) : Node :=
  { n with shape := n.shape.mapSlots fun slot k =>
      k.substitute fun path => replaced (slot :: path) }

theorem substitute_eq (n : Node) (replaced : Path → Option Node) :
    n.substitute replaced = (replaced []).getD (n.substituteBelow replaced) := by
  rw [substitute, fold_eq, substituteBelow]
  simp only [Shape.mapSlots_map]
  rfl

theorem substituteBelow_self {n : Node} {replaced : Path → Option Node}
    (h : ∀ k ∈ n.shape.kids, (k.2.substitute fun path => replaced (k.1 :: path)) = k.2) :
    n.substituteBelow replaced = n := by
  obtain ⟨loc, type, shape⟩ := n
  have hshape : shape.mapSlots (fun slot k => k.substitute fun path => replaced (slot :: path)) =
      shape := by
    apply (Shape.rel_mapSlots _ shape).symm.eq_of_parts
    rw [Shape.parts_mapSlots, Shape.parts]
    exact List.map_congr_left h
  rw [substituteBelow, hshape]

theorem substitute_none (n : Node) : n.substitute (fun _ => none) = n := by
  induction n using induction with
  | step n ih =>
    rw [substitute_eq, Option.getD_none]
    exact substituteBelow_self fun k hk => ih k.2 (List.mem_map.2 ⟨k, hk, rfl⟩)

theorem substituteBelow_none (n : Node) {replaced : Path → Option Node}
    (h : ∀ slot path, replaced (slot :: path) = none) : n.substituteBelow replaced = n :=
  substituteBelow_self fun k _ => by simp only [h, substitute_none]

/-- How a node stands below a node in a given place: the path to it, and its place as the slots of
its parent list it. -/
inductive Stands (n : Node) (place : Place) : Path → Place → Node → Prop
  | root : Stands n place [] place n
  | part {path above parent slot k} : Stands n place path above parent →
      (slot, k) ∈ parent.shape.kids → Stands n place (path ++ [slot]) (.part parent.kind slot) k

theorem Stands.deeper {n k m : Node} {place above : Place} {slot : Slot} {path : Path}
    (hk : (slot, k) ∈ n.shape.kids) (h : k.Stands (.part n.kind slot) path above m) :
    n.Stands place (slot :: path) above m := by
  induction h with
  | root => exact .part .root hk
  | part _ hs ih => exact .part ih hs

theorem Stands.at? {n m : Node} {place above : Place} {path : Path}
    (h : n.Stands place path above m) : n.at? path = some m := by
  have happend : ∀ {n parent : Node} {path slot}, n.at? path = some parent →
      n.at? (path ++ [slot]) = parent.part? slot := by
    intro n parent path slot hp
    induction path generalizing n with
    | nil =>
      obtain rfl := Option.some.inj hp
      cases hs : n.part? slot <;> simp [Node.at?, hs]
    | cons s path ih =>
      obtain ⟨k, hk, hp⟩ := Option.bind_eq_some_iff.1 hp
      rw [List.cons_append, Node.at?, hk, Option.bind_some, ih hp]
  induction h with
  | root => rfl
  | part _ hs ih => rw [happend ih, part?, Shape.mem_kids_iff_part?.1 hs]

end Node

/-! ## Calls of hooks -/

namespace HookCall

/-- Is a node entered? -/
def enters (c : HookCall) : Bool :=
  match c.answer with
  | .enter _ => true
  | .leave _ => false

/-- What is put in the place of the node at a path that is left. -/
def replacing (path : Path) (c : HookCall) : Option Node :=
  match c.answer with
  | .leave (.replace m _) => if c.path = path then some m else none
  | _ => none

/-- The same call in a tree in which the root of this one stands at a path. -/
def under (above : Path) (c : HookCall) : HookCall := { c with path := above ++ c.path }

end HookCall

variable {calls calls' : List HookCall} {above path : Path}

/-- The paths to the nodes that are entered, in order. -/
def enteredPaths (calls : List HookCall) : List Path := (calls.filter (·.enters)).map (·.path)

/-- The paths to the nodes that are left, in order. -/
def leftPaths (calls : List HookCall) : List Path := (calls.filter (!·.enters)).map (·.path)

/-- Is the node at a path skipped? -/
def Skips (calls : List HookCall) (path : Path) : Prop :=
  ∃ c ∈ calls, c.path = path ∧ c.answer = .enter .skip

/-- What is put in the place of the node at a path. -/
def replacement (calls : List HookCall) (path : Path) : Option Node :=
  calls.findSome? (·.replacing path)

/-- Calls of hooks that are properly nested: between entering a node and leaving it stand the calls
for the nodes below it, and all of them. -/
inductive Bracketed : List HookCall → Prop
  | nil : Bracketed []
  | node {e l inner rest} (enters : e.enters = true) (leaves : l.enters = false)
      (path : l.path = e.path) (place : l.place = e.place)
      (below : ∀ c ∈ inner, e.path <+: c.path ∧ c.path ≠ e.path)
      (beside : ∀ c ∈ rest, ¬e.path <+: c.path) :
      Bracketed inner → Bracketed rest → Bracketed (e :: inner ++ l :: rest)

theorem Bracketed.append (h : Bracketed calls) (h' : Bracketed calls')
    (hd : ∀ e ∈ calls, ∀ c ∈ calls', ¬e.path <+: c.path) : Bracketed (calls ++ calls') := by
  induction h with
  | nil => exact h'
  | @node e l inner rest he hl hp hplace hbelow hbeside hinner _ _ ih =>
    have hrest := ih fun c hc => hd c (by simp [hc])
    rw [List.append_assoc, List.cons_append]
    refine .node he hl hp hplace hbelow (fun c hc => ?_) hinner hrest
    rcases List.mem_append.1 hc with hc | hc
    · exact hbeside c hc
    · exact hd e (by simp) c hc

theorem Bracketed.under (h : Bracketed calls) (above : Path) :
    Bracketed (calls.map (·.under above)) := by
  induction h with
  | nil => exact .nil
  | @node e l inner rest he hl hp hplace hbelow hbeside _ _ ih ih' =>
    rw [List.map_append, List.map_cons, List.map_cons]
    refine .node he hl (congrArg (above ++ ·) hp) hplace ?_ ?_ ih ih'
    · intro c hc
      obtain ⟨d, hd, rfl⟩ := List.mem_map.1 hc
      obtain ⟨hpre, hne⟩ := hbelow d hd
      exact ⟨(List.prefix_append_right_inj above).2 hpre, fun h => hne (List.append_cancel_left h)⟩
    · intro c hc
      obtain ⟨d, hd, rfl⟩ := List.mem_map.1 hc
      exact fun hpre => hbeside d hd ((List.prefix_append_right_inj above).1 hpre)

/-- Every node that is entered is left, and no other. -/
theorem Bracketed.perm (h : Bracketed calls) : (leftPaths calls).Perm (enteredPaths calls) := by
  induction h with
  | nil => exact .refl _
  | @node e l inner rest he hl hp _ _ _ _ _ ih ih' =>
    simp only [leftPaths, enteredPaths, List.filter_append, List.filter_cons, he, hl,
      List.map_append, List.map_cons, hp, if_true, Bool.not_true, Bool.not_false,
      Bool.false_eq_true, if_false, List.cons_append] at ih ih' ⊢
    exact List.perm_middle.trans (.cons _ (ih.append ih'))

theorem enteredPaths_append (calls calls' : List HookCall) :
    enteredPaths (calls ++ calls') = enteredPaths calls ++ enteredPaths calls' := by
  simp [enteredPaths]

theorem enteredPaths_under (above : Path) (calls : List HookCall) :
    enteredPaths (calls.map (·.under above)) = (enteredPaths calls).map (above ++ ·) := by
  simp only [enteredPaths, List.filter_map, List.map_map]
  rfl

theorem replacement_append (calls calls' : List HookCall) (path : Path) :
    replacement (calls ++ calls') path = (replacement calls path).or (replacement calls' path) :=
  List.findSome?_append

theorem replacement_eq_none (h : ∀ c ∈ calls, c.path ≠ path) : replacement calls path = none := by
  refine List.findSome?_eq_none_iff.2 fun c hc => ?_
  unfold HookCall.replacing
  split
  · rw [if_neg (h c hc)]
  · rfl

theorem replacement_under (above path : Path) (calls : List HookCall) :
    replacement (calls.map (·.under above)) (above ++ path) = replacement calls path := by
  rw [replacement, replacement, List.findSome?_map]
  refine congrArg (List.findSome? · calls) (funext fun c => ?_)
  simp only [Function.comp, HookCall.replacing, HookCall.under, List.append_cancel_left_eq]

/-! ## The calls in one walk -/

/-- What is told of the calls in a walk over a node in a given place, the paths being those from the
node: which nodes are entered and left, what the hooks are told, and what the walk leads to. -/
structure Trace (n : Node) (place : Place) (calls : List HookCall) (result : Node) : Prop where
  bracketed : Bracketed calls
  order : (enteredPaths calls).Sublist n.paths
  reached : ∀ path ∈ n.paths, path ∈ enteredPaths calls ↔
    ∀ above, above <+: path → above ≠ path → ¬Skips calls above
  told : ∀ c ∈ calls, ∃ k, n.Stands place c.path c.place k ∧
    c.node =
      if c.enters then k else k.substituteBelow fun below => replacement calls (c.path ++ below)
  result : result = n.substitute (replacement calls)

/-- A part of a node in its slot, with the calls in the walk over it and what the walk leads to. -/
structure WalkedPart where
  slot : Slot
  before : Node
  calls : List HookCall
  after : Node

/-- The calls in the walk over a part, the paths being those from the node around it. -/
def WalkedPart.deeper (w : WalkedPart) : List HookCall := w.calls.map (·.under [w.slot])

section parts
variable {ws : List WalkedPart} {w : WalkedPart} {c : HookCall} {slot : Slot}

theorem path_deeper (hc : c ∈ w.deeper) :
    ∃ d ∈ w.calls, c = d.under [w.slot] ∧ c.path = w.slot :: d.path := by
  obtain ⟨d, hd, rfl⟩ := List.mem_map.1 hc
  exact ⟨d, hd, rfl, rfl⟩

/-- A call for a node in the slot of a part comes from the walk over this part. -/
theorem mem_flatMap_deeper (hn : (ws.map (·.slot)).Nodup) (hw : w ∈ ws)
    (hc : c ∈ ws.flatMap (·.deeper)) (hp : c.path = w.slot :: path) :
    ∃ d ∈ w.calls, c = d.under [w.slot] ∧ d.path = path := by
  obtain ⟨w', hw', hc⟩ := List.mem_flatMap.1 hc
  obtain ⟨d, hd, rfl, hpath⟩ := path_deeper hc
  obtain ⟨hs, he⟩ := List.cons.inj (hpath.symm.trans hp)
  obtain rfl := List.inj_on_of_nodup_map hn hw' hw hs
  exact ⟨d, hd, rfl, he⟩

theorem replacement_flatMap_deeper (hn : (ws.map (·.slot)).Nodup) (hw : w ∈ ws) (path : Path) :
    replacement (ws.flatMap (·.deeper)) (w.slot :: path) = replacement w.calls path := by
  induction ws with
  | nil => cases hw
  | cons v ws ih =>
    obtain ⟨hv, hn⟩ := List.nodup_cons.1 hn
    rw [List.flatMap_cons, replacement_append]
    rcases List.mem_cons.1 hw with rfl | hw
    · have hrest : replacement (ws.flatMap (·.deeper)) (w.slot :: path) = none := by
        refine replacement_eq_none fun c hc hp => hv ?_
        obtain ⟨w', hw', hc⟩ := List.mem_flatMap.1 hc
        obtain ⟨d, -, -, hpath⟩ := path_deeper hc
        exact List.mem_map.2 ⟨w', hw', (List.cons.inj (hpath.symm.trans hp)).1⟩
      rw [hrest, Option.or_none]
      exact replacement_under [w.slot] path w.calls
    · have hfirst : replacement v.deeper (w.slot :: path) = none := by
        refine replacement_eq_none fun c hc hp => hv ?_
        obtain ⟨d, -, -, hpath⟩ := path_deeper hc
        exact List.mem_map.2 ⟨w, hw, (List.cons.inj (hpath.symm.trans hp)).1.symm⟩
      rw [hfirst, Option.none_or, ih hn hw]

theorem enteredPaths_flatMap_deeper (ws : List WalkedPart) :
    enteredPaths (ws.flatMap (·.deeper)) =
      ws.flatMap fun w => (enteredPaths w.calls).map (w.slot :: ·) := by
  induction ws with
  | nil => rfl
  | cons w ws ih =>
    rw [List.flatMap_cons, enteredPaths_append, ih, List.flatMap_cons, WalkedPart.deeper,
      enteredPaths_under]
    rfl

theorem skips_flatMap_deeper (hn : (ws.map (·.slot)).Nodup) (hw : w ∈ ws) :
    Skips (ws.flatMap (·.deeper)) (w.slot :: path) ↔ Skips w.calls path := by
  constructor
  · rintro ⟨c, hc, hp, ha⟩
    obtain ⟨d, hd, rfl, hpath⟩ := mem_flatMap_deeper hn hw hc hp
    exact ⟨d, hd, hpath, ha⟩
  · rintro ⟨d, hd, rfl, ha⟩
    exact ⟨d.under [w.slot], List.mem_flatMap.2 ⟨w, hw, List.mem_map.2 ⟨d, hd, rfl⟩⟩, rfl, ha⟩

theorem entered_flatMap_deeper (hn : (ws.map (·.slot)).Nodup) (hw : w ∈ ws) :
    w.slot :: path ∈ enteredPaths (ws.flatMap (·.deeper)) ↔ path ∈ enteredPaths w.calls := by
  rw [enteredPaths_flatMap_deeper, List.mem_flatMap]
  constructor
  · rintro ⟨v, hv, hpath⟩
    obtain ⟨p, hp, he⟩ := List.mem_map.1 hpath
    obtain ⟨hs, rfl⟩ := List.cons.inj he
    exact List.inj_on_of_nodup_map hn hv hw hs ▸ hp
  · exact fun hp => ⟨w, hw, List.mem_map.2 ⟨path, hp, rfl⟩⟩

theorem bracketed_flatMap_deeper (hn : (ws.map (·.slot)).Nodup) (h : ∀ w ∈ ws, Bracketed w.calls) :
    Bracketed (ws.flatMap (·.deeper)) := by
  induction ws with
  | nil => exact .nil
  | cons w ws ih =>
    obtain ⟨hw, hn⟩ := List.nodup_cons.1 hn
    obtain ⟨hbracketed, h⟩ := List.forall_mem_cons.1 h
    rw [List.flatMap_cons]
    refine (hbracketed.under [w.slot]).append (ih hn h) fun e he c hc hpre => ?_
    obtain ⟨d, -, -, hd⟩ := path_deeper he
    obtain ⟨v, hv, hc⟩ := List.mem_flatMap.1 hc
    obtain ⟨d', -, -, hd'⟩ := path_deeper hc
    rw [hd, hd', List.cons_prefix_cons] at hpre
    exact hw (List.mem_map.2 ⟨v, hv, hpre.1.symm⟩)

end parts

/-! ## The calls for one node -/

section node
variable {n m : Node} {place : Place} {a : Entering} {answer : Leaving} {inner : List HookCall}

/-- The calls for a node around those for the nodes below it. -/
def surround (n : Node) (place : Place) (a : Entering) (inner : List HookCall) (m : Node)
    (answer : Leaving) : List HookCall :=
  ⟨[], place, n, .enter a⟩ :: inner ++ [⟨[], place, m, .leave answer⟩]

theorem enteredPaths_surround :
    enteredPaths (surround n place a inner m answer) = [] :: enteredPaths inner := by
  rw [surround, List.cons_append]
  simp [enteredPaths, HookCall.enters]

section inner
variable (hin : ∀ c ∈ inner, c.path ≠ [])
include hin

theorem bracketed_surround (h : Bracketed inner) : Bracketed (surround n place a inner m answer) :=
  .node rfl rfl rfl rfl (fun c hc => ⟨List.nil_prefix, hin c hc⟩) nofun h .nil

theorem skips_surround_nil : Skips (surround n place a inner m answer) [] ↔ a = .skip := by
  constructor
  · rintro ⟨c, hc, hp, ha⟩
    rw [surround, List.cons_append, List.mem_cons, List.mem_append, List.mem_singleton] at hc
    rcases hc with rfl | hc | rfl
    · exact HookAnswer.enter.inj ha
    · exact absurd hp (hin c hc)
    · cases ha
  · rintro rfl
    exact ⟨_, List.mem_cons_self, rfl, rfl⟩

theorem replacement_surround_nil :
    (replacement (surround n place a inner m answer) []).getD m = answer.result m := by
  rw [surround, replacement_append, ← List.singleton_append, replacement_append,
    replacement_eq_none hin]
  cases answer <;> rfl

end inner

theorem skips_surround_cons {slot : Slot} :
    Skips (surround n place a inner m answer) (slot :: path) ↔ Skips inner (slot :: path) := by
  constructor
  · rintro ⟨c, hc, hp, ha⟩
    rw [surround, List.cons_append, List.mem_cons, List.mem_append, List.mem_singleton] at hc
    rcases hc with rfl | hc | rfl
    · cases hp
    · exact ⟨c, hc, hp, ha⟩
    · cases hp
  · rintro ⟨c, hc, h⟩
    exact ⟨c, by simp [surround, hc], h⟩

theorem replacement_surround_cons (slot : Slot) (path : Path) :
    replacement (surround n place a inner m answer) (slot :: path) =
      replacement inner (slot :: path) := by
  have hleft : replacement [⟨[], place, m, .leave answer⟩] (slot :: path) = none :=
    replacement_eq_none (by simp)
  have hentered : replacement [⟨[], place, n, .enter a⟩] (slot :: path) = none :=
    replacement_eq_none (by simp)
  rw [surround, replacement_append, ← List.singleton_append, replacement_append, hleft, hentered,
    Option.or_none, Option.none_or]

/-- What is told of the calls for a node and those below it, from what is told of the latter. -/
theorem Trace.surround (hin : ∀ c ∈ inner, c.path ≠ []) (hbracketed : Bracketed inner)
    (horder : (enteredPaths inner).Sublist n.paths.tail)
    (hreached : ∀ slot path, slot :: path ∈ n.paths → (slot :: path ∈ enteredPaths inner ↔
      a ≠ .skip ∧ ∀ above, above <+: path → above ≠ path → ¬Skips inner (slot :: above)))
    (htold : ∀ c ∈ inner, ∃ k, n.Stands place c.path c.place k ∧
      c.node =
        if c.enters then k else k.substituteBelow fun below => replacement inner (c.path ++ below))
    (hm : m = n.substituteBelow (replacement inner)) :
    Trace n place (surround n place a inner m answer) (answer.result m) := by
  have hbelow : ∀ k : Node, ∀ path ≠ [], (k.substituteBelow fun below =>
      replacement (AutoAwait.surround n place a inner m answer) (path ++ below)) =
        k.substituteBelow fun below => replacement inner (path ++ below) := by
    intro k path hne
    obtain ⟨slot, path, rfl⟩ := List.exists_cons_of_ne_nil hne
    simp only [List.cons_append, replacement_surround_cons]
  have hroot :
      n.substituteBelow (replacement (AutoAwait.surround n place a inner m answer)) = m := by
    simp only [hm, Node.substituteBelow, replacement_surround_cons]
  refine ⟨bracketed_surround hin hbracketed, ?_, fun path hpath => ?_, fun c hc => ?_, ?_⟩
  · rw [enteredPaths_surround, n.paths_eq] at *
    exact horder.cons_cons _
  · rw [enteredPaths_surround, List.mem_cons]
    cases path with
    | nil =>
      exact iff_of_true (.inl rfl) fun above hpre hne => absurd (List.prefix_nil.1 hpre) hne
    | cons slot path =>
      rw [or_iff_right nofun, hreached slot path hpath]
      constructor
      · rintro ⟨ha, h⟩ above hpre hne
        cases above with
        | nil => rwa [skips_surround_nil hin]
        | cons s above =>
          obtain ⟨rfl, habove⟩ := List.cons_prefix_cons.1 hpre
          rw [skips_surround_cons]
          exact h above habove fun he => hne (congrArg _ he)
      · refine fun h => ⟨?_, fun above hpre hne => ?_⟩
        · rw [ne_eq, ← skips_surround_nil hin]
          exact h [] List.nil_prefix nofun
        · rw [← skips_surround_cons]
          exact h _ (List.cons_prefix_cons.2 ⟨rfl, hpre⟩) fun he => hne (List.cons.inj he).2
  · rw [AutoAwait.surround, List.cons_append, List.mem_cons, List.mem_append,
      List.mem_singleton] at hc
    rcases hc with rfl | hc | rfl
    · exact ⟨n, .root, rfl⟩
    · obtain ⟨k, hk, hnode⟩ := htold c hc
      exact ⟨k, hk, by rw [hnode, hbelow k c.path (hin c hc)]⟩
    · exact ⟨n, .root, hroot.symm⟩
  · rw [Node.substitute_eq, hroot, replacement_surround_nil hin]

/-- The walk over a node whose parts are skipped. -/
theorem Trace.skip (n : Node) (place : Place) (answer : Leaving) :
    Trace n place (AutoAwait.surround n place .skip [] n answer) (answer.result n) :=
  .surround nofun .nil (List.nil_sublist _) (fun _ _ _ => by simp [enteredPaths]) nofun
    (n.substituteBelow_none fun _ _ => rfl).symm

/-- The walk over a node whose parts are walked over. -/
theorem Trace.descend {ws : List WalkedPart} {shape : Shape Node}
    (hkids : ws.map (fun w => (w.slot, w.before)) = n.shape.kids)
    (hws : ∀ w ∈ ws, Trace w.before (.part n.kind w.slot) w.calls w.after)
    (hrel : n.shape.Rel (fun _ _ => True) shape) (hparts : shape.parts = ws.map (·.after)) :
    Trace n place (AutoAwait.surround n place .descend (ws.flatMap (·.deeper))
      { n with shape := shape } answer) (answer.result { n with shape := shape }) := by
  have hn : (ws.map (·.slot)).Nodup := by
    have h := n.shape.nodup_slots
    rwa [← hkids, List.map_map] at h
  have hmem : ∀ w ∈ ws, (w.slot, w.before) ∈ n.shape.kids := fun w hw =>
    hkids ▸ List.mem_map.2 ⟨w, hw, rfl⟩
  have hreplacement : ∀ w ∈ ws,
      (fun path => replacement (ws.flatMap (·.deeper)) (w.slot :: path)) =
        replacement w.calls := fun w hw => funext fun path => replacement_flatMap_deeper hn hw path
  refine .surround (fun c hc => ?_)
    (bracketed_flatMap_deeper hn fun w hw => (hws w hw).bracketed) ?_
    (fun slot path hpath => ?_) (fun c hc => ?_) ?_
  · obtain ⟨w, -, hc⟩ := List.mem_flatMap.1 hc
    obtain ⟨d, -, -, hd⟩ := path_deeper hc
    rw [hd]
    nofun
  · rw [enteredPaths_flatMap_deeper, n.paths_eq, List.tail_cons, ← hkids, List.flatMap_map]
    exact List.Sublist.flatMap_right ws fun w hw => (hws w hw).order.map _
  · obtain ⟨k, hk, hpath⟩ := Node.cons_mem_paths.1 hpath
    obtain ⟨w, hw, he⟩ := List.mem_map.1 (hkids ▸ hk)
    obtain ⟨rfl, rfl⟩ := Prod.ext_iff.1 he
    simp only [skips_flatMap_deeper hn hw, entered_flatMap_deeper hn hw,
      (hws w hw).reached path hpath, ne_eq, reduceCtorEq, not_false_iff, true_and]
  · obtain ⟨w, hw, hc⟩ := List.mem_flatMap.1 hc
    obtain ⟨d, hd, rfl, -⟩ := path_deeper hc
    obtain ⟨k, hk, hnode⟩ := (hws w hw).told d hd
    refine ⟨k, hk.deeper (hmem w hw), hnode.trans ?_⟩
    rw [show replacement w.calls =
      fun path => replacement (ws.flatMap (·.deeper)) (w.slot :: path) from
        (hreplacement w hw).symm]
    rfl
  · have hshape : shape = n.shape.mapSlots fun slot k =>
        k.substitute fun path => replacement (ws.flatMap (·.deeper)) (slot :: path) := by
      apply (hrel.symm.comp (Shape.rel_mapSlots _ n.shape)).eq_of_parts
      rw [hparts, Shape.parts_mapSlots, ← hkids, List.map_map]
      refine List.map_congr_left fun w hw => ?_
      rw [Function.comp, hreplacement w hw, (hws w hw).result]
    rw [Node.substituteBelow, hshape]

end node

/-! ## Walks -/

/-- What a walk over a node records: calls of which what is to be told holds, for nodes below the
open one, which is open again afterwards. -/
structure Records (n : Node) (place : Place) (calls : List HookCall) (r : Recording σ)
    (q : Node × Recording σ) : Prop where
  trace : Trace n place calls q.1
  trail : q.2.trail = r.trail
  calls : q.2.calls = r.calls ++ calls.map (·.under (place.slot?.toList ++ r.trail).reverse)

section walk
variable {v : Visitor σ} {again : Place → Node → StateM (Recording σ) Node} {kind : NodeKind}

theorem map_under_deeper (w : WalkedPart) (above : Path) :
    w.deeper.map (·.under above) = w.calls.map (·.under (above ++ [w.slot])) := by
  rw [WalkedPart.deeper, List.map_map]
  refine List.map_congr_left fun c _ => ?_
  simp only [Function.comp, HookCall.under, List.append_assoc]

/-- The walks over the parts of a node, one after the other. -/
theorem mapM_records {ks : List (Slot × Node)}
    (ih : ∀ k ∈ ks, ∀ r, ∃ calls, Records k.2 (.part kind k.1) calls r
      (k.2.walk v.recorded again (.part kind k.1) r)) (r : Recording σ) :
    ∃ ws : List WalkedPart,
      let q := ks.mapM (fun k => k.2.walk v.recorded again (.part kind k.1)) r
      ws.map (fun w => (w.slot, w.before)) = ks ∧
        (∀ w ∈ ws, Trace w.before (.part kind w.slot) w.calls w.after) ∧ q.1 = ws.map (·.after) ∧
        q.2.trail = r.trail ∧
        q.2.calls = r.calls ++ (ws.flatMap (·.deeper)).map (·.under r.trail.reverse) := by
  induction ks generalizing r with
  | nil => exact ⟨[], rfl, nofun, rfl, rfl, (List.append_nil _).symm⟩
  | cons k ks ih' =>
    obtain ⟨hk, hks⟩ := List.forall_mem_cons.1 ih
    obtain ⟨calls, hfirst⟩ := hk r
    obtain ⟨ws, hslots, htraces, hafter, htrail, hcalls⟩ := ih' hks
      (k.2.walk v.recorded again (.part kind k.1) r).2
    refine ⟨⟨k.1, k.2, calls, _⟩ :: ws, ?_, List.forall_mem_cons.2 ⟨hfirst.trace, htraces⟩,
      ?_, ?_, ?_⟩
    · rw [List.map_cons, hslots]
    · rw [Shape.mapM_cons_run, hafter, List.map_cons]
    · rw [Shape.mapM_cons_run]
      exact htrail.trans hfirst.trail
    · have hpath :
          ((Place.part kind k.1).slot?.toList ++ r.trail).reverse = r.trail.reverse ++ [k.1] :=
        List.reverse_cons
      rw [Shape.mapM_cons_run, hcalls, hfirst.calls, hfirst.trail, List.flatMap_cons,
        List.map_append, map_under_deeper, ← List.append_assoc, hpath]

/-- The calls for a node, after those for the nodes below it. -/
theorem records_surround {n m : Node} {place : Place} {a : Entering} (inner : List HookCall)
    {r q : Recording σ} (ha : (v.enter place n r.state).1 = a)
    (htrail : q.trail = place.slot?.toList ++ r.trail)
    (hcalls : q.calls = (v.recorded.enter place n r).2.calls ++ inner.map (·.under q.trail.reverse))
    (htrace : ∀ answer, Trace n place (surround n place a inner m answer) (answer.result m)) :
    Records n place (surround n place a inner m (v.leave place m q.state).1) r
      ((v.recorded.leave place m q).1.result m, (v.recorded.leave place m q).2) where
  trace := htrace _
  trail := by
    show q.trail.drop place.slot?.toList.length = r.trail
    rw [htrail, List.drop_left]
  calls := by
    show q.calls ++ [⟨q.trail.reverse, place, m, .leave (v.leave place m q.state).1⟩] = _
    rw [hcalls, ← htrail]
    simp [surround, HookCall.under, Visitor.recorded, ha, htrail]

/-- **The calls in a walk.** -/
theorem Node.walk_records (hv : v.Plain) (n : Node) (place : Place) (r : Recording σ) :
    ∃ calls, Records n place calls r (n.walk v.recorded again place r) := by
  induction n using induction generalizing place r with
  | step n ih =>
    rw [walk_eq, Shape.bind_run]
    have hopen (ho : (v.enter place n r.state).1.opens) :
        (v.recorded.enter place n r).2.trail = place.slot?.toList ++ r.trail := if_pos ho
    cases ha : (v.enter place n r.state).1 with
    | replace m walked => exact absurd ha (hv.enter place n r.state m walked)
    | skip =>
      rw [show (v.recorded.enter place n r).1 = .skip from ha]
      dsimp only
      rw [leaveWith_plain (recorded_plain hv)]
      exact ⟨_, records_surround [] ha (hopen (by rw [ha]; rfl)) (List.append_nil _).symm
        fun answer => .skip n place answer⟩
    | descend =>
      rw [show (v.recorded.enter place n r).1 = .descend from ha]
      have hparts : ∀ k ∈ n.shape.kids, ∀ r, ∃ calls, Records k.2 (.part n.kind k.1) calls r
          (k.2.walk v.recorded again (.part n.kind k.1) r) :=
        fun k hk => ih k.2 (List.mem_map.2 ⟨k, hk, rfl⟩) (.part n.kind k.1)
      obtain ⟨ws, hkids, htraces, hafter, htrail, hcalls⟩ :=
        mapM_records hparts (v.recorded.enter place n r).2
      have hrun := Shape.parts_traverse_run
        (fun slot k => k.walk v.recorded again (.part n.kind slot)) n.shape
        (v.recorded.enter place n r).2
      rw [← hrun] at hafter htrail hcalls
      have htrail' := htrail.trans (hopen (by rw [ha]; rfl))
      dsimp only
      rw [Shape.bind_run, leaveWith_plain (recorded_plain hv)]
      exact ⟨_, records_surround _ ha htrail' (htrail ▸ hcalls) fun answer =>
        .descend hkids htraces (Shape.rel_traverse _ n.shape _) hafter⟩

end walk

/-- **The calls of hooks in a walk over a tree.** A visitor puts no other node in the place of one
that it enters, though it may skip the parts, and asks for no walk over what it puts in the place of
one that it leaves. Then its walk ends, and leads to the same however deep replacements may be
walked over.

The calls of its hooks are properly nested. The nodes that are entered are those of the tree that
have no skipped node above them, each once and in the order of `Node.nodes`; each of them is left
once. A hook is told the place of the node as the slots of its parent in the tree list it. The node
that is entered is that of the tree, and the node that is left has the replacements in the places of
those below it; in the end each replacement stands in the slot of the node that it replaces, and
nothing else has changed. -/
theorem Node.record_hooks {v : Visitor σ} (hv : v.Plain) (n : Node) (s : σ) :
    let run := n.record v s
    let calls := run.2.calls
    (∀ depth, n.visit v (depth + 1) .root s = (run.1, run.2.state)) ∧
      Bracketed calls ∧
      (n.paths.Nodup ∧ n.paths.map n.at? = n.nodes.map some) ∧
      (enteredPaths calls).Sublist n.paths ∧
      (∀ path ∈ n.paths, path ∈ enteredPaths calls ↔
        ∀ above, above <+: path → above ≠ path → ¬Skips calls above) ∧
      (leftPaths calls).Perm (enteredPaths calls) ∧
      (∀ c ∈ calls, ∃ k, n.Stands .root c.path c.place k ∧ n.at? c.path = some k ∧
        c.node =
          if c.enters then k
          else k.substituteBelow fun below => replacement calls (c.path ++ below)) ∧
      run.1 = n.substitute (replacement calls) := by
  intro run calls
  obtain ⟨calls', htrace, -, hcalls⟩ : ∃ calls, Records n .root calls ⟨s, [], []⟩ run :=
    n.walk_records hv .root ⟨s, [], []⟩
  have hsame : calls = calls' := by
    have hid : calls'.map (·.under []) = calls' := List.map_id _
    exact hcalls.trans hid
  rw [← hsame] at htrace
  refine ⟨fun depth => ?_, htrace.bracketed, ⟨n.nodup_paths, n.map_at?_paths⟩, htrace.order,
    htrace.reached, htrace.bracketed.perm, fun c hc => ?_, htrace.result⟩
  · rw [visit_plain hv depth .root n]
    exact (visit_recorded v 1 .root n ⟨s, [], []⟩).symm
  · obtain ⟨k, hk, hnode⟩ := htrace.told c hc
    exact ⟨k, hk, hk.at?, hnode⟩

/-- A visitor that skips the parts of calls, puts each call under an `await` and counts the nodes
that it enters: the callee and the argument of a call in an array are not entered. -/
theorem Node.record_hooks_of_skipped_call :
    let name : Node := ⟨.start, none, .identifier "f"⟩
    let call : Node := ⟨.start, none, .call name [name]⟩
    let n : Node := ⟨.start, none, .array [call, name]⟩
    let v : Visitor Nat :=
      { enter := fun _ m s => (if m.kind = .call then .skip else .descend, s + 1)
        leave := fun _ m s =>
          (if m.kind = .call then .replace ⟨m.loc, none, .await m⟩ false else .keep, s) }
    let run := n.record v 0
    let entered : List Path := [[], [⟨"elements", some 0⟩], [⟨"elements", some 1⟩]]
    v.Plain ∧ n.visit v 1 .root 0 = (run.1, 3) ∧ n.paths.length = 5 ∧
      enteredPaths run.2.calls = entered ∧ (leftPaths run.2.calls).Perm entered ∧
      replacement run.2.calls [⟨"elements", some 0⟩] = some ⟨.start, none, .await call⟩ ∧
      run.1 = n.substitute (replacement run.2.calls) := by
  intro name call n v run entered
  have hv : v.Plain := by
    constructor
    · intro place m s k again
      show (if m.kind = .call then Entering.skip else .descend) ≠ _
      split <;> nofun
    · intro place m s k
      show (if m.kind = .call then Leaving.replace ⟨m.loc, none, .await m⟩ false else .keep) ≠ _
      split <;> nofun
  have hentered : enteredPaths run.2.calls = entered := rfl
  obtain ⟨hvisit, -, -, -, -, hleft, -, hresult⟩ := record_hooks hv n 0
  exact ⟨hv, hvisit 0, rfl, hentered, hentered ▸ hleft, rfl, hresult⟩

end AutoAwait
