import AutoAwait.Node.Walk
import Mathlib.Data.List.Forall2
import Mathlib.Data.List.Nodup

/-!
# The parts of a shape

Facts on one layer of syntax that hold of every kind of node, so that a proof about trees need not
look at the kinds one by one.

* `Shape.Rel R` relates two shapes that differ in their parts only, where the parts are related
  by `R` one by one; `Shape.Rel.of_parts` builds it from the list of parts;
* `Shape.parts_traverse` says that a traversal is a run over the list of parts, and
  `Shape.rel_traverse` that it keeps everything else; `Shape.mapSlots` is a traversal without a
  state;
* `Node.induction` is induction over a tree: from the parts of a node to the node.
-/

namespace AutoAwait

namespace Shape

variable {α β γ σ : Type}

/-- The parts that are nodes, in the order in which the source reads. -/
def parts (s : Shape α) : List α := s.kids.map (·.2)

/-! ## Shapes with related parts -/

/-- Two shapes that differ in their parts only; the parts are related one by one. -/
inductive Rel (R : α → β → Prop) : Shape α → Shape β → Prop
  | identifier {n} : Rel R (.identifier n) (.identifier n)
  | literal {v r} : Rel R (.literal v r) (.literal v r)
  | this : Rel R .this .this
  | array {es es'} : List.Forall₂ R es es' → Rel R (.array es) (.array es')
  | property {k k' v v' s} : R k k' → R v v' → Rel R (.property k v s) (.property k' v' s)
  | object {ps ps'} : List.Forall₂ R ps ps' → Rel R (.object ps) (.object ps')
  | member {o o' p p' c} : R o o' → R p p' → Rel R (.member o p c) (.member o' p' c)
  | call {c c' as as'} : R c c' → List.Forall₂ R as as' → Rel R (.call c as) (.call c' as')
  | construct {c c' as as'} :
      R c c' → List.Forall₂ R as as' → Rel R (.construct c as) (.construct c' as')
  | await {a a'} : R a a' → Rel R (.await a) (.await a')
  | assignment {op l l' r r'} :
      R l l' → R r r' → Rel R (.assignment op l r) (.assignment op l' r')
  | binary {op l l' r r'} : R l l' → R r r' → Rel R (.binary op l r) (.binary op l' r')
  | logical {op l l' r r'} : R l l' → R r r' → Rel R (.logical op l r) (.logical op l' r')
  | unary {op a a'} : R a a' → Rel R (.unary op a) (.unary op a')
  | update {op a a' b} : R a a' → Rel R (.update op a b) (.update op a' b)
  | conditional {t t' c c' a a'} :
      R t t' → R c c' → R a a' → Rel R (.conditional t c a) (.conditional t' c' a')
  | block {b b'} : List.Forall₂ R b b' → Rel R (.block b) (.block b')
  | function {i i' ps ps' b b'} : Option.Rel R i i' → List.Forall₂ R ps ps' → R b b' →
      Rel R (.function i ps b) (.function i' ps' b')
  | arrow {ps ps' b b'} : List.Forall₂ R ps ps' → R b b' → Rel R (.arrow ps b) (.arrow ps' b')
  | functionDecl {i i' ps ps' b b'} : R i i' → List.Forall₂ R ps ps' → R b b' →
      Rel R (.functionDecl i ps b) (.functionDecl i' ps' b')
  | expression {e e'} : R e e' → Rel R (.expression e) (.expression e')
  | declarator {i i' e e'} :
      R i i' → Option.Rel R e e' → Rel R (.declarator i e) (.declarator i' e')
  | declaration {k ds ds'} :
      List.Forall₂ R ds ds' → Rel R (.declaration k ds) (.declaration k ds')
  | return {a a'} : Option.Rel R a a' → Rel R (.return a) (.return a')
  | if {t t' c c' a a'} :
      R t t' → R c c' → Option.Rel R a a' → Rel R (.if t c a) (.if t' c' a')
  | while {t t' b b'} : R t t' → R b b' → Rel R (.while t b) (.while t' b')
  | for {i i' t t' u u' b b'} : Option.Rel R i i' → Option.Rel R t t' → Option.Rel R u u' →
      R b b' → Rel R (.for i t u b) (.for i' t' u' b')
  | forOf {l l' r r' b b'} : R l l' → R r r' → R b b' → Rel R (.forOf l r b) (.forOf l' r' b')
  | break : Rel R .break .break
  | continue : Rel R .continue .continue
  | throw {a a'} : R a a' → Rel R (.throw a) (.throw a')
  | catchClause {p p' b b'} :
      Option.Rel R p p' → R b b' → Rel R (.catchClause p b) (.catchClause p' b')
  | try {b b' h h' f f'} : R b b' → Option.Rel R h h' → Option.Rel R f f' →
      Rel R (.try b h f) (.try b' h' f')
  | program {b b'} : List.Forall₂ R b b' → Rel R (.program b) (.program b')

@[simp] theorem map_snd_many (key : String) (as : List α) : (many key as).map (·.2) = as := by
  apply List.ext_getElem <;> simp [many]

@[simp] theorem map_snd_opt (key : String) (a : Option α) : (opt key a).map (·.2) = a.toList := by
  cases a <;> rfl

@[simp] theorem map_snd_one (key : String) (a : α) : (one key a).map (·.2) = [a] := rfl

theorem forall₂_opt {R : α → β → Prop} {a : Option α} {b : Option β} :
    List.Forall₂ R a.toList b.toList ↔ Option.Rel R a b := by
  constructor
  · intro h
    cases a <;> cases b <;> cases h
    · exact .none
    · exact .some ‹_›
  · rintro (h | -)
    · exact .cons h .nil
    · exact .nil

theorem forall₂_many {R : α → β → Prop} {as : List α} {bs : List β} (key : String)
    (h : List.Forall₂ R as bs) :
    List.Forall₂ (fun k l => k.1 = l.1 ∧ R k.2 l.2) (many key as) (many key bs) := by
  rw [List.forall₂_iff_get] at h ⊢
  refine ⟨by simpa [many] using h.1, fun i hi hi' => ?_⟩
  simp only [many, List.length_mapIdx] at hi hi'
  simpa [many] using h.2 i hi hi'

theorem forall₂_kids_opt {R : α → β → Prop} {a : Option α} {b : Option β} (key : String)
    (h : Option.Rel R a b) :
    List.Forall₂ (fun k l => k.1 = l.1 ∧ R k.2 l.2) (opt key a) (opt key b) := by
  rcases h with h | -
  · exact .cons ⟨rfl, h⟩ .nil
  · exact .nil

theorem forall₂_append_iff {R : α → β → Prop} {as as' : List α} {bs bs' : List β}
    (hl : as.length = bs.length) :
    List.Forall₂ R (as ++ as') (bs ++ bs') ↔ List.Forall₂ R as bs ∧ List.Forall₂ R as' bs' := by
  refine ⟨fun h => ?_, fun h => List.rel_append h.1 h.2⟩
  constructor
  · simpa [hl] using List.forall₂_take bs.length h
  · simpa [hl] using List.forall₂_drop bs.length h

namespace Rel

variable {Q R : α → β → Prop} {s : Shape α} {t : Shape β}

/-- Related shapes have the same slots, and related parts in them. -/
theorem kids (h : Rel R s t) :
    List.Forall₂ (fun k l => k.1 = l.1 ∧ R k.2 l.2) s.kids t.kids := by
  cases h <;>
    repeat
      first
        | assumption
        | exact .nil
        | exact .cons ⟨rfl, ‹_›⟩ .nil
        | exact forall₂_many _ ‹_›
        | exact forall₂_kids_opt _ ‹_›
        | apply List.rel_append

theorem parts (h : Rel R s t) : List.Forall₂ R s.parts t.parts := by
  simp only [Shape.parts, List.forall₂_map_left_iff, List.forall₂_map_right_iff]
  exact h.kids.imp fun _ _ h => h.2

theorem kind (h : Rel R s t) : s.kind = t.kind := by cases h <;> rfl

theorem name? (h : Rel R s t) : s.name? = t.name? := by cases h <;> rfl

/-- Shapes that differ in their parts only are related if their parts are. -/
theorem of_parts (h : Rel Q s t) (hp : List.Forall₂ R s.parts t.parts) : Rel R s t := by
  have hl : ∀ {a : Option α} {b : Option β}, Option.Rel Q a b → a.toList.length = b.toList.length :=
    fun h => (forall₂_opt.2 h).length_eq
  cases h with
  | function i ps b =>
    simp only [Shape.parts, Shape.kids, List.map_append, map_snd_many, map_snd_opt, map_snd_one,
      List.append_assoc, forall₂_append_iff (hl i), forall₂_append_iff ps.length_eq, forall₂_opt,
      List.forall₂_cons] at hp
    exact .function hp.1 hp.2.1 hp.2.2.1
  | arrow ps b =>
    simp only [Shape.parts, Shape.kids, List.map_append, map_snd_many, map_snd_one,
      forall₂_append_iff ps.length_eq, List.forall₂_cons] at hp
    exact .arrow hp.1 hp.2.1
  | functionDecl i ps b =>
    simp only [Shape.parts, Shape.kids, List.map_append, map_snd_many, map_snd_one,
      List.cons_append, List.nil_append, forall₂_append_iff ps.length_eq, List.forall₂_cons] at hp
    exact .functionDecl hp.1 hp.2.1 hp.2.2.1
  | «for» i t u b =>
    simp only [Shape.parts, Shape.kids, List.map_append, map_snd_opt, map_snd_one,
      List.append_assoc, forall₂_append_iff (hl i), forall₂_append_iff (hl t),
      forall₂_append_iff (hl u), forall₂_opt, List.forall₂_cons] at hp
    exact .for hp.1 hp.2.1 hp.2.2.1 hp.2.2.2.1
  | catchClause p b =>
    simp only [Shape.parts, Shape.kids, List.map_append, map_snd_opt, map_snd_one,
      forall₂_append_iff (hl p), forall₂_opt, List.forall₂_cons] at hp
    exact .catchClause hp.1 hp.2.1
  | «try» b h f =>
    simp only [Shape.parts, Shape.kids, List.map_append, map_snd_opt, map_snd_one,
      List.cons_append, List.nil_append, forall₂_append_iff (hl h), forall₂_opt,
      List.forall₂_cons] at hp
    exact .try hp.1 hp.2.1 hp.2.2
  | _ =>
    simp only [Shape.parts, Shape.kids, List.map_append, map_snd_many, map_snd_opt, map_snd_one,
      List.cons_append, List.nil_append, forall₂_opt, List.forall₂_cons] at hp
    constructor <;> simp only [hp]

theorem mono (h : Rel Q s t) (hi : ∀ a b, Q a b → R a b) : Rel R s t :=
  h.of_parts (h.parts.imp hi)

theorem eq {s t : Shape α} (h : Rel Eq s t) : s = t := by
  have ho : ∀ {a b : Option α}, Option.Rel Eq a b → a = b := by
    rintro _ _ (rfl | -) <;> rfl
  have hl : ∀ {as bs : List α}, List.Forall₂ Eq as bs → as = bs := fun h =>
    List.forall₂_eq_eq_eq ▸ h
  cases h <;> congr 1 <;> first | exact hl ‹_› | exact ho ‹_›

theorem eq_of_parts {Q : α → α → Prop} {s t : Shape α} (h : Rel Q s t) (hp : s.parts = t.parts) :
    s = t :=
  (h.of_parts (hp ▸ List.forall₂_same.2 fun _ _ => rfl)).eq

theorem symm (h : Rel R s t) : Rel (fun b a => R a b) t s := by
  have ho : ∀ {a : Option α} {b : Option β}, Option.Rel R a b →
      Option.Rel (fun b a => R a b) b a := by
    rintro _ _ (h | -)
    exacts [.some h, .none]
  have hl : ∀ {as : List α} {bs : List β}, List.Forall₂ R as bs →
      List.Forall₂ (fun b a => R a b) bs as := fun h => List.Forall₂.flip h
  cases h <;> constructor <;> first | assumption | exact hl ‹_› | exact ho ‹_›

theorem comp {Q : α → β → Prop} {R : β → γ → Prop} {t : Shape β} {u : Shape γ} (h : Rel Q s t)
    (h' : Rel R t u) : Rel (fun a c => ∃ b, Q a b ∧ R b c) s u := by
  have ho : ∀ {a : Option α} {b : Option β} {c : Option γ}, Option.Rel Q a b → Option.Rel R b c →
      Option.Rel (fun a c => ∃ b, Q a b ∧ R b c) a c := by
    rintro _ _ _ (h | -) (h' | -)
    exacts [.some ⟨_, h, h'⟩, .none]
  have hl : ∀ {as : List α} {bs : List β} {cs : List γ}, List.Forall₂ Q as bs →
      List.Forall₂ R bs cs → List.Forall₂ (fun a c => ∃ b, Q a b ∧ R b c) as cs := by
    intro as bs cs h h'
    induction h generalizing cs with
    | nil => cases h'; exact .nil
    | cons h _ ih => obtain _ | ⟨h', hs⟩ := h'; exact .cons ⟨_, h, h'⟩ (ih hs)
  cases h <;> cases h' <;> constructor <;>
    first | exact ⟨_, ‹_›, ‹_›⟩ | exact hl ‹_› ‹_› | exact ho ‹_› ‹_›

end Rel

theorem rel_map (f : α → β) (s : Shape α) : Rel (fun a b => b = f a) s (s.map f) := by
  have ho : ∀ a : Option α, Option.Rel (fun a b => b = f a) a (a.map f) := by
    rintro (- | a)
    exacts [.none, .some rfl]
  cases s <;> constructor <;>
    first | rfl | exact ho _ | simp [List.forall₂_map_right_iff, List.forall₂_same]

theorem rel_refl (s : Shape α) : Rel Eq s s :=
  ((rel_map id s).comp (rel_map id s).symm).mono fun _ _ ⟨_, ha, hb⟩ => ha.symm.trans hb

theorem parts_map (f : α → β) (s : Shape α) : (s.map f).parts = s.parts.map f := by
  have h := (rel_map f s).parts
  generalize s.parts = as, (s.map f).parts = bs at h ⊢
  induction h with
  | nil => rfl
  | cons h _ ih => rw [h, ih, List.map_cons]

/-! ## Traversals -/

section traverse
variable {m : Type → Type} [Monad m] [LawfulMonad m] (f : Slot → α → m β)

theorem traverseMany_eq (key : String) (i : Nat) (as : List α) :
    traverseMany f key i as =
      (as.mapIdx fun j a => (⟨key, some (i + j)⟩, a)).mapM fun k => f k.1 k.2 := by
  induction as generalizing i with
  | nil => rfl
  | cons a as ih =>
    simp only [traverseMany, List.mapIdx_cons, List.mapM_cons, ih]
    simp [Nat.add_comm, Nat.add_left_comm]

theorem traverseMany_zero (key : String) (as : List α) :
    traverseMany f key 0 as = (many key as).mapM fun k => f k.1 k.2 := by
  simp [traverseMany_eq, many]

/-- A traversal runs over the parts, the first one first. -/
theorem parts_traverse (s : Shape α) :
    parts <$> s.traverse f = s.kids.mapM fun k => f k.1 k.2 := by
  cases s
  case function i _ _ | declarator _ i | «return» i | «if» _ _ i | catchClause i _ =>
    cases i <;> simp [traverse, traverseOne, traverseOpt, parts, kids, one, opt, traverseMany_zero]
  case «for» i t u b =>
    cases i <;> cases t <;> cases u <;>
      simp [traverse, traverseOne, traverseOpt, parts, kids, one, opt]
  case «try» b i j =>
    cases i <;> cases j <;> simp [traverse, traverseOne, traverseOpt, parts, kids, one, opt]
  all_goals simp [traverse, traverseOne, parts, kids, one, traverseMany_zero]

end traverse

section state
variable (f : Slot → α → StateM σ β)

theorem bind_run (c : StateM σ α) (k : α → StateM σ β) (x : σ) :
    (c >>= k) x = k (c x).1 (c x).2 := rfl

theorem pure_run (a : α) (x : σ) : (pure a : StateM σ α) x = (a, x) := rfl

/-- A traversal with a state changes nothing but the parts. -/
theorem rel_traverse (s : Shape α) (x : σ) : Rel (fun _ _ => True) s (s.traverse f x).1 := by
  have ho : ∀ key (a : Option α) x,
      Option.Rel (fun _ _ => True) a (traverseOpt f key a x).1 := by
    rintro _ (- | a) _
    exacts [.none, .some trivial]
  have hl : ∀ key i (as : List α) x,
      List.Forall₂ (fun _ _ => True) as (traverseMany f key i as x).1 := by
    intro key i as x
    induction as generalizing i x with
    | nil => exact .nil
    | cons a as ih => exact .cons trivial (ih _ _)
  cases s <;> simp only [traverse, bind_run, pure_run] <;> constructor <;>
    first | trivial | exact hl .. | exact ho ..

theorem parts_traverse_run (s : Shape α) (x : σ) :
    ((s.traverse f x).1.parts, (s.traverse f x).2) = s.kids.mapM (fun k => f k.1 k.2) x :=
  congrFun (parts_traverse f s) x

theorem mapM_cons_run {ι : Type} (g : ι → StateM σ β) (k : ι) (ks : List ι) (x : σ) :
    (k :: ks).mapM g x =
      ((g k x).1 :: (ks.mapM g (g k x).2).1, (ks.mapM g (g k x).2).2) := by
  rw [List.mapM_cons]; rfl

end state

/-- Applies a function to each part; the function is told the slot. -/
def mapSlots (f : Slot → α → β) (s : Shape α) : Shape β :=
  Id.run (s.traverse fun slot a => pure (f slot a))

theorem mapSlots_map (g : Slot → β → γ) (f : α → β) (s : Shape α) :
    (s.map f).mapSlots g = s.mapSlots fun slot a => g slot (f a) := traverse_map _ _ _

theorem parts_mapSlots (f : Slot → α → β) (s : Shape α) :
    (s.mapSlots f).parts = s.kids.map fun k => f k.1 k.2 := by
  have h : (s.mapSlots f).parts = Id.run (s.kids.mapM fun k => pure (f k.1 k.2)) :=
    parts_traverse (m := Id) (fun slot a => pure (f slot a)) s
  simpa using h

theorem rel_mapSlots (f : Slot → α → β) (s : Shape α) :
    Rel (fun _ _ => True) s (s.mapSlots f) := by
  have hl : ∀ key i (as : List α), List.Forall₂ (fun _ _ => True) as
      (traverseMany (m := Id) (fun slot a => pure (f slot a)) key i as) := by
    intro key i as
    induction as generalizing i with
    | nil => exact .nil
    | cons a as ih => exact .cons trivial (ih _)
  have ho : ∀ key (a : Option α), Option.Rel (fun _ _ => True) a
      (traverseOpt (m := Id) (fun slot a => pure (f slot a)) key a) := by
    rintro _ (- | a)
    exacts [.none, .some trivial]
  cases s <;> constructor <;> first | trivial | exact hl .. | exact ho ..

/-! ## Slots -/

/-- No two parts fill one slot. -/
theorem nodup_slots (s : Shape α) : (s.kids.map (·.1)).Nodup := by
  have hmany : ∀ key (as : List α),
      (many key as).map (·.1) = (List.range as.length).map fun i => ⟨key, some i⟩ := by
    intro key as
    apply List.ext_getElem <;> simp [many]
  have hinj : ∀ key n, ((List.range n).map fun i => (⟨key, some i⟩ : Slot)).Nodup :=
    fun key n => List.Nodup.map (fun i j h => by simpa using h) List.nodup_range
  have hopt : ∀ key (a : Option α),
      (opt key a).map (·.1) = a.toList.map fun _ => ⟨key, none⟩ := by
    rintro key (- | a) <;> rfl
  cases s
  case function i _ _ | declarator _ i | «return» i | «if» _ _ i | catchClause i _ =>
    cases i <;> simp [kids, one, hmany, hopt, hinj, List.nodup_append]
  case «for» i t u b => cases i <;> cases t <;> cases u <;> simp [kids, one, hopt]
  case «try» b i j => cases i <;> cases j <;> simp [kids, one, hopt]
  all_goals simp [kids, one, hmany, hinj, List.nodup_append]

end Shape

/-! ## Induction over a tree -/

namespace Node

theorem sizeOf_lt_of_mem_parts {k : Node} {s : Shape Node} (h : k ∈ s.parts) :
    sizeOf k < sizeOf s := by
  have hl : ∀ {ns : List Node}, k ∈ ns → sizeOf k < sizeOf ns := List.sizeOf_lt_of_mem
  have ho : ∀ {n : Option Node}, k ∈ n.toList → sizeOf k < sizeOf n := by
    rintro (- | n) h <;> simp at h
    subst h; simp
  cases s <;> simp [Shape.parts, Shape.kids] at h <;> simp <;> grind

/-- Induction over a tree: what holds of a node if it holds of its parts holds of every node. -/
theorem induction {P : Node → Prop} (step : ∀ n, (∀ k ∈ n.shape.parts, P k) → P n) (n : Node) :
    P n := by
  apply step
  intro k hk
  have := sizeOf_lt_of_mem_parts hk
  exact induction step k
termination_by sizeOf n
decreasing_by
  cases n
  simp at *; omega

/-- A tree in pre-order: the node, then its parts one after the other. -/
theorem nodes_eq (n : Node) : n.nodes = n :: n.shape.parts.flatMap nodes := by
  have h : ∀ s : Shape (Node × List Node), s.kids.flatMap (·.2.2) = s.parts.flatMap (·.2) := by
    intro s
    rw [Shape.parts, List.flatMap_map]
  rw [nodes, fold_eq, h, Shape.parts_map, List.flatMap_map]

theorem mem_nodes_self (n : Node) : n ∈ n.nodes := by
  rw [nodes_eq]
  exact .head _

theorem mem_nodes_of_part {n k m : Node} (hk : k ∈ n.shape.parts) (hm : m ∈ k.nodes) :
    m ∈ n.nodes := by
  rw [nodes_eq]
  exact .tail _ (List.mem_flatMap.2 ⟨k, hk, hm⟩)

theorem mem_nodes_trans {n m k : Node} (hm : m ∈ n.nodes) (hk : k ∈ m.nodes) : k ∈ n.nodes := by
  induction n using induction with
  | step n ih =>
    rw [nodes_eq, List.mem_cons, List.mem_flatMap] at hm
    obtain rfl | ⟨p, hp, hm⟩ := hm
    · exact hk
    · exact mem_nodes_of_part hp (ih p hp hm)

end Node

end AutoAwait
