import AutoAwait.Node.Printer
import AutoAwait.Proofs.Results
import AutoAwait.Proofs.Typing.Replace
import AutoAwait.Script

/-!
# Two spellings of an attribute

The attribute of an object can be asked for by its name, as in `o.p`, or by a string between
brackets that reads as the name. The pass comes to the name as if it were a variable, and to the
string as to any literal, but makes nothing of either; and it sees the same attribute in both.

* `Node.Respelled` relates a tree to one that spells some member accesses with strings, and
  `Node.respell` writes such a tree;
* `PathSet.through` is a choice of paths in a tree that has awaits besides;
* `Typing.walk_respelled` keeps the walks over the two trees together;
* `ProgramScope.rewrite_respelled` is the main statement.
-/

namespace AutoAwait

/-! ## A choice of nodes in a tree with awaits -/

/-- The chosen paths in a tree that has awaits at some paths besides. -/
def PathSet.through (chosen awaits : PathSet) (path : Path) : Bool :=
  match path with
  | [] => !awaits [] && chosen []
  | slot :: path =>
    if awaits [] then slot = .argument && PathSet.through chosen (awaits.under .argument) path
    else PathSet.through (chosen.under slot) (awaits.under slot) path

namespace PathSet

variable {chosen awaits : PathSet} {slot : Slot}

theorem through_root (h : awaits [] = false) : chosen.through awaits [] = chosen [] := by
  rw [through, h]
  rfl

theorem through_root_of_await (h : awaits [] = true) : chosen.through awaits [] = false := by
  rw [through, h]
  rfl

theorem under_through (h : awaits [] = false) : PathSet.under (chosen.through awaits) slot =
    (chosen.under slot).through (awaits.under slot) := by
  funext path
  rw [under, through, if_neg (by simp [h])]

theorem under_through_of_await (h : awaits [] = true) :
    PathSet.under (chosen.through awaits) .argument = chosen.through (awaits.under .argument) := by
  funext path
  rw [under, through, if_pos h]
  simp

end PathSet

/-! ## Trees that differ in spelling -/

/-- Two trees of which the second spells the attributes of the chosen member accesses with strings,
and the first with names. Types are equal but for those of the names and strings. -/
inductive Node.Respelled : PathSet → Node → Node → Prop
  | keep {chosen n m} (kept : chosen [] = false) (loc : m.loc = n.loc) (type : m.type = n.type)
      (shape : n.shape.Rel (fun _ _ => True) m.shape)
      (parts : ∀ slot k l, n.part? slot = some k → m.part? slot = some l →
        Respelled (chosen.under slot) k l) : Respelled chosen n m
  | respell {chosen loc type o o' k k' name raw} (respelled : chosen [] = true)
      (identifier : k.shape = .identifier name) (text : k'.shape = .literal (.text name) raw)
      (object : Respelled (chosen.under ⟨"object", none⟩) o o') :
      Respelled chosen ⟨loc, type, .member o k false⟩ ⟨loc, type, .member o' k' true⟩

namespace Node.Respelled

variable {chosen : PathSet} {n m : Node}

theorem type (h : Respelled chosen n m) : m.type = n.type := by
  cases h with
  | keep _ _ type => exact type
  | respell => rfl

theorem loc (h : Respelled chosen n m) : m.loc = n.loc := by
  cases h with
  | keep _ loc => exact loc
  | respell => rfl

theorem kind (h : Respelled chosen n m) : m.kind = n.kind := by
  cases h with
  | keep _ _ _ shape => exact shape.kind.symm
  | respell => rfl

theorem name? (h : Respelled chosen n m) : m.name? = n.name? := by
  cases h with
  | keep _ _ _ shape => exact shape.name?.symm
  | respell => rfl

theorem attributeName? (h : Respelled chosen n m) (computed : Bool) :
    Typing.attributeName? m computed = Typing.attributeName? n computed := by
  cases h with
  | keep _ _ _ shape =>
    obtain ⟨loc, type, s⟩ := n
    obtain ⟨loc', type', s'⟩ := m
    dsimp only at shape
    cases shape <;> rfl
  | respell => rfl

/-- With an await around both trees. -/
theorem await {awaits : PathSet} (hroot : awaits [] = true)
    (h : Respelled (chosen.through (awaits.under .argument)) n m) :
    Respelled (chosen.through awaits) (Typing.awaited n) (Typing.awaited m) := by
  have hpart : ∀ {k : Node} {slot a}, (Typing.awaited k).part? slot = some a →
      slot = .argument ∧ k = a := by
    intro k slot a ha
    rw [Node.part?, Typing.awaited, Shape.part?_await] at ha
    split at ha
    · exact ⟨‹_›, Option.some.inj ha⟩
    · cases ha
  refine .keep (PathSet.through_root_of_await hroot) h.loc h.type (.await trivial)
    fun slot a b ha hb => ?_
  obtain ⟨rfl, rfl⟩ := hpart ha
  obtain ⟨-, rfl⟩ := hpart hb
  rwa [PathSet.under_through_of_await hroot]

theorem looks (h : Respelled chosen n m) : Typing.LooksSame n m := ⟨h.name?, h.kind, h.type⟩

end Node.Respelled

/-- A tree with the chosen member accesses spelled with strings; `raw` is the text of the string for
a name. -/
def Node.respell (raw : String → String) : Node → PathSet → Node :=
  fold fun n parts chosen =>
    match chosen [], parts with
    | true, .member o ⟨⟨loc, type, .identifier name⟩, _⟩ false =>
      { n with shape := .member (o.2 (chosen.under ⟨"object", none⟩))
                  ⟨loc, type, .literal (.text name) (raw name)⟩ true }
    | _, parts => { n with shape := parts.mapSlots fun slot k => k.2 (chosen.under slot) }

theorem Node.respell_of_not {raw : String → String} {n : Node} {chosen : PathSet}
    (h : chosen [] = false) : n.respell raw chosen =
      { n with shape := n.shape.mapSlots fun slot k => k.respell raw (chosen.under slot) } := by
  rw [respell, fold_eq, h]
  simp only [Shape.mapSlots_map]

/-- The attribute that a member access asks for by its name. -/
def Node.named? (n : Node) : Option String :=
  match n.shape with
  | .member _ property false => property.name?
  | _ => none

/-- Every choice of member accesses that ask for an attribute by its name can be spelled with
strings. -/
theorem Node.respelled_respell (raw : String → String) (n : Node) (chosen : PathSet)
    (h : ∀ path, chosen path = true → ((n.at? path).bind named?).isSome) :
    n.Respelled chosen (n.respell raw chosen) := by
  induction n using induction generalizing chosen with
  | step n ih =>
    have hparts : ∀ slot k, n.part? slot = some k →
        k.Respelled (chosen.under slot) (k.respell raw (chosen.under slot)) := by
      intro slot k hk
      refine ih k (Shape.mem_parts_of_part? hk) _ fun path hpath => ?_
      have hat := h (slot :: path) hpath
      rwa [at?, hk, Option.bind_some] at hat
    cases hc : chosen [] with
    | true =>
      have hnamed : n.named?.isSome := h [] hc
      obtain ⟨loc, type, s⟩ := n
      cases s with
      | member o k computed =>
        cases computed with
        | true => cases hnamed
        | false =>
          obtain ⟨kloc, ktype, kshape⟩ := k
          cases kshape with
          | identifier name =>
            rw [respell, fold_eq]
            simp only [Shape.map, hc]
            exact .respell hc rfl rfl (hparts ⟨"object", none⟩ o rfl)
          | _ => cases hnamed
      | _ => cases hnamed
    | false =>
      rw [respell_of_not hc]
      refine .keep hc rfl rfl ((Shape.rel_mapSlots _ _).mono fun _ _ _ => trivial)
        fun slot k l hk hl => ?_
      rw [part?, Shape.part?_mapSlots, show n.shape.part? slot = some k from hk] at hl
      exact Option.some.inj hl ▸ hparts slot k hk

namespace Typing

variable {again : Place → Node → StateM Typing Node} {chosen : PathSet}
variable {p q : Typing} {n m k l n' m' : Node} {place : Place} {slot : Slot}

theorem newAwaits_root (h : n'.kind = n.kind) : n.newAwaits n' [] = false := by
  simp [Node.newAwaits, h]

theorem newAwaits_under (h : n'.kind = n.kind) (hk : n.part? slot = some k)
    (hl : n'.part? slot = some l) : PathSet.under (n.newAwaits n') slot = k.newAwaits l := by
  have hc : ¬(n.kind ≠ .await && n'.kind = .await) := by simp [h]
  funext path
  simp only [PathSet.under, Node.newAwaits, if_neg hc, hk, hl]

/-! ## Walks over parts -/

/-- Do the walks over two lists of parts in the same slots lead from states that agree to states
that agree, part by part? -/
def PartsAgree (again : Place → Node → StateM Typing Node) (kind : NodeKind) :
    List (Slot × Node) → List (Slot × Node) → Prop :=
  List.Forall₂ fun k l => k.1 = l.1 ∧ ∀ {p q : Typing}, Agree p q →
    Agree (walkPart again kind k.1 k.2 p).2 (walkPart again kind l.1 l.2 q).2

theorem PartsAgree.mapM {kind : NodeKind} {ks ls : List (Slot × Node)}
    (h : PartsAgree again kind ks ls) (ha : Agree p q) :
    Agree (ks.mapM (fun k => walkPart again kind k.1 k.2) p).2
      (ls.mapM (fun l => walkPart again kind l.1 l.2) q).2 := by
  induction h generalizing p q with
  | nil => exact ha
  | cons hk _ ih =>
    rw [Shape.mapM_cons_run, Shape.mapM_cons_run]
    exact ih (hk.2 ha)

theorem PartsAgree.before {kind : NodeKind} {ks ls : List (Slot × Node)}
    (h : PartsAgree again kind ks ls) (slot : Slot) :
    PartsAgree again kind (ks.takeWhile (·.1 ≠ slot)) (ls.takeWhile (·.1 ≠ slot)) := by
  induction h with
  | nil => exact .nil
  | @cons k l ks ls hk _ ih =>
    by_cases he : k.1 = slot
    · rw [List.takeWhile_cons_of_neg (by simpa using he),
        List.takeWhile_cons_of_neg (by simpa using hk.1 ▸ he)]
      exact .nil
    · rw [List.takeWhile_cons_of_pos (by simpa using he),
        List.takeWhile_cons_of_pos (by simpa using hk.1 ▸ he)]
      exact .cons hk ih

/-- A name or a literal changes nothing but the log. -/
theorem walk_leaf (hk : n.kind = .identifier ∨ n.kind = .literal) (p : Typing) (place : Place) :
    Agree p (n.walk visitor again place p).2 := by
  cases hp : p.failure with
  | some e => rw [walk_failed (by simp [hp])]; exact .refl p
  | none =>
    obtain ⟨loc, type, s⟩ := n
    have hstep : Agree p (leaveNode place ⟨loc, type, s⟩ p).2 := by
      cases s with
      | identifier => exact (agree_noteMissing p _).note_right _
      | literal => exact agree_note p _
      | _ => simp [Node.kind, Shape.kind] at hk
    have hd : descended again ⟨loc, type, s⟩ p = (⟨loc, type, s⟩, p) := by
      cases s with
      | identifier | literal => simp only [descended, enter, hp]; rfl
      | _ => simp [Node.kind, Shape.kind] at hk
    rw [walk_run hp, hd, if_neg (by simp [hp])]
    exact hstep

section parts
variable (hkind : m.kind = n.kind) (henter : Agree (enter n p).2 (enter m q).2)
  (hparts : PartsAgree again n.kind n.shape.kids m.shape.kids)
include hkind henter hparts

theorem agree_descended : Agree (descended again n p).2 (descended again m q).2 := by
  rw [walkParts_snd, walkParts_snd, hkind]
  exact hparts.mapM henter

/-- What becomes of the parts in one slot: both walks come to them in states that agree. -/
theorem descended_part? (hd : (descended again n p).2.failure = none) (hk : n.part? slot = some k)
    (hl : m.part? slot = some l) :
    ∃ p' q', Agree p' q' ∧ (walkPart again n.kind slot k p').2.failure = none ∧
      (descended again n p).1.part? slot = some (walkPart again n.kind slot k p').1 ∧
      (descended again m q).1.part? slot = some (walkPart again n.kind slot l q').1 := by
  refine ⟨partState again n slot (enter n p).2, partState again m slot (enter m q).2, ?_,
    walkPart_ok hd hk, ?_, ?_⟩
  · rw [partState, partState, hkind]
    exact (hparts.before slot).mapM henter
  · exact (walkParts_part? (n := n)).trans (by rw [hk]; rfl)
  · exact (walkParts_part? (n := m)).trans (by rw [hl, hkind]; rfl)

end parts

/-! ## Walks over the two trees -/

/-- What the walks over two trees lead to that are spelled differently: states that agree and,
unless the pass has failed, trees that are spelled differently in the same places. -/
structure SpelledAlike (chosen : PathSet) (n m : Node) (r r' : Node × Typing) : Prop where
  agree : Agree r.2 r'.2
  respelled : r.2.failure = none → Node.Respelled (chosen.through (n.newAwaits r.1)) r.1 r'.1

/-- A name or a literal stays what it is. -/
theorem shape_of_leaf {all : Prop} {parent : Option NodeKind} (h : Rewrites all parent k l)
    (hk : k.kind = .identifier ∨ k.kind = .literal) : l.shape = k.shape := by
  have hrel := h.rel (by rcases hk with hk | hk <;> rw [hk] <;> nofun)
  obtain ⟨loc, type, s⟩ := k
  obtain ⟨loc', type', s'⟩ := l
  dsimp only at hrel ⊢
  cases hrel <;> first | rfl | simp [Node.kind, Shape.kind] at hk

/-- Two nodes that are spelled differently look the same to the pass when it leaves them. -/
theorem leftAlike_of_respelled (h : n.Respelled chosen m) : LeftAlike n.shape m.shape := by
  cases h with
  | @keep _ n m _ _ _ shape parts =>
    have hrel : n.shape.Rel (fun k l => ∃ c, Node.Respelled c k l) m.shape :=
      shape.of_part? fun slot k l hk hl => ⟨_, parts slot k l hk hl⟩
    obtain ⟨loc, type, s⟩ := n
    obtain ⟨loc', type', s'⟩ := m
    dsimp only at hrel ⊢
    by_cases hm : s.kind = .member
    · cases s <;> cases hm
      cases hrel with
      | member ho hk =>
        obtain ⟨_, ho⟩ := ho
        obtain ⟨_, hk⟩ := hk
        exact .member ho.type (hk.attributeName? _)
    · exact .other hm (hrel.mono fun _ _ ⟨_, hr⟩ => hr.looks)
  | respell _ identifier text object =>
    exact .member object.type (by simp only [attributeName?, identifier, text]; rfl)

/-- The trees are spelled differently after the walk if they are once the parts are walked over. -/
theorem spelledAlike_of_descended (ha : Agree p q)
    (hd : Agree (descended again n p).2 (descended again m q).2)
    (hr : (descended again n p).2.failure = none → ∀ t, Node.Respelled
      (chosen.through (n.newAwaits (typed (descended again n p).1 t)))
      (typed (descended again n p).1 t) (typed (descended again m q).1 t)) (place : Place) :
    SpelledAlike chosen n m (n.walk visitor again place p) (m.walk visitor again place q) := by
  cases hp : p.failure with
  | some e =>
    have hf : p.failure.isSome := by rw [hp]; rfl
    rw [walk_failed hf, walk_failed (by rw [← ha.failure]; exact hf)]
    exact ⟨ha, fun hs => by rw [hp] at hs; cases hs⟩
  | none =>
    rw [walk_run hp, walk_run (ha.failure ▸ hp), ← hd.failure]
    split
    · next hf => exact ⟨hd, fun hs => by rw [hs] at hf; cases hf⟩
    · next hf =>
      replace hr := hr (Option.not_isSome_iff_eq_none.1 hf)
      have hleft := leftAlike_of_respelled (hr .unknown)
      obtain ⟨hagree, hdone⟩ := done_leaveNode (n := (descended again n p).1)
        (m := (descended again m q).1) hd (hr .unknown).loc hleft place
      refine ⟨hagree, fun hok => ?_⟩
      obtain ⟨t, ⟨hn, hm⟩ | ⟨hcall, hn, hm⟩⟩ := hdone hok
      · rw [hn, hm]
        exact hr t
      · have hkind : (descended again n p).1.kind = n.kind := kind_walkParts
        obtain ⟨hroot, hbelow⟩ := newAwaits_awaited (n := n) (m := typed (descended again n p).1 t)
          (hkind.symm.trans hcall)
        have hargument : PathSet.under (n.newAwaits (awaited (typed (descended again n p).1 t)))
            .argument = n.newAwaits (typed (descended again n p).1 t) :=
          funext fun path => (hbelow .argument path).trans (if_pos rfl)
        rw [hn, hm]
        exact .await hroot (hargument ▸ hr t)

/-- Two nodes with the same spelling, whose parts may be spelled differently. -/
theorem descended_keep (kept : chosen [] = false) (loc : m.loc = n.loc)
    (shape : n.shape.Rel (fun _ _ => True) m.shape)
    (parts : ∀ slot k l, n.part? slot = some k → m.part? slot = some l →
      Node.Respelled (chosen.under slot) k l)
    (ih : ∀ k ∈ n.shape.parts, ∀ {chosen p q l}, Node.Respelled chosen k l → Agree p q → ∀ place,
      SpelledAlike chosen k l (k.walk visitor again place p) (l.walk visitor again place q))
    (ha : Agree p q) :
    Agree (descended again n p).2 (descended again m q).2 ∧
      ((descended again n p).2.failure = none → ∀ t, Node.Respelled
        (chosen.through (n.newAwaits (typed (descended again n p).1 t)))
        (typed (descended again n p).1 t) (typed (descended again m q).1 t)) := by
  have hrel : n.shape.Rel (fun k l => k ∈ n.shape.parts ∧ ∃ c, Node.Respelled c k l) m.shape :=
    shape.of_part? fun slot k l hk hl => ⟨Shape.mem_parts_of_part? hk, _, parts slot k l hk hl⟩
  have henter : Agree (enter n p).2 (enter m q).2 :=
    ha.enter (hrel.mono fun k l ⟨_, _, hr⟩ => hr.name?.symm)
  have hkind : m.kind = n.kind := shape.kind.symm
  have hparts : PartsAgree again n.kind n.shape.kids m.shape.kids :=
    hrel.kids.imp fun k l ⟨hs, hmem, _, hr⟩ => ⟨hs, fun ha => hs ▸ (ih k.2 hmem hr ha _).agree⟩
  refine ⟨agree_descended hkind henter hparts, fun hf t => ?_⟩
  have hd : (typed (descended again n p).1 t).kind = n.kind := kind_walkParts
  have hshape : (descended again n p).1.shape.Rel (fun _ _ => True) (descended again m q).1.shape :=
    ((Shape.rel_traverse _ n.shape _).symm.comp
      (shape.comp (Shape.rel_traverse _ m.shape _))).mono fun _ _ _ => trivial
  refine .keep ((PathSet.through_root (newAwaits_root hd)).trans kept) loc rfl hshape
    fun slot a b hna hmb => ?_
  obtain ⟨k, hk, -⟩ := (Shape.rel_traverse (walkPart again n.kind) n.shape _).symm.part?_some hna
  obtain ⟨l, hl, -⟩ := shape.part?_some hk
  obtain ⟨p', q', hpq, hok, ha', hb'⟩ := descended_part? hkind henter hparts hf hk hl
  obtain rfl := Option.some.inj (ha'.symm.trans hna)
  obtain rfl := Option.some.inj (hb'.symm.trans hmb)
  rw [PathSet.under_through (newAwaits_root hd), newAwaits_under hd hk hna]
  exact (ih k (Shape.mem_parts_of_part? hk) (parts slot k l hk hl) hpq _).respelled hok

/-- Two member accesses of which one asks for the attribute by a name and the other by a string. -/
theorem descended_respell {loc : Position} {type : Option ShellType} {o o' k k' : Node}
    {name raw : String} (respelled : chosen [] = true) (identifier : k.shape = .identifier name)
    (text : k'.shape = .literal (.text name) raw)
    (ih : ∀ {p q}, Agree p q → ∀ place, SpelledAlike (chosen.under ⟨"object", none⟩) o o'
      (o.walk visitor again place p) (o'.walk visitor again place q)) (ha : Agree p q) :
    let n : Node := ⟨loc, type, .member o k false⟩
    let m : Node := ⟨loc, type, .member o' k' true⟩
    Agree (descended again n p).2 (descended again m q).2 ∧
      ((descended again n p).2.failure = none → ∀ t, Node.Respelled
        (chosen.through (n.newAwaits (typed (descended again n p).1 t)))
        (typed (descended again n p).1 t) (typed (descended again m q).1 t)) := by
  intro n m
  have hkind : m.kind = n.kind := rfl
  have hk : k.kind = .identifier := by rw [Node.kind, identifier]; rfl
  have hk' : k'.kind = .literal := by rw [Node.kind, text]; rfl
  have hname {p q : Typing} (ha : Agree p q) (place : Place) : Agree
      (k.walk visitor again place p).2 (k'.walk visitor again place q).2 :=
    ((walk_leaf (.inl hk) p place).symm.trans ha).trans (walk_leaf (.inr hk') q place)
  have hstay (r : Typing) (o k : Node) (c : Bool) : (enter ⟨loc, type, .member o k c⟩ r).2 = r := by
    unfold enter
    split <;> rfl
  have henter : Agree (enter n p).2 (enter m q).2 := by rwa [hstay, hstay]
  have hparts : PartsAgree again n.kind n.shape.kids m.shape.kids :=
    .cons ⟨rfl, fun ha => (ih ha _).agree⟩ (.cons ⟨rfl, fun ha => hname ha _⟩ .nil)
  refine ⟨agree_descended hkind henter hparts, fun hf t => ?_⟩
  obtain ⟨p', q', hpq, hok, ha, ha'⟩ :=
    descended_part? hkind henter hparts hf (show n.part? ⟨"object", none⟩ = some o from rfl)
      (show m.part? ⟨"object", none⟩ = some o' from rfl)
  obtain ⟨r, r', hr, hok', hb, hb'⟩ :=
    descended_part? hkind henter hparts hf (show n.part? ⟨"property", none⟩ = some k from rfl)
      (show m.part? ⟨"property", none⟩ = some k' from rfl)
  have hd : (typed (descended again n p).1 t).kind = n.kind := kind_walkParts
  have hroot := (PathSet.through_root (newAwaits_root hd)).trans respelled
  have hobject := (ih hpq (.part n.kind ⟨"object", none⟩)).respelled hok
  rw [← newAwaits_under hd (show n.part? ⟨"object", none⟩ = some o from rfl) ha,
    ← PathSet.under_through (newAwaits_root hd)] at hobject
  have hleaf := (shape_of_leaf (walk_rewrites k hok') (.inl hk)).trans identifier
  have hok' : (walkPart again m.kind ⟨"property", none⟩ k' r').2.failure = none :=
    (hname hr _).failure ▸ hok'
  have hleaf' := (shape_of_leaf (walk_rewrites k' hok') (.inr hk')).trans text
  -- both are member accesses still
  have hmember (o k : Node) (c : Bool) (r : Typing) : ∃ a b,
      (descended again ⟨loc, type, .member o k c⟩ r).1 = ⟨loc, type, .member a b c⟩ := ⟨_, _, rfl⟩
  obtain ⟨a, b, hn⟩ := hmember o k false p
  obtain ⟨a', b', hm⟩ := hmember o' k' true q
  rw [hn] at ha hb hroot hobject ⊢
  rw [hm] at ha' hb' ⊢
  obtain rfl := Option.some.inj ha
  obtain rfl := Option.some.inj ha'
  obtain rfl := Option.some.inj hb
  obtain rfl := Option.some.inj hb'
  exact .respell hroot hleaf hleaf' hobject

/-- **Two spellings of a tree.** The walks lead to states that agree, and to trees that are spelled
differently in the same places. -/
theorem walk_respelled (h : n.Respelled chosen m) (ha : Agree p q) (place : Place) :
    SpelledAlike chosen n m (n.walk visitor again place p) (m.walk visitor again place q) := by
  induction n using Node.induction generalizing chosen m p q place with
  | step n ih =>
    cases h with
    | keep kept loc type shape parts =>
      obtain ⟨hd, hr⟩ := descended_keep kept loc shape parts (fun k hk => ih k hk) ha
      exact spelledAlike_of_descended ha hd hr place
    | respell respelled identifier text object =>
      obtain ⟨hd, hr⟩ := descended_respell respelled identifier text
        (fun ha => ih _ (by simp [Shape.parts, Shape.kids, Shape.one]) object ha) ha
      exact spelledAlike_of_descended ha hd hr place

/-- **Two spellings of a program.** -/
theorem run_respelled (hp : n.kind = .program) (h : n.Respelled chosen m) (t : SymbolTable) :
    SpelledAlike chosen n m (run n t) (run m t) := by
  have hrun {n : Node} (hp : n.kind = .program) : run n t =
      let d := descended (Node.visit visitor 0) n (start t)
      (if d.2.failure.isSome then d.1 else typed d.1 d.2.table.unknown, d.2) := by
    rw [run_eq, descended, enter_program hp]
  rw [hrun hp, hrun (h.kind.trans hp)]
  cases h with
  | respell => cases hp
  | keep kept loc type shape parts =>
    obtain ⟨hd, hr⟩ := descended_keep kept loc shape parts
      (fun _ _ _ _ _ _ hr ha place => walk_respelled hr ha place) (Agree.refl (start t))
    refine ⟨hd, fun hf => ?_⟩
    have hs : (descended (Node.visit visitor 0) n (start t)).2.failure.isSome = false := by
      rw [show (descended (Node.visit visitor 0) n (start t)).2.failure = none from hf]
      rfl
    dsimp only
    rw [← hd.failure, ← hd.table, hs]
    exact hr hf _

end Typing

/-! ## Rewritings -/

namespace ProgramScope

/-- **Two spellings of an attribute.** The tree `other` is a program that asks for some attributes,
in any places of its own choice, by strings between brackets where `tree` asks for them by names.
Then the two are rewritten alike. Both fail with the same error, or neither fails; they lead to the
same table; and if they do not fail, the rewritten trees differ in just these accesses: all other
nodes are the same and have the same types, and the same calls are awaited. -/
theorem rewrite_respelled (s : ProgramScope) (t : SymbolTable) {tree other : Node}
    {chosen : PathSet} (hp : tree.kind = .program) (h : tree.Respelled chosen other) :
    let r := s.rewrite t tree
    let r' := s.rewrite t other
    r'.failure = r.failure ∧ r'.table = r.table ∧ r'.scope = r.scope ∧
      (r.failure = none →
        r.tree.Respelled (chosen.through (tree.newAwaits r.tree)) r'.tree) := by
  intro r r'
  obtain ⟨hagree, hr⟩ := Typing.run_respelled hp h (s.enter t).2
  obtain ⟨htree, hfailure, hscope⟩ := rewrite_outcome s t tree
  obtain ⟨htree', hfailure', hscope'⟩ := rewrite_outcome s t other
  refine ⟨?_, ?_, hscope'.trans hscope.symm, fun hf => ?_⟩
  · rw [hfailure', hfailure, hagree.failure]
  · rw [rewrite_table, rewrite_table, hagree.table]
  · rw [htree', htree]
    exact hr (hfailure ▸ hf)

/-- The collection `users` of a database, asked for by a name and by a string: the call of its
`find` is awaited in both scripts. -/
theorem rewrite_respelled_of_collection :
    let coll : ShellType :=
      .object none "Collection" true (some [("find", .type (.function none .absent true))])
    let db : ShellType := .object none "Database" true (some [("users", .type coll)])
    let t : SymbolTable := .ofScope (.ofTypes []) [("db", .type db)]
    let users : Path := [⟨"body", some 0⟩, ⟨"expression", none⟩, ⟨"right", none⟩,
      ⟨"callee", none⟩, ⟨"object", none⟩]
    let site : PathSet := (· == users)
    let spelled (tree : Node) := tree.respell (fun name => "'" ++ name ++ "'") site
    ∃ tree, parseScript "x = db.users.find()" = .ok tree ∧
      formatScript (spelled tree) = "x = db['users'].find();" ∧
      formatScript (unopened.rewrite t (spelled tree)).tree = "x = await db['users'].find();" ∧
      let r := unopened.rewrite t tree
      let r' := unopened.rewrite t (spelled tree)
      formatScript r.tree = "x = await db.users.find();" ∧ r'.failure = none ∧ r'.table = r.table ∧
        r.tree.Respelled (site.through (tree.newAwaits r.tree)) r'.tree := by
  intro coll db t users site spelled
  obtain ⟨tree, hparse⟩ :=
    exists_ok_of_isOk (show (parseScript "x = db.users.find()").isOk by decide +kernel)
  have hfacts : (parseScript "x = db.users.find()").toOption.any fun tree =>
      decide (tree.kind = .program) && ((tree.at? users).bind Node.named?).isSome &&
      decide (formatScript (spelled tree) = "x = db['users'].find();") &&
      decide (formatScript (unopened.rewrite t (spelled tree)).tree =
        "x = await db['users'].find();") &&
      decide (formatScript (unopened.rewrite t tree).tree = "x = await db.users.find();") &&
      (unopened.rewrite t tree).failure.isNone := by
    decide +kernel
  rw [hparse] at hfacts
  simp only [Except.toOption, Option.any_some, Bool.and_eq_true, decide_eq_true_eq,
    Option.isNone_iff_eq_none] at hfacts
  obtain ⟨⟨⟨⟨⟨hprogram, hnamed⟩, hother⟩, hrewritten'⟩, hrewritten⟩, hok⟩ := hfacts
  have hspelled : tree.Respelled site (spelled tree) :=
    tree.respelled_respell _ site fun path hpath => by
      obtain rfl : path = users := eq_of_beq hpath
      exact hnamed
  obtain ⟨hfailure, htable, -, hr⟩ := rewrite_respelled unopened t hprogram hspelled
  exact ⟨tree, hparse, hother, hrewritten', hrewritten, hfailure.trans hok, htable, hr hok⟩

end ProgramScope

end AutoAwait
