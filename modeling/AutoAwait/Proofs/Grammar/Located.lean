import AutoAwait.Proofs.Grammar.First
import AutoAwait.Proofs.Grammar.Written
import Mathlib.Order.Basic

/-!
# Where nodes stand

A tree takes its places from the tokens that it is made of: each node stands at one of them, and in
the order in which the source reads the places follow the tokens. Only the dotted name after `new`
is built from its end.

* `Node.ordered` are the nodes of a tree in that order, without such dotted names;
* `Placed` says that trees stand at some tokens in order; its lemmas `skip`, `append` and `node` put
  them together;
* `Form.trees` are the trees of what tokens spell, `Spells.placed` is the main statement.
-/

namespace AutoAwait

/-! ## The order of places -/

/-- A place comes before those on later lines and those further right on its line. -/
instance : Preorder Position where
  le p q := p.line < q.line ∨ p.line = q.line ∧ p.column ≤ q.column
  le_refl _ := .inr ⟨rfl, Nat.le_refl _⟩
  le_trans p q r h h' := by
    rcases h with h | ⟨h, hc⟩ <;> rcases h' with h' | ⟨h', hc'⟩
    · exact .inl (Nat.lt_trans h h')
    · exact .inl (h' ▸ h)
    · exact .inl (h ▸ h')
    · exact .inr ⟨h.trans h', Nat.le_trans hc hc'⟩

/-! ## The nodes in order -/

/-- The parts of a shape, but not the dotted name after `new`. -/
def Shape.inOrder {α : Type} (isDotted : α → Bool) : Shape α → List α
  | .construct callee args => if isDotted callee then args else callee :: args
  | s => s.parts

namespace Node

/-- Is this a member, as the dotted name after `new` is? -/
def isDotted (n : Node) : Bool := n.kind == .member

/-- The nodes of a tree in the order in which the source reads, without the dotted names after `new`
and what is below these. -/
def ordered : Node → List Node :=
  fold fun n parts => n :: (parts.inOrder fun k => k.1.isDotted).flatMap (·.2)

theorem ordered_eq (n : Node) :
    n.ordered = n :: (n.shape.inOrder isDotted).flatMap ordered := by
  have h : ∀ s : Shape Node,
      ((s.map fun k => (k, ordered k)).inOrder fun k => k.1.isDotted).flatMap (·.2) =
        (s.inOrder isDotted).flatMap ordered := by
    intro s
    have hparts := Shape.parts_map (fun k => (k, ordered k)) s
    cases s with
    | construct c as =>
      simp only [Shape.map, Shape.inOrder]
      split
      · rw [List.flatMap_map]
      · rw [List.flatMap_cons, List.flatMap_cons, List.flatMap_map]
    | _ =>
      rw [Shape.map, Shape.inOrder, Shape.inOrder]
      · rw [Shape.map] at hparts
        rw [hparts, List.flatMap_map]
      all_goals exact nofun
  rw [← h]
  exact fold_eq _ n

end Node

/-! ## Trees at tokens -/

/-- The places of tokens that stand in the text. -/
def places (ts : List Token) : List Position :=
  (ts.filter fun t => t.kind ≠ .terminator).map (·.loc)

/-- Are the places `qs` found along `ps`, in order? One place can be found more than once. -/
inductive Along : List Position → List Position → Prop
  | nil : Along [] []
  | skip {p ps qs} (h : Along ps qs) : Along (p :: ps) qs
  | take {p ps qs} (h : Along (p :: ps) qs) : Along (p :: ps) (p :: qs)

namespace Along

variable {ps ps' qs qs' : List Position}

theorem of_nil : (ps : List Position) → Along ps []
  | [] => .nil
  | _ :: ps => .skip (of_nil ps)

theorem append (h : Along ps qs) (h' : Along ps' qs') : Along (ps ++ ps') (qs ++ qs') := by
  induction h with
  | @nil => exact h'
  | skip _ ih => exact .skip ih
  | take _ ih => exact .take ih

theorem mem (h : Along ps qs) : ∀ q ∈ qs, q ∈ ps := by
  induction h with
  | nil => exact fun _ hq => hq
  | skip _ ih => exact fun q hq => .tail _ (ih q hq)
  | take _ ih => exact List.forall_mem_cons.2 ⟨.head _, ih⟩

/-- Along places that come one after the other the places come so too. -/
theorem pairwise (h : Along ps qs) (hs : ps.Pairwise (· ≤ ·)) : qs.Pairwise (· ≤ ·) := by
  induction h with
  | nil => exact .nil
  | skip _ ih => exact ih hs.of_cons
  | @take p ps qs h ih =>
    refine .cons (fun q hq => ?_) (ih hs)
    rcases List.mem_cons.1 (h.mem q hq) with rfl | hq
    · exact le_rfl
    · exact List.rel_of_pairwise_cons hs hq

end Along

/-- Do trees stand at tokens, in order? -/
structure Placed (ts : List Token) (ns : List Node) : Prop where
  along : Along (places ts) ((ns.flatMap Node.ordered).map (·.loc))
  /-- Each node, those of dotted names included, stands at a token. -/
  mem : ∀ n ∈ ns.flatMap Node.nodes, n.loc ∈ places ts
  /-- No node stands after a part of it. -/
  before : (places ts).Pairwise (· ≤ ·) →
    ∀ n ∈ ns.flatMap Node.ordered, ∀ k ∈ n.nodes, n.loc ≤ k.loc

theorem places_append (ts us : List Token) : places (ts ++ us) = places ts ++ places us := by
  simp [places]

theorem places_cons {t : Token} (ht : t.kind ≠ .terminator) (ts : List Token) :
    places (t :: ts) = t.loc :: places ts := by
  simp [places, ht]

/-- Is the first token at this place? -/
def Heads (loc : Position) (ts : List Token) : Prop :=
  ∃ t us, ts = t :: us ∧ t.kind ≠ .terminator ∧ t.loc = loc

namespace Heads

variable {loc : Position} {t : Token} {ts : List Token}

theorem cons (ht : t.kind ≠ .terminator) : Heads t.loc (t :: ts) := ⟨t, ts, rfl, ht, rfl⟩

theorem append (h : Heads loc ts) (us : List Token) : Heads loc (ts ++ us) := by
  obtain ⟨t, ts, rfl, h⟩ := h
  exact ⟨t, ts ++ us, rfl, h⟩

end Heads

namespace Placed

variable {t : Token} {ts us : List Token} {ns ms : List Node}

theorem nil (ts : List Token) : Placed ts [] :=
  ⟨.of_nil _, nofun, fun _ => nofun⟩

theorem append (h : Placed ts ns) (h' : Placed us ms) : Placed (ts ++ us) (ns ++ ms) where
  along := by
    rw [places_append, List.flatMap_append, List.map_append]
    exact h.along.append h'.along
  mem n hn := by
    rw [places_append]
    rw [List.flatMap_append] at hn
    exact List.mem_append.2 ((List.mem_append.1 hn).imp (h.mem n) (h'.mem n))
  before hs n hn := by
    rw [places_append] at hs
    rw [List.flatMap_append] at hn
    obtain ⟨hs, hs', -⟩ := List.pairwise_append.1 hs
    exact (List.mem_append.1 hn).elim (h.before hs n) (h'.before hs' n)

theorem skip (h : Placed ts ns) : Placed (t :: ts) ns := (nil [t]).append h

theorem right (h : Placed ts ns) (us : List Token) : Placed (ts ++ us) ns := by
  have hr := h.append (nil us)
  rwa [List.append_nil] at hr

/-- A tree at the first token, whose parts stand at some of them. -/
theorem of_parts {loc : Position} {shape : Shape Node} (hh : Heads loc ts)
    (hm : ∀ n ∈ shape.parts.flatMap Node.nodes, n.loc ∈ places ts)
    (h : Placed ts (shape.inOrder Node.isDotted ++ ns)) : Placed ts (.untyped loc shape :: ns) := by
  obtain ⟨t, us, rfl, ht, rfl⟩ := hh
  constructor
  · have ha := h.along
    rw [List.flatMap_cons, Node.ordered_eq, List.cons_append, List.map_cons,
      ← List.flatMap_append]
    rw [places_cons ht] at ha ⊢
    exact .take ha
  · intro n hn
    rw [List.flatMap_cons, Node.nodes_eq] at hn
    rcases List.mem_cons.1 hn with rfl | hn
    · rw [places_cons ht]
      exact .head _
    rcases List.mem_append.1 hn with hn | hn
    · exact hm n hn
    · exact h.mem n (by rw [List.flatMap_append]; exact List.mem_append_right _ hn)
  · intro hs n hn
    rw [List.flatMap_cons, Node.ordered_eq, List.cons_append, ← List.flatMap_append] at hn
    rcases List.mem_cons.1 hn with rfl | hn
    · intro k hk
      rw [Node.nodes_eq] at hk
      rcases List.mem_cons.1 hk with rfl | hk
      · exact le_rfl
      · have hk := hm k hk
        rw [places_cons ht] at hk hs
        rcases List.mem_cons.1 hk with hk | hk
        · exact hk.ge
        · exact List.rel_of_pairwise_cons hs hk
    · exact h.before hs n hn

/-- A tree at the first token, whose parts stand at it and the next ones; further trees may come
after it. -/
theorem cons {loc : Position} {shape : Shape Node} (hh : Heads loc ts)
    (hs : shape.inOrder Node.isDotted = shape.parts) (h : Placed ts (shape.parts ++ ns)) :
    Placed ts (.untyped loc shape :: ns) := by
  refine of_parts hh (fun n hn => h.mem n ?_) (hs ▸ h)
  rw [List.flatMap_append]
  exact List.mem_append_left _ hn

theorem node {loc : Position} {shape : Shape Node} (hh : Heads loc ts)
    (hs : shape.inOrder Node.isDotted = shape.parts) (h : Placed ts shape.parts) :
    Placed ts [.untyped loc shape] :=
  cons hh hs (by rwa [List.append_nil])

theorem identifier (ht : t.kind ≠ .terminator) (h : Placed (t :: ts) ns) :
    Placed (t :: ts) (t.toIdentifier :: ns) :=
  cons (.cons ht) rfl h

end Placed

/-! ## The trees of a form -/

mutual

/-- The trees of what tokens spell. -/
def Form.trees [CharNames] : Form → Except ParseError (List Node)
  | .phrase _ p | .value p => return [← p.toNode]
  | .name t => .ok [t.toIdentifier]
  | .path ts => .ok (ts.map (·.toIdentifier))
  | .entry e => return [← e.toNode]
  | .arrowBody b => return [← b.toNode]
  | .declarator d => return [← d.toNode]
  | .block b | .finalizer b => return [← b.toNode]
  | .init i => return [← i.toNode]
  | .handler h => return [← h.toNode]
  | .alternate s | .stmt s => return [← s.toNode]
  | .stmts ss => statementNodes ss
  | .parens f => f.trees
  | .opt f => optionTrees f
  | .commas fs | .more fs | .list fs | .items fs => formsTrees fs

/-- The trees of forms one after the other. -/
def formsTrees [CharNames] : List Form → Except ParseError (List Node)
  | [] => .ok []
  | f :: fs => return (← f.trees) ++ (← formsTrees fs)

/-- The trees of a form that can be missing. -/
def optionTrees [CharNames] : Option Form → Except ParseError (List Node)
  | none => .ok []
  | some f => f.trees

end

section forms
variable {α : Type} {f : α → Form} {g : α → Except ParseError Node} {ns : List Node}

theorem formsTrees_map [CharNames] (hf : ∀ a, (f a).trees = return [← g a]) {as : List α}
    (h : as.mapM g = .ok ns) : formsTrees (as.map f) = .ok ns := by
  induction as generalizing ns with
  | nil => exact h
  | cons a as ih =>
    simp only [List.mapM_cons, bind_ok, pure_ok] at h
    obtain ⟨n, hn, ms, hms, rfl⟩ := h
    simp only [List.map_cons, formsTrees, hf, bind_ok, pure_ok]
    exact ⟨[n], ⟨n, hn, rfl⟩, ms, ih hms, rfl⟩

theorem optionTrees_map [CharNames] (hf : ∀ a, (f a).trees = return [← g a]) {o : Option α}
    {n : Option Node} (h : o.mapM g = .ok n) : optionTrees (o.map f) = .ok n.toList := by
  cases option_mapM_ok.1 h with
  | none => rfl
  | some hn => exact (hf _).trans (bind_ok.2 ⟨_, hn, rfl⟩)

theorem trees_phrases [CharNames] {ps : List Phrase} (h : phraseNodes ps = .ok ns) :
    formsTrees (Form.phrases ps) = .ok ns :=
  formsTrees_map (fun _ => rfl) (phraseNodes_eq ps ▸ h)

theorem trees_entries [CharNames] {es : List ObjectEntry} (h : entryNodes es = .ok ns) :
    formsTrees (es.map .entry) = .ok ns :=
  formsTrees_map (fun _ => rfl) (entryNodes_eq es ▸ h)

theorem trees_declarators [CharNames] {ds : List Declarator} (h : declaratorNodes ds = .ok ns) :
    formsTrees (ds.map .declarator) = .ok ns :=
  formsTrees_map (fun _ => rfl) (declaratorNodes_eq ds ▸ h)

theorem trees_parameters [CharNames] {ps : List Phrase} (h : parameterNodes ps = .ok ns) :
    phraseNodes ps = .ok ns := by
  induction ps generalizing ns with
  | nil => exact h
  | cons p ps ih =>
    simp only [parameterNodes, bind_ok] at h
    obtain ⟨n, hn, h⟩ := h
    split at h
    · simp only [bind_ok, pure_ok] at h
      obtain ⟨ms, hms, rfl⟩ := h
      simp only [phraseNodes, bind_ok, pure_ok]
      exact ⟨n, hn, ms, ih hms, rfl⟩
    · cases h

theorem trees_names [CharNames] (ts : List Token) :
    formsTrees (ts.map .name) = .ok (ts.map (·.toIdentifier)) := by
  induction ts with
  | nil => rfl
  | cons t ts ih =>
    simp only [List.map_cons, formsTrees, Form.trees, ih]
    rfl

theorem trees_name? [CharNames] (name : Option Token) :
    optionTrees (name.map .name) = .ok (name.map (·.toIdentifier)).toList := by
  cases name <;> rfl

theorem trees_args [CharNames] {args : Option (List Phrase)} (h : argumentNodes args = .ok ns) :
    optionTrees (args.map Form.args) = .ok ns := by
  cases args with
  | none => exact h
  | some ps => exact trees_phrases h

end forms

/-! ## What is spelled -/

/-- The first token of an expression is where its parse tree says. -/
theorem Spells.heads {l : Nat} {p : Phrase} {ts : List Token} (h : Spells (.phrase l p) ts) :
    Heads p.start ts := by
  generalize hf : Form.phrase l p = f at h
  induction h generalizing l p <;> cases hf
  case nameRef ht | number ht | string ht | this ht => exact .cons (by simp [ht])
  case constant ht => exact .cons (TokenKind.ne_of_holds ht rfl)
  case unary ho _ _ => exact .cons (TokenKind.ne_of_holds ho rfl)
  case group hl _ _ _ | array hl _ _ _ | object hl _ _ _ | construct hl _ _ _ _ _
      | arrow hl _ _ _ _ _ _ | arrowName hl _ _ _ | function hl _ _ _ _ _ _ =>
    exact .cons (by simp [hl])
  case lift ih => exact ih rfl
  case member ih | call ih _ | update ih | binary ih _ | assignment ih _ =>
    exact (ih rfl).append _
  case index ih _ | conditional ih _ _ => exact ((ih rfl).append _).append _

theorem Token.toKey_placed [CharNames] {t : Token} {n : Node} (ht : t.kind ≠ .terminator)
    (h : t.toKey = .ok n) {ts : List Token} {ns : List Node} (hp : Placed (t :: ts) ns) :
    Placed (t :: ts) (n :: ns) := by
  unfold toKey at h
  split at h
  · cases h
    exact .cons (.cons ht) rfl hp
  · split at h
    · cases h
      exact .cons (.cons ht) rfl hp
    · obtain ⟨v, rfl, -⟩ := toInteger_ok h
      exact .cons (.cons ht) rfl hp
  · cases h
    exact .identifier ht hp

theorem Token.toConstant_placed {t : Token} (ht : t.kind ≠ .terminator) (ts : List Token) :
    Placed (t :: ts) [t.toConstant] := by
  unfold toConstant
  split <;> exact .node (.cons ht) rfl (.nil _)

theorem unaryShape_parts (op : Token) (n : Node) : (unaryShape op n).parts = [n] ∧
    (unaryShape op n).inOrder Node.isDotted = (unaryShape op n).parts := by
  unfold unaryShape
  split <;> exact ⟨rfl, rfl⟩

theorem binaryShape_parts (op : Token) (a b : Node) : (binaryShape op a b).parts = [a, b] ∧
    (binaryShape op a b).inOrder Node.isDotted = (binaryShape op a b).parts := by
  unfold binaryShape
  split <;> exact ⟨rfl, rfl⟩

/-- The dotted name after `new` stands at its segments. -/
theorem loc_mem_constructTarget {t : Token} {path ts : List Token} (ht : t.kind ≠ .terminator)
    (h : Placed ts (path.map (·.toIdentifier))) :
    ∀ n ∈ (constructTarget t path).nodes, n.loc ∈ places (t :: ts) := by
  have hpath : ∀ u ∈ path, u.loc ∈ places (t :: ts) := by
    intro u hu
    rw [places_cons ht]
    refine .tail _ (h.mem u.toIdentifier (List.mem_flatMap.2 ⟨_, List.mem_map_of_mem hu, ?_⟩))
    exact Node.mem_nodes_self _
  have hfold : ∀ n : Node, (∀ m ∈ n.nodes, m.loc ∈ places (t :: ts)) →
      ∀ m ∈ (path.foldl (fun o u => .untyped u.loc (.member o u.toIdentifier false)) n).nodes,
        m.loc ∈ places (t :: ts) := by
    clear h
    induction path with
    | nil => exact fun _ h => h
    | cons u path ih =>
      obtain ⟨hu, hpath⟩ := List.forall_mem_cons.1 hpath
      intro n hn
      refine ih hpath _ fun m hm => ?_
      rw [Node.nodes_eq] at hm
      rcases List.mem_cons.1 hm with rfl | hm
      · exact hu
      obtain ⟨k, hk, hmk⟩ := List.mem_flatMap.1 hm
      rcases List.mem_pair.1 hk with rfl | rfl
      · exact hn m hmk
      · rw [Node.nodes_eq] at hmk
        obtain rfl := List.mem_singleton.1 hmk
        exact hu
  refine hfold t.toIdentifier fun m hm => ?_
  rw [Node.nodes_eq] at hm
  obtain rfl := List.mem_singleton.1 hm
  rw [places_cons ht]
  exact .head _

theorem isDotted_constructTarget (t u : Token) (path : List Token) :
    (constructTarget t (u :: path)).isDotted := by
  unfold constructTarget
  rw [List.foldl_cons]
  generalize hn : Node.untyped u.loc (.member t.toIdentifier u.toIdentifier false) = n
  have hd : n.isDotted := by rw [← hn]; rfl
  clear hn
  induction path generalizing n with
  | nil => exact hd
  | cons v path ih => exact ih _ rfl

/-- The dotted name after `new` is built from its end; a plain one stands in order. -/
theorem Placed.construct {k t : Token} {path ps as : List Token} {args : List Node}
    (hk : k.kind ≠ .terminator) (ht : t.kind ≠ .terminator)
    (hpath : Placed ps (path.map (·.toIdentifier))) (hargs : Placed as args) :
    Placed (k :: t :: ps ++ as) [.untyped k.loc (.construct (constructTarget t path) args)] := by
  cases path with
  | nil =>
    refine .node (.cons hk) ?_ ?_
    · simp [Shape.parts, Shape.kids, Shape.inOrder, constructTarget, Node.isDotted,
        Token.toIdentifier, Node.untyped, Node.kind, Shape.kind]
    · simp only [Shape.parts, Shape.kids, List.map_append, Shape.map_snd_many, Shape.map_snd_one]
      exact (Placed.identifier ht (hpath.append hargs).skip).skip
  | cons u path =>
    refine .of_parts (.cons hk) (fun n hn => ?_) ?_
    · simp only [Shape.parts, Shape.kids, List.map_append, Shape.map_snd_many, Shape.map_snd_one,
        List.flatMap_append, List.flatMap_singleton] at hn
      rw [List.cons_append, places_cons hk, places_append]
      refine .tail _ (List.mem_append.2 ((List.mem_append.1 hn).imp ?_ (hargs.mem n)))
      exact loc_mem_constructTarget ht hpath n
    · rw [List.append_nil, Shape.inOrder, if_pos (isDotted_constructTarget t u path)]
      exact (Placed.nil (k :: t :: ps)).append hargs

theorem trees_one {x : Except ParseError Node} {n : Node} (h : x = .ok n) :
    (return [← x]) = Except.ok (ε := ParseError) [n] := by
  rw [h]
  rfl

/-- **Where nodes stand.** The trees of what tokens spell stand at these, in order. -/
theorem Spells.placed [CharNames] {f : Form} {ts : List Token} (h : Spells f ts) :
    ∀ ns, f.trees = .ok ns → Placed ts ns := by
  induction h with
  -- Expressions
  | nameRef ht =>
    rintro _ ⟨⟩
    exact .identifier (by simp [ht]) (.nil _)
  | number ht =>
    intro ns hns
    simp only [Form.trees, Phrase.toNode, bind_ok, pure_ok] at hns
    obtain ⟨n, hn, rfl⟩ := hns
    obtain ⟨v, rfl, -⟩ := Token.toNumber_ok hn
    exact .node (.cons (by simp [ht])) rfl (.nil _)
  | string ht | this ht =>
    rintro _ ⟨⟩
    exact .node (.cons (by simp [ht])) rfl (.nil _)
  | constant ht =>
    rintro _ ⟨⟩
    exact Token.toConstant_placed (TokenKind.ne_of_holds ht rfl) []
  | group _ _ _ ih =>
    intro ns hns
    exact ((ih ns hns).skip).right _
  | array hl _ _ ih =>
    intro ns hns
    simp only [Form.trees, Phrase.toNode, bind_ok, pure_ok] at hns
    obtain ⟨_, ⟨es, hes, rfl⟩, rfl⟩ := hns
    refine .node (.cons (by simp [hl])) rfl ?_
    simp only [Shape.parts, Shape.kids, Shape.map_snd_many]
    exact ((ih es (trees_phrases hes)).skip).right _
  | object hl _ _ ih =>
    intro ns hns
    simp only [Form.trees, Phrase.toNode, bind_ok, pure_ok] at hns
    obtain ⟨_, ⟨es, hes, rfl⟩, rfl⟩ := hns
    refine .node (.cons (by simp [hl])) rfl ?_
    simp only [Shape.parts, Shape.kids, Shape.map_snd_many]
    exact ((ih es (trees_entries hes)).skip).right _
  | @function k name params body ts us vs hk _ _ _ ihn ihp ihb =>
    intro ns hns
    simp only [Form.trees, Phrase.toNode, bind_ok, pure_ok] at hns
    obtain ⟨_, ⟨b, hb, rfl⟩, rfl⟩ := hns
    refine .node (.cons (by simp [hk])) rfl ?_
    simp only [Shape.parts, Shape.kids, List.map_append, Shape.map_snd_opt, Shape.map_snd_many,
      Shape.map_snd_one]
    exact (((ihn _ (trees_name? name)).append (ihp _ (trees_names params))).append
      (ihb _ (trees_one hb))).skip
  | construct hk ht _ _ ihp iha =>
    intro ns hns
    simp only [Form.trees, Phrase.toNode, bind_ok, pure_ok] at hns
    obtain ⟨_, ⟨as, has, rfl⟩, rfl⟩ := hns
    exact .construct (by simp [hk]) (by simp [ht]) (ihp _ rfl) (iha _ (trees_args has))
  | member ho _ _ ht ih =>
    intro ns hns
    simp only [Form.trees, Phrase.toNode, bind_ok, pure_ok] at hns
    obtain ⟨_, ⟨o, hon, rfl⟩, rfl⟩ := hns
    refine .node (ho.heads.append _) rfl ?_
    exact (ih _ (trees_one hon)).append (.skip (.identifier (by simp [ht]) (.nil _)))
  | index ho _ _ _ iho ihk =>
    intro ns hns
    simp only [Form.trees, Phrase.toNode, bind_ok, pure_ok] at hns
    obtain ⟨_, ⟨o, hon, k, hkn, rfl⟩, rfl⟩ := hns
    refine .node ((ho.heads.append _).append _) rfl ?_
    exact ((iho _ (trees_one hon)).append (ihk _ (trees_one hkn)).skip).right _
  | call hc _ _ ihc iha =>
    intro ns hns
    simp only [Form.trees, Phrase.toNode, bind_ok, pure_ok] at hns
    obtain ⟨_, ⟨c, hcn, as, has, rfl⟩, rfl⟩ := hns
    refine .node (hc.heads.append _) rfl ?_
    simp only [Shape.parts, Shape.kids, List.map_append, Shape.map_snd_many, Shape.map_snd_one]
    exact (ihc _ (trees_one hcn)).append (iha _ (trees_phrases has))
  | update h _ ih =>
    intro ns hns
    simp only [Form.trees, Phrase.toNode, bind_ok, pure_ok] at hns
    obtain ⟨_, ⟨a, han, rfl⟩, rfl⟩ := hns
    exact .node (h.heads.append _) rfl ((ih _ (trees_one han)).right _)
  | @unary op p ts ho _ ih =>
    intro ns hns
    simp only [Form.trees, Phrase.toNode, bind_ok, pure_ok] at hns
    obtain ⟨_, ⟨a, han, rfl⟩, rfl⟩ := hns
    obtain ⟨hparts, horder⟩ := unaryShape_parts op a
    refine .node (.cons (TokenKind.ne_of_holds ho rfl)) horder ?_
    rw [hparts]
    exact (ih _ (trees_one han)).skip
  | @binary l op a b ls rs _ ha _ iha ihb =>
    intro ns hns
    simp only [Form.trees, Phrase.toNode, bind_ok, pure_ok] at hns
    obtain ⟨_, ⟨m, hm, n, hn, rfl⟩, rfl⟩ := hns
    obtain ⟨hparts, horder⟩ := binaryShape_parts op m n
    refine .node (ha.heads.append _) horder ?_
    rw [hparts]
    exact (iha _ (trees_one hm)).append (ihb _ (trees_one hn)).skip
  | conditional ht _ _ _ _ iht ihc iha =>
    intro ns hns
    simp only [Form.trees, Phrase.toNode, bind_ok, pure_ok] at hns
    obtain ⟨_, ⟨t, htn, c, hcn, a, han, rfl⟩, rfl⟩ := hns
    refine .node ((ht.heads.append _).append _) rfl ?_
    exact ((iht _ (trees_one htn)).append (ihc _ (trees_one hcn)).skip).append
      (iha _ (trees_one han)).skip
  | assignment ht _ _ iht ihv =>
    intro ns hns
    simp only [Form.trees, Phrase.toNode, bind_ok] at hns
    obtain ⟨_, ⟨t, htn, hn⟩, hns⟩ := hns
    split at hn
    · simp only [bind_ok, pure_ok] at hn hns
      obtain ⟨v, hvn, rfl⟩ := hn
      subst hns
      refine .node (ht.heads.append _) rfl ?_
      exact (iht _ (trees_one htn)).append (ihv _ (trees_one hvn)).skip
    · cases hn
  | @arrowName t a b bs ht _ _ ih =>
    intro ns hns
    simp only [Form.trees, Phrase.toNode, bind_ok, pure_ok] at hns
    obtain ⟨_, ⟨ps, hps, b, hb, rfl⟩, rfl⟩ := hns
    obtain rfl : [t.toIdentifier] = ps := Except.ok.inj hps
    have ht : t.kind ≠ .terminator := by simp [ht]
    exact .node (.cons ht) rfl (.identifier ht (ih _ (trees_one hb)).skip.skip)
  | arrow hl _ _ _ _ ihp ihb =>
    intro ns hns
    simp only [Form.trees, Phrase.toNode, bind_ok, pure_ok] at hns
    obtain ⟨_, ⟨ps, hps, b, hb, rfl⟩, rfl⟩ := hns
    refine .node (.cons (by simp [hl])) rfl ?_
    simp only [Shape.parts, Shape.kids, List.map_append, Shape.map_snd_many, Shape.map_snd_one]
    exact (ihp _ (trees_phrases (trees_parameters hps))).skip.append
      (ihb _ (trees_one hb)).skip.skip
  | lift _ _ ih | arrowBlock _ ih | arrowPhrase _ ih | initPhrase _ ih | blockStmt _ ih
  | optSome _ ih | list _ ih => exact fun ns hns => ih ns hns
  -- Parts of expressions
  | name ht =>
    rintro _ ⟨⟩
    exact .identifier (by simp [ht]) (.nil _)
  | pathNil | optNone | moreNil | listNil | itemsNil | stmtsNil =>
    rintro _ ⟨⟩
    exact .nil _
  | path _ ht _ ih =>
    rintro _ ⟨⟩
    exact .skip (.identifier (by simp [ht]) (ih _ rfl).skip)
  | @shorthand t ht =>
    rintro _ ⟨⟩
    have ht : t.kind ≠ .terminator := by simp [ht]
    exact .node (.cons ht) rfl (.identifier ht (.identifier ht (.nil _)))
  | @pair t c p ts ht _ _ ih =>
    intro ns hns
    simp only [Form.trees, ObjectEntry.toNode, bind_ok, pure_ok] at hns
    obtain ⟨_, ⟨k, hkn, v, hvn, rfl⟩, rfl⟩ := hns
    have ht : t.kind ≠ .terminator :=
      ht.elim (fun h => by simp [h]) (TokenKind.ne_of_holds · rfl)
    exact .node (.cons ht) rfl (Token.toKey_placed ht hkn (ih _ (trees_one hvn)).skip.skip)
  | parens _ _ _ ih =>
    intro ns hns
    exact ((ih ns hns).skip).right _
  | commas _ _ ih ihs =>
    intro ns hns
    simp only [Form.trees, formsTrees, bind_ok, pure_ok] at hns
    obtain ⟨ns, hn, ms, hms, rfl⟩ := hns
    exact (ih _ hn).append (ihs _ hms)
  | more _ _ _ ih ihs =>
    intro ns hns
    simp only [Form.trees, formsTrees, bind_ok, pure_ok] at hns
    obtain ⟨ns, hn, ms, hms, rfl⟩ := hns
    exact (ih _ hn).skip.append (ihs _ hms)
  | itemsLast _ ih =>
    intro ns hns
    simp only [Form.trees, formsTrees, bind_ok, pure_ok] at hns
    obtain ⟨ns, hn, _, ⟨⟩, rfl⟩ := hns
    rw [List.append_nil]
    exact ih _ hn
  | items _ _ _ ih ihs =>
    intro ns hns
    simp only [Form.trees, formsTrees, bind_ok, pure_ok] at hns
    obtain ⟨ns, hn, ms, hms, rfl⟩ := hns
    exact (ih _ hn).append (ihs _ hms).skip
  -- Parts of statements
  | value _ _ ih | finalizer _ _ ih | alternate _ _ ih | stray _ _ ih =>
    exact fun ns hns => (ih ns hns).skip
  | @declarator t p ts ht _ ih =>
    intro ns hns
    simp only [Form.trees, Declarator.toNode, optionalNode_eq, bind_ok, pure_ok] at hns
    obtain ⟨_, ⟨i, hi, rfl⟩, rfl⟩ := hns
    have ht : t.kind ≠ .terminator := by simp [ht]
    refine .node (.cons ht) rfl ?_
    simp only [Shape.parts, Shape.kids, List.map_append, Shape.map_snd_opt, Shape.map_snd_one]
    exact .identifier ht (ih _ (optionTrees_map (fun _ => rfl) hi)).skip
  | block hl _ _ ih =>
    intro ns hns
    simp only [Form.trees, Block.toNode, bind_ok, pure_ok] at hns
    obtain ⟨_, ⟨ss, hss, rfl⟩, rfl⟩ := hns
    refine .node (.cons (by simp [hl])) rfl ?_
    simp only [Shape.parts, Shape.kids, Shape.map_snd_many]
    exact ((ih _ hss).skip).right _
  | initDecl hk _ ih =>
    intro ns hns
    simp only [Form.trees, LoopInit.toNode, bind_ok, pure_ok] at hns
    obtain ⟨_, ⟨ds, hds, rfl⟩, rfl⟩ := hns
    refine .node (.cons (TokenKind.ne_of_holds hk rfl)) rfl ?_
    simp only [Shape.parts, Shape.kids, Shape.map_snd_many]
    exact (ih _ (trees_declarators hds)).skip
  | @handler k p b ps bs hk _ _ ihp ihb =>
    intro ns hns
    simp only [Form.trees, Handler.toNode, bind_ok, pure_ok] at hns
    obtain ⟨_, ⟨b, hb, rfl⟩, rfl⟩ := hns
    refine .node (.cons (by simp [hk])) rfl ?_
    simp only [Shape.parts, Shape.kids, List.map_append, Shape.map_snd_opt, Shape.map_snd_one]
    refine ((ihp _ ?_).append (ihb _ (trees_one hb))).skip
    cases p <;> rfl
  | stmts _ _ ih ihs =>
    intro ns hns
    simp only [Form.trees, statementNodes, bind_ok, pure_ok] at hns
    obtain ⟨n, hn, ms, hms, rfl⟩ := hns
    exact (ih _ (trees_one hn)).append (ihs _ hms)
  -- Statements
  | declaration hk _ _ ih =>
    intro ns hns
    simp only [Form.trees, Statement.toNode, bind_ok, pure_ok] at hns
    obtain ⟨_, ⟨ds, hds, rfl⟩, rfl⟩ := hns
    refine .node (.cons (TokenKind.ne_of_holds hk rfl)) rfl ?_
    simp only [Shape.parts, Shape.kids, Shape.map_snd_many]
    exact ((ih _ (trees_declarators hds)).skip).right _
  | expression h _ ih =>
    intro ns hns
    simp only [Form.trees, Statement.toNode, bind_ok, pure_ok] at hns
    obtain ⟨_, ⟨n, hn, rfl⟩, rfl⟩ := hns
    exact .node (h.heads.append _) rfl ((ih _ (trees_one hn)).right _)
  | «return» hk _ _ ih =>
    intro ns hns
    simp only [Form.trees, Statement.toNode, optionalNode_eq, bind_ok, pure_ok] at hns
    obtain ⟨_, ⟨n, hn, rfl⟩, rfl⟩ := hns
    refine .node (.cons (by simp [hk])) rfl ?_
    simp only [Shape.parts, Shape.kids, Shape.map_snd_opt]
    exact ((ih _ (optionTrees_map (fun _ => rfl) hn)).skip).right _
  | «if» hk _ _ _ _ iht ihs iha =>
    intro ns hns
    simp only [Form.trees, Statement.toNode, optionalStatement_eq, bind_ok, pure_ok] at hns
    obtain ⟨_, ⟨a, ha, t, ht, s, hs, rfl⟩, rfl⟩ := hns
    refine .node (.cons (by simp [hk])) rfl ?_
    simp only [Shape.parts, Shape.kids, List.map_append, Shape.map_snd_opt, Shape.map_snd_one]
    exact (((iht _ (trees_one ht)).append (ihs _ (trees_one hs))).append
      (iha _ (optionTrees_map (fun _ => rfl) ha))).skip
  | «while» hk _ _ iht ihs =>
    intro ns hns
    simp only [Form.trees, Statement.toNode, bind_ok, pure_ok] at hns
    obtain ⟨_, ⟨t, ht, s, hs, rfl⟩, rfl⟩ := hns
    refine .node (.cons (by simp [hk])) rfl ?_
    exact ((iht _ (trees_one ht)).append (ihs _ (trees_one hs))).skip
  | «for» hk _ _ _ _ _ _ _ _ ihi iht ihu ihs =>
    intro ns hns
    simp only [Form.trees, Statement.toNode, optionalInit_eq, optionalNode_eq, bind_ok,
      pure_ok] at hns
    obtain ⟨_, ⟨i, hi, t, ht, u, hu, s, hs, rfl⟩, rfl⟩ := hns
    refine .node (.cons (by simp [hk])) rfl ?_
    simp only [Shape.parts, Shape.kids, List.map_append, Shape.map_snd_opt, Shape.map_snd_one]
    exact (((ihi _ (optionTrees_map (fun _ => rfl) hi)).skip.skip.append
      (iht _ (optionTrees_map (fun _ => rfl) ht)).skip).append
      (ihu _ (optionTrees_map (fun _ => rfl) hu)).skip).append
      (ihs _ (trees_one hs)).skip
  | @forOf k l d n o p r s ts ss hk _ hd hn _ _ _ _ ihp ihs =>
    intro ns hns
    simp only [Form.trees, Statement.toNode, bind_ok, pure_ok] at hns
    obtain ⟨_, ⟨p, hp, s, hs, rfl⟩, rfl⟩ := hns
    have hn : n.kind ≠ .terminator := by simp [hn]
    refine .node (.cons (by simp [hk])) rfl ?_
    -- the declaration and its declarator stand at tokens of their own
    refine (Placed.cons (.cons (TokenKind.ne_of_holds hd rfl)) rfl ?_).skip.skip
    refine (Placed.cons (.cons hn) rfl ?_).skip
    exact .identifier hn ((ihp _ (trees_one hp)).append (ihs _ (trees_one hs)).skip).skip.skip
  | @functionDecl k n params b ps bs hk hn _ _ ihp ihb =>
    intro ns hns
    simp only [Form.trees, Statement.toNode, bind_ok, pure_ok] at hns
    obtain ⟨_, ⟨b, hb, rfl⟩, rfl⟩ := hns
    refine .node (.cons (by simp [hk])) rfl ?_
    simp only [Shape.parts, Shape.kids, List.map_append, Shape.map_snd_many, Shape.map_snd_one]
    exact (Placed.identifier (by simp [hn])
      ((ihp _ (trees_names params)).append (ihb _ (trees_one hb))).skip).skip
  | «break» hk _ | «continue» hk _ =>
    rintro _ ⟨⟩
    exact .node (.cons (by simp [hk])) rfl (.nil _)
  | throw hk _ _ ih =>
    intro ns hns
    simp only [Form.trees, Statement.toNode, bind_ok, pure_ok] at hns
    obtain ⟨_, ⟨n, hn, rfl⟩, rfl⟩ := hns
    exact .node (.cons (by simp [hk])) rfl (((ih _ (trees_one hn)).skip).right _)
  | «try» hk _ _ _ ihb ihh ihf =>
    intro ns hns
    simp only [Form.trees, Statement.toNode, optionalHandler_eq, optionalBlock_eq, bind_ok,
      pure_ok] at hns
    obtain ⟨_, ⟨b, hb, h, hh, f, hf, rfl⟩, rfl⟩ := hns
    refine .node (.cons (by simp [hk])) rfl ?_
    simp only [Shape.parts, Shape.kids, List.map_append, Shape.map_snd_opt, Shape.map_snd_one]
    exact (((ihb _ (trees_one hb)).append
      (ihh _ (optionTrees_map (fun _ => rfl) hh))).append
      (ihf _ (optionTrees_map (fun _ => rfl) hf))).skip

end AutoAwait
