import AutoAwait.Proofs.Grammar.Derivable
import AutoAwait.Proofs.Grammar.Fits
import AutoAwait.Proofs.Printing.Bare
import AutoAwait.Proofs.Token.Steps

/-!
# Tokens that give a tree

Which tokens spell something whose tree is a given one, but for places and types. For each form there
is a lemma that puts the tokens of its parts together.

* `Gives` says of a computation that it succeeds with a given result, places and types apart;
* `SpelledAs` says that tokens spell, in some form, something that gives a tree, `SpelledAll` says so
  of a list of trees and `SpelledOpt` of one that can be missing;
* `Node.SpelledAt` is about expressions, `Node.SpelledStmt` about statements.
-/

namespace AutoAwait

/-! ## Results, places and types apart -/

/-- Does the computation succeed, with a result that `g` does not tell from `a`? -/
def Gives {α : Type} (g : α → α) (x : Except ParseError α) (a : α) : Prop :=
  ∃ b, x = .ok b ∧ g b = g a

namespace Gives

variable {α β : Type} {g : α → α} {h : β → β} {x : Except ParseError α}
  {f : α → Except ParseError β} {a b : α} {c : β}

theorem pure (hb : g b = g a) : Gives g (Pure.pure b) a := ⟨b, rfl, hb⟩

theorem bind (hx : Gives g x a) (hf : ∀ b, g b = g a → Gives h (f b) c) : Gives h (x >>= f) c := by
  obtain ⟨b, rfl, hb⟩ := hx
  exact hf b hb

/-- The results of a list. -/
theorem list {γ : Type} {tree : γ → Except ParseError Node}
    {f : List γ → Except ParseError (List Node)} (hnil : f [] = .ok [])
    (hcons : ∀ a as, f (a :: as) = tree a >>= fun n => f as >>= fun ns => Pure.pure (n :: ns))
    {as : List γ} {ns : List Node} (h : List.Forall₂ (fun a n => Gives Node.bare (tree a) n) as ns) :
    Gives (List.map Node.bare) (f as) ns := by
  induction h with
  | nil => exact ⟨[], hnil, rfl⟩
  | cons h _ ih =>
    rw [hcons]
    exact h.bind fun n hn => ih.bind fun ns hns => .pure (by simp [hn, hns])

/-- The result of what can be missing. -/
theorem option {γ : Type} {tree : γ → Except ParseError Node}
    {f : Option γ → Except ParseError (Option Node)} (hnone : f none = .ok none)
    (hsome : ∀ a, f (some a) = tree a >>= fun n => Pure.pure (some n)) {a : Option γ}
    {n : Option Node} (h : Option.Rel (fun a n => Gives Node.bare (tree a) n) a n) :
    Gives (Option.map Node.bare) (f a) n := by
  cases h with
  | none => exact ⟨none, hnone, rfl⟩
  | some h =>
    rw [hsome]
    exact h.bind fun n hn => .pure (by simp [hn])

end Gives

namespace Node

/-- A new node is like another one if its shape is. -/
theorem bare_untyped {loc loc' : Position} {type : Option ShellType} {s s' : Shape Node}
    (h : s.map bare = s'.map bare) : (untyped loc s).bare = (⟨loc', type, s'⟩ : Node).bare := by
  rw [untyped, bare_eq, bare_eq]
  exact congrArg (Node.mk .start none) h

theorem kind_of_bare {n m : Node} (h : n.bare = m.bare) : n.kind = m.kind := by
  rw [← bare_kind, h, bare_kind]

end Node

/-! ## Forms that give a tree -/

section

variable {α : Type}

/-- Do the tokens spell something, in the form `form`, that gives the tree? -/
def SpelledAs (form : α → Form) (tree : α → Except ParseError Node) (n : Node) (us : List Token) :
    Prop := ∃ a, Spells (form a) us ∧ Gives Node.bare (tree a) n

/-- Do the tokens spell things, put together by `list`, that give the trees? -/
def SpelledAll (list : List Form → Form) (form : α → Form) (tree : α → Except ParseError Node)
    (ns : List Node) (us : List Token) : Prop :=
  ∃ as, Spells (list (as.map form)) us ∧ List.Forall₂ (fun a n => Gives Node.bare (tree a) n) as ns

/-- Do the tokens spell something that gives the tree, or nothing if it is missing? -/
def SpelledOpt (form : α → Form) (tree : α → Except ParseError Node) (n : Option Node)
    (us : List Token) : Prop :=
  ∃ a : Option α, Spells (.opt (a.map form)) us ∧
    Option.Rel (fun a n => Gives Node.bare (tree a) n) a n

end

/-- What stands in parentheses and between commas. -/
abbrev Form.parenthesised (fs : List Form) : Form := .parens (.list fs)

section

variable {α : Type} {form : α → Form} {tree : α → Except ParseError Node} {n : Node} {ns : List Node}
  {us vs : List Token} {l r t : Token}

theorem spelledAll_list (h : SpelledAll .commas form tree ns us) : SpelledAll .list form tree ns us := by
  obtain ⟨as, hs, hg⟩ := h
  exact ⟨as, .list hs, hg⟩

theorem spelledAll_nil : SpelledAll .list form tree [] [] := ⟨[], .listNil, .nil⟩

theorem spelledAll_single (h : SpelledAs form tree n us) : SpelledAll .commas form tree [n] us := by
  obtain ⟨a, hs, hg⟩ := h
  refine ⟨[a], ?_, .cons hg .nil⟩
  simpa using Spells.commas hs .moreNil

theorem spelledAll_cons (h : SpelledAs form tree n us) (ht : t.kind = .comma)
    (hs : SpelledAll .commas form tree ns vs) :
    SpelledAll .commas form tree (n :: ns) (us ++ t :: vs) := by
  obtain ⟨a, ha, hg⟩ := h
  obtain ⟨as, has, hgs⟩ := hs
  refine ⟨a :: as, ?_, .cons hg hgs⟩
  cases hgs with
  | nil => exact nomatch has
  | cons _ _ =>
    cases has with
    | commas hb hbs => exact .commas ha (.more ht hb hbs)

theorem spelledAll_parens (hl : l.kind = .lparen) (h : SpelledAll .list form tree ns us)
    (hr : r.kind = .rparen) : SpelledAll .parenthesised form tree ns (l :: us ++ [r]) := by
  obtain ⟨as, hs, hg⟩ := h
  exact ⟨as, .parens hl hs hr, hg⟩

/-- A list without a comma at its end. -/
theorem Spells.items_of_list {fs : List Form} (h : Spells (.list fs) us) : Spells (.items fs) us := by
  have hmore : ∀ {fs us}, Spells (.more fs) us → ∀ {f ts}, Spells f ts →
      Spells (.items (f :: fs)) (ts ++ us) := by
    intro fs us h
    generalize hm : Form.more fs = m at h
    induction h generalizing fs <;> cases hm
    case moreNil =>
      intro f ts hf
      rw [List.append_nil]
      exact .itemsLast hf
    case more hc h _ _ ih =>
      intro f ts hf
      exact .items hf hc (ih rfl h)
  cases h with
  | listNil => exact .itemsNil
  | list h =>
    cases h with
    | commas h hs => exact hmore hs h

theorem spelledAll_items (h : SpelledAll .list form tree ns us) :
    SpelledAll .items form tree ns us := by
  obtain ⟨as, hs, hg⟩ := h
  exact ⟨as, hs.items_of_list, hg⟩

theorem spelledOpt_none : SpelledOpt form tree none [] := ⟨none, .optNone, .none⟩

theorem spelledOpt_some (h : SpelledAs form tree n us) : SpelledOpt form tree (some n) us := by
  obtain ⟨a, hs, hg⟩ := h
  exact ⟨some a, .optSome hs, .some hg⟩

theorem spelledAs_of_opt (h : SpelledOpt form tree (some n) us) : SpelledAs form tree n us := by
  obtain ⟨a, hs, hg⟩ := h
  cases hg with
  | some hg =>
    cases hs with
    | optSome hs => exact ⟨_, hs, hg⟩

end

/-! ## Names -/

/-- The tree of a name. -/
abbrev Token.nameNode (t : Token) : Except ParseError Node := .ok t.toIdentifier

/-- Do the tokens spell the names? -/
theorem map_bare_of_names {ts : List Token} {ns : List Node}
    (h : List.Forall₂ (fun t n => Gives Node.bare (Token.nameNode t) n) ts ns) :
    (ts.map Token.toIdentifier).map Node.bare = ns.map Node.bare := by
  induction h with
  | nil => rfl
  | cons h _ ih =>
    obtain ⟨_, ⟨⟩, hn⟩ := h
    simp [hn, ih]

theorem map_bare_of_name {t : Option Token} {n : Option Node}
    (h : Option.Rel (fun t n => Gives Node.bare (Token.nameNode t) n) t n) :
    (t.map Token.toIdentifier).map Node.bare = n.map Node.bare := by
  cases h with
  | none => rfl
  | some h =>
    obtain ⟨_, ⟨⟩, hn⟩ := h
    simp [hn]

namespace Node

variable {n m o a b c e : Node} {ns as ps : List Node}
  {us vs ws xs : List Token}
  {t k l r d op : Token} {loc loc' : Position} {type type' : Option ShellType} {x : String}

theorem bare_toIdentifier (t : Token) :
    t.toIdentifier.bare = (⟨loc, type, .identifier t.text⟩ : Node).bare :=
  bare_untyped rfl

/-- A name is spelled by a token. -/
theorem spelledAs_name (ht : t.kind = .name) :
    SpelledAs .name Token.nameNode ⟨loc, type, .identifier t.text⟩ [t] :=
  ⟨t, .name ht, .pure (bare_toIdentifier t)⟩

/-! ## Expressions -/

variable [CharNames]

/-- Do the tokens spell an expression that binds as tightly as `least` and gives the tree? It is not
a `new` without arguments. -/
def SpelledAt (n : Node) (least : Nat) (us : List Token) : Prop :=
  ∃ p, Spells (.phrase least p) us ∧ p.isBareNew = false ∧ Gives bare p.toNode n

namespace SpelledAt

theorem lift {m l : Nat} (h : n.SpelledAt m us) (hl : 1 ≤ l) (hm : l ≤ m) : n.SpelledAt l us := by
  obtain ⟨p, hs, hb, hg⟩ := h
  refine ⟨p, ?_, hb, hg⟩
  obtain ⟨i, rfl⟩ := Nat.exists_eq_add_of_le hm
  clear hm
  induction i with
  | zero => exact hs
  | succ i ih => exact ih (.lift (by omega) hs)

/-- As an expression in a list. -/
theorem phrase (h : n.SpelledAt 1 us) : SpelledAs (.phrase 1) Phrase.toNode n us := by
  obtain ⟨p, hs, -, hg⟩ := h
  exact ⟨p, hs, hg⟩

theorem group (hl : l.kind = .lparen) (h : n.SpelledAt 1 us) (hr : r.kind = .rparen) :
    n.SpelledAt 12 (l :: us ++ [r]) := by
  obtain ⟨p, hs, -, hg⟩ := h
  exact ⟨.group l.loc p, .group hl hs hr, rfl, hg⟩

theorem name (ht : t.kind = .name) : SpelledAt ⟨loc, type, .identifier t.text⟩ 12 [t] :=
  ⟨.name t, .nameRef ht, rfl, .pure (bare_toIdentifier t)⟩

theorem number {v : LiteralValue} (ht : t.kind = .number)
    (hv : ∀ p, Token.toNumber ⟨.number, t.text, p⟩ = .ok (.untyped p (.literal v t.text))) :
    SpelledAt ⟨loc, type, .literal v t.text⟩ 12 [t] := by
  obtain ⟨k, text, p⟩ := t
  obtain rfl : k = .number := ht
  exact ⟨.number ⟨.number, text, p⟩, .number rfl, rfl, _, hv p, bare_untyped rfl⟩

theorem text (ht : t.kind = .string) :
    SpelledAt ⟨loc, type, .literal (.text (StringLiteral.value t.text)) t.text⟩ 12 [t] :=
  ⟨.string t, .string ht, rfl, .pure (bare_untyped rfl)⟩

theorem constant {v : LiteralValue} {raw : String} {w : Keyword} (hk : (TokenKind.keyword w).isConstant)
    (ht : t.kind = .keyword w)
    (hv : ∀ text p, Token.toConstant ⟨.keyword w, text, p⟩ = .untyped p (.literal v raw)) :
    SpelledAt ⟨loc, type, .literal v raw⟩ 12 [t] := by
  obtain ⟨k, text, p⟩ := t
  obtain rfl : k = .keyword w := ht
  refine ⟨.constant ⟨.keyword w, text, p⟩, .constant hk, rfl, .pure ?_⟩
  rw [hv]
  exact bare_untyped rfl

theorem this (ht : t.kind = .keyword .this) : SpelledAt ⟨loc, type, .this⟩ 12 [t] :=
  ⟨.this t, .this ht, rfl, .pure (bare_untyped rfl)⟩

theorem array (hl : l.kind = .lbracket) (h : SpelledAll .list (.phrase 1) Phrase.toNode ns us)
    (hr : r.kind = .rbracket) : SpelledAt ⟨loc, type, .array ns⟩ 12 (l :: us ++ [r]) := by
  obtain ⟨es, hs, hg⟩ := spelledAll_items h
  refine ⟨.array l.loc es, .array hl hs hr, rfl,
    (Gives.list (f := phraseNodes) rfl (fun _ _ => rfl) hg).bind fun ms hms =>
      .pure (bare_untyped ?_)⟩
  rw [Shape.map, Shape.map, hms]

theorem object (hl : l.kind = .lbrace) (h : SpelledAll .list .entry ObjectEntry.toNode ns us)
    (hr : r.kind = .rbrace) : SpelledAt ⟨loc, type, .object ns⟩ 12 (l :: us ++ [r]) := by
  obtain ⟨es, hs, hg⟩ := spelledAll_items h
  refine ⟨.object l.loc es, .object hl hs hr, rfl,
    (Gives.list (f := entryNodes) rfl (fun _ _ => rfl) hg).bind fun ms hms =>
      .pure (bare_untyped ?_)⟩
  rw [Shape.map, Shape.map, hms]

theorem member (h : o.SpelledAt 11 us) (hd : d.kind = .dot) (ht : t.kind = .name) :
    SpelledAt ⟨loc, type, .member o ⟨loc', type', .identifier t.text⟩ false⟩ 11 (us ++ [d, t]) := by
  obtain ⟨p, hs, hb, hg⟩ := h
  refine ⟨.member p t, .member hs hb hd ht, rfl, hg.bind fun m hm => .pure (bare_untyped ?_)⟩
  rw [Shape.map, Shape.map, hm, bare_toIdentifier]

theorem index (h : o.SpelledAt 11 us) (hl : l.kind = .lbracket) (hk : n.SpelledAt 1 vs)
    (hr : r.kind = .rbracket) :
    SpelledAt ⟨loc, type, .member o n true⟩ 11 (us ++ l :: vs ++ [r]) := by
  obtain ⟨p, hs, -, hg⟩ := h
  obtain ⟨q, hq, -, hgq⟩ := hk
  refine ⟨.index p q, .index hs hl hq hr, rfl,
    hg.bind fun m hm => hgq.bind fun k hk => .pure (bare_untyped ?_)⟩
  rw [Shape.map, Shape.map, hm, hk]

theorem call (h : c.SpelledAt 11 us)
    (ha : SpelledAll .parenthesised (.phrase 1) Phrase.toNode as vs) :
    SpelledAt ⟨loc, type, .call c as⟩ 11 (us ++ vs) := by
  obtain ⟨p, hs, hb, hg⟩ := h
  obtain ⟨ps, hps, hgs⟩ := ha
  refine ⟨.call p ps, .call hs hb hps, rfl, hg.bind fun m hm =>
    (Gives.list (f := phraseNodes) rfl (fun _ _ => rfl) hgs).bind fun ms hms =>
      .pure (bare_untyped ?_)⟩
  rw [Shape.map, Shape.map, hm, hms]

theorem assignment (h : a.SpelledAt 11 us) (hk : a.kind.isTarget) (ho : op.kind.assigns)
    (hv : b.SpelledAt 1 vs) :
    SpelledAt ⟨loc, type, .assignment op.text a b⟩ 1 (us ++ op :: vs) := by
  obtain ⟨p, hs, -, hg⟩ := h
  obtain ⟨q, hq, -, hgq⟩ := hv
  refine ⟨.assignment op p q, .assignment hs ho hq, rfl, hg.bind fun m hm => ?_⟩
  rw [if_pos (by rwa [kind_of_bare hm])]
  refine hgq.bind fun v hv => .pure (bare_untyped ?_)
  rw [Shape.map, Shape.map, hm, hv]

theorem binary {l : Nat} {s : Shape Node} (h : a.SpelledAt l us) (ho : op.kind.operatorLevel? = some l)
    (hb : b.SpelledAt (l + 1) vs)
    (hs : ∀ n m, n.bare = a.bare → m.bare = b.bare → (binaryShape op n m).map bare = s.map bare) :
    SpelledAt ⟨loc, type, s⟩ l (us ++ op :: vs) := by
  obtain ⟨p, hp, -, hg⟩ := h
  obtain ⟨q, hq, -, hgq⟩ := hb
  exact ⟨.binary op p q, .binary ho hp hq, rfl, hg.bind fun n hn => hgq.bind fun m hm =>
    .pure (bare_untyped (hs n m hn hm))⟩

theorem unary {s : Shape Node} (ho : Grammar.isUnaryOperator op.kind) (h : a.SpelledAt 9 us)
    (hs : ∀ n, n.bare = a.bare → (unaryShape op n).map bare = s.map bare) :
    SpelledAt ⟨loc, type, s⟩ 9 (op :: us) := by
  obtain ⟨p, hp, -, hg⟩ := h
  exact ⟨.unary op p, .unary ho hp, rfl, hg.bind fun n hn => .pure (bare_untyped (hs n hn))⟩

theorem update (h : a.SpelledAt 11 us) (ho : op.kind = .incDec) :
    SpelledAt ⟨loc, type, .update op.text a false⟩ 10 (us ++ [op]) := by
  obtain ⟨p, hp, -, hg⟩ := h
  refine ⟨.update p op, .update hp ho, rfl, hg.bind fun n hn => .pure (bare_untyped ?_)⟩
  rw [Shape.map, Shape.map, hn]

theorem conditional (ht : n.SpelledAt 3 us) (hq : k.kind = .question) (hc : c.SpelledAt 1 vs)
    (hd : d.kind = .colon) (ha : a.SpelledAt 1 ws) :
    SpelledAt ⟨loc, type, .conditional n c a⟩ 2 (us ++ k :: (vs ++ d :: ws)) := by
  obtain ⟨p, hp, -, hgp⟩ := ht
  obtain ⟨q, hq', -, hgq⟩ := hc
  obtain ⟨r, hr, -, hgr⟩ := ha
  have hs : Spells (.phrase 2 (.conditional p q r)) (us ++ k :: (vs ++ d :: ws)) := by
    simpa using Spells.conditional hp hq hq' hd hr
  refine ⟨_, hs, rfl, hgp.bind fun n hn => hgq.bind fun c hc => hgr.bind fun a ha =>
    .pure (bare_untyped ?_)⟩
  rw [Shape.map, Shape.map, hn, hc, ha]

theorem function {id : Option Node} (hk : k.kind = .keyword .function)
    (hi : SpelledOpt .name Token.nameNode id us)
    (hp : SpelledAll .parenthesised .name Token.nameNode ps vs)
    (hb : SpelledAs .block Block.toNode b ws) :
    SpelledAt ⟨loc, type, .function id ps b⟩ 12 (k :: us ++ vs ++ ws) := by
  obtain ⟨i, hi, hgi⟩ := hi
  obtain ⟨ts, hts, hgs⟩ := hp
  obtain ⟨body, hb, hg⟩ := hb
  refine ⟨.function k.loc i ts body, .function hk hi hts hb, rfl, hg.bind fun n hn =>
    .pure (bare_untyped ?_)⟩
  rw [Shape.map, Shape.map, hn, map_bare_of_name hgi, map_bare_of_names hgs]

end SpelledAt

/-! ### What `new` applies to -/

/-- Do the tokens spell a name and names after dots that give the tree? -/
def SpelledPath (n : Node) (us : List Token) : Prop :=
  ∃ t ts vs, us = t :: vs ∧ t.kind = .name ∧ Spells (.path ts) vs ∧
    (constructTarget t ts).bare = n.bare

omit [CharNames] in
theorem SpelledPath.name (ht : t.kind = .name) : SpelledPath ⟨loc, type, .identifier t.text⟩ [t] :=
  ⟨t, [], [], rfl, ht, .pathNil, bare_toIdentifier t⟩

omit [CharNames] in
theorem SpelledPath.member (h : o.SpelledPath us) (hd : d.kind = .dot) (ht : t.kind = .name) :
    SpelledPath ⟨loc, type, .member o ⟨loc', type', .identifier t.text⟩ false⟩ (us ++ [d, t]) := by
  obtain ⟨t', ts, vs, rfl, ht', hs, hb⟩ := h
  refine ⟨t', ts ++ [t], vs ++ [d, t], rfl, ht', hs.path_append hd ht, ?_⟩
  rw [constructTarget, List.foldl_append]
  refine bare_untyped ?_
  rw [Shape.map, Shape.map, bare_toIdentifier, ← hb]
  rfl

theorem SpelledAt.construct (hk : k.kind = .keyword .new) (hc : c.SpelledPath us)
    (ha : SpelledAll .parenthesised (.phrase 1) Phrase.toNode as vs) :
    SpelledAt ⟨loc, type, .construct c as⟩ 12 (k :: us ++ vs) := by
  obtain ⟨t, ts, ws, rfl, ht, hts, hb⟩ := hc
  obtain ⟨ps, hps, hgs⟩ := ha
  have hargs : Gives (List.map bare) (argumentNodes (some ps)) as :=
    Gives.list (f := phraseNodes) rfl (fun _ _ => rfl) hgs
  refine ⟨.construct k.loc t ts (some ps), .construct hk ht hts (.optSome hps), rfl,
    hargs.bind fun ms hms => .pure (bare_untyped ?_)⟩
  rw [Shape.map, Shape.map, hb, hms]

/-! ### Arrow functions -/

theorem SpelledAs.arrowBlock (h : SpelledAs .block Block.toNode b us) :
    SpelledAs .arrowBody ArrowBody.toNode b us := by
  obtain ⟨body, hs, hg⟩ := h
  exact ⟨.block body, .arrowBlock hs, hg⟩

theorem SpelledAt.arrowBody (h : b.SpelledAt 1 us) : SpelledAs .arrowBody ArrowBody.toNode b us := by
  obtain ⟨p, hs, -, hg⟩ := h
  exact ⟨.phrase p, .arrowPhrase hs, hg⟩

theorem gives_parameters {qs : List Phrase} (hk : ∀ p ∈ ps, p.kind = .identifier)
    (h : List.Forall₂ (fun q p => Gives bare (Phrase.toNode q) p) qs ps) :
    Gives (List.map bare) (parameterNodes qs) ps := by
  induction h with
  | nil => exact ⟨[], rfl, rfl⟩
  | cons h _ ih =>
    obtain ⟨hp, hps⟩ := List.forall_mem_cons.1 hk
    refine h.bind fun n hn => ?_
    rw [if_pos ((kind_of_bare hn).trans hp)]
    exact (ih hps).bind fun ms hms => .pure (by simp [hn, hms])

/-- Do the tokens spell what can stand before an arrow and gives the parameters? -/
def SpelledParams (ps : List Node) (us : List Token) : Prop :=
  ∀ {b : Node} {vs : List Token} {t : Token} {loc : Position} {type : Option ShellType},
    t.kind = .arrow → SpelledAs .arrowBody ArrowBody.toNode b vs →
      SpelledAt ⟨loc, type, .arrow ps b⟩ 1 (us ++ t :: vs)

theorem SpelledParams.name (ht : t.kind = .name) :
    SpelledParams [⟨loc, type, .identifier t.text⟩] [t] := by
  rintro b vs a loc' type' ha ⟨body, hs, hg⟩
  refine ⟨.arrow t.loc [.name t] body, .arrowName ht ha hs, rfl, ?_⟩
  have hp : Gives (List.map bare) (parameterNodes [.name t]) [⟨loc, type, .identifier t.text⟩] :=
    gives_parameters (by simp [kind, Shape.kind]) (.cons (.pure (bare_toIdentifier t)) .nil)
  refine hp.bind fun ms hms => hg.bind fun m hm => .pure (bare_untyped ?_)
  rw [Shape.map, Shape.map, hms, hm]

theorem SpelledParams.list (hk : ∀ p ∈ ps, p.kind = .identifier) (hl : l.kind = .lparen)
    (h : SpelledAll .list (.phrase 1) Phrase.toNode ps us) (hr : r.kind = .rparen) :
    SpelledParams ps (l :: us ++ [r]) := by
  rintro b vs a loc type ha ⟨body, hs, hg⟩
  obtain ⟨qs, hqs, hgs⟩ := h
  have hsp : Spells (.phrase 1 (.arrow l.loc qs body)) (l :: us ++ [r] ++ a :: vs) := by
    simpa using Spells.arrow hl hqs hr ha hs
  refine ⟨_, hsp, rfl, (gives_parameters hk hgs).bind fun ms hms => hg.bind fun m hm =>
    .pure (bare_untyped ?_)⟩
  rw [Shape.map, Shape.map, hms, hm]

/-! ### Entries of objects -/

theorem spelledAs_shorthand {kloc vloc : Position} {ktype vtype : Option ShellType}
    (ht : t.kind = .name) : SpelledAs .entry ObjectEntry.toNode
      ⟨loc, type, .property ⟨kloc, ktype, .identifier t.text⟩ ⟨vloc, vtype, .identifier t.text⟩ true⟩
      [t] :=
  ⟨.shorthand t, .shorthand ht, .pure (bare_untyped (congrArg₂ (Shape.property · · true)
    (bare_toIdentifier t) (bare_toIdentifier t)))⟩

theorem spelledAs_pair (ht : t.kind = .name ∨ t.kind.isLiteralKey) (hk : Gives bare t.toKey n)
    (hc : d.kind = .colon) (hv : a.SpelledAt 1 us) :
    SpelledAs .entry ObjectEntry.toNode ⟨loc, type, .property n a false⟩ (t :: d :: us) := by
  obtain ⟨p, hp, -, hg⟩ := hv
  refine ⟨.pair t p, .pair ht hc hp, hk.bind fun k hk => hg.bind fun v hv => .pure (bare_untyped ?_)⟩
  rw [Shape.map, Shape.map, hk, hv]

/-! ## Parts of statements -/

theorem SpelledAt.value (he : t.kind = .assign) (h : n.SpelledAt 1 us) :
    SpelledAs .value Phrase.toNode n (t :: us) := by
  obtain ⟨p, hp, -, hg⟩ := h
  exact ⟨p, .value he hp, hg⟩

theorem spelledAs_declarator {init : Option Node} (ht : t.kind = .name)
    (h : SpelledOpt .value Phrase.toNode init us) : SpelledAs .declarator Declarator.toNode
      ⟨loc, type, .declarator ⟨loc', type', .identifier t.text⟩ init⟩ (t :: us) := by
  obtain ⟨p, hp, hg⟩ := h
  refine ⟨.mk t p, .declarator ht hp,
    (Gives.option (f := optionalNode) rfl (fun _ => rfl) hg).bind fun m hm =>
      .pure (bare_untyped ?_)⟩
  rw [Shape.map, Shape.map, hm, bare_toIdentifier]

/-- Do the tokens spell a declaration, without its end, that gives the tree? -/
def SpelledDecl (n : Node) (us : List Token) : Prop :=
  ∃ k ds vs, us = k :: vs ∧ k.kind.declares ∧ Spells (.commas (ds.map .declarator)) vs ∧
    Gives bare (LoopInit.declaration k ds).toNode n

theorem SpelledDecl.of_all (hk : k.kind.declares)
    (h : SpelledAll .commas .declarator Declarator.toNode ns us) :
    SpelledDecl ⟨loc, type, .declaration k.text ns⟩ (k :: us) := by
  obtain ⟨ds, hds, hg⟩ := h
  refine ⟨k, ds, us, rfl, hk, hds,
    (Gives.list (f := declaratorNodes) rfl (fun _ _ => rfl) hg).bind fun ms hms =>
      .pure (bare_untyped ?_)⟩
  rw [Shape.map, Shape.map, hms]

theorem SpelledDecl.init (h : n.SpelledDecl us) : SpelledAs .init LoopInit.toNode n us := by
  obtain ⟨k, ds, vs, rfl, hk, hds, hg⟩ := h
  exact ⟨_, .initDecl hk hds, hg⟩

theorem SpelledAt.init (h : n.SpelledAt 1 us) : SpelledAs .init LoopInit.toNode n us := by
  obtain ⟨p, hp, -, hg⟩ := h
  exact ⟨.phrase p, .initPhrase hp, hg⟩

/-- The condition of an `if` or a `while`. -/
theorem SpelledAt.condition (hl : l.kind = .lparen) (h : n.SpelledAt 1 us) (hr : r.kind = .rparen) :
    SpelledAs (fun p => .parens (.phrase 1 p)) Phrase.toNode n (l :: us ++ [r]) := by
  obtain ⟨p, hp, -, hg⟩ := h
  exact ⟨p, .parens hl hp hr, hg⟩

omit [CharNames] in
theorem spelledAs_param (hl : l.kind = .lparen) (h : SpelledAs .name Token.nameNode n us)
    (hr : r.kind = .rparen) :
    SpelledAs (fun t => .parens (.name t)) Token.nameNode n (l :: us ++ [r]) := by
  obtain ⟨t, ht, hg⟩ := h
  exact ⟨t, .parens hl ht hr, hg⟩

theorem spelledAs_handler {p : Option Node} (hk : k.kind = .keyword .catch)
    (hp : SpelledOpt (fun t => .parens (.name t)) Token.nameNode p us)
    (hb : SpelledAs .block Block.toNode b vs) :
    SpelledAs .handler Handler.toNode ⟨loc, type, .catchClause p b⟩ (k :: us ++ vs) := by
  obtain ⟨i, hi, hgi⟩ := hp
  obtain ⟨body, hb, hg⟩ := hb
  refine ⟨.mk k.loc i body, .handler hk hi hb, hg.bind fun m hm => .pure (bare_untyped ?_)⟩
  rw [Shape.map, Shape.map, hm, map_bare_of_name hgi]

theorem spelledAs_finalizer (hk : k.kind = .keyword .finally)
    (h : SpelledAs .block Block.toNode b us) : SpelledAs .finalizer Block.toNode b (k :: us) := by
  obtain ⟨body, hb, hg⟩ := h
  exact ⟨body, .finalizer hk hb, hg⟩

/-! ## Statements -/

/-- Do the tokens spell a statement that gives the tree? It ends with an `if` without an `else` only
if `opened` says so. -/
def SpelledStmt (n : Node) (opened : Bool) (us : List Token) : Prop :=
  ∃ s, Spells (.stmt s) us ∧ (s.isOpen → opened) ∧ Gives bare s.toNode n

namespace SpelledStmt

variable {opened : Bool} {ts : List Token}

theorem declared (h : n.SpelledDecl us) (ht : t.kind = .terminator) :
    n.SpelledStmt opened (us ++ [t]) := by
  obtain ⟨k, ds, vs, rfl, hk, hds, hg⟩ := h
  exact ⟨.declaration k ds, .declaration hk hds ht, by rintro ⟨⟩, hg⟩

theorem expression (h : n.SpelledAt 1 us) (ht : t.kind = .terminator) :
    SpelledStmt ⟨loc, type, .expression n⟩ opened (us ++ [t]) := by
  obtain ⟨p, hp, -, hg⟩ := h
  refine ⟨.expression p, .expression hp ht, by rintro ⟨⟩, hg.bind fun m hm => .pure (bare_untyped ?_)⟩
  rw [Shape.map, Shape.map, hm]

theorem «return» {v : Option Node} (hk : k.kind = .keyword .return)
    (h : SpelledOpt (.phrase 1) Phrase.toNode v us) (ht : t.kind = .terminator) :
    SpelledStmt ⟨loc, type, .return v⟩ opened (k :: us ++ [t]) := by
  obtain ⟨p, hp, hg⟩ := h
  refine ⟨.return k.loc p, .return hk hp ht, by rintro ⟨⟩,
    (Gives.option (f := optionalNode) rfl (fun _ => rfl) hg).bind fun m hm =>
      .pure (bare_untyped ?_)⟩
  rw [Shape.map, Shape.map, hm]

theorem gives_if {loc' : Position} {e : Option Node} {p : Phrase} {s : Statement} {i : Option Statement}
    (hp : Gives bare p.toNode n) (hs : Gives bare s.toNode c)
    (hi : Option.Rel (fun i n => Gives bare (Statement.toNode i) n) i e) :
    Gives bare (Statement.if loc' p s i).toNode ⟨loc, type, .if n c e⟩ :=
  (Gives.option (f := optionalStatement) rfl (fun _ => rfl) hi).bind fun e he =>
    hp.bind fun n hn => hs.bind fun c hc => .pure <| bare_untyped <| by
      rw [Shape.map, Shape.map, hn, hc, he]

theorem «if» (hk : k.kind = .keyword .if)
    (h : SpelledAs (fun p => .parens (.phrase 1 p)) Phrase.toNode n us)
    (hc : c.SpelledStmt opened vs) : SpelledStmt ⟨loc, type, .if n c none⟩ true (k :: us ++ vs) := by
  obtain ⟨p, hp, hg⟩ := h
  obtain ⟨s, hs, -, hgs⟩ := hc
  refine ⟨.if k.loc p s none, ?_, fun _ => rfl, gives_if hg hgs .none⟩
  simpa using Spells.if hk hp hs (a := none) nofun .optNone

theorem ifElse (hk : k.kind = .keyword .if)
    (h : SpelledAs (fun p => .parens (.phrase 1 p)) Phrase.toNode n us)
    (hc : c.SpelledStmt false vs) (ht : t.kind = .keyword .else) (ha : a.SpelledStmt opened ws) :
    SpelledStmt ⟨loc, type, .if n c (some a)⟩ opened (k :: us ++ vs ++ t :: ws) := by
  obtain ⟨p, hp, hg⟩ := h
  obtain ⟨s, hs, ho, hgs⟩ := hc
  obtain ⟨e, he, hoe, hge⟩ := ha
  refine ⟨.if k.loc p s (some e), .if hk hp hs (fun _ => ?_) (.optSome (.alternate ht he)), hoe,
    gives_if hg hgs (.some hge)⟩
  exact Bool.eq_false_iff.2 fun h => nomatch ho h

theorem «while» (hk : k.kind = .keyword .while)
    (h : SpelledAs (fun p => .parens (.phrase 1 p)) Phrase.toNode n us)
    (hb : b.SpelledStmt opened vs) : SpelledStmt ⟨loc, type, .while n b⟩ opened (k :: us ++ vs) := by
  obtain ⟨p, hp, hg⟩ := h
  obtain ⟨s, hs, ho, hgs⟩ := hb
  refine ⟨.while k.loc p s, .while hk hp hs, ho, hg.bind fun m hm => hgs.bind fun b hb =>
    .pure (bare_untyped ?_)⟩
  rw [Shape.map, Shape.map, hm, hb]

theorem «for» {i e u : Option Node} {t' : Token} (hk : k.kind = .keyword .for) (hl : l.kind = .lparen)
    (hi : SpelledOpt .init LoopInit.toNode i us) (ht : t.kind = .semicolon)
    (he : SpelledOpt (.phrase 1) Phrase.toNode e vs) (ht' : t'.kind = .semicolon)
    (hu : SpelledOpt (.phrase 1) Phrase.toNode u ws) (hr : r.kind = .rparen)
    (hb : b.SpelledStmt opened xs) : SpelledStmt ⟨loc, type, .for i e u b⟩ opened
      (k :: l :: us ++ t :: vs ++ t' :: ws ++ r :: xs) := by
  obtain ⟨i, hi, hgi⟩ := hi
  obtain ⟨e, he, hge⟩ := he
  obtain ⟨u, hu, hgu⟩ := hu
  obtain ⟨s, hs, ho, hgs⟩ := hb
  refine ⟨.for k.loc i e u s, .for hk hl hi ht he ht' hu hr hs, ho,
    (Gives.option (f := optionalInit) rfl (fun _ => rfl) hgi).bind fun i hi =>
    (Gives.option (f := optionalNode) rfl (fun _ => rfl) hge).bind fun e he =>
    (Gives.option (f := optionalNode) rfl (fun _ => rfl) hgu).bind fun u hu =>
    hgs.bind fun b hb => .pure (bare_untyped ?_)⟩
  rw [Shape.map, Shape.map, hi, he, hu, hb]

theorem forOf {dloc iloc : Position} {dtype itype : Option ShellType} (hk : k.kind = .keyword .for)
    (hl : l.kind = .lparen) (hd : d.kind.declares) (ht : t.kind = .name)
    (ho : op.kind = .keyword .of) (hn : n.SpelledAt 1 us) (hr : r.kind = .rparen)
    (hb : b.SpelledStmt opened vs) : SpelledStmt ⟨loc, type, .forOf
      ⟨dloc, dtype, .declaration d.text
        [⟨iloc, itype, .declarator ⟨loc', type', .identifier t.text⟩ none⟩]⟩ n b⟩ opened
      (k :: l :: d :: t :: op :: us ++ r :: vs) := by
  obtain ⟨p, hp, -, hg⟩ := hn
  obtain ⟨s, hs, hopen, hgs⟩ := hb
  refine ⟨.forOf k.loc d t p s, .forOf hk hl hd ht ho hp hr hs, hopen, hg.bind fun n hn =>
    hgs.bind fun b hb => .pure (bare_untyped ?_)⟩
  rw [Shape.map, Shape.map, hn, hb]
  congr 1

theorem functionDecl (hk : k.kind = .functionDecl) (hi : SpelledAs .name Token.nameNode n us)
    (hp : SpelledAll .parenthesised .name Token.nameNode ps vs)
    (hb : SpelledAs .block Block.toNode b ws) :
    SpelledStmt ⟨loc, type, .functionDecl n ps b⟩ opened (k :: us ++ vs ++ ws) := by
  obtain ⟨t, ht, hgi⟩ := hi
  obtain ⟨_, ⟨⟩, hn⟩ := hgi
  obtain ⟨ts, hts, hgs⟩ := hp
  obtain ⟨body, hb, hg⟩ := hb
  cases ht with
  | name ht =>
    refine ⟨.function k.loc t ts body, .functionDecl hk ht hts hb, by rintro ⟨⟩,
      hg.bind fun m hm => .pure (bare_untyped ?_)⟩
    rw [Shape.map, Shape.map, hm, hn, map_bare_of_names hgs]

theorem block (h : SpelledAs .block Block.toNode n us) : n.SpelledStmt opened us := by
  obtain ⟨body, hb, hg⟩ := h
  exact ⟨.block body, .blockStmt hb, by rintro ⟨⟩, hg⟩

theorem «break» (hk : k.kind = .keyword .break) (ht : t.kind = .terminator) :
    SpelledStmt ⟨loc, type, .break⟩ opened [k, t] :=
  ⟨.break k.loc, .break hk ht, by rintro ⟨⟩, .pure (bare_untyped rfl)⟩

theorem «continue» (hk : k.kind = .keyword .continue) (ht : t.kind = .terminator) :
    SpelledStmt ⟨loc, type, .continue⟩ opened [k, t] :=
  ⟨.continue k.loc, .continue hk ht, by rintro ⟨⟩, .pure (bare_untyped rfl)⟩

theorem throw (hk : k.kind = .keyword .throw) (h : n.SpelledAt 1 us) (ht : t.kind = .terminator) :
    SpelledStmt ⟨loc, type, .throw n⟩ opened (k :: us ++ [t]) := by
  obtain ⟨p, hp, -, hg⟩ := h
  refine ⟨.throw k.loc p, .throw hk hp ht, by rintro ⟨⟩, hg.bind fun m hm => .pure (bare_untyped ?_)⟩
  rw [Shape.map, Shape.map, hm]

theorem «try» {h f : Option Node} (hk : k.kind = .keyword .try)
    (hb : SpelledAs .block Block.toNode b us) (hh : SpelledOpt .handler Handler.toNode h vs)
    (hf : SpelledOpt .finalizer Block.toNode f ws) :
    SpelledStmt ⟨loc, type, .try b h f⟩ opened (k :: us ++ vs ++ ws) := by
  obtain ⟨body, hb, hg⟩ := hb
  obtain ⟨i, hi, hgi⟩ := hh
  obtain ⟨e, he, hge⟩ := hf
  refine ⟨.try k.loc body i e, .try hk hb hi he, by rintro ⟨⟩, hg.bind fun b hb =>
    (Gives.option (f := optionalHandler) rfl (fun _ => rfl) hgi).bind fun h hh =>
    (Gives.option (f := optionalBlock) rfl (fun _ => rfl) hge).bind fun f hf =>
    .pure (bare_untyped ?_)⟩
  rw [Shape.map, Shape.map, hb, hh, hf]

end SpelledStmt

/-! ### Statements in a list -/

/-- Do the tokens spell statements, and stray terminators, that give the trees? -/
def SpelledStmts (ns : List Node) (us : List Token) : Prop :=
  ∃ ss, Spells (.stmts ss) us ∧ List.Forall₂ (fun s n => Gives bare (Statement.toNode s) n) ss ns

namespace SpelledStmts

theorem nil : SpelledStmts [] [] := ⟨[], .stmtsNil, .nil⟩

theorem cons {opened : Bool} (h : n.SpelledStmt opened us) (hs : SpelledStmts ns vs) :
    SpelledStmts (n :: ns) (us ++ vs) := by
  obtain ⟨s, hs', -, hg⟩ := h
  obtain ⟨ss, hss, hgs⟩ := hs
  exact ⟨s :: ss, .stmts hs' hss, .cons hg hgs⟩

theorem stray (hu : Strays us) (hs : SpelledStmts ns vs) : SpelledStmts ns (us ++ vs) := by
  obtain ⟨ss, hss, hgs⟩ := hs
  obtain rfl | ⟨e, rfl, he⟩ := hu
  · exact ⟨ss, hss, hgs⟩
  · exact ⟨ss, .stray he hss, hgs⟩

theorem block (hl : l.kind = .blockOpen) (hs : SpelledStmts ns us) (hr : r.kind = .rbrace) :
    SpelledAs .block Block.toNode ⟨loc, type, .block ns⟩ (l :: us ++ [r]) := by
  obtain ⟨ss, hss, hgs⟩ := hs
  refine ⟨.mk l.loc ss, .block hl hss hr,
    (Gives.list (f := statementNodes) rfl (fun _ _ => rfl) hgs).bind fun ms hms =>
      .pure (bare_untyped ?_)⟩
  rw [Shape.map, Shape.map, hms]

end SpelledStmts

end Node

end AutoAwait
