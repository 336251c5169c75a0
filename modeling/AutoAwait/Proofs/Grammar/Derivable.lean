import AutoAwait.Proofs.Grammar.Complete
import AutoAwait.Proofs.Grammar.Rules
import AutoAwait.Proofs.Grammar.Sound

/-!
# What can be derived is spelled

The rules of the grammar derive no more than what is spelled, although they derive it in more ways:
an `else` can be taken from the nearest `if`, and a name or arguments from `new`. Where a derivation
does so, the tokens spell something else that fits in the same place.

* `Nonterminal.Spelled` says what the tokens that a name stands for spell;
* `Spells.attach` gives an `else` to the nearest `if`, `Spells.access` and `Spells.apply` give what
  follows `new` to it;
* `Derives.spelled` says that what can be derived is spelled.
-/

namespace AutoAwait

/-! ## What matches a right side -/

namespace Matches

variable {M : Nonterminal → List Token → Prop} {e : Ebnf} {es : List Ebnf} {ts : List Token}

theorem token_iff {k : TokenKind} : Matches M (.token k) ts ↔ ∃ t, ts = [t] ∧ t.kind = k := by
  constructor
  · rintro ⟨h⟩
    exact ⟨_, rfl, h⟩
  · rintro ⟨t, rfl, h⟩
    exact .token h

theorem rule_iff {n : Nonterminal} : Matches M (.rule n) ts ↔ M n ts :=
  ⟨fun | .rule h => h, .rule⟩

theorem nil_iff : Matches M (.seq []) ts ↔ ts = [] :=
  ⟨fun | .nil => rfl, fun h => h ▸ .nil⟩

theorem cons_iff : Matches M (.seq (e :: es)) ts ↔
    ∃ us vs, ts = us ++ vs ∧ Matches M e us ∧ Matches M (.seq es) vs := by
  constructor
  · rintro ⟨⟩
    exact ⟨_, _, rfl, ‹_›, ‹_›⟩
  · rintro ⟨us, vs, rfl, h, hs⟩
    exact .cons h hs

theorem single_iff : Matches M (.seq [e]) ts ↔ Matches M e ts := by
  simp [cons_iff, nil_iff]

theorem token_cons_iff {k : TokenKind} : Matches M (.seq (.token k :: es)) ts ↔
    ∃ t us, ts = t :: us ∧ t.kind = k ∧ Matches M (.seq es) us := by
  rw [cons_iff]
  constructor
  · rintro ⟨_, us, rfl, ⟨ht⟩, hs⟩
    exact ⟨_, us, rfl, ht, hs⟩
  · rintro ⟨t, us, rfl, ht, hs⟩
    exact ⟨[t], us, rfl, .token ht, hs⟩

theorem alt_nil_iff : Matches M (.alt []) ts ↔ False :=
  ⟨fun | .alt he _ => (List.not_mem_nil he).elim, False.elim⟩

theorem alt_cons_iff : Matches M (.alt (e :: es)) ts ↔ Matches M e ts ∨ Matches M (.alt es) ts := by
  constructor
  · intro h
    cases h with
    | alt he h =>
      rcases List.mem_cons.1 he with rfl | he
      · exact .inl h
      · exact .inr (.alt he h)
  · rintro (h | h)
    · exact .alt (.head _) h
    · cases h with
      | alt he h => exact .alt (.tail _ he) h

theorem opt_iff : Matches M (.opt e) ts ↔ ts = [] ∨ Matches M e ts := by
  constructor
  · intro h
    cases h with
    | none => exact .inl rfl
    | some h => exact .inr h
  · rintro (rfl | h)
    · exact .none
    · exact .some h

/-- What holds of no tokens, and with one more match in front, holds of a repetition. -/
theorem star_induction {P : (ts : List Token) → Matches M (.star e) ts → Prop} (nil : P [] .done)
    (more : ∀ {ts us} (h : Matches M e ts) (hs : Matches M (.star e) us), P us hs →
      P (ts ++ us) (.more h hs))
    (h : Matches M (.star e) ts) : P ts h := by
  suffices ∀ {s : Ebnf} (h : Matches M s ts) (he : s = .star e), P ts (he ▸ h) from this h rfl
  intro s h he
  induction h with
  | done =>
    cases he
    exact nil
  | more h hs _ ih =>
    cases he
    exact more h hs (ih hs rfl)
  | _ => cases he

end Matches

/-! ## What follows an open `if` or a bare `new` -/

namespace Spells

variable {ts us : List Token}

theorem congr {f : Form} (h : Spells f ts) (he : ts = us) : Spells f us := he ▸ h

theorem path_append {ns : List Token} {d t : Token} (h : Spells (.path ns) ts) (hd : d.kind = .dot)
    (ht : t.kind = .name) : Spells (.path (ns ++ [t])) (ts ++ [d, t]) := by
  generalize hf : Form.path ns = f at h
  induction h generalizing ns <;> cases hf
  case pathNil => exact .path hd ht .pathNil
  case path hd' ht' _ ih => exact .path hd' ht' (ih rfl)

/-- `new` without arguments is the word, a name and a path. -/
theorem of_isBareNew {l : Nat} {p : Phrase} (h : Spells (.phrase l p) ts) (hp : p.isBareNew) :
    ∃ k t path ps, ts = k :: t :: ps ∧ k.kind = .keyword .new ∧ t.kind = .name ∧
      Spells (.path path) ps := by
  generalize hf : Form.phrase l p = f at h
  induction h generalizing l p <;> cases hf
  case construct args _ _ hk ht hps has _ _ =>
    cases args with
    | some _ => cases hp
    | none =>
      cases has
      exact ⟨_, _, _, _, by simp, hk, ht, hps⟩
  case lift ih => exact ih hp rfl
  all_goals cases hp

/-- A dot and a name after what can be accessed belong to it, to `new` as one more name. -/
theorem access {o : Phrase} {d t : Token} (h : Spells (.phrase 11 o) ts) (hd : d.kind = .dot)
    (ht : t.kind = .name) : ∃ p, Spells (.phrase 11 p) (ts ++ [d, t]) := by
  by_cases ho : o.isBareNew
  · obtain ⟨k, n, path, ps, rfl, hk, hn, hps⟩ := h.of_isBareNew ho
    have hnone : Spells (.opt (Option.map Form.args none)) [] := .optNone
    have hnew := construct hk hn (hps.path_append hd ht) hnone
    rw [List.append_nil] at hnew
    exact ⟨_, lift (by decide) hnew⟩
  · exact ⟨_, member h (by simpa using ho) hd ht⟩

/-- Arguments after what can be called belong to it, also to `new`. -/
theorem apply {c : Phrase} {as : List Phrase} (h : Spells (.phrase 11 c) ts)
    (ha : Spells (Form.args as) us) : ∃ p, Spells (.phrase 11 p) (ts ++ us) := by
  by_cases hc : c.isBareNew
  · obtain ⟨k, n, path, ps, rfl, hk, hn, hps⟩ := h.of_isBareNew hc
    have hsome : Spells (.opt ((some as).map Form.args)) us := .optSome ha
    exact ⟨_, lift (by decide) (construct hk hn hps hsome)⟩
  · exact ⟨_, call h (by simpa using hc) ha⟩

theorem opt_alternate {s : Statement} (h : Spells (.opt ((some s).map .alternate)) ts) :
    ∃ k ss, ts = k :: ss ∧ k.kind = .keyword .else ∧ Spells (.stmt s) ss := by
  cases h with
  | optSome h =>
    cases h with
    | alternate hk hs => exact ⟨_, _, rfl, hk, hs⟩

/-- An `else` after an open statement belongs to the last `if` in it that has none. -/
theorem attach {a : Statement} (ha : Spells (.alternate a) us) : (s : Statement) →
    {ts : List Token} → Spells (.stmt s) ts → s.isOpen → ∃ s', Spells (.stmt s') (ts ++ us)
  | .if _ _ s none, _, h, _ => by
    cases h with
    | «if» hk ht hs _ hn =>
      cases hn
      cases hc : s.isOpen with
      | true =>
        obtain ⟨s', hs'⟩ := attach ha s hs hc
        exact ⟨_, (Spells.if hk ht hs' (a := none) nofun .optNone).congr (by simp)⟩
      | false =>
        have halt : Spells (.opt ((some a).map .alternate)) us := .optSome ha
        exact ⟨_, (Spells.if hk ht hs (fun _ => hc) halt).congr (by simp)⟩
  | .if _ _ _ (some b), _, h, ho => by
    cases h with
    | «if» hk ht hs hn hb =>
      obtain ⟨e, bs, rfl, he, hb⟩ := hb.opt_alternate
      obtain ⟨b', hb'⟩ := attach ha b hb ho
      have halt : Spells (.opt ((some b').map .alternate)) _ := .optSome (.alternate he hb')
      exact ⟨_, (Spells.if hk ht hs (fun _ => hn rfl) halt).congr (by simp)⟩
  | .while _ _ s, _, h, ho => by
    cases h with
    | «while» hk ht hs =>
      obtain ⟨s', hs'⟩ := attach ha s hs ho
      exact ⟨_, (Spells.while hk ht hs').congr (by simp)⟩
  | .for _ _ _ _ s, _, h, ho => by
    cases h with
    | «for» hk hl hi hd ht he hu hr hs =>
      obtain ⟨s', hs'⟩ := attach ha s hs ho
      exact ⟨_, (Spells.for hk hl hi hd ht he hu hr hs').congr (by simp)⟩
  | .forOf _ _ _ _ s, _, h, ho => by
    cases h with
    | forOf hk hl hd hn hof hp hr hs =>
      obtain ⟨s', hs'⟩ := attach ha s hs ho
      exact ⟨_, (Spells.forOf hk hl hd hn hof hp hr hs').congr (by simp)⟩

/-- An `if` with anything after its statement that can be an `else`. -/
theorem exists_if {k : Token} {t : Phrase} {s : Statement} {a : Option Statement}
    {ss as : List Token} (hk : k.kind = .keyword .if) (ht : Spells (.parens (.phrase 1 t)) ts)
    (hs : Spells (.stmt s) ss) (ha : Spells (.opt (a.map .alternate)) as) :
    ∃ s', Spells (.stmt s') (k :: ts ++ ss ++ as) := by
  by_cases hn : a.isSome → s.isOpen = false
  · exact ⟨_, .if hk ht hs hn ha⟩
  · obtain ⟨hsome, ho⟩ := Classical.not_imp.1 hn
    obtain ⟨b, rfl⟩ := Option.isSome_iff_exists.1 hsome
    cases ha with
    | optSome ha =>
      obtain ⟨s', hs'⟩ := attach ha s hs (by simpa using ho)
      exact ⟨_, (Spells.if hk ht hs' (a := none) nofun .optNone).congr (by simp)⟩

end Spells

/-! ## What is spelled by what a name stands for -/

/-- What the tokens that a name stands for spell. Parameters of an arrow function are known by what
they spell with an arrow and a body after them. -/
def Nonterminal.Spelled : Nonterminal → List Token → Prop
  | .program, ts => ∃ ss, Spells (.stmts ss) ts
  | .stmt, ts | .exprStmt, ts | .returnStmt, ts | .breakStmt, ts | .continueStmt, ts
  | .throwStmt, ts | .ifStmt, ts | .whileStmt, ts | .forStmt, ts | .forOfStmt, ts | .tryStmt, ts
  | .funcDecl, ts => ∃ s, Spells (.stmt s) ts
  | .block, ts => ∃ b, Spells (.block b) ts
  | .varDecl, ts => ∃ k us, ts = k :: us ∧ k.kind.declares ∧
      ∃ ds : List Declarator, Spells (.commas (ds.map .declarator)) us
  | .declKind, ts => ∃ k, ts = [k] ∧ k.kind.declares
  | .declarator, ts => ∃ d, Spells (.declarator d) ts
  | .forInit, ts => ∃ i, Spells (.init i) ts
  | .catchClause, ts => ∃ h, Spells (.handler h) ts
  | .finallyClause, ts => ∃ b, Spells (.finalizer b) ts
  | .params, ts => ∃ ns : List Token, Spells (.commas (ns.map .name)) ts
  | .forTest, ts | .forUpdate, ts | .expr, ts | .assign, ts => ∃ p, Spells (.phrase 1 p) ts
  | .arrowParams, ts => ∀ {a : Token} {b : ArrowBody} {us : List Token}, a.kind = .arrow →
      Spells (.arrowBody b) us → ∃ p, Spells (.phrase 1 p) (ts ++ a :: us)
  | .arrowBody, ts => ∃ b, Spells (.arrowBody b) ts
  | .conditional, ts => ∃ p, Spells (.phrase 2 p) ts
  | .logicOr, ts => ∃ p, Spells (.phrase 3 p) ts
  | .logicAnd, ts => ∃ p, Spells (.phrase 4 p) ts
  | .equality, ts => ∃ p, Spells (.phrase 5 p) ts
  | .comparison, ts => ∃ p, Spells (.phrase 6 p) ts
  | .additive, ts => ∃ p, Spells (.phrase 7 p) ts
  | .multiplicative, ts => ∃ p, Spells (.phrase 8 p) ts
  | .unary, ts => ∃ p, Spells (.phrase 9 p) ts
  | .update, ts => ∃ p, Spells (.phrase 10 p) ts
  | .callMember, ts => ∃ p, Spells (.phrase 11 p) ts
  | .primary, ts | .array, ts | .object, ts | .functionExpr, ts | .newExpr, ts =>
      ∃ p, Spells (.phrase 12 p) ts
  | .arguments, ts => ∃ ps, Spells (Form.args ps) ts
  | .prop, ts => ∃ e, Spells (.entry e) ts
  | .propKey, ts => ∃ t, ts = [t] ∧ (t.kind = .name ∨ t.kind.isLiteralKey)
  | .newTarget, ts => ∃ t path us, ts = t :: us ∧ t.kind = .name ∧ Spells (.path path) us

namespace Matches

variable {M : Nonterminal → List Token → Prop} {e : Ebnf} {ts : List Token} {α : Type}
  {c : α → Form}

/-- More elements of a list, if every element spells one. -/
theorem spells_more (he : ∀ us, Matches M e us → ∃ a, Spells (c a) us)
    (h : Matches M (.moreOf e) ts) : ∃ as : List α, Spells (.more (as.map c)) ts := by
  induction h using star_induction with
  | nil => exact ⟨[], .moreNil⟩
  | more h _ ih =>
    obtain ⟨t, us, rfl, ht, h⟩ := token_cons_iff.1 h
    obtain ⟨a, ha⟩ := he us (single_iff.1 h)
    obtain ⟨as, has⟩ := ih
    exact ⟨a :: as, .more ht ha has⟩

theorem spells_list (he : ∀ us, Matches M e us → ∃ a, Spells (c a) us)
    (h : Matches M (.listOf e) ts) : ∃ as : List α, Spells (.commas (as.map c)) ts := by
  obtain ⟨us, vs, rfl, hf, hs⟩ := cons_iff.1 h
  obtain ⟨a, ha⟩ := he us hf
  obtain ⟨as, has⟩ := spells_more he (single_iff.1 hs)
  exact ⟨a :: as, .commas ha has⟩

theorem spells_optList (he : ∀ us, Matches M e us → ∃ a, Spells (c a) us)
    (h : Matches M (.opt (.listOf e)) ts) : ∃ as : List α, Spells (.list (as.map c)) ts := by
  obtain rfl | h := opt_iff.1 h
  · exact ⟨[], .listNil⟩
  · obtain ⟨as, has⟩ := spells_list he h
    exact ⟨as, .list has⟩

/-- An item with more of them after it, and perhaps a comma. -/
theorem spells_items_cons (he : ∀ us, Matches M e us → ∃ a, Spells (c a) us)
    {a : α} {us vs : List Token} (ha : Spells (c a) us) (h : Matches M (.moreOf e) ts)
    (hv : Matches M (.opt (.token .comma)) vs) :
    ∃ as : List α, Spells (.items (as.map c)) (us ++ (ts ++ vs)) := by
  induction h using star_induction generalizing a us with
  | nil =>
    obtain rfl | hv := opt_iff.1 hv
    · exact ⟨[a], (Spells.itemsLast ha).congr (by simp)⟩
    · obtain ⟨t, rfl, ht⟩ := token_iff.1 hv
      exact ⟨[a], .items ha ht .itemsNil⟩
  | more h _ ih =>
    obtain ⟨t, ws, rfl, ht, h⟩ := token_cons_iff.1 h
    obtain ⟨b, hb⟩ := he ws (single_iff.1 h)
    obtain ⟨as, has⟩ := ih hb
    exact ⟨a :: as, (Spells.items ha ht has).congr (by simp)⟩

theorem spells_items (he : ∀ us, Matches M e us → ∃ a, Spells (c a) us)
    (h : Matches M (.itemsOf e) ts) : ∃ as : List α, Spells (.items (as.map c)) ts := by
  obtain rfl | h := opt_iff.1 h
  · exact ⟨[], .itemsNil⟩
  · obtain ⟨us, _, rfl, hf, h⟩ := cons_iff.1 h
    obtain ⟨vs, ws, rfl, hs, hw⟩ := cons_iff.1 h
    obtain ⟨a, ha⟩ := he us hf
    exact spells_items_cons he ha hs (single_iff.1 hw)

theorem spells_opt (he : ∀ us, Matches M e us → ∃ a, Spells (c a) us)
    (h : Matches M (.opt e) ts) : ∃ o : Option α, Spells (.opt (o.map c)) ts := by
  obtain rfl | h := opt_iff.1 h
  · exact ⟨Option.none, .optNone⟩
  · obtain ⟨a, ha⟩ := he ts h
    exact ⟨Option.some a, .optSome ha⟩

end Matches

namespace Nonterminal

open Matches

variable {ts : List Token} {es : List Ebnf}

theorem Spelled.name (h : Matches Spelled (.token .name) ts) : ∃ t, Spells (.name t) ts := by
  obtain ⟨t, rfl, ht⟩ := token_iff.1 h
  exact ⟨t, .name ht⟩

theorem Spelled.value (h : Matches Spelled (.seq [.token .assign, .rule .assign]) ts) :
    ∃ p, Spells (.value p) ts := by
  obtain ⟨e, us, rfl, he, h⟩ := token_cons_iff.1 h
  obtain ⟨p, hp⟩ := rule_iff.1 (single_iff.1 h)
  exact ⟨p, .value he hp⟩

theorem Spelled.catchName
    (h : Matches Spelled (.seq [.token .lparen, .token .name, .token .rparen]) ts) :
    ∃ t, Spells (.parens (.name t)) ts := by
  obtain ⟨l, _, rfl, hl, h⟩ := token_cons_iff.1 h
  obtain ⟨t, _, rfl, ht, h⟩ := token_cons_iff.1 h
  obtain ⟨r, rfl, hr⟩ := token_iff.1 (single_iff.1 h)
  exact ⟨t, .parens hl (.name ht) hr⟩

/-- What stands in parentheses as parameters of an arrow function. -/
theorem Spelled.arrowGroup (h : Matches Spelled (.alt [.seq [.token .lparen, .token .rparen],
      .seq [.token .lparen, .listOf (.rule .expr), .token .rparen]]) ts) :
    ∃ l r us ps, ts = l :: us ++ [r] ∧ l.kind = .lparen ∧ Spells (.list (Form.phrases ps)) us ∧
      r.kind = .rparen := by
  obtain h | h := alt_cons_iff.1 h
  · obtain ⟨l, _, rfl, hl, h⟩ := token_cons_iff.1 h
    obtain ⟨r, rfl, hr⟩ := token_iff.1 (single_iff.1 h)
    exact ⟨l, r, [], [], rfl, hl, .listNil, hr⟩
  · obtain ⟨l, _, rfl, hl, h⟩ := token_cons_iff.1 ((alt_cons_iff.1 h).resolve_right alt_nil_iff.1)
    obtain ⟨us, _, rfl, hps, h⟩ := cons_iff.1 h
    obtain ⟨ps, hps⟩ := spells_list (c := .phrase 1) (fun _ => rule_iff.1) hps
    obtain ⟨r, rfl, hr⟩ := token_iff.1 (single_iff.1 h)
    exact ⟨l, r, us, ps, rfl, hl, .list hps, hr⟩

theorem Spelled.alternate (h : Matches Spelled (.seq [.word .else, .rule .stmt]) ts) :
    ∃ s, Spells (.alternate s) ts := by
  obtain ⟨k, us, rfl, hk, h⟩ := token_cons_iff.1 h
  obtain ⟨s, hs⟩ := rule_iff.1 (single_iff.1 h)
  exact ⟨s, .alternate hk hs⟩

theorem Spelled.path (h : Matches Spelled (.star (.seq [.token .dot, .token .name])) ts) :
    ∃ path, Spells (.path path) ts := by
  induction h using star_induction with
  | nil => exact ⟨[], .pathNil⟩
  | more h _ ih =>
    obtain ⟨d, _, rfl, hd, h⟩ := token_cons_iff.1 h
    obtain ⟨t, rfl, ht⟩ := token_iff.1 (single_iff.1 h)
    obtain ⟨path, hpath⟩ := ih
    exact ⟨t :: path, .path hd ht hpath⟩

theorem Spelled.statements (h : Matches Spelled .statements ts) : ∃ ss, Spells (.stmts ss) ts := by
  induction h using star_induction with
  | nil => exact ⟨[], .stmtsNil⟩
  | more h _ ih =>
    obtain ⟨ss, hss⟩ := ih
    obtain h | h := alt_cons_iff.1 h
    · obtain ⟨s, hs⟩ := rule_iff.1 h
      exact ⟨s :: ss, .stmts hs hss⟩
    · obtain ⟨t, rfl, ht⟩ := token_iff.1 ((alt_cons_iff.1 h).resolve_right alt_nil_iff.1)
      exact ⟨ss, .stray ht hss⟩

/-- An expression in parentheses, and what follows. -/
theorem Spelled.condition
    (h : Matches Spelled (.seq (.token .lparen :: .rule .expr :: .token .rparen :: es)) ts) :
    ∃ us vs p, ts = us ++ vs ∧ Spells (.parens (.phrase 1 p)) us ∧
      Matches Spelled (.seq es) vs := by
  obtain ⟨l, _, rfl, hl, h⟩ := token_cons_iff.1 h
  obtain ⟨us, _, rfl, hp, h⟩ := cons_iff.1 h
  obtain ⟨r, vs, rfl, hr, h⟩ := token_cons_iff.1 h
  obtain ⟨p, hp⟩ := rule_iff.1 hp
  exact ⟨l :: us ++ [r], vs, p, by simp, .parens hl hp hr, h⟩

/-- The parameters of a function in parentheses, and what follows. -/
theorem Spelled.parameters
    (h : Matches Spelled
      (.seq (.token .lparen :: .opt (.rule .params) :: .token .rparen :: es)) ts) :
    ∃ us vs ns, ts = us ++ vs ∧ Spells (Form.params ns) us ∧ Matches Spelled (.seq es) vs := by
  obtain ⟨l, _, rfl, hl, h⟩ := token_cons_iff.1 h
  obtain ⟨us, _, rfl, hps, h⟩ := cons_iff.1 h
  obtain ⟨r, vs, rfl, hr, hes⟩ := token_cons_iff.1 h
  obtain rfl | hps := opt_iff.1 hps
  · exact ⟨[l, r], vs, [], rfl, .parens hl .listNil hr, hes⟩
  · obtain ⟨ns, hns⟩ := rule_iff.1 hps
    exact ⟨l :: us ++ [r], vs, ns, by simp, .parens hl (.list hns) hr, hes⟩

/-- The rule of a left-associative operator. -/
theorem Spelled.operators {same tighter : Nonterminal} {op : TokenKind} {l : Nat} (hl : 1 ≤ l)
    (ho : op.operatorLevel? = some l) (hs : ∀ us, same.Spelled us → ∃ p, Spells (.phrase l p) us)
    (ht : ∀ us, tighter.Spelled us → ∃ p, Spells (.phrase (l + 1) p) us)
    (h : Matches Spelled (.operators same tighter op) ts) : ∃ p, Spells (.phrase l p) ts := by
  obtain h | h := alt_cons_iff.1 h
  · obtain ⟨p, hp⟩ := ht ts (rule_iff.1 h)
    exact ⟨p, .lift hl hp⟩
  · obtain ⟨us, _, rfl, ha, h⟩ := cons_iff.1 ((alt_cons_iff.1 h).resolve_right alt_nil_iff.1)
    obtain ⟨o, vs, rfl, rfl, hb⟩ := token_cons_iff.1 h
    obtain ⟨a, ha⟩ := hs us (rule_iff.1 ha)
    obtain ⟨b, hb⟩ := ht vs (rule_iff.1 (single_iff.1 hb))
    exact ⟨.binary o a b, .binary ho ha hb⟩

/-- What matches a rule, where the names in it stand for what is spelled, is spelled. -/
theorem Spelled.of_body {n : Nonterminal} (h : Matches Spelled n.body ts) : n.Spelled ts := by
  cases n with
  | program => exact Spelled.statements h
  | stmt =>
    simp only [body, alt_cons_iff, alt_nil_iff, cons_iff, token_iff, rule_iff, nil_iff,
      or_false] at h
    rcases h with ⟨_, _, rfl, ⟨k, us, rfl, hk, ds, hds⟩, _, _, rfl, ⟨e, rfl, he⟩, rfl⟩ |
      h | h | h | h | h | h | h | ⟨b, hb⟩ | h | h | h | h
    · exact ⟨_, .declaration hk hds he⟩
    case inr.inr.inr.inr.inr.inr.inr.inr.inl => exact ⟨_, .blockStmt hb⟩
    all_goals exact h
  | block =>
    simp only [body, cons_iff, token_iff, nil_iff] at h
    obtain ⟨_, _, rfl, ⟨l, rfl, hl⟩, ts, _, rfl, hss, _, _, rfl, ⟨r, rfl, hr⟩, rfl⟩ := h
    obtain ⟨ss, hss⟩ := Spelled.statements hss
    exact ⟨_, .block hl hss hr⟩
  | exprStmt =>
    simp only [body, cons_iff, token_iff, rule_iff, nil_iff] at h
    obtain ⟨ts, _, rfl, ⟨p, hp⟩, _, _, rfl, ⟨e, rfl, he⟩, rfl⟩ := h
    exact ⟨_, .expression hp he⟩
  | varDecl =>
    obtain ⟨_, us, rfl, hdk, hds⟩ := cons_iff.1 h
    obtain ⟨k, rfl, hk⟩ := rule_iff.1 hdk
    obtain ⟨ds, hds⟩ := spells_list (c := .declarator) (fun _ => rule_iff.1) (single_iff.1 hds)
    exact ⟨k, us, rfl, hk, ds, hds⟩
  | declKind =>
    simp only [body, alt_cons_iff, alt_nil_iff, token_iff, or_false] at h
    rcases h with ⟨k, rfl, hk⟩ | ⟨k, rfl, hk⟩ | ⟨k, rfl, hk⟩ <;>
      exact ⟨k, rfl, by rw [hk]; rfl⟩
  | declarator =>
    obtain ⟨t, us, rfl, ht, h⟩ := token_cons_iff.1 h
    obtain ⟨p, hp⟩ := spells_opt (c := .value) (fun _ => Spelled.value) (single_iff.1 h)
    exact ⟨_, .declarator ht hp⟩
  | returnStmt =>
    simp only [body, cons_iff, token_iff, nil_iff] at h
    obtain ⟨_, _, rfl, ⟨k, rfl, hk⟩, ts, _, rfl, hp, _, _, rfl, ⟨e, rfl, he⟩, rfl⟩ := h
    obtain ⟨p, hp⟩ := spells_opt (c := .phrase 1) (fun _ => rule_iff.1) hp
    exact ⟨_, .return hk hp he⟩
  | breakStmt =>
    simp only [body, cons_iff, token_iff, nil_iff] at h
    obtain ⟨_, _, rfl, ⟨k, rfl, hk⟩, _, _, rfl, ⟨e, rfl, he⟩, rfl⟩ := h
    exact ⟨_, .break hk he⟩
  | continueStmt =>
    simp only [body, cons_iff, token_iff, nil_iff] at h
    obtain ⟨_, _, rfl, ⟨k, rfl, hk⟩, _, _, rfl, ⟨e, rfl, he⟩, rfl⟩ := h
    exact ⟨_, .continue hk he⟩
  | throwStmt =>
    simp only [body, cons_iff, token_iff, rule_iff, nil_iff] at h
    obtain ⟨_, _, rfl, ⟨k, rfl, hk⟩, ts, _, rfl, ⟨p, hp⟩, _, _, rfl, ⟨e, rfl, he⟩, rfl⟩ := h
    exact ⟨_, .throw hk hp he⟩
  | ifStmt =>
    obtain ⟨k, _, rfl, hk, h⟩ := token_cons_iff.1 h
    obtain ⟨ts, _, p, rfl, hp, h⟩ := Spelled.condition h
    obtain ⟨ss, as, rfl, hs, ha⟩ := cons_iff.1 h
    obtain ⟨s, hs⟩ := rule_iff.1 hs
    obtain ⟨a, ha⟩ := spells_opt (c := .alternate) (fun _ => Spelled.alternate) (single_iff.1 ha)
    exact (Spells.exists_if hk hp hs ha).imp fun _ h => h.congr (by simp)
  | whileStmt =>
    obtain ⟨k, _, rfl, hk, h⟩ := token_cons_iff.1 h
    obtain ⟨ts, us, p, rfl, hp, hs⟩ := Spelled.condition h
    obtain ⟨s, hs⟩ := rule_iff.1 (single_iff.1 hs)
    exact ⟨_, .while hk hp hs⟩
  | forStmt =>
    simp only [body, cons_iff, token_iff, rule_iff, nil_iff] at h
    obtain ⟨_, _, rfl, ⟨k, rfl, hk⟩, _, _, rfl, ⟨l, rfl, hl⟩, is, _, rfl, hi, _, _, rfl,
      ⟨d, rfl, hd⟩, ts, _, rfl, ht, _, _, rfl, ⟨e, rfl, he⟩, us, _, rfl, hu, _, _, rfl,
      ⟨r, rfl, hr⟩, ss, _, rfl, ⟨s, hs⟩, rfl⟩ := h
    obtain ⟨i, hi⟩ := spells_opt (c := .init) (fun _ => rule_iff.1) hi
    obtain ⟨t, ht⟩ := spells_opt (c := .phrase 1) (fun _ => rule_iff.1) ht
    obtain ⟨u, hu⟩ := spells_opt (c := .phrase 1) (fun _ => rule_iff.1) hu
    exact ⟨_, (Spells.for hk hl hi hd ht he hu hr hs).congr (by simp)⟩
  | forInit =>
    simp only [body, alt_cons_iff, alt_nil_iff, rule_iff, or_false] at h
    rcases h with ⟨k, us, rfl, hk, ds, hds⟩ | ⟨p, hp⟩
    · exact ⟨_, .initDecl hk hds⟩
    · exact ⟨_, .initPhrase hp⟩
  | forTest => exact (rule_iff (n := .expr)).1 h
  | forUpdate => exact (rule_iff (n := .expr)).1 h
  | forOfStmt =>
    simp only [body, cons_iff, token_iff, rule_iff, nil_iff] at h
    obtain ⟨_, _, rfl, ⟨k, rfl, hk⟩, _, _, rfl, ⟨l, rfl, hl⟩, _, _, rfl, ⟨d, rfl, hd⟩, _, _, rfl,
      ⟨n, rfl, hn⟩, _, _, rfl, ⟨o, rfl, ho⟩, ts, _, rfl, ⟨p, hp⟩, _, _, rfl, ⟨r, rfl, hr⟩, ss, _,
      rfl, ⟨s, hs⟩, rfl⟩ := h
    exact ⟨_, (Spells.forOf hk hl hd hn ho hp hr hs).congr (by simp)⟩
  | tryStmt =>
    simp only [body, cons_iff, token_iff, rule_iff, nil_iff] at h
    obtain ⟨_, _, rfl, ⟨k, rfl, hk⟩, bs, _, rfl, ⟨b, hb⟩, hs, _, rfl, hh, fs, _, rfl, hf, rfl⟩ := h
    obtain ⟨h, hh⟩ := spells_opt (c := .handler) (fun _ => rule_iff.1) hh
    obtain ⟨f, hf⟩ := spells_opt (c := .finalizer) (fun _ => rule_iff.1) hf
    exact ⟨_, (Spells.try hk hb hh hf).congr (by simp)⟩
  | catchClause =>
    simp only [body, cons_iff (e := .opt _), cons_iff (e := .rule _), token_cons_iff, rule_iff,
      nil_iff] at h
    obtain ⟨k, _, rfl, hk, ps, _, rfl, hp, bs, _, rfl, ⟨b, hb⟩, rfl⟩ := h
    obtain ⟨p, hp⟩ := spells_opt (c := fun t => .parens (.name t)) (fun _ => Spelled.catchName) hp
    exact ⟨_, (Spells.handler hk hp hb).congr (by simp)⟩
  | finallyClause =>
    simp only [body, cons_iff, token_iff, rule_iff, nil_iff] at h
    obtain ⟨_, _, rfl, ⟨k, rfl, hk⟩, bs, _, rfl, ⟨b, hb⟩, rfl⟩ := h
    exact ⟨_, (Spells.finalizer hk hb).congr (by simp)⟩
  | funcDecl =>
    obtain ⟨k, _, rfl, hk, h⟩ := token_cons_iff.1 h
    obtain ⟨n, _, rfl, hn, h⟩ := token_cons_iff.1 h
    obtain ⟨ps, bs, ns, rfl, hps, hb⟩ := Spelled.parameters h
    obtain ⟨b, hb⟩ := rule_iff.1 (single_iff.1 hb)
    exact ⟨_, .functionDecl hk hn hps hb⟩
  | params => exact spells_list (fun _ => Spelled.name) h
  | expr => exact (rule_iff (n := .assign)).1 h
  | assign =>
    simp only [body, alt_cons_iff, alt_nil_iff, cons_iff, token_iff, rule_iff, nil_iff,
      or_false] at h
    rcases h with ⟨p, hp⟩ |
      ⟨ts, _, rfl, ⟨t, ht⟩, _, _, rfl, ⟨op, rfl, ho⟩, us, _, rfl, ⟨v, hv⟩, rfl⟩ |
      ⟨ts, _, rfl, ⟨t, ht⟩, _, _, rfl, ⟨op, rfl, ho⟩, us, _, rfl, ⟨v, hv⟩, rfl⟩ |
      ⟨ts, _, rfl, hps, _, _, rfl, ⟨a, rfl, ha⟩, us, _, rfl, ⟨b, hb⟩, rfl⟩
    · exact ⟨_, .lift (by decide) hp⟩
    · exact ⟨_, (Spells.assignment ht (by rw [ho]; rfl) hv).congr (by simp)⟩
    · exact ⟨_, (Spells.assignment ht (by rw [ho]; rfl) hv).congr (by simp)⟩
    · exact (hps ha hb).imp fun _ h => h.congr (by simp)
  | arrowParams =>
    intro a b us ha hb
    obtain h | h := alt_cons_iff.1 h
    · obtain ⟨t, rfl, ht⟩ := token_iff.1 h
      exact ⟨_, .arrowName ht ha hb⟩
    · obtain ⟨l, r, ts, ps, rfl, hl, hps, hr⟩ := Spelled.arrowGroup h
      exact ⟨_, (Spells.arrow hl hps hr ha hb).congr (by simp)⟩
  | arrowBody =>
    simp only [body, alt_cons_iff, alt_nil_iff, rule_iff, or_false] at h
    rcases h with ⟨b, hb⟩ | ⟨p, hp⟩
    · exact ⟨_, .arrowBlock hb⟩
    · exact ⟨_, .arrowPhrase hp⟩
  | conditional =>
    simp only [body, alt_cons_iff, alt_nil_iff, cons_iff, token_iff, rule_iff, nil_iff,
      or_false] at h
    rcases h with ⟨p, hp⟩ |
      ⟨ts, _, rfl, ⟨t, ht⟩, _, _, rfl, ⟨q, rfl, hq⟩, cs, _, rfl, ⟨c, hc⟩, _, _, rfl, ⟨d, rfl, hd⟩,
        as, _, rfl, ⟨a, ha⟩, rfl⟩
    · exact ⟨_, .lift (by decide) hp⟩
    · exact ⟨_, (Spells.conditional ht hq hc hd ha).congr (by simp)⟩
  | logicOr => exact Spelled.operators (by decide) rfl (fun _ => id) (fun _ => id) h
  | logicAnd => exact Spelled.operators (by decide) rfl (fun _ => id) (fun _ => id) h
  | equality => exact Spelled.operators (by decide) rfl (fun _ => id) (fun _ => id) h
  | comparison => exact Spelled.operators (by decide) rfl (fun _ => id) (fun _ => id) h
  | additive => exact Spelled.operators (by decide) rfl (fun _ => id) (fun _ => id) h
  | multiplicative => exact Spelled.operators (by decide) rfl (fun _ => id) (fun _ => id) h
  | unary =>
    simp only [body, alt_cons_iff, alt_nil_iff, cons_iff, token_iff, rule_iff, nil_iff,
      or_false] at h
    rcases h with ⟨p, hp⟩ | ⟨_, _, rfl, ⟨op, rfl, ho⟩, ts, _, rfl, ⟨p, hp⟩, rfl⟩ |
      ⟨_, _, rfl, ⟨op, rfl, ho⟩, ts, _, rfl, ⟨p, hp⟩, rfl⟩ |
      ⟨_, _, rfl, ⟨op, rfl, ho⟩, ts, _, rfl, ⟨p, hp⟩, rfl⟩ |
      ⟨_, _, rfl, ⟨op, rfl, ho⟩, ts, _, rfl, ⟨p, hp⟩, rfl⟩
    · exact ⟨_, .lift (by decide) hp⟩
    all_goals exact ⟨_, (Spells.unary (by rw [ho]; rfl) hp).congr (by simp)⟩
  | update =>
    simp only [body, alt_cons_iff, alt_nil_iff, cons_iff, token_iff, rule_iff, nil_iff,
      or_false] at h
    rcases h with ⟨p, hp⟩ | ⟨ts, _, rfl, ⟨p, hp⟩, _, _, rfl, ⟨op, rfl, ho⟩, rfl⟩
    · exact ⟨_, .lift (by decide) hp⟩
    · exact ⟨_, .update hp ho⟩
  | callMember =>
    simp only [body, alt_cons_iff, alt_nil_iff, cons_iff, token_iff, rule_iff, nil_iff,
      or_false] at h
    rcases h with ⟨p, hp⟩ |
      ⟨os, _, rfl, ⟨o, ho⟩, _, _, rfl, ⟨d, rfl, hd⟩, _, _, rfl, ⟨t, rfl, ht⟩, rfl⟩ |
      ⟨os, _, rfl, ⟨o, ho⟩, _, _, rfl, ⟨l, rfl, hl⟩, ks, _, rfl, ⟨k, hk⟩, _, _, rfl, ⟨r, rfl, hr⟩,
        rfl⟩ |
      ⟨cs, _, rfl, ⟨c, hc⟩, as, _, rfl, ⟨ps, hps⟩, rfl⟩
    · exact ⟨_, .lift (by decide) hp⟩
    · exact Spells.access ho hd ht
    · exact ⟨_, (Spells.index ho hl hk hr).congr (by simp)⟩
    · exact (Spells.apply hc hps).imp fun _ h => h.congr (by simp)
  | arguments =>
    simp only [body, cons_iff, token_iff, nil_iff] at h
    obtain ⟨_, _, rfl, ⟨l, rfl, hl⟩, ts, _, rfl, h, _, _, rfl, ⟨r, rfl, hr⟩, rfl⟩ := h
    obtain ⟨ps, hps⟩ := spells_optList (c := .phrase 1) (fun _ => rule_iff.1) h
    exact ⟨ps, .parens hl hps hr⟩
  | primary =>
    simp only [body, alt_cons_iff, alt_nil_iff, cons_iff, token_iff, rule_iff, nil_iff,
      or_false] at h
    rcases h with ⟨t, rfl, ht⟩ | ⟨t, rfl, ht⟩ | ⟨t, rfl, ht⟩ | ⟨t, rfl, ht⟩ | ⟨t, rfl, ht⟩ |
      ⟨t, rfl, ht⟩ | ⟨t, rfl, ht⟩ |
      ⟨_, _, rfl, ⟨l, rfl, hl⟩, ts, _, rfl, ⟨p, hp⟩, _, _, rfl, ⟨r, rfl, hr⟩, rfl⟩ | h | h | h | h
    · exact ⟨_, .nameRef ht⟩
    · exact ⟨_, .number ht⟩
    · exact ⟨_, .string ht⟩
    · exact ⟨_, .constant (by rw [ht]; rfl)⟩
    · exact ⟨_, .constant (by rw [ht]; rfl)⟩
    · exact ⟨_, .constant (by rw [ht]; rfl)⟩
    · exact ⟨_, .this ht⟩
    · exact ⟨_, .group hl hp hr⟩
    all_goals exact h
  | array =>
    simp only [body, cons_iff, token_iff, nil_iff] at h
    obtain ⟨_, _, rfl, ⟨l, rfl, hl⟩, ts, _, rfl, h, _, _, rfl, ⟨r, rfl, hr⟩, rfl⟩ := h
    obtain ⟨es, hes⟩ := spells_items (c := .phrase 1) (fun _ => rule_iff.1) h
    exact ⟨_, .array hl hes hr⟩
  | object =>
    simp only [body, cons_iff, token_iff, nil_iff] at h
    obtain ⟨_, _, rfl, ⟨l, rfl, hl⟩, ts, _, rfl, h, _, _, rfl, ⟨r, rfl, hr⟩, rfl⟩ := h
    obtain ⟨es, hes⟩ := spells_items (c := .entry) (fun _ => rule_iff.1) h
    exact ⟨_, .object hl hes hr⟩
  | prop =>
    simp only [body, alt_cons_iff, alt_nil_iff, cons_iff, token_iff, rule_iff, nil_iff,
      or_false] at h
    rcases h with ⟨_, _, rfl, ⟨t, rfl, ht⟩, _, _, rfl, ⟨c, rfl, hc⟩, ts, _, rfl, ⟨p, hp⟩, rfl⟩ |
      ⟨t, rfl, ht⟩
    · exact ⟨_, (Spells.pair ht hc hp).congr (by simp)⟩
    · exact ⟨_, .shorthand ht⟩
  | propKey =>
    simp only [body, alt_cons_iff, alt_nil_iff, token_iff, or_false] at h
    rcases h with ⟨t, rfl, ht⟩ | ⟨t, rfl, ht⟩ | ⟨t, rfl, ht⟩
    · exact ⟨t, rfl, .inl ht⟩
    · exact ⟨t, rfl, .inr (by rw [ht]; rfl)⟩
    · exact ⟨t, rfl, .inr (by rw [ht]; rfl)⟩
  | functionExpr =>
    obtain ⟨k, _, rfl, hk, h⟩ := token_cons_iff.1 h
    obtain ⟨ns, _, rfl, hn, h⟩ := cons_iff.1 h
    obtain ⟨ps, bs, params, rfl, hps, hb⟩ := Spelled.parameters h
    obtain ⟨b, hb⟩ := rule_iff.1 (single_iff.1 hb)
    obtain ⟨n, hn⟩ := spells_opt (c := .name) (fun _ => Spelled.name) hn
    exact ⟨_, (Spells.function hk hn hps hb).congr (by simp)⟩
  | newExpr =>
    simp only [body, cons_iff, token_iff, rule_iff, nil_iff] at h
    obtain ⟨_, _, rfl, ⟨k, rfl, hk⟩, _, _, rfl, ⟨t, path, ps, rfl, ht, hps⟩, as, _, rfl, ha,
      rfl⟩ := h
    obtain ⟨args, hargs⟩ := spells_opt (c := Form.args) (fun _ => rule_iff.1) ha
    exact ⟨_, (Spells.construct hk ht hps hargs).congr (by simp)⟩
  | newTarget =>
    obtain ⟨t, us, rfl, ht, h⟩ := token_cons_iff.1 h
    obtain ⟨path, hpath⟩ := Spelled.path (single_iff.1 h)
    exact ⟨t, path, us, rfl, ht, hpath⟩

end Nonterminal

theorem Nonterminal.spelled_of_derives {n : Nonterminal} {ts : List Token} (h : Derives n ts) :
    n.Spelled ts :=
  Derives.induction (M := Nonterminal.Spelled) (fun _ _ => Spelled.of_body) h

/-- What can be derived as a script is spelled by some statements. -/
theorem Derives.spelled {ts : List Token} (h : Derives .program ts) :
    ∃ ss, Spells (.stmts ss) ts :=
  Nonterminal.spelled_of_derives h

end AutoAwait
