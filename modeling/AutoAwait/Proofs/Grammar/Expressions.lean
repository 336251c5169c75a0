import AutoAwait.Proofs.Grammar.First

/-!
# Reading expressions

The parsers of expressions read what the grammar spells.

* `Grammar.Complete` says of the parsers that a grammar uses inside itself that they read what is
  spelled with at most so many tokens as there is fuel;
* `Grammar.phraseStep_run` and `Grammar.operandStep_run` say so of one more unfolding.
-/

namespace AutoAwait

/-- Can these tokens come after a statement without being read as more of it? -/
structure Statement.EndsBefore (s : Statement) (rest : List Token) : Prop where
  not_else : s.isOpen → next rest ≠ some (.keyword .else)
  not_catch : next rest ≠ some (.keyword .catch)
  not_finally : next rest ≠ some (.keyword .finally)

theorem Statement.EndsBefore.of_body {s t : Statement} {rest : List Token}
    (h : s.EndsBefore rest) (ho : t.isOpen → s.isOpen) : t.EndsBefore rest :=
  ⟨fun hi => h.not_else (ho hi), h.not_catch, h.not_finally⟩

namespace Grammar

open AutoAwait.Parser

/-! ## What is used inside itself -/

/-- The parsers that a grammar uses inside itself read what is spelled with at most as many tokens
as there is fuel. -/
structure Complete (g : Grammar) : Prop where
  phrase : ∀ {p ts rest}, Spells (.phrase 1 p) ts → ts.length ≤ g.fuel → Ends 1 rest →
    g.phrase (ts ++ rest) = .ok (p, rest)
  operand : ∀ {p ts rest}, Spells (.phrase 9 p) ts → ts.length ≤ g.fuel → Ends 9 rest →
    g.operand (ts ++ rest) = .ok (p, rest)
  statement : ∀ {s ts rest}, Spells (.stmt s) ts → ts.length ≤ g.fuel → s.EndsBefore rest →
    g.statement (ts ++ rest) = .ok (s, rest)

/-! ## Lists -/

section lists
variable {α : Type} {f : α → Form} {item : Parser α} {m : Nat}

theorem ends_more {fs : List Form} {ts rest : List Token} (h : Spells (.more fs) ts)
    (hr : Ends 1 rest) : Ends 1 (ts ++ rest) := by
  cases h with
  | moreNil => exact hr
  | more hc _ _ => exact ends_cons (by rw [hc]; decide)

theorem whileNext_more
    (hi : ∀ {x ts rest}, Spells (f x) ts → ts.length ≤ m → Ends 1 rest →
      item (ts ++ rest) = .ok (x, rest))
    {xs : List α} {ts rest : List Token} (h : Spells (.more (xs.map f)) ts) (hm : ts.length ≤ m)
    {n : Nat} (hn : ts.length ≤ n) (hr : Ends 1 rest) (hc : next rest ≠ some .comma) :
    whileNext .comma (token .comma *> item) n (ts ++ rest) = .ok (xs, rest) := by
  induction xs generalizing ts n with
  | nil =>
    cases h
    cases n with
    | zero => rfl
    | succ n => simp [whileNext, bind_run, hc]
  | cons x xs ih =>
    cases h with
    | @more c _ _ ts us hk hx hs =>
      simp only [List.length_append, List.length_cons] at hm hn
      obtain ⟨n, rfl⟩ : ∃ k, n = k + 1 := ⟨n - 1, by omega⟩
      have hx := hi hx (by omega) (ends_more hs hr)
      have hxs := ih hs (by omega) (n := n) (by omega)
      simp [whileNext, bind_run, seqRight_run, hk, token_run hk, hx, hxs]

theorem itemsUntil_items (rest : List Token) {close : TokenKind} (hcomma : close ≠ .comma)
    (hi : ∀ {x ts rest}, Spells (f x) ts → ts.length ≤ m →
      (next rest = some .comma ∨ next rest = some close) → item (ts ++ rest) = .ok (x, rest))
    (hs : ∀ x k, (f x).starts k → k ≠ close) (hf : ∀ x, (f x).isSolid)
    {xs : List α} {ts : List Token} (h : Spells (.items (xs.map f)) ts) (hm : ts.length ≤ m)
    {n : Nat} (hn : ts.length ≤ n) {r : Token} (hr : r.kind = close) :
    itemsUntil close item n (ts ++ r :: rest) = .ok (xs, rest) := by
  induction xs generalizing ts n with
  | nil =>
    cases h
    cases n <;> simp [itemsUntil, bind_run, hr, token_run hr]
  | cons x xs ih =>
    obtain ⟨us, vs, rfl, hx, hvs⟩ := h.items_cons
    obtain ⟨t, us, rfl, ht⟩ := hx.starts (hf x)
    simp only [List.length_append, List.length_cons] at hm hn
    obtain ⟨n, rfl⟩ : ∃ k, n = k + 1 := ⟨n - 1, by omega⟩
    have hnext : next (t :: us ++ vs ++ r :: rest) ≠ some close := by simpa using hs x _ ht
    rw [itemsUntil, bind_run, isNext_run]
    simp only [beq_eq_false_iff_ne.2 hnext, Bool.false_eq_true, if_false]
    rcases hvs with ⟨hxs, rfl⟩ | ⟨c, ws, rfl, hc, hs⟩
    · obtain rfl := List.map_eq_nil_iff.1 hxs
      have hend : next (r :: rest) = some close := by simp [hr]
      have hx := hi hx (by simpa using hm) (.inr hend)
      simp only [List.append_nil, bind_run, hx]
      simp [bind_run, hr, hcomma, token_run hr]
    · simp only [List.length_cons] at hm hn
      have hend : next (c :: (ws ++ r :: rest)) = some .comma := by simp [hc]
      have hx := hi hx (by simp; omega) (.inl hend)
      have hxs := ih hs (by omega) (n := n) (by omega)
      simp only [List.append_assoc, List.cons_append, bind_run] at hx ⊢
      simp [hx, bind_run, hc, token_run hc, hxs]

end lists

section
variable {g : Grammar} (hg : g.Complete)
include hg

theorem phrases_run {ps : List Phrase} {ts rest : List Token}
    (h : Spells (.commas (Form.phrases ps)) ts) (hl : ts.length ≤ g.fuel) (hr : Ends 1 rest)
    (hc : next rest ≠ some .comma) : g.phrases (ts ++ rest) = .ok (ps, rest) := by
  cases ps with
  | nil => cases h
  | cons p ps =>
    cases h with
    | commas h hs =>
      simp only [List.length_append] at hl
      have hp := hg.phrase h (by omega) (ends_more hs hr)
      have hps := whileNext_more hg.phrase hs (by omega) (n := g.fuel) (by omega) hr hc
      simp [phrases, bind_run, hp, hps]

theorem phrases_until_rparen (rest : List Token) {ps : List Phrase} {ts : List Token} {r : Token}
    (h : Spells (.list (Form.phrases ps)) ts) (hl : ts.length ≤ g.fuel) (hr : r.kind = .rparen) :
    ∃ o : Option (List Phrase), notBefore .rparen g.phrases (ts ++ r :: rest) =
      .ok (o, r :: rest) ∧ o.getD [] = ps := by
  generalize hfs : Form.phrases ps = fs at h
  cases h with
  | listNil =>
    obtain rfl := List.map_eq_nil_iff.1 hfs
    exact ⟨none, notBefore_of_next (by simp [hr]), rfl⟩
  | list h =>
    subst hfs
    refine ⟨some ps, ?_, rfl⟩
    have hn : next (ts ++ r :: rest) ≠ some .rparen := by
      cases ps with
      | nil => cases h
      | cons p ps =>
        cases h with
        | commas h _ =>
          obtain ⟨t, us, rfl, ht⟩ := h.starts rfl
          intro hk
          have hk : t.kind = .rparen := by simpa using hk
          rw [hk] at ht
          cases ht
    exact notBefore_of_not_next hn
      (phrases_run hg h hl (ends_cons (by rw [hr]; decide)) (by simp [hr]))

theorem arguments_run (rest : List Token) {ps : List Phrase} {ts : List Token}
    (h : Spells (Form.args ps) ts) (hl : ts.length ≤ g.fuel) :
    g.arguments (ts ++ rest) = .ok (ps, rest) := by
  cases h with
  | parens hlp h hrp =>
    simp only [List.length_append, List.length_cons] at hl
    obtain ⟨o, ho, rfl⟩ := phrases_until_rparen hg rest h (by omega) hrp
    simp [arguments, bind_run, token_run hlp, ho, token_run hrp]

end

theorem names_run {g : Grammar} {ns : List Token} {ts rest : List Token}
    (h : Spells (.commas (ns.map .name)) ts) (hl : ts.length ≤ g.fuel) (hr : Ends 1 rest)
    (hc : next rest ≠ some .comma) :
    (do
      let p ← token .name
      return p :: (← whileNext .comma (token .comma *> token .name) g.fuel)) (ts ++ rest) =
        .ok (ns, rest) ∧ next (ts ++ rest) = some .name := by
  cases ns with
  | nil => cases h
  | cons n ns =>
    cases h with
    | commas hn h =>
      cases hn with
      | name hn =>
        simp only [List.length_append, List.length_cons] at hl
        have hns := whileNext_more (fun h _ _ => by cases h with | name ht => exact token_run ht)
          h (Nat.le_refl _) (n := g.fuel) (by omega) hr hc
        exact ⟨by simp [bind_run, token_run hn, hns], by simp [hn]⟩

theorem params_run (rest : List Token) {g : Grammar} {ns : List Token} {ts : List Token}
    (h : Spells (Form.params ns) ts) (hl : ts.length ≤ g.fuel) :
    g.params (ts ++ rest) = .ok (ns, rest) := by
  cases h with
  | @parens lp rp _ ts hlp h hrp =>
    simp only [List.length_append, List.length_cons] at hl
    have hr : Ends 1 (rp :: rest) := ends_cons (by rw [hrp]; decide)
    have ho : ∃ o : Option (List Token), Parser.optional .name (do
        let p ← token .name
        return p :: (← whileNext .comma (token .comma *> token .name) g.fuel))
          (ts ++ rp :: rest) = .ok (o, rp :: rest) ∧ o.getD [] = ns := by
      generalize hfs : ns.map Form.name = fs at h
      cases h with
      | listNil =>
        obtain rfl := List.map_eq_nil_iff.1 hfs
        exact ⟨none, optional_of_not_next (by simp [hrp]), rfl⟩
      | list h =>
        subst hfs
        obtain ⟨hn, hk⟩ := names_run h (g := g) (by omega) hr (by simp [hrp])
        exact ⟨some ns, optional_of_next hk hn, rfl⟩
    obtain ⟨o, ho, rfl⟩ := ho
    simp [params, bind_run, token_run hlp, ho, token_run hrp]

theorem path_run {ns : List Token} {ts rest : List Token} (h : Spells (.path ns) ts)
    {n : Nat} (hn : ts.length ≤ n) (hr : next rest ≠ some .dot) :
    whileNext .dot (token .dot *> token .name) n (ts ++ rest) = .ok (ns, rest) := by
  induction ns generalizing ts n with
  | nil =>
    cases h
    cases n with
    | zero => rfl
    | succ n => simp [whileNext, bind_run, hr]
  | cons t ns ih =>
    cases h with
    | path hd ht h =>
      simp only [List.length_cons] at hn
      obtain ⟨n, rfl⟩ : ∃ k, n = k + 1 := ⟨n - 1, by omega⟩
      simp [whileNext, bind_run, seqRight_run, hd, token_run hd, token_run ht,
        ih h (n := n) (by omega)]

/-! ## Blocks -/

theorem statements_step {g : Grammar} {n : Nat} {k : TokenKind} {ts : List Token}
    (hk : next ts = some k) (hs : k.startsStatement) :
    g.statements (n + 1) ts = (do
      let s ← g.statement
      return s :: (← g.statements n)) ts := by
  rw [statements, bind_run, peek_run, hk]
  cases k <;> first | rfl | cases hs

theorem suffixes_end {g : Grammar} {p : Phrase} {rest : List Token} (hr : Ends 11 rest) (n : Nat) :
    g.suffixes n p rest = .ok (p, rest) := by
  cases n with
  | zero => rfl
  | succ n =>
    rw [suffixes, bind_run, peek_run]
    have hk : ∀ k, k.reach = 11 → next rest ≠ some k := fun k h hk => by
      have := hr k hk
      omega
    cases h : next rest with
    | none => rfl
    | some k => cases k <;> first | rfl | exact absurd h (hk _ rfl)

theorem updated_run {p : Phrase} {ts rest : List Token} (h : Spells (.phrase 10 p) ts)
    (hr : Ends 10 rest) : ∃ q us vs, ts = us ++ vs ∧ Spells (.phrase 11 q) us ∧
      (vs = [] ∨ next vs = some .incDec) ∧ Ends 11 (vs ++ rest) ∧
      updated q (vs ++ rest) = .ok (p, rest) := by
  cases h with
  | update h ho =>
    refine ⟨_, _, _, rfl, h, .inr (congrArg some ho), ends_cons (by rw [ho]; decide), ?_⟩
    have hn : next (_ :: rest) = some .incDec := congrArg some ho
    simp [updated, bind_run, optional_of_next hn (token_run ho)]
  | lift _ h =>
    have hn : next rest ≠ some .incDec := fun hk => absurd (hr _ hk) (by decide)
    refine ⟨p, ts, [], by simp, h, .inl rfl, hr.mono (by decide), ?_⟩
    simp [updated, bind_run, optional_of_not_next hn]
  | binary ho _ _ => exact absurd (TokenKind.operatorLevel_bounds ho).2 (by decide)

theorem chain_end {k : TokenKind} {right : Parser Phrase} {p : Phrase} {rest : List Token}
    (hr : next rest ≠ some k) (n : Nat) : chain k right n p rest = .ok (p, rest) := by
  cases n with
  | zero => rfl
  | succ n => simp [chain, bind_run, hr]

/-- Are there no tokens, or is the first one a binary operator? -/
def StartsOperator (ts : List Token) : Prop :=
  ts = [] ∨ ∃ k, next ts = some k ∧ k.operatorLevel?.isSome

theorem StartsOperator.append {vs : List Token} (h : StartsOperator vs) {op : Token} {l : Nat}
    (ho : op.kind.operatorLevel? = some l) (rs : List Token) : StartsOperator (vs ++ op :: rs) := by
  rcases h with rfl | ⟨k, hk, hl⟩
  · exact .inr ⟨_, rfl, by rw [ho]; rfl⟩
  · exact .inr ⟨k, by rw [next_append (by rintro rfl; cases hk), hk], hl⟩

theorem StartsOperator.reach_ne_one {vs : List Token} (h : StartsOperator vs) {rest : List Token}
    (hr : ∀ k, next rest = some k → k.reach ≠ 1) :
    ∀ k, next (vs ++ rest) = some k → k.reach ≠ 1 := by
  rcases h with rfl | ⟨k, hk, ho⟩
  · exact hr
  · rw [next_append (by rintro rfl; cases hk), hk]
    rintro k ⟨⟩
    cases k <;> first | cases ho; done | decide

theorem StartsOperator.ends {vs : List Token} (h : StartsOperator vs) {l : Nat} (hl : l ≤ 9)
    {rest : List Token} (hr : Ends l rest) : Ends 9 (vs ++ rest) := by
  rcases h with rfl | ⟨k, hk, ho⟩
  · exact hr.mono hl
  · intro j hj
    rw [next_append (by rintro rfl; cases hk), hk] at hj
    cases hj
    obtain ⟨m, hm⟩ := Option.isSome_iff_exists.1 ho
    rw [TokenKind.reach_of_operatorLevel hm]
    exact Nat.lt_succ_of_le (TokenKind.operatorLevel_bounds hm).2

section
variable {g : Grammar} (hg : g.Complete)
include hg

theorem statements_run {ss : List Statement} {ts rest : List Token} (h : Spells (.stmts ss) ts)
    (hl : ts.length ≤ g.fuel) {n : Nat} (hn : ts.length ≤ n)
    (hr : next rest = none ∨ next rest = some .rbrace) :
    g.statements n (ts ++ rest) = .ok (ss, rest) := by
  induction n generalizing ss ts with
  | zero =>
    obtain rfl := List.length_eq_zero_iff.1 (Nat.le_zero.1 hn)
    generalize hts : ([] : List Token) = ts at h
    cases h with
    | stmtsNil => rfl
    | stray => cases hts
    | stmts h _ =>
      obtain ⟨t, us, rfl, -⟩ := h.starts rfl
      cases hts
  | succ n ih =>
    cases h with
    | stmtsNil =>
      rcases hr with hr | hr <;> simp [statements, bind_run, hr]
    | stray ht h =>
      simp only [List.length_cons] at hl hn
      simp [statements, bind_run, ht, token_run ht, ih h (by omega) (by omega)]
    | @stmts _ _ us vs h hs =>
      obtain ⟨t, us, rfl, ht⟩ := h.starts rfl
      simp only [List.length_append, List.length_cons] at hl hn
      have hnext : ∀ k : TokenKind, k.startsStatement = false → k ≠ .terminator → k ≠ .rbrace →
          next (vs ++ rest) ≠ some k := by
        rintro k hk hterm hbrace hn
        rcases hs.starts_stmts with rfl | ⟨u, vs, rfl, hu | hu⟩
        · rw [List.nil_append] at hn
          rcases hr with hr | hr <;> rw [hn] at hr <;> cases hr
          exact hbrace rfl
        · obtain rfl : u.kind = k := by simpa using hn
          rw [hk] at hu
          cases hu
        · exact hterm (by rw [← hu]; exact (Option.some.inj hn).symm)
      have hst := hg.statement h (by simp; omega) ⟨fun _ => hnext _ rfl nofun nofun,
        hnext _ rfl nofun nofun, hnext _ rfl nofun nofun⟩
      have hrec := ih hs (by omega) (by omega)
      rw [statements_step rfl ht, List.append_assoc, bind_of_ok hst, bind_of_ok hrec]
      rfl

theorem block_run (rest : List Token) {b : Block} {ts : List Token} (h : Spells (.block b) ts)
    (hl : ts.length ≤ g.fuel + 1) : g.block (ts ++ rest) = .ok (b, rest) := by
  cases h with
  | @block _ r _ _ hlb h hrb =>
    simp only [List.length_append, List.length_cons] at hl
    have hr : next (r :: rest) = some .rbrace := by simp [hrb]
    have hs := statements_run hg h (by omega) (n := g.fuel) (by omega) (.inr hr)
    simp [block, bind_run, token_run hlb, hs, token_run hrb]

theorem objectEntry_run {e : ObjectEntry} {ts rest : List Token} (h : Spells (.entry e) ts)
    (hl : ts.length ≤ g.fuel) (hr : Ends 1 rest) (hc : next rest ≠ some .colon) :
    g.objectEntry (ts ++ rest) = .ok (e, rest) := by
  cases h with
  | shorthand ht => simp [objectEntry, bind_run, ht, token_run ht, hc]
  | pair ht hk h =>
    simp only [List.length_cons] at hl
    have hp := hg.phrase h (by omega) hr
    rcases ht with ht | ht
    · simp [objectEntry, bind_run, ht, token_run ht, hk, token_run hk, hp]
    · rename_i t _ _ _
      cases hkind : t.kind <;> rw [hkind] at ht <;> cases ht <;>
        simp [objectEntry, bind_run, hkind, token_run hk, hp]

/-! ## Operands -/

theorem primary_run {p : Phrase} {ts rest : List Token} (h : Spells (.phrase 12 p) ts)
    (hl : ts.length ≤ g.fuel + 1)
    (hb : p.isBareNew → next rest ≠ some .dot ∧ next rest ≠ some .lparen) :
    g.primary (ts ++ rest) = .ok (p, rest) := by
  cases h with
  | nameRef ht | number ht | string ht | this ht => simp [primary, bind_run, ht]
  | @constant t ht =>
    rcases hk : t.kind with _ | _ | _ | k | _ <;> rw [hk] at ht <;> try cases ht
    cases k <;> first | (simp [primary, bind_run, hk]; done) | cases ht
  | @group _ r _ _ hlp h hrp =>
    simp only [List.length_append, List.length_cons] at hl
    have hr : Ends 1 (r :: rest) := ends_cons (by rw [hrp]; decide)
    have hp := hg.phrase h (by omega) hr
    simp [primary, bind_run, hlp, token_run hlp, hp, token_run hrp]
  | array hlb h hrb =>
    simp only [List.length_append, List.length_cons] at hl
    have hs := itemsUntil_items rest (by decide)
      (fun h hl hr => hg.phrase h hl (ends_of_next hr (by decide) (by decide)))
      (fun _ k hs hk => by rw [hk] at hs; cases hs) (fun _ => rfl) h (by omega) (n := g.fuel)
      (by omega) hrb
    simp [primary, bind_run, hlb, token_run hlb, hs]
  | object hlb h hrb =>
    simp only [List.length_append, List.length_cons] at hl
    have hs := itemsUntil_items rest (by decide)
      (fun h hl hr => objectEntry_run hg h hl (ends_of_next hr (by decide) (by decide))
        (by rcases hr with hr | hr <;> simp [hr]))
      (fun _ k hs hk => by rw [hk] at hs; rcases hs with hs | hs <;> cases hs) (fun _ => rfl) h
      (by omega) (n := g.fuel) (by omega) hrb
    simp [primary, bind_run, hlb, token_run hlb, hs]
  | @function _ name _ _ ns ps bs hk hn hp hbs =>
    simp only [List.length_append, List.length_cons] at hl
    have hbody := block_run hg rest hbs (by omega)
    have hparams := params_run (bs ++ rest) (g := g) hp (by omega)
    have hname : Parser.optional .name (token .name) (ns ++ (ps ++ (bs ++ rest))) =
        .ok (name, ps ++ (bs ++ rest)) := by
      cases name with
      | none =>
        cases hn
        obtain ⟨t, us, rfl, ht⟩ := hp.starts rfl
        exact optional_of_not_next (by simpa using fun h => by rw [h] at ht; cases ht)
      | some n =>
        cases hn with
        | optSome hn =>
          cases hn with
          | name hn => exact optional_of_next (by simp [hn]) (token_run hn)
    simp [primary, bind_run, hk, hname, hparams, hbody]
  | @construct _ _ path args ps as hk ht hp ha =>
    simp only [List.length_append, List.length_cons] at hl
    cases args with
    | none =>
      cases ha
      have hpath := path_run hp (n := g.fuel) (by omega) (hb rfl).1
      simp [primary, bind_run, hk, token_run ht, hpath, optional_of_not_next (hb rfl).2]
    | some args =>
      cases ha with
      | optSome ha =>
        obtain ⟨l, us, rfl, hlp⟩ := ha.starts rfl
        have hlp : l.kind = .lparen := hlp
        have hdot : next (l :: us ++ rest) ≠ some .dot := by simp [hlp]
        have hpath := path_run hp (n := g.fuel) (by omega) hdot
        have hargs := arguments_run hg rest ha (by omega)
        have ho : Parser.optional .lparen g.arguments (l :: us ++ rest) = .ok (some args, rest) :=
          optional_of_next (by simp [hlp]) hargs
        simp only [List.cons_append] at hpath ho
        simp [primary, bind_run, hk, token_run ht, hpath, ho]
  | binary ho _ _ => exact absurd (TokenKind.operatorLevel_bounds ho).2 (by decide)
  | lift _ h => exact absurd h.level_le (by decide)

/-- An access or a call is an expression with accesses and calls after it, which are read one after
the other. -/
theorem suffixes_spine {p : Phrase} {ts : List Token} (h : Spells (.phrase 11 p) ts)
    (hl : ts.length ≤ g.fuel + 1) : ∃ q us vs j, ts = us ++ vs ∧ Spells (.phrase 12 q) us ∧
      j ≤ vs.length ∧
      ((vs = [] ∧ p = q) ∨ ∃ k, next vs = some k ∧ k.reach = 11 ∧
        (q.isBareNew → k = .lbracket)) ∧
      ∀ n rest, g.suffixes (n + j) q (vs ++ rest) = g.suffixes n p rest := by
  generalize hf : Form.phrase 11 p = f at h
  induction h generalizing p <;> cases hf
  case lift h _ => exact ⟨_, _, [], 0, by simp, h, by simp, .inl ⟨rfl, rfl⟩, fun _ _ => rfl⟩
  case member o d t os ho hn hd ht ih =>
    simp only [List.length_append, List.length_cons, List.length_nil] at hl
    obtain ⟨q, us, vs, j, rfl, hq, hj, hv, hs⟩ := ih (by omega) rfl
    refine ⟨q, us, vs ++ [d, t], j + 1, by simp, hq, by simp; omega, .inr ?_, fun n rest => ?_⟩
    · rcases hv with ⟨rfl, rfl⟩ | ⟨k, hk, hr, hb⟩
      · exact ⟨.dot, by simp [hd], rfl, fun hb => by rw [hn] at hb; cases hb⟩
      · exact ⟨k, by rw [next_append (by rintro rfl; cases hk), hk], hr, hb⟩
    · rw [List.append_assoc, show n + (j + 1) = (n + 1) + j by omega, hs]
      simp [suffixes, bind_run, hd, token_run hd, token_run ht]
  case index o k l r os ks ho hlb hk hrb iho _ =>
    simp only [List.length_append, List.length_cons, List.length_nil] at hl
    obtain ⟨q, us, vs, j, rfl, hq, hj, hv, hs⟩ := iho (by omega) rfl
    simp only [List.length_append] at hl
    refine ⟨q, us, vs ++ l :: ks ++ [r], j + 1, by simp, hq, by simp; omega, .inr ?_,
      fun n rest => ?_⟩
    · rcases hv with ⟨rfl, rfl⟩ | ⟨k, hk, hr, hb⟩
      · exact ⟨.lbracket, by simp [hlb], rfl, fun _ => rfl⟩
      · exact ⟨k, by rw [List.append_assoc, next_append (by rintro rfl; cases hk), hk], hr, hb⟩
    · have hend : Ends 1 (r :: rest) := ends_cons (by rw [hrb]; decide)
      have hkey := hg.phrase hk (by omega) hend
      rw [List.append_assoc, List.append_assoc, show n + (j + 1) = (n + 1) + j by omega, hs]
      simp [suffixes, bind_run, hlb, token_run hlb, hkey, token_run hrb]
  case call c as cs ps hc hn ha ihc _ =>
    simp only [List.length_append] at hl
    obtain ⟨q, us, vs, j, rfl, hq, hj, hv, hs⟩ := ihc (by omega) rfl
    obtain ⟨l, ws, rfl, hlp⟩ := ha.starts rfl
    have hlp : l.kind = .lparen := hlp
    simp only [List.length_append, List.length_cons] at hl
    refine ⟨q, us, vs ++ l :: ws, j + 1, by simp, hq, by simp; omega, .inr ?_, fun n rest => ?_⟩
    · rcases hv with ⟨rfl, rfl⟩ | ⟨k, hk, hr, hb⟩
      · exact ⟨.lparen, by simp [hlp], rfl, fun hb => by rw [hn] at hb; cases hb⟩
      · exact ⟨k, by rw [next_append (by rintro rfl; cases hk), hk], hr, hb⟩
    · obtain ⟨_, _, rfl, -⟩ := hq.starts rfl
      have hargs := arguments_run hg rest ha (by simp at hl ⊢; omega)
      rw [List.append_assoc, show n + (j + 1) = (n + 1) + j by omega, hs]
      simp only [List.cons_append] at hargs ⊢
      simp [suffixes, bind_run, hlp, hargs]
  case binary ho _ _ _ _ => exact absurd (TokenKind.operatorLevel_bounds ho).2 (by decide)

/-- An operand of the highest kind is read after its first token has been seen. -/
theorem call_member_run {p : Phrase} {ts rest : List Token} (h : Spells (.phrase 11 p) ts)
    (hl : ts.length ≤ g.fuel + 1) (hr : Ends 11 rest) :
    (do g.suffixes g.fuel (← g.primary)) (ts ++ rest) = .ok (p, rest) := by
  obtain ⟨q, us, vs, j, rfl, hq, hj, hv, hs⟩ := suffixes_spine hg h hl
  obtain ⟨t, us, rfl, -⟩ := hq.starts rfl
  simp only [List.length_append, List.length_cons] at hl
  have hb : q.isBareNew → next (vs ++ rest) ≠ some .dot ∧ next (vs ++ rest) ≠ some .lparen := by
    intro hb
    rcases hv with ⟨rfl, rfl⟩ | ⟨k, hk, -, hkb⟩
    · exact ⟨fun hk => absurd (hr _ hk) (by decide), fun hk => absurd (hr _ hk) (by decide)⟩
    · have hn : next (vs ++ rest) = some .lbracket := by
        rw [next_append (by rintro rfl; cases hk), hk, hkb hb]
      simp [hn]
  have hprim := primary_run hg hq (by simp; omega) hb
  rw [List.append_assoc, bind_of_ok hprim, show g.fuel = (g.fuel - j) + j by omega, hs]
  exact suffixes_end hr _

theorem operandStep_run {p : Phrase} {ts rest : List Token} (h : Spells (.phrase 9 p) ts)
    (hl : ts.length ≤ g.fuel + 1) (hr : Ends 9 rest) :
    g.operandStep (ts ++ rest) = .ok (p, rest) := by
  cases h with
  | unary ho h =>
    simp only [List.length_cons] at hl
    have hp := hg.operand h (by omega) hr
    simp [operandStep, unary, bind_run, ho, hp]
  | lift _ h =>
    obtain ⟨t, us', hts, ht⟩ := h.not_unary (by decide)
    obtain ⟨q, us, vs, rfl, hq, -, he, hu⟩ := updated_run h (hr.mono (by decide))
    simp only [List.length_append] at hl
    have hn : next (us ++ (vs ++ rest)) = some t.kind := by
      rw [← List.append_assoc, hts]
      rfl
    have hc := call_member_run hg hq (by omega) he
    rw [List.append_assoc, operandStep, bind_run, peek_run, hn]
    simp only [Option.any_some, ht, Bool.false_eq_true, if_false]
    rw [← bind_assoc_run, bind_of_ok hc, hu]
  | binary ho _ _ => exact absurd (TokenKind.operatorLevel_bounds ho).2 (by decide)

/-! ## The start of an expression -/

theorem phraseStep_start {p : Phrase} {ts rest : List Token} (h : Spells (.phrase 12 p) ts)
    (hl : ts.length ≤ g.fuel + 1)
    (hb : p.isBareNew → next rest ≠ some .dot ∧ next rest ≠ some .lparen)
    (ha : next rest ≠ some .arrow) :
    g.phraseStep (ts ++ rest) = (do g.assignment (← g.suffixes g.fuel p)) rest := by
  have hprim := primary_run hg h hl hb
  have hother : ∀ k, next (ts ++ rest) = some k → k ≠ .name → k ≠ .lparen →
      isUnaryOperator k = false →
        g.phraseStep (ts ++ rest) = (do g.assignment (← g.suffixes g.fuel p)) rest := by
    intro k hk hname hparen hunary
    rw [phraseStep, bind_run, peek_run, hk]
    cases k <;> first | contradiction | skip
    all_goals
      simp only [hunary, Bool.false_eq_true, if_false]
      rw [bind_of_ok hprim]
  cases h with
  | @nameRef t ht =>
    simp [phraseStep, bind_run, ht, token_run ht, ha]
  | @group l r q ts hlp h hrp =>
    simp only [List.length_append, List.length_cons] at hl
    have hlist : Spells (.list (Form.phrases [q])) ts := by
      simpa using Spells.list (.commas h .moreNil)
    obtain ⟨o, ho, hoq⟩ := phrases_until_rparen hg rest hlist (by omega) hrp
    have hn : (next rest == some .arrow) = false := beq_eq_false_iff_ne.2 ha
    simp [phraseStep, bind_run, hlp, token_run hlp, ho, token_run hrp, hoq, hn]
  | number ht | string ht | this ht | array ht | object ht | function ht | construct ht =>
    exact hother _ (congrArg some ht) (by decide) (by decide) rfl
  | @constant t ht =>
    rcases hk : t.kind with _ | _ | _ | k | _ <;> rw [hk] at ht <;> first | cases ht | skip
    cases k <;> first | cases ht; done | exact hother _ (congrArg some hk) (by decide) (by decide) rfl
  | binary ho _ _ => exact absurd (TokenKind.operatorLevel_bounds ho).2 (by decide)
  | lift _ h => exact absurd h.level_le (by decide)

theorem phraseStep_member {p : Phrase} {ts rest : List Token} (h : Spells (.phrase 11 p) ts)
    (hl : ts.length ≤ g.fuel + 1) (hr : Ends 11 rest) (ha : next rest ≠ some .arrow) :
    g.phraseStep (ts ++ rest) = g.assignment p rest := by
  obtain ⟨q, us, vs, j, rfl, hq, hj, hv, hs⟩ := suffixes_spine hg h hl
  obtain ⟨t, us, rfl, -⟩ := hq.starts rfl
  simp only [List.length_append, List.length_cons] at hl
  have hn : next (vs ++ rest) ≠ some .arrow ∧ (q.isBareNew →
      next (vs ++ rest) ≠ some .dot ∧ next (vs ++ rest) ≠ some .lparen) := by
    rcases hv with ⟨rfl, rfl⟩ | ⟨k, hk, hkr, hkb⟩
    · refine ⟨ha, fun _ => ⟨?_, ?_⟩⟩ <;> exact fun hk => absurd (hr _ hk) (by decide)
    · rw [next_append (by rintro rfl; cases hk), hk]
      refine ⟨fun h => ?_, fun hb => ?_⟩
      · cases h
        cases hkr
      · rw [hkb hb]
        decide
  rw [List.append_assoc, phraseStep_start hg hq (by simp; omega) hn.2 hn.1, bind_run,
    show g.fuel = (g.fuel - j) + j by omega, hs, suffixes_end hr]

theorem phraseStep_operand {p : Phrase} {ts rest : List Token} (h : Spells (.phrase 9 p) ts)
    (hl : ts.length ≤ g.fuel + 1) (hr : Ends 9 rest) (ha : ∀ k, next rest = some k → k.reach ≠ 1) :
    g.phraseStep (ts ++ rest) = g.conditional p rest := by
  cases h with
  | @unary op q us ho h =>
    simp only [List.length_cons] at hl
    have hp := hg.operand h (by omega) hr
    have hu : g.unary (op :: (us ++ rest)) = .ok (.unary op q, rest) := by
      simp [unary, bind_run, hp]
    have hstep : ∀ k, op.kind = k → isUnaryOperator k →
        g.phraseStep (op :: (us ++ rest)) = g.conditional (.unary op q) rest := by
      intro k hk hku
      rw [phraseStep, bind_run, peek_run, next_cons, hk]
      cases k <;> first | cases hku; done | skip
      all_goals
        simp only [hku, if_true]
        rw [bind_of_ok hu]
    exact hstep _ rfl ho
  | lift _ h =>
    obtain ⟨q, us, vs, rfl, hq, hv, he, hu⟩ := updated_run h (hr.mono (by decide))
    simp only [List.length_append] at hl
    have hn : ∀ k, next (vs ++ rest) = some k → k.reach ≠ 1 := by
      rcases hv with rfl | hv
      · exact ha
      · rw [next_append (by rintro rfl; cases hv), hv]
        rintro k ⟨⟩
        decide
    rw [List.append_assoc, phraseStep_member hg hq (by omega) he fun hk => hn _ hk rfl,
      assignment, bind_run, peek_run]
    have hcond : (do g.conditional (← updated q)) (vs ++ rest) = g.conditional p rest := by
      rw [bind_of_ok hu]
    cases hk : next (vs ++ rest) with
    | none => exact hcond
    | some k =>
      cases k <;> first | exact hcond | exact absurd rfl (hn _ hk)
  | binary ho _ _ => exact absurd (TokenKind.operatorLevel_bounds ho).2 (by decide)

/-! ## Binary operators -/

/-- The reader of the right side of an operator: an operand with tighter operators after it. -/
theorem binary_operand_run {l : Nat} (hl9 : l ≤ 9)
    (hb : ∀ {p ts}, Spells (.phrase l p) ts → ts.length ≤ g.fuel + 1 →
      ∃ q us vs, ts = us ++ vs ∧ Spells (.phrase 9 q) us ∧ StartsOperator vs ∧
        ∀ rest, Ends l rest → g.binary (operatorsFrom l) q (vs ++ rest) = .ok (p, rest))
    {p : Phrase} {ts rest : List Token} (h : Spells (.phrase l p) ts) (hl : ts.length ≤ g.fuel)
    (hr : Ends l rest) :
    (do g.binary (operatorsFrom l) (← g.operand)) (ts ++ rest) = .ok (p, rest) := by
  obtain ⟨q, us, vs, rfl, hq, hv, hrun⟩ := hb h (by omega)
  simp only [List.length_append] at hl
  have ho := hg.operand hq (by omega) (hv.ends hl9 hr)
  rw [List.append_assoc, bind_of_ok ho, hrun _ hr]

theorem chain_spine {l : Nat} (hl9 : l < 9) {k : TokenKind}
    (hk : ∀ j : TokenKind, j.operatorLevel? = some l ↔ j = k)
    (hb : ∀ {p ts}, Spells (.phrase (l + 1) p) ts → ts.length ≤ g.fuel + 1 →
      ∃ q us vs, ts = us ++ vs ∧ Spells (.phrase 9 q) us ∧ StartsOperator vs ∧
        ∀ rest, Ends (l + 1) rest →
          g.binary (operatorsFrom (l + 1)) q (vs ++ rest) = .ok (p, rest))
    {p : Phrase} {ts : List Token} (h : Spells (.phrase l p) ts) (hl3 : 3 ≤ l)
    (hl : ts.length ≤ g.fuel + 1) :
    ∃ q us vs j, ts = us ++ vs ∧ Spells (.phrase 9 q) us ∧ j ≤ vs.length ∧ StartsOperator vs ∧
      ∀ n rest, Ends (l + 1) rest →
        (do
          let left ← g.binary (operatorsFrom (l + 1)) q
          chain k (do g.binary (operatorsFrom (l + 1)) (← g.operand)) (n + j) left) (vs ++ rest) =
        chain k (do g.binary (operatorsFrom (l + 1)) (← g.operand)) n p rest := by
  generalize hf : Form.phrase l p = f at h
  induction h generalizing p <;> cases hf
  case lift h _ =>
    obtain ⟨q, us, vs, rfl, hq, hv, hrun⟩ := hb h hl
    exact ⟨q, us, vs, 0, rfl, hq, Nat.zero_le _, hv, fun n rest hr => bind_of_ok (hrun rest hr)⟩
  case binary op a b ls rs ho ha hb' iha _ =>
    simp only [List.length_append, List.length_cons] at hl
    obtain ⟨q, us, vs, j, rfl, hq, hj, hv, hrun⟩ := iha (by omega) rfl
    simp only [List.length_append] at hl
    refine ⟨q, us, vs ++ op :: rs, j + 1, by simp, hq, by simp; omega, hv.append ho rs,
      fun n rest hr => ?_⟩
    have hop : Ends (l + 1) (op :: (rs ++ rest)) :=
      ends_cons (by rw [TokenKind.reach_of_operatorLevel ho]; omega)
    have hright := binary_operand_run hg (by omega) hb hb' (by omega) hr
    have hkind := (hk _).1 ho
    rw [List.append_assoc, show n + (j + 1) = (n + 1) + j by omega, List.cons_append,
      hrun _ _ hop]
    simp only [chain, bind_run, isNext_run, next_cons, hkind, beq_self_eq_true, if_true,
      token_run hkind]
    rw [← bind_run, hright]
  all_goals omega

/-- Binary operators of a level and tighter ones are read after their first operand. -/
theorem binary_spine {l : Nat} (hl3 : 3 ≤ l) (hl9 : l ≤ 9) {p : Phrase} {ts : List Token}
    (h : Spells (.phrase l p) ts) (hl : ts.length ≤ g.fuel + 1) :
    ∃ q us vs, ts = us ++ vs ∧ Spells (.phrase 9 q) us ∧ StartsOperator vs ∧
      ∀ rest, Ends l rest → g.binary (operatorsFrom l) q (vs ++ rest) = .ok (p, rest) := by
  obtain ⟨d, hd⟩ : ∃ d, l + d = 9 := ⟨9 - l, by omega⟩
  induction d generalizing l p ts with
  | zero =>
    obtain rfl : l = 9 := by omega
    exact ⟨p, ts, [], by simp, h, .inl rfl, fun rest _ => rfl⟩
  | succ d ih =>
    obtain ⟨k, hops, hk⟩ := operatorsFrom_cons hl3 (by omega)
    obtain ⟨q, us, vs, j, rfl, hq, hj, hv, hrun⟩ := chain_spine hg (by omega) hk
      (fun h hl => ih (by omega) (by omega) h hl (by omega)) h hl3 hl
    obtain ⟨t, us, rfl, -⟩ := hq.starts rfl
    simp only [List.length_append, List.length_cons] at hl
    refine ⟨q, t :: us, vs, rfl, hq, hv, fun rest hr => ?_⟩
    rw [hops, binary, show g.fuel = (g.fuel - j) + j by omega, hrun _ _ (hr.mono (by omega))]
    refine chain_end (fun hn => ?_) _
    have := hr _ hn
    rw [TokenKind.reach_of_operatorLevel ((hk k).2 rfl)] at this
    omega

theorem phraseStep_conditional {p : Phrase} {ts rest : List Token} (h : Spells (.phrase 2 p) ts)
    (hl : ts.length ≤ g.fuel + 1) (hr : Ends 1 rest) :
    g.phraseStep (ts ++ rest) = .ok (p, rest) := by
  have hn : ∀ k, next rest = some k → k.reach ≠ 1 := fun k hk => Nat.ne_of_lt (hr k hk)
  cases h with
  | @conditional t c a qm d ts cs as ht hq hc hd ha =>
    simp only [List.length_append, List.length_cons] at hl
    obtain ⟨q, us, vs, rfl, hq', hv, hrun⟩ := binary_spine hg (by decide) (by decide) ht (by omega)
    have hqm : Ends 3 (qm :: (cs ++ d :: (as ++ rest))) := ends_cons (by rw [hq]; decide)
    have hcolon : Ends 1 (d :: (as ++ rest)) := ends_cons (by rw [hd]; decide)
    have hstart := phraseStep_operand hg hq' (by simp at hl; omega) (hv.ends (by decide) hqm)
      (hv.reach_ne_one fun k hk => by
        obtain rfl : qm.kind = k := by simpa using hk
        rw [hq]
        decide)
    have hcons := hg.phrase hc (by omega) hcolon
    have halt := hg.phrase ha (by omega) hr
    simp only [List.append_assoc, List.cons_append] at hstart ⊢
    rw [hstart, conditional, ← operatorsFrom_three, bind_of_ok (hrun _ hqm)]
    simp [bind_run, hq, token_run hq, hcons, token_run hd, halt]
  | lift _ h =>
    obtain ⟨q, us, vs, rfl, hq, hv, hrun⟩ := binary_spine hg (by decide) (by decide) h hl
    simp only [List.length_append] at hl
    have hr3 : Ends 3 rest := hr.mono (by decide)
    have hquestion : next rest ≠ some .question := fun hk => absurd (hr _ hk) (by decide)
    rw [List.append_assoc, phraseStep_operand hg hq (by omega) (hv.ends (by decide) hr3)
      (hv.reach_ne_one hn), conditional, ← operatorsFrom_three, bind_of_ok (hrun _ hr3)]
    simp [bind_run, hquestion]
  | binary ho _ _ => exact absurd (TokenKind.operatorLevel_bounds ho).1 (by decide)

theorem arrow_run (start : Position) (ps : List Phrase) {a : Token} {b : ArrowBody}
    {bs rest : List Token} (ha : a.kind = .arrow) (hb : Spells (.arrowBody b) bs)
    (hl : bs.length ≤ g.fuel) (hr : Ends 1 rest) :
    g.arrow start ps (a :: (bs ++ rest)) = .ok (.arrow start ps b, rest) := by
  cases hb with
  | arrowBlock hb =>
    obtain ⟨t, us, rfl, ht⟩ := hb.starts rfl
    have hk : t.kind = .blockOpen := ht
    have hbody := block_run hg rest hb (by omega)
    rw [List.cons_append] at hbody
    simp [arrow, bind_run, token_run ha, hk, hbody]
  | arrowPhrase hp =>
    obtain ⟨t, us, rfl, ht⟩ := hp.starts rfl
    have hk : t.kind ≠ .blockOpen := by
      intro hk
      rw [hk] at ht
      cases ht
    have hbody := hg.phrase hp hl hr
    rw [List.cons_append] at hbody
    simp [arrow, bind_run, token_run ha, hk, hbody]

theorem phraseStep_run {p : Phrase} {ts rest : List Token} (h : Spells (.phrase 1 p) ts)
    (hl : ts.length ≤ g.fuel + 1) (hr : Ends 1 rest) :
    g.phraseStep (ts ++ rest) = .ok (p, rest) := by
  cases h with
  | @assignment op t v ts vs ht ho hv =>
    simp only [List.length_append, List.length_cons] at hl
    have hval := hg.phrase hv (by obtain ⟨_, _, rfl, -⟩ := ht.starts rfl; simp at hl; omega) hr
    have hop : ∀ k, op.kind = k → k.assigns →
        g.phraseStep (ts ++ op :: (vs ++ rest)) = .ok (.assignment op t v, rest) := by
      intro k hk ha
      rw [phraseStep_member hg ht (by omega)
        (ends_cons (by rw [hk]; cases k <;> first | decide | cases ha))
        (by rw [next_cons, hk]; rintro ⟨⟩; cases ha), assignment, bind_run, peek_run, next_cons, hk]
      cases k <;> first | cases ha; done | skip
      all_goals simp [bind_run, hval]
    simpa using hop _ rfl ho
  | @arrowName t _ _ _ ht ha hb =>
    simp only [List.length_cons] at hl
    have hrun := arrow_run hg t.loc [.name t] ha hb (by omega) hr
    simp [phraseStep, bind_run, ht, token_run ht, ha, hrun]
  | @arrow l r a ps b ts bs hlp h hrp ha hb =>
    simp only [List.length_append, List.length_cons] at hl
    have hrun := arrow_run hg l.loc ps ha hb (by omega) hr
    obtain ⟨o, ho, hps⟩ := phrases_until_rparen hg (a :: (bs ++ rest)) h (by omega) hrp
    rcases ps with _ | ⟨p, _ | _⟩ <;>
      simp [phraseStep, bind_run, hlp, token_run hlp, ho, token_run hrp, hps, ha, hrun]
  | lift _ h => exact phraseStep_conditional hg h hl hr
  | binary ho _ _ => exact absurd (TokenKind.operatorLevel_bounds ho).1 (by decide)

end

end Grammar

end AutoAwait
