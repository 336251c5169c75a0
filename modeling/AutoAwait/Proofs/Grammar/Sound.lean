import AutoAwait.Proofs.Grammar.First

/-!
# What the parser reads is spelled by the grammar

* `Parser.Reads` says of a parser that what it returns is spelled by the tokens that it has used;
* `Grammar.Sound` says so of the parsers that a grammar uses inside itself, as long as there is
  fuel; `Grammar.sound_level` proves it;
* `spells_of_parseTokens` is the main statement.
-/

namespace AutoAwait

namespace Parser

/-- What the parser reads from at most `m` tokens is spelled by the tokens that it has used. -/
def Reads {α : Type} (p : Parser α) (f : α → Form) (m : Nat) : Prop :=
  ∀ ⦃ts a rest⦄, ts.length ≤ m → p ts = .ok (a, rest) → ∃ us, ts = us ++ rest ∧ Spells (f a) us

theorem reads_name (m : Nat) : Reads (token .name) .name m := by
  intro ts t rest _ h
  obtain ⟨rfl, ht⟩ := token_ok.1 h
  exact ⟨[t], rfl, .name ht⟩

/-! ## One part after another -/

section steps
variable {α β : Type} {p : Parser α} {f : α → Form} {k : TokenKind} {m : Nat} {ts rest : List Token}
  {b : β}

theorem Reads.bind_ok (hp : Reads p f m) {q : α → Parser β} (hm : ts.length ≤ m)
    (h : (p >>= q) ts = .ok (b, rest)) : ∃ a us mid, ts = us ++ mid ∧ Spells (f a) us ∧
      mid.length ≤ m ∧ q a mid = .ok (b, rest) := by
  obtain ⟨a, mid, h₁, h₂⟩ := Parser.bind_ok.1 h
  obtain ⟨us, rfl, ha⟩ := hp hm h₁
  rw [List.length_append] at hm
  exact ⟨a, us, mid, rfl, ha, by omega, h₂⟩

theorem Reads.bind_pure_ok (hp : Reads p f m) {c : α → β} (hm : ts.length ≤ m)
    (h : (p >>= fun a => pure (c a)) ts = .ok (b, rest)) :
    ∃ a us, ts = us ++ rest ∧ Spells (f a) us ∧ c a = b := by
  obtain ⟨a, h₁, hc⟩ := Parser.bind_pure_ok.1 h
  obtain ⟨us, rfl, ha⟩ := hp hm h₁
  exact ⟨a, us, rfl, ha, hc⟩

theorem token_bind_ok {q : Token → Parser β} (hm : ts.length ≤ m)
    (h : (token k >>= q) ts = .ok (b, rest)) :
    ∃ t mid, ts = t :: mid ∧ t.kind = k ∧ mid.length < m ∧ q t mid = .ok (b, rest) := by
  obtain ⟨t, mid, h₁, h₂⟩ := Parser.bind_ok.1 h
  obtain ⟨rfl, ht⟩ := token_ok.1 h₁
  exact ⟨t, mid, rfl, ht, hm, h₂⟩

theorem token_bind_pure_ok {c : Token → β}
    (h : (token k >>= fun t => pure (c t)) ts = .ok (b, rest)) :
    ∃ t, ts = t :: rest ∧ t.kind = k ∧ c t = b := by
  obtain ⟨t, h₁, hc⟩ := Parser.bind_pure_ok.1 h
  obtain ⟨rfl, ht⟩ := token_ok.1 h₁
  exact ⟨t, rfl, ht, hc⟩

/-- A token of any kind is read only after it has been looked at. -/
theorem anyToken_bind_ok {q : Token → Parser β} (hk : next ts = some k) (hm : ts.length ≤ m)
    (h : (anyToken >>= q) ts = .ok (b, rest)) :
    ∃ t mid, ts = t :: mid ∧ t.kind = k ∧ mid.length < m ∧ q t mid = .ok (b, rest) := by
  obtain ⟨t, mid, h₁, h₂⟩ := Parser.bind_ok.1 h
  obtain rfl := anyToken_ok.1 h₁
  exact ⟨t, mid, rfl, Option.some.inj hk, hm, h₂⟩

end steps

/-! ## Lists of parts -/

section lists
variable {α : Type} {p : Parser α} {f : α → Form} {m : Nat}

theorem whileNext_reads (hp : Reads p f m) {n : Nat} {ts rest : List Token} {as : List α}
    (hm : ts.length ≤ m) (h : whileNext .comma (token .comma *> p) n ts = .ok (as, rest)) :
    ∃ us, ts = us ++ rest ∧ Spells (.more (as.map f)) us := by
  induction n generalizing ts as with
  | zero =>
    obtain ⟨rfl, rfl⟩ := pure_ok.1 h
    exact ⟨[], rfl, .moreNil⟩
  | succ n ih =>
    rw [whileNext, isNext_bind] at h
    split at h
    · obtain ⟨a, mid, h₁, h₂⟩ := bind_ok.1 h
      obtain ⟨bs, h₃, rfl⟩ := bind_pure_ok.1 h₂
      obtain ⟨c, us, rfl, hc, hlt, h₄⟩ := token_bind_ok hm (seqRight_run.symm.trans h₁)
      obtain ⟨us, rfl, ha⟩ := hp (Nat.le_of_lt hlt) h₄
      rw [List.length_append] at hlt
      obtain ⟨vs, rfl, hb⟩ := ih (by omega) h₃
      exact ⟨c :: us ++ vs, by simp, .more hc ha hb⟩
    · obtain ⟨rfl, rfl⟩ := pure_ok.1 h
      exact ⟨[], rfl, .moreNil⟩

/-- A list without an end of its own: a first item and others after commas. -/
theorem commas_reads {q : Parser α} (hq : Reads q f m) (hp : Reads p f m) (n : Nat) :
    Reads (do
      let a ← q
      return a :: (← whileNext .comma (token .comma *> p) n)) (fun as => .commas (as.map f)) m := by
  intro ts as rest hm h
  obtain ⟨a, us, mid, rfl, ha, hm, h₁⟩ := hq.bind_ok hm h
  obtain ⟨bs, h₂, rfl⟩ := bind_pure_ok.1 h₁
  obtain ⟨vs, rfl, hb⟩ := whileNext_reads hp hm h₂
  exact ⟨us ++ vs, by simp, .commas ha hb⟩

theorem itemsUntil_reads (hp : Reads p f m) {close : TokenKind} {n : Nat} {ts rest : List Token}
    {as : List α} (hm : ts.length ≤ m) (h : Grammar.itemsUntil close p n ts = .ok (as, rest)) :
    ∃ us r, ts = us ++ r :: rest ∧ Spells (.items (as.map f)) us ∧ r.kind = close := by
  induction n generalizing ts as with
  | zero =>
    obtain ⟨r, rfl, hr, rfl⟩ := token_bind_pure_ok h
    exact ⟨[], r, rfl, .itemsNil, hr⟩
  | succ n ih =>
    rw [Grammar.itemsUntil, isNext_bind] at h
    split at h
    · obtain ⟨r, rfl, hr, rfl⟩ := token_bind_pure_ok h
      exact ⟨[], r, rfl, .itemsNil, hr⟩
    · obtain ⟨a, us, mid, rfl, ha, hm, h₁⟩ := hp.bind_ok hm h
      rw [isNext_bind] at h₁
      split at h₁
      · obtain ⟨c, mid, rfl, hc, hm, h₂⟩ := token_bind_ok hm h₁
        obtain ⟨bs, h₃, rfl⟩ := bind_pure_ok.1 h₂
        obtain ⟨vs, r, rfl, hb, hr⟩ := ih (Nat.le_of_lt hm) h₃
        exact ⟨us ++ c :: vs, r, by simp, .items ha hc hb, hr⟩
      · obtain ⟨r, rfl, hr, rfl⟩ := token_bind_pure_ok h₁
        exact ⟨us, r, rfl, .itemsLast ha, hr⟩

theorem optional_reads {k : TokenKind} (hp : Reads p f m) :
    Reads (Parser.optional k p) (fun o => .opt (o.map f)) m := by
  intro ts o rest hm h
  rcases optional_ok.1 h with ⟨a, rfl, -, h₁⟩ | ⟨rfl, -, rfl⟩
  · obtain ⟨us, rfl, h₂⟩ := hp hm h₁
    exact ⟨us, rfl, .optSome h₂⟩
  · exact ⟨[], rfl, .optNone⟩

theorem notBefore_reads {k : TokenKind} (hp : Reads p f m) :
    Reads (notBefore k p) (fun o => .opt (o.map f)) m := by
  intro ts o rest hm h
  rcases notBefore_ok.1 h with ⟨a, rfl, -, h₁⟩ | ⟨rfl, -, rfl⟩
  · obtain ⟨us, rfl, h₂⟩ := hp hm h₁
    exact ⟨us, rfl, .optSome h₂⟩
  · exact ⟨[], rfl, .optNone⟩

end lists

end Parser

namespace Grammar

open AutoAwait.Parser

/-- What the parsers that a grammar uses inside itself read from at most as many tokens as there is
fuel is spelled by the tokens that they have used. -/
structure Sound (g : Grammar) : Prop where
  phrase : Reads g.phrase (.phrase 1) g.fuel
  operand : Reads g.operand (.phrase 9) g.fuel
  statement : ∀ {ts s rest}, ts.length ≤ g.fuel → g.statement ts = .ok (s, rest) →
    ∃ us, ts = us ++ rest ∧ Spells (.stmt s) us ∧
      (s.isOpen → next rest ≠ some (.keyword .else))

theorem spells_list {α : Type} {f : α → Form} {o : Option (List α)} {us : List Token}
    (h : Spells (.opt (o.map fun as => .commas (as.map f))) us) :
    Spells (.list ((o.getD []).map f)) us := by
  cases o with
  | none =>
    cases h
    exact .listNil
  | some fs =>
    cases h with
    | optSome h => exact .list h

theorem params_reads (g : Grammar) : Reads g.params Form.params (g.fuel + 1) := by
  intro ts ps rest hm h
  have hnames := optional_reads (k := .name)
    (commas_reads (reads_name g.fuel) (reads_name g.fuel) g.fuel)
  obtain ⟨l, mid, rfl, hl, hm, h₁⟩ := token_bind_ok hm h
  obtain ⟨o, us, mid, rfl, ho, -, h₂⟩ := hnames.bind_ok (Nat.le_of_lt_succ hm) h₁
  obtain ⟨r, rfl, hr, rfl⟩ := token_bind_pure_ok h₂
  exact ⟨l :: us ++ [r], by simp, .parens hl (spells_list ho) hr⟩

/-- A dotted name is read to its end if there is enough fuel. -/
theorem path_reads {n : Nat} {ts rest : List Token} {ns : List Token} (hn : ts.length ≤ n)
    (h : whileNext .dot (token .dot *> token .name) n ts = .ok (ns, rest)) :
    ∃ us, ts = us ++ rest ∧ Spells (.path ns) us ∧ next rest ≠ some .dot := by
  induction n generalizing ts ns with
  | zero =>
    obtain ⟨rfl, rfl⟩ := Parser.pure_ok.1 h
    obtain rfl := List.length_eq_zero_iff.1 (Nat.le_zero.1 hn)
    exact ⟨[], rfl, .pathNil, nofun⟩
  | succ n ih =>
    rw [whileNext, isNext_bind] at h
    split at h
    · obtain ⟨t, mid, h₁, h₂⟩ := Parser.bind_ok.1 h
      obtain ⟨bs, h₃, rfl⟩ := Parser.bind_pure_ok.1 h₂
      obtain ⟨d, us, rfl, hd, hlt, h₄⟩ := token_bind_ok hn (seqRight_run.symm.trans h₁)
      obtain ⟨rfl, ht⟩ := token_ok.1 h₄
      rw [List.length_cons] at hlt
      obtain ⟨us, rfl, hp, hr⟩ := ih (by omega) h₃
      exact ⟨d :: t :: us, rfl, .path hd ht hp, hr⟩
    · rename_i hdot
      obtain ⟨rfl, rfl⟩ := Parser.pure_ok.1 h
      exact ⟨[], rfl, .pathNil, by simpa using hdot⟩

section
variable {g : Grammar} (hg : g.Sound)
include hg

/-! ## Lists -/

theorem phrases_reads : Reads g.phrases (fun ps => .commas (Form.phrases ps)) g.fuel :=
  commas_reads hg.phrase hg.phrase g.fuel

theorem arguments_reads : Reads g.arguments Form.args (g.fuel + 1) := by
  intro ts ps rest hm h
  obtain ⟨l, mid, rfl, hl, hm, h₁⟩ := token_bind_ok hm h
  obtain ⟨o, us, mid, rfl, ho, -, h₂⟩ :=
    (notBefore_reads (phrases_reads hg)).bind_ok (Nat.le_of_lt_succ hm) h₁
  obtain ⟨r, rfl, hr, rfl⟩ := token_bind_pure_ok h₂
  exact ⟨l :: us ++ [r], by simp, .parens hl (spells_list ho) hr⟩

/-! ## Blocks -/

theorem statements_reads {n : Nat} {ts rest : List Token} {ss : List Statement}
    (hm : ts.length ≤ g.fuel) (h : g.statements n ts = .ok (ss, rest)) :
    ∃ us, ts = us ++ rest ∧ Spells (.stmts ss) us := by
  induction n generalizing ts ss with
  | zero =>
    obtain ⟨rfl, rfl⟩ := Parser.pure_ok.1 h
    exact ⟨[], rfl, .stmtsNil⟩
  | succ n ih =>
    rw [statements, peek_bind] at h
    generalize next ts = k at h
    split at h
    · obtain ⟨rfl, rfl⟩ := Parser.pure_ok.1 h
      exact ⟨[], rfl, .stmtsNil⟩
    · obtain ⟨rfl, rfl⟩ := Parser.pure_ok.1 h
      exact ⟨[], rfl, .stmtsNil⟩
    · obtain ⟨t, mid, rfl, ht, hm, h₁⟩ := token_bind_ok hm h
      obtain ⟨us, rfl, hs⟩ := ih (Nat.le_of_lt hm) h₁
      exact ⟨t :: us, rfl, .stray ht hs⟩
    · obtain ⟨s, mid, h₁, h₂⟩ := Parser.bind_ok.1 h
      obtain ⟨us, rfl, hs, -⟩ := hg.statement hm h₁
      obtain ⟨ss, h₃, rfl⟩ := Parser.bind_pure_ok.1 h₂
      rw [List.length_append] at hm
      obtain ⟨vs, rfl, hss⟩ := ih (by omega) h₃
      exact ⟨us ++ vs, by simp, .stmts hs hss⟩

theorem block_reads : Reads g.block .block (g.fuel + 1) := by
  intro ts b rest hm h
  obtain ⟨l, mid, rfl, hl, hm, h₁⟩ := token_bind_ok hm h
  obtain ⟨ss, mid, h₂, h₃⟩ := Parser.bind_ok.1 h₁
  obtain ⟨us, rfl, hss⟩ := statements_reads hg (Nat.le_of_lt_succ hm) h₂
  obtain ⟨r, rfl, hr, rfl⟩ := token_bind_pure_ok h₃
  exact ⟨l :: us ++ [r], by simp, .block hl hss hr⟩

/-! ## Operands -/

theorem objectEntry_reads : Reads g.objectEntry .entry g.fuel := by
  intro ts e rest hm h
  rw [objectEntry, peek_bind] at h
  generalize hk : next ts = k at h
  split at h
  · obtain ⟨t, mid, rfl, ht, hm, h₁⟩ := token_bind_ok hm h
    rw [isNext_bind] at h₁
    split at h₁
    · obtain ⟨c, mid, rfl, hc, hm, h₂⟩ := token_bind_ok (Nat.le_of_lt hm) h₁
      obtain ⟨p, us, rfl, hp, rfl⟩ := hg.phrase.bind_pure_ok (Nat.le_of_lt hm) h₂
      exact ⟨t :: c :: us, rfl, .pair (.inl ht) hc hp⟩
    · obtain ⟨rfl, rfl⟩ := Parser.pure_ok.1 h₁
      exact ⟨[t], rfl, .shorthand ht⟩
  case h_4 => cases h
  all_goals
    obtain ⟨t, mid, rfl, ht, hm, h₁⟩ := anyToken_bind_ok hk hm h
    obtain ⟨c, mid, rfl, hc, hm, h₂⟩ := token_bind_ok (Nat.le_of_lt hm) h₁
    obtain ⟨p, us, rfl, hp, rfl⟩ := hg.phrase.bind_pure_ok (Nat.le_of_lt hm) h₂
    exact ⟨t :: c :: us, rfl, .pair (.inr (by rw [ht]; rfl)) hc hp⟩

theorem group_reads {ts rest : List Token} {p : Phrase} {l : Token} (hl : l.kind = .lparen)
    (hm : ts.length ≤ g.fuel) (h : (do
      let inner ← g.phrase
      let _ ← token .rparen
      return Phrase.group l.loc inner) ts = .ok (p, rest)) :
    ∃ us, ts = us ++ rest ∧ Spells (.phrase 12 p) (l :: us) ∧ p.isBareNew = false := by
  obtain ⟨q, us, mid, rfl, hq, -, h₁⟩ := hg.phrase.bind_ok hm h
  obtain ⟨r, rfl, hr, rfl⟩ := token_bind_pure_ok h₁
  exact ⟨us ++ [r], by simp, .group hl hq hr, rfl⟩

/-- An operand of the highest kind; `new` without arguments is read as far as it goes. -/
theorem primary_reads {ts rest : List Token} {p : Phrase} (hm : ts.length ≤ g.fuel + 1)
    (h : g.primary ts = .ok (p, rest)) : ∃ us, ts = us ++ rest ∧ Spells (.phrase 12 p) us ∧
      (p.isBareNew → next rest ≠ some .dot ∧ next rest ≠ some .lparen) := by
  rw [primary, peek_bind] at h
  generalize hk : next ts = k at h
  split at h
  case h_13 => cases h
  all_goals
    first
    | obtain ⟨t, mid, rfl, ht, hm, h₁⟩ := anyToken_bind_ok hk hm h
    | obtain ⟨t, mid, rfl, ht, hm, h₁⟩ := token_bind_ok hm h
  case h_1 | h_2 | h_3 | h_4 | h_5 | h_6 | h_7 =>
    obtain ⟨rfl, rfl⟩ := Parser.pure_ok.1 h₁
    refine ⟨[t], rfl, ?_, nofun⟩
    first
    | exact .nameRef ht | exact .number ht | exact .string ht | exact .this ht
    | exact .constant (by rw [ht]; rfl)
  case h_8 =>
    obtain ⟨us, rfl, hp, hb⟩ := group_reads hg ht (Nat.le_of_lt_succ hm) h₁
    exact ⟨t :: us, rfl, hp, fun h => by rw [hb] at h; cases h⟩
  case h_9 =>
    obtain ⟨es, h₂, rfl⟩ := Parser.bind_pure_ok.1 h₁
    obtain ⟨us, r, rfl, hs, hr⟩ := itemsUntil_reads hg.phrase (Nat.le_of_lt_succ hm) h₂
    exact ⟨t :: us ++ [r], by simp, .array ht hs hr, nofun⟩
  case h_10 =>
    obtain ⟨es, h₂, rfl⟩ := Parser.bind_pure_ok.1 h₁
    obtain ⟨us, r, rfl, hs, hr⟩ :=
      itemsUntil_reads (objectEntry_reads hg) (Nat.le_of_lt_succ hm) h₂
    exact ⟨t :: us ++ [r], by simp, .object ht hs hr, nofun⟩
  case h_11 =>
    obtain ⟨n, us, mid, rfl, hn, hm, h₂⟩ :=
      (optional_reads (reads_name g.fuel)).bind_ok (Nat.le_of_lt_succ hm) h₁
    obtain ⟨ps, vs, mid, rfl, hp, hm, h₃⟩ := (params_reads g).bind_ok (Nat.le_succ_of_le hm) h₂
    obtain ⟨b, ws, rfl, hb, rfl⟩ := (block_reads hg).bind_pure_ok hm h₃
    exact ⟨t :: us ++ vs ++ ws, by simp, .function ht hn hp hb, nofun⟩
  case h_12 =>
    obtain ⟨n, mid, rfl, hn, hm, h₂⟩ := token_bind_ok (Nat.le_of_lt_succ hm) h₁
    obtain ⟨ns, mid, h₃, h₄⟩ := Parser.bind_ok.1 h₂
    obtain ⟨o, h₅, rfl⟩ := Parser.bind_pure_ok.1 h₄
    obtain ⟨us, rfl, hp, hdot⟩ := path_reads (Nat.le_of_lt hm) h₃
    rw [List.length_append] at hm
    rcases optional_ok.1 h₅ with ⟨as, rfl, -, h₆⟩ | ⟨rfl, hlparen, rfl⟩
    · obtain ⟨vs, rfl, ha⟩ := arguments_reads hg (by omega) h₆
      exact ⟨t :: n :: us ++ vs, by simp, .construct ht hn hp (.optSome ha), nofun⟩
    · exact ⟨t :: n :: us ++ [], by simp, .construct ht hn hp .optNone, fun _ => ⟨hdot, hlparen⟩⟩

theorem suffixes_reads {n : Nat} {us ts rest : List Token} {q p : Phrase}
    (hq : Spells (.phrase 11 q) us)
    (hb : q.isBareNew → next ts ≠ some .dot ∧ next ts ≠ some .lparen) (hm : ts.length ≤ g.fuel + 1)
    (h : g.suffixes n q ts = .ok (p, rest)) :
    ∃ vs, ts = vs ++ rest ∧ Spells (.phrase 11 p) (us ++ vs) := by
  induction n generalizing us ts q with
  | zero =>
    obtain ⟨rfl, rfl⟩ := Parser.pure_ok.1 h
    exact ⟨[], rfl, by simpa using hq⟩
  | succ n ih =>
    rw [suffixes, peek_bind] at h
    generalize hk : next ts = k at h hb
    split at h
    · obtain ⟨d, mid, rfl, hd, hm, h₁⟩ := token_bind_ok hm h
      obtain ⟨t, mid, rfl, ht, hm, h₂⟩ := token_bind_ok (Nat.le_of_lt hm) h₁
      have hn : q.isBareNew = false := Bool.eq_false_iff.2 fun hq => (hb hq).1 rfl
      obtain ⟨vs, rfl, hp⟩ := ih (.member hq hn hd ht) nofun (Nat.le_of_lt hm) h₂
      exact ⟨d :: t :: vs, rfl, by simpa using hp⟩
    · obtain ⟨l, mid, rfl, hl, hm, h₁⟩ := token_bind_ok hm h
      obtain ⟨key, ks, mid, rfl, hkey, hm, h₂⟩ := hg.phrase.bind_ok (Nat.le_of_lt_succ hm) h₁
      obtain ⟨r, mid, rfl, hr, hm, h₃⟩ := token_bind_ok (Nat.le_succ_of_le hm) h₂
      obtain ⟨vs, rfl, hp⟩ := ih (.index hq hl hkey hr) nofun (Nat.le_of_lt hm) h₃
      exact ⟨l :: ks ++ r :: vs, by simp, by simpa using hp⟩
    · obtain ⟨as, ps, mid, rfl, ha, hm, h₁⟩ := (arguments_reads hg).bind_ok hm h
      have hn : q.isBareNew = false := Bool.eq_false_iff.2 fun hq => (hb hq).2 rfl
      obtain ⟨vs, rfl, hp⟩ := ih (.call hq hn ha) nofun hm h₁
      exact ⟨ps ++ vs, by simp, by simpa using hp⟩
    · obtain ⟨rfl, rfl⟩ := Parser.pure_ok.1 h
      exact ⟨[], rfl, by simpa using hq⟩

omit hg in
theorem updated_reads {us ts rest : List Token} {q p : Phrase} (hq : Spells (.phrase 11 q) us)
    (h : updated q ts = .ok (p, rest)) :
    ∃ vs, ts = vs ++ rest ∧ Spells (.phrase 10 p) (us ++ vs) := by
  obtain ⟨o, mid, h₁, h₂⟩ := Parser.bind_ok.1 h
  rcases optional_ok.1 h₁ with ⟨op, rfl, -, h₃⟩ | ⟨rfl, -, rfl⟩
  · obtain ⟨rfl, ho⟩ := token_ok.1 h₃
    obtain ⟨rfl, rfl⟩ := Parser.pure_ok.1 h₂
    exact ⟨[op], rfl, .update hq ho⟩
  · obtain ⟨rfl, rfl⟩ := Parser.pure_ok.1 h₂
    exact ⟨[], rfl, by simpa using .lift (by decide) hq⟩

theorem unary_reads {ts rest : List Token} {p : Phrase} (hm : ts.length ≤ g.fuel + 1)
    (ho : ∃ k, next ts = some k ∧ isUnaryOperator k) (h : g.unary ts = .ok (p, rest)) :
    ∃ us, ts = us ++ rest ∧ Spells (.phrase 9 p) us := by
  obtain ⟨k, hk, ho⟩ := ho
  obtain ⟨op, mid, rfl, rfl, hm, h₁⟩ := anyToken_bind_ok hk hm h
  obtain ⟨q, us, rfl, hq, rfl⟩ := hg.operand.bind_pure_ok (Nat.le_of_lt_succ hm) h₁
  exact ⟨op :: us, rfl, .unary ho hq⟩

theorem operandStep_reads : Reads g.operandStep (.phrase 9) (g.fuel + 1) := by
  intro ts p rest hm h
  rw [operandStep, peek_bind] at h
  split at h
  · rename_i ho
    obtain ⟨k, hk, ho⟩ := (Option.any_eq_true _ _).1 ho
    exact unary_reads hg hm ⟨k, hk, ho⟩ h
  · obtain ⟨q, mid, h₁, h₂⟩ := Parser.bind_ok.1 h
    obtain ⟨us, rfl, hq, hb⟩ := primary_reads hg hm h₁
    obtain ⟨q', mid₁, h₃, h₄⟩ := Parser.bind_ok.1 h₂
    simp only [List.length_append] at hm
    obtain ⟨vs, rfl, hq'⟩ := suffixes_reads hg (.lift (by decide) hq) hb (by omega) h₃
    obtain ⟨ws, rfl, hp⟩ := updated_reads hq' h₄
    exact ⟨us ++ vs ++ ws, by simp, .lift (by decide) hp⟩

/-! ## Operators -/

omit hg in
theorem chain_reads {l : Nat} {k : TokenKind} (hk : k.operatorLevel? = some l)
    {right : Parser Phrase} (hright : Reads right (.phrase (l + 1)) g.fuel) {n : Nat}
    {us ts rest : List Token} {q p : Phrase} (hq : Spells (.phrase l q) us)
    (hm : ts.length ≤ g.fuel + 1) (h : chain k right n q ts = .ok (p, rest)) :
    ∃ vs, ts = vs ++ rest ∧ Spells (.phrase l p) (us ++ vs) := by
  induction n generalizing us ts q with
  | zero =>
    obtain ⟨rfl, rfl⟩ := Parser.pure_ok.1 h
    exact ⟨[], rfl, by simpa using hq⟩
  | succ n ih =>
    rw [chain, isNext_bind] at h
    split at h
    · obtain ⟨op, mid, rfl, ho, hm, h₁⟩ := token_bind_ok hm h
      obtain ⟨b, rs, mid, rfl, hb, hm, h₂⟩ := hright.bind_ok (Nat.le_of_lt_succ hm) h₁
      have hl := Spells.binary (by rw [ho, hk]) hq hb
      obtain ⟨vs, rfl, hp⟩ := ih hl (Nat.le_succ_of_le hm) h₂
      exact ⟨op :: rs ++ vs, by simp, by simpa using hp⟩
    · obtain ⟨rfl, rfl⟩ := Parser.pure_ok.1 h
      exact ⟨[], rfl, by simpa using hq⟩

theorem binary_reads {l : Nat} (hl3 : 3 ≤ l) (hl9 : l ≤ 9) {us ts rest : List Token}
    {q p : Phrase} (hq : Spells (.phrase 9 q) us) (hm : ts.length ≤ g.fuel + 1)
    (h : g.binary (operatorsFrom l) q ts = .ok (p, rest)) :
    ∃ vs, ts = vs ++ rest ∧ Spells (.phrase l p) (us ++ vs) := by
  obtain ⟨d, hd⟩ : ∃ d, l + d = 9 := ⟨9 - l, by omega⟩
  induction d generalizing l p us ts q rest with
  | zero =>
    obtain rfl : l = 9 := by omega
    obtain ⟨rfl, rfl⟩ := Parser.pure_ok.1 h
    exact ⟨[], rfl, by simpa using hq⟩
  | succ d ih =>
    obtain ⟨k, hops, hk⟩ := operatorsFrom_cons hl3 (by omega)
    rw [hops, binary] at h
    obtain ⟨left, mid, h₁, h₂⟩ := Parser.bind_ok.1 h
    obtain ⟨vs, rfl, hleft⟩ := ih (by omega) (by omega) hq hm h₁ (by omega)
    simp only [List.length_append] at hm
    have hright : Reads (do g.binary (operatorsFrom (l + 1)) (← g.operand)) (.phrase (l + 1))
        g.fuel := by
      intro ts b rest hm h
      obtain ⟨q, us, mid, rfl, hq, hm, h₁⟩ := hg.operand.bind_ok hm h
      obtain ⟨vs, rfl, hb⟩ := ih (by omega) (by omega) hq (Nat.le_succ_of_le hm) h₁ (by omega)
      exact ⟨us ++ vs, by simp, hb⟩
    obtain ⟨ws, rfl, hp⟩ := chain_reads ((hk k).2 rfl) hright (.lift (by omega) hleft) (by omega) h₂
    exact ⟨vs ++ ws, by simp, by simpa using hp⟩

theorem conditional_reads {us ts rest : List Token} {q p : Phrase} (hq : Spells (.phrase 9 q) us)
    (hm : ts.length ≤ g.fuel + 1) (h : g.conditional q ts = .ok (p, rest)) :
    ∃ vs, ts = vs ++ rest ∧ Spells (.phrase 1 p) (us ++ vs) := by
  obtain ⟨t, mid, h₁, h₂⟩ := Parser.bind_ok.1 h
  obtain ⟨vs, rfl, ht⟩ := binary_reads hg (l := 3) (by decide) (by decide) hq hm h₁
  have hmid : mid.length ≤ g.fuel + 1 := by
    rw [List.length_append] at hm
    omega
  rw [isNext_bind] at h₂
  split at h₂
  · obtain ⟨o, mid, rfl, ho, hm, h₃⟩ := token_bind_ok hmid h₂
    obtain ⟨c, cs, mid, rfl, hc, hm, h₄⟩ := hg.phrase.bind_ok (Nat.le_of_lt_succ hm) h₃
    obtain ⟨d, mid, rfl, hd, hm, h₅⟩ := token_bind_ok hm h₄
    obtain ⟨a, as, rfl, ha, rfl⟩ := hg.phrase.bind_pure_ok (Nat.le_of_lt hm) h₅
    have hp := Spells.conditional ht ho hc hd ha
    exact ⟨vs ++ o :: cs ++ d :: as, by simp, .lift (by decide) (by simpa using hp)⟩
  · obtain ⟨rfl, rfl⟩ := Parser.pure_ok.1 h₂
    exact ⟨vs, rfl, .lift (by decide) (.lift (by decide) ht)⟩

theorem assignment_reads {us ts rest : List Token} {q p : Phrase} (hq : Spells (.phrase 11 q) us)
    (hm : ts.length ≤ g.fuel + 1) (h : g.assignment q ts = .ok (p, rest)) :
    ∃ vs, ts = vs ++ rest ∧ Spells (.phrase 1 p) (us ++ vs) := by
  rw [assignment, peek_bind] at h
  generalize hk : next ts = k at h
  split at h
  case h_3 =>
    obtain ⟨q', mid, h₁, h₂⟩ := Parser.bind_ok.1 h
    obtain ⟨vs, rfl, hq'⟩ := updated_reads hq h₁
    simp only [List.length_append] at hm
    obtain ⟨ws, rfl, hp⟩ := conditional_reads hg (.lift (by decide) hq') (by omega) h₂
    exact ⟨vs ++ ws, by simp, by simpa using hp⟩
  all_goals
    obtain ⟨op, mid, rfl, ho, hm, h₁⟩ := anyToken_bind_ok hk hm h
    obtain ⟨v, vs, rfl, hv, rfl⟩ := hg.phrase.bind_pure_ok (Nat.le_of_lt_succ hm) h₁
    exact ⟨op :: vs, rfl, .assignment hq (by rw [ho]; rfl) hv⟩

/-- The arrow of an arrow function, and its body. -/
theorem arrow_reads {start : Position} {ps : List Phrase} {ts rest : List Token} {p : Phrase}
    (hm : ts.length ≤ g.fuel + 1) (h : g.arrow start ps ts = .ok (p, rest)) :
    ∃ a bs b, ts = a :: bs ++ rest ∧ a.kind = .arrow ∧ Spells (.arrowBody b) bs ∧
      p = .arrow start ps b := by
  obtain ⟨a, mid, rfl, ha, hm, h₁⟩ := token_bind_ok hm h
  rw [isNext_bind] at h₁
  split at h₁
  · obtain ⟨b, bs, rfl, hb, rfl⟩ := (block_reads hg).bind_pure_ok (Nat.le_of_lt hm) h₁
    exact ⟨a, bs, _, rfl, ha, .arrowBlock hb, rfl⟩
  · obtain ⟨b, bs, rfl, hb, rfl⟩ := hg.phrase.bind_pure_ok (Nat.le_of_lt_succ hm) h₁
    exact ⟨a, bs, _, rfl, ha, .arrowPhrase hb, rfl⟩

theorem suffixed_reads {us ts rest : List Token} {q p : Phrase} (hq : Spells (.phrase 12 q) us)
    (hb : q.isBareNew → next ts ≠ some .dot ∧ next ts ≠ some .lparen) (hm : ts.length ≤ g.fuel + 1)
    (h : (do g.assignment (← g.suffixes g.fuel q)) ts = .ok (p, rest)) :
    ∃ vs, ts = vs ++ rest ∧ Spells (.phrase 1 p) (us ++ vs) := by
  obtain ⟨q', mid, h₁, h₂⟩ := Parser.bind_ok.1 h
  obtain ⟨vs, rfl, hq'⟩ := suffixes_reads hg (.lift (by decide) hq) hb hm h₁
  simp only [List.length_append] at hm
  obtain ⟨ws, rfl, hp⟩ := assignment_reads hg hq' (by omega) h₂
  exact ⟨vs ++ ws, by simp, by simpa using hp⟩

theorem phraseStep_reads : Reads g.phraseStep (.phrase 1) (g.fuel + 1) := by
  intro ts p rest hm h
  rw [phraseStep, peek_bind] at h
  generalize hk : next ts = k at h
  split at h
  · obtain ⟨t, mid, rfl, ht, hm, h₁⟩ := token_bind_ok hm h
    rw [isNext_bind] at h₁
    split at h₁
    · obtain ⟨a, bs, b, rfl, ha, hb, rfl⟩ := arrow_reads hg (Nat.le_of_lt hm) h₁
      exact ⟨t :: a :: bs, rfl, .arrowName ht ha hb⟩
    · obtain ⟨vs, rfl, hp⟩ := suffixed_reads hg (.nameRef ht) nofun (Nat.le_of_lt hm) h₁
      exact ⟨t :: vs, rfl, hp⟩
  · obtain ⟨l, mid, rfl, hl, hm, h₁⟩ := token_bind_ok hm h
    obtain ⟨o, us, mid, rfl, ho, hm, h₂⟩ :=
      (notBefore_reads (phrases_reads hg)).bind_ok (Nat.le_of_lt_succ hm) h₁
    obtain ⟨r, mid, rfl, hr, hm, h₃⟩ := token_bind_ok (Nat.le_succ_of_le hm) h₂
    have hps := spells_list ho
    rw [isNext_bind] at h₃
    generalize hqs : o.getD [] = qs at h₃ hps
    generalize (next mid == some .arrow) = b at h₃
    split at h₃
    · rename_i q
      have hq : Spells (.phrase 1 q) us := by
        cases hps with
        | list hs =>
          cases hs with
          | commas hq hs =>
            cases hs
            simpa using hq
      obtain ⟨vs, rfl, hp⟩ := suffixed_reads hg (.group hl hq hr) nofun (Nat.le_of_lt hm) h₃
      exact ⟨l :: us ++ r :: vs, by simp, by simpa using hp⟩
    · obtain ⟨a, bs, b, rfl, ha, hb, rfl⟩ := arrow_reads hg (Nat.le_of_lt hm) h₃
      exact ⟨l :: us ++ r :: a :: bs, by simp, .arrow hl hps hr ha hb⟩
  · rename_i k _ _
    split at h
    · rename_i ho
      obtain ⟨q, mid, h₁, h₂⟩ := Parser.bind_ok.1 h
      obtain ⟨us, rfl, hq⟩ := unary_reads hg hm ⟨k, hk, ho⟩ h₁
      simp only [List.length_append] at hm
      obtain ⟨vs, rfl, hp⟩ := conditional_reads hg hq (by omega) h₂
      exact ⟨us ++ vs, by simp, hp⟩
    · obtain ⟨q, mid, h₁, h₂⟩ := Parser.bind_ok.1 h
      obtain ⟨us, rfl, hq, hb⟩ := primary_reads hg hm h₁
      simp only [List.length_append] at hm
      obtain ⟨vs, rfl, hp⟩ := suffixed_reads hg hq hb (by omega) h₂
      exact ⟨us ++ vs, by simp, hp⟩
  · cases h

/-! ## Parts of statements -/

theorem declarator_reads :
    Reads (do g.declarator (← token .name)) .declarator g.fuel := by
  intro ts d rest hm h
  have hvalue : Reads (token .assign *> g.phrase) .value g.fuel := by
    intro ts p rest hm h
    obtain ⟨e, mid, rfl, he, hm, h₁⟩ := token_bind_ok hm (seqRight_run.symm.trans h)
    obtain ⟨us, rfl, hp⟩ := hg.phrase (Nat.le_of_lt hm) h₁
    exact ⟨e :: us, rfl, .value he hp⟩
  obtain ⟨t, mid, rfl, ht, hm, h₁⟩ := token_bind_ok hm h
  obtain ⟨o, us, rfl, ho, rfl⟩ := (optional_reads hvalue).bind_pure_ok (Nat.le_of_lt hm) h₁
  exact ⟨t :: us, rfl, .declarator ht ho⟩

theorem declarators_reads :
    Reads (do g.declarators (← token .name)) (fun ds => .commas (ds.map .declarator)) g.fuel := by
  have hcommas := commas_reads (declarator_reads hg) (declarator_reads hg) g.fuel
  intro ts ds rest hm h
  refine hcommas hm ?_
  rw [bind_assoc_run]
  exact h

theorem condition_reads : Reads g.condition (fun p => .parens (.phrase 1 p)) g.fuel := by
  intro ts p rest hm h
  obtain ⟨l, mid, rfl, hl, hm, h₁⟩ := token_bind_ok hm h
  obtain ⟨q, us, mid, rfl, hq, -, h₂⟩ := hg.phrase.bind_ok (Nat.le_of_lt hm) h₁
  obtain ⟨r, rfl, hr, rfl⟩ := token_bind_pure_ok h₂
  exact ⟨l :: us ++ [r], by simp, .parens hl hq hr⟩

/-- The header of a counting loop from its first semicolon on, and the body. -/
theorem countingLoop_reads {k : Position} {i : Option LoopInit} {ts rest : List Token}
    {s : Statement} (hm : ts.length ≤ g.fuel) (h : g.countingLoop k i ts = .ok (s, rest)) :
    ∃ d t us e u vs r b ws, ts = d :: us ++ e :: vs ++ r :: ws ++ rest ∧ d.kind = .semicolon ∧
      Spells (.opt (t.map (.phrase 1))) us ∧ e.kind = .semicolon ∧
      Spells (.opt (u.map (.phrase 1))) vs ∧ r.kind = .rparen ∧ Spells (.stmt b) ws ∧
      (b.isOpen → next rest ≠ some (.keyword .else)) ∧ s = .for k i t u b := by
  obtain ⟨d, mid, rfl, hd, hm, h₁⟩ := token_bind_ok hm h
  obtain ⟨t, us, mid, rfl, ht, hm, h₂⟩ :=
    (notBefore_reads hg.phrase).bind_ok (Nat.le_of_lt hm) h₁
  obtain ⟨e, mid, rfl, he, hm, h₃⟩ := token_bind_ok hm h₂
  obtain ⟨u, vs, mid, rfl, hu, hm, h₄⟩ :=
    (notBefore_reads hg.phrase).bind_ok (Nat.le_of_lt hm) h₃
  obtain ⟨r, mid, rfl, hr, hm, h₅⟩ := token_bind_ok hm h₄
  obtain ⟨b, h₆, rfl⟩ := Parser.bind_pure_ok.1 h₅
  obtain ⟨ws, rfl, hb, helse⟩ := hg.statement (Nat.le_of_lt hm) h₆
  exact ⟨d, t, us, e, u, vs, r, b, ws, by simp, hd, ht, he, hu, hr, hb, helse, rfl⟩

/-- The header of a loop that declares names, from their keyword on, and the body. -/
theorem declaringLoop_reads {k l : Token} {w : TokenKind} (hk : k.kind = .keyword .for)
    (hl : l.kind = .lparen) {ts rest : List Token} {s : Statement} (hw : next ts = some w)
    (hd : w.declares) (hm : ts.length ≤ g.fuel) (h : (do
      let kind ← anyToken
      let name ← token .name
      if ← isNext (.keyword .of) then
        let _ ← token (.keyword .of)
        let iterated ← g.phrase
        let _ ← token .rparen
        return Statement.forOf k.loc kind name iterated (← g.statement)
      else g.countingLoop k.loc (some (.declaration kind (← g.declarators name)))) ts =
        .ok (s, rest)) :
    ∃ us, ts = us ++ rest ∧ Spells (.stmt s) (k :: l :: us) ∧
      (s.isOpen → next rest ≠ some (.keyword .else)) := by
  obtain ⟨c, mid, rfl, rfl, hm, h₁⟩ := anyToken_bind_ok hw hm h
  obtain ⟨n, mid, h₂, h₃⟩ := Parser.bind_ok.1 h₁
  obtain ⟨rfl, hn⟩ := token_ok.1 h₂
  rw [isNext_bind] at h₃
  split at h₃
  · obtain ⟨o, mid, rfl, ho, hm, h₄⟩ := token_bind_ok (Nat.le_of_lt (Nat.lt_of_succ_lt hm)) h₃
    obtain ⟨p, us, mid, rfl, hp, hm, h₅⟩ := hg.phrase.bind_ok (Nat.le_of_lt hm) h₄
    obtain ⟨r, mid, rfl, hr, hm, h₆⟩ := token_bind_ok hm h₅
    obtain ⟨b, h₇, rfl⟩ := Parser.bind_pure_ok.1 h₆
    obtain ⟨vs, rfl, hb, helse⟩ := hg.statement (Nat.le_of_lt hm) h₇
    exact ⟨c :: n :: o :: us ++ r :: vs, by simp, .forOf hk hl hd hn ho hp hr hb, helse⟩
  · obtain ⟨ds, mid', h₄, h₅⟩ := Parser.bind_ok.1 h₃
    -- the name is the start of the declarators, but is read before it is known that there are any
    have hname : (do g.declarators (← token .name)) (n :: mid) = .ok (ds, mid') := by
      rw [bind_of_ok h₂, h₄]
    obtain ⟨us, hus, hds⟩ := declarators_reads hg (Nat.le_of_lt hm) hname
    rw [hus, List.length_append] at hm
    obtain ⟨d, t, vs, e, u, ws, r, b, xs, rfl, hd', ht, he, hu, hr, hb, helse, rfl⟩ :=
      countingLoop_reads hg (by omega) h₅
    refine ⟨c :: us ++ d :: vs ++ e :: ws ++ r :: xs, by simp [hus], ?_, helse⟩
    simpa using Spells.for hk hl (.optSome (.initDecl hd hds)) hd' ht he hu hr hb (i := some _)

/-- The header and the body of a loop, after its keyword. -/
theorem loop_reads {k : Token} (hk : k.kind = .keyword .for) {ts rest : List Token}
    {s : Statement} (hm : ts.length ≤ g.fuel) (h : g.loop k.loc ts = .ok (s, rest)) :
    ∃ us, ts = us ++ rest ∧ Spells (.stmt s) (k :: us) ∧
      (s.isOpen → next rest ≠ some (.keyword .else)) := by
  obtain ⟨l, mid, rfl, hl, hm, h₁⟩ := token_bind_ok hm h
  rw [peek_bind] at h₁
  generalize hj : next mid = j at h₁
  split at h₁
  case h_1 | h_2 | h_3 =>
    obtain ⟨us, rfl, hs⟩ := declaringLoop_reads hg hk hl hj rfl (Nat.le_of_lt hm) h₁
    exact ⟨l :: us, rfl, hs⟩
  case h_4 =>
    obtain ⟨d, t, vs, e, u, ws, r, b, xs, rfl, hd, ht, he, hu, hr, hb, helse, rfl⟩ :=
      countingLoop_reads hg (Nat.le_of_lt hm) h₁
    refine ⟨l :: d :: vs ++ e :: ws ++ r :: xs, by simp, ?_, helse⟩
    simpa using Spells.for hk hl .optNone hd ht he hu hr hb (i := none)
  case h_5 =>
    obtain ⟨p, us, mid, rfl, hp, hm, h₂⟩ := hg.phrase.bind_ok (Nat.le_of_lt hm) h₁
    obtain ⟨d, t, vs, e, u, ws, r, b, xs, rfl, hd, ht, he, hu, hr, hb, helse, rfl⟩ :=
      countingLoop_reads hg hm h₂
    refine ⟨l :: us ++ d :: vs ++ e :: ws ++ r :: xs, by simp, ?_, helse⟩
    simpa using Spells.for hk hl (.optSome (.initPhrase hp)) hd ht he hu hr hb (i := some _)

theorem handler_reads : Reads g.handler .handler g.fuel := by
  intro ts x rest hm h
  have hparam : Reads (do
      let _ ← token .lparen
      let name ← token .name
      let _ ← token .rparen
      return name) (fun t => .parens (.name t)) g.fuel := by
    intro ts t rest hm h
    obtain ⟨l, mid, rfl, hl, hm, h₁⟩ := token_bind_ok hm h
    obtain ⟨n, mid, rfl, hn, -, h₂⟩ := token_bind_ok (Nat.le_of_lt hm) h₁
    obtain ⟨r, rfl, hr, rfl⟩ := token_bind_pure_ok h₂
    exact ⟨l :: [n] ++ [r], rfl, .parens hl (.name hn) hr⟩
  obtain ⟨k, mid, rfl, hk, hm, h₁⟩ := token_bind_ok hm h
  obtain ⟨o, us, mid, rfl, ho, hm, h₂⟩ := (optional_reads hparam).bind_ok (Nat.le_of_lt hm) h₁
  obtain ⟨b, vs, rfl, hb, rfl⟩ := (block_reads hg).bind_pure_ok (Nat.le_succ_of_le hm) h₂
  exact ⟨k :: us ++ vs, by simp, .handler hk ho hb⟩

theorem declaration_reads {ts rest : List Token} {s : Statement} {w : TokenKind}
    (hm : ts.length ≤ g.fuel + 1) (hw : next ts = some w) (hd : w.declares) (h : (do
      let keyword ← anyToken
      let ds ← g.declarators (← token .name)
      let _ ← token .terminator
      return Statement.declaration keyword ds) ts = .ok (s, rest)) :
    ∃ us, ts = us ++ rest ∧ Spells (.stmt s) us ∧ s.isOpen = false := by
  obtain ⟨k, mid, rfl, rfl, hm, h₁⟩ := anyToken_bind_ok hw hm h
  rw [← bind_assoc_run] at h₁
  obtain ⟨ds, us, mid, rfl, hds, -, h₂⟩ :=
    (declarators_reads hg).bind_ok (Nat.le_of_lt_succ hm) h₁
  obtain ⟨e, rfl, he, rfl⟩ := token_bind_pure_ok h₂
  exact ⟨k :: us ++ [e], by simp, .declaration hd hds he, rfl⟩

theorem if_reads {ts rest : List Token} {s : Statement} {k : Token} (hk : k.kind = .keyword .if)
    (hm : ts.length ≤ g.fuel) (h : (do
      let test ← g.condition
      let consequent ← g.statement
      return Statement.if k.loc test consequent
        (← Parser.optional (.keyword .else) (anyToken *> g.statement))) ts = .ok (s, rest)) :
    ∃ us, ts = us ++ rest ∧ Spells (.stmt s) (k :: us) ∧
      (s.isOpen → next rest ≠ some (.keyword .else)) := by
  obtain ⟨t, us, mid, rfl, ht, hm, h₁⟩ := (condition_reads hg).bind_ok hm h
  obtain ⟨c, mid, h₂, h₃⟩ := Parser.bind_ok.1 h₁
  obtain ⟨o, h₄, rfl⟩ := Parser.bind_pure_ok.1 h₃
  obtain ⟨vs, rfl, hc, helse⟩ := hg.statement hm h₂
  rw [List.length_append] at hm
  rcases optional_ok.1 h₄ with ⟨a, rfl, hnext, h₅⟩ | ⟨rfl, hnext, rfl⟩
  · obtain ⟨e, mid, rfl, he, hlt, h₆⟩ :=
      anyToken_bind_ok (m := g.fuel) hnext (by omega) (seqRight_run.symm.trans h₅)
    obtain ⟨ws, rfl, ha, helse'⟩ := hg.statement (Nat.le_of_lt hlt) h₆
    have hn : c.isOpen = false := Bool.eq_false_iff.2 fun hc => helse hc hnext
    exact ⟨us ++ vs ++ e :: ws, by simp,
      .if hk ht hc (fun _ => hn) (.optSome (.alternate he ha)), helse'⟩
  · exact ⟨us ++ vs ++ [], by simp, .if hk ht hc (a := none) nofun .optNone, fun _ => hnext⟩

theorem try_reads {ts rest : List Token} {s : Statement} {k : Token} (hk : k.kind = .keyword .try)
    (hm : ts.length ≤ g.fuel) (h : (do
      let body ← g.block
      let handler ← Parser.optional (.keyword .catch) g.handler
      let finalizer ← Parser.optional (.keyword .finally) (anyToken *> g.block)
      return Statement.try k.loc body handler finalizer) ts = .ok (s, rest)) :
    ∃ us, ts = us ++ rest ∧ Spells (.stmt s) (k :: us) ∧ s.isOpen = false := by
  obtain ⟨b, mid, h₁, h₂⟩ := Parser.bind_ok.1 h
  obtain ⟨us, rfl, hb⟩ := block_reads hg (Nat.le_succ_of_le hm) h₁
  rw [List.length_append] at hm
  obtain ⟨o, vs, mid, rfl, ho, hm, h₃⟩ :=
    (optional_reads (handler_reads hg)).bind_ok (m := g.fuel) (by omega) h₂
  obtain ⟨f, h₄, rfl⟩ := Parser.bind_pure_ok.1 h₃
  rcases optional_ok.1 h₄ with ⟨f, rfl, hnext, h₅⟩ | ⟨rfl, -, rfl⟩
  · obtain ⟨e, mid, rfl, he, hlt, h₆⟩ :=
      anyToken_bind_ok hnext hm (seqRight_run.symm.trans h₅)
    obtain ⟨ws, rfl, hf⟩ := block_reads hg (Nat.le_of_lt (Nat.lt_succ_of_lt hlt)) h₆
    exact ⟨us ++ vs ++ e :: ws, by simp, .try hk hb ho (.optSome (.finalizer he hf)), rfl⟩
  · have hs := Spells.try hk hb ho (f := none) .optNone
    exact ⟨us ++ vs, by simp, by simpa using hs, rfl⟩

theorem statementStep_reads {ts rest : List Token} {s : Statement} (hm : ts.length ≤ g.fuel + 1)
    (h : g.statementStep ts = .ok (s, rest)) : ∃ us, ts = us ++ rest ∧ Spells (.stmt s) us ∧
      (s.isOpen → next rest ≠ some (.keyword .else)) := by
  have closed : ∀ us : List Token, (ts = us ++ rest ∧ Spells (.stmt s) us ∧ s.isOpen = false) →
      ∃ us, ts = us ++ rest ∧ Spells (.stmt s) us ∧
        (s.isOpen → next rest ≠ some (.keyword .else)) := fun us h =>
    ⟨us, h.1, h.2.1, fun ho => by rw [h.2.2] at ho; cases ho⟩
  rw [statementStep, peek_bind] at h
  generalize hj : next ts = j at h
  split at h
  case h_1 | h_2 | h_3 =>
    obtain ⟨us, hs⟩ := declaration_reads hg hm hj rfl h
    exact closed us hs
  case h_14 =>
    obtain ⟨p, us, mid, rfl, hp, -, h₁⟩ := (phraseStep_reads hg).bind_ok hm h
    obtain ⟨e, rfl, he, rfl⟩ := token_bind_pure_ok h₁
    exact closed (us ++ [e]) ⟨by simp, .expression hp he, rfl⟩
  case h_9 =>
    obtain ⟨b, us, rfl, hb, rfl⟩ := (block_reads hg).bind_pure_ok hm h
    exact closed us ⟨rfl, .blockStmt hb, rfl⟩
  all_goals
    obtain ⟨k, mid, rfl, hk, hm, h₁⟩ := anyToken_bind_ok hj hm h
    have hm := Nat.le_of_lt_succ hm
  case h_4 =>
    obtain ⟨o, us, mid, rfl, ho, -, h₂⟩ := (notBefore_reads hg.phrase).bind_ok hm h₁
    obtain ⟨e, rfl, he, rfl⟩ := token_bind_pure_ok h₂
    exact closed (k :: us ++ [e]) ⟨by simp, .return hk ho he, rfl⟩
  case h_5 =>
    obtain ⟨us, rfl, hs⟩ := if_reads hg hk hm h₁
    exact ⟨k :: us, rfl, hs⟩
  case h_6 =>
    obtain ⟨t, us, mid, rfl, ht, hm, h₂⟩ := (condition_reads hg).bind_ok hm h₁
    obtain ⟨b, h₃, rfl⟩ := Parser.bind_pure_ok.1 h₂
    obtain ⟨vs, rfl, hb, helse⟩ := hg.statement hm h₃
    exact ⟨k :: us ++ vs, by simp, .while hk ht hb, helse⟩
  case h_7 =>
    obtain ⟨us, rfl, hs⟩ := loop_reads hg hk hm h₁
    exact ⟨k :: us, rfl, hs⟩
  case h_8 =>
    obtain ⟨n, mid, rfl, hn, hm, h₂⟩ := token_bind_ok (Nat.le_succ_of_le hm) h₁
    obtain ⟨ps, us, mid, rfl, hp, hm, h₃⟩ := (params_reads g).bind_ok (Nat.le_of_lt hm) h₂
    obtain ⟨b, vs, rfl, hb, rfl⟩ := (block_reads hg).bind_pure_ok hm h₃
    exact closed (k :: n :: us ++ vs) ⟨by simp, .functionDecl hk hn hp hb, rfl⟩
  case h_10 | h_11 =>
    obtain ⟨e, rfl, he, rfl⟩ := token_bind_pure_ok h₁
    refine closed [k, e] ⟨rfl, ?_, rfl⟩
    first | exact .break hk he | exact .continue hk he
  case h_12 =>
    obtain ⟨p, us, mid, rfl, hp, -, h₂⟩ := hg.phrase.bind_ok hm h₁
    obtain ⟨e, rfl, he, rfl⟩ := token_bind_pure_ok h₂
    exact closed (k :: us ++ [e]) ⟨by simp, .throw hk hp he, rfl⟩
  case h_13 =>
    obtain ⟨us, rfl, hs, ho⟩ := try_reads hg hk hm h₁
    exact closed (k :: us) ⟨rfl, hs, ho⟩

end

/-- The grammar unfolded `n` times reads only what is spelled, from inputs of at most `n` tokens. -/
theorem sound_level (n : Nat) : (level n).Sound := by
  induction n with
  | zero => exact ⟨nofun, nofun, nofun⟩
  | succ n ih =>
    have hf : (level n).fuel = n := by cases n <;> rfl
    refine ⟨fun ts p rest hm h => ?_, fun ts p rest hm h => ?_, fun {ts s rest} hm h => ?_⟩
    · exact phraseStep_reads ih (by rw [hf]; exact hm) h
    · exact operandStep_reads ih (by rw [hf]; exact hm) h
    · exact statementStep_reads ih (by rw [hf]; exact hm) h

end Grammar

/-- What is read as a script is spelled by its tokens. -/
theorem spells_of_parseTokens {ts : List Token} {ss : List Statement}
    (h : parseTokens ts = .ok ss) : Spells (.stmts ss) ts := by
  have hf : (Grammar.level ts.length).fuel = ts.length := by cases ts.length <;> rfl
  rw [parseTokens] at h
  split at h <;> cases h
  rename_i hrun
  obtain ⟨us, hus, hs⟩ := Grammar.statements_reads (Grammar.sound_level ts.length)
    (Nat.le_of_eq hf.symm) hrun
  rw [hus, List.append_nil]
  exact hs

end AutoAwait
