import AutoAwait.Proofs.Grammar.Follows

/-!
# The earliest misfit

Each parser of the grammar stops in time, at any fuel. So the tokens before the one at which the
reading of a script stops begin some script, and no script begins with them and a token of the kind
of that one.

* `Grammar.InTime` says so of the parsers that two grammars use inside themselves, where the second
  grammar has no less fuel; `Grammar.inTime_level` proves it;
* `parseTokens_error` is the main statement.
-/

namespace AutoAwait

open AutoAwait.Parser

/-- Operands, arguments and statements are not empty. -/
theorem Derives.length_pos {n : Nonterminal} {ts : List Token} (h : Derives n ts)
    (hn : n = .primary ∨ n = .unary ∨ n = .arguments ∨ n = .stmt) : 1 ≤ ts.length := by
  have hs := n.spelled_of_derives h
  obtain rfl | rfl | rfl | rfl := hn
  all_goals
    obtain ⟨_, hs⟩ := hs
    obtain ⟨t, us, rfl, -⟩ := hs.starts rfl
    exact Nat.succ_le_succ (Nat.zero_le _)

/-- After an operand, arguments or a statement there are fewer tokens left. -/
theorem Parser.Follows.bind_rule {α β : Type} {p q : Parser α} {f g : α → Parser β}
    {N : β → List Token → Prop} {n : Nonterminal} {ts : List Token}
    (hp : Follows p q (Ebnf.rule n).words ts)
    (hn : n = .primary ∨ n = .unary ∨ n = .arguments ∨ n = .stmt)
    (hf : ∀ a rest, rest.length ≤ ts.length - 1 →
      Follows (f a) (g a) (fun b vs => ∀ us, Matches Derives (.rule n) us → N b (us ++ vs)) rest) :
    Follows (p >>= f) (q >>= g) N ts :=
  hp.bind_of_le 1 (fun _ _ h => (Matches.rule_iff.1 h).length_pos hn) hf

namespace Grammar

/-- A name that could stand where nothing is read. -/
def someName : Token := ⟨.name, "", .start⟩

theorem someName_phrase : Matches Derives (.rule .expr) [someName] :=
  Derives.lift_add (Nat.le_refl 1) 11 (.derive (.nth 0 rfl (.token rfl)))

theorem someName_unary : Matches Derives (.rule .unary) [someName] :=
  Derives.lift_add (l := 9) (by decide) 3 (.derive (.nth 0 rfl (.token rfl)))

theorem someName_statement : Matches Derives (.rule .stmt) [someName, ⟨.terminator, "", .start⟩] :=
  .derive (.nth 1 rfl (.derive (.cons someName_phrase
    (.cons (.token (t := ⟨.terminator, "", .start⟩) rfl) .nil))))

/-- The parsers that two grammars use inside themselves stop in time, if the first grammar has fuel
for the tokens and the second one has no less. -/
structure InTime (g g' : Grammar) : Prop where
  fuel : g.fuel ≤ g'.fuel
  phrase : ∀ {ts}, ts.length ≤ g.fuel → Follows g.phrase g'.phrase (Ebnf.rule .expr).words ts
  operand : ∀ {ts}, ts.length ≤ g.fuel → Follows g.operand g'.operand (Ebnf.rule .unary).words ts
  statement : ∀ {ts}, ts.length ≤ g.fuel →
    Follows g.statement g'.statement (Ebnf.rule .stmt).words ts

section
variable {g g' : Grammar} (h : g.InTime g') {ts : List Token}
include h

/-! ## Lists -/

/-- Expressions with commas between them, of which a single one is an expression. -/
def phraseList (ps : List Phrase) (us : List Token) : Prop :=
  Matches Derives (.listOf (.rule .expr)) us ∧ (ps.length = 1 → Matches Derives (.rule .expr) us)

theorem phrases_follows (hts : ts.length ≤ g.fuel) :
    Follows g.phrases g'.phrases phraseList ts := by
  refine (h.phrase hts).bind fun p rest hr => ?_
  refine (Follows.whileNext (by omega) h.fuel fun _ _ => h.phrase (by omega)).bind
    fun ps _ _ => .pure ?_
  rintro vs ⟨hs, hnil⟩ us hu
  refine ⟨.congr (.cons hu (.cons hs .nil)) (by simp), fun hlen => ?_⟩
  obtain rfl := hnil (by simpa using hlen)
  exact .congr hu (by simp)

theorem arguments_follows (hts : ts.length ≤ g.fuel + 1) :
    Follows g.arguments g'.arguments (Ebnf.rule .arguments).words ts := by
  refine .rule (.token_seq fun _ rest hr => ?_)
  have hs : Follows g.phrases g'.phrases (Ebnf.listOf (.rule .expr)).words rest :=
    (phrases_follows h (by omega)).mono fun _ _ h => h.1
  exact (Follows.notBefore hs).opt.seq fun _ _ _ => .token_seq fun _ _ _ => .nil

theorem params_follows (hts : ts.length ≤ g.fuel + 1) : Follows g.params g'.params
    (Ebnf.seq [.token .lparen, .opt (.rule .params), .token .rparen]).words ts := by
  refine .token_seq fun _ rest hr => ?_
  refine Follows.seq (.opt (.optional fun _ => .rule (.token_seq fun _ rest' hr' => ?_)))
    fun _ _ _ => .token_seq fun _ _ _ => .nil
  exact (Follows.more (by omega) h.fuel fun _ _ => .word .name _).seq fun _ _ _ => .nil

theorem statements_follows {n n' : Nat} (hn : ts.length ≤ n) (hn' : n ≤ n')
    (hts : ts.length ≤ g.fuel) :
    Follows (g.statements n) (g'.statements n') Ebnf.statements.words ts := by
  induction n generalizing n' ts with
  | zero =>
    obtain rfl := List.length_eq_zero_iff.1 (Nat.le_zero.1 hn)
    exact (Follows.pure (a := []) .done).of_nil (by cases n' <;> rfl)
  | succ n ih =>
    obtain ⟨n', rfl⟩ : ∃ m, n' = m + 1 := ⟨n' - 1, by omega⟩
    rw [statements, statements]
    refine .peek ?_
    split
    · exact .pure .done
    · exact .pure .done
    · exact .token_bind fun _ rest hr => (ih (by omega) (by omega) (by omega)).mono
        fun _ us hs ht => .more (.nth 1 rfl (.token ht)) hs
    · refine (h.statement hts).bind_rule (by simp) fun s rest hr => ?_
      exact (ih (by omega) (by omega) (by omega)).map.mono
        fun _ us hss vs hs => .more (.nth 0 rfl hs) hss

theorem block_follows (hts : ts.length ≤ g.fuel + 1) :
    Follows g.block g'.block (Ebnf.rule .block).words ts := by
  refine .rule (.token_seq fun _ rest hr => ?_)
  exact (statements_follows h (by omega) h.fuel (by omega)).seq
    fun _ _ _ => .token_seq fun _ _ _ => .nil

/-! ## Operands -/

theorem pair_follows (key : Token) (hts : ts.length ≤ g.fuel + 1) :
    Follows (do let _ ← token .colon; return ObjectEntry.pair key (← g.phrase))
      (do let _ ← token .colon; return ObjectEntry.pair key (← g'.phrase))
      (Ebnf.seq [.token .colon, .rule .expr]).words ts :=
  .token_seq fun _ rest hr => (h.phrase (by omega)).seq fun _ _ _ => .nil

theorem objectEntry_follows (hts : ts.length ≤ g.fuel) :
    Follows g.objectEntry g'.objectEntry (Ebnf.rule .prop).words ts := by
  refine .peek ?_
  generalize hk : next ts = k
  split
  · refine .token_bind fun key rest hr => .isNext ?_
    split
    · exact (pair_follows h key (by omega)).mono
        fun _ us hs ht => .derive (.nth 0 rfl (.cons (Derives.propKey (.inl ht)) hs))
    · exact .pure fun ht => .derive (.nth 1 rfl (.token ht))
  · exact .anyToken hk (.token_bind fun key rest hr => (pair_follows h key (by omega)).mono
      fun _ us hs ht =>
        .derive (.nth 0 rfl (.cons (Derives.propKey (.inr (by rw [ht]; rfl))) hs)))
  · exact .anyToken hk (.token_bind fun key rest hr => (pair_follows h key (by omega)).mono
      fun _ us hs ht =>
        .derive (.nth 0 rfl (.cons (Derives.propKey (.inr (by rw [ht]; rfl))) hs)))
  · have hname : Matches Derives (.rule .prop) [someName] := .derive (.nth 1 rfl (.token rfl))
    exact .stuck (a := .shorthand someName) hname

theorem primary_follows (hts : ts.length ≤ g.fuel + 1) :
    Follows g.primary g'.primary (Ebnf.rule .primary).words ts := by
  refine .peek ?_
  generalize hk : next ts = k
  split
  · exact .anyToken hk (.rule (.choose 0 rfl (.map (.word _ ts))))
  · exact .anyToken hk (.rule (.choose 1 rfl (.map (.word _ ts))))
  · exact .anyToken hk (.rule (.choose 2 rfl (.map (.word _ ts))))
  · exact .anyToken hk (.rule (.choose 3 rfl (.map (.word _ ts))))
  · exact .anyToken hk (.rule (.choose 4 rfl (.map (.word _ ts))))
  · exact .anyToken hk (.rule (.choose 5 rfl (.map (.word _ ts))))
  · exact .anyToken hk (.rule (.choose 6 rfl (.map (.word _ ts))))
  · refine .rule (.choose 7 rfl (.token_seq fun _ rest hr => ?_))
    exact (h.phrase (by omega)).seq fun _ _ _ => .token_seq fun _ _ _ => .nil
  · refine .rule (.choose 8 rfl (.rule (.token_seq fun _ rest hr => ?_)))
    exact (itemsUntil_follows (by omega) h.fuel fun _ _ => h.phrase (by omega)).map
  · refine .rule (.choose 9 rfl (.rule (.token_seq fun _ rest hr => ?_)))
    exact (itemsUntil_follows (by omega) h.fuel fun _ _ => objectEntry_follows h (by omega)).map
  · refine .anyToken hk (.rule (.choose 10 rfl (.rule (.token_seq fun _ rest hr => ?_))))
    refine Follows.seq (.opt (.optional fun _ => .word .name rest)) fun _ rest' hr' => ?_
    exact (params_follows h (by omega)).seq_append fun _ _ _ =>
      (block_follows h (by omega)).seq fun _ _ _ => .nil
  · refine .anyToken hk (.rule (.choose 11 rfl (.rule (.token_seq fun _ rest hr => ?_))))
    refine Follows.mono (L := (Ebnf.seq [.token .name, .star (.seq [.token .dot, .token .name]),
      .opt (.rule .arguments)]).words) (.token_seq fun target rest' hr' => ?_) fun _ us hu => ?_
    · refine (Follows.more (by omega) h.fuel fun _ _ => .word .name _).seq fun path rest₂ hr₂ => ?_
      exact Follows.seq (.opt (.optional fun _ => arguments_follows h (by omega))) fun _ _ _ => .nil
    · obtain ⟨t, vs, rfl, ht, hv⟩ := Matches.token_cons_iff.1 hu
      obtain ⟨ps, as, rfl, hp, ha⟩ := Matches.cons_iff.1 hv
      exact .congr (.cons (.derive (.cons (.token ht) (.cons hp .nil))) ha) (by simp)
  · have hname : Matches Derives (.rule .primary) [someName] := .derive (.nth 0 rfl (.token rfl))
    exact .stuck (a := .name someName) hname

/-! ## What follows an operand -/

theorem suffixes_follows {n n' : Nat} (hn : ts.length ≤ n) (hn' : n ≤ n')
    (hts : ts.length ≤ g.fuel) (p : Phrase) : Follows (g.suffixes n p) (g'.suffixes n' p)
      (Ebnf.after (.rule .callMember) (.rule .callMember)) ts := by
  induction n generalizing n' ts p with
  | zero =>
    obtain rfl := List.length_eq_zero_iff.1 (Nat.le_zero.1 hn)
    exact (Follows.pure (a := p) fun us hu => .congr hu (by simp)).of_nil (by cases n' <;> rfl)
  | succ n ih =>
    obtain ⟨n', rfl⟩ : ∃ m, n' = m + 1 := ⟨n' - 1, by omega⟩
    rw [suffixes, suffixes]
    refine .peek ?_
    split
    · refine .token_bind fun d rest hr => .token_bind fun t rest' hr' => ?_
      refine (ih (by omega) (by omega) (by omega) _).mono fun _ us hs ht hd vs hv => ?_
      have hmember := Matches.derive (n := .callMember)
        (.nth 1 rfl (.cons hv (.cons (.token hd) (.cons (.token ht) .nil))))
      exact .congr (hs _ hmember) (by simp)
    · refine .token_bind fun l rest hr => (h.phrase (by omega)).bind fun key rest' hr' =>
        .token_bind fun r rest₂ hr₂ => ?_
      refine (ih (by omega) (by omega) (by omega) _).mono fun _ us hs hrb ks hk hl vs hv => ?_
      have hindex := Matches.derive (n := .callMember)
        (.nth 2 rfl (.cons hv (.cons (.token hl) (.cons hk (.cons (.token hrb) .nil)))))
      exact .congr (hs _ hindex) (by simp)
    · refine (arguments_follows h (by omega)).bind_rule (by simp) fun args rest hr => ?_
      refine (ih (by omega) (by omega) (by omega) _).mono fun _ us hs as ha vs hv => ?_
      have hcall := Matches.derive (n := .callMember) (.nth 3 rfl (.cons hv (.cons ha .nil)))
      exact .congr (hs _ hcall) (by simp)
    · exact .pure fun us hu => .congr hu (by simp)

omit h in
theorem updated_follows (p : Phrase) (ts : List Token) : Follows (updated p) (updated p)
    (Ebnf.after (.rule .callMember) (.rule .update)) ts := by
  refine (Follows.optional fun _ => .word .incDec ts).bind fun o rest _ => ?_
  cases o with
  | none =>
    refine .pure fun us hu vs hv => ?_
    obtain rfl : us = [] := hu
    exact .derive (.nth 0 rfl (.congr hv (by simp)))
  | some op =>
    exact .pure fun us hu vs hv => .derive (.nth 1 rfl (.cons hv (.cons hu .nil)))

theorem unary_follows {k : TokenKind} (hk : next ts = some k) (hu : isUnaryOperator k)
    (hts : ts.length ≤ g.fuel + 1) : Follows g.unary g'.unary (Ebnf.rule .unary).words ts :=
  .anyToken hk (.token_bind fun op rest hr => (h.operand (by omega)).map.mono
    fun _ _ ho ht => Derives.unary (ht ▸ hu) ho)

theorem operandStep_follows (hts : ts.length ≤ g.fuel + 1) :
    Follows g.operandStep g'.operandStep (Ebnf.rule .unary).words ts := by
  refine .peek ?_
  split
  · next hu =>
    obtain ⟨k, hk, hu⟩ := (Option.any_eq_true _ _).1 hu
    exact unary_follows h hk hu hts
  · refine (primary_follows h hts).bind_rule (by simp) fun p rest hr => ?_
    refine (suffixes_follows h (by omega) h.fuel (by omega) p).bind fun q rest' hr' => ?_
    refine (updated_follows q rest').mono fun _ us hu vs hv ws hw => ?_
    exact .derive (.nth 0 rfl (.congr (hu _ (hv _ (.derive (.nth 0 rfl hw)))) (by simp)))

/-! ## Operators -/

omit h in
theorem chain_follows {l : Nat} {k : TokenKind} (hk : k.operatorLevel? = some l)
    {right right' : Parser Phrase} {n n' : Nat} (hn : ts.length ≤ n) (hn' : n ≤ n')
    (hright : ∀ ts' : List Token, ts'.length ≤ ts.length - 1 →
      Follows right right' (Ebnf.rule (levelRule (l + 1))).words ts') (left : Phrase) :
    Follows (chain k right n left) (chain k right' n' left)
      (Ebnf.after (.rule (levelRule l)) (.rule (levelRule l))) ts := by
  induction n generalizing n' ts left with
  | zero =>
    obtain rfl := List.length_eq_zero_iff.1 (Nat.le_zero.1 hn)
    exact (Follows.pure (a := left) fun us hu => .congr hu (by simp)).of_nil (by cases n' <;> rfl)
  | succ n ih =>
    obtain ⟨n', rfl⟩ : ∃ m, n' = m + 1 := ⟨n' - 1, by omega⟩
    rw [chain, chain]
    refine .isNext ?_
    split
    · refine .token_bind fun op rest hr => (hright rest hr).bind fun b rest' hr' => ?_
      refine (ih (by omega) (by omega) (fun ts' h' => hright ts' (by omega)) _).mono
        fun _ us hs vs hv ho ws hw => ?_
      exact .congr (hs _ (Derives.binary (ho ▸ hk) hw hv)) (by simp)
    · exact .pure fun us hu => .congr hu (by simp)

theorem binary_follows {l : Nat} (hl3 : 3 ≤ l) (hl9 : l ≤ 9) (hts : ts.length ≤ g.fuel)
    (p : Phrase) : Follows (g.binary (operatorsFrom l) p) (g'.binary (operatorsFrom l) p)
      (Ebnf.after (.rule .unary) (.rule (levelRule l))) ts := by
  obtain ⟨d, hd⟩ : ∃ d, l + d = 9 := ⟨9 - l, by omega⟩
  induction d generalizing l p ts with
  | zero =>
    obtain rfl : l = 9 := by omega
    exact .pure fun us hu => .congr hu (by simp)
  | succ d ih =>
    obtain ⟨k, hops, hk⟩ := operatorsFrom_cons hl3 (by omega)
    have htighter {ts : List Token} (hts : ts.length ≤ g.fuel) (p : Phrase) :=
      ih (l := l + 1) (by omega) (by omega) hts p (by omega)
    rw [hops, binary, binary]
    refine (htighter hts p).bind fun left rest hr => ?_
    refine (chain_follows ((hk k).2 rfl) (by omega) h.fuel (fun ts' h' => ?_) left).mono
      fun _ us hs vs hv ws hw => ?_
    · refine (h.operand (by omega)).bind fun q rest' hr' => ?_
      exact htighter (by omega) q
    · exact .congr (hs _ (Derives.lift (by omega) (hv _ hw))) (by simp)

theorem conditional_follows (hts : ts.length ≤ g.fuel) (p : Phrase) :
    Follows (g.conditional p) (g'.conditional p) (Ebnf.after (.rule .unary) (.rule .expr)) ts := by
  refine (binary_follows h (l := 3) (by decide) (by decide) hts p).bind fun test rest hr => ?_
  refine .isNext ?_
  split
  · refine .token_bind fun o rest' hr' => (h.phrase (by omega)).bind fun c rest₂ hr₂ =>
      .token_bind fun d rest₃ hr₃ => (h.phrase (by omega)).map.mono
        fun _ us ha hd vs hc ho ws hw xs hx => ?_
    have hcond := Matches.derive (n := .conditional) (.nth 1 rfl (.cons (hw _ hx)
      (.cons (.token ho) (.cons (Derives.assign hc) (.cons (.token hd)
        (.cons (Derives.assign ha) .nil))))))
    exact Derives.expr (.derive (.nth 0 rfl (.congr hcond (by simp))))
  · refine .pure fun us hu vs hv => ?_
    exact Derives.lift_add (Nat.le_refl 1) 2 (.congr (hu _ hv) (by simp))

/-! ## Expressions -/

theorem assignment_follows (hts : ts.length ≤ g.fuel) (p : Phrase) :
    Follows (g.assignment p) (g'.assignment p)
      (Ebnf.after (.rule .callMember) (.rule .expr)) ts := by
  have hassign {k : TokenKind} (hk : k.assigns) :
      Follows (do let op ← token k; return Phrase.assignment op p (← g.phrase))
        (do let op ← token k; return Phrase.assignment op p (← g'.phrase))
        (Ebnf.after (.rule .callMember) (.rule .expr)) ts :=
    .token_bind fun op rest hr => (h.phrase (by omega)).map.mono
      fun _ us hv ht vs hw => Derives.assignment (ht ▸ hk) hw hv
  refine .peek ?_
  generalize hk : next ts = k
  split
  · exact .anyToken hk (hassign rfl)
  · exact .anyToken hk (hassign rfl)
  · refine (updated_follows p ts).bind fun q rest hr => ?_
    refine (conditional_follows h (by omega) q).mono fun _ us hs vs hv ws hw => ?_
    exact .congr (hs _ (.derive (.nth 0 rfl (hv _ hw)))) (by simp)

theorem arrow_follows (hts : ts.length ≤ g.fuel + 1) (start : Position) (ps : List Phrase) :
    Follows (g.arrow start ps) (g'.arrow start ps)
      (Ebnf.after (.rule .arrowParams) (.rule .expr)) ts := by
  have harrow {a : Token} {us vs : List Token} (ha : a.kind = .arrow)
      (hb : Matches Derives (.rule .arrowBody) us) (hv : Matches Derives (.rule .arrowParams) vs) :
      Matches Derives (.rule .expr) (vs ++ a :: us) :=
    Derives.expr (.derive (.nth 3 rfl
      (.congr (.cons hv (.cons (.token ha) (.cons hb .nil))) (by simp))))
  refine .token_bind fun a rest hr => .isNext ?_
  split
  · exact (block_follows h (by omega)).map.mono
      fun _ us hb ha vs hv => harrow ha (.derive (.nth 0 rfl hb)) hv
  · exact (h.phrase (by omega)).map.mono
      fun _ us hb ha vs hv => harrow ha (.derive (.nth 1 rfl (Derives.assign hb))) hv

/-- The accesses, the calls and the operators that follow the operand at the start of an
expression. -/
theorem continuation_follows (hts : ts.length ≤ g.fuel) (p : Phrase) :
    Follows (do g.assignment (← g.suffixes g.fuel p)) (do g'.assignment (← g'.suffixes g'.fuel p))
      (Ebnf.after (.rule .callMember) (.rule .expr)) ts := by
  refine (suffixes_follows h hts h.fuel hts p).bind fun q rest hr => ?_
  exact (assignment_follows h (by omega) q).mono
    fun _ us hs vs hv ws hw => .congr (hs _ (hv _ hw)) (by simp)

omit h in
/-- What stands in the parentheses at the start of an expression: a single expression that is
grouped, or any number of parameters. -/
theorem optionally_phraseList {o : Option (List Phrase)} {us : List Token}
    (hu : optionally phraseList o us) : Matches Derives (.opt (.listOf (.rule .expr))) us ∧
      ∀ p, o.getD [] = [p] → Matches Derives (.rule .expr) us := by
  cases o with
  | none =>
    obtain rfl : us = [] := hu
    exact ⟨.none, nofun⟩
  | some ps => exact ⟨.some hu.1, fun p hp => hu.2 (congrArg List.length hp)⟩

theorem phraseStep_follows (hts : ts.length ≤ g.fuel + 1) :
    Follows g.phraseStep g'.phraseStep (Ebnf.rule .expr).words ts := by
  refine .peek ?_
  generalize hk : next ts = k
  split
  · refine .token_bind fun name rest hr => .isNext ?_
    split
    · refine (arrow_follows h (by omega) _ _).mono fun _ us hs ht => ?_
      exact hs [name] (.derive (.nth 0 rfl (.token ht)))
    · refine (continuation_follows h (by omega) _).mono fun _ us hs ht => ?_
      exact hs [name] (.derive (.nth 0 rfl (.derive (.nth 0 rfl (.token ht)))))
  · refine .token_bind fun l rest hr => (Follows.notBefore (phrases_follows h (by omega))).bind
      fun inner rest' hr' => .token_bind fun r rest₂ hr₂ => .isNext ?_
    split
    · next p hp _ =>
      refine (continuation_follows h (by omega) _).mono fun _ us hs hrp vs hv hlp => ?_
      have hgroup := Matches.derive (n := .primary) (.nth 7 rfl (.cons (.token hlp)
        (.cons ((optionally_phraseList hv).2 p hp) (.cons (.token hrp) .nil))))
      exact .congr (hs _ (.derive (.nth 0 rfl hgroup))) (by simp)
    · refine (arrow_follows h (by omega) _ _).mono fun _ us hs hrp vs hv hlp => ?_
      exact .congr (hs _ (Derives.arrowParams hlp (optionally_phraseList hv).1 hrp)) (by simp)
  · next k _ _ =>
    split
    · next hu =>
      refine (unary_follows h hk hu hts).bind_rule (by simp) fun p rest hr => ?_
      exact conditional_follows h (by omega) p
    · refine (primary_follows h hts).bind_rule (by simp) fun p rest hr => ?_
      exact (continuation_follows h (by omega) p).mono
        fun _ us hs vs hv => hs vs (.derive (.nth 0 rfl hv))
  · exact .stuck (a := .name someName) someName_phrase

/-! ## Parts of statements -/

theorem declarator_follows (hts : ts.length ≤ g.fuel) (name : Token) :
    Follows (g.declarator name) (g'.declarator name)
      (Ebnf.opt (.seq [.token .assign, .rule .assign])).words ts := by
  refine .map (.opt (.optional fun _ => .token_seq fun _ rest hr => ?_))
  exact ((h.phrase (by omega)).mono fun _ _ => Derives.assign).last

theorem declarators_follows (hts : ts.length ≤ g.fuel) (name : Token) :
    Follows (g.declarators name) (g'.declarators name)
      (Ebnf.seq [.opt (.seq [.token .assign, .rule .assign]), .moreOf (.rule .declarator)]).words
      ts := by
  refine (declarator_follows h hts name).seq fun d rest hr => ?_
  refine Follows.seq (.more (by omega) h.fuel fun ts' h' => .rule ?_) fun _ _ _ => .nil
  exact .token_seq fun name _ _ => (declarator_follows h (by omega) name).last

omit h in
/-- The declarators after the name of the first one make a declaration with what is before them. -/
theorem varDecl_of_declarators {c n : Token} {us : List Token} (hc : c.kind.declares)
    (hn : n.kind = .name) (hu : Matches Derives
      (.seq [.opt (.seq [.token .assign, .rule .assign]), .moreOf (.rule .declarator)]) us) :
    Matches Derives (.rule .varDecl) (c :: n :: us) := by
  obtain ⟨vs, ws, rfl, hv, hw⟩ := Matches.cons_iff.1 hu
  have hd := Matches.derive (n := .declarator) (.cons (.token hn) (.cons hv .nil))
  exact Derives.varDecl hc (.congr (.cons hd hw) (by simp))

theorem condition_follows (hts : ts.length ≤ g.fuel + 1) : Follows g.condition g'.condition
    (Ebnf.seq [.token .lparen, .rule .expr, .token .rparen]).words ts :=
  .token_seq fun _ rest hr => (h.phrase (by omega)).seq
    fun _ _ _ => .token_seq fun _ _ _ => .nil

theorem countingLoop_follows (hts : ts.length ≤ g.fuel) (keyword : Position)
    (init : Option LoopInit) :
    Follows (g.countingLoop keyword init) (g'.countingLoop keyword init)
      (Ebnf.seq [.token .semicolon, .opt (.rule .forTest), .token .semicolon,
        .opt (.rule .forUpdate), .token .rparen, .rule .stmt]).words ts := by
  refine .token_seq fun _ rest hr => ?_
  refine Follows.seq (.opt (.notBefore (.rule (h.phrase (by omega))))) fun _ rest₁ hr₁ => ?_
  refine .token_seq fun _ rest₂ hr₂ => ?_
  refine Follows.seq (.opt (.notBefore (.rule (h.phrase (by omega))))) fun _ rest₃ hr₃ => ?_
  exact .token_seq fun _ rest₄ hr₄ => (h.statement (by omega)).seq fun _ _ _ => .nil

/-- A loop: what comes after its keyword. -/
theorem loop_follows (hts : ts.length ≤ g.fuel) (keyword : Position) :
    Follows (g.loop keyword) (g'.loop keyword) (fun _ us => ∀ k : Token, k.kind = .keyword .for →
      Matches Derives (.rule .stmt) (k :: us)) ts := by
  refine .token_bind fun l rest hr => .peek ?_
  generalize hk : next rest = k
  -- what a counting loop is after its first semicolon is the same with each of its starts
  have hcounting {init us : List Token} {k : Token}
      (hi : Matches Derives (.opt (.rule .forInit)) init) (hs : Matches Derives (.seq
        [.token .semicolon, .opt (.rule .forTest), .token .semicolon, .opt (.rule .forUpdate),
          .token .rparen, .rule .stmt]) us) (hl : l.kind = .lparen) (hk : k.kind = .keyword .for) :
      Matches Derives (.rule .stmt) (k :: l :: (init ++ us)) :=
    .derive (.nth 5 rfl (.derive (.cons (.token hk) (.cons (.token hl) (.cons hi hs)))))
  split
  case h_1 | h_2 | h_3 =>
    refine .anyToken hk (.token_bind fun c rest₁ hr₁ => .token_bind fun n rest₂ hr₂ => .isNext ?_)
    split
    · refine Follows.mono (L := (Ebnf.seq [.word .of, .rule .expr, .token .rparen,
        .rule .stmt]).words) (.token_seq fun _ rest₃ hr₃ => ?_) fun _ us hs hn hc hl k hk => ?_
      · exact (h.phrase (by omega)).seq fun _ rest₄ hr₄ => .token_seq fun _ rest₅ hr₅ =>
          (h.statement (by omega)).seq fun _ _ _ => .nil
      · have hkind := Derives.declKind (k := c) (by rw [hc]; rfl)
        exact .derive (.nth 6 rfl (.derive
          (.cons (.token hk) (.cons (.token hl) (.cons hkind (.cons (.token hn) hs))))))
    · refine (declarators_follows h (by omega) n).bind fun ds rest₃ hr₃ => ?_
      refine (countingLoop_follows h (by omega) _ _).mono fun _ us hs vs hv hn hc hl k hk => ?_
      have hd := varDecl_of_declarators (c := c) (by rw [hc]; rfl) hn hv
      exact hcounting (.some (.derive (.nth 0 rfl hd))) hs hl hk
  case h_4 =>
    exact (countingLoop_follows h (by omega) _ _).mono
      fun _ us hs hl k hk => hcounting .none hs hl hk
  case h_5 =>
    refine (h.phrase (by omega)).bind fun p rest₁ hr₁ => ?_
    exact (countingLoop_follows h (by omega) _ _).mono
      fun _ us hs vs hv hl k hk => hcounting (.some (.derive (.nth 1 rfl hv))) hs hl hk

theorem handler_follows (hts : ts.length ≤ g.fuel + 1) :
    Follows g.handler g'.handler (Ebnf.rule .catchClause).words ts := by
  refine .rule (.token_seq fun _ rest hr => ?_)
  have hparam : Follows (do
        let _ ← token .lparen
        let name ← token .name
        let _ ← token .rparen
        return name) (do
        let _ ← token .lparen
        let name ← token .name
        let _ ← token .rparen
        return name) (Ebnf.seq [.token .lparen, .token .name, .token .rparen]).words rest :=
    .token_seq fun _ _ _ => .token_seq fun _ _ _ => .token_seq fun _ _ _ => .nil
  exact Follows.seq (.opt (.optional fun _ => hparam)) fun _ rest' hr' =>
    (block_follows h (by omega)).seq fun _ _ _ => .nil

/-! ## Statements -/

theorem statementStep_follows (hts : ts.length ≤ g.fuel + 1) :
    Follows g.statementStep g'.statementStep (Ebnf.rule .stmt).words ts := by
  refine .peek ?_
  generalize hk : next ts = k
  split
  case h_1 | h_2 | h_3 =>
    refine .anyToken hk (.token_bind fun c rest hr => .token_bind fun n rest₁ hr₁ => ?_)
    refine (declarators_follows h (by omega) n).bind fun ds rest₂ hr₂ =>
      .token_bind fun e _ _ => .pure fun he vs hv hn hc => ?_
    have hd := varDecl_of_declarators (c := c) (by rw [hc]; rfl) hn hv
    exact .derive (.nth 0 rfl (.cons hd (.cons (.token he) .nil)))
  case h_4 =>
    refine .anyToken hk (.rule (.choose 2 rfl (.rule (.token_seq fun _ rest hr => ?_))))
    exact Follows.seq (.opt (.notBefore (h.phrase (by omega)))) fun _ _ _ =>
      .token_seq fun _ _ _ => .nil
  case h_5 =>
    refine .anyToken hk (.rule (.choose 3 rfl (.rule (.token_seq fun _ rest hr => ?_))))
    refine (condition_follows h (by omega)).seq_append fun _ rest₁ hr₁ =>
      (h.statement (by omega)).seq fun _ rest₂ hr₂ => ?_
    refine Follows.seq (.opt (.optional fun he => ?_)) fun _ _ _ => .nil
    exact .anyToken he (.token_seq fun _ rest₃ hr₃ => (h.statement (by omega)).last)
  case h_6 =>
    refine .anyToken hk (.rule (.choose 4 rfl (.rule (.token_seq fun _ rest hr => ?_))))
    exact (condition_follows h (by omega)).seq_append fun _ rest₁ hr₁ =>
      (h.statement (by omega)).seq fun _ _ _ => .nil
  case h_7 =>
    exact .anyToken hk (.token_bind fun k rest hr =>
      (loop_follows h (by omega) _).mono fun _ us hs hk => hs k hk)
  case h_8 =>
    refine .anyToken hk (.rule (.choose 7 rfl (.rule (.token_seq fun _ rest hr => ?_))))
    exact .token_seq fun _ rest₁ hr₁ => (params_follows h (by omega)).seq_append fun _ rest₂ hr₂ =>
      (block_follows h (by omega)).seq fun _ _ _ => .nil
  case h_9 => exact .rule (.choose 8 rfl (block_follows h hts).map)
  case h_10 =>
    exact .anyToken hk (.rule (.choose 9 rfl (.rule
      (.token_seq fun _ _ _ => .token_seq fun _ _ _ => .nil))))
  case h_11 =>
    exact .anyToken hk (.rule (.choose 10 rfl (.rule
      (.token_seq fun _ _ _ => .token_seq fun _ _ _ => .nil))))
  case h_12 =>
    refine .anyToken hk (.rule (.choose 11 rfl (.rule (.token_seq fun _ rest hr => ?_))))
    exact (h.phrase (by omega)).seq fun _ _ _ => .token_seq fun _ _ _ => .nil
  case h_13 =>
    refine .anyToken hk (.rule (.choose 12 rfl (.rule (.token_seq fun _ rest hr => ?_))))
    refine (block_follows h (by omega)).seq fun _ rest₁ hr₁ => ?_
    refine Follows.seq (.opt (.optional fun _ => handler_follows h (by omega)))
      fun _ rest₂ hr₂ => ?_
    refine Follows.seq (.opt (.optional fun he => .rule ?_)) fun _ _ _ => .nil
    exact .anyToken he (.token_seq fun _ rest₃ hr₃ => (block_follows h (by omega)).last)
  case h_14 =>
    refine .rule (.choose 1 rfl (.rule ?_))
    exact (phraseStep_follows h hts).seq fun _ _ _ => .token_seq fun _ _ _ => .nil

end

/-- The grammar stops in time, unfolded any number of times. -/
theorem inTime_level {n m : Nat} (hnm : n ≤ m) : (level n).InTime (level m) := by
  induction n generalizing m with
  | zero =>
    have hstuck {α : Type} {p : Parser α} {L : α → List Token → Prop} {ts us : List Token} {a : α}
        (hts : ts.length ≤ 0) (hp : p [] = .error []) (hword : L a us) : Follows stuck p L ts := by
      obtain rfl := List.length_eq_zero_iff.1 (Nat.le_zero.1 hts)
      exact (Follows.stuck hword).of_nil hp
    constructor
    · exact Nat.zero_le _
    · exact fun hts => hstuck hts (by cases m <;> rfl) (a := .name someName) someName_phrase
    · exact fun hts => hstuck hts (by cases m <;> rfl) (a := .name someName) someName_unary
    · exact fun hts => hstuck hts (by cases m <;> rfl) (a := .break .start) someName_statement
  | succ n ih =>
    obtain ⟨m, rfl⟩ : ∃ l, m = l + 1 := ⟨m - 1, by omega⟩
    have ih := ih (m := m) (by omega)
    constructor
    · exact hnm
    · exact fun hts => phraseStep_follows ih (by rw [level_fuel]; exact hts)
    · exact fun hts => operandStep_follows ih (by rw [level_fuel]; exact hts)
    · exact fun hts => statementStep_follows ih (by rw [level_fuel]; exact hts)

end Grammar

/-- **The earliest misfit.** Where the reading of a script stops, the tokens before that place begin
some script, and nothing is a script that begins with them and then goes on with a token of the same
kind, or ends there too. -/
theorem parseTokens_error {ts rest : List Token} (h : parseTokens ts = .error rest) :
    ∃ us, ts = us ++ rest ∧ (∃ vs, Derives .program (us ++ vs)) ∧
      ∀ rest', next rest' = next rest → ¬ Derives .program (us ++ rest') := by
  -- the same tokens are before that place at any fuel, and it is no less a misfit at any fuel
  have hstop {m : Nat} (hm : ts.length ≤ m) : ∃ us, ts = us ++ rest ∧
      (∃ vs, Derives .program (us ++ vs)) ∧ ∀ rest', next rest' = next rest →
        ∀ ss, (Grammar.level m).statements m (us ++ rest') ≠ .ok (ss, []) := by
    have hread := Grammar.statements_follows (Grammar.inTime_level hm) (Nat.le_refl ts.length) hm
      (Nat.le_of_eq (Grammar.level_fuel _).symm)
    rw [parseTokens] at h
    cases hread with
    | @reads us r ss split word run alike =>
      rw [run] at h
      cases r with
      | nil => cases h
      | cons t r =>
        obtain rfl : t :: r = rest := Except.error.inj h
        refine ⟨us, split, ⟨[], .of_body (.congr word (by simp))⟩, fun rest' hr ss hok => ?_⟩
        rw [alike _ hr] at hok
        cases hok
        cases hr
    | @stops us vs r ss split word run alike =>
      rw [run] at h
      obtain rfl : r = rest := Except.error.inj h
      refine ⟨us, split, ⟨vs, .of_body word⟩, fun rest' hr ss hok => ?_⟩
      rw [alike _ hr] at hok
      cases hok
  obtain ⟨us, hus, hviable, -⟩ := hstop (Nat.le_refl _)
  refine ⟨us, hus, hviable, fun rest' hr hd => ?_⟩
  obtain ⟨ss, hs⟩ := hd.spelled
  obtain ⟨us', hus', -, hfail⟩ := hstop (Nat.le_max_left ts.length (us ++ rest').length)
  obtain rfl : us' = us := List.append_cancel_right (hus'.symm.trans hus)
  exact hfail rest' hr ss (Grammar.statements_level hs (Nat.le_max_right _ _))

end AutoAwait
