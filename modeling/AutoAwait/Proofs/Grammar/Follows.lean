import AutoAwait.Proofs.Grammar.Derivable

/-!
# Parsers that stop in time

A parser stops in time if what it has read when it fails is the beginning of something that it could
have read. Two parsers that differ in how often they unfold the grammar do the same with the tokens
that one of them uses, whatever comes after the next token.

* `Parser.Follows` says both of two parsers, a language and the tokens that are read;
* `Parser.Follows.bind` is about one parser after another, the lemmas after it about the pieces that
  parsers are made of;
* `Ebnf.words` are the languages of the right sides of rules, `Ebnf.after` what can come after them.
-/

namespace AutoAwait

theorem next_append_congr {us rest rest' : List Token} (h : next rest' = next rest) :
    next (us ++ rest') = next (us ++ rest) := by
  cases us with
  | nil => exact h
  | cons => rfl

theorem eq_nil_of_next {us : List Token} (h : next us = next []) : us = [] := by
  cases us with
  | nil => rfl
  | cons => cases h

/-- What can be derived from the right side of a rule, whatever it is read as. -/
def Ebnf.words (e : Ebnf) {α : Type} (_ : α) (ts : List Token) : Prop := Matches Derives e ts

/-- What makes an `e'` of any `e` before it. -/
def Ebnf.after (e e' : Ebnf) {α : Type} (_ : α) (ts : List Token) : Prop :=
  ∀ us, Matches Derives e us → Matches Derives e' (us ++ ts)

namespace Parser

/-- The parser `p` stops in time on the tokens `ts`: it reads a word of the language `L`, where the
words can be told apart by what they are read as, or what it has read when it fails begins such a
word. The parser `q` does the same with what `p` reads, if the next token after that is of the same
kind. -/
inductive Follows {α : Type} (p q : Parser α) (L : α → List Token → Prop) (ts : List Token) : Prop
  | reads {us rest a} (split : ts = us ++ rest) (word : L a us) (run : p ts = .ok (a, rest))
      (alike : ∀ rest', next rest' = next rest → q (us ++ rest') = .ok (a, rest'))
  | stops {us vs rest a} (split : ts = us ++ rest) (word : L a (us ++ vs))
      (run : p ts = .error rest)
      (alike : ∀ rest', next rest' = next rest → q (us ++ rest') = .error rest')

namespace Follows

variable {α β : Type} {p q : Parser α} {f g : α → Parser β} {L M : α → List Token → Prop}
  {N : β → List Token → Prop} {ts us : List Token} {k : TokenKind} {e : Ebnf} {es : List Ebnf}

/-- The language is not empty. -/
theorem exists_word (h : Follows p q L ts) : ∃ a us, L a us := by
  cases h with
  | reads _ word => exact ⟨_, _, word⟩
  | stops _ word => exact ⟨_, _, word⟩

theorem mono (h : Follows p q L ts) (hL : ∀ a us, L a us → M a us) : Follows p q M ts := by
  cases h with
  | reads split word run alike => exact .reads split (hL _ _ word) run alike
  | stops split word run alike => exact .stops split (hL _ _ word) run alike

/-- Only what is done with the tokens matters. -/
theorem congr {p' q' : Parser α} (h : Follows p q L ts) (hp : p' ts = p ts)
    (hq : ∀ ts', next ts' = next ts → q' ts' = q ts') : Follows p' q' L ts := by
  cases h with
  | reads split word run alike =>
    refine .reads split word (hp.trans run) fun rest' hr => ?_
    rw [hq _ (split ▸ next_append_congr hr), alike _ hr]
  | stops split word run alike =>
    refine .stops split word (hp.trans run) fun rest' hr => ?_
    rw [hq _ (split ▸ next_append_congr hr), alike _ hr]

/-- Without tokens it matters only what is done without tokens. -/
theorem of_nil {q' : Parser α} (h : Follows p q L []) (hq : q' [] = q []) : Follows p q' L [] :=
  h.congr rfl fun _ hu => by rw [eq_nil_of_next hu, hq]

theorem pure {a : α} (h : L a []) : Follows (pure a) (pure a) L ts :=
  .reads (List.nil_append ts).symm h rfl fun _ _ => rfl

theorem stuck {a : α} (h : L a us) : Follows stuck stuck L ts :=
  .stops (List.nil_append ts).symm h rfl fun _ _ => rfl

/-! ## One parser after another -/

/-- One parser after another. The second one may be given fewer tokens than the first one if that
reads at least `d`. -/
theorem bind_of_le (d : Nat) (hp : Follows p q L ts) (hL : ∀ a us, L a us → d ≤ us.length)
    (hf : ∀ a rest, rest.length ≤ ts.length - d →
      Follows (f a) (g a) (fun b vs => ∀ us, L a us → N b (us ++ vs)) rest) :
    Follows (p >>= f) (q >>= g) N ts := by
  cases hp with
  | @stops us vs rest a split word run alike =>
    -- the second parser is not run, but it could read something after what the first one has begun
    obtain ⟨b, ws, hb⟩ := (hf a [] (Nat.zero_le _)).exists_word
    have hword := hb _ word
    rw [List.append_assoc] at hword
    refine .stops split hword ?_ fun rest' hr => ?_
    · rw [bind_run, run]
    · rw [bind_run, alike _ hr]
  | @reads us rest a split word run alike =>
    have hlen : rest.length ≤ ts.length - d := by
      have := hL a us word
      simp only [split, List.length_append]
      omega
    cases hf a rest hlen with
    | @reads vs rest₂ b split₂ word₂ run₂ alike₂ =>
      refine .reads (by rw [split, split₂, List.append_assoc]) (word₂ us word) ?_ ?_
      · rw [bind_of_ok run, run₂]
      · intro rest' hr
        rw [List.append_assoc, bind_of_ok (alike _ (split₂ ▸ next_append_congr hr)), alike₂ _ hr]
    | @stops vs ws rest₂ b split₂ word₂ run₂ alike₂ =>
      have hword := word₂ us word
      rw [← List.append_assoc] at hword
      refine .stops (by rw [split, split₂, List.append_assoc]) hword ?_ ?_
      · rw [bind_of_ok run, run₂]
      · intro rest' hr
        rw [List.append_assoc, bind_of_ok (alike _ (split₂ ▸ next_append_congr hr)), alike₂ _ hr]

theorem bind (hp : Follows p q L ts) (hf : ∀ a rest, rest.length ≤ ts.length →
      Follows (f a) (g a) (fun b vs => ∀ us, L a us → N b (us ++ vs)) rest) :
    Follows (p >>= f) (q >>= g) N ts :=
  hp.bind_of_le 0 (fun _ _ _ => Nat.zero_le _) hf

/-- One parser after another, in a rule. -/
theorem seq (hp : Follows p q e.words ts) (hf : ∀ a rest, rest.length ≤ ts.length →
      Follows (f a) (g a) (Ebnf.seq es).words rest) :
    Follows (p >>= f) (q >>= g) (Ebnf.seq (e :: es)).words ts :=
  hp.bind fun a rest hr => (hf a rest hr).mono fun _ _ hs _ h => .cons h hs

theorem nil {a : α} : Follows (Pure.pure a) (Pure.pure a) (Ebnf.seq []).words ts := pure .nil

/-- The last element of a rule. -/
theorem last (h : Follows p q e.words ts) : Follows p q (Ebnf.seq [e]).words ts :=
  h.mono fun _ _ h => Matches.single_iff.2 h

/-- A rule that the first parser begins with several elements of. -/
theorem seq_append {fs : List Ebnf} (hp : Follows p q (Ebnf.seq fs).words ts)
    (hf : ∀ a rest, rest.length ≤ ts.length → Follows (f a) (g a) (Ebnf.seq es).words rest) :
    Follows (p >>= f) (q >>= g) (Ebnf.seq (fs ++ es)).words ts :=
  hp.bind fun a rest hr => (hf a rest hr).mono fun _ _ hs _ h => Matches.append h hs

/-- An alternative of a choice, by its number. -/
theorem choose (i : Nat) (he : es[i]? = some e) (h : Follows p q e.words ts) :
    Follows p q (Ebnf.alt es).words ts :=
  h.mono fun _ _ h => .nth i he h

theorem rule {n : Nonterminal} (h : Follows p q n.body.words ts) :
    Follows p q (Ebnf.rule n).words ts :=
  h.mono fun _ _ h => .derive h

theorem map {c : α → β} (h : Follows p q e.words ts) :
    Follows (p >>= fun a => Pure.pure (c a)) (q >>= fun a => Pure.pure (c a)) e.words ts :=
  h.bind fun _ _ _ => pure fun us h => by rwa [List.append_nil]

/-! ## Tokens -/

theorem token (k : TokenKind) (ts : List Token) :
    Follows (token k) (token k) (fun t us => us = [t] ∧ t.kind = k) ts := by
  have hstop {rest : List Token} (h : next rest ≠ some k) :
      (Parser.token k) rest = .error rest := by
    cases rest with
    | nil => rfl
    | cons t rest => exact if_neg fun ht => h (congrArg some ht)
  by_cases h : next ts = some k
  · cases ts with
    | nil => cases h
    | cons t rest =>
      have ht : t.kind = k := Option.some.inj h
      exact .reads (List.singleton_append).symm ⟨rfl, ht⟩ (token_run ht) fun _ _ => token_run ht
  · exact .stops (a := ⟨k, "", .start⟩) (List.nil_append ts).symm ⟨rfl, rfl⟩ (hstop h)
      fun rest' hr => hstop (hr ▸ h)

theorem word (k : TokenKind) (ts : List Token) :
    Follows (Parser.token k) (Parser.token k) (Ebnf.token k).words ts :=
  (token k ts).mono fun _ _ ⟨hu, ht⟩ => hu ▸ .token ht

theorem token_bind {f g : Token → Parser β} (hf : ∀ t rest, rest.length ≤ ts.length - 1 →
      Follows (f t) (g t) (fun b us => t.kind = k → N b (t :: us)) rest) :
    Follows (Parser.token k >>= f) (Parser.token k >>= g) N ts :=
  (token k ts).bind_of_le 1 (by rintro _ _ ⟨rfl, -⟩; exact Nat.le_refl 1) fun t rest hr =>
    (hf t rest hr).mono fun b us h _ ⟨hu, ht⟩ => hu ▸ h ht

/-- A token in a rule. -/
theorem token_seq {f g : Token → Parser β} (hf : ∀ t rest, rest.length ≤ ts.length - 1 →
      Follows (f t) (g t) (Ebnf.seq es).words rest) :
    Follows (Parser.token k >>= f) (Parser.token k >>= g) (Ebnf.seq (.token k :: es)).words ts :=
  token_bind fun t rest hr => (hf t rest hr).mono fun _ _ h ht => .cons (.token ht) h

/-- Reading the next token, whose kind is known. -/
theorem anyToken {f g : Token → Parser β} {L : β → List Token → Prop} (hk : next ts = some k)
    (h : Follows (Parser.token k >>= f) (Parser.token k >>= g) L ts) :
    Follows (Parser.anyToken >>= f) (Parser.anyToken >>= g) L ts := by
  have hread {rest : List Token} (h : next rest = some k) :
      Parser.anyToken rest = Parser.token k rest := by
    cases rest with
    | nil => cases h
    | cons t rest => exact (token_run (Option.some.inj h)).symm
  refine h.congr ?_ fun rest hr => ?_
  · rw [bind_run, bind_run, hread hk]
  · rw [bind_run, bind_run, hread (hr.trans hk)]

/-! ## Looking ahead -/

theorem peek {f g : Option TokenKind → Parser β} {L : β → List Token → Prop}
    (h : Follows (f (next ts)) (g (next ts)) L ts) :
    Follows (Parser.peek >>= f) (Parser.peek >>= g) L ts :=
  h.congr peek_bind fun _ hr => by rw [peek_bind, hr]

theorem isNext {f g : Bool → Parser β} {L : β → List Token → Prop}
    (h : Follows (f (next ts == some k)) (g (next ts == some k)) L ts) :
    Follows (Parser.isNext k >>= f) (Parser.isNext k >>= g) L ts :=
  h.congr isNext_bind fun _ hr => by rw [isNext_bind, hr]

end Follows

/-- A word that may be missing. -/
def optionally {α : Type} (L : α → List Token → Prop) : Option α → List Token → Prop
  | none, us => us = []
  | some a, us => L a us

namespace Follows

variable {α β : Type} {p q r r' : Parser α} {f g : α → Parser β} {L M : α → List Token → Prop}
  {ts us : List Token} {k : TokenKind} {e : Ebnf}

theorem present (h : Follows p q L ts) : Follows (some <$> p) (some <$> q) (optionally L) ts :=
  h.bind fun _ _ _ => pure fun us h => by rwa [List.append_nil]

theorem optional (h : next ts = some k → Follows p q L ts) :
    Follows (Parser.optional k p) (Parser.optional k q) (optionally L) ts := by
  refine isNext ?_
  split
  · next hk => exact (h (eq_of_beq hk)).present
  · exact pure rfl

theorem notBefore (h : Follows p q L ts) :
    Follows (Parser.notBefore k p) (Parser.notBefore k q) (optionally L) ts := by
  refine isNext ?_
  split
  · exact pure rfl
  · exact h.present

/-- An option in a rule. -/
theorem opt {p q : Parser (Option α)} (h : Follows p q (optionally e.words) ts) :
    Follows p q (Ebnf.opt e).words ts := by
  refine h.mono fun o us ho => ?_
  cases o with
  | none => exact Matches.opt_iff.2 (.inl ho)
  | some a => exact .some ho

/-! ## Lists -/

/-- What is read as long as a token `k` comes next: nothing is read only if nothing comes. -/
theorem whileNext {n n' : Nat} (hn : ts.length ≤ n) (hn' : n ≤ n')
    (h : ∀ ts' : List Token, ts'.length ≤ ts.length - 1 → Follows p q e.words ts') :
    Follows (Parser.whileNext k (Parser.token k *> p) n)
      (Parser.whileNext k (Parser.token k *> q) n')
      (fun as us => (Ebnf.star (.seq [.token k, e])).words as us ∧ (as = [] → us = [])) ts := by
  induction n generalizing n' ts with
  | zero =>
    obtain rfl := List.length_eq_zero_iff.1 (Nat.le_zero.1 hn)
    exact (pure (a := []) ⟨.done, fun _ => rfl⟩).of_nil (by cases n' <;> rfl)
  | succ n ih =>
    obtain ⟨n', rfl⟩ : ∃ m, n' = m + 1 := ⟨n' - 1, by omega⟩
    rw [Parser.whileNext, Parser.whileNext]
    refine isNext ?_
    split
    · have hitem : Follows (Parser.token k *> p) (Parser.token k *> q)
          (Ebnf.seq [.token k, e]).words ts := token_seq fun _ rest hr => (h rest hr).last
      have hne : ∀ (a : α) us, (Ebnf.seq [.token k, e]).words a us → 1 ≤ us.length := by
        intro _ us hu
        obtain ⟨t, us, rfl, -⟩ := Matches.token_cons_iff.1 hu
        exact Nat.succ_le_succ (Nat.zero_le _)
      refine hitem.bind_of_le 1 hne fun a rest hr => ?_
      refine (ih (by omega) (by omega) fun ts' h' => h ts' (by omega)).bind
        fun as rest' _ => pure ?_
      rintro us ⟨hs, -⟩ vs hv
      rw [List.append_nil]
      exact ⟨.more hv hs, fun hnil => absurd hnil (List.cons_ne_nil _ _)⟩
    · exact pure ⟨.done, fun _ => rfl⟩

/-- A repetition in a rule. -/
theorem more {n n' : Nat} (hn : ts.length ≤ n) (hn' : n ≤ n')
    (h : ∀ ts' : List Token, ts'.length ≤ ts.length - 1 → Follows p q e.words ts') :
    Follows (Parser.whileNext k (Parser.token k *> p) n)
      (Parser.whileNext k (Parser.token k *> q) n') (Ebnf.star (.seq [.token k, e])).words ts :=
  (whileNext hn hn' h).mono fun _ _ h => h.1

end Follows

end Parser

namespace Grammar

open AutoAwait.Parser

variable {α : Type} {item item' : Parser α} {e : Ebnf} {close : TokenKind} {ts : List Token}

theorem itemsUntil_nil (h : Follows item item' e.words []) (n : Nat) :
    itemsUntil close item' n [] = .error [] := by
  cases n with
  | zero => rfl
  | succ n =>
    rw [itemsUntil, isNext_bind]
    cases h with
    | @reads _ _ a split word run alike =>
      obtain ⟨rfl, rfl⟩ := List.append_eq_nil_iff.1 split.symm
      exact bind_of_ok (show item' [] = .ok (a, []) from alike [] rfl)
    | stops split word run alike =>
      obtain ⟨rfl, rfl⟩ := List.append_eq_nil_iff.1 split.symm
      refine bind_run.trans ?_
      rw [show item' [] = .error [] from alike [] rfl]

/-- Items up to a closing token. -/
theorem itemsUntil_follows {n n' : Nat} (hn : ts.length ≤ n) (hn' : n ≤ n')
    (h : ∀ ts' : List Token, ts'.length ≤ ts.length → Follows item item' e.words ts') :
    Follows (itemsUntil close item n) (itemsUntil close item' n')
      (Ebnf.seq [.itemsOf e, .token close]).words ts := by
  induction n generalizing n' ts with
  | zero =>
    obtain rfl := List.length_eq_zero_iff.1 (Nat.le_zero.1 hn)
    have hclose : Follows (itemsUntil close item 0) (itemsUntil close item 0)
        (Ebnf.seq [.itemsOf e, .token close]).words [] :=
      .token_bind fun _ _ _ => .pure fun ht => .cons .none (.cons (.token ht) .nil)
    exact hclose.of_nil (itemsUntil_nil (h [] (Nat.le_refl _)) n')
  | succ n ih =>
    obtain ⟨n', rfl⟩ : ∃ m, n' = m + 1 := ⟨n' - 1, by omega⟩
    rw [itemsUntil, itemsUntil]
    refine .isNext ?_
    split
    · exact .token_bind fun _ _ _ => .pure fun ht => .cons .none (.cons (.token ht) .nil)
    · refine (h ts (Nat.le_refl _)).bind fun a rest hr => .isNext ?_
      split
      · refine .token_bind fun c rest' hr' => ?_
        refine (ih (by omega) (by omega) fun ts' h' => h ts' (by omega)).bind
          fun as _ _ => .pure fun ws hw hc us hu => ?_
        obtain ⟨is, cs, rfl, his, hcs⟩ := Matches.cons_iff.1 hw
        exact .congr (.cons (Matches.items hu hc his) hcs) (by simp)
      · refine .token_bind fun _ _ _ => .pure fun ht us hu => ?_
        have hlast : Matches Derives (.itemsOf e) us :=
          .some (.congr (.cons hu (.cons .done (.cons .none .nil))) (by simp))
        exact .cons hlast (.cons (.token ht) .nil)

end Grammar

end AutoAwait
