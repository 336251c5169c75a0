import AutoAwait.Proofs.Grammar.Basic

/-!
# Running parsers

What the pieces that parsers are made of do on given tokens.

* `Parser.bind_ok` takes a successful run of a sequence apart;
* `next` is the kind of the next token, by which parsers decide how to go on.
-/

namespace AutoAwait

/-- The kind of the next token. -/
def next (ts : List Token) : Option TokenKind := ts.head?.map (·.kind)

@[simp] theorem next_nil : next [] = none := rfl

@[simp] theorem next_cons (t : Token) (ts : List Token) : next (t :: ts) = some t.kind := rfl

theorem next_append {ts : List Token} (h : ts ≠ []) (us : List Token) :
    next (ts ++ us) = next ts := by
  cases ts with
  | nil => exact absurd rfl h
  | cons t ts => rfl

namespace Parser

variable {α β : Type} {p : Parser α} {f : α → Parser β} {k : TokenKind} {t : Token}
  {ts rest : List Token} {a : α} {b : β}

@[simp] theorem pure_run : (pure a : Parser α) ts = .ok (a, ts) := rfl

theorem bind_run : (p >>= f) ts =
    match p ts with
    | .ok (a, rest) => f a rest
    | .error rest => .error rest := rfl

theorem seqRight_run {q : Parser β} : (p *> q) ts = (p >>= fun _ => q) ts := rfl

theorem bind_of_ok (h : p ts = .ok (a, rest)) : (p >>= f) ts = f a rest := by
  rw [bind_run, h]

theorem bind_assoc_run {γ : Type} {c : β → Parser γ} :
    ((p >>= f) >>= c) ts = (p >>= fun a => f a >>= c) ts := by
  rw [bind_run, bind_run, bind_run]
  cases p ts <;> rfl

theorem bind_ok : (p >>= f) ts = .ok (b, rest) ↔
    ∃ a mid, p ts = .ok (a, mid) ∧ f a mid = .ok (b, rest) := by
  rw [bind_run]
  cases p ts with
  | ok r =>
    obtain ⟨a, mid⟩ := r
    constructor
    · exact fun h => ⟨a, mid, rfl, h⟩
    · rintro ⟨_, _, ⟨⟩, h⟩
      exact h
  | error r => simp

theorem pure_ok {c : α} : (pure a : Parser α) ts = .ok (c, rest) ↔ a = c ∧ ts = rest := by
  simp [pure_run]

/-- The last part of a sequence, which only puts together what has been read. -/
theorem bind_pure_ok {c : α → β} : (p >>= fun a => pure (c a)) ts = .ok (b, rest) ↔
    ∃ a, p ts = .ok (a, rest) ∧ c a = b := by
  simp only [bind_ok, pure_ok]
  constructor
  · rintro ⟨a, mid, h, rfl, rfl⟩
    exact ⟨a, h, rfl⟩
  · rintro ⟨a, h, rfl⟩
    exact ⟨a, rest, h, rfl, rfl⟩

@[simp] theorem peek_run : peek ts = .ok (next ts, ts) := rfl

@[simp] theorem isNext_run : isNext k ts = .ok (next ts == some k, ts) := rfl

@[simp] theorem anyToken_run : anyToken (t :: ts) = .ok (t, ts) := rfl

@[simp] theorem stuck_run : (stuck : Parser α) ts = .error ts := rfl

theorem token_run (h : t.kind = k) : token k (t :: ts) = .ok (t, ts) := if_pos h

theorem token_ok : token k ts = .ok (t, rest) ↔ ts = t :: rest ∧ t.kind = k := by
  cases ts with
  | nil => simp [token]
  | cons u us =>
    by_cases h : u.kind = k
    · simp only [token_run h, Except.ok.injEq, Prod.mk.injEq, List.cons.injEq]
      exact ⟨fun he => ⟨he, he.1 ▸ h⟩, fun he => he.1⟩
    · simp only [token, if_neg h, reduceCtorEq, List.cons.injEq, false_iff]
      rintro ⟨⟨rfl, -⟩, he⟩
      exact h he

theorem anyToken_ok : anyToken ts = .ok (t, rest) ↔ ts = t :: rest := by
  cases ts <;> simp [anyToken]

theorem optional_run : optional k p ts =
    if next ts = some k then (some <$> p) ts else .ok (none, ts) := by
  by_cases h : next ts = some k
  · simp only [optional, bind_run, isNext_run, h, beq_self_eq_true, if_true]
    rfl
  · simp [optional, bind_run, h]

theorem notBefore_run : notBefore k p ts =
    if next ts = some k then .ok (none, ts) else (some <$> p) ts := by
  by_cases h : next ts = some k
  · simp [notBefore, bind_run, h]
  · simp only [notBefore, bind_run, isNext_run, beq_eq_false_iff_ne.2 h, if_neg h]
    rfl

theorem map_of_ok {c : α → β} (h : p ts = .ok (a, rest)) : (c <$> p) ts = .ok (c a, rest) := by
  change (p >>= fun a => pure (c a)) ts = _
  rw [bind_of_ok h, pure_run]

theorem map_ok {c : α → β} : (c <$> p) ts = .ok (b, rest) ↔
    ∃ a, p ts = .ok (a, rest) ∧ c a = b := bind_pure_ok

theorem optional_of_next (hk : next ts = some k) (h : p ts = .ok (a, rest)) :
    optional k p ts = .ok (some a, rest) := by
  rw [optional_run, if_pos hk, map_of_ok h]

theorem optional_of_not_next (hk : next ts ≠ some k) : optional k p ts = .ok (none, ts) := by
  rw [optional_run, if_neg hk]

theorem notBefore_of_next (hk : next ts = some k) : notBefore k p ts = .ok (none, ts) := by
  rw [notBefore_run, if_pos hk]

theorem notBefore_of_not_next (hk : next ts ≠ some k) (h : p ts = .ok (a, rest)) :
    notBefore k p ts = .ok (some a, rest) := by
  rw [notBefore_run, if_neg hk, map_of_ok h]

theorem optional_ok {o : Option α} : optional k p ts = .ok (o, rest) ↔
    (∃ a, o = some a ∧ next ts = some k ∧ p ts = .ok (a, rest)) ∨
      (o = none ∧ next ts ≠ some k ∧ ts = rest) := by
  rw [optional_run]
  by_cases h : next ts = some k
  · simp [h, map_ok, eq_comm, and_comm]
  · simp [h, eq_comm]

theorem notBefore_ok {o : Option α} : notBefore k p ts = .ok (o, rest) ↔
    (∃ a, o = some a ∧ next ts ≠ some k ∧ p ts = .ok (a, rest)) ∨
      (o = none ∧ next ts = some k ∧ ts = rest) := by
  rw [notBefore_run]
  by_cases h : next ts = some k
  · simp [h, eq_comm]
  · simp [h, map_ok, eq_comm, and_comm]

theorem peek_bind {f : Option TokenKind → Parser β} : (peek >>= f) ts = f (next ts) ts :=
  bind_of_ok peek_run

theorem isNext_bind {f : Bool → Parser β} : (isNext k >>= f) ts = f (next ts == some k) ts :=
  bind_of_ok isNext_run

end Parser

end AutoAwait
