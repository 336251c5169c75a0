import AutoAwait.Proofs.Grammar.Run

/-!
# First tokens

With which tokens a form begins, and which tokens go on with an expression.

* `TokenKind.reach` says how far a token reaches into an expression before it; `Ends` that the next
  token reaches into no expression of a level;
* `Spells.starts` gives the first token of a form that is never empty.
-/

namespace AutoAwait

namespace TokenKind

/-- Can an expression begin with this token? -/
def startsPhrase : TokenKind → Bool
  | .name | .number | .string | .lparen | .lbracket | .lbrace | .addOp | .bang => true
  | .keyword k =>
    match k with
    | .true | .false | .null | .this | .function | .new | .typeof | .await => true
    | _ => false
  | _ => false

/-- Can a statement begin with this token? -/
def startsStatement : TokenKind → Bool
  | .functionDecl | .blockOpen => true
  | .keyword k =>
    match k with
    | .let | .const | .var | .return | .if | .while | .for | .break | .continue | .throw | .try =>
      true
    | _ => (TokenKind.keyword k).startsPhrase
  | k => k.startsPhrase

/-- The highest level of an expression that goes on with this token. -/
def reach : TokenKind → Nat
  | .dot | .lbracket | .lparen => 11
  | .incDec => 10
  | .mulOp => 8
  | .addOp => 7
  | .comparison => 6
  | .equality => 5
  | .logicAnd => 4
  | .logicOr => 3
  | .question => 2
  | .assign | .compoundAssign | .arrow => 1
  | _ => 0

theorem operatorLevel_bounds {k : TokenKind} {l : Nat} (h : k.operatorLevel? = some l) :
    3 ≤ l ∧ l ≤ 8 := by
  cases k <;> simp [operatorLevel?] at h <;> subst h <;> decide

theorem ne_of_holds {f : TokenKind → Bool} {k j : TokenKind} (h : f k) (hj : f j = false) :
    k ≠ j := by
  rintro rfl
  rw [hj] at h
  cases h

theorem reach_of_operatorLevel {k : TokenKind} {l : Nat} (h : k.operatorLevel? = some l) :
    k.reach = l := by
  cases k <;> simp [operatorLevel?] at h <;> subst h <;> rfl

end TokenKind

/-- Does the next token reach into no expression of this level before it? -/
def Ends (level : Nat) (rest : List Token) : Prop := ∀ k, next rest = some k → k.reach < level

theorem Ends.mono {l m : Nat} {rest : List Token} (h : Ends l rest) (hlm : l ≤ m) : Ends m rest :=
  fun k hk => Nat.lt_of_lt_of_le (h k hk) hlm

theorem ends_cons {l : Nat} {t : Token} {ts : List Token} (h : t.kind.reach < l) :
    Ends l (t :: ts) := by
  rintro k ⟨⟩
  exact h

theorem ends_of_next {l : Nat} {ts : List Token} {j k : TokenKind}
    (h : next ts = some j ∨ next ts = some k) (hj : j.reach < l) (hk : k.reach < l) :
    Ends l ts := by
  intro i hi
  rcases h with h | h <;> rw [h] at hi <;> cases hi
  · exact hj
  · exact hk

/-! ## First tokens -/

namespace Form

/-- Can a token of this kind be the first one that spells a form? Asked only of forms that are never
empty and no lists. -/
def starts : Form → TokenKind → Prop
  | .phrase _ _, k => k.startsPhrase
  | .name _, k | .declarator _, k => k = .name
  | .entry _, k => k = .name ∨ k.isLiteralKey
  | .arrowBody _, k => k.startsPhrase ∨ k = .blockOpen
  | .value _, k => k = .assign
  | .block _, k => k = .blockOpen
  | .init _, k => k.declares ∨ k.startsPhrase
  | .handler _, k => k = .keyword .catch
  | .finalizer _, k => k = .keyword .finally
  | .alternate _, k => k = .keyword .else
  | .stmt _, k => k.startsStatement
  | .parens _, k => k = .lparen
  | _, _ => True

/-- Is this a form that is never empty, and no list? -/
def isSolid : Form → Bool
  | .path _ | .more _ | .opt _ | .commas _ | .items _ | .list _ | .stmts _ => false
  | _ => true

end Form

namespace TokenKind

theorem startsPhrase_of_isConstant {k : TokenKind} (h : k.isConstant) : k.startsPhrase := by
  rcases k with _ | _ | _ | k | _ <;> first | (cases k <;> first | rfl | cases h) | cases h

theorem startsPhrase_of_isUnaryOperator {k : TokenKind} (h : Grammar.isUnaryOperator k) :
    k.startsPhrase := by
  rcases k with _ | _ | _ | k | _ <;>
    first | rfl | (cases k <;> first | rfl | cases h) | cases h

theorem startsStatement_of_startsPhrase {k : TokenKind} (h : k.startsPhrase) :
    k.startsStatement := by
  rcases k with _ | _ | _ | k | _ <;>
    first | rfl | (cases k <;> first | rfl | cases h) | cases h

theorem startsStatement_of_declares {k : TokenKind} (h : k.declares) : k.startsStatement := by
  rcases k with _ | _ | _ | k | _ <;> first | (cases k <;> first | rfl | cases h) | cases h

end TokenKind

theorem Spells.starts {f : Form} {ts : List Token} (h : Spells f ts) (hf : f.isSolid) :
    ∃ t us, ts = t :: us ∧ f.starts t.kind := by
  induction h with
  | nameRef ht | number ht | string ht | this ht =>
    exact ⟨_, _, rfl, by simp [Form.starts, ht, TokenKind.startsPhrase]⟩
  | constant ht => exact ⟨_, _, rfl, TokenKind.startsPhrase_of_isConstant ht⟩
  | unary ho _ => exact ⟨_, _, rfl, TokenKind.startsPhrase_of_isUnaryOperator ho⟩
  | group hl | array hl | object hl | function hl | construct hl | arrowName hl | arrow hl =>
    exact ⟨_, _, rfl, by simp [Form.starts, hl, TokenKind.startsPhrase]⟩
  | member _ _ _ _ ih | index _ _ _ _ ih | call _ _ _ ih | update _ _ ih | binary _ _ _ ih
  | conditional _ _ _ _ _ ih | assignment _ _ _ ih | lift _ _ ih =>
    obtain ⟨t, us, rfl, ht⟩ := ih rfl
    exact ⟨t, _, rfl, ht⟩
  | arrowBlock _ ih =>
    obtain ⟨t, us, rfl, ht⟩ := ih rfl
    exact ⟨t, _, rfl, .inr ht⟩
  | arrowPhrase _ ih =>
    obtain ⟨t, us, rfl, ht⟩ := ih rfl
    exact ⟨t, _, rfl, .inl ht⟩
  | initPhrase _ ih =>
    obtain ⟨t, us, rfl, ht⟩ := ih rfl
    exact ⟨t, _, rfl, .inr ht⟩
  | initDecl hk => exact ⟨_, _, rfl, .inl hk⟩
  | shorthand ht => exact ⟨_, _, rfl, .inl ht⟩
  | name h | declarator h | pair h | parens h | value h | block h | handler h | finalizer h
  | alternate h => exact ⟨_, _, rfl, h⟩
  | declaration hk => exact ⟨_, _, rfl, TokenKind.startsStatement_of_declares hk⟩
  | expression _ _ ih =>
    obtain ⟨t, us, rfl, ht⟩ := ih rfl
    exact ⟨t, _, rfl, TokenKind.startsStatement_of_startsPhrase ht⟩
  | «return» hk | «if» hk | «while» hk | «for» hk | forOf hk | functionDecl hk | «break» hk
  | «continue» hk | throw hk | «try» hk =>
    exact ⟨_, _, rfl, by simp [Form.starts, hk, TokenKind.startsStatement]⟩
  | blockStmt _ ih =>
    obtain ⟨t, us, rfl, ht⟩ := ih rfl
    exact ⟨t, _, rfl, by rw [Form.starts, show t.kind = .blockOpen from ht]; rfl⟩
  | _ => cases hf

/-- There are twelve levels. -/
theorem Spells.level_le {l : Nat} {p : Phrase} {ts : List Token} (h : Spells (.phrase l p) ts) :
    l ≤ 12 := by
  generalize hf : Form.phrase l p = f at h
  induction h generalizing l p <;> cases hf <;> try decide
  case binary ho _ _ _ _ => exact Nat.le_trans (TokenKind.operatorLevel_bounds ho).2 (by decide)
  case lift ih => exact Nat.le_of_succ_le (ih rfl)

/-- What binds tighter than the operators before an operand begins with none of them. -/
theorem Spells.not_unary {l : Nat} {p : Phrase} {ts : List Token} (h : Spells (.phrase l p) ts)
    (hl : 10 ≤ l) : ∃ t us, ts = t :: us ∧ Grammar.isUnaryOperator t.kind = false := by
  generalize hf : Form.phrase l p = f at h
  induction h generalizing l p <;> cases hf
  case nameRef ht | number ht | string ht | this ht =>
    exact ⟨_, _, rfl, by rw [ht]; rfl⟩
  case constant t ht =>
    refine ⟨_, _, rfl, ?_⟩
    rcases hk : t.kind with _ | _ | _ | k | _ <;> rw [hk] at ht <;> first | cases ht | skip
    cases k <;> first | rfl | cases ht
  case group hlp _ _ _ | array hlp _ _ _ | object hlp _ _ _ | construct hlp _ _ _ _ _ =>
    exact ⟨_, _, rfl, by rw [hlp]; rfl⟩
  case function hk _ _ _ _ _ _ => exact ⟨_, _, rfl, by rw [hk]; rfl⟩
  case member ih | index ih _ | call ih _ | update ih =>
    obtain ⟨t, us, rfl, ht⟩ := ih (by decide) rfl
    exact ⟨t, _, rfl, ht⟩
  case lift ih =>
    obtain ⟨t, us, rfl, ht⟩ := ih (by omega) rfl
    exact ⟨t, _, rfl, ht⟩
  case binary ho _ _ _ _ => exact absurd (TokenKind.operatorLevel_bounds ho).2 (by omega)
  all_goals omega

/-- A list of statements begins like a statement or with a stray terminator. -/
theorem Spells.starts_stmts {ss : List Statement} {ts : List Token} (h : Spells (.stmts ss) ts) :
    ts = [] ∨ ∃ t us, ts = t :: us ∧ (t.kind.startsStatement ∨ t.kind = .terminator) := by
  cases h with
  | stmtsNil => exact .inl rfl
  | stray ht => exact .inr ⟨_, _, rfl, .inr ht⟩
  | stmts h _ =>
    obtain ⟨t, us, rfl, ht⟩ := h.starts rfl
    exact .inr ⟨t, _, rfl, .inl ht⟩

theorem Spells.items_cons {f : Form} {fs : List Form} {ts : List Token}
    (h : Spells (.items (f :: fs)) ts) : ∃ us vs, ts = us ++ vs ∧ Spells f us ∧
      ((fs = [] ∧ vs = []) ∨ ∃ c ws, vs = c :: ws ∧ c.kind = .comma ∧ Spells (.items fs) ws) := by
  cases h with
  | itemsLast h => exact ⟨ts, [], by simp, h, .inl ⟨rfl, rfl⟩⟩
  | items h hc hs => exact ⟨_, _, rfl, h, .inr ⟨_, _, rfl, hc, hs⟩⟩

namespace Grammar

/-- The operators of a level and of tighter ones. -/
def operatorsFrom (l : Nat) : List TokenKind := binaryOperators.drop (l - 3)

theorem operatorsFrom_three : operatorsFrom 3 = binaryOperators := rfl

theorem operatorsFrom_cons {l : Nat} (h3 : 3 ≤ l) (h9 : l < 9) :
    ∃ k, operatorsFrom l = k :: operatorsFrom (l + 1) ∧
      ∀ j : TokenKind, j.operatorLevel? = some l ↔ j = k := by
  obtain rfl | rfl | rfl | rfl | rfl | rfl : l = 3 ∨ l = 4 ∨ l = 5 ∨ l = 6 ∨ l = 7 ∨ l = 8 := by
    omega
  · exact ⟨.logicOr, rfl, fun j => by cases j <;> simp [TokenKind.operatorLevel?]⟩
  · exact ⟨.logicAnd, rfl, fun j => by cases j <;> simp [TokenKind.operatorLevel?]⟩
  · exact ⟨.equality, rfl, fun j => by cases j <;> simp [TokenKind.operatorLevel?]⟩
  · exact ⟨.comparison, rfl, fun j => by cases j <;> simp [TokenKind.operatorLevel?]⟩
  · exact ⟨.addOp, rfl, fun j => by cases j <;> simp [TokenKind.operatorLevel?]⟩
  · exact ⟨.mulOp, rfl, fun j => by cases j <;> simp [TokenKind.operatorLevel?]⟩

end Grammar

end AutoAwait
