import AutoAwait.Proofs.Grammar.Basic

/-!
# The rules of the grammar

The grammar as it is published: for each name a rule, whose right side is put together from tokens
and names by sequence, choice, option and repetition. The rules leave open to which `if` an `else`
belongs and how much `new` takes, and say nothing of trees.

* `Nonterminal.body` are the rules, `Derives` says which tokens can be derived from a name;
* `Derives.induction` is the induction over derivations;
* `Spells.derives` says that what tokens spell can be derived.
-/

namespace AutoAwait

/-- The names of the rules. -/
inductive Nonterminal where
  | program | stmt | block | exprStmt | varDecl | declKind | declarator | returnStmt | breakStmt
  | continueStmt | throwStmt | ifStmt | whileStmt | forStmt | forInit | forTest | forUpdate
  | forOfStmt | tryStmt | catchClause | finallyClause | funcDecl | params | expr | assign
  | arrowParams | arrowBody | conditional | logicOr | logicAnd | equality | comparison | additive
  | multiplicative | unary | update | callMember | arguments | primary | array | object | prop
  | propKey | functionExpr | newExpr | newTarget

/-- The right side of a rule. -/
inductive Ebnf where
  | token (k : TokenKind)
  | rule (n : Nonterminal)
  | seq (es : List Ebnf)
  | alt (es : List Ebnf)
  | opt (e : Ebnf)
  | star (e : Ebnf)

namespace Ebnf

/-- A reserved word. -/
abbrev word (k : Keyword) : Ebnf := .token (.keyword k)

/-- What follows the first element of a list with commas between the elements. -/
abbrev moreOf (e : Ebnf) : Ebnf := .star (.seq [.token .comma, e])

/-- A list of at least one element with commas between them. -/
abbrev listOf (e : Ebnf) : Ebnf := .seq [e, moreOf e]

/-- A list with commas between the elements and perhaps one at the end, perhaps empty. -/
abbrev itemsOf (e : Ebnf) : Ebnf := .opt (.seq [e, moreOf e, .opt (.token .comma)])

/-- Statements and stray terminators. -/
abbrev statements : Ebnf := .star (.alt [.rule .stmt, .token .terminator])

/-- A left-associative operator: the level `same` is `tighter`, or has it on the right. -/
abbrev operators (same tighter : Nonterminal) (op : TokenKind) : Ebnf :=
  .alt [.rule tighter, .seq [.rule same, .token op, .rule tighter]]

end Ebnf

open Ebnf in
/-- The rules. -/
def Nonterminal.body : Nonterminal → Ebnf
  | .program => statements
  | .stmt => .alt [.seq [.rule .varDecl, .token .terminator], .rule .exprStmt, .rule .returnStmt,
      .rule .ifStmt, .rule .whileStmt, .rule .forStmt, .rule .forOfStmt, .rule .funcDecl,
      .rule .block, .rule .breakStmt, .rule .continueStmt, .rule .throwStmt, .rule .tryStmt]
  | .block => .seq [.token .blockOpen, statements, .token .rbrace]
  | .exprStmt => .seq [.rule .expr, .token .terminator]
  | .varDecl => .seq [.rule .declKind, listOf (.rule .declarator)]
  | .declKind => .alt [word .let, word .const, word .var]
  | .declarator => .seq [.token .name, .opt (.seq [.token .assign, .rule .assign])]
  | .returnStmt => .seq [word .return, .opt (.rule .expr), .token .terminator]
  | .breakStmt => .seq [word .break, .token .terminator]
  | .continueStmt => .seq [word .continue, .token .terminator]
  | .throwStmt => .seq [word .throw, .rule .expr, .token .terminator]
  | .ifStmt => .seq [word .if, .token .lparen, .rule .expr, .token .rparen, .rule .stmt,
      .opt (.seq [word .else, .rule .stmt])]
  | .whileStmt => .seq [word .while, .token .lparen, .rule .expr, .token .rparen, .rule .stmt]
  | .forStmt => .seq [word .for, .token .lparen, .opt (.rule .forInit), .token .semicolon,
      .opt (.rule .forTest), .token .semicolon, .opt (.rule .forUpdate), .token .rparen,
      .rule .stmt]
  | .forInit => .alt [.rule .varDecl, .rule .expr]
  | .forTest => .rule .expr
  | .forUpdate => .rule .expr
  | .forOfStmt => .seq [word .for, .token .lparen, .rule .declKind, .token .name, word .of,
      .rule .expr, .token .rparen, .rule .stmt]
  | .tryStmt => .seq [word .try, .rule .block, .opt (.rule .catchClause),
      .opt (.rule .finallyClause)]
  | .catchClause => .seq [word .catch, .opt (.seq [.token .lparen, .token .name, .token .rparen]),
      .rule .block]
  | .finallyClause => .seq [word .finally, .rule .block]
  | .funcDecl => .seq [.token .functionDecl, .token .name, .token .lparen, .opt (.rule .params),
      .token .rparen, .rule .block]
  | .params => listOf (.token .name)
  | .expr => .rule .assign
  | .assign => .alt [.rule .conditional, .seq [.rule .callMember, .token .assign, .rule .assign],
      .seq [.rule .callMember, .token .compoundAssign, .rule .assign],
      .seq [.rule .arrowParams, .token .arrow, .rule .arrowBody]]
  | .arrowParams => .alt [.token .name, .seq [.token .lparen, .token .rparen],
      .seq [.token .lparen, listOf (.rule .expr), .token .rparen]]
  | .arrowBody => .alt [.rule .block, .rule .assign]
  | .conditional => .alt [.rule .logicOr, .seq [.rule .logicOr, .token .question, .rule .assign,
      .token .colon, .rule .assign]]
  | .logicOr => operators .logicOr .logicAnd .logicOr
  | .logicAnd => operators .logicAnd .equality .logicAnd
  | .equality => operators .equality .comparison .equality
  | .comparison => operators .comparison .additive .comparison
  | .additive => operators .additive .multiplicative .addOp
  | .multiplicative => operators .multiplicative .unary .mulOp
  | .unary => .alt [.rule .update, .seq [.token .addOp, .rule .unary],
      .seq [.token .bang, .rule .unary], .seq [word .typeof, .rule .unary],
      .seq [word .await, .rule .unary]]
  | .update => .alt [.rule .callMember, .seq [.rule .callMember, .token .incDec]]
  | .callMember => .alt [.rule .primary, .seq [.rule .callMember, .token .dot, .token .name],
      .seq [.rule .callMember, .token .lbracket, .rule .expr, .token .rbracket],
      .seq [.rule .callMember, .rule .arguments]]
  | .arguments => .seq [.token .lparen, .opt (listOf (.rule .expr)), .token .rparen]
  | .primary => .alt [.token .name, .token .number, .token .string, word .true, word .false,
      word .null, word .this, .seq [.token .lparen, .rule .expr, .token .rparen], .rule .array,
      .rule .object, .rule .functionExpr, .rule .newExpr]
  | .array => .seq [.token .lbracket, itemsOf (.rule .expr), .token .rbracket]
  | .object => .seq [.token .lbrace, itemsOf (.rule .prop), .token .rbrace]
  | .prop => .alt [.seq [.rule .propKey, .token .colon, .rule .expr], .token .name]
  | .propKey => .alt [.token .name, .token .string, .token .number]
  | .functionExpr => .seq [word .function, .opt (.token .name), .token .lparen,
      .opt (.rule .params), .token .rparen, .rule .block]
  | .newExpr => .seq [word .new, .rule .newTarget, .opt (.rule .arguments)]
  | .newTarget => .seq [.token .name, .star (.seq [.token .dot, .token .name])]

/-! ## Derivations -/

/-- Which tokens match the right side of a rule, where `M` says which tokens a name stands for. -/
inductive Matches (M : Nonterminal → List Token → Prop) : Ebnf → List Token → Prop
  | token {k t} (h : t.kind = k) : Matches M (.token k) [t]
  | rule {n ts} (h : M n ts) : Matches M (.rule n) ts
  | nil : Matches M (.seq []) []
  | cons {e es ts us} (h : Matches M e ts) (hs : Matches M (.seq es) us) :
      Matches M (.seq (e :: es)) (ts ++ us)
  | alt {e es ts} (he : e ∈ es) (h : Matches M e ts) : Matches M (.alt es) ts
  | none {e} : Matches M (.opt e) []
  | some {e ts} (h : Matches M e ts) : Matches M (.opt e) ts
  | done {e} : Matches M (.star e) []
  | more {e ts us} (h : Matches M e ts) (hs : Matches M (.star e) us) :
      Matches M (.star e) (ts ++ us)

/-- Which tokens can be derived from a name. -/
inductive Derives : Nonterminal → List Token → Prop
  | of_body {n ts} (h : Matches Derives n.body ts) : Derives n ts

/-- What holds of all that matches a rule, if it holds of the parts that are derived from names,
holds of all that can be derived. -/
theorem Derives.induction {M : Nonterminal → List Token → Prop}
    (step : ∀ n ts, Matches M n.body ts → M n ts) {n : Nonterminal} {ts : List Token}
    (h : Derives n ts) : M n ts := by
  induction h using Derives.rec (motive_2 := fun e ts _ => Matches M e ts) with
  | of_body _ ih => exact step _ _ ih
  | token h => exact .token h
  | rule _ ih => exact .rule ih
  | nil => exact .nil
  | cons _ _ ih ihs => exact .cons ih ihs
  | alt he _ ih => exact .alt he ih
  | none => exact .none
  | some _ ih => exact .some ih
  | done => exact .done
  | more _ _ ih ihs => exact .more ih ihs

namespace Matches

variable {M : Nonterminal → List Token → Prop} {e : Ebnf} {es fs : List Ebnf} {ts us : List Token}

theorem congr (h : Matches M e ts) (he : ts = us) : Matches M e us := he ▸ h

/-- A choice by the number of the alternative. -/
theorem nth (i : Nat) (he : es[i]? = Option.some e) (h : Matches M e ts) : Matches M (.alt es) ts :=
  .alt (List.mem_of_getElem? he) h

/-- An option of one kind as an option of another kind. -/
theorem opt {e' : Ebnf} (h : Matches M (.opt e) ts) (he : Matches M e ts → Matches M e' ts) :
    Matches M (.opt e') ts := by
  cases h with
  | none => exact .none
  | some h => exact .some (he h)

theorem append (h : Matches M (.seq es) ts) (hs : Matches M (.seq fs) us) :
    Matches M (.seq (es ++ fs)) (ts ++ us) := by
  generalize he : Ebnf.seq es = e at h
  induction h generalizing es with
  | nil =>
    cases he
    exact hs
  | cons h _ _ ih =>
    cases he
    rw [List.append_assoc]
    exact .cons h (ih rfl)
  | _ => cases he

/-- One more item in front of others. -/
theorem items {c : Token} (h : Matches M e ts) (hc : c.kind = .comma)
    (hs : Matches M (.itemsOf e) us) : Matches M (.itemsOf e) (ts ++ c :: us) := by
  cases hs with
  | none => exact .some (.cons h (.cons .done (.cons (.some (.token hc)) .nil)))
  | some hs =>
    cases hs with
    | cons hf hs =>
      cases hs with
      | cons hm hl =>
        have hmore := Matches.more (.cons (.token hc) (.cons hf .nil)) hm
        exact .some (.congr (.cons h (.cons hmore hl)) (by simp))

/-- What can be derived from the body of a rule can be derived from its name. -/
theorem derive {n : Nonterminal} (h : Matches Derives n.body ts) : Matches Derives (.rule n) ts :=
  .rule (.of_body h)

end Matches

/-! ## What is spelled can be derived -/

/-- The rule for the expressions of a level. -/
def levelRule : Nat → Nonterminal
  | 1 => .expr
  | 2 => .conditional
  | 3 => .logicOr
  | 4 => .logicAnd
  | 5 => .equality
  | 6 => .comparison
  | 7 => .additive
  | 8 => .multiplicative
  | 9 => .unary
  | 10 => .update
  | 11 => .callMember
  | _ => .primary

/-- What a form is in the grammar. -/
inductive Form.IsOf : Form → Ebnf → Prop
  | phrase {l p} : IsOf (.phrase l p) (.rule (levelRule l))
  | name {t} : IsOf (.name t) (.token .name)
  | path {ts} : IsOf (.path ts) (.star (.seq [.token .dot, .token .name]))
  | entry {e} : IsOf (.entry e) (.rule .prop)
  | arrowBody {b} : IsOf (.arrowBody b) (.rule .arrowBody)
  | value {p} : IsOf (.value p) (.seq [.token .assign, .rule .assign])
  | declarator {d} : IsOf (.declarator d) (.rule .declarator)
  | block {b} : IsOf (.block b) (.rule .block)
  | init {i} : IsOf (.init i) (.rule .forInit)
  | handler {h} : IsOf (.handler h) (.rule .catchClause)
  | finalizer {b} : IsOf (.finalizer b) (.rule .finallyClause)
  | alternate {s} : IsOf (.alternate s) (.seq [.word .else, .rule .stmt])
  | stmt {s} : IsOf (.stmt s) (.rule .stmt)
  | stmts {ss} : IsOf (.stmts ss) .statements
  | parens {f e} (h : IsOf f e) : IsOf (.parens f) (.seq [.token .lparen, e, .token .rparen])
  | optNone {e} : IsOf (.opt none) (.opt e)
  | optSome {f e} (h : IsOf f e) : IsOf (.opt (some f)) (.opt e)
  | commas {fs e} (h : ∀ f ∈ fs, IsOf f e) : IsOf (.commas fs) (.listOf e)
  | more {fs e} (h : ∀ f ∈ fs, IsOf f e) : IsOf (.more fs) (.moreOf e)
  | list {fs e} (h : ∀ f ∈ fs, IsOf f e) : IsOf (.list fs) (.opt (.listOf e))
  | items {fs e} (h : ∀ f ∈ fs, IsOf f e) : IsOf (.items fs) (.itemsOf e)

namespace Form.IsOf

theorem map {α : Type} {c : α → Form} {e : Ebnf} (h : ∀ a, (c a).IsOf e) (as : List α) :
    ∀ f ∈ as.map c, f.IsOf e := by
  simp only [List.mem_map]
  rintro _ ⟨a, -, rfl⟩
  exact h a

theorem optMap {α : Type} {c : α → Form} {e : Ebnf} (h : ∀ a, (c a).IsOf e) (o : Option α) :
    (Form.opt (o.map c)).IsOf (.opt e) := by
  cases o with
  | none => exact .optNone
  | some a => exact .optSome (h a)

theorem args (ps : List Phrase) : (Form.args ps).IsOf Nonterminal.arguments.body :=
  .parens (.list (map (fun _ => .phrase) ps))

theorem params (ts : List Token) :
    (Form.params ts).IsOf (.seq [.token .lparen, .opt (.listOf (.token .name)), .token .rparen]) :=
  .parens (.list (map (fun _ => .name) ts))

end Form.IsOf

namespace Derives

variable {ts us : List Token} {k : Token}

/-- Any expression can be assigned. -/
theorem assign (h : Matches Derives (.rule .expr) ts) : Matches Derives (.rule .assign) ts := by
  cases h with
  | rule h =>
    cases h with
    | of_body h => exact h

theorem expr (h : Matches Derives (.rule .assign) ts) : Matches Derives (.rule .expr) ts :=
  .derive h

/-- What binds tightly can be derived where looser expressions can. -/
theorem lift {l : Nat} (hl : 1 ≤ l) (h : Matches Derives (.rule (levelRule (l + 1))) ts) :
    Matches Derives (.rule (levelRule l)) ts := by
  match l with
  | 1 => exact expr (.derive (.nth 0 rfl h))
  | 2 | 3 | 4 | 5 | 6 | 7 | 8 | 9 | 10 | 11 => exact .derive (.nth 0 rfl h)
  | _ + 12 => exact h

theorem lift_add {l : Nat} (hl : 1 ≤ l) (d : Nat)
    (h : Matches Derives (.rule (levelRule (l + d))) ts) :
    Matches Derives (.rule (levelRule l)) ts := by
  induction d with
  | zero => exact h
  | succ d ih => exact ih (lift (by omega) h)

theorem binary {l : Nat} (ho : k.kind.operatorLevel? = some l)
    (h : Matches Derives (.rule (levelRule l)) ts)
    (hr : Matches Derives (.rule (levelRule (l + 1))) us) :
    Matches Derives (.rule (levelRule l)) (ts ++ k :: us) := by
  have he : (levelRule l).body = .operators (levelRule l) (levelRule (l + 1)) k.kind := by
    unfold TokenKind.operatorLevel? at ho
    split at ho
    case h_7 => cases ho
    all_goals
      cases ho
      rw [‹k.kind = _›]
      rfl
  refine .derive (he ▸ .nth 1 rfl ?_)
  exact .congr (.cons h (.cons (.token rfl) (.cons hr .nil))) (by simp)

theorem unary (ho : Grammar.isUnaryOperator k.kind) (h : Matches Derives (.rule .unary) ts) :
    Matches Derives (.rule .unary) (k :: ts) := by
  have hs := Matches.cons h .nil
  unfold Grammar.isUnaryOperator at ho
  split at ho
  · exact .derive (.nth 1 rfl (.congr (.cons (.token ‹_›) hs) (by simp)))
  · exact .derive (.nth 2 rfl (.congr (.cons (.token ‹_›) hs) (by simp)))
  · exact .derive (.nth 3 rfl (.congr (.cons (.token ‹_›) hs) (by simp)))
  · exact .derive (.nth 4 rfl (.congr (.cons (.token ‹_›) hs) (by simp)))
  · cases ho

theorem assignment (ho : k.kind.assigns) (h : Matches Derives (.rule .callMember) ts)
    (hv : Matches Derives (.rule .expr) us) : Matches Derives (.rule .expr) (ts ++ k :: us) := by
  have hvs := Matches.cons (assign hv) .nil
  unfold TokenKind.assigns at ho
  split at ho
  · exact expr (.derive (.nth 1 rfl (.congr (.cons h (.cons (.token ‹_›) hvs)) (by simp))))
  · exact expr (.derive (.nth 2 rfl (.congr (.cons h (.cons (.token ‹_›) hvs)) (by simp))))
  · cases ho

theorem params (h : Matches Derives
      (.seq [.token .lparen, .opt (.listOf (.token .name)), .token .rparen]) ts) :
    Matches Derives (.seq [.token .lparen, .opt (.rule .params), .token .rparen]) ts := by
  cases h with
  | cons hl h =>
    cases h with
    | cons h hr => exact .cons hl (.cons (h.opt fun h => Matches.derive (n := .params) h) hr)

/-- What stands in parentheses can be parameters of an arrow function. -/
theorem arrowParams {l r : Token} (hl : l.kind = .lparen)
    (h : Matches Derives (.opt (.listOf (.rule .expr))) ts) (hr : r.kind = .rparen) :
    Matches Derives (.rule .arrowParams) (l :: ts ++ [r]) := by
  cases h with
  | none => exact .derive (.nth 1 rfl (.cons (.token hl) (.cons (.token hr) .nil)))
  | some h =>
    refine .derive (.nth 2 rfl ?_)
    exact .congr (.cons (.token hl) (.cons h (.cons (.token hr) .nil))) (by simp)

theorem propKey (hk : k.kind = .name ∨ k.kind.isLiteralKey) :
    Matches Derives (.rule .propKey) [k] := by
  obtain hk | hk := hk
  · exact .derive (.nth 0 rfl (.token hk))
  · unfold TokenKind.isLiteralKey at hk
    split at hk
    · exact .derive (.nth 1 rfl (.token ‹_›))
    · exact .derive (.nth 2 rfl (.token ‹_›))
    · cases hk

theorem declKind (hk : k.kind.declares) : Matches Derives (.rule .declKind) [k] := by
  unfold TokenKind.declares at hk
  split at hk
  · exact .derive (.nth 0 rfl (.token ‹_›))
  · exact .derive (.nth 1 rfl (.token ‹_›))
  · exact .derive (.nth 2 rfl (.token ‹_›))
  · cases hk

theorem varDecl (hk : k.kind.declares) (h : Matches Derives (.listOf (.rule .declarator)) ts) :
    Matches Derives (.rule .varDecl) (k :: ts) :=
  .derive (.congr (.cons (declKind hk) (.cons h .nil)) (by simp))

end Derives

/-- What is spelled can be derived. -/
theorem Spells.matches {f : Form} {ts : List Token} (h : Spells f ts) {e : Ebnf} (hfe : f.IsOf e) :
    Matches Derives e ts := by
  induction h generalizing e with
  | nameRef ht =>
    cases hfe
    exact .derive (.nth 0 rfl (.token ht))
  | number ht =>
    cases hfe
    exact .derive (.nth 1 rfl (.token ht))
  | string ht =>
    cases hfe
    exact .derive (.nth 2 rfl (.token ht))
  | constant ht =>
    cases hfe
    unfold TokenKind.isConstant at ht
    split at ht
    · exact .derive (.nth 3 rfl (.token ‹_›))
    · exact .derive (.nth 4 rfl (.token ‹_›))
    · exact .derive (.nth 5 rfl (.token ‹_›))
    · cases ht
  | this ht =>
    cases hfe
    exact .derive (.nth 6 rfl (.token ht))
  | group hl h hr ih =>
    cases hfe
    refine .derive (.nth 7 rfl ?_)
    exact .congr (.cons (.token hl) (.cons (ih .phrase) (.cons (.token hr) .nil))) (by simp)
  | array hl h hr ih =>
    cases hfe
    have hi := ih (.items (.map (fun _ => .phrase) _))
    refine .derive (.nth 8 rfl (.derive ?_))
    exact .congr (.cons (.token hl) (.cons hi (.cons (.token hr) .nil))) (by simp)
  | object hl h hr ih =>
    cases hfe
    have hi := ih (.items (.map (fun _ => .entry) _))
    refine .derive (.nth 9 rfl (.derive ?_))
    exact .congr (.cons (.token hl) (.cons hi (.cons (.token hr) .nil))) (by simp)
  | function hk hn hp hb ihn ihp ihb =>
    cases hfe
    have hps := Derives.params (ihp (.params _))
    refine .derive (.nth 10 rfl (.derive ?_))
    exact .congr (.append (.cons (.token hk) (.cons (ihn (.optMap (fun _ => .name) _)) .nil))
      (.append hps (.cons (ihb .block) .nil))) (by simp)
  | construct hk ht hp ha ihp iha =>
    cases hfe
    have htarget := Matches.derive (n := .newTarget) (.cons (.token ht) (.cons (ihp .path) .nil))
    have hargs := (iha (.optMap .args _)).opt fun h => Matches.derive (n := .arguments) h
    refine .derive (.nth 11 rfl (.derive ?_))
    exact .congr (.cons (.token hk) (.cons htarget (.cons hargs .nil))) (by simp)
  | member ho hn hd ht ih =>
    cases hfe
    refine .derive (.nth 1 rfl ?_)
    exact .cons (ih .phrase) (.cons (.token hd) (.cons (.token ht) .nil))
  | index ho hl hk hr iho ihk =>
    cases hfe
    refine .derive (.nth 2 rfl ?_)
    exact .congr (.cons (iho .phrase)
      (.cons (.token hl) (.cons (ihk .phrase) (.cons (.token hr) .nil)))) (by simp)
  | call hc hn ha ihc iha =>
    cases hfe
    refine .derive (.nth 3 rfl ?_)
    exact .congr (.cons (ihc .phrase) (.cons (.derive (n := .arguments) (iha (.args _))) .nil))
      (by simp)
  | update h ho ih =>
    cases hfe
    exact .derive (.nth 1 rfl (.cons (ih .phrase) (.cons (.token ho) .nil)))
  | unary ho h ih =>
    cases hfe
    exact Derives.unary ho (ih .phrase)
  | binary ho ha hb iha ihb =>
    cases hfe
    exact Derives.binary ho (iha .phrase) (ihb .phrase)
  | conditional ht hq hc hd ha iht ihc iha =>
    cases hfe
    refine .derive (.nth 1 rfl ?_)
    exact .congr (.cons (iht .phrase) (.cons (.token hq) (.cons (Derives.assign (ihc .phrase))
      (.cons (.token hd) (.cons (Derives.assign (iha .phrase)) .nil))))) (by simp)
  | assignment ht ho hv iht ihv =>
    cases hfe
    exact Derives.assignment ho (iht .phrase) (ihv .phrase)
  | arrowName ht ha hb ih =>
    cases hfe
    have hps := Matches.derive (n := .arrowParams) (.nth 0 rfl (.token ht))
    refine Derives.expr (.derive (.nth 3 rfl ?_))
    exact .congr (.cons hps (.cons (.token ha) (.cons (ih .arrowBody) .nil))) (by simp)
  | arrow hl h hr ha hb ih ihb =>
    cases hfe
    have hps := Derives.arrowParams hl (ih (.list (.map (fun _ => .phrase) _))) hr
    refine Derives.expr (.derive (.nth 3 rfl ?_))
    exact .congr (.cons hps (.cons (.token ha) (.cons (ihb .arrowBody) .nil))) (by simp)
  | lift hl h ih =>
    cases hfe
    exact Derives.lift hl (ih .phrase)
  | arrowBlock h ih =>
    cases hfe
    exact .derive (.nth 0 rfl (ih .block))
  | arrowPhrase h ih =>
    cases hfe
    exact .derive (.nth 1 rfl (Derives.assign (ih .phrase)))
  | name ht =>
    cases hfe
    exact .token ht
  | pathNil =>
    cases hfe
    exact .done
  | path hd ht h ih =>
    cases hfe
    exact .congr (.more (.cons (.token hd) (.cons (.token ht) .nil)) (ih .path)) (by simp)
  | shorthand ht =>
    cases hfe
    exact .derive (.nth 1 rfl (.token ht))
  | pair ht hc h ih =>
    cases hfe
    refine .derive (.nth 0 rfl ?_)
    exact .congr (.cons (Derives.propKey ht) (.cons (.token hc) (.cons (ih .phrase) .nil)))
      (by simp)
  | parens hl h hr ih =>
    cases hfe with
    | parens hf =>
      exact .congr (.cons (.token hl) (.cons (ih hf) (.cons (.token hr) .nil))) (by simp)
  | optNone =>
    cases hfe
    exact .none
  | optSome h ih =>
    cases hfe with
    | optSome hf => exact .some (ih hf)
  | commas h hs ih ihs =>
    cases hfe with
    | commas hfs =>
      rw [List.forall_mem_cons] at hfs
      exact .congr (.cons (ih hfs.1) (.cons (ihs (.more hfs.2)) .nil)) (by simp)
  | moreNil =>
    cases hfe
    exact .done
  | more hc h hs ih ihs =>
    cases hfe with
    | more hfs =>
      rw [List.forall_mem_cons] at hfs
      exact .congr (.more (.cons (.token hc) (.cons (ih hfs.1) .nil)) (ihs (.more hfs.2))) (by simp)
  | listNil =>
    cases hfe
    exact .none
  | list h ih =>
    cases hfe with
    | list hfs => exact .some (ih (.commas hfs))
  | itemsNil =>
    cases hfe
    exact .none
  | itemsLast h ih =>
    cases hfe with
    | items hfs =>
      exact .some (.congr (.cons (ih (hfs _ (.head _))) (.cons .done (.cons .none .nil))) (by simp))
  | items h hc hs ih ihs =>
    cases hfe with
    | items hfs =>
      rw [List.forall_mem_cons] at hfs
      exact (ih hfs.1).items hc (ihs (.items hfs.2))
  | value he h ih =>
    cases hfe
    exact .congr (.cons (.token he) (.cons (Derives.assign (ih .phrase)) .nil)) (by simp)
  | declarator ht h ih =>
    cases hfe
    exact .derive (.congr (.cons (.token ht) (.cons (ih (.optMap (fun _ => .value) _)) .nil))
      (by simp))
  | block hl h hr ih =>
    cases hfe
    refine .derive ?_
    exact .congr (.cons (.token hl) (.cons (ih .stmts) (.cons (.token hr) .nil))) (by simp)
  | initDecl hk h ih =>
    cases hfe
    exact .derive (.nth 0 rfl (Derives.varDecl hk (ih (.commas (.map (fun _ => .declarator) _)))))
  | initPhrase h ih =>
    cases hfe
    exact .derive (.nth 1 rfl (ih .phrase))
  | handler hk hp hb ihp ihb =>
    cases hfe
    refine .derive ?_
    exact .congr (.cons (.token hk) (.cons (ihp (.optMap (fun _ => .parens .name) _))
      (.cons (ihb .block) .nil))) (by simp)
  | finalizer hk hb ih =>
    cases hfe
    exact .derive (.congr (.cons (.token hk) (.cons (ih .block) .nil)) (by simp))
  | alternate hk h ih =>
    cases hfe
    exact .congr (.cons (.token hk) (.cons (ih .stmt) .nil)) (by simp)
  | stmtsNil =>
    cases hfe
    exact .done
  | stray ht h ih =>
    cases hfe
    exact .more (.nth 1 rfl (.token ht)) (ih .stmts)
  | stmts h hs ih ihs =>
    cases hfe
    exact .more (.nth 0 rfl (ih .stmt)) (ihs .stmts)
  | declaration hk h he ih =>
    cases hfe
    have hd := Derives.varDecl hk (ih (.commas (.map (fun _ => .declarator) _)))
    refine .derive (.nth 0 rfl ?_)
    exact .congr (.cons hd (.cons (.token he) .nil)) (by simp)
  | expression h he ih =>
    cases hfe
    exact .derive (.nth 1 rfl (.derive (.cons (ih .phrase) (.cons (.token he) .nil))))
  | «return» hk h he ih =>
    cases hfe
    refine .derive (.nth 2 rfl (.derive ?_))
    exact .congr (.cons (.token hk) (.cons (ih (.optMap (fun _ => .phrase) _))
      (.cons (.token he) .nil))) (by simp)
  | «if» hk ht hs hn ha iht ihs iha =>
    cases hfe
    refine .derive (.nth 3 rfl (.derive ?_))
    exact .congr (.cons (.token hk) (.append (iht (.parens .phrase)) (.cons (ihs .stmt)
      (.cons (iha (.optMap (fun _ => .alternate) _)) .nil)))) (by simp)
  | «while» hk ht hs iht ihs =>
    cases hfe
    refine .derive (.nth 4 rfl (.derive ?_))
    exact .congr (.cons (.token hk) (.append (iht (.parens .phrase)) (.cons (ihs .stmt) .nil)))
      (by simp)
  | «for» hk hl hi hd ht he hu hr hs ihi iht ihu ihs =>
    cases hfe
    have hinit := ihi (.optMap (fun _ => .init) _)
    have htest := (iht (.optMap (fun _ => .phrase) _)).opt fun h =>
      Matches.derive (n := .forTest) h
    have hupdate := (ihu (.optMap (fun _ => .phrase) _)).opt fun h =>
      Matches.derive (n := .forUpdate) h
    refine .derive (.nth 5 rfl (.derive ?_))
    exact .congr (.cons (.token hk) (.cons (.token hl) (.cons hinit (.cons (.token hd)
      (.cons htest (.cons (.token he) (.cons hupdate (.cons (.token hr)
      (.cons (ihs .stmt) .nil))))))))) (by simp)
  | forOf hk hl hd hn ho hp hr hs ihp ihs =>
    cases hfe
    refine .derive (.nth 6 rfl (.derive ?_))
    exact .congr (.cons (.token hk) (.cons (.token hl) (.cons (Derives.declKind hd)
      (.cons (.token hn) (.cons (.token ho) (.cons (ihp .phrase) (.cons (.token hr)
      (.cons (ihs .stmt) .nil)))))))) (by simp)
  | functionDecl hk hn hp hb ihp ihb =>
    cases hfe
    have hps := Derives.params (ihp (.params _))
    refine .derive (.nth 7 rfl (.derive ?_))
    exact .congr (.cons (.token hk) (.cons (.token hn) (.append hps (.cons (ihb .block) .nil))))
      (by simp)
  | blockStmt h ih =>
    cases hfe
    exact .derive (.nth 8 rfl (ih .block))
  | «break» hk he =>
    cases hfe
    exact .derive (.nth 9 rfl (.derive (.cons (.token hk) (.cons (.token he) .nil))))
  | «continue» hk he =>
    cases hfe
    exact .derive (.nth 10 rfl (.derive (.cons (.token hk) (.cons (.token he) .nil))))
  | throw hk h he ih =>
    cases hfe
    refine .derive (.nth 11 rfl (.derive ?_))
    exact .congr (.cons (.token hk) (.cons (ih .phrase) (.cons (.token he) .nil))) (by simp)
  | «try» hk hb hh hf ihb ihh ihf =>
    cases hfe
    refine .derive (.nth 12 rfl (.derive ?_))
    exact .congr (.cons (.token hk) (.cons (ihb .block) (.cons (ihh (.optMap (fun _ => .handler) _))
      (.cons (ihf (.optMap (fun _ => .finalizer) _)) .nil)))) (by simp)

/-- The statements that tokens spell can be derived. -/
theorem Spells.derives {ss : List Statement} {ts : List Token} (h : Spells (.stmts ss) ts) :
    Derives .program ts :=
  .of_body (h.matches .stmts)

end AutoAwait
