import AutoAwait.Node.Printer
import AutoAwait.ParseTree.ToNode
import AutoAwait.Proofs.Grammar.Basic
import AutoAwait.Proofs.Token.Words

/-!
# The trees that a script can have

Any node can stand in any place of a tree, but few can be read from a text: what is called is an
expression, what is declared is a name, and a name, a number or an operator is a token of its kind.

* `Role` is what a tree is read as, `Fits` says which trees can be read in which role.
-/

namespace AutoAwait

/-- What a tree is read as. -/
inductive Role where
  | expr
  /-- A name that is declared or referred to. -/
  | name
  /-- A name after a dot. -/
  | attr
  /-- What `new` applies to. -/
  | path
  | key
  | entry
  /-- A block. -/
  | body
  | declarator
  | declaration
  | handler
  /-- A statement, which ends with an `if` without an `else` or does not. -/
  | stmt (opened : Bool)
  /-- Any statement. -/
  | line
deriving DecidableEq

variable [CharNames]

/-- Can this tree be read in this role? -/
inductive Fits : Role → Node → Prop
  -- Names
  | name {loc type x} (h : IsToken .name x) : Fits .name ⟨loc, type, .identifier x⟩
  | attr {loc type x} (h : IsToken .name x ∨ ∃ k, IsToken (.keyword k) x) :
      Fits .attr ⟨loc, type, .identifier x⟩
  | pathName {n} (h : Fits .name n) : Fits .path n
  | pathMember {loc type o p} (ho : Fits .path o) (hp : Fits .attr p) :
      Fits .path ⟨loc, type, .member o p false⟩
  -- Entries of objects
  | nameKey {n} (h : Fits .name n) : Fits .key n
  | textKey {loc type raw} (h : IsToken .string raw) :
      Fits .key ⟨loc, type, .literal (.text (StringLiteral.value raw)) raw⟩
  | numberKey {loc type v raw} (h : IsToken .number raw)
      (hv : ∀ p, Token.toKey ⟨.number, raw, p⟩ = .ok (.untyped p (.literal v raw))) :
      Fits .key ⟨loc, type, .literal v raw⟩
  | shorthand {loc type kloc ktype vloc vtype x} (h : IsToken .name x) :
      Fits .entry ⟨loc, type, .property ⟨kloc, ktype, .identifier x⟩ ⟨vloc, vtype, .identifier x⟩ true⟩
  | pair {loc type k v} (hk : Fits .key k) (hv : Fits .expr v) :
      Fits .entry ⟨loc, type, .property k v false⟩
  -- Expressions
  | ref {n} (h : Fits .name n) : Fits .expr n
  | number {loc type v raw} (h : IsToken .number raw)
      (hv : ∀ p, Token.toNumber ⟨.number, raw, p⟩ = .ok (.untyped p (.literal v raw))) :
      Fits .expr ⟨loc, type, .literal v raw⟩
  | text {loc type raw} (h : IsToken .string raw) :
      Fits .expr ⟨loc, type, .literal (.text (StringLiteral.value raw)) raw⟩
  | constant {loc type v raw k} (hk : (TokenKind.keyword k).isConstant)
      (hv : ∀ text p, Token.toConstant ⟨.keyword k, text, p⟩ = .untyped p (.literal v raw)) :
      Fits .expr ⟨loc, type, .literal v raw⟩
  | this {loc type} : Fits .expr ⟨loc, type, .this⟩
  | array {loc type es} (h : ∀ e ∈ es, Fits .expr e) : Fits .expr ⟨loc, type, .array es⟩
  | object {loc type ps} (h : ∀ p ∈ ps, Fits .entry p) : Fits .expr ⟨loc, type, .object ps⟩
  | member {loc type o p} (ho : Fits .expr o) (hp : Fits .attr p) :
      Fits .expr ⟨loc, type, .member o p false⟩
  | index {loc type o k} (ho : Fits .expr o) (hk : Fits .expr k) :
      Fits .expr ⟨loc, type, .member o k true⟩
  | call {loc type c as} (hc : Fits .expr c) (ha : ∀ a ∈ as, Fits .expr a) :
      Fits .expr ⟨loc, type, .call c as⟩
  | construct {loc type c as} (hc : Fits .path c) (ha : ∀ a ∈ as, Fits .expr a) :
      Fits .expr ⟨loc, type, .construct c as⟩
  | await {loc type a} (h : Fits .expr a) : Fits .expr ⟨loc, type, .await a⟩
  | assignment {loc type k op l r} (ho : IsToken k op) (hk : k.assigns) (hl : Fits .expr l)
      (ht : l.kind.isTarget) (hr : Fits .expr r) : Fits .expr ⟨loc, type, .assignment op l r⟩
  | binary {loc type k level op l r} (ho : IsToken k op) (hk : k.operatorLevel? = some level)
      (hn : k ≠ .logicAnd ∧ k ≠ .logicOr) (hl : Fits .expr l) (hr : Fits .expr r) :
      Fits .expr ⟨loc, type, .binary op l r⟩
  | logical {loc type k op l r} (ho : IsToken k op) (hk : k = .logicAnd ∨ k = .logicOr)
      (hl : Fits .expr l) (hr : Fits .expr r) : Fits .expr ⟨loc, type, .logical op l r⟩
  | unary {loc type k op a} (ho : IsToken k op) (hk : Grammar.isUnaryOperator k)
      (hn : k ≠ .keyword .await) (ha : Fits .expr a) : Fits .expr ⟨loc, type, .unary op a⟩
  | update {loc type op a} (ho : IsToken .incDec op) (ha : Fits .expr a) :
      Fits .expr ⟨loc, type, .update op a false⟩
  | conditional {loc type t c a} (ht : Fits .expr t) (hc : Fits .expr c) (ha : Fits .expr a) :
      Fits .expr ⟨loc, type, .conditional t c a⟩
  | function {loc type id ps b} (hi : ∀ i ∈ id, Fits .name i) (hp : ∀ p ∈ ps, Fits .name p)
      (hb : Fits .body b) : Fits .expr ⟨loc, type, .function id ps b⟩
  | arrowBlock {loc type ps b} (hp : ∀ p ∈ ps, Fits .name p) (hb : Fits .body b) :
      Fits .expr ⟨loc, type, .arrow ps b⟩
  | arrow {loc type ps b} (hp : ∀ p ∈ ps, Fits .name p) (hb : Fits .expr b) :
      Fits .expr ⟨loc, type, .arrow ps b⟩
  -- Parts of statements
  | declarator {loc type i init} (hi : Fits .name i) (he : ∀ e ∈ init, Fits .expr e) :
      Fits .declarator ⟨loc, type, .declarator i init⟩
  | declaration {loc type k ds} (hk : (TokenKind.keyword k).declares) (hne : ds ≠ [])
      (hd : ∀ d ∈ ds, Fits .declarator d) :
      Fits .declaration ⟨loc, type, .declaration k.spelling ds⟩
  | body {loc type ns} (h : ∀ n ∈ ns, Fits .line n) : Fits .body ⟨loc, type, .block ns⟩
  | handler {loc type p b} (hp : ∀ i ∈ p, Fits .name i) (hb : Fits .body b) :
      Fits .handler ⟨loc, type, .catchClause p b⟩
  -- Statements
  | line {n opened} (h : Fits (.stmt opened) n) : Fits .line n
  | declared {n} (h : Fits .declaration n) : Fits (.stmt false) n
  | expression {loc type e} (h : Fits .expr e) : Fits (.stmt false) ⟨loc, type, .expression e⟩
  | «return» {loc type a} (h : ∀ e ∈ a, Fits .expr e) :
      Fits (.stmt false) ⟨loc, type, .return a⟩
  | «if» {loc type t c opened} (ht : Fits .expr t) (hc : Fits (.stmt opened) c) :
      Fits (.stmt true) ⟨loc, type, .if t c none⟩
  | ifElse {loc type t c a opened} (ht : Fits .expr t) (hc : Fits (.stmt false) c)
      (ha : Fits (.stmt opened) a) : Fits (.stmt opened) ⟨loc, type, .if t c (some a)⟩
  | «while» {loc type t b opened} (ht : Fits .expr t) (hb : Fits (.stmt opened) b) :
      Fits (.stmt opened) ⟨loc, type, .while t b⟩
  | forDecl {loc type i t u b opened} (hi : Fits .declaration i) (ht : ∀ e ∈ t, Fits .expr e)
      (hu : ∀ e ∈ u, Fits .expr e) (hb : Fits (.stmt opened) b) :
      Fits (.stmt opened) ⟨loc, type, .for (some i) t u b⟩
  | «for» {loc type i t u b opened} (hi : ∀ e ∈ i, Fits .expr e) (ht : ∀ e ∈ t, Fits .expr e)
      (hu : ∀ e ∈ u, Fits .expr e) (hb : Fits (.stmt opened) b) :
      Fits (.stmt opened) ⟨loc, type, .for i t u b⟩
  | forOf {loc type dloc dtype iloc itype k i r b opened} (hk : (TokenKind.keyword k).declares)
      (hi : Fits .name i) (hr : Fits .expr r) (hb : Fits (.stmt opened) b) :
      Fits (.stmt opened) ⟨loc, type, .forOf
        ⟨dloc, dtype, .declaration k.spelling [⟨iloc, itype, .declarator i none⟩]⟩ r b⟩
  | functionDecl {loc type i ps b} (hi : Fits .name i) (hp : ∀ p ∈ ps, Fits .name p)
      (hb : Fits .body b) : Fits (.stmt false) ⟨loc, type, .functionDecl i ps b⟩
  | block {n} (h : Fits .body n) : Fits (.stmt false) n
  | «break» {loc type} : Fits (.stmt false) ⟨loc, type, .break⟩
  | «continue» {loc type} : Fits (.stmt false) ⟨loc, type, .continue⟩
  | throw {loc type a} (h : Fits .expr a) : Fits (.stmt false) ⟨loc, type, .throw a⟩
  | «try» {loc type b h f} (hb : Fits .body b) (hh : ∀ c ∈ h, Fits .handler c)
      (hf : ∀ c ∈ f, Fits .body c) : Fits (.stmt false) ⟨loc, type, .try b h f⟩

namespace Fits

variable {n : Node}

theorem name_shape (h : Fits .name n) : ∃ x, n.shape = .identifier x ∧ IsToken .name x := by
  cases h with
  | name h => exact ⟨_, rfl, h⟩

/-- A name that can be an expression is one that can be declared. -/
theorem name_of_expr (h : Fits .expr n) (hk : n.kind = .identifier) : Fits .name n := by
  cases h <;> first | assumption | cases hk

/-- Only an expression is a call. -/
theorem eq_expr {r : Role} (h : Fits r n) (hk : n.kind = .call) : r = .expr := by
  induction h with
  | pathName _ ih | nameKey _ ih | line _ ih | declared _ ih | block _ ih => cases ih hk
  | _ => first | rfl | cases hk

theorem kind_of_expr (h : Fits .expr n) : n.kind.isExpression := by
  cases h with
  | ref h => cases h; rfl
  | _ => rfl

theorem kind_ne (h : Fits .expr n) {k : NodeKind} (hk : k.isExpression = false) : n.kind ≠ k := by
  rintro rfl
  rw [h.kind_of_expr] at hk
  cases hk

end Fits

end AutoAwait
