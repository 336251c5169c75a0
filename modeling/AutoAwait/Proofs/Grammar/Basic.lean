import AutoAwait.ParseTree.Parser

/-!
# The grammar as a relation

Which tokens spell which part of a script, without a word on how they are read. The rules are those
of the grammar, with the two choices that it leaves open: an `else` belongs to the nearest `if`,
and `new` takes the longest dotted name and the arguments right after it.

* `Form` is what tokens can spell, `Spells` the relation;
* `TokenKind.startsPhrase` and `TokenKind.startsStatement` are the tokens with which an expression
  and a statement begin.
-/

namespace AutoAwait

/-- Is this `new` without arguments? What follows it must not look like more of it. -/
def Phrase.isBareNew : Phrase → Bool
  | .construct _ _ _ none => true
  | _ => false

/-- Does a statement end with an `if` without an `else`? An `else` after it belongs to that `if`. -/
def Statement.isOpen : Statement → Bool
  | .if _ _ _ none => true
  | .if _ _ _ (some a) => a.isOpen
  | .while _ _ b | .for _ _ _ _ b | .forOf _ _ _ _ b => b.isOpen
  | _ => false

namespace TokenKind

/-- The level of the binary operators of this kind: the tighter they bind, the higher. -/
def operatorLevel? : TokenKind → Option Nat
  | .logicOr => some 3
  | .logicAnd => some 4
  | .equality => some 5
  | .comparison => some 6
  | .addOp => some 7
  | .mulOp => some 8
  | _ => none

/-- Is this `=` or an operator that assigns? -/
def assigns : TokenKind → Bool
  | .assign | .compoundAssign => true
  | _ => false

/-- Is this a word that declares names? -/
def declares : TokenKind → Bool
  | .keyword .let | .keyword .const | .keyword .var => true
  | _ => false

/-- Is this `true`, `false` or `null`? -/
def isConstant : TokenKind → Bool
  | .keyword .true | .keyword .false | .keyword .null => true
  | _ => false

/-- Can this be the key of an entry of an object, besides a name? -/
def isLiteralKey : TokenKind → Bool
  | .string | .number => true
  | _ => false

end TokenKind

/-- What a run of tokens can spell. Expressions come in levels: the higher the level, the tighter
they bind. Level 1 is any expression, 2 a conditional, 3 to 8 are the binary operators, 9 the
operators before an operand, 10 those after it, 11 accesses and calls, 12 everything else. -/
inductive Form where
  | phrase (level : Nat) (p : Phrase)
  | name (t : Token)
  /-- Names, each after a dot. -/
  | path (ts : List Token)
  | entry (e : ObjectEntry)
  | arrowBody (b : ArrowBody)
  /-- An equals sign and the first value of a declared name. -/
  | value (p : Phrase)
  | declarator (d : Declarator)
  | block (b : Block)
  | init (i : LoopInit)
  | handler (h : Handler)
  | finalizer (b : Block)
  | alternate (s : Statement)
  | stmt (s : Statement)
  | stmts (ss : List Statement)
  | parens (f : Form)
  | opt (f : Option Form)
  /-- At least one, with commas between them. -/
  | commas (fs : List Form)
  /-- Each after a comma. -/
  | more (fs : List Form)
  /-- With commas between them, perhaps none. -/
  | list (fs : List Form)
  /-- With commas between them and perhaps one at the end, perhaps none. -/
  | items (fs : List Form)

namespace Form

/-- The expressions `ps` as parts of a list. -/
abbrev phrases (ps : List Phrase) : List Form := ps.map (.phrase 1)

/-- The arguments of a call. -/
abbrev args (ps : List Phrase) : Form := .parens (.list (phrases ps))

/-- The parameters of a function. -/
abbrev params (ts : List Token) : Form := .parens (.list (ts.map .name))

end Form

/-- Which tokens spell which form. -/
inductive Spells : Form → List Token → Prop
  -- Expressions that are no operator's
  | nameRef {t} (ht : t.kind = .name) : Spells (.phrase 12 (.name t)) [t]
  | number {t} (ht : t.kind = .number) : Spells (.phrase 12 (.number t)) [t]
  | string {t} (ht : t.kind = .string) : Spells (.phrase 12 (.string t)) [t]
  | constant {t} (ht : t.kind.isConstant) : Spells (.phrase 12 (.constant t)) [t]
  | this {t} (ht : t.kind = .keyword .this) : Spells (.phrase 12 (.this t)) [t]
  | group {l r p ts} (hl : l.kind = .lparen) (h : Spells (.phrase 1 p) ts) (hr : r.kind = .rparen) :
      Spells (.phrase 12 (.group l.loc p)) (l :: ts ++ [r])
  | array {l r es ts} (hl : l.kind = .lbracket) (h : Spells (.items (Form.phrases es)) ts)
      (hr : r.kind = .rbracket) : Spells (.phrase 12 (.array l.loc es)) (l :: ts ++ [r])
  | object {l r es ts} (hl : l.kind = .lbrace) (h : Spells (.items (es.map .entry)) ts)
      (hr : r.kind = .rbrace) : Spells (.phrase 12 (.object l.loc es)) (l :: ts ++ [r])
  | function {k name params body ns ps bs} (hk : k.kind = .keyword .function)
      (hn : Spells (.opt (name.map .name)) ns) (hp : Spells (Form.params params) ps)
      (hb : Spells (.block body) bs) :
      Spells (.phrase 12 (.function k.loc name params body)) (k :: ns ++ ps ++ bs)
  | construct {k t path args ps as} (hk : k.kind = .keyword .new) (ht : t.kind = .name)
      (hp : Spells (.path path) ps) (ha : Spells (.opt (args.map Form.args)) as) :
      Spells (.phrase 12 (.construct k.loc t path args)) (k :: t :: ps ++ as)
  -- Accesses and calls
  | member {o d t os} (ho : Spells (.phrase 11 o) os) (hn : o.isBareNew = false)
      (hd : d.kind = .dot) (ht : t.kind = .name) : Spells (.phrase 11 (.member o t)) (os ++ [d, t])
  | index {o k l r os ks} (ho : Spells (.phrase 11 o) os) (hl : l.kind = .lbracket)
      (hk : Spells (.phrase 1 k) ks) (hr : r.kind = .rbracket) :
      Spells (.phrase 11 (.index o k)) (os ++ l :: ks ++ [r])
  | call {c as cs ps} (hc : Spells (.phrase 11 c) cs) (hn : c.isBareNew = false)
      (ha : Spells (Form.args as) ps) : Spells (.phrase 11 (.call c as)) (cs ++ ps)
  -- Operators
  | update {p op ts} (h : Spells (.phrase 11 p) ts) (ho : op.kind = .incDec) :
      Spells (.phrase 10 (.update p op)) (ts ++ [op])
  | unary {op p ts} (ho : Grammar.isUnaryOperator op.kind) (h : Spells (.phrase 9 p) ts) :
      Spells (.phrase 9 (.unary op p)) (op :: ts)
  | binary {l op a b ls rs} (ho : op.kind.operatorLevel? = some l) (ha : Spells (.phrase l a) ls)
      (hb : Spells (.phrase (l + 1) b) rs) : Spells (.phrase l (.binary op a b)) (ls ++ op :: rs)
  | conditional {t c a q d ts cs as} (ht : Spells (.phrase 3 t) ts) (hq : q.kind = .question)
      (hc : Spells (.phrase 1 c) cs) (hd : d.kind = .colon) (ha : Spells (.phrase 1 a) as) :
      Spells (.phrase 2 (.conditional t c a)) (ts ++ q :: cs ++ d :: as)
  | assignment {op t v ts vs} (ht : Spells (.phrase 11 t) ts) (ho : op.kind.assigns)
      (hv : Spells (.phrase 1 v) vs) : Spells (.phrase 1 (.assignment op t v)) (ts ++ op :: vs)
  | arrowName {t a b bs} (ht : t.kind = .name) (ha : a.kind = .arrow)
      (hb : Spells (.arrowBody b) bs) : Spells (.phrase 1 (.arrow t.loc [.name t] b)) (t :: a :: bs)
  | arrow {l r a ps b ts bs} (hl : l.kind = .lparen) (h : Spells (.list (Form.phrases ps)) ts)
      (hr : r.kind = .rparen) (ha : a.kind = .arrow) (hb : Spells (.arrowBody b) bs) :
      Spells (.phrase 1 (.arrow l.loc ps b)) (l :: ts ++ r :: a :: bs)
  /-- What binds tightly can stand where looser expressions can. -/
  | lift {l p ts} (hl : 1 ≤ l) (h : Spells (.phrase (l + 1) p) ts) : Spells (.phrase l p) ts
  | arrowBlock {b bs} (h : Spells (.block b) bs) : Spells (.arrowBody (.block b)) bs
  | arrowPhrase {p ts} (h : Spells (.phrase 1 p) ts) : Spells (.arrowBody (.phrase p)) ts
  -- Parts of expressions
  | name {t} (ht : t.kind = .name) : Spells (.name t) [t]
  | pathNil : Spells (.path []) []
  | path {d t ns ts} (hd : d.kind = .dot) (ht : t.kind = .name) (h : Spells (.path ns) ts) :
      Spells (.path (t :: ns)) (d :: t :: ts)
  | shorthand {t} (ht : t.kind = .name) : Spells (.entry (.shorthand t)) [t]
  | pair {t c p ts} (ht : t.kind = .name ∨ t.kind.isLiteralKey) (hc : c.kind = .colon)
      (h : Spells (.phrase 1 p) ts) : Spells (.entry (.pair t p)) (t :: c :: ts)
  | parens {l r f ts} (hl : l.kind = .lparen) (h : Spells f ts) (hr : r.kind = .rparen) :
      Spells (.parens f) (l :: ts ++ [r])
  | optNone : Spells (.opt none) []
  | optSome {f ts} (h : Spells f ts) : Spells (.opt (some f)) ts
  | commas {f fs ts us} (h : Spells f ts) (hs : Spells (.more fs) us) :
      Spells (.commas (f :: fs)) (ts ++ us)
  | moreNil : Spells (.more []) []
  | more {c f fs ts us} (hc : c.kind = .comma) (h : Spells f ts) (hs : Spells (.more fs) us) :
      Spells (.more (f :: fs)) (c :: ts ++ us)
  | listNil : Spells (.list []) []
  | list {fs ts} (h : Spells (.commas fs) ts) : Spells (.list fs) ts
  | itemsNil : Spells (.items []) []
  | itemsLast {f ts} (h : Spells f ts) : Spells (.items [f]) ts
  | items {c f fs ts us} (h : Spells f ts) (hc : c.kind = .comma) (hs : Spells (.items fs) us) :
      Spells (.items (f :: fs)) (ts ++ c :: us)
  -- Parts of statements
  | value {e p ts} (he : e.kind = .assign) (h : Spells (.phrase 1 p) ts) :
      Spells (.value p) (e :: ts)
  | declarator {t p ts} (ht : t.kind = .name) (h : Spells (.opt (p.map .value)) ts) :
      Spells (.declarator (.mk t p)) (t :: ts)
  | block {l r ss ts} (hl : l.kind = .blockOpen) (h : Spells (.stmts ss) ts)
      (hr : r.kind = .rbrace) : Spells (.block (.mk l.loc ss)) (l :: ts ++ [r])
  | initDecl {k ds ts} (hk : k.kind.declares) (h : Spells (.commas (ds.map .declarator)) ts) :
      Spells (.init (.declaration k ds)) (k :: ts)
  | initPhrase {p ts} (h : Spells (.phrase 1 p) ts) : Spells (.init (.phrase p)) ts
  | handler {k p b ps bs} (hk : k.kind = .keyword .catch)
      (hp : Spells (.opt (p.map fun t => .parens (.name t))) ps) (hb : Spells (.block b) bs) :
      Spells (.handler (.mk k.loc p b)) (k :: ps ++ bs)
  | finalizer {k b bs} (hk : k.kind = .keyword .finally) (hb : Spells (.block b) bs) :
      Spells (.finalizer b) (k :: bs)
  | alternate {k s ts} (hk : k.kind = .keyword .else) (h : Spells (.stmt s) ts) :
      Spells (.alternate s) (k :: ts)
  | stmtsNil : Spells (.stmts []) []
  | stray {t ss ts} (ht : t.kind = .terminator) (h : Spells (.stmts ss) ts) :
      Spells (.stmts ss) (t :: ts)
  | stmts {s ss ts us} (h : Spells (.stmt s) ts) (hs : Spells (.stmts ss) us) :
      Spells (.stmts (s :: ss)) (ts ++ us)
  -- Statements
  | declaration {k ds e ts} (hk : k.kind.declares) (h : Spells (.commas (ds.map .declarator)) ts)
      (he : e.kind = .terminator) : Spells (.stmt (.declaration k ds)) (k :: ts ++ [e])
  | expression {p e ts} (h : Spells (.phrase 1 p) ts) (he : e.kind = .terminator) :
      Spells (.stmt (.expression p)) (ts ++ [e])
  | «return» {k p e ts} (hk : k.kind = .keyword .return) (h : Spells (.opt (p.map (.phrase 1))) ts)
      (he : e.kind = .terminator) : Spells (.stmt (.return k.loc p)) (k :: ts ++ [e])
  | «if» {k t s a ts ss as} (hk : k.kind = .keyword .if) (ht : Spells (.parens (.phrase 1 t)) ts)
      (hs : Spells (.stmt s) ss) (hn : a.isSome → s.isOpen = false)
      (ha : Spells (.opt (a.map .alternate)) as) :
      Spells (.stmt (.if k.loc t s a)) (k :: ts ++ ss ++ as)
  | «while» {k t s ts ss} (hk : k.kind = .keyword .while) (ht : Spells (.parens (.phrase 1 t)) ts)
      (hs : Spells (.stmt s) ss) : Spells (.stmt (.while k.loc t s)) (k :: ts ++ ss)
  | «for» {k l i d t e u r s is ts us ss} (hk : k.kind = .keyword .for) (hl : l.kind = .lparen)
      (hi : Spells (.opt (i.map .init)) is) (hd : d.kind = .semicolon)
      (ht : Spells (.opt (t.map (.phrase 1))) ts) (he : e.kind = .semicolon)
      (hu : Spells (.opt (u.map (.phrase 1))) us) (hr : r.kind = .rparen)
      (hs : Spells (.stmt s) ss) :
      Spells (.stmt (.for k.loc i t u s)) (k :: l :: is ++ d :: ts ++ e :: us ++ r :: ss)
  | forOf {k l d n o p r s ts ss} (hk : k.kind = .keyword .for) (hl : l.kind = .lparen)
      (hd : d.kind.declares) (hn : n.kind = .name) (ho : o.kind = .keyword .of)
      (hp : Spells (.phrase 1 p) ts) (hr : r.kind = .rparen) (hs : Spells (.stmt s) ss) :
      Spells (.stmt (.forOf k.loc d n p s)) (k :: l :: d :: n :: o :: ts ++ r :: ss)
  | functionDecl {k n params b ps bs} (hk : k.kind = .functionDecl) (hn : n.kind = .name)
      (hp : Spells (Form.params params) ps) (hb : Spells (.block b) bs) :
      Spells (.stmt (.function k.loc n params b)) (k :: n :: ps ++ bs)
  | blockStmt {b ts} (h : Spells (.block b) ts) : Spells (.stmt (.block b)) ts
  | «break» {k e} (hk : k.kind = .keyword .break) (he : e.kind = .terminator) :
      Spells (.stmt (.break k.loc)) [k, e]
  | «continue» {k e} (hk : k.kind = .keyword .continue) (he : e.kind = .terminator) :
      Spells (.stmt (.continue k.loc)) [k, e]
  | throw {k p e ts} (hk : k.kind = .keyword .throw) (h : Spells (.phrase 1 p) ts)
      (he : e.kind = .terminator) : Spells (.stmt (.throw k.loc p)) (k :: ts ++ [e])
  | «try» {k b h f bs hs fs} (hk : k.kind = .keyword .try) (hb : Spells (.block b) bs)
      (hh : Spells (.opt (h.map .handler)) hs) (hf : Spells (.opt (f.map .finalizer)) fs) :
      Spells (.stmt (.try k.loc b h f)) (k :: bs ++ hs ++ fs)

end AutoAwait
