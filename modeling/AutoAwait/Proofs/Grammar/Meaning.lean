import AutoAwait.Proofs.Grammar.Written

/-!
# What a parse tree stands for

The syntax tree of a parse tree as a relation, production by production: where each node is placed,
what kind of node it is, and which parts it has. Nothing is said of how the tree is made.

* `Phrase.StandsFor`, `Statement.StandsFor` and the relations beside them have one case for each
  way to write an expression, a statement or a part of one; `ProgramOf` is about a whole script;
* `Phrase.toNode_ok`, `Statement.toNode_ok` and `Node.ofStatements_eq_ok` say that the trees that are
  made are those.
-/

namespace AutoAwait

/-! ## Names, numbers and keys -/

namespace Token

/-- The token is the name of the node. -/
inductive Names : Token → Node → Prop
  | mk {t} : Names t ⟨t.loc, none, .identifier t.text⟩

/-- A dotted name: its first segment, and a member for each of the others, placed at its segment. -/
inductive NamesPath : Token → List Token → Node → Prop
  | name {t n} (h : t.Names n) : NamesPath t [] n
  | segment {t us u o p} (ho : NamesPath t us o) (hp : u.Names p) :
      NamesPath t (us ++ [u]) ⟨u.loc, none, .member o p false⟩

/-- A numeral with a fraction or an exponent. -/
def HasFraction (t : Token) : Prop := ∃ c ∈ t.text.toList, c = '.' ∨ c = 'e' ∨ c = 'E'

/-- A number: a double if it is written with a fraction or an exponent, else an integer. -/
inductive IsNumber : Token → Node → Prop
  | double {t} (h : t.HasFraction) :
      IsNumber t ⟨t.loc, none, .literal (.float (Numeral.double t.text)) t.text⟩
  | integer {t i} (h : ¬ t.HasFraction) (hi : Numeral.integer? t.text = .ok i) :
      IsNumber t ⟨t.loc, none, .literal (.int i) t.text⟩

/-- `true`, `false`, and `null`, which is the one that is left. -/
inductive IsConstant : Token → Node → Prop
  | true {t} (h : t.kind = .keyword .true) :
      IsConstant t ⟨t.loc, none, .literal (.bool true) "true"⟩
  | false {t} (h : t.kind = .keyword .false) :
      IsConstant t ⟨t.loc, none, .literal (.bool false) "false"⟩
  | null {t} (ht : t.kind ≠ .keyword .true) (hf : t.kind ≠ .keyword .false) :
      IsConstant t ⟨t.loc, none, .literal .null "null"⟩

/-- The key of an entry: a text, a number, where only a point makes a double, or else a name. -/
inductive IsKey [CharNames] : Token → Node → Prop
  | text {t} (ht : t.kind = .string) :
      IsKey t ⟨t.loc, none, .literal (.text (StringLiteral.value t.text)) t.text⟩
  | double {t} (ht : t.kind = .number) (h : '.' ∈ t.text.toList) :
      IsKey t ⟨t.loc, none, .literal (.float (Numeral.double t.text)) t.text⟩
  | integer {t i} (ht : t.kind = .number) (h : '.' ∉ t.text.toList)
      (hi : Numeral.integer? t.text = .ok i) :
      IsKey t ⟨t.loc, none, .literal (.int i) t.text⟩
  | name {t n} (hs : t.kind ≠ .string) (hn : t.kind ≠ .number) (h : t.Names n) : IsKey t n

variable {t : Token} {n : Node}

theorem toIdentifier_eq : t.toIdentifier = n ↔ t.Names n :=
  ⟨by rintro rfl; exact .mk, fun | .mk => rfl⟩

theorem map_toIdentifier_eq {ts : List Token} {ns : List Node} :
    ts.map (·.toIdentifier) = ns ↔ List.Forall₂ Names ts ns := by
  rw [← List.forall₂_eq_eq_eq, List.forall₂_map_left_iff]
  simp only [toIdentifier_eq]

theorem option_toIdentifier_eq {o : Option Token} {id : Option Node} :
    o.map (·.toIdentifier) = id ↔ Option.Rel Names o id := by
  cases o with
  | none => exact ⟨by rintro rfl; exact .none, fun | .none => rfl⟩
  | some t =>
    exact ⟨by rintro rfl; exact .some .mk, fun | .some h => congrArg some (toIdentifier_eq.2 h)⟩

theorem toInteger_ok_iff :
    t.toInteger = .ok n ↔ ∃ i, Numeral.integer? t.text = .ok i ∧
      n = ⟨t.loc, none, .literal (.int i) t.text⟩ := by
  unfold toInteger
  split
  · next i hi =>
    constructor
    · rintro ⟨⟩
      exact ⟨i, hi, rfl⟩
    · rintro ⟨j, hj, rfl⟩
      cases hi.symm.trans hj
      rfl
  · next e he =>
    constructor
    · rintro ⟨⟩
    · rintro ⟨j, hj, -⟩
      cases he.symm.trans hj

theorem toNumber_ok_iff : t.toNumber = .ok n ↔ t.IsNumber n := by
  have hf : (t.text.toList.any fun c => c == '.' || c == 'e' || c == 'E') ↔ t.HasFraction := by
    simp [HasFraction, or_assoc]
  unfold toNumber
  split
  · next h =>
    constructor
    · rintro ⟨⟩
      exact .double (hf.1 h)
    · rintro (_ | h')
      · rfl
      · exact absurd (hf.1 h) h'
  · next h =>
    rw [toInteger_ok_iff]
    constructor
    · rintro ⟨i, hi, rfl⟩
      exact .integer (mt hf.2 h) hi
    · rintro (h' | ⟨-, hi⟩)
      · exact absurd (hf.2 h') h
      · exact ⟨_, hi, rfl⟩

theorem toConstant_eq : t.toConstant = n ↔ t.IsConstant n := by
  constructor
  · rintro rfl
    unfold toConstant
    split
    · next h => exact .true h
    · next h => exact .false h
    · next ht hf => exact .null ht hf
  · rintro (h | h | ⟨ht, hf⟩) <;> unfold toConstant
    · rw [h]
      rfl
    · rw [h]
      rfl
    · split <;> first | rfl | contradiction

theorem toKey_ok_iff [CharNames] : t.toKey = .ok n ↔ t.IsKey n := by
  unfold toKey
  split
  · next hs =>
    constructor
    · rintro ⟨⟩
      exact .text hs
    · rintro (_ | ⟨hn, -⟩ | ⟨hn, -⟩ | ⟨hs', -⟩)
      · rfl
      · cases hs.symm.trans hn
      · cases hs.symm.trans hn
      · exact absurd hs hs'
  · next hn =>
    split
    · next h =>
      constructor
      · rintro ⟨⟩
        exact .double hn h
      · rintro (hs | _ | ⟨-, h'⟩ | ⟨-, hn'⟩)
        · cases hn.symm.trans hs
        · rfl
        · exact absurd h h'
        · exact absurd hn hn'
    · next h =>
      rw [toInteger_ok_iff]
      constructor
      · rintro ⟨i, hi, rfl⟩
        exact .integer hn h hi
      · rintro (hs | ⟨-, h'⟩ | ⟨-, -, hi⟩ | ⟨-, hn'⟩)
        · cases hn.symm.trans hs
        · exact absurd h' h
        · exact ⟨_, hi, rfl⟩
        · exact absurd hn hn'
  · next hs hn =>
    constructor
    · rintro ⟨⟩
      exact .name hs hn .mk
    · rintro (hs' | ⟨hn', -⟩ | ⟨hn', -⟩ | ⟨-, -, h⟩)
      · exact absurd hs' hs
      · exact absurd hn' hn
      · exact absurd hn' hn
      · exact congrArg Except.ok (toIdentifier_eq.2 h)

end Token

theorem NodeKind.isTarget_iff {k : NodeKind} : k.isTarget ↔ k = .identifier ∨ k = .member := by
  cases k <;> simp [isTarget]

theorem constructTarget_eq {t : Token} {path : List Token} {n : Node} :
    constructTarget t path = n ↔ t.NamesPath path n := by
  constructor
  · rintro rfl
    induction path using List.reverseRecOn with
    | nil => exact .name .mk
    | append_singleton us u ih =>
      rw [constructTarget, List.foldl_append]
      exact .segment ih .mk
  · intro h
    induction h with
    | name h => exact Token.toIdentifier_eq.2 h
    | segment _ hp ih =>
      cases hp
      rw [constructTarget, List.foldl_append, ← constructTarget, ih]
      rfl

/-! ## Several trees -/

section several
variable {α : Type} {R : α → Node → Prop} {a : α} {as : List α} {x : Except ParseError Node}
  {xs : Except ParseError (List Node)}

theorem nil_ok (R : α → Node → Prop) (ns : List Node) :
    (.ok [] : Except ParseError (List Node)) = .ok ns ↔ List.Forall₂ R [] ns := by
  rw [List.forall₂_nil_left_iff, Except.ok.injEq, eq_comm]

theorem cons_ok (hx : ∀ n, x = .ok n ↔ R a n) (hxs : ∀ ns, xs = .ok ns ↔ List.Forall₂ R as ns)
    (ns : List Node) : (do return (← x) :: (← xs)) = .ok ns ↔ List.Forall₂ R (a :: as) ns := by
  simp only [bind_ok, pure_ok, hx, hxs]
  constructor
  · rintro ⟨n, hn, ns, hns, rfl⟩
    exact .cons hn hns
  · rintro (_ | ⟨hn, hns⟩)
    exact ⟨_, hn, _, hns, rfl⟩

theorem none_ok (R : α → Node → Prop) (o : Option Node) :
    (.ok none : Except ParseError (Option Node)) = .ok o ↔ Option.Rel R none o := by
  constructor
  · rintro ⟨⟩
    exact .none
  · rintro ⟨⟩
    rfl

theorem some_ok (hx : ∀ n, x = .ok n ↔ R a n) (o : Option Node) :
    (do return some (← x)) = .ok o ↔ Option.Rel R (some a) o := by
  simp only [bind_ok, pure_ok, hx]
  constructor
  · rintro ⟨n, hn, rfl⟩
    exact .some hn
  · rintro (hn | -)
    exact ⟨_, hn, rfl⟩

end several

/-! ## Expressions and statements -/

variable [CharNames]

mutual

/-- The expression stands for the node. -/
inductive Phrase.StandsFor : Phrase → Node → Prop
  | name {t n} (h : t.Names n) : Phrase.StandsFor (.name t) n
  | number {t n} (h : t.IsNumber n) : Phrase.StandsFor (.number t) n
  | string {t} : Phrase.StandsFor (.string t)
      ⟨t.loc, none, .literal (.text (StringLiteral.value t.text)) t.text⟩
  | constant {t n} (h : t.IsConstant n) : Phrase.StandsFor (.constant t) n
  | this {t} : Phrase.StandsFor (.this t) ⟨t.loc, none, .this⟩
  /-- Parentheses leave no trace. -/
  | group {loc p n} (h : Phrase.StandsFor p n) : Phrase.StandsFor (.group loc p) n
  | array {loc es ns} (h : List.Forall₂ Phrase.StandsFor es ns) :
      Phrase.StandsFor (.array loc es) ⟨loc, none, .array ns⟩
  | object {loc es ns} (h : List.Forall₂ ObjectEntry.StandsFor es ns) :
      Phrase.StandsFor (.object loc es) ⟨loc, none, .object ns⟩
  | function {loc name params body id ps b} (hn : Option.Rel Token.Names name id)
      (hp : List.Forall₂ Token.Names params ps) (hb : Block.StandsFor body b) :
      Phrase.StandsFor (.function loc name params body) ⟨loc, none, .function id ps b⟩
  | construct {loc target path args c as} (hc : target.NamesPath path c)
      (ha : List.Forall₂ Phrase.StandsFor args as) :
      Phrase.StandsFor (.construct loc target path (some args)) ⟨loc, none, .construct c as⟩
  /-- `new` without arguments. -/
  | constructBare {loc target path c} (hc : target.NamesPath path c) :
      Phrase.StandsFor (.construct loc target path none) ⟨loc, none, .construct c []⟩
  | member {p t o a} (hp : Phrase.StandsFor p o) (ht : t.Names a) :
      Phrase.StandsFor (.member p t) ⟨p.start, none, .member o a false⟩
  | index {p q o k} (hp : Phrase.StandsFor p o) (hq : Phrase.StandsFor q k) :
      Phrase.StandsFor (.index p q) ⟨p.start, none, .member o k true⟩
  | call {p args c as} (hp : Phrase.StandsFor p c) (ha : List.Forall₂ Phrase.StandsFor args as) :
      Phrase.StandsFor (.call p args) ⟨p.start, none, .call c as⟩
  | update {p op n} (hp : Phrase.StandsFor p n) :
      Phrase.StandsFor (.update p op) ⟨p.start, none, .update op.text n false⟩
  | await {op p n} (ho : op.kind = .keyword .await) (hp : Phrase.StandsFor p n) :
      Phrase.StandsFor (.unary op p) ⟨op.loc, none, .await n⟩
  | unary {op p n} (ho : op.kind ≠ .keyword .await) (hp : Phrase.StandsFor p n) :
      Phrase.StandsFor (.unary op p) ⟨op.loc, none, .unary op.text n⟩
  | logical {op p q l r} (ho : op.kind = .logicAnd ∨ op.kind = .logicOr)
      (hp : Phrase.StandsFor p l) (hq : Phrase.StandsFor q r) :
      Phrase.StandsFor (.binary op p q) ⟨p.start, none, .logical op.text l r⟩
  | binary {op p q l r} (ha : op.kind ≠ .logicAnd) (ho : op.kind ≠ .logicOr)
      (hp : Phrase.StandsFor p l) (hq : Phrase.StandsFor q r) :
      Phrase.StandsFor (.binary op p q) ⟨p.start, none, .binary op.text l r⟩
  | conditional {p q r t c a} (hp : Phrase.StandsFor p t) (hq : Phrase.StandsFor q c)
      (hr : Phrase.StandsFor r a) :
      Phrase.StandsFor (.conditional p q r) ⟨p.start, none, .conditional t c a⟩
  /-- What is assigned to is a name or a member. -/
  | assignment {op p q l r} (hp : Phrase.StandsFor p l)
      (hl : l.kind = .identifier ∨ l.kind = .member) (hq : Phrase.StandsFor q r) :
      Phrase.StandsFor (.assignment op p q) ⟨p.start, none, .assignment op.text l r⟩
  /-- The parameters of an arrow function are names. -/
  | arrow {loc params body ps b} (hp : List.Forall₂ Phrase.StandsFor params ps)
      (hn : ∀ p ∈ ps, p.kind = .identifier) (hb : ArrowBody.StandsFor body b) :
      Phrase.StandsFor (.arrow loc params body) ⟨loc, none, .arrow ps b⟩

/-- The body of an arrow function stands for the node. -/
inductive ArrowBody.StandsFor : ArrowBody → Node → Prop
  | block {b n} (h : Block.StandsFor b n) : ArrowBody.StandsFor (.block b) n
  | phrase {p n} (h : Phrase.StandsFor p n) : ArrowBody.StandsFor (.phrase p) n

/-- The entry of an object stands for the node. -/
inductive ObjectEntry.StandsFor : ObjectEntry → Node → Prop
  | pair {t p k v} (hk : t.IsKey k) (hv : Phrase.StandsFor p v) :
      ObjectEntry.StandsFor (.pair t p) ⟨t.loc, none, .property k v false⟩
  /-- The name is the key and the value. -/
  | shorthand {t n} (h : t.Names n) :
      ObjectEntry.StandsFor (.shorthand t) ⟨t.loc, none, .property n n true⟩

/-- The declarator stands for the node. -/
inductive Declarator.StandsFor : Declarator → Node → Prop
  | mk {t init id v} (ht : t.Names id) (hv : Option.Rel Phrase.StandsFor init v) :
      Declarator.StandsFor (.mk t init) ⟨t.loc, none, .declarator id v⟩

/-- The braced statements stand for the node. -/
inductive Block.StandsFor : Block → Node → Prop
  | mk {loc ss ns} (h : List.Forall₂ Statement.StandsFor ss ns) :
      Block.StandsFor (.mk loc ss) ⟨loc, none, .block ns⟩

/-- The start of a counting loop stands for the node. -/
inductive LoopInit.StandsFor : LoopInit → Node → Prop
  | declaration {k ds ns} (h : List.Forall₂ Declarator.StandsFor ds ns) :
      LoopInit.StandsFor (.declaration k ds) ⟨k.loc, none, .declaration k.text ns⟩
  | phrase {p n} (h : Phrase.StandsFor p n) : LoopInit.StandsFor (.phrase p) n

/-- The `catch` part stands for the node. -/
inductive Handler.StandsFor : Handler → Node → Prop
  | mk {loc param body id b} (hp : Option.Rel Token.Names param id) (hb : Block.StandsFor body b) :
      Handler.StandsFor (.mk loc param body) ⟨loc, none, .catchClause id b⟩

/-- The statement stands for the node. -/
inductive Statement.StandsFor : Statement → Node → Prop
  | declaration {k ds ns} (h : List.Forall₂ Declarator.StandsFor ds ns) :
      Statement.StandsFor (.declaration k ds) ⟨k.loc, none, .declaration k.text ns⟩
  | expression {p n} (h : Phrase.StandsFor p n) :
      Statement.StandsFor (.expression p) ⟨p.start, none, .expression n⟩
  | «return» {loc value v} (h : Option.Rel Phrase.StandsFor value v) :
      Statement.StandsFor (.return loc value) ⟨loc, none, .return v⟩
  | «if» {loc p s a t c e} (hp : Phrase.StandsFor p t) (hs : Statement.StandsFor s c)
      (ha : Option.Rel Statement.StandsFor a e) :
      Statement.StandsFor (.if loc p s a) ⟨loc, none, .if t c e⟩
  | «while» {loc p s t b} (hp : Phrase.StandsFor p t) (hs : Statement.StandsFor s b) :
      Statement.StandsFor (.while loc p s) ⟨loc, none, .while t b⟩
  | «for» {loc init test update s i t u b} (hi : Option.Rel LoopInit.StandsFor init i)
      (ht : Option.Rel Phrase.StandsFor test t) (hu : Option.Rel Phrase.StandsFor update u)
      (hs : Statement.StandsFor s b) :
      Statement.StandsFor (.for loc init test update s) ⟨loc, none, .for i t u b⟩
  /-- The declaration is placed at its keyword, its one declarator at the name. -/
  | forOf {loc k t p s id r b} (ht : t.Names id) (hp : Phrase.StandsFor p r)
      (hs : Statement.StandsFor s b) :
      Statement.StandsFor (.forOf loc k t p s) ⟨loc, none, .forOf
        ⟨k.loc, none, .declaration k.text [⟨t.loc, none, .declarator id none⟩]⟩ r b⟩
  | function {loc t params body id ps b} (ht : t.Names id) (hp : List.Forall₂ Token.Names params ps)
      (hb : Block.StandsFor body b) :
      Statement.StandsFor (.function loc t params body) ⟨loc, none, .functionDecl id ps b⟩
  | block {b n} (h : Block.StandsFor b n) : Statement.StandsFor (.block b) n
  | «break» {loc} : Statement.StandsFor (.break loc) ⟨loc, none, .break⟩
  | «continue» {loc} : Statement.StandsFor (.continue loc) ⟨loc, none, .continue⟩
  | throw {loc p n} (h : Phrase.StandsFor p n) :
      Statement.StandsFor (.throw loc p) ⟨loc, none, .throw n⟩
  | «try» {loc body handler finalizer b h f} (hb : Block.StandsFor body b)
      (hh : Option.Rel Handler.StandsFor handler h) (hf : Option.Rel Block.StandsFor finalizer f) :
      Statement.StandsFor (.try loc body handler finalizer) ⟨loc, none, .try b h f⟩

end

/-- The statements stand for the tree of a script. -/
inductive ProgramOf : List Statement → Node → Prop
  | mk {ss ns} (h : List.Forall₂ Statement.StandsFor ss ns) :
      ProgramOf ss ⟨.start, none, .program ns⟩

/-! ## The trees that are made -/

mutual

/-- The tree that is made of an expression, if one is made, is the one that it stands for. -/
theorem Phrase.toNode_ok : (p : Phrase) → (n : Node) → p.toNode = .ok n ↔ p.StandsFor n
  | .name t, n => by
    rw [Phrase.toNode, Except.ok.injEq, Token.toIdentifier_eq]
    exact ⟨.name, fun | .name h => h⟩
  | .number t, n => by
    rw [Phrase.toNode, Token.toNumber_ok_iff]
    exact ⟨.number, fun | .number h => h⟩
  | .string t, n => by
    rw [Phrase.toNode, Except.ok.injEq]
    exact ⟨by rintro rfl; exact .string, fun | .string => rfl⟩
  | .constant t, n => by
    rw [Phrase.toNode, Except.ok.injEq, Token.toConstant_eq]
    exact ⟨.constant, fun | .constant h => h⟩
  | .this t, n => by
    rw [Phrase.toNode, Except.ok.injEq]
    exact ⟨by rintro rfl; exact .this, fun | .this => rfl⟩
  | .group _ p, n => by
    rw [Phrase.toNode, p.toNode_ok]
    exact ⟨.group, fun | .group h => h⟩
  | .array _ es, n => by
    simp only [Phrase.toNode, bind_ok, pure_ok, phraseNodes_ok es]
    exact ⟨by rintro ⟨_, h, rfl⟩; exact .array h, fun | .array h => ⟨_, h, rfl⟩⟩
  | .object _ es, n => by
    simp only [Phrase.toNode, bind_ok, pure_ok, entryNodes_ok es]
    exact ⟨by rintro ⟨_, h, rfl⟩; exact .object h, fun | .object h => ⟨_, h, rfl⟩⟩
  | .function _ name params b, n => by
    simp only [Phrase.toNode, bind_ok, pure_ok, b.toNode_ok]
    constructor
    · rintro ⟨_, hb, rfl⟩
      exact .function (Token.option_toIdentifier_eq.1 rfl) (Token.map_toIdentifier_eq.1 rfl) hb
    · intro h
      cases h with
      | function hn hp hb =>
        rw [Token.option_toIdentifier_eq.2 hn, Token.map_toIdentifier_eq.2 hp]
        exact ⟨_, hb, rfl⟩
  | .construct _ t path none, n => by
    simp only [Phrase.toNode, argumentNodes, bind_ok, pure_ok]
    constructor
    · rintro ⟨_, ⟨⟩, rfl⟩
      exact .constructBare (constructTarget_eq.1 rfl)
    · intro h
      cases h with
      | constructBare hc =>
        rw [constructTarget_eq.2 hc]
        exact ⟨_, rfl, rfl⟩
  | .construct _ t path (some as), n => by
    simp only [Phrase.toNode, argumentNodes, bind_ok, pure_ok, phraseNodes_ok as]
    constructor
    · rintro ⟨_, ha, rfl⟩
      exact .construct (constructTarget_eq.1 rfl) ha
    · intro h
      cases h with
      | construct hc ha =>
        rw [constructTarget_eq.2 hc]
        exact ⟨_, ha, rfl⟩
  | .member o t, n => by
    simp only [Phrase.toNode, bind_ok, pure_ok, o.toNode_ok]
    constructor
    · rintro ⟨_, ho, rfl⟩
      exact .member ho .mk
    · intro h
      cases h with
      | member ho ht =>
        rw [Token.toIdentifier_eq.2 ht]
        exact ⟨_, ho, rfl⟩
  | .index o k, n => by
    simp only [Phrase.toNode, bind_ok, pure_ok, o.toNode_ok, k.toNode_ok]
    exact ⟨by rintro ⟨_, ho, _, hk, rfl⟩; exact .index ho hk,
      fun | .index ho hk => ⟨_, ho, _, hk, rfl⟩⟩
  | .call c as, n => by
    simp only [Phrase.toNode, bind_ok, pure_ok, c.toNode_ok, phraseNodes_ok as]
    exact ⟨by rintro ⟨_, hc, _, ha, rfl⟩; exact .call hc ha,
      fun | .call hc ha => ⟨_, hc, _, ha, rfl⟩⟩
  | .update p op, n => by
    simp only [Phrase.toNode, bind_ok, pure_ok, p.toNode_ok]
    exact ⟨by rintro ⟨_, hp, rfl⟩; exact .update hp, fun | .update hp => ⟨_, hp, rfl⟩⟩
  | .unary op p, n => by
    simp only [Phrase.toNode, bind_ok, pure_ok, p.toNode_ok, unaryShape]
    constructor
    · rintro ⟨_, hp, rfl⟩
      split
      · next ho => exact .await ho hp
      · next ho => exact .unary ho hp
    · intro h
      cases h with
      | await ho hp => exact ⟨_, hp, by rw [ho]; rfl⟩
      | unary ho hp =>
        refine ⟨_, hp, ?_⟩
        split
        · contradiction
        · rfl
  | .binary op l r, n => by
    simp only [Phrase.toNode, bind_ok, pure_ok, l.toNode_ok, r.toNode_ok, binaryShape]
    constructor
    · rintro ⟨_, hl, _, hr, rfl⟩
      split
      · next ho => exact .logical (.inl ho) hl hr
      · next ho => exact .logical (.inr ho) hl hr
      · next ha ho => exact .binary ha ho hl hr
    · intro h
      cases h with
      | logical ho hl hr =>
        refine ⟨_, hl, _, hr, ?_⟩
        rcases ho with ho | ho <;> rw [ho] <;> rfl
      | binary ha ho hl hr =>
        refine ⟨_, hl, _, hr, ?_⟩
        split
        · contradiction
        · contradiction
        · rfl
  | .conditional t c a, n => by
    simp only [Phrase.toNode, bind_ok, pure_ok, t.toNode_ok, c.toNode_ok, a.toNode_ok]
    exact ⟨by rintro ⟨_, ht, _, hc, _, ha, rfl⟩; exact .conditional ht hc ha,
      fun | .conditional ht hc ha => ⟨_, ht, _, hc, _, ha, rfl⟩⟩
  | .assignment op p v, n => by
    simp only [Phrase.toNode, bind_ok, p.toNode_ok]
    constructor
    · rintro ⟨target, hp, h⟩
      split at h
      · next hk =>
        simp only [bind_ok, pure_ok, v.toNode_ok] at h
        obtain ⟨_, hv, rfl⟩ := h
        exact .assignment hp (NodeKind.isTarget_iff.1 hk) hv
      · cases h
    · intro h
      cases h with
      | assignment hp hk hv =>
        refine ⟨_, hp, ?_⟩
        rw [if_pos (NodeKind.isTarget_iff.2 hk)]
        simp only [bind_ok, pure_ok, v.toNode_ok]
        exact ⟨_, hv, rfl⟩
  | .arrow _ ps b, n => by
    simp only [Phrase.toNode, bind_ok, pure_ok, parameterNodes_ok ps, b.toNode_ok]
    exact ⟨by rintro ⟨_, ⟨hp, hn⟩, _, hb, rfl⟩; exact .arrow hp hn hb,
      fun | .arrow hp hn hb => ⟨_, ⟨hp, hn⟩, _, hb, rfl⟩⟩

theorem phraseNodes_ok : (ps : List Phrase) → (ns : List Node) →
    phraseNodes ps = .ok ns ↔ List.Forall₂ Phrase.StandsFor ps ns
  | [], ns => nil_ok _ ns
  | p :: ps, ns => cons_ok p.toNode_ok (phraseNodes_ok ps) ns

theorem parameterNodes_ok : (ps : List Phrase) → (ns : List Node) → parameterNodes ps = .ok ns ↔
    List.Forall₂ Phrase.StandsFor ps ns ∧ ∀ n ∈ ns, n.kind = .identifier
  | [], ns => by
    rw [parameterNodes, nil_ok Phrase.StandsFor]
    exact ⟨fun h => ⟨h, by cases h; exact List.forall_mem_nil _⟩, And.left⟩
  | p :: ps, ns => by
    simp only [parameterNodes, bind_ok, p.toNode_ok]
    constructor
    · rintro ⟨n, hp, h⟩
      split at h
      · next hk =>
        simp only [bind_ok, pure_ok, parameterNodes_ok ps] at h
        obtain ⟨ns, ⟨hps, hns⟩, rfl⟩ := h
        exact ⟨.cons hp hps, List.forall_mem_cons.2 ⟨hk, hns⟩⟩
      · cases h
    · rintro ⟨_ | ⟨hp, hps⟩, hk⟩
      obtain ⟨hk, hns⟩ := List.forall_mem_cons.1 hk
      refine ⟨_, hp, ?_⟩
      rw [if_pos hk]
      simp only [bind_ok, pure_ok, parameterNodes_ok ps]
      exact ⟨_, ⟨hps, hns⟩, rfl⟩

theorem ObjectEntry.toNode_ok : (e : ObjectEntry) → (n : Node) → e.toNode = .ok n ↔ e.StandsFor n
  | .shorthand t, n => by
    rw [ObjectEntry.toNode, Except.ok.injEq]
    exact ⟨by rintro rfl; exact .shorthand .mk, fun | .shorthand .mk => rfl⟩
  | .pair t p, n => by
    simp only [ObjectEntry.toNode, bind_ok, pure_ok, Token.toKey_ok_iff, p.toNode_ok]
    exact ⟨by rintro ⟨_, hk, _, hp, rfl⟩; exact .pair hk hp,
      fun | .pair hk hp => ⟨_, hk, _, hp, rfl⟩⟩

theorem entryNodes_ok : (es : List ObjectEntry) → (ns : List Node) →
    entryNodes es = .ok ns ↔ List.Forall₂ ObjectEntry.StandsFor es ns
  | [], ns => nil_ok _ ns
  | e :: es, ns => cons_ok e.toNode_ok (entryNodes_ok es) ns

theorem ArrowBody.toNode_ok : (b : ArrowBody) → (n : Node) → b.toNode = .ok n ↔ b.StandsFor n
  | .block b, n => by
    rw [ArrowBody.toNode, b.toNode_ok]
    exact ⟨.block, fun | .block h => h⟩
  | .phrase p, n => by
    rw [ArrowBody.toNode, p.toNode_ok]
    exact ⟨.phrase, fun | .phrase h => h⟩

theorem Declarator.toNode_ok : (d : Declarator) → (n : Node) → d.toNode = .ok n ↔ d.StandsFor n
  | .mk t init, n => by
    simp only [Declarator.toNode, bind_ok, pure_ok, optionalNode_ok init]
    exact ⟨by rintro ⟨_, h, rfl⟩; exact .mk .mk h, fun | .mk .mk h => ⟨_, h, rfl⟩⟩

theorem declaratorNodes_ok : (ds : List Declarator) → (ns : List Node) →
    declaratorNodes ds = .ok ns ↔ List.Forall₂ Declarator.StandsFor ds ns
  | [], ns => nil_ok _ ns
  | d :: ds, ns => cons_ok d.toNode_ok (declaratorNodes_ok ds) ns

theorem optionalNode_ok : (o : Option Phrase) → (r : Option Node) →
    optionalNode o = .ok r ↔ Option.Rel Phrase.StandsFor o r
  | none, r => none_ok _ r
  | some p, r => some_ok p.toNode_ok r

theorem Block.toNode_ok : (b : Block) → (n : Node) → b.toNode = .ok n ↔ b.StandsFor n
  | .mk _ ss, n => by
    simp only [Block.toNode, bind_ok, pure_ok, statementNodes_ok ss]
    exact ⟨by rintro ⟨_, h, rfl⟩; exact .mk h, fun | .mk h => ⟨_, h, rfl⟩⟩

theorem optionalBlock_ok : (o : Option Block) → (r : Option Node) →
    optionalBlock o = .ok r ↔ Option.Rel Block.StandsFor o r
  | none, r => none_ok _ r
  | some b, r => some_ok b.toNode_ok r

theorem LoopInit.toNode_ok : (i : LoopInit) → (n : Node) → i.toNode = .ok n ↔ i.StandsFor n
  | .declaration k ds, n => by
    simp only [LoopInit.toNode, bind_ok, pure_ok, declaratorNodes_ok ds]
    exact ⟨by rintro ⟨_, h, rfl⟩; exact .declaration h, fun | .declaration h => ⟨_, h, rfl⟩⟩
  | .phrase p, n => by
    rw [LoopInit.toNode, p.toNode_ok]
    exact ⟨.phrase, fun | .phrase h => h⟩

theorem optionalInit_ok : (o : Option LoopInit) → (r : Option Node) →
    optionalInit o = .ok r ↔ Option.Rel LoopInit.StandsFor o r
  | none, r => none_ok _ r
  | some i, r => some_ok i.toNode_ok r

theorem Handler.toNode_ok : (h : Handler) → (n : Node) → h.toNode = .ok n ↔ h.StandsFor n
  | .mk _ param b, n => by
    simp only [Handler.toNode, bind_ok, pure_ok, b.toNode_ok]
    constructor
    · rintro ⟨_, hb, rfl⟩
      exact .mk (Token.option_toIdentifier_eq.1 rfl) hb
    · rintro ⟨hp, hb⟩
      rw [Token.option_toIdentifier_eq.2 hp]
      exact ⟨_, hb, rfl⟩

theorem optionalHandler_ok : (o : Option Handler) → (r : Option Node) →
    optionalHandler o = .ok r ↔ Option.Rel Handler.StandsFor o r
  | none, r => none_ok _ r
  | some h, r => some_ok h.toNode_ok r

/-- The same for a statement. -/
theorem Statement.toNode_ok : (s : Statement) → (n : Node) → s.toNode = .ok n ↔ s.StandsFor n
  | .declaration k ds, n => by
    simp only [Statement.toNode, bind_ok, pure_ok, declaratorNodes_ok ds]
    exact ⟨by rintro ⟨_, h, rfl⟩; exact .declaration h, fun | .declaration h => ⟨_, h, rfl⟩⟩
  | .expression p, n => by
    simp only [Statement.toNode, bind_ok, pure_ok, p.toNode_ok]
    exact ⟨by rintro ⟨_, h, rfl⟩; exact .expression h, fun | .expression h => ⟨_, h, rfl⟩⟩
  | .return _ value, n => by
    simp only [Statement.toNode, bind_ok, pure_ok, optionalNode_ok value]
    exact ⟨by rintro ⟨_, h, rfl⟩; exact .return h, fun | .return h => ⟨_, h, rfl⟩⟩
  | .if _ t c a, n => by
    simp only [Statement.toNode, bind_ok, pure_ok, optionalStatement_ok a, t.toNode_ok, c.toNode_ok]
    exact ⟨by rintro ⟨_, ha, _, ht, _, hc, rfl⟩; exact .if ht hc ha,
      fun | .if ht hc ha => ⟨_, ha, _, ht, _, hc, rfl⟩⟩
  | .while _ t b, n => by
    simp only [Statement.toNode, bind_ok, pure_ok, t.toNode_ok, b.toNode_ok]
    exact ⟨by rintro ⟨_, ht, _, hb, rfl⟩; exact .while ht hb,
      fun | .while ht hb => ⟨_, ht, _, hb, rfl⟩⟩
  | .for _ i t u b, n => by
    simp only [Statement.toNode, bind_ok, pure_ok, optionalInit_ok i, optionalNode_ok t,
      optionalNode_ok u, b.toNode_ok]
    exact ⟨by rintro ⟨_, hi, _, ht, _, hu, _, hb, rfl⟩; exact .for hi ht hu hb,
      fun | .for hi ht hu hb => ⟨_, hi, _, ht, _, hu, _, hb, rfl⟩⟩
  | .forOf _ k t p b, n => by
    simp only [Statement.toNode, bind_ok, pure_ok, p.toNode_ok, b.toNode_ok]
    exact ⟨by rintro ⟨_, hp, _, hb, rfl⟩; exact .forOf .mk hp hb,
      fun | .forOf .mk hp hb => ⟨_, hp, _, hb, rfl⟩⟩
  | .function _ t params b, n => by
    simp only [Statement.toNode, bind_ok, pure_ok, b.toNode_ok]
    constructor
    · rintro ⟨_, hb, rfl⟩
      exact .function .mk (Token.map_toIdentifier_eq.1 rfl) hb
    · intro h
      cases h with
      | function ht hp hb =>
        rw [Token.toIdentifier_eq.2 ht, Token.map_toIdentifier_eq.2 hp]
        exact ⟨_, hb, rfl⟩
  | .block b, n => by
    rw [Statement.toNode, b.toNode_ok]
    exact ⟨.block, fun | .block h => h⟩
  | .break _, n => by
    rw [Statement.toNode, Except.ok.injEq]
    exact ⟨by rintro rfl; exact .break, fun | .break => rfl⟩
  | .continue _, n => by
    rw [Statement.toNode, Except.ok.injEq]
    exact ⟨by rintro rfl; exact .continue, fun | .continue => rfl⟩
  | .throw _ p, n => by
    simp only [Statement.toNode, bind_ok, pure_ok, p.toNode_ok]
    exact ⟨by rintro ⟨_, h, rfl⟩; exact .throw h, fun | .throw h => ⟨_, h, rfl⟩⟩
  | .try _ b h f, n => by
    simp only [Statement.toNode, bind_ok, pure_ok, b.toNode_ok, optionalHandler_ok h,
      optionalBlock_ok f]
    exact ⟨by rintro ⟨_, hb, _, hh, _, hf, rfl⟩; exact .try hb hh hf,
      fun | .try hb hh hf => ⟨_, hb, _, hh, _, hf, rfl⟩⟩

theorem optionalStatement_ok : (o : Option Statement) → (r : Option Node) →
    optionalStatement o = .ok r ↔ Option.Rel Statement.StandsFor o r
  | none, r => none_ok _ r
  | some s, r => some_ok s.toNode_ok r

theorem statementNodes_ok : (ss : List Statement) → (ns : List Node) →
    statementNodes ss = .ok ns ↔ List.Forall₂ Statement.StandsFor ss ns
  | [], ns => nil_ok _ ns
  | s :: ss, ns => cons_ok s.toNode_ok (statementNodes_ok ss) ns

end

/-- **The tree that is made** of a script is the one that its statements stand for. -/
theorem Node.ofStatements_eq_ok {ss : List Statement} {tree : Node} :
    Node.ofStatements ss = .ok tree ↔ ProgramOf ss tree := by
  simp only [Node.ofStatements, bind_ok, pure_ok, statementNodes_ok ss]
  exact ⟨by rintro ⟨_, h, rfl⟩; exact .mk h, fun | .mk h => ⟨_, h, rfl⟩⟩

end AutoAwait
