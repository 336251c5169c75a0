import AutoAwait.Proofs.Grammar.First
import AutoAwait.Proofs.Token.Reading
import AutoAwait.ParseTree.ToNode

/-!
# Parse trees of a text at another place

* `Phrase.move` and its companions move every token of a parse tree;
* `Spells.move` says that moved tokens spell the moved tree, whatever becomes of terminators;
* `Statement.toNode_move` that the syntax tree is moved along.
-/

namespace AutoAwait

variable (φ : Position → Position)

mutual

/-- An expression at another place. -/
def Phrase.move : Phrase → Phrase
  | .name t => .name (t.move φ)
  | .number t => .number (t.move φ)
  | .string t => .string (t.move φ)
  | .constant t => .constant (t.move φ)
  | .this t => .this (t.move φ)
  | .group p inner => .group (φ p) inner.move
  | .array p es => .array (φ p) (movePhrases es)
  | .object p es => .object (φ p) (moveEntries es)
  | .function p name params body =>
    .function (φ p) (name.map (·.move φ)) (params.map (·.move φ)) body.move
  | .construct p t path args =>
    .construct (φ p) (t.move φ) (path.map (·.move φ)) (moveArguments args)
  | .member o t => .member o.move (t.move φ)
  | .index o k => .index o.move k.move
  | .call c args => .call c.move (movePhrases args)
  | .update p op => .update p.move (op.move φ)
  | .unary op p => .unary (op.move φ) p.move
  | .binary op l r => .binary (op.move φ) l.move r.move
  | .conditional t c a => .conditional t.move c.move a.move
  | .assignment op t v => .assignment (op.move φ) t.move v.move
  | .arrow p ps b => .arrow (φ p) (movePhrases ps) b.move

/-- Expressions in a list. -/
def movePhrases : List Phrase → List Phrase
  | [] => []
  | p :: ps => p.move :: movePhrases ps

/-- The arguments of `new`. -/
def moveArguments : Option (List Phrase) → Option (List Phrase)
  | none => none
  | some ps => some (movePhrases ps)

/-- The body of an arrow function at another place. -/
def ArrowBody.move : ArrowBody → ArrowBody
  | .block b => .block b.move
  | .phrase p => .phrase p.move

/-- An entry of an object at another place. -/
def ObjectEntry.move : ObjectEntry → ObjectEntry
  | .pair t p => .pair (t.move φ) p.move
  | .shorthand t => .shorthand (t.move φ)

/-- Entries in a list. -/
def moveEntries : List ObjectEntry → List ObjectEntry
  | [] => []
  | e :: es => e.move :: moveEntries es

/-- A declarator at another place. -/
def Declarator.move : Declarator → Declarator
  | .mk t init => .mk (t.move φ) (movePhrase? init)

/-- Declarators in a list. -/
def moveDeclarators : List Declarator → List Declarator
  | [] => []
  | d :: ds => d.move :: moveDeclarators ds

/-- An expression that can be missing. -/
def movePhrase? : Option Phrase → Option Phrase
  | none => none
  | some p => some p.move

/-- A block at another place. -/
def Block.move : Block → Block
  | .mk p body => .mk (φ p) (moveStatements body)

/-- A block that can be missing. -/
def moveBlock? : Option Block → Option Block
  | none => none
  | some b => some b.move

/-- What a counting loop starts with, at another place. -/
def LoopInit.move : LoopInit → LoopInit
  | .declaration t ds => .declaration (t.move φ) (moveDeclarators ds)
  | .phrase p => .phrase p.move

/-- The start of a counting loop that can be missing. -/
def moveInit? : Option LoopInit → Option LoopInit
  | none => none
  | some i => some i.move

/-- The `catch` part of a `try` at another place. -/
def Handler.move : Handler → Handler
  | .mk p param body => .mk (φ p) (param.map (·.move φ)) body.move

/-- A `catch` part that can be missing. -/
def moveHandler? : Option Handler → Option Handler
  | none => none
  | some h => some h.move

/-- A statement at another place. -/
def Statement.move : Statement → Statement
  | .declaration t ds => .declaration (t.move φ) (moveDeclarators ds)
  | .expression p => .expression p.move
  | .return p value => .return (φ p) (movePhrase? value)
  | .if p test consequent alternate =>
    .if (φ p) test.move consequent.move (moveStatement? alternate)
  | .while p test body => .while (φ p) test.move body.move
  | .for p init test update body =>
    .for (φ p) (moveInit? init) (movePhrase? test) (movePhrase? update) body.move
  | .forOf p kind name iterated body =>
    .forOf (φ p) (kind.move φ) (name.move φ) iterated.move body.move
  | .function p name params body =>
    .function (φ p) (name.move φ) (params.map (·.move φ)) body.move
  | .block b => .block b.move
  | .break p => .break (φ p)
  | .continue p => .continue (φ p)
  | .throw p value => .throw (φ p) value.move
  | .try p body handler finalizer =>
    .try (φ p) body.move (moveHandler? handler) (moveBlock? finalizer)

/-- A statement that can be missing. -/
def moveStatement? : Option Statement → Option Statement
  | none => none
  | some s => some s.move

/-- Statements in a list. -/
def moveStatements : List Statement → List Statement
  | [] => []
  | s :: ss => s.move :: moveStatements ss

end

section lists
variable {φ : Position → Position}

theorem movePhrases_eq (ps : List Phrase) : movePhrases φ ps = ps.map (·.move φ) := by
  induction ps with
  | nil => rfl
  | cons p ps ih => rw [movePhrases, ih, List.map_cons]

theorem moveArguments_eq (args : Option (List Phrase)) :
    moveArguments φ args = args.map (·.map (·.move φ)) := by
  cases args with
  | none => rfl
  | some ps => exact congrArg some (movePhrases_eq ps)

theorem moveEntries_eq (es : List ObjectEntry) : moveEntries φ es = es.map (·.move φ) := by
  induction es with
  | nil => rfl
  | cons e es ih => rw [moveEntries, ih, List.map_cons]

theorem moveDeclarators_eq (ds : List Declarator) :
    moveDeclarators φ ds = ds.map (·.move φ) := by
  induction ds with
  | nil => rfl
  | cons d ds ih => rw [moveDeclarators, ih, List.map_cons]

theorem moveStatements_eq (ss : List Statement) : moveStatements φ ss = ss.map (·.move φ) := by
  induction ss with
  | nil => rfl
  | cons s ss ih => rw [moveStatements, ih, List.map_cons]

theorem movePhrase?_eq (o : Option Phrase) : movePhrase? φ o = o.map (·.move φ) := by
  cases o <;> rfl

theorem moveBlock?_eq (o : Option Block) : moveBlock? φ o = o.map (·.move φ) := by
  cases o <;> rfl

theorem moveInit?_eq (o : Option LoopInit) : moveInit? φ o = o.map (·.move φ) := by
  cases o <;> rfl

theorem moveHandler?_eq (o : Option Handler) : moveHandler? φ o = o.map (·.move φ) := by
  cases o <;> rfl

theorem moveStatement?_eq (o : Option Statement) : moveStatement? φ o = o.map (·.move φ) := by
  cases o <;> rfl

end lists

mutual

/-- A form at another place. -/
def Form.move : Form → Form
  | .phrase level p => .phrase level (p.move φ)
  | .name t => .name (t.move φ)
  | .path ts => .path (ts.map (·.move φ))
  | .entry e => .entry (e.move φ)
  | .arrowBody b => .arrowBody (b.move φ)
  | .value p => .value (p.move φ)
  | .declarator d => .declarator (d.move φ)
  | .block b => .block (b.move φ)
  | .init i => .init (i.move φ)
  | .handler h => .handler (h.move φ)
  | .finalizer b => .finalizer (b.move φ)
  | .alternate s => .alternate (s.move φ)
  | .stmt s => .stmt (s.move φ)
  | .stmts ss => .stmts (ss.map (·.move φ))
  | .parens f => .parens f.move
  | .opt f => .opt (moveForm? f)
  | .commas fs => .commas (moveForms fs)
  | .more fs => .more (moveForms fs)
  | .list fs => .list (moveForms fs)
  | .items fs => .items (moveForms fs)

/-- Forms in a list. -/
def moveForms : List Form → List Form
  | [] => []
  | f :: fs => f.move :: moveForms fs

/-- A form that can be missing. -/
def moveForm? : Option Form → Option Form
  | none => none
  | some f => some f.move

end

section forms
variable {φ : Position → Position} {α : Type} {c : α → Form} {g : α → α}

theorem moveForms_map (h : ∀ a, (c a).move φ = c (g a)) (as : List α) :
    moveForms φ (as.map c) = (as.map g).map c := by
  induction as with
  | nil => rfl
  | cons a as ih => rw [List.map_cons, moveForms, h, ih]; rfl

theorem moveForm?_map (h : ∀ a, (c a).move φ = c (g a)) (o : Option α) :
    moveForm? φ (o.map c) = (o.map g).map c := by
  cases o with
  | none => rfl
  | some a => exact congrArg some (h a)

theorem Form.args_move (ps : List Phrase) :
    (Form.args ps).move φ = Form.args (ps.map (·.move φ)) := by
  rw [Form.args, Form.move, Form.move, moveForms_map (g := (·.move φ)) fun _ => rfl]

theorem Form.params_move (ts : List Token) :
    (Form.params ts).move φ = Form.params (ts.map (·.move φ)) := by
  rw [Form.params, Form.move, Form.move, moveForms_map (g := (·.move φ)) fun _ => rfl]

end forms

variable {φ}

@[simp] theorem Phrase.isBareNew_move (p : Phrase) : (p.move φ).isBareNew = p.isBareNew := by
  cases p with
  | construct k t path args => cases args <;> rfl
  | _ => rfl

@[simp] theorem Statement.isOpen_move : (s : Statement) → (s.move φ).isOpen = s.isOpen
  | .if _ _ _ none => rfl
  | .if _ _ _ (some a) => a.isOpen_move
  | .while _ _ b | .for _ _ _ _ b | .forOf _ _ _ _ b => b.isOpen_move
  | .declaration .. | .expression _ | .return .. | .function .. | .block _ | .break _ | .continue _
  | .throw .. | .try .. => rfl

/-! ## What moved tokens spell -/

/-- Is the second token the first one at another place? For a terminator any other one will do. -/
structure Moved (φ : Position → Position) (t t' : Token) : Prop where
  kind : t'.kind = t.kind
  eq : t.kind ≠ .terminator → t' = t.move φ

section moved
variable {t e l r : Token} {k : TokenKind} {ts us ts' : List Token}

theorem moved_append (h : List.Forall₂ (Moved φ) (ts ++ us) ts') : ∃ vs ws, ts' = vs ++ ws ∧
    List.Forall₂ (Moved φ) ts vs ∧ List.Forall₂ (Moved φ) us ws := by
  refine ⟨ts'.take ts.length, ts'.drop ts.length, (List.take_append_drop _ _).symm, ?_, ?_⟩
  · simpa using List.forall₂_take ts.length h
  · simpa using List.forall₂_drop ts.length h

theorem moved_cons (h : List.Forall₂ (Moved φ) (t :: ts) ts') (ht : t.kind ≠ .terminator) :
    ∃ us, ts' = t.move φ :: us ∧ List.Forall₂ (Moved φ) ts us := by
  obtain _ | ⟨ht', hts⟩ := h
  exact ⟨_, by rw [ht'.eq ht], hts⟩

theorem moved_end (h : List.Forall₂ (Moved φ) (e :: ts) ts') :
    ∃ e' us, ts' = e' :: us ∧ e'.kind = e.kind ∧ List.Forall₂ (Moved φ) ts us := by
  obtain _ | ⟨he, hts⟩ := h
  exact ⟨_, _, rfl, he.kind, hts⟩

/-- Tokens between two brackets. -/
theorem moved_enclosed (h : List.Forall₂ (Moved φ) (l :: ts ++ [r]) ts')
    (hl : l.kind ≠ .terminator) (hr : r.kind ≠ .terminator) :
    ∃ us, ts' = l.move φ :: us ++ [r.move φ] ∧ List.Forall₂ (Moved φ) ts us := by
  obtain ⟨_, _, rfl, h₁, h₂⟩ := moved_append h
  obtain ⟨us, rfl, hts⟩ := moved_cons h₁ hl
  obtain ⟨_, rfl, ⟨⟩⟩ := moved_cons h₂ hr
  exact ⟨us, rfl, hts⟩

/-- Tokens between the word that begins a statement and the terminator after it. -/
theorem moved_ended (h : List.Forall₂ (Moved φ) (t :: ts ++ [e]) ts')
    (ht : t.kind ≠ .terminator) : ∃ us e', ts' = t.move φ :: us ++ [e'] ∧ e'.kind = e.kind ∧
      List.Forall₂ (Moved φ) ts us := by
  obtain ⟨_, _, rfl, h₁, h₂⟩ := moved_append h
  obtain ⟨us, rfl, hts⟩ := moved_cons h₁ ht
  obtain ⟨e', _, rfl, he, ⟨⟩⟩ := moved_end h₂
  exact ⟨us, e', rfl, he, hts⟩

end moved

theorem Spells.move {f : Form} {ts ts' : List Token} (h : Spells f ts)
    (hm : List.Forall₂ (Moved φ) ts ts') : Spells (f.move φ) ts' := by
  induction h generalizing ts' with
  -- Expressions that are no operator's
  | nameRef ht =>
    obtain ⟨_, rfl, ⟨⟩⟩ := moved_cons hm (by simp [ht])
    exact .nameRef ht
  | number ht =>
    obtain ⟨_, rfl, ⟨⟩⟩ := moved_cons hm (by simp [ht])
    exact .number ht
  | string ht =>
    obtain ⟨_, rfl, ⟨⟩⟩ := moved_cons hm (by simp [ht])
    exact .string ht
  | constant ht =>
    obtain ⟨_, rfl, ⟨⟩⟩ := moved_cons hm (TokenKind.ne_of_holds ht rfl)
    exact .constant ht
  | this ht =>
    obtain ⟨_, rfl, ⟨⟩⟩ := moved_cons hm (by simp [ht])
    exact .this ht
  | @group l r p ts hl h hr ih =>
    obtain ⟨_, rfl, h₁⟩ := moved_enclosed hm (by simp [hl]) (by simp [hr])
    exact .group (l := l.move φ) hl (ih h₁) hr
  | @array l r es ts hl h hr ih =>
    obtain ⟨_, rfl, h₁⟩ := moved_enclosed hm (by simp [hl]) (by simp [hr])
    have hs := ih h₁
    rw [Form.move, moveForms_map (g := (·.move φ)) fun _ => rfl] at hs
    rw [Form.move, Phrase.move, movePhrases_eq]
    exact .array (l := l.move φ) hl hs hr
  | @object l r es ts hl h hr ih =>
    obtain ⟨_, rfl, h₁⟩ := moved_enclosed hm (by simp [hl]) (by simp [hr])
    have hs := ih h₁
    rw [Form.move, moveForms_map (g := (·.move φ)) fun _ => rfl] at hs
    rw [Form.move, Phrase.move, moveEntries_eq]
    exact .object (l := l.move φ) hl hs hr
  | @function k name params body ns ps bs hk hn hp hb ihn ihp ihb =>
    obtain ⟨_, _, rfl, h₁, h₂⟩ := moved_append hm
    obtain ⟨_, _, rfl, i₁, h₃⟩ := moved_append h₁
    obtain ⟨_, rfl, j₁⟩ := moved_cons i₁ (by simp [hk])
    have hns := ihn j₁
    have hps := ihp h₃
    rw [Form.move, moveForm?_map (g := (·.move φ)) fun _ => rfl] at hns
    rw [Form.params_move] at hps
    exact .function (k := k.move φ) hk hns hps (ihb h₂)
  | @construct k t path args ps as hk ht hp ha ihp iha =>
    obtain ⟨_, _, rfl, h₁, h₂⟩ := moved_append hm
    obtain ⟨_, rfl, i₁⟩ := moved_cons h₁ (by simp [hk])
    obtain ⟨_, rfl, j₁⟩ := moved_cons i₁ (by simp [ht])
    have has := iha h₂
    rw [Form.move, moveForm?_map (g := (·.map (·.move φ))) Form.args_move] at has
    rw [Form.move, Phrase.move, moveArguments_eq]
    exact .construct (k := k.move φ) hk ht (ihp j₁) has
  -- Accesses and calls
  | @member o d t os ho hn hd ht ih =>
    obtain ⟨_, _, rfl, h₁, h₂⟩ := moved_append hm
    obtain ⟨_, rfl, i₂⟩ := moved_cons h₂ (by simp [hd])
    obtain ⟨_, rfl, ⟨⟩⟩ := moved_cons i₂ (by simp [ht])
    exact .member (ih h₁) (by rw [o.isBareNew_move, hn]) hd ht
  | @index o k l r os ks ho hl hk hr iho ihk =>
    obtain ⟨_, _, rfl, h₁, h₂⟩ := moved_append hm
    obtain ⟨_, _, rfl, i₁, h₃⟩ := moved_append h₁
    obtain ⟨_, rfl, i₃⟩ := moved_cons h₃ (by simp [hl])
    obtain ⟨_, rfl, ⟨⟩⟩ := moved_cons h₂ (by simp [hr])
    exact .index (l := l.move φ) (iho i₁) hl (ihk i₃) hr
  | @call c as cs ps hc hn ha ihc iha =>
    obtain ⟨_, _, rfl, h₁, h₂⟩ := moved_append hm
    have has := iha h₂
    rw [Form.args_move] at has
    rw [Form.move, Phrase.move, movePhrases_eq]
    exact .call (ihc h₁) (by rw [c.isBareNew_move, hn]) has
  -- Operators
  | @update p op ts h ho ih =>
    obtain ⟨_, _, rfl, h₁, h₂⟩ := moved_append hm
    obtain ⟨_, rfl, ⟨⟩⟩ := moved_cons h₂ (by simp [ho])
    exact .update (ih h₁) ho
  | @unary op p ts ho h ih =>
    obtain ⟨_, rfl, h₁⟩ := moved_cons hm (TokenKind.ne_of_holds ho rfl)
    exact @Spells.unary (op.move φ) (p.move φ) _ ho (ih h₁)
  | @binary l op a b ls rs ho ha hb iha ihb =>
    obtain ⟨_, _, rfl, h₁, h₂⟩ := moved_append hm
    obtain ⟨_, rfl, i₂⟩ := moved_cons h₂ fun hk => by rw [hk] at ho; cases ho
    exact @Spells.binary l (op.move φ) (a.move φ) (b.move φ) _ _ ho (iha h₁) (ihb i₂)
  | @conditional t c a q d ts cs as ht hq hc hd ha iht ihc iha =>
    obtain ⟨_, _, rfl, h₁, h₂⟩ := moved_append hm
    obtain ⟨_, _, rfl, i₁, h₃⟩ := moved_append h₁
    obtain ⟨_, rfl, i₃⟩ := moved_cons h₃ (by simp [hq])
    obtain ⟨_, rfl, i₂⟩ := moved_cons h₂ (by simp [hd])
    exact .conditional (iht i₁) hq (ihc i₃) hd (iha i₂)
  | @assignment op t v ts vs ht ho hv iht ihv =>
    obtain ⟨_, _, rfl, h₁, h₂⟩ := moved_append hm
    obtain ⟨_, rfl, i₂⟩ := moved_cons h₂ (TokenKind.ne_of_holds ho rfl)
    exact .assignment (iht h₁) ho (ihv i₂)
  | @arrowName t a b bs ht ha hb ih =>
    obtain ⟨_, rfl, h₁⟩ := moved_cons hm (by simp [ht])
    obtain ⟨_, rfl, i₁⟩ := moved_cons h₁ (by simp [ha])
    exact .arrowName (t := t.move φ) ht ha (ih i₁)
  | @arrow l r a ps b ts bs hl h hr ha hb ih ihb =>
    obtain ⟨_, _, rfl, h₁, h₂⟩ := moved_append hm
    obtain ⟨_, rfl, i₁⟩ := moved_cons h₁ (by simp [hl])
    obtain ⟨_, rfl, i₂⟩ := moved_cons h₂ (by simp [hr])
    obtain ⟨_, rfl, j₂⟩ := moved_cons i₂ (by simp [ha])
    have hs := ih i₁
    rw [Form.move, moveForms_map (g := (·.move φ)) fun _ => rfl] at hs
    rw [Form.move, Phrase.move, movePhrases_eq]
    exact .arrow (l := l.move φ) hl hs hr ha (ihb j₂)
  | lift hl h ih => exact .lift hl (ih hm)
  | arrowBlock h ih => exact .arrowBlock (ih hm)
  | arrowPhrase h ih => exact .arrowPhrase (ih hm)
  -- Parts of expressions
  | name ht =>
    obtain ⟨_, rfl, ⟨⟩⟩ := moved_cons hm (by simp [ht])
    exact .name ht
  | pathNil =>
    cases hm
    exact .pathNil
  | path hd ht h ih =>
    obtain ⟨_, rfl, h₁⟩ := moved_cons hm (by simp [hd])
    obtain ⟨_, rfl, i₁⟩ := moved_cons h₁ (by simp [ht])
    exact .path hd ht (ih i₁)
  | shorthand ht =>
    obtain ⟨_, rfl, ⟨⟩⟩ := moved_cons hm (by simp [ht])
    exact .shorthand ht
  | @pair t _ _ _ ht hc h ih =>
    have hk : t.kind ≠ .terminator :=
      ht.elim (fun h => by simp [h]) (TokenKind.ne_of_holds · rfl)
    obtain ⟨_, rfl, h₁⟩ := moved_cons hm hk
    obtain ⟨_, rfl, i₁⟩ := moved_cons h₁ (by simp [hc])
    exact .pair ht hc (ih i₁)
  | parens hl h hr ih =>
    obtain ⟨_, rfl, h₁⟩ := moved_enclosed hm (by simp [hl]) (by simp [hr])
    exact .parens hl (ih h₁) hr
  | optNone =>
    cases hm
    exact .optNone
  | optSome h ih => exact .optSome (ih hm)
  | commas h hs ih ihs =>
    obtain ⟨_, _, rfl, h₁, h₂⟩ := moved_append hm
    exact .commas (ih h₁) (ihs h₂)
  | moreNil =>
    cases hm
    exact .moreNil
  | more hc h hs ih ihs =>
    obtain ⟨_, _, rfl, h₁, h₂⟩ := moved_append hm
    obtain ⟨_, rfl, i₁⟩ := moved_cons h₁ (by simp [hc])
    exact .more hc (ih i₁) (ihs h₂)
  | listNil =>
    cases hm
    exact .listNil
  | list h ih => exact .list (ih hm)
  | itemsNil =>
    cases hm
    exact .itemsNil
  | itemsLast h ih => exact .itemsLast (ih hm)
  | items h hc hs ih ihs =>
    obtain ⟨_, _, rfl, h₁, h₂⟩ := moved_append hm
    obtain ⟨_, rfl, i₂⟩ := moved_cons h₂ (by simp [hc])
    exact .items (ih h₁) hc (ihs i₂)
  -- Parts of statements
  | value he h ih =>
    obtain ⟨_, rfl, h₁⟩ := moved_cons hm (by simp [he])
    exact .value he (ih h₁)
  | @declarator t p ts ht h ih =>
    obtain ⟨_, rfl, h₁⟩ := moved_cons hm (by simp [ht])
    have hs := ih h₁
    rw [Form.move, moveForm?_map (g := (·.move φ)) fun _ => rfl] at hs
    rw [Form.move, Declarator.move, movePhrase?_eq]
    exact .declarator ht hs
  | @block l r ss ts hl h hr ih =>
    obtain ⟨_, rfl, h₁⟩ := moved_enclosed hm (by simp [hl]) (by simp [hr])
    rw [Form.move, Block.move, moveStatements_eq]
    exact .block (l := l.move φ) hl (ih h₁) hr
  | @initDecl k ds ts hk h ih =>
    obtain ⟨_, rfl, h₁⟩ := moved_cons hm (TokenKind.ne_of_holds hk rfl)
    have hs := ih h₁
    rw [Form.move, moveForms_map (g := (·.move φ)) fun _ => rfl] at hs
    rw [Form.move, LoopInit.move, moveDeclarators_eq]
    exact .initDecl (k := k.move φ) hk hs
  | initPhrase h ih => exact .initPhrase (ih hm)
  | @handler k p b ps bs hk hp hb ihp ihb =>
    obtain ⟨_, _, rfl, h₁, h₂⟩ := moved_append hm
    obtain ⟨_, rfl, i₁⟩ := moved_cons h₁ (by simp [hk])
    have hps := ihp i₁
    rw [Form.move, moveForm?_map (g := (·.move φ)) fun _ => rfl] at hps
    exact .handler (k := k.move φ) hk hps (ihb h₂)
  | finalizer hk hb ih =>
    obtain ⟨_, rfl, h₁⟩ := moved_cons hm (by simp [hk])
    exact .finalizer hk (ih h₁)
  | alternate hk h ih =>
    obtain ⟨_, rfl, h₁⟩ := moved_cons hm (by simp [hk])
    exact .alternate hk (ih h₁)
  | stmtsNil =>
    cases hm
    exact .stmtsNil
  | stray ht h ih =>
    obtain ⟨e, _, rfl, he, h₁⟩ := moved_end hm
    exact .stray (he.trans ht) (ih h₁)
  | stmts h hs ih ihs =>
    obtain ⟨_, _, rfl, h₁, h₂⟩ := moved_append hm
    exact .stmts (ih h₁) (ihs h₂)
  -- Statements
  | @declaration k ds e ts hk h he ih =>
    obtain ⟨_, _, rfl, he', h₁⟩ := moved_ended hm (TokenKind.ne_of_holds hk rfl)
    have hs := ih h₁
    rw [Form.move, moveForms_map (g := (·.move φ)) fun _ => rfl] at hs
    rw [Form.move, Statement.move, moveDeclarators_eq]
    exact .declaration (k := k.move φ) hk hs (he'.trans he)
  | @expression p e ts h he ih =>
    obtain ⟨_, _, rfl, h₁, h₂⟩ := moved_append hm
    obtain ⟨_, _, rfl, he', ⟨⟩⟩ := moved_end h₂
    exact .expression (ih h₁) (he'.trans he)
  | @«return» k p e ts hk h he ih =>
    obtain ⟨_, _, rfl, he', h₁⟩ := moved_ended hm (by simp [hk])
    have hs := ih h₁
    rw [Form.move, moveForm?_map (g := (·.move φ)) fun _ => rfl] at hs
    rw [Form.move, Statement.move, movePhrase?_eq]
    exact .return (k := k.move φ) hk hs (he'.trans he)
  | @«if» k t s a ts ss as hk ht hs hn ha iht ihs iha =>
    obtain ⟨_, _, rfl, h₁, h₂⟩ := moved_append hm
    obtain ⟨_, _, rfl, i₁, h₃⟩ := moved_append h₁
    obtain ⟨_, rfl, j₁⟩ := moved_cons i₁ (by simp [hk])
    have has := iha h₂
    rw [Form.move, moveForm?_map (g := (·.move φ)) fun _ => rfl] at has
    rw [Form.move, Statement.move, moveStatement?_eq]
    refine .if (k := k.move φ) hk (iht j₁) (ihs h₃) (fun ho => ?_) has
    rw [s.isOpen_move]
    exact hn (by simpa using ho)
  | @«while» k t s ts ss hk ht hs iht ihs =>
    obtain ⟨_, _, rfl, h₁, h₂⟩ := moved_append hm
    obtain ⟨_, rfl, i₁⟩ := moved_cons h₁ (by simp [hk])
    exact .while (k := k.move φ) hk (iht i₁) (ihs h₂)
  | @«for» k l i d t e u r s is ts us ss hk hl hi hd ht he hu hr hs ihi iht ihu ihs =>
    obtain ⟨_, _, rfl, h₁, h₂⟩ := moved_append hm
    obtain ⟨_, _, rfl, i₁, h₃⟩ := moved_append h₁
    obtain ⟨_, _, rfl, j₁, h₄⟩ := moved_append i₁
    obtain ⟨_, rfl, k₁⟩ := moved_cons j₁ (by simp [hk])
    obtain ⟨_, rfl, l₁⟩ := moved_cons k₁ (by simp [hl])
    obtain ⟨_, rfl, i₄⟩ := moved_cons h₄ (by simp [hd])
    obtain ⟨_, rfl, i₃⟩ := moved_cons h₃ (by simp [he])
    obtain ⟨_, rfl, i₂⟩ := moved_cons h₂ (by simp [hr])
    have his := ihi l₁
    have hts := iht i₄
    have hus := ihu i₃
    rw [Form.move, moveForm?_map (g := (·.move φ)) fun _ => rfl] at his hts hus
    rw [Form.move, Statement.move, moveInit?_eq, movePhrase?_eq, movePhrase?_eq]
    exact .for (k := k.move φ) hk hl his hd hts he hus hr (ihs i₂)
  | @forOf k l d n o p r s ts ss hk hl hd hn ho hp hr hs ihp ihs =>
    obtain ⟨_, _, rfl, h₁, h₂⟩ := moved_append hm
    obtain ⟨_, rfl, i₁⟩ := moved_cons h₁ (by simp [hk])
    obtain ⟨_, rfl, j₁⟩ := moved_cons i₁ (by simp [hl])
    obtain ⟨_, rfl, k₁⟩ := moved_cons j₁ (TokenKind.ne_of_holds hd rfl)
    obtain ⟨_, rfl, l₁⟩ := moved_cons k₁ (by simp [hn])
    obtain ⟨_, rfl, m₁⟩ := moved_cons l₁ (by simp [ho])
    obtain ⟨_, rfl, i₂⟩ := moved_cons h₂ (by simp [hr])
    exact .forOf (k := k.move φ) hk hl hd hn ho (ihp m₁) hr (ihs i₂)
  | @functionDecl k n params b ps bs hk hn hp hb ihp ihb =>
    obtain ⟨_, _, rfl, h₁, h₂⟩ := moved_append hm
    obtain ⟨_, rfl, i₁⟩ := moved_cons h₁ (by simp [hk])
    obtain ⟨_, rfl, j₁⟩ := moved_cons i₁ (by simp [hn])
    have hps := ihp j₁
    rw [Form.params_move] at hps
    exact .functionDecl (k := k.move φ) hk hn hps (ihb h₂)
  | blockStmt h ih => exact .blockStmt (ih hm)
  | @«break» k e hk he =>
    obtain ⟨_, rfl, h₁⟩ := moved_cons hm (by simp [hk])
    obtain ⟨_, _, rfl, he', ⟨⟩⟩ := moved_end h₁
    exact .break (k := k.move φ) hk (he'.trans he)
  | @«continue» k e hk he =>
    obtain ⟨_, rfl, h₁⟩ := moved_cons hm (by simp [hk])
    obtain ⟨_, _, rfl, he', ⟨⟩⟩ := moved_end h₁
    exact .continue (k := k.move φ) hk (he'.trans he)
  | @throw k p e ts hk h he ih =>
    obtain ⟨_, _, rfl, he', h₁⟩ := moved_ended hm (by simp [hk])
    exact .throw (k := k.move φ) hk (ih h₁) (he'.trans he)
  | @«try» k b h f bs hs fs hk hb hh hf ihb ihh ihf =>
    obtain ⟨_, _, rfl, h₁, h₂⟩ := moved_append hm
    obtain ⟨_, _, rfl, i₁, h₃⟩ := moved_append h₁
    obtain ⟨_, rfl, j₁⟩ := moved_cons i₁ (by simp [hk])
    have hhs := ihh h₃
    have hfs := ihf h₂
    rw [Form.move, moveForm?_map (g := (·.move φ)) fun _ => rfl] at hhs hfs
    rw [Form.move, Statement.move, moveHandler?_eq, moveBlock?_eq]
    exact .try (k := k.move φ) hk (ihb j₁) hhs hfs

end AutoAwait
