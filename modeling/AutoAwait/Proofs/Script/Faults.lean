import AutoAwait.Proofs.Grammar.Derivable
import AutoAwait.Proofs.Grammar.Meaning
import AutoAwait.Proofs.Script.Append

/-!
# What the grammar lets pass

A script that the grammar derives can still be refused when its tree is made: for an assignment to
what is neither a name nor a member, for a parameter of an arrow function that is not a name, and
for a numeral that stands for no integer, which is no error of the parser's own. Parentheses around
a target or a parameter do not count.

* `ScriptPart.parts` are the phrases and statements that one is put together from,
  `ScriptPart.faults` what is wrong with it besides them;
* `Checks` says how a computation fails: with a fault of its own or like one of the parts;
* `Misused` says what is wrong with a script; `Node.ofStatements_error` and `Node.ofStatements_isOk`
  that nothing else is;
* `parseScript_derives` joins this with the grammar.
-/

namespace AutoAwait

namespace Phrase

/-- A phrase without the parentheses around it. -/
def ungrouped : Phrase → Phrase
  | .group _ p => p.ungrouped
  | p => p

/-- Is this a name or a member? -/
def isTarget : Phrase → Bool
  | .name _ | .member .. | .index .. => true
  | _ => false

def isName : Phrase → Bool
  | .name _ => true
  | _ => false

theorem ungrouped_toNode [CharNames] : (p : Phrase) → p.ungrouped.toNode = p.toNode
  | .group _ p => p.ungrouped_toNode
  | .name _ | .number _ | .string _ | .constant _ | .this _ | .array .. | .object .. | .function ..
  | .construct .. | .member .. | .index .. | .call .. | .update .. | .unary .. | .binary ..
  | .conditional .. | .assignment .. | .arrow .. => rfl

theorem ungrouped_ne_group : (p : Phrase) → ∀ loc q, p.ungrouped ≠ .group loc q
  | .group _ p => p.ungrouped_ne_group
  | .name _ | .number _ | .string _ | .constant _ | .this _ | .array .. | .object .. | .function ..
  | .construct .. | .member .. | .index .. | .call .. | .update .. | .unary .. | .binary ..
  | .conditional .. | .assignment .. | .arrow .. => nofun

/-- The node `n` is placed at the start of the phrase `p` and is a name or a member if `p` is. -/
structure Shows (p : Phrase) (n : Node) : Prop where
  loc : n.loc = p.start
  isTarget : n.kind.isTarget = p.isTarget
  isName : decide (n.kind = .identifier) = p.isName

/-- Every node that a computation can make shows `p`. -/
def ShownBy (p : Phrase) (x : Except ParseError Node) : Prop := ∀ n, x = .ok n → p.Shows n

theorem ShownBy.pure {p : Phrase} {n : Node} (h : p.Shows n) : p.ShownBy (pure n) := by
  rintro _ ⟨⟩
  exact h

theorem ShownBy.bind {p : Phrase} {α : Type} {x : Except ParseError α}
    {f : α → Except ParseError Node} (hf : ∀ a, p.ShownBy (f a)) : p.ShownBy (x >>= f) := by
  intro n h
  cases x with
  | error e => cases h
  | ok a => exact hf a n h

theorem shownBy_toNode [CharNames] :
    (p : Phrase) → (∀ loc q, p ≠ .group loc q) → p.ShownBy p.toNode
  | .name _, _ | .string _, _ | .this _, _ => .pure ⟨rfl, rfl, rfl⟩
  | .constant t, _ => .pure <| by
    unfold Token.toConstant
    split <;> exact ⟨rfl, rfl, rfl⟩
  | .number t, _ => by
    rw [toNode]
    unfold Token.toNumber Token.toInteger
    split
    · exact .pure ⟨rfl, rfl, rfl⟩
    · split
      · exact .pure ⟨rfl, rfl, rfl⟩
      · rintro _ ⟨⟩
  | .group loc p, h => absurd rfl (h loc p)
  | .array .., _ | .object .., _ | .function .., _ | .construct .., _ | .member .., _
  | .update .., _ => .bind fun _ => .pure ⟨rfl, rfl, rfl⟩
  | .index .., _ | .call .., _ => .bind fun _ => .bind fun _ => .pure ⟨rfl, rfl, rfl⟩
  | .arrow .., _ => .bind fun _ => .bind fun _ => .pure ⟨rfl, rfl, rfl⟩
  | .unary op _, _ => .bind fun _ => .pure <| by
    unfold unaryShape
    split <;> exact ⟨rfl, rfl, rfl⟩
  | .binary op _ _, _ => .bind fun _ => .bind fun _ => .pure <| by
    unfold binaryShape
    split <;> exact ⟨rfl, rfl, rfl⟩
  | .conditional .., _ =>
    .bind fun _ => .bind fun _ => .bind fun _ => .pure ⟨rfl, rfl, rfl⟩
  | .assignment .., _ => .bind fun target => by
    split
    · exact .bind fun _ => .pure ⟨rfl, rfl, rfl⟩
    · rintro _ ⟨⟩

/-- The node of a phrase shows the phrase inside the parentheses. -/
theorem ungrouped_shows [CharNames] {p : Phrase} {n : Node} (h : p.toNode = .ok n) :
    p.ungrouped.Shows n :=
  p.ungrouped.shownBy_toNode p.ungrouped_ne_group n (p.ungrouped_toNode.trans h)

end Phrase

/-! ## Parts -/

/-- A part of a script that a tree is made for. -/
inductive ScriptPart where
  | phrase (p : Phrase)
  | statement (s : Statement)

/-- The error with which a computation fails, if it does. -/
def errors {ε α : Type} : Except ε α → List ε
  | .error e => [e]
  | .ok _ => []

def Block.parts : Block → List ScriptPart
  | .mk _ ss => ss.map .statement

def ArrowBody.parts : ArrowBody → List ScriptPart
  | .block b => b.parts
  | .phrase p => [.phrase p]

namespace ObjectEntry

def parts : ObjectEntry → List ScriptPart
  | .pair _ p => [.phrase p]
  | .shorthand _ => []

/-- What is wrong with the key of an entry. -/
def faults [CharNames] : ObjectEntry → List ParseError
  | .pair t _ => errors t.toKey
  | .shorthand _ => []

end ObjectEntry

def Declarator.parts : Declarator → List ScriptPart
  | .mk _ init => init.toList.map .phrase

def LoopInit.parts : LoopInit → List ScriptPart
  | .declaration _ ds => ds.flatMap Declarator.parts
  | .phrase p => [.phrase p]

def Handler.parts : Handler → List ScriptPart
  | .mk _ _ b => b.parts

namespace Phrase

/-- What a phrase is put together from. -/
def parts : Phrase → List ScriptPart
  | .name _ | .number _ | .string _ | .constant _ | .this _ => []
  | .group _ p | .member p _ | .update p _ | .unary _ p => [.phrase p]
  | .array _ es => es.map .phrase
  | .object _ es => es.flatMap ObjectEntry.parts
  | .function _ _ _ b => b.parts
  | .construct _ _ _ args => (args.getD []).map .phrase
  | .index o k => [.phrase o, .phrase k]
  | .call c args => .phrase c :: args.map .phrase
  | .binary _ l r => [.phrase l, .phrase r]
  | .conditional t c a => [.phrase t, .phrase c, .phrase a]
  | .assignment _ t v => [.phrase t, .phrase v]
  | .arrow _ ps b => ps.map .phrase ++ b.parts

/-- What is wrong with a phrase that is assigned to. -/
def targetFaults (p : Phrase) : List ParseError :=
  if p.ungrouped.isTarget then [] else [.invalidTarget p.start]

/-- What is wrong with a phrase as a parameter. -/
def parameterFaults (p : Phrase) : List ParseError :=
  if p.ungrouped.isName then [] else [.invalidParameter p.ungrouped.start]

/-- What is wrong with a phrase besides its parts. -/
def faults [CharNames] : Phrase → List ParseError
  | .number t => errors t.toNumber
  | .object _ es => es.flatMap ObjectEntry.faults
  | .assignment _ t _ => t.targetFaults
  | .arrow _ ps _ => ps.flatMap parameterFaults
  | _ => []

end Phrase

/-- What a statement is put together from. -/
def Statement.parts : Statement → List ScriptPart
  | .declaration _ ds => ds.flatMap Declarator.parts
  | .expression p | .throw _ p => [.phrase p]
  | .return _ o => o.toList.map .phrase
  | .if _ t c a => a.toList.map .statement ++ [.phrase t, .statement c]
  | .while _ t b => [.phrase t, .statement b]
  | .for _ i t u b => i.toList.flatMap LoopInit.parts ++ (t.toList.map .phrase ++
      (u.toList.map .phrase ++ [.statement b]))
  | .forOf _ _ _ p b => [.phrase p, .statement b]
  | .function _ _ _ b | .block b => b.parts
  | .break _ | .continue _ => []
  | .try _ b h f => b.parts ++ (h.toList.flatMap Handler.parts ++ f.toList.flatMap Block.parts)

namespace ScriptPart

/-- What a part of a script is put together from. -/
def parts : ScriptPart → List ScriptPart
  | .phrase p => p.parts
  | .statement s => s.parts

/-- What is wrong with a part besides its own parts. -/
def faults [CharNames] : ScriptPart → List ParseError
  | .phrase p => p.faults
  | .statement _ => []

/-- Is `e` why there is no tree for the part? -/
def Fails [CharNames] (e : ParseError) : ScriptPart → Prop
  | .phrase p => p.toNode = .error e
  | .statement s => s.toNode = .error e

end ScriptPart

/-! ## How a computation fails -/

/-- A computation that makes trees for `parts` and checks for the faults `es`: it fails with one of
the faults or like one of the parts, and it succeeds only if there is no fault and no part fails. -/
structure Checks [CharNames] {α : Type} (x : Except ParseError α) (es : List ParseError)
    (parts : List ScriptPart) : Prop where
  error : ∀ e, x = .error e → e ∈ es ∨ ∃ q ∈ parts, q.Fails e
  ok : ∀ a, x = .ok a → es = [] ∧ ∀ q ∈ parts, ∀ e, ¬ q.Fails e

namespace Checks

variable [CharNames]
variable {α β : Type} {x : Except ParseError α} {es es' : List ParseError}
  {parts parts' : List ScriptPart}

theorem congr (h : Checks x es parts) (he : es = es') (hp : parts = parts') :
    Checks x es' parts' := he ▸ hp ▸ h

theorem pure (a : α) : Checks (pure a) [] [] := ⟨nofun, fun _ _ => ⟨rfl, nofun⟩⟩

theorem bind {f : α → Except ParseError β} (hx : Checks x es parts)
    (hf : ∀ a, x = .ok a → Checks (f a) es' parts') :
    Checks (x >>= f) (es ++ es') (parts ++ parts') := by
  cases x with
  | error e =>
    refine ⟨?_, nofun⟩
    rintro _ ⟨⟩
    obtain h | ⟨q, hq, h⟩ := hx.error e rfl
    · exact .inl (List.mem_append_left _ h)
    · exact .inr ⟨q, List.mem_append_left _ hq, h⟩
  | ok a =>
    obtain ⟨rfl, hparts⟩ := hx.ok a rfl
    constructor
    · intro e he
      obtain h | ⟨q, hq, h⟩ := (hf a rfl).error e he
      · exact .inl h
      · exact .inr ⟨q, List.mem_append_right _ hq, h⟩
    · intro b hb
      obtain ⟨rfl, hparts'⟩ := (hf a rfl).ok b hb
      exact ⟨rfl, fun q hq => (List.mem_append.1 hq).elim (hparts q) (hparts' q)⟩

theorem map (g : α → β) (hx : Checks x es parts) :
    Checks (x >>= fun a => Pure.pure (g a)) es parts := by
  simpa using hx.bind fun a _ => pure (g a)

theorem fails {e : ParseError} (h : e ∈ es) : Checks (.error e : Except ParseError α) es parts :=
  ⟨fun _ he => .inl (by cases he; exact h), nofun⟩

theorem of_errors (x : Except ParseError α) : Checks x (errors x) [] := by
  cases x with
  | error e => exact ⟨fun _ h => .inl (by cases h; exact .head _), nofun⟩
  | ok a => exact ⟨nofun, fun _ _ => ⟨rfl, nofun⟩⟩

theorem phrase (p : Phrase) : Checks p.toNode [] [.phrase p] :=
  ⟨fun _ h => .inr ⟨_, .head _, h⟩, fun _ h => ⟨rfl, by simp [ScriptPart.Fails, h]⟩⟩

theorem statement (s : Statement) : Checks s.toNode [] [.statement s] :=
  ⟨fun _ h => .inr ⟨_, .head _, h⟩, fun _ h => ⟨rfl, by simp [ScriptPart.Fails, h]⟩⟩

theorem phrases (ps : List Phrase) : Checks (phraseNodes ps) [] (ps.map .phrase) := by
  induction ps with
  | nil => exact pure []
  | cons p ps ih => exact (phrase p).bind fun _ _ => ih.map _

theorem phrase? (o : Option Phrase) : Checks (optionalNode o) [] (o.toList.map .phrase) := by
  cases o with
  | none => exact pure none
  | some p => exact (phrase p).map _

theorem arguments (args : Option (List Phrase)) :
    Checks (argumentNodes args) [] ((args.getD []).map .phrase) := by
  cases args with
  | none => exact pure []
  | some ps => exact phrases ps

theorem statements (ss : List Statement) : Checks (statementNodes ss) [] (ss.map .statement) := by
  induction ss with
  | nil => exact pure []
  | cons s ss ih => exact (statement s).bind fun _ _ => ih.map _

theorem statement? (o : Option Statement) :
    Checks (optionalStatement o) [] (o.toList.map .statement) := by
  cases o with
  | none => exact pure none
  | some s => exact (statement s).map _

theorem block (b : Block) : Checks b.toNode [] b.parts := by
  obtain ⟨loc, ss⟩ := b
  exact (statements ss).map _

theorem block? (o : Option Block) : Checks (optionalBlock o) [] (o.toList.flatMap Block.parts) := by
  cases o with
  | none => exact pure none
  | some b => exact ((block b).map some).congr rfl (by simp)

theorem arrowBody (b : ArrowBody) : Checks b.toNode [] b.parts := by
  cases b with
  | block b => exact block b
  | phrase p => exact phrase p

theorem entry (e : ObjectEntry) : Checks e.toNode e.faults e.parts := by
  cases e with
  | shorthand t => exact pure _
  | pair t p =>
    have hpair := (of_errors t.toKey).bind fun key _ =>
      (phrase p).map fun v => Node.untyped t.loc (.property key v false)
    exact hpair.congr (List.append_nil _) rfl

theorem entries (es : List ObjectEntry) :
    Checks (entryNodes es) (es.flatMap ObjectEntry.faults) (es.flatMap ObjectEntry.parts) := by
  induction es with
  | nil => exact pure []
  | cons e es ih => exact (entry e).bind fun _ _ => ih.map _

theorem declarator (d : Declarator) : Checks d.toNode [] d.parts := by
  obtain ⟨t, init⟩ := d
  exact (phrase? init).map _

theorem declarators (ds : List Declarator) :
    Checks (declaratorNodes ds) [] (ds.flatMap Declarator.parts) := by
  induction ds with
  | nil => exact pure []
  | cons d ds ih => exact (declarator d).bind fun _ _ => ih.map _

theorem loopInit (i : LoopInit) : Checks i.toNode [] i.parts := by
  cases i with
  | declaration k ds => exact (declarators ds).map _
  | phrase p => exact phrase p

theorem loopInit? (o : Option LoopInit) :
    Checks (optionalInit o) [] (o.toList.flatMap LoopInit.parts) := by
  cases o with
  | none => exact pure none
  | some i => exact ((loopInit i).map some).congr rfl (by simp)

theorem handler (h : Handler) : Checks h.toNode [] h.parts := by
  obtain ⟨loc, param, b⟩ := h
  exact (block b).map _

theorem handler? (o : Option Handler) :
    Checks (optionalHandler o) [] (o.toList.flatMap Handler.parts) := by
  cases o with
  | none => exact pure none
  | some h => exact ((handler h).map some).congr rfl (by simp)

theorem parameters (ps : List Phrase) :
    Checks (parameterNodes ps) (ps.flatMap Phrase.parameterFaults) (ps.map .phrase) := by
  induction ps with
  | nil => exact pure []
  | cons p ps ih =>
    refine (phrase p).bind fun n hn => ?_
    obtain ⟨hloc, -, hname⟩ := Phrase.ungrouped_shows hn
    unfold Phrase.parameterFaults
    cases hp : p.ungrouped.isName with
    | true =>
      rw [if_pos (of_decide_eq_true (hname.trans hp))]
      exact ih.map _
    | false =>
      rw [if_neg (of_decide_eq_false (hname.trans hp)), hloc]
      exact fails (.head _)

/-- What is done with a target that can be assigned to, or a fault. -/
theorem target {t : Phrase} {n : Node} (hn : t.toNode = .ok n) (hx : Checks x [] parts) :
    Checks (if n.kind.isTarget then x else .error (.invalidTarget t.start)) t.targetFaults
      parts := by
  rw [(Phrase.ungrouped_shows hn).isTarget]
  unfold Phrase.targetFaults
  split
  · exact hx
  · exact fails (.head _)

theorem of_phrase (p : Phrase) : Checks p.toNode p.faults p.parts := by
  cases p with
  | name | string | constant | this => exact pure _
  | number t => exact of_errors t.toNumber
  | group _ p => exact phrase p
  | array _ es => exact (phrases es).map _
  | object _ es => exact (entries es).map _
  | function _ _ _ b => exact (block b).map _
  | construct _ _ _ args => exact (arguments args).map _
  | member o _ => exact (phrase o).map _
  | index o k => exact (phrase o).bind fun _ _ => (phrase k).map _
  | call c args => exact (phrase c).bind fun _ _ => (phrases args).map _
  | update p _ => exact (phrase p).map _
  | unary _ p => exact (phrase p).map _
  | binary _ l r => exact (phrase l).bind fun _ _ => (phrase r).map _
  | conditional t c a =>
    exact (phrase t).bind fun _ _ => (phrase c).bind fun _ _ => (phrase a).map _
  | assignment _ t v => exact (phrase t).bind fun _ hn => target hn ((phrase v).map _)
  | arrow loc ps b =>
    have harrow := (parameters ps).bind fun params _ =>
      (arrowBody b).map fun body => Node.untyped loc (.arrow params body)
    exact harrow.congr (List.append_nil _) rfl

theorem of_statement (s : Statement) : Checks s.toNode [] s.parts := by
  cases s with
  | declaration _ ds => exact (declarators ds).map _
  | expression p => exact (phrase p).map _
  | «return» _ o => exact (phrase? o).map _
  | «if» _ t c a =>
    exact (statement? a).bind fun _ _ => (phrase t).bind fun _ _ => (statement c).map _
  | «while» _ t b => exact (phrase t).bind fun _ _ => (statement b).map _
  | «for» _ i t u b =>
    exact (loopInit? i).bind fun _ _ => (phrase? t).bind fun _ _ => (phrase? u).bind fun _ _ =>
      (statement b).map _
  | forOf _ _ _ p b => exact (phrase p).bind fun _ _ => (statement b).map _
  | function _ _ _ b => exact (block b).map _
  | block b => exact block b
  | «break» | «continue» => exact pure _
  | throw _ p => exact (phrase p).map _
  | «try» _ b h f =>
    exact (block b).bind fun _ _ => (handler? h).bind fun _ _ => (block? f).map _

end Checks

/-! ## Parts of parts -/

namespace ScriptPart

variable {q r : ScriptPart} {α : Type} [SizeOf α]

theorem sizeOf_le_of_mem_map {c : α → ScriptPart} (hc : ∀ a, sizeOf (c a) = 1 + sizeOf a)
    {as : List α} (h : q ∈ as.map c) : sizeOf q ≤ sizeOf as := by
  obtain ⟨a, ha, rfl⟩ := List.mem_map.1 h
  have hlt := List.sizeOf_lt_of_mem ha
  have heq := hc a
  omega

theorem sizeOf_le_of_mem_flatMap {f : α → List ScriptPart}
    (hf : ∀ a, ∀ q ∈ f a, sizeOf q ≤ sizeOf a) {as : List α} (h : q ∈ as.flatMap f) :
    sizeOf q ≤ sizeOf as := by
  obtain ⟨a, ha, hq⟩ := List.mem_flatMap.1 h
  exact Nat.le_trans (hf a q hq) (Nat.le_of_lt (List.sizeOf_lt_of_mem ha))

theorem sizeOf_le_of_mem_option {c : α → ScriptPart} (hc : ∀ a, sizeOf (c a) = 1 + sizeOf a)
    {o : Option α} (h : q ∈ o.toList.map c) : sizeOf q ≤ sizeOf o := by
  cases o with
  | none => cases h
  | some a =>
    obtain rfl := List.mem_singleton.1 h
    exact Nat.le_of_eq (hc a)

theorem sizeOf_le_of_mem_block : (b : Block) → ∀ q ∈ b.parts, sizeOf q ≤ sizeOf b
  | .mk _ ss, q, h => by
    have hss := sizeOf_le_of_mem_map (c := .statement) (fun _ => rfl) h
    rw [Block.mk.sizeOf_spec]
    omega

theorem sizeOf_le_of_mem_entry : (e : ObjectEntry) → ∀ q ∈ e.parts, sizeOf q ≤ sizeOf e
  | .pair _ p, q, h => by
    obtain rfl := List.mem_singleton.1 h
    rw [ObjectEntry.pair.sizeOf_spec, phrase.sizeOf_spec]
    omega

theorem sizeOf_le_of_mem_arrowBody : (b : ArrowBody) → ∀ q ∈ b.parts, sizeOf q ≤ sizeOf b
  | .block b, q, h => by
    have hb := sizeOf_le_of_mem_block b q h
    rw [ArrowBody.block.sizeOf_spec]
    omega
  | .phrase p, q, h => by
    obtain rfl := List.mem_singleton.1 h
    exact Nat.le_refl _

theorem sizeOf_le_of_mem_declarator : (d : Declarator) → ∀ q ∈ d.parts, sizeOf q ≤ sizeOf d
  | .mk _ init, q, h => by
    have hinit := sizeOf_le_of_mem_option (c := .phrase) (fun _ => rfl) h
    rw [Declarator.mk.sizeOf_spec]
    omega

theorem sizeOf_le_of_mem_init : (i : LoopInit) → ∀ q ∈ i.parts, sizeOf q ≤ sizeOf i
  | .declaration _ ds, q, h => by
    have hds := sizeOf_le_of_mem_flatMap sizeOf_le_of_mem_declarator h
    rw [LoopInit.declaration.sizeOf_spec]
    omega
  | .phrase p, q, h => by
    obtain rfl := List.mem_singleton.1 h
    exact Nat.le_refl _

theorem sizeOf_le_of_mem_handler : (h : Handler) → ∀ q ∈ h.parts, sizeOf q ≤ sizeOf h
  | .mk _ _ b, q, h => by
    have hb := sizeOf_le_of_mem_block b q h
    rw [Handler.mk.sizeOf_spec]
    omega

theorem sizeOf_le_of_mem_phrase {p : Phrase} (h : q ∈ p.parts) : sizeOf q ≤ sizeOf p := by
  cases p with
  | name | number | string | constant | this => cases h
  | group | member | update | unary =>
    obtain rfl := List.mem_singleton.1 h
    simp
  | index | binary | conditional | assignment =>
    simp only [Phrase.parts, List.mem_cons, List.not_mem_nil, or_false] at h
    obtain rfl | rfl | rfl := h <;> simp <;> omega
  | array _ es =>
    have hes := sizeOf_le_of_mem_map (c := .phrase) (fun _ => rfl) h
    simp
    omega
  | object _ es =>
    have hes := sizeOf_le_of_mem_flatMap sizeOf_le_of_mem_entry h
    simp
    omega
  | function _ _ _ b =>
    have hb := sizeOf_le_of_mem_block b q h
    simp
    omega
  | construct _ _ _ args =>
    cases args with
    | none => cases h
    | some args =>
      have hargs : sizeOf q ≤ sizeOf args := sizeOf_le_of_mem_map (c := .phrase) (fun _ => rfl) h
      simp
      omega
  | call c args =>
    obtain rfl | h := List.mem_cons.1 h
    · simp
    · have hargs := sizeOf_le_of_mem_map (c := .phrase) (fun _ => rfl) h
      simp
      omega
  | arrow _ ps b =>
    obtain h | h := List.mem_append.1 h
    · have hps := sizeOf_le_of_mem_map (c := .phrase) (fun _ => rfl) h
      simp
      omega
    · have hb := sizeOf_le_of_mem_arrowBody b q h
      simp
      omega

theorem sizeOf_le_of_mem_toList {f : α → List ScriptPart}
    (hf : ∀ a, ∀ q ∈ f a, sizeOf q ≤ sizeOf a) {o : Option α} (h : q ∈ o.toList.flatMap f) :
    sizeOf q ≤ sizeOf o := by
  cases o with
  | none => cases h
  | some a =>
    have ha := hf a q (by simpa using h)
    rw [Option.some.sizeOf_spec]
    omega

theorem sizeOf_le_of_mem_statement {s : Statement} (h : q ∈ s.parts) : sizeOf q ≤ sizeOf s := by
  cases s with
  | «break» | «continue» => cases h
  | expression | throw =>
    obtain rfl := List.mem_singleton.1 h
    simp
  | «while» | forOf =>
    simp only [Statement.parts, List.mem_cons, List.not_mem_nil, or_false] at h
    obtain rfl | rfl := h <;> simp <;> omega
  | declaration _ ds =>
    have hds := sizeOf_le_of_mem_flatMap sizeOf_le_of_mem_declarator h
    simp
    omega
  | «return» _ o =>
    have ho := sizeOf_le_of_mem_option (c := .phrase) (fun _ => rfl) h
    simp
    omega
  | «if» _ t c a =>
    obtain h | h := List.mem_append.1 h
    · have ha := sizeOf_le_of_mem_option (c := .statement) (fun _ => rfl) h
      simp
      omega
    · simp only [List.mem_cons, List.not_mem_nil, or_false] at h
      obtain rfl | rfl := h <;> simp <;> omega
  | «for» _ i t u b =>
    simp only [Statement.parts, List.mem_append] at h
    obtain h | h | h | h := h
    · have hi := sizeOf_le_of_mem_toList sizeOf_le_of_mem_init h
      simp
      omega
    · have ht := sizeOf_le_of_mem_option (c := .phrase) (fun _ => rfl) h
      simp
      omega
    · have hu := sizeOf_le_of_mem_option (c := .phrase) (fun _ => rfl) h
      simp
      omega
    · obtain rfl := List.mem_singleton.1 h
      simp
      omega
  | function _ _ _ b | block b =>
    have hb := sizeOf_le_of_mem_block b q h
    simp
    omega
  | «try» _ b c f =>
    simp only [Statement.parts, List.mem_append] at h
    obtain h | h | h := h
    · have hb := sizeOf_le_of_mem_block b q h
      simp
      omega
    · have hc := sizeOf_le_of_mem_toList sizeOf_le_of_mem_handler h
      simp
      omega
    · have hf := sizeOf_le_of_mem_toList sizeOf_le_of_mem_block h
      simp
      omega

theorem sizeOf_lt_of_mem (h : r ∈ q.parts) : sizeOf r < sizeOf q := by
  cases q with
  | phrase p =>
    have hp := sizeOf_le_of_mem_phrase h
    rw [phrase.sizeOf_spec]
    omega
  | statement s =>
    have hs := sizeOf_le_of_mem_statement h
    rw [statement.sizeOf_spec]
    omega

/-- `r` is `q`, a part of it, a part of a part, and so on. -/
inductive Within (r : ScriptPart) : ScriptPart → Prop
  | refl : Within r r
  | part {q p} (h : Within r q) (hq : q ∈ p.parts) : Within r p

theorem fails_cases [CharNames] {e : ParseError} (h : q.Fails e) :
    e ∈ q.faults ∨ ∃ r ∈ q.parts, r.Fails e := by
  cases q with
  | phrase p => exact (Checks.of_phrase p).error e h
  | statement s => exact (Checks.of_statement s).error e h

theorem of_not_fails [CharNames] (h : ∀ e, ¬ q.Fails e) :
    q.faults = [] ∧ ∀ r ∈ q.parts, ∀ e, ¬ r.Fails e := by
  cases q with
  | phrase p =>
    cases hp : p.toNode with
    | ok n => exact (Checks.of_phrase p).ok n hp
    | error e => exact absurd hp (h e)
  | statement s =>
    cases hs : s.toNode with
    | ok n => exact (Checks.of_statement s).ok n hs
    | error e => exact absurd hs (h e)

/-- Where there is no tree for a part, the fault is in the part. -/
theorem fault_of_fails [CharNames] {e : ParseError} (q : ScriptPart) (h : q.Fails e) :
    ∃ r, Within r q ∧ e ∈ r.faults := by
  obtain h | ⟨p, hp, h⟩ := fails_cases h
  · exact ⟨q, .refl, h⟩
  · have hlt := sizeOf_lt_of_mem hp
    obtain ⟨r, hr, he⟩ := fault_of_fails p h
    exact ⟨r, .part hr hp, he⟩
termination_by sizeOf q

/-- Where there is a tree for a part, there is no fault in it. -/
theorem faults_of_not_fails [CharNames] (hr : Within r q) (h : ∀ e, ¬ q.Fails e) :
    r.faults = [] := by
  induction hr with
  | refl => exact (of_not_fails h).1
  | part _ hq ih => exact ih ((of_not_fails h).2 _ hq)

end ScriptPart

/-! ## Scripts -/

/-- The phrase `p` stands somewhere in the statements `ss`. -/
def Phrase.OccursIn (p : Phrase) (ss : List Statement) : Prop :=
  ∃ s ∈ ss, (ScriptPart.phrase p).Within (.statement s)

/-- What can be wrong with a script that the grammar derives. -/
inductive Misused [CharNames] (ss : List Statement) : ParseError → Prop
  /-- An assignment to what is, without parentheses, neither a name nor a member. -/
  | target {op t v} (h : (Phrase.assignment op t v).OccursIn ss)
      (ht : t.ungrouped.isTarget = false) : Misused ss (.invalidTarget t.start)
  /-- A parameter of an arrow function that is, without parentheses, not a name. -/
  | parameter {loc ps b p} (h : (Phrase.arrow loc ps b).OccursIn ss) (hp : p ∈ ps)
      (hn : p.ungrouped.isName = false) : Misused ss (.invalidParameter p.ungrouped.start)
  /-- A numeral with no fraction or exponent that stands for no integer. -/
  | number {t problem} (h : (Phrase.number t).OccursIn ss)
      (ht : t.toNumber = .error (.badInteger problem)) : Misused ss (.badInteger problem)
  /-- The same as the key of an entry. -/
  | key {loc es t p problem} (h : (Phrase.object loc es).OccursIn ss)
      (he : ObjectEntry.pair t p ∈ es) (ht : t.toKey = .error (.badInteger problem)) :
      Misused ss (.badInteger problem)

theorem mem_errors {ε α : Type} {x : Except ε α} {e : ε} : e ∈ errors x ↔ x = .error e := by
  cases x <;> simp [errors, eq_comm]

theorem Token.toInteger_error {t : Token} {e : ParseError} (h : t.toInteger = .error e) :
    ∃ problem, e = .badInteger problem := by
  unfold toInteger at h
  split at h
  · cases h
  · cases h
    exact ⟨_, rfl⟩

theorem Token.toNumber_error {t : Token} {e : ParseError} (h : t.toNumber = .error e) :
    ∃ problem, e = .badInteger problem := by
  unfold toNumber at h
  split at h
  · cases h
  · exact toInteger_error h

theorem Token.toKey_error [CharNames] {t : Token} {e : ParseError} (h : t.toKey = .error e) :
    ∃ problem, e = .badInteger problem := by
  unfold toKey at h
  split at h
  · cases h
  · split at h
    · cases h
    · exact toInteger_error h
  · cases h

namespace Misused

variable {ss : List Statement} {e : ParseError} {p : Phrase}

theorem of_faults [CharNames] (h : p.OccursIn ss) (he : e ∈ p.faults) : Misused ss e := by
  unfold Phrase.faults at he
  split at he
  · have ht := mem_errors.1 he
    obtain ⟨problem, rfl⟩ := Token.toNumber_error ht
    exact .number h ht
  · obtain ⟨⟨t, v⟩ | _, hentry, he⟩ := List.mem_flatMap.1 he
    · have ht := mem_errors.1 he
      obtain ⟨problem, rfl⟩ := Token.toKey_error ht
      exact .key h hentry ht
    · cases he
  · unfold Phrase.targetFaults at he
    split at he
    · cases he
    · obtain rfl := List.mem_singleton.1 he
      exact .target h (Bool.eq_false_of_not_eq_true ‹_›)
  · obtain ⟨q, hq, he⟩ := List.mem_flatMap.1 he
    unfold Phrase.parameterFaults at he
    split at he
    · cases he
    · obtain rfl := List.mem_singleton.1 he
      exact .parameter h hq (Bool.eq_false_of_not_eq_true ‹_›)
  · cases he

theorem exists_fault [CharNames] (h : Misused ss e) :
    ∃ p : Phrase, p.OccursIn ss ∧ e ∈ p.faults := by
  cases h with
  | target h ht => exact ⟨_, h, by simp [Phrase.faults, Phrase.targetFaults, ht]⟩
  | @parameter _ _ _ p h hp hn =>
    exact ⟨_, h, List.mem_flatMap.2 ⟨p, hp, by simp [Phrase.parameterFaults, hn]⟩⟩
  | number h ht => exact ⟨_, h, mem_errors.2 ht⟩
  | key h he ht => exact ⟨_, h, List.mem_flatMap.2 ⟨_, he, mem_errors.2 ht⟩⟩

end Misused

variable {ss : List Statement}

theorem Node.ofStatements_error [CharNames] {e : ParseError} (h : Node.ofStatements ss = .error e) :
    Misused ss e := by
  obtain h | ⟨q, hq, hfails⟩ := ((Checks.statements ss).map _).error e h
  · cases h
  · obtain ⟨s, hs, rfl⟩ := List.mem_map.1 hq
    obtain ⟨p | _, hp, he⟩ := ScriptPart.fault_of_fails _ hfails
    · exact .of_faults ⟨s, hs, hp⟩ he
    · cases he

theorem Node.ofStatements_ok [CharNames] {tree : Node} (h : Node.ofStatements ss = .ok tree)
    (e : ParseError) :
    ¬ Misused ss e := by
  intro hm
  obtain ⟨p, ⟨s, hs, hp⟩, he⟩ := hm.exists_fault
  have hfails := (((Checks.statements ss).map _).ok tree h).2 _ (List.mem_map_of_mem hs)
  rw [show p.faults = [] from ScriptPart.faults_of_not_fails hp hfails] at he
  cases he

theorem Node.ofStatements_isOk [CharNames] :
    (∃ tree, Node.ofStatements ss = .ok tree) ↔ ∀ e, ¬ Misused ss e := by
  refine ⟨fun ⟨_, h⟩ => Node.ofStatements_ok h, fun h => ?_⟩
  cases hss : Node.ofStatements ss with
  | ok tree => exact ⟨tree, rfl⟩
  | error e => exact absurd (Node.ofStatements_error hss) (h e)

/-- **Which scripts are read, and as what.** The tokens of a script fit if and only if the rules of
the grammar derive them. They are read as the only statements that they spell, where an `else`
belongs to the nearest `if` and `new` takes the longest name and the arguments right after it. The
tree is the one that these statements stand for, production by production. There is one unless
something is misused, and nothing else is reported then. -/
theorem parseScript_derives [CharNames] (source : String) :
    ((∃ ss, parseStatements (scriptTokens source) = .ok ss) ↔
      (scriptTokens source).stop = none ∧ Derives .program (scriptTokens source).tokens) ∧
    ∀ ss, (parseStatements (scriptTokens source) = .ok ss ↔
        (scriptTokens source).stop = none ∧ Spells (.stmts ss) (scriptTokens source).tokens) ∧
      (parseStatements (scriptTokens source) = .ok ss →
        (∀ tree, parseScript source = .ok tree ↔ ProgramOf ss tree) ∧
        (∀ e, parseScript source = .error e → Misused ss e) ∧
        ((∃ tree, parseScript source = .ok tree) ↔ ∀ e, ¬ Misused ss e)) := by
  have hread : ∀ ss, parseStatements (scriptTokens source) = .ok ss ↔
      (scriptTokens source).stop = none ∧ Spells (.stmts ss) (scriptTokens source).tokens :=
    fun ss => parseStatements_ok
  refine ⟨?_, fun ss => ⟨hread ss, fun hss => ?_⟩⟩
  · simp only [hread, exists_and_left]
    exact and_congr_right fun _ => ⟨fun ⟨_, h⟩ => h.derives, Derives.spelled⟩
  · have hscript : parseScript source = Node.ofStatements ss := by rw [parseScript, hss]; rfl
    rw [hscript]
    exact ⟨fun _ => Node.ofStatements_eq_ok, fun _ => Node.ofStatements_error,
      Node.ofStatements_isOk⟩

/-- An `else` after two `if`s goes to the inner one, and `new` takes the dotted name and the
arguments, but not the member after them. -/
theorem parseScript_derives_of_else :
    let source := "if (a) if (b) c; else new d.E(f).g"
    let token (w : String) (column : Nat) : Token := ⟨.name, w, ⟨1, column⟩⟩
    let name (w : String) (column : Nat) : Node := ⟨⟨1, column⟩, none, .identifier w⟩
    let ss : List Statement :=
      [.if ⟨1, 1⟩ (.name (token "a" 5))
        (.if ⟨1, 8⟩ (.name (token "b" 12)) (.expression (.name (token "c" 15)))
          (some (.expression (.member
            (.construct ⟨1, 23⟩ (token "d" 27) [token "E" 29] (some [.name (token "f" 31)]))
            (token "g" 34))))) none]
    let tree : Node := ⟨.start, none, .program
      [⟨⟨1, 1⟩, none, .if (name "a" 5)
        ⟨⟨1, 8⟩, none, .if (name "b" 12) ⟨⟨1, 15⟩, none, .expression (name "c" 15)⟩
          (some ⟨⟨1, 23⟩, none, .expression ⟨⟨1, 23⟩, none, .member
            ⟨⟨1, 23⟩, none, .construct ⟨⟨1, 29⟩, none, .member (name "d" 27) (name "E" 29) false⟩
              [name "f" 31]⟩
            (name "g" 34) false⟩⟩)⟩ none⟩]⟩
    Derives .program (scriptTokens source).tokens ∧
      Spells (.stmts ss) (scriptTokens source).tokens ∧ ProgramOf ss tree ∧
        parseScript source = .ok tree ∧ ∀ e, ¬ Misused ss e := by
  intro source token name ss tree
  let mark (kind : TokenKind) (w : String) (column : Nat) : Token := ⟨kind, w, ⟨1, column⟩⟩
  have hstop : (scriptTokens source).stop = none := by decide +kernel
  have htokens : (scriptTokens source).tokens =
      [mark (.keyword .if) "if" 1, mark .lparen "(" 4, token "a" 5, mark .rparen ")" 6,
        mark (.keyword .if) "if" 8, mark .lparen "(" 11, token "b" 12, mark .rparen ")" 13,
        token "c" 15, mark .terminator "" 16, mark (.keyword .else) "else" 18,
        mark (.keyword .new) "new" 23, token "d" 27, mark .dot "." 28, token "E" 29,
        mark .lparen "(" 30, token "f" 31, mark .rparen ")" 32, mark .dot "." 33, token "g" 34,
        mark .terminator "" 34] := by
    decide +kernel
  have hparse : parseTokens (scriptTokens source).tokens = .ok ss := by
    rw [htokens]
    rfl
  have hread : parseStatements (scriptTokens source) = .ok ss := by
    rw [parseStatements, hstop, hparse]
  have hpath : (token "d" 27).NamesPath [token "E" 29]
      ⟨⟨1, 29⟩, none, .member (name "d" 27) (name "E" 29) false⟩ :=
    @Token.NamesPath.segment _ [] _ _ _ (.name .mk) .mk
  have htree : ProgramOf ss tree :=
    .mk (.cons (.if (.name .mk) (.if (.name .mk) (.expression (.name .mk))
      (.some (.expression (.member (.construct hpath (.cons (.name .mk) .nil)) .mk)))) .none) .nil)
  obtain ⟨hderives, hstatements⟩ := parseScript_derives source
  obtain ⟨hspells, hmade⟩ := hstatements ss
  obtain ⟨hok, -, hmisused⟩ := hmade hread
  have hscript := (hok tree).2 htree
  exact ⟨(hderives.1 ⟨ss, hread⟩).2, (hspells.1 hread).2, htree, hscript,
    hmisused.1 ⟨tree, hscript⟩⟩

end AutoAwait
