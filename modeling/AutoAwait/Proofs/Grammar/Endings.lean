import AutoAwait.Proofs.Grammar.Balance
import AutoAwait.Proofs.Grammar.Fits
import AutoAwait.Proofs.Results
import AutoAwait.Proofs.Token.Gaps
import AutoAwait.Proofs.Tree.Path

/-!
# The end of a statement

A statement ends with a block or with a terminator, and perhaps with an `if` to which an `else`
after it would belong. Which it is can be told from the tree, along the branches with which the
statement ends.

* `Node.endsOpen` and `Node.endsInBlock` tell it from the tree: `Fits.endsOpen`;
* `EndsIn` tells it from tokens: `Spells.endsIn`, and `EndsIn.closed` for what is emitted;
* `Spells.of_single` says where the tokens of a single statement stand among stray terminators.
-/

namespace AutoAwait

/-! ## Trees -/

namespace Node

/-- Does a statement end with an `if` without an `else`? -/
def endsOpen : Node → Bool
  | ⟨_, _, .if _ _ none⟩ => true
  | ⟨_, _, .if _ _ (some a)⟩ => a.endsOpen
  | ⟨_, _, .while _ b⟩ | ⟨_, _, .for _ _ _ b⟩ | ⟨_, _, .forOf _ _ b⟩ => b.endsOpen
  | _ => false

/-- Does a statement end with a block? -/
def endsInBlock : Node → Bool
  | ⟨_, _, .if _ c none⟩ => c.endsInBlock
  | ⟨_, _, .if _ _ (some a)⟩ => a.endsInBlock
  | ⟨_, _, .while _ b⟩ | ⟨_, _, .for _ _ _ b⟩ | ⟨_, _, .forOf _ _ b⟩ => b.endsInBlock
  | ⟨_, _, .block _⟩ | ⟨_, _, .functionDecl _ _ _⟩ | ⟨_, _, .try _ _ _⟩ => true
  | _ => false

theorem endsOpen_bare (n : Node) : n.bare.endsOpen = n.endsOpen := by
  induction n using Node.endsOpen.induct with
  | case1 =>
    rw [bare_eq]
    rfl
  | case2 _ _ _ _ a ih | case3 _ _ _ b ih | case4 _ _ _ _ _ b ih | case5 _ _ _ _ b ih =>
    rw [bare_eq]
    exact ih
  | case6 n hif helse hwhile hfor hforOf =>
    obtain ⟨loc, type, shape⟩ := n
    rw [bare_eq]
    cases shape with
    | «if» t c a =>
      cases a with
      | none => exact (hif _ _ _ _ rfl).elim
      | some a => exact (helse _ _ _ _ _ rfl).elim
    | «while» => exact (hwhile _ _ _ _ rfl).elim
    | «for» => exact (hfor _ _ _ _ _ _ rfl).elim
    | forOf => exact (hforOf _ _ _ _ _ rfl).elim
    | _ => rfl

/-- Neither places nor types matter. -/
theorem endsOpen_eq_of_bare {n m : Node} (h : n.bare = m.bare) : n.endsOpen = m.endsOpen := by
  rw [← endsOpen_bare, h, endsOpen_bare]

end Node

/-- What a tree was read as tells whether it ends with an `if` without an `else`. -/
theorem Fits.endsOpen [CharNames] {n : Node} {opened : Bool} (h : Fits (.stmt opened) n) :
    n.endsOpen = opened := by
  generalize hr : Role.stmt opened = r at h
  induction h generalizing opened <;> cases hr
  case declared h _ =>
    cases h
    rfl
  case block h _ =>
    cases h
    rfl
  case ifElse ih | «while» ih | forDecl ih | «for» ih | forOf ih => exact ih rfl
  all_goals rfl

/-- So does the parse tree that the tree was made of. -/
theorem Statement.endsOpen_of_toNode [CharNames] : (s : Statement) → {n : Node} → s.toNode = .ok n →
    n.endsOpen = s.isOpen
  | .if _ _ _ none, _, h => by
    simp only [toNode, optionalStatement, bind_ok, pure_ok] at h
    obtain ⟨_, ⟨⟩, _, -, _, -, rfl⟩ := h
    rfl
  | .if _ _ _ (some a), _, h => by
    simp only [toNode, optionalStatement, bind_ok, pure_ok] at h
    obtain ⟨_, ⟨_, ha, rfl⟩, _, -, _, -, rfl⟩ := h
    have hopen := a.endsOpen_of_toNode ha
    exact hopen
  | .while _ _ b, _, h => by
    simp only [toNode, bind_ok, pure_ok] at h
    obtain ⟨_, -, _, hb, rfl⟩ := h
    have hopen := b.endsOpen_of_toNode hb
    exact hopen
  | .for _ _ _ _ b, _, h => by
    simp only [toNode, bind_ok, pure_ok] at h
    obtain ⟨_, -, _, -, _, -, _, hb, rfl⟩ := h
    have hopen := b.endsOpen_of_toNode hb
    exact hopen
  | .forOf _ _ _ _ b, _, h => by
    simp only [toNode, bind_ok, pure_ok] at h
    obtain ⟨_, -, _, hb, rfl⟩ := h
    have hopen := b.endsOpen_of_toNode hb
    exact hopen
  | .block (.mk _ _), _, h => by
    simp only [toNode, Block.toNode, bind_ok, pure_ok] at h
    obtain ⟨_, -, rfl⟩ := h
    rfl
  | .declaration .., _, h | .expression .., _, h | .return .., _, h | .function .., _, h
  | .throw .., _, h => by
    simp only [toNode, bind_ok, pure_ok] at h
    obtain ⟨_, -, rfl⟩ := h
    rfl
  | .break _, _, h | .continue _, _, h => by
    cases h
    rfl
  | .try .., _, h => by
    simp only [toNode, bind_ok, pure_ok] at h
    obtain ⟨_, -, _, -, _, -, rfl⟩ := h
    rfl

/-! ## Tokens -/

/-- Do the tokens end with a block, or else with a terminator? -/
inductive EndsIn : Bool → List Token → Prop
  | block {us ts l r} (hl : l.kind = .blockOpen) (h : depth? 0 ts = some 0)
      (hr : r.kind = .rbrace) : EndsIn true (us ++ (l :: ts ++ [r]))
  | terminator {us e} (he : e.kind = .terminator) : EndsIn false (us ++ [e])

namespace EndsIn

variable {b : Bool} {ts us : List Token} {t : Token}

theorem append (us : List Token) (h : EndsIn b ts) : EndsIn b (us ++ ts) := by
  cases h with
  | block hl h hr =>
    rw [← List.append_assoc]
    exact .block hl h hr
  | terminator he =>
    rw [← List.append_assoc]
    exact .terminator he

theorem cons (t : Token) (h : EndsIn b ts) : EndsIn b (t :: ts) := h.append [t]

/-- The last token. -/
theorem last (h : EndsIn b ts) : ∃ us t, ts = us ++ [t] ∧
    t.kind = if b then .rbrace else .terminator := by
  cases h with
  | @block us ts l r _ _ hr => exact ⟨us ++ l :: ts, r, by simp, hr⟩
  | @terminator us e he => exact ⟨us, e, rfl, he⟩

end EndsIn

theorem Spells.endsIn_block {b : Block} {ts : List Token} (h : Spells (.block b) ts) :
    EndsIn true ts := by
  cases h with
  | block hl h hr =>
    have hall : EndsIn true ([] ++ _) := .block hl (h.balanced.depth?_eq 0) hr
    exact hall

/-- The tokens of a statement end as its tree says. -/
theorem Spells.endsIn [CharNames] {s : Statement} {n : Node} {ts : List Token}
    (h : Spells (.stmt s) ts)
    (hn : s.toNode = .ok n) : EndsIn n.endsInBlock ts := by
  cases h with
  | declaration _ _ he | expression _ he | «return» _ _ he | throw _ _ he =>
    simp only [Statement.toNode, bind_ok, pure_ok] at hn
    obtain ⟨_, -, rfl⟩ := hn
    exact .terminator he
  | «break» _ he | «continue» _ he =>
    cases hn
    show EndsIn false ([_] ++ [_])
    exact .terminator he
  | @«if» k t s a _ _ _ _ _ hs _ ha =>
    simp only [Statement.toNode, bind_ok, pure_ok] at hn
    obtain ⟨_, han, _, -, c, hsn, rfl⟩ := hn
    cases a with
    | none =>
      cases han
      cases ha
      rw [List.append_nil]
      exact (hs.endsIn hsn).append _
    | some a =>
      simp only [optionalStatement, bind_ok, pure_ok] at han
      obtain ⟨_, han, rfl⟩ := han
      cases ha with
      | optSome ha =>
        cases ha with
        | alternate _ ha => exact ((ha.endsIn han).cons _).append _
  | «while» _ _ hs =>
    simp only [Statement.toNode, bind_ok, pure_ok] at hn
    obtain ⟨_, -, _, hsn, rfl⟩ := hn
    exact (hs.endsIn hsn).append _
  | «for» _ _ _ _ _ _ _ _ hs =>
    simp only [Statement.toNode, bind_ok, pure_ok] at hn
    obtain ⟨_, -, _, -, _, -, _, hsn, rfl⟩ := hn
    exact ((hs.endsIn hsn).cons _).append _
  | forOf _ _ _ _ _ _ _ hs =>
    simp only [Statement.toNode, bind_ok, pure_ok] at hn
    obtain ⟨_, -, _, hsn, rfl⟩ := hn
    exact ((hs.endsIn hsn).cons _).append _
  | functionDecl _ _ _ hb =>
    simp only [Statement.toNode, bind_ok, pure_ok] at hn
    obtain ⟨_, -, rfl⟩ := hn
    exact hb.endsIn_block.append _
  | @blockStmt b _ hb =>
    obtain ⟨loc, ss⟩ := b
    simp only [Statement.toNode, Block.toNode, bind_ok, pure_ok] at hn
    obtain ⟨_, -, rfl⟩ := hn
    exact hb.endsIn_block
  | @«try» _ _ handler finalizer _ _ _ _ hb hh hf =>
    simp only [Statement.toNode, bind_ok, pure_ok] at hn
    obtain ⟨_, -, _, -, _, -, rfl⟩ := hn
    -- the last of the blocks
    cases finalizer with
    | some f =>
      cases hf with
      | optSome hf =>
        cases hf with
        | finalizer _ hb => exact (hb.endsIn_block.cons _).append _
    | none =>
      cases hf
      rw [List.append_nil]
      cases handler with
      | some h =>
        cases hh with
        | optSome hh =>
          cases hh with
          | handler _ _ hb => exact (hb.endsIn_block.append _).append _
      | none =>
        cases hh
        rw [List.append_nil]
        exact hb.endsIn_block.cons _
termination_by ts.length

/-- A list of statements that gives one tree: one statement among stray terminators. -/
theorem Spells.of_single [CharNames] {ss : List Statement} {n : Node} {ts : List Token}
    (h : Spells (.stmts ss) ts) (hn : statementNodes ss = .ok [n]) : ∃ s us vs ws,
      ts = us ++ vs ++ ws ∧ (∀ t ∈ us, t.kind = .terminator) ∧ (∀ t ∈ ws, t.kind = .terminator) ∧
        Spells (.stmt s) vs ∧ s.toNode = .ok n := by
  have hnil : ∀ {ws}, Spells (.stmts []) ws → ∀ t ∈ ws, t.kind = .terminator := by
    intro ws h
    generalize hf : Form.stmts [] = f at h
    induction h <;> cases hf
    case stmtsNil => exact List.forall_mem_nil _
    case stray ht _ ih => exact List.forall_mem_cons.2 ⟨ht, ih rfl⟩
  generalize hf : Form.stmts ss = f at h
  induction h generalizing ss <;> cases hf
  case stmtsNil => cases hn
  case stray ht _ ih =>
    obtain ⟨s, us, vs, ws, rfl, hu, hw, hs, hsn⟩ := ih hn rfl
    exact ⟨s, _ :: us, vs, ws, rfl, List.forall_mem_cons.2 ⟨ht, hu⟩, hw, hs, hsn⟩
  case stmts s ss vs ws h hs _ _ =>
    simp only [statementNodes, bind_ok, pure_ok] at hn
    obtain ⟨m, hm, ms, hms, he⟩ := hn
    obtain ⟨rfl, rfl⟩ := List.cons.inj he
    cases ss with
    | nil => exact ⟨s, [], vs, ws, rfl, List.forall_mem_nil _, hnil hs, h, hm⟩
    | cons s' ss =>
      simp only [statementNodes, bind_ok, pure_ok] at hms
      obtain ⟨_, -, _, -, ⟨⟩⟩ := hms

/-! ## What is emitted -/

namespace Emitted

/-- Tokens that close the brackets that they open, and some of those before, leave the others open. -/
theorem opened_append {ts : List Token} {us : Emitted} {as bs : List Bracket}
    (h : depth? as.length ts = some 0) (hu : opened us = as ++ bs) :
    opened (ts.reverse ++ us) = bs := by
  induction ts generalizing as us with
  | nil =>
    obtain rfl : as = [] := List.length_eq_zero_iff.1 (Option.some.inj h)
    exact hu
  | cons t ts ih =>
    rw [depth?_cons] at h
    obtain ⟨m, hm, h⟩ := Option.bind_eq_some_iff.1 h
    rw [List.reverse_cons, List.append_assoc]
    obtain ⟨cs, rfl, hcs⟩ : ∃ cs, m = cs.length ∧ opened (t :: us) = cs ++ bs := by
      rw [opened, hu]
      cases hk : t.kind with
      | lparen | lbracket | lbrace | blockOpen =>
        rw [hk] at hm
        cases hm
        exact ⟨_ :: as, rfl, rfl⟩
      | rparen | rbracket | rbrace =>
        rw [hk] at hm
        cases as with
        | nil => cases hm
        | cons a as =>
          cases hm
          exact ⟨as, rfl, rfl⟩
      | _ =>
        rw [hk] at hm
        cases hm
        exact ⟨as, rfl, rfl⟩
    exact ih h hcs

/-- Tokens that close the brackets that they open leave the others open. -/
theorem opened_of_depth? {ts : List Token} (us : Emitted) (h : depth? 0 ts = some 0) :
    opened (ts.reverse ++ us) = opened us := @opened_append ts us [] _ h rfl

end Emitted

/-- The brace with which tokens end that end with a block has closed a block. -/
theorem EndsIn.closed {ts : List Token} (h : EndsIn true ts) :
    Emitted.closed [.rbrace] .block ts.reverse := by
  cases h with
  | @block us ts l r hl h hr =>
    have hopened : Emitted.opened (l :: us.reverse) = [.block] ++ Emitted.opened us.reverse := by
      rw [Emitted.opened, hl]
      rfl
    have hin : Emitted.opened (ts.reverse ++ l :: us.reverse) = .block :: Emitted.opened us.reverse :=
      (Emitted.opened_of_depth? _ h).trans hopened
    have hreverse : (us ++ (l :: ts ++ [r])).reverse = r :: (ts.reverse ++ l :: us.reverse) := by simp
    rw [hreverse, Emitted.closed, hr, hin]
    rfl

end AutoAwait
