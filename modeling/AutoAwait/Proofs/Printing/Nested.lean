import AutoAwait.Proofs.Printing.Expressions
import AutoAwait.Proofs.Printing.Firm
import AutoAwait.Proofs.Token.Brackets

/-!
# Printed lines stand in brackets

Each bracket that is printed is closed again, and the text of an expression has line ends and
semicolons only in brackets.

* `Doc.Nested` says so of pieces, `Fits.nested` that the pieces of a tree are nested;
* `Doc.Nested.run_under` says that the terminator step does not notice where an expression stands,
  `Doc.Nested.run_entry` that it emits the same for one wherever it begins.
-/

namespace AutoAwait

open Node

namespace Doc

/-- Is each bracket in the pieces closed, and do newlines and semicolons stand in brackets only, unless
there are `lines`? -/
inductive Nested : Bool → Doc → Prop
  | nil {lines} : Nested lines []
  | space {lines d} (h : Nested lines d) : Nested lines (.space :: d)
  | newline {depth d} (h : Nested true d) : Nested true (.newline depth :: d)
  | semicolon {d} (h : Nested true d) : Nested true (.word ";" :: d)
  | word {lines k w d} (hw : IsToken k w) (hk : k.isSimple) (h : Nested lines d) :
      Nested lines (.word w :: d)
  | enclosed {lines l r d e} (hb : (l, r) ∈ [("(", ")"), ("[", "]"), ("\x7b", "\x7d")])
      (h : Nested true d) (he : Nested lines e) :
      Nested lines (.word l :: (d ++ .word r :: e))

namespace Nested

variable {lines : Bool} {d e l r : Doc} {k : TokenKind} {w : String}

theorem append (hd : Nested lines d) (he : Nested lines e) : Nested lines (d ++ e) := by
  induction hd with
  | nil => exact he
  | space _ ih => exact .space (ih he)
  | newline _ ih => exact .newline (ih he)
  | semicolon _ ih => exact .semicolon (ih he)
  | word hw hk _ ih => exact .word hw hk (ih he)
  | enclosed hb h _ _ ih =>
    rw [List.cons_append, List.append_assoc]
    exact .enclosed hb h (ih he)

theorem to_lines (h : Nested lines d) : Nested true d := by
  induction h with
  | nil => exact .nil
  | space _ ih => exact .space ih
  | newline h _ => exact .newline h
  | semicolon h _ => exact .semicolon h
  | word hw hk _ ih => exact .word hw hk ih
  | enclosed hb h _ _ ih => exact .enclosed hb h ih

theorem single (hw : IsToken k w) (hk : k.isSimple) : Nested lines [.word w] := .word hw hk .nil

theorem keyword (k : Keyword) (h : Nested lines d) : Nested lines (.word k.spelling :: d) :=
  .word (isToken_keyword k) rfl h

theorem parens (h : Nested true d) : Nested lines d.parens := .enclosed (by decide) h .nil

theorem brackets (h : Nested true d) : Nested lines (.word "[" :: d ++ [.word "]"]) :=
  .enclosed (by decide) h .nil

theorem inBraces (h : Nested true d) : Nested lines (.word "\x7b" :: d ++ [.word "\x7d"]) :=
  .enclosed (by decide) h .nil

theorem commas {ds : List Doc} (h : ∀ d ∈ ds, Nested lines d) : Nested lines (commas ds) := by
  unfold Doc.commas
  induction ds with
  | nil => exact .nil
  | cons d ds ih =>
    obtain ⟨hd, hds⟩ := List.forall_mem_cons.1 h
    cases ds with
    | nil => exact hd
    | cons e ds =>
      have hcomma : IsToken .comma "," := isToken_symbol (by decide)
      exact (hd.append (.word hcomma rfl (.space .nil))).append (ih hds)

theorem braces {level : Nat} {ds : List Doc} (h : ∀ d ∈ ds, Nested true d) :
    Nested lines (braces level ds) := by
  have hlines : ∀ es : List Doc, (∀ d ∈ es, Nested true d) →
      Nested true (es.flatMap fun d => .newline (level + 1) :: d) := by
    intro es hes
    induction es with
    | nil => exact .nil
    | cons d es ih =>
      obtain ⟨hd, hes⟩ := List.forall_mem_cons.1 hes
      exact (Nested.newline hd).append (ih hes)
  unfold Doc.braces
  split
  · exact inBraces .nil
  · have hclosing : Nested true [.newline level] := .newline .nil
    have hbody : Nested lines _ := inBraces ((hlines ds h).append hclosing)
    simpa using hbody

theorem infixed (hw : IsToken k w) (hk : k.isSimple) (hl : Nested lines l) (hr : Nested lines r) :
    Nested lines (infixed w l r) :=
  (hl.append (.space (.word hw hk (.space .nil)))).append hr

theorem atLeast {n : Node} (least : Nat) (h : Nested lines d) : Nested lines (n.atLeast least d) := by
  unfold Node.atLeast
  split
  · exact h.to_lines.parens
  · exact h

theorem operand {n : Node} (h : Nested lines d) : Nested lines (n.operand d) := by
  unfold Node.operand
  split
  · exact (h.atLeast _).to_lines.parens
  · exact h.atLeast _

theorem prefixed (hw : IsToken k w) (hk : k.isSimple) (h : Nested lines d) :
    Nested lines (prefixed w d) := by
  unfold Node.prefixed
  split
  · exact .word hw hk h.space
  · exact .word hw hk h

theorem asStatement (h : Nested true d) : Nested true (asStatement d) := by
  unfold Node.asStatement
  split
  · exact h.parens.append (.semicolon .nil)
  · exact h.append (.semicolon .nil)

/-- A word, something in parentheses and what follows. -/
theorem header (k : Keyword) (hd : Nested true d) (he : Nested lines e) :
    Nested lines (.word k.spelling :: .space :: d.parens ++ .space :: e) :=
  .keyword k (.space (hd.parens.append he.space))

end Nested

end Doc

open Doc

namespace Fits

variable {n : Node} {ps : List Node} {lines : Bool}

theorem nested_name [CharNames] (h : Fits .name n) {d : Doc} (hd : Nested lines d) :
    Nested lines (.word n.nameText :: d) := .word h.isToken_nameText rfl hd

theorem nested_params [CharNames] (h : ∀ p ∈ ps, Fits .name p) : Nested lines (paramList ps) :=
  .parens (.commas (List.forall_mem_map.2 fun p hp => (h p hp).nested_name .nil))

theorem nested_arrowParams [CharNames] (h : ∀ p ∈ ps, Fits .name p) :
    Nested lines (arrowParams ps) := by
  match ps with
  | [p] => exact (h p (.head _)).nested_name .nil
  | [] | _ :: _ :: _ => exact nested_params h

theorem nested_function [CharNames] {id : Option Node} {d : Doc} (hi : ∀ i ∈ id, Fits .name i)
    (hp : ∀ p ∈ ps, Fits .name p) (hd : Nested lines d) : Nested lines (functionDoc id ps d) := by
  have hrest : Nested lines (paramList ps ++ .space :: d) := (nested_params hp).append hd.space
  cases id with
  | none => exact .keyword .function hrest
  | some i => exact .keyword .function (((hi i rfl).nested_name hrest).space)

theorem nested_items {es : List Node} {level : Nat}
    (h : ∀ e ∈ es, ∀ level, Nested lines (e.expr level)) :
    Nested lines (Doc.commas (items level es)) := by
  rw [items_eq]
  exact .commas (List.forall_mem_map.2 fun e he => (h e he level).atLeast _)

/-- The header of a counting loop that starts with the pieces `d`. -/
theorem nested_loopHeader [CharNames] {level : Nat} {d : Doc} {t u : Option Node}
    (hd : Nested true d)
    (ht : ∀ e ∈ t, Nested true (e.expr level)) (hu : ∀ e ∈ u, Fits .expr e)
    (hnu : ∀ e ∈ u, Nested true (e.expr level)) :
    Nested true (Doc.trimEnd (d ++ [.word ";", .space] ++ optExpr level t ++ [.word ";", .space] ++
      optExpr level u)) := by
  have hupdate : Nested true ((u.map (expr level)).elim [] (.space :: ·)) := by
    cases u with
    | none => exact .nil
    | some e => exact (hnu e rfl).space
  have htest : Nested true (optExpr level t) := by
    cases t with
    | none => exact .nil
    | some e => exact ht e rfl
  rw [optExpr_eq level u, Doc.trimEnd_header]
  · exact hd.append (.semicolon (htest.append (.semicolon hupdate)).space)
  · intro f hf
    obtain ⟨e, he, rfl⟩ := Option.map_eq_some_iff.1 hf
    exact (hu e he).ends (.inl rfl) level

end Fits

/-- Can there be newlines and semicolons in the text of a tree in this role, outside all brackets? -/
def Role.hasLines : Role → Bool
  | .stmt _ | .line => true
  | _ => false

/-- **Printed lines stand in brackets.** -/
theorem Fits.nested [CharNames] {n : Node} {r : Role} (h : Fits r n) (level : Nat) :
    (r.pieces level n).Nested r.hasLines := by
  induction h generalizing level with
  -- Names
  | name h =>
    simp only [Role.pieces, expr]
    exact .single h rfl
  | attr h =>
    simp only [Role.pieces, expr]
    rcases h with h | ⟨k, h⟩
    · exact .single h rfl
    · exact .single h rfl
  | pathName _ ih | nameKey _ ih | ref _ ih => exact ih level
  | pathMember _ _ iho ihp | member _ _ iho ihp =>
    have hdot : IsToken .dot "." := isToken_symbol (by decide)
    simp only [Role.pieces, expr]
    exact (iho level).operand.append (.word hdot rfl (ihp level))
  -- Entries of objects
  | textKey h | numberKey h _ | number h _ | text h | shorthand h =>
    simp only [Role.pieces, expr, Node.entry]
    exact .single h rfl
  | pair _ _ ihk ihv =>
    have hcolon : IsToken .colon ":" := isToken_symbol (by decide)
    simp only [Role.pieces, Node.entry]
    exact (ihk level).append (.word hcolon rfl ((ihv level).atLeast _).space)
  -- Expressions
  | constant hk hv =>
    obtain rfl := eq_spelling_of_constant hk hv
    simp only [Role.pieces, expr]
    exact .keyword _ .nil
  | this =>
    simp only [Role.pieces, expr]
    exact .keyword .this .nil
  | array _ ih =>
    simp only [Role.pieces, expr]
    exact .brackets (nested_items fun e he level => (ih e he level).to_lines)
  | @object loc type ps _ ih =>
    cases ps with
    | nil =>
      simp only [Role.pieces, expr]
      exact .inBraces .nil
    | cons p ps =>
      have hps : Nested true (commas (entry level p :: entries level ps)) := by
        rw [entries_eq, ← List.map_cons]
        exact .commas (List.forall_mem_map.2 fun p hp => (ih p hp level).to_lines)
      have hin : Nested false _ := .inBraces (hps.append (.space .nil)).space
      simpa [Role.pieces, expr, Role.hasLines] using hin
  | index _ _ iho ihk =>
    simp only [Role.pieces, expr, List.append_assoc, List.cons_append]
    exact (iho level).operand.append (.brackets (ihk level).to_lines)
  | call _ _ ihc iha =>
    simp only [Role.pieces, expr]
    exact (ihc level).operand.append
      (.parens (nested_items fun a ha level => (iha a ha level).to_lines))
  | construct _ _ ihc iha =>
    simp only [Role.pieces, expr]
    exact .keyword .new (.space (((ihc level).atLeast _).append
      (.parens (nested_items fun a ha level => (iha a ha level).to_lines))))
  | await _ ih =>
    simp only [Role.pieces, expr]
    exact .keyword .await ((ih level).atLeast _).space
  | assignment ho hk _ _ _ ihl ihr =>
    simp only [Role.pieces, expr]
    refine .infixed ho ?_ ((ihl level).atLeast _) ((ihr level).atLeast _)
    exact TokenKind.isSimple_of_isInner (TokenKind.isInner_of_assigns hk)
  | binary ho hk _ _ _ ihl ihr =>
    simp only [Role.pieces, expr]
    refine .infixed ho ?_ ((ihl level).atLeast _) ((ihr level).atLeast _)
    exact TokenKind.isSimple_of_isInner (TokenKind.isInner_of_operatorLevel hk)
  | logical ho hk _ _ ihl ihr =>
    simp only [Role.pieces, expr]
    refine .infixed ho ?_ ((ihl level).atLeast _) ((ihr level).atLeast _)
    rcases hk with rfl | rfl <;> rfl
  | unary ho hk _ _ ih =>
    simp only [Role.pieces, expr]
    refine .prefixed ho ?_ ((ih level).atLeast _)
    exact TokenKind.isSimple_of_isInner (TokenKind.isInner_of_isUnaryOperator hk)
  | update ho _ ih =>
    simp only [Role.pieces, expr]
    exact ((ih level).atLeast _).append (.single ho rfl)
  | conditional _ _ _ iht ihc iha =>
    simp only [Role.pieces, expr]
    exact .infixed (isToken_symbol (k := .question) (by decide)) rfl ((iht level).atLeast _)
      (.infixed (isToken_symbol (k := .colon) (by decide)) rfl ((ihc level).atLeast _)
        ((iha level).atLeast _))
  | function hi hp _ _ _ ih =>
    simp only [Role.pieces, expr]
    exact nested_function hi hp (ih level)
  | @arrowBlock loc type ps b hp hb _ ih =>
    have hk : b.kind = .block := by cases hb; rfl
    simp only [Role.pieces, expr, if_pos hk]
    exact .infixed (isToken_symbol (k := .arrow) (by decide)) rfl (nested_arrowParams hp) (ih level)
  | @arrow loc type ps b hp hb _ ih =>
    have hk : b.kind ≠ .block := hb.kind_ne rfl
    simp only [Role.pieces, expr, if_neg hk]
    refine .infixed (isToken_symbol (k := .arrow) (by decide)) rfl (nested_arrowParams hp) ?_
    unfold arrowBody
    split
    · exact .parens ((ih level).atLeast _).to_lines
    · exact (ih level).atLeast _
  -- Parts of statements
  | @declarator loc type i init hi _ _ ih =>
    cases init with
    | none =>
      simp only [Role.pieces, Node.declarator]
      exact hi.nested_name .nil
    | some e =>
      simp only [Role.pieces, Node.declarator]
      exact .infixed (isToken_symbol (k := .assign) (by decide)) rfl (hi.nested_name .nil)
        ((ih e rfl level).atLeast _)
  | declaration _ _ _ ih =>
    simp only [Role.pieces, Node.declaration, declarators_eq]
    exact .keyword _ (.space (.commas (List.forall_mem_map.2 fun d hd => ih d hd level)))
  | body _ ih =>
    simp only [Role.pieces, Node.body, stmts_eq]
    exact .braces (List.forall_mem_map.2 fun n hn => ih n hn _)
  | @handler loc type p b hp _ _ ih =>
    cases p with
    | none =>
      simp only [Role.pieces, Node.handler]
      exact .keyword .catch (ih level).space
    | some p =>
      simp only [Role.pieces, Node.handler]
      exact .header .catch ((hp p rfl).nested_name .nil) (ih level)
  -- Statements
  | line _ ih => exact ih level
  | declared h ih =>
    simp only [Role.pieces, h.stmt_declaration]
    exact (ih level).to_lines.append (.semicolon .nil)
  | expression _ ih =>
    simp only [Role.pieces, stmt]
    exact (ih level).to_lines.asStatement
  | @«return» loc type a _ ih =>
    cases a with
    | none =>
      simp only [Role.pieces, stmt]
      exact .keyword .return (.semicolon .nil)
    | some a =>
      simp only [Role.pieces, stmt]
      exact .keyword .return (.space ((ih a rfl level).to_lines.append (.semicolon .nil)))
  | «if» _ _ iht ihc =>
    simp only [Role.pieces, stmt]
    exact .header .if (iht level).to_lines (ihc level)
  | @ifElse loc type t c a _ _ _ _ iht ihc iha =>
    have helse : Nested true (elseJoint level c ++ stmt level a) := by
      have h := Nested.keyword .else (iha level).space
      unfold elseJoint
      split
      · exact h.space
      · exact h.newline
    simp only [Role.pieces, stmt]
    rw [List.append_assoc]
    exact (Nested.header .if (iht level).to_lines (ihc level)).append helse
  | «while» _ _ iht ihb =>
    simp only [Role.pieces, stmt]
    exact .header .while (iht level).to_lines (ihb level)
  | @forDecl loc type i t u b _ hi _ hu _ ihi iht ihu ihb =>
    have hk : i.kind = .declaration := by cases hi; rfl
    simp only [Role.pieces, stmt, loopInit, if_pos hk]
    refine .header .for (nested_loopHeader (ihi level).to_lines ?_ hu ?_) (ihb level)
    · exact fun e he => (iht e he level).to_lines
    · exact fun e he => (ihu e he level).to_lines
  | @«for» loc type i t u b _ hi _ hu _ ihi iht ihu ihb =>
    have hinit : Nested true (loopInit level i) := by
      cases i with
      | none => exact .nil
      | some i =>
        have hk : i.kind ≠ .declaration := (hi i rfl).kind_ne rfl
        simp only [loopInit, if_neg hk]
        exact (ihi i rfl level).to_lines
    simp only [Role.pieces, stmt]
    refine .header .for (nested_loopHeader hinit ?_ hu ?_) (ihb level)
    · exact fun e he => (iht e he level).to_lines
    · exact fun e he => (ihu e he level).to_lines
  | forOf hk hi _ _ _ ihr ihb =>
    simp only [Role.pieces, stmt, Node.declaration, declarators, Node.declarator]
    refine .header .for (.infixed (isToken_keyword .of) rfl ?_ (ihr level).to_lines) (ihb level)
    exact .keyword _ (hi.nested_name .nil).space
  | functionDecl hi hp _ _ _ ih =>
    simp only [Role.pieces, stmt]
    exact nested_function (by rintro _ ⟨⟩; exact hi) hp (ih level).to_lines
  | block h ih =>
    simp only [Role.pieces, h.stmt_body]
    exact (ih level).to_lines
  | «break» =>
    simp only [Role.pieces, stmt]
    exact .keyword .break (.semicolon .nil)
  | «continue» =>
    simp only [Role.pieces, stmt]
    exact .keyword .continue (.semicolon .nil)
  | throw _ ih =>
    simp only [Role.pieces, stmt]
    exact .keyword .throw (.space ((ih level).to_lines.append (.semicolon .nil)))
  | @«try» loc type b h f _ _ _ ihb ihh ihf =>
    have hhandler : Nested true (optHandler level h) := by
      cases h with
      | none => exact .nil
      | some h => exact (ihh h rfl level).to_lines.space
    have hfinalizer : Nested true (optFinalizer level f) := by
      cases f with
      | none => exact .nil
      | some f => exact .space (.keyword .finally (ihf f rfl level).to_lines.space)
    simp only [Role.pieces, stmt]
    exact .keyword .try (.space (((ihb level).to_lines.append hhandler).append hfinalizer))

/-! ## Running over nested pieces -/

namespace Doc

variable {lines : Bool} {d e : Doc} {ts : List Token} {s : Layout} {l r w : String}

theorem Tokens.of_word (h : Tokens (.word w :: d) ts) :
    ∃ t us, ts = t :: us ∧ IsToken t.kind w ∧ Tokens d us := by
  cases h with
  | word ht h => exact ⟨_, _, rfl, ht, h⟩

/-- After pieces that end with a word no newline is pending. -/
theorem EndsInWord.newline_run (h : d.EndsInWord) (hts : d.Tokens ts) :
    (s.run ts).2.newline = none := by
  obtain ⟨e, k, w, rfl, hw, hk⟩ := h
  obtain ⟨us, _, rfl, -, hlast⟩ := hts.split
  obtain ⟨t, _, rfl, ht, ⟨⟩⟩ := hlast.of_word
  rw [Layout.run_append]
  exact Layout.newline_step (by rwa [ht.unique hw])

theorem Tokens.move (φ : Position → Position) (h : Tokens d ts) :
    Tokens d (ts.map (·.move φ)) := by
  induction h with
  | nil => exact .nil
  | @word _ t _ ht _ ih => exact .word (t := t.move φ) ht ih
  | space _ ih => exact .space ih
  | newline ht _ ih => exact .newline ht ih

theorem isToken_of_brackets (hb : (l, r) ∈ [("(", ")"), ("[", "]"), ("\x7b", "\x7d")]) :
    ∃ k k', IsToken k l ∧ IsToken k' r ∧ k.isOpening ∧ k'.isClosing := by
  simp only [List.mem_cons, Prod.mk.injEq, List.not_mem_nil, or_false] at hb
  rcases hb with ⟨rfl, rfl⟩ | ⟨rfl, rfl⟩ | ⟨rfl, rfl⟩
  · exact ⟨.lparen, .rparen, isToken_symbol (by decide), isToken_symbol (by decide), rfl, rfl⟩
  · exact ⟨.lbracket, .rbracket, isToken_symbol (by decide), isToken_symbol (by decide), rfl, rfl⟩
  · exact ⟨.lbrace, .rbrace, isToken_symbol (by decide), isToken_symbol (by decide), rfl, rfl⟩

namespace Nested

/-- The tokens of nested pieces leave no bracket open and close none that stood open before. -/
theorem depth?_eq (h : Nested lines d) (hts : Tokens d ts) (n : Nat) : depth? n ts = some n := by
  induction h generalizing ts n with
  | nil =>
    cases hts
    rfl
  | space _ ih =>
    cases hts with
    | space hts => exact ih hts n
  | newline _ ih =>
    cases hts with
    | newline ht hts =>
      rw [depth?_cons, ht]
      exact ih hts n
  | semicolon _ ih =>
    obtain ⟨t, us, rfl, ht, hts⟩ := hts.of_word
    rw [depth?_cons, ht.unique (isToken_symbol (k := .semicolon) (by decide))]
    exact ih hts n
  | @word _ k _ _ hw hk _ ih =>
    obtain ⟨t, us, rfl, ht, hts⟩ := hts.of_word
    rw [depth?_cons, ht.unique hw, TokenKind.depth?_of_isSimple hk]
    exact ih hts n
  | enclosed hb _ _ ih ihe =>
    obtain ⟨k, k', hk, hk', hl, hr⟩ := isToken_of_brackets hb
    obtain ⟨t, us, rfl, ht, hts⟩ := hts.of_word
    obtain ⟨ds, _, rfl, hds, hrest⟩ := hts.split
    obtain ⟨u, es, rfl, hu, hes⟩ := hrest.of_word
    rw [depth?_cons, ht.unique hk, TokenKind.depth?_of_isOpening hl, Option.bind_some, depth?_append,
      ih hds, Option.bind_some, depth?_cons, hu.unique hk', TokenKind.depth?_of_isClosing hr]
    exact ihe hes n

/-- **Brackets further out.** The terminator step does not notice them while it runs over nested
pieces. -/
theorem run_under (bs : List Bracket) (h : Nested lines d) (hts : Tokens d ts)
    (hs : lines → 0 < s.opened.length) :
    (s.under bs).run ts = ((s.run ts).1, (s.run ts).2.under bs) := by
  -- a token that stands in brackets may be any
  have hin : ∀ {u : Layout} {P : Prop}, 0 < u.opened.length → u.opened = [] → P := by
    intro u P hu he
    rw [he] at hu
    exact absurd hu (Nat.lt_irrefl 0)
  induction h generalizing ts s with
  | nil =>
    cases hts
    rfl
  | space _ ih =>
    cases hts with
    | space hts => exact ih hts hs
  | newline _ ih =>
    cases hts with
    | @newline _ _ t ts ht hts =>
      have hopened : (s.step t).2.opened.length = s.opened.length :=
        Layout.opened_step (by rw [ht]; rfl)
      have hrun := ih (s := (s.step t).2) hts fun hl => hopened ▸ hs hl
      simp only [Layout.run, Layout.step_under bs (hin (hs rfl)), hrun]
  | semicolon _ ih =>
    obtain ⟨t, us, rfl, ht, hts⟩ := hts.of_word
    have hkind := ht.unique (isToken_symbol (k := .semicolon) (by decide))
    have hopened : (s.step t).2.opened.length = s.opened.length :=
      Layout.opened_step (by rw [hkind]; rfl)
    have hrun := ih (s := (s.step t).2) hts fun hl => hopened ▸ hs hl
    simp only [Layout.run, Layout.step_under bs (hin (hs rfl)), hrun]
  | @word _ k _ _ hw hk _ ih =>
    obtain ⟨t, us, rfl, ht, hts⟩ := hts.of_word
    have hkind := ht.unique hw
    have hopened : (s.step t).2.opened.length = s.opened.length :=
      Layout.opened_step (by rw [hkind, TokenKind.depth?_of_isSimple hk])
    have hstep := Layout.step_under (s := s) (t := t) bs fun _ => by
      rw [hkind]
      exact TokenKind.isFree_of_isSimple hk
    have hrun := ih (s := (s.step t).2) hts fun hl => hopened ▸ hs hl
    simp only [Layout.run, hstep, hrun]
  | enclosed hb h _ ih ihe =>
    obtain ⟨k, k', hk, hk', hl, hr⟩ := isToken_of_brackets hb
    obtain ⟨t, us, rfl, ht, hts⟩ := hts.of_word
    obtain ⟨ds, _, rfl, hds, hrest⟩ := hts.split
    obtain ⟨u, es, rfl, hu, hes⟩ := hrest.of_word
    have hopen := Layout.step_under (s := s) (t := t) bs fun _ => by
      rw [ht.unique hk]
      exact TokenKind.isFree_of_isOpening hl
    have hopened : (s.step t).2.opened.length = s.opened.length + 1 :=
      Layout.opened_step (by rw [ht.unique hk, TokenKind.depth?_of_isOpening hl])
    have hinner := ih (s := (s.step t).2) hds fun _ => hopened ▸ Nat.succ_pos _
    have hlast : ((s.step t).2.run ds).2.opened.length = s.opened.length + 1 :=
      Layout.opened_run (hopened ▸ h.depth?_eq hds _)
    have hpos : 0 < ((s.step t).2.run ds).2.opened.length := by
      rw [hlast]
      exact Nat.succ_pos _
    have hclose := Layout.step_under (t := u) bs (hin hpos)
    have hclosed : (((s.step t).2.run ds).2.step u).2.opened.length = s.opened.length :=
      Layout.opened_step (by rw [hu.unique hk', hlast, TokenKind.depth?_of_isClosing hr])
    have hrun := ihe (s := (((s.step t).2.run ds).2.step u).2) hes fun hl => hclosed ▸ hs hl
    simp only [Layout.run, Layout.run_append, hopen, hinner, hclose, hrun]

/-- The brackets that are open around an expression stay open. -/
theorem opened_run (h : Nested false d) (hts : d.Tokens ts) :
    (s.run ts).2.opened = s.opened := by
  let u : Layout := { s with opened := [] }
  have hrun : s.run ts = ((u.run ts).1, (u.run ts).2.under s.opened) :=
    h.run_under (s := u) s.opened hts fun hl => absurd hl Bool.false_ne_true
  have hu : (u.run ts).2.opened = [] :=
    List.length_eq_zero_iff.1 (Layout.opened_run (s := u) (h.depth?_eq hts 0))
  rw [hrun, Layout.under, hu]
  rfl

/-- What is emitted for an expression is the same wherever it begins. -/
theorem run_entry {φ : Position → Position} {s' : Layout} {t : Token} (h : Nested false d)
    (hts : Tokens d (t :: ts)) (hs : s.Entry) (hs' : s'.Entry) (ht : t.kind.startsPhrase)
    (hb : t.kind = .lbrace → s.prev = some .lparen ∧ s'.prev = some .lparen) :
    (s'.run ((t :: ts).map (·.move φ))).1 = (s.run (t :: ts)).1.map (·.move φ) := by
  have hlines : ∀ {P : Prop}, false = true → P := fun hl => absurd hl Bool.false_ne_true
  -- outside all brackets the two states differ in what stands before only
  let u : Layout := { s with opened := [] }
  let u' : Layout := { s' with opened := [] }
  have hu : u.Entry := { hs with }
  have hu' : u'.Entry := { hs' with }
  have hrun : s.run (t :: ts) = ((u.run (t :: ts)).1, (u.run (t :: ts)).2.under s.opened) :=
    h.run_under (s := u) s.opened hts hlines
  have hrun' : s'.run ((t :: ts).map (·.move φ)) = ((u'.run ((t :: ts).map (·.move φ))).1,
      (u'.run ((t :: ts).map (·.move φ))).2.under s'.opened) :=
    h.run_under (s := u') s'.opened (hts.move φ) hlines
  have hrest := ((hu.alike_next (φ := φ) hu' rfl t).run ts).1
  have hstep := hu.step ht fun hk => (hb hk).1
  have hstep' := hu'.step (t := t.move φ) ht fun hk => (hb hk).2
  rw [hrun, hrun', List.map_cons, Layout.run, Layout.run, hstep, hstep', hrest]
  rfl

end Nested

end Doc

end AutoAwait
