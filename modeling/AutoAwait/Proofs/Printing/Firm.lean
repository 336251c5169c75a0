import AutoAwait.Proofs.Printing.Edges

/-!
# Printed words do not run together

* `Role.pieces` is what is printed for a tree that is read in some role;
* `Fits.firm` says that each word of it is read as one token, whatever comes after it that ends a
  name, a number or a string.
-/

namespace AutoAwait

open Node

/-- The pieces of a tree in a role. -/
def Role.pieces (level : Nat) (n : Node) : Role → Doc
  | .expr | .name | .attr | .path | .key => n.expr level
  | .entry => n.entry level
  | .body => n.body level
  | .declarator => n.declarator level
  | .declaration => n.declaration level
  | .handler => n.handler level
  | .stmt _ | .line => n.stmt level

namespace Doc

variable {d e l r : Doc} {w op : String}

theorem ends_symbol (h : w ∈ [")", "(", "]", "[", "\x7b", "\x7d", ",", ";", ":", "++", "--"])
    (d : Doc) : Ends (.word w :: d) := by
  intro rest _
  rw [chars_word]
  simp only [List.mem_cons, List.not_mem_nil, or_false] at h
  rcases h with rfl | rfl | rfl | rfl | rfl | rfl | rfl | rfl | rfl | rfl | rfl <;>
    exact breaks_cons (by decide) _

theorem firm_symbol {k : TokenKind} (hw : (w, k) ∈ firmSymbols) : Firm [.word w] :=
  firm_nil.symbol hw

theorem Firm.parens (h : Firm d) : Firm d.parens := by
  refine Firm.append (.symbol (k := .lparen) (by decide) h) (firm_symbol (k := .rparen) (by decide)) ?_
  exact ends_symbol (by decide) []

theorem ends_parens (d e : Doc) : Ends (d.parens ++ e) := ends_symbol (by decide) _

theorem Firm.separate {sep : Doc} {ds : List Doc} (hf : ∀ d, Firm d → Firm (sep ++ d))
    (he : ∀ d, Ends (sep ++ d)) (h : ∀ d ∈ ds, Firm d) : Firm (separate sep ds) := by
  induction ds with
  | nil => exact firm_nil
  | cons d ds ih =>
    obtain ⟨hd, hds⟩ := List.forall_mem_cons.1 h
    cases ds with
    | nil => exact hd
    | cons e ds =>
      rw [Doc.separate, List.append_assoc]
      exact hd.append (hf _ (ih hds)) (he _)
      rintro ⟨⟩

theorem Firm.commas {ds : List Doc} (h : ∀ d ∈ ds, Firm d) : Firm (commas ds) :=
  .separate (fun _ hd => hd.space.symbol (k := .comma) (by decide))
    (fun _ => ends_symbol (by decide) _) h

theorem Firm.braces {level : Nat} {lines : List Doc} (h : ∀ d ∈ lines, Firm d) :
    Firm (braces level lines) := by
  have hclose : Firm [.word "\x7d"] := firm_symbol (k := .rbrace) (by decide)
  unfold Doc.braces
  split
  · exact hclose.symbol (k := .lbrace) (by decide)
  · refine Firm.symbol (k := .lbrace) (by decide) (Firm.append ?_ hclose.newline (ends_newline _ _))
    -- each line comes before a newline
    have hlines : ∀ ls : List Doc, (∀ d ∈ ls, Firm d) →
        Firm (ls.flatMap fun d => .newline (level + 1) :: d) ∧
          Ends (ls.flatMap fun d => .newline (level + 1) :: d) := by
      intro ls hls
      induction ls with
      | nil => exact ⟨firm_nil, ends_nil⟩
      | cons d ls ih =>
        obtain ⟨hd, hls⟩ := List.forall_mem_cons.1 hls
        obtain ⟨hf, he⟩ := ih hls
        exact ⟨Firm.append hd.newline hf he, ends_newline _ _⟩
    exact (hlines lines h).1

theorem Firm.infixed {k : TokenKind} (ho : IsToken k op) (hl : Firm l) (hr : Firm r) :
    Firm (infixed op l r) := by
  unfold Node.infixed
  rw [List.append_assoc]
  exact hl.append (Firm.apart ho hr).space (ends_space _)

theorem Firm.atLeast {n : Node} (least : Nat) (h : Firm d) : Firm (n.atLeast least d) := by
  unfold Node.atLeast
  split
  · exact h.parens
  · exact h

theorem Firm.operand {n : Node} (h : Firm d) : Firm (n.operand d) := by
  unfold Node.operand
  split
  · exact (h.atLeast _).parens
  · exact h.atLeast _

/-- A word, something in parentheses and what follows. -/
theorem Firm.header {k : Keyword} (hd : Firm d) (he : Firm e) :
    Firm (.word k.spelling :: .space :: d.parens ++ .space :: e) :=
  (hd.parens.append he.space (ends_space _)).apart (isToken_keyword k)

theorem Firm.elseJoint (level : Nat) (n : Node) (h : Firm d) :
    Firm (elseJoint level n ++ d) ∧ Ends (elseJoint level n ++ d) := by
  have helse : Firm (.word "else" :: .space :: d) := h.apart (isToken_keyword .else)
  unfold Node.elseJoint
  split
  · exact ⟨helse.space, ends_space _⟩
  · exact ⟨helse.newline, ends_newline _ _⟩

theorem Firm.asStatement (h : Firm d) : Firm (asStatement d) := by
  have hend : Firm [.word ";"] := firm_symbol (k := .semicolon) (by decide)
  unfold Node.asStatement
  split
  · exact h.parens.append hend (ends_symbol (by decide) _)
  · exact h.append hend (ends_symbol (by decide) _)

/-- An operator before an operand that begins with some word at every depth. -/
theorem Firm.prefixed {k : TokenKind} (ho : IsToken k op) (hk : Grammar.isUnaryOperator k)
    (hn : k ≠ .keyword .await) (h : Firm d)
    (hs : ∃ c cs e, d = .word w :: e ∧ w.toList = c :: cs ∧ c ≠ '=') :
    Firm (prefixed op d) := by
  unfold Node.prefixed
  split
  · exact h.apart ho
  · rename_i hp
    rw [not_or] at hp
    obtain ⟨c, cs, e, rfl, hw, hc⟩ := hs
    have hword : k.isWord = false := by
      cases k with
      | keyword k =>
        cases k with
        | typeof => exact absurd ho.eq_spelling hp.1
        | await => exact absurd rfl hn
        | _ => cases hk
      | _ => first | rfl | cases hk
    refine fun rest hr => ⟨⟨k, ?_⟩, h rest hr⟩
    refine lexes_sign ho hk hword ?_ ?_
    · obtain ⟨o, ho⟩ : ∃ o, op.toList = [o] := by
        rcases ho.sign hk hword with h | h | h <;> exact ⟨_, (Prod.ext_iff.1 h).1⟩
      rw [← Bool.not_eq_true, List.isPrefixOf_iff_prefix]
      intro hpre
      refine hp.2 (List.isPrefixOf_iff_prefix.2 ?_)
      change op.toList <+: chars _
      rw [ho, chars_word, hw] at hpre ⊢
      exact List.cons_prefix_cons.2 ⟨(List.cons_prefix_cons.1 hpre).1, List.nil_prefix⟩
    · rw [chars_word, hw]
      exact fun he => hc (Option.some.inj he)

end Doc

/-! ## Names -/

namespace Fits

variable {n : Node} {ps : List Node}

theorem firm_name [CharNames] (h : Fits .name n) {d : Doc} (hd : Doc.Firm d) (he : Doc.Ends d) :
    Doc.Firm (.word n.nameText :: d) := hd.word h.isToken_nameText rfl he

theorem firm_params [CharNames] (h : ∀ p ∈ ps, Fits .name p) : Doc.Firm (paramList ps) :=
  .parens <| .commas <| List.forall_mem_map.2 fun p hp =>
    (h p hp).firm_name Doc.firm_nil Doc.ends_nil

theorem firm_arrowParams [CharNames] (h : ∀ p ∈ ps, Fits .name p) : Doc.Firm (arrowParams ps) := by
  match ps with
  | [p] => exact (h p (.head _)).firm_name Doc.firm_nil Doc.ends_nil
  | [] | _ :: _ :: _ => exact firm_params h

theorem firm_function [CharNames] {id : Option Node} {d : Doc} (hi : ∀ i ∈ id, Fits .name i)
    (hp : ∀ p ∈ ps, Fits .name p) (hd : Doc.Firm d) : Doc.Firm (functionDoc id ps d) := by
  have hrest : Doc.Firm (paramList ps ++ .space :: d) :=
    (firm_params hp).append hd.space (Doc.ends_space _)
  unfold functionDoc
  cases id with
  | none => exact hrest.word (isToken_keyword .function) rfl (Doc.ends_parens _ _)
  | some i =>
    exact Doc.Firm.apart (isToken_keyword .function)
      ((hi i rfl).firm_name hrest (Doc.ends_parens _ _))

/-- What stands after a dot does not make a number with it. -/
theorem ends_dot [CharNames] (h : Fits .attr n) (level : Nat) :
    Doc.Ends (.word "." :: n.expr level) := by
  intro rest _
  cases h with
  | @attr loc type x h =>
    have hstart : x.toList.head?.any isNameStart := by
      rcases h with h | ⟨k, h⟩ <;> first | exact h.nameStart (.inl rfl) | exact h.nameStart (.inr rfl)
    simp only [expr, Doc.chars_word, Doc.chars_nil, List.append_nil, List.append_assoc]
    refine breaks_dot ?_
    cases hx : x.toList with
    | nil => simp [hx] at hstart
    | cons c cs =>
      rw [hx] at hstart
      rintro _ ⟨⟩
      exact isDecimalDigit_of_isNameStart hstart

theorem firm_items {es : List Node} {level : Nat}
    (h : ∀ e ∈ es, ∀ level, Doc.Firm (e.expr level)) : Doc.Firm (Doc.commas (items level es)) := by
  rw [items_eq]
  exact .commas (List.forall_mem_map.2 fun e he => (h e he level).atLeast _)

/-- The header of a counting loop that starts with the pieces `d`. -/
theorem firm_loopHeader [CharNames] {level : Nat} {d : Doc} {t u : Option Node} (hd : Doc.Firm d)
    (ht : ∀ e ∈ t, Doc.Firm (e.expr level)) (hu : ∀ e ∈ u, Fits .expr e)
    (hfu : ∀ e ∈ u, Doc.Firm (e.expr level)) :
    Doc.Firm (Doc.trimEnd (d ++ [.word ";", .space] ++ optExpr level t ++ [.word ";", .space] ++
      optExpr level u)) := by
  have hsep : ∀ {e : Doc}, Doc.Firm e → Doc.Firm (.word ";" :: e) := fun he =>
    he.symbol (k := .semicolon) (by decide)
  have hupdate : Doc.Firm ((u.map (expr level)).elim [] (.space :: ·)) := by
    cases u with
    | none => exact Doc.firm_nil
    | some e => exact (hfu e rfl).space
  have htest : Doc.Firm (optExpr level t) := by
    cases t with
    | none => exact Doc.firm_nil
    | some e => exact ht e rfl
  rw [optExpr_eq level u, Doc.trimEnd_header]
  · exact hd.append (hsep (htest.append (hsep hupdate) (Doc.ends_symbol (by decide) _)).space)
      (Doc.ends_symbol (by decide) _)
  · intro f hf
    obtain ⟨e, he, rfl⟩ := Option.map_eq_some_iff.1 hf
    exact (hu e he).ends (.inl rfl) level

/-- The pieces of a declaration are those of the statement, but for its end. -/
theorem stmt_declaration [CharNames] (h : Fits .declaration n) (level : Nat) :
    n.stmt level = n.declaration level ++ [.word ";"] := by
  cases h with
  | declaration => simp only [stmt, Node.declaration]

theorem stmt_body [CharNames] (h : Fits .body n) (level : Nat) : n.stmt level = n.body level := by
  cases h with
  | body => simp only [stmt, Node.body]

end Fits

open Doc

/-- **Printed words do not run together.** -/
theorem Fits.firm [CharNames] {n : Node} {r : Role} (h : Fits r n) (level : Nat) :
    Doc.Firm (r.pieces level n) := by
  induction h generalizing level with
  -- Names
  | name h =>
    simp only [Role.pieces, expr]
    exact firm_nil.word h rfl ends_nil
  | attr h =>
    simp only [Role.pieces, expr]
    rcases h with h | ⟨k, h⟩ <;> exact firm_nil.word h rfl ends_nil
  | pathName _ ih | nameKey _ ih | ref _ ih => exact ih level
  | pathMember _ hp iho ihp | member _ hp iho ihp =>
    simp only [Role.pieces, expr]
    exact (iho level).operand.append ((ihp level).symbol (k := .dot) (by decide)) (hp.ends_dot level)
  -- Entries of objects
  | textKey h | numberKey h _ | number h _ | text h | shorthand h =>
    simp only [Role.pieces, expr, Node.entry]
    exact firm_nil.word h rfl ends_nil
  | pair _ _ ihk ihv =>
    simp only [Role.pieces, Node.entry]
    exact (ihk level).append (((ihv level).atLeast _).space.symbol (k := .colon) (by decide))
      (ends_symbol (by decide) _)
  -- Expressions
  | constant hk hv =>
    obtain rfl := eq_spelling_of_constant hk hv
    simp only [Role.pieces, expr]
    exact firm_nil.word (isToken_keyword _) rfl ends_nil
  | this =>
    simp only [Role.pieces, expr]
    exact firm_nil.word (isToken_keyword .this) rfl ends_nil
  | array _ ih =>
    simp only [Role.pieces, expr]
    exact (firm_items ih).append (firm_symbol (k := .rbracket) (by decide))
      (ends_symbol (by decide) _) |>.symbol (k := .lbracket) (by decide)
  | @object loc type ps _ ih =>
    have hclose : Firm [.word "\x7d"] := firm_symbol (k := .rbrace) (by decide)
    cases ps with
    | nil =>
      simp only [Role.pieces, expr]
      exact hclose.symbol (k := .lbrace) (by decide)
    | cons p ps =>
      have hps : Firm (commas (entry level p :: entries level ps)) := by
        rw [entries_eq, ← List.map_cons]
        exact .commas (List.forall_mem_map.2 fun p hp => ih p hp level)
      simp only [Role.pieces, expr]
      exact (hps.append hclose.space (ends_space _)).space.symbol (k := .lbrace) (by decide)
  | index _ _ iho ihk =>
    simp only [Role.pieces, expr, List.append_assoc, List.cons_append]
    exact (iho level).operand.append (((ihk level).append (firm_symbol (k := .rbracket) (by decide))
      (ends_symbol (by decide) _)).symbol (k := .lbracket) (by decide)) (ends_symbol (by decide) _)
  | call _ _ ihc iha =>
    simp only [Role.pieces, expr]
    exact (ihc level).operand.append (firm_items iha).parens (ends_symbol (by decide) _)
  | construct _ _ ihc iha =>
    simp only [Role.pieces, expr]
    exact (((ihc level).atLeast _).append (firm_items iha).parens
      (ends_symbol (by decide) _)).apart (isToken_keyword .new)
  | await _ ih =>
    simp only [Role.pieces, expr]
    exact ((ih level).atLeast _).apart (isToken_keyword .await)
  | assignment ho _ _ _ _ ihl ihr | binary ho _ _ _ _ ihl ihr | logical ho _ _ _ ihl ihr =>
    simp only [Role.pieces, expr]
    exact .infixed ho ((ihl level).atLeast _) ((ihr level).atLeast _)
  | @unary loc type k op a ho hk hn ha ih =>
    obtain ⟨w, hw⟩ := ha.begins
    obtain ⟨w', hw'⟩ := hw.atLeast unaryPrecedence
    obtain ⟨d, hd, -⟩ := hw'.pieces level
    obtain ⟨c, cs, hc⟩ := hw'.start
    simp only [Role.pieces, expr]
    exact .prefixed ho hk hn ((ih level).atLeast _) ⟨c, cs, d, hd, hc⟩
  | @update loc type op a ho _ ih =>
    have hop : op ∈ ["++", "--"] ∧ (op, TokenKind.incDec) ∈ firmSymbols := by
      have hs : ∀ s ∈ symbols, s.2 = .incDec → s.1 = "++".toList ∨ s.1 = "--".toList := by decide
      rcases hs _ (ho.mem_symbols rfl) rfl with h | h <;> obtain rfl := String.toList_inj.1 h <;>
        decide
    simp only [Role.pieces, expr]
    refine ((ih level).atLeast _).append (firm_symbol hop.2) (ends_symbol ?_ _)
    have hmem := hop.1
    simp only [List.mem_cons, List.not_mem_nil, or_false] at hmem ⊢
    tauto
  | conditional _ _ _ iht ihc iha =>
    simp only [Role.pieces, expr]
    exact .infixed (isToken_symbol (k := .question) (by decide)) ((iht level).atLeast _)
      (.infixed (isToken_symbol (k := .colon) (by decide)) ((ihc level).atLeast _) ((iha level).atLeast _))
  | function hi hp _ _ _ ih =>
    simp only [Role.pieces, expr]
    exact firm_function hi hp (ih level)
  | @arrowBlock loc type ps b hp hb _ ih =>
    have hk : b.kind = .block := by cases hb; rfl
    simp only [Role.pieces, expr, if_pos hk]
    exact .infixed (isToken_symbol (k := .arrow) (by decide)) (firm_arrowParams hp) (ih level)
  | @arrow loc type ps b hp hb _ ih =>
    have hk : b.kind ≠ .block := hb.kind_ne rfl
    simp only [Role.pieces, expr, if_neg hk]
    refine .infixed (isToken_symbol (k := .arrow) (by decide)) (firm_arrowParams hp) ?_
    unfold arrowBody
    split
    · exact ((ih level).atLeast _).parens
    · exact (ih level).atLeast _
  -- Parts of statements
  | @declarator loc type i init hi _ _ ih =>
    cases init with
    | none =>
      simp only [Role.pieces, Node.declarator]
      exact hi.firm_name firm_nil ends_nil
    | some e =>
      simp only [Role.pieces, Node.declarator]
      exact .infixed (isToken_symbol (k := .assign) (by decide)) (hi.firm_name firm_nil ends_nil)
        ((ih e rfl level).atLeast _)
  | declaration _ _ _ ih =>
    simp only [Role.pieces, Node.declaration, declarators_eq]
    exact (Firm.commas (List.forall_mem_map.2 fun d hd => ih d hd level)).apart (isToken_keyword _)
  | body _ ih =>
    simp only [Role.pieces, Node.body, stmts_eq]
    exact .braces (List.forall_mem_map.2 fun n hn => ih n hn _)
  | @handler loc type p b hp _ _ ih =>
    cases p with
    | none =>
      simp only [Role.pieces, Node.handler]
      exact (ih level).apart (isToken_keyword .catch)
    | some p =>
      simp only [Role.pieces, Node.handler]
      exact (((hp p rfl).firm_name firm_nil ends_nil).parens.append (ih level).space
        (ends_space _)).apart (isToken_keyword .catch)
  -- Statements
  | line _ ih => exact ih level
  | declared h ih =>
    simp only [Role.pieces, h.stmt_declaration]
    exact (ih level).append (firm_symbol (k := .semicolon) (by decide)) (ends_symbol (by decide) _)
  | expression _ ih =>
    simp only [Role.pieces, stmt]
    exact (ih level).asStatement
  | @«return» loc type a _ ih =>
    have hend : Firm [.word ";"] := firm_symbol (k := .semicolon) (by decide)
    cases a with
    | none =>
      simp only [Role.pieces, stmt]
      exact hend.word (isToken_keyword .return) rfl (ends_symbol (by decide) _)
    | some a =>
      simp only [Role.pieces, stmt]
      exact ((ih a rfl level).append hend (ends_symbol (by decide) _)).apart
        (isToken_keyword .return)
  | «if» _ _ iht ihc =>
    simp only [Role.pieces, stmt]
    exact .header (k := .if) (iht level) (ihc level)
  | @ifElse loc type t c a _ _ _ _ iht ihc iha =>
    obtain ⟨helse, hends⟩ := Firm.elseJoint level c (iha level)
    simp only [Role.pieces, stmt]
    rw [List.append_assoc]
    exact (Firm.header (k := .if) (iht level) (ihc level)).append helse hends
  | «while» _ _ iht ihb =>
    simp only [Role.pieces, stmt]
    exact .header (k := .while) (iht level) (ihb level)
  | @forDecl loc type i t u b _ hi _ hu _ ihi iht ihu ihb =>
    have hk : i.kind = .declaration := by cases hi; rfl
    simp only [Role.pieces, stmt, loopInit, if_pos hk]
    refine .header (k := .for) ?_ (ihb level)
    exact firm_loopHeader (ihi level) (fun e he => iht e he level) hu fun e he => ihu e he level
  | @«for» loc type i t u b _ hi _ hu _ ihi iht ihu ihb =>
    have hinit : Firm (loopInit level i) := by
      cases i with
      | none => exact firm_nil
      | some i =>
        have hk : i.kind ≠ .declaration := (hi i rfl).kind_ne rfl
        simp only [loopInit, if_neg hk]
        exact ihi i rfl level
    simp only [Role.pieces, stmt]
    refine .header (k := .for) ?_ (ihb level)
    exact firm_loopHeader hinit (fun e he => iht e he level) hu fun e he => ihu e he level
  | forOf hk hi _ _ _ ihr ihb =>
    simp only [Role.pieces, stmt, Node.declaration, declarators, Node.declarator]
    refine .header (k := .for) (.infixed (isToken_keyword .of) ?_ (ihr level)) (ihb level)
    exact (hi.firm_name firm_nil ends_nil).apart (isToken_keyword _)
  | functionDecl hi hp _ _ _ ih =>
    simp only [Role.pieces, stmt]
    exact firm_function (by rintro _ ⟨⟩; exact hi) hp (ih level)
  | block h ih =>
    simp only [Role.pieces, h.stmt_body]
    exact ih level
  | «break» =>
    simp only [Role.pieces, stmt]
    exact (firm_symbol (k := .semicolon) (by decide)).word (isToken_keyword .break) rfl
      (ends_symbol (by decide) _)
  | «continue» =>
    simp only [Role.pieces, stmt]
    exact (firm_symbol (k := .semicolon) (by decide)).word (isToken_keyword .continue) rfl
      (ends_symbol (by decide) _)
  | throw _ ih =>
    simp only [Role.pieces, stmt]
    exact ((ih level).append (firm_symbol (k := .semicolon) (by decide))
      (ends_symbol (by decide) _)).apart (isToken_keyword .throw)
  | @«try» loc type b h f _ _ _ ihb ihh ihf =>
    have hhandler : Firm (optHandler level h) ∧ Doc.Ends (optHandler level h) := by
      cases h with
      | none => exact ⟨firm_nil, ends_nil⟩
      | some h => exact ⟨(ihh h rfl level).space, ends_space _⟩
    have hfinalizer : Firm (optFinalizer level f) ∧ Doc.Ends (optFinalizer level f) := by
      cases f with
      | none => exact ⟨firm_nil, ends_nil⟩
      | some f => exact ⟨((ihf f rfl level).apart (isToken_keyword .finally)).space, ends_space _⟩
    simp only [Role.pieces, stmt]
    exact (((ihb level).append hhandler.1 hhandler.2).append hfinalizer.1 hfinalizer.2).apart
      (isToken_keyword .try)

end AutoAwait
