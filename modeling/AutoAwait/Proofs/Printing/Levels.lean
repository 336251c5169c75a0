import AutoAwait.Proofs.Printing.Reading
import AutoAwait.Proofs.Tree.Parts

/-!
# Deeper levels

What is printed some levels deeper has more blanks after its line breaks and is otherwise the same.

* `indent` puts blanks after the line breaks of a text;
* `Doc.Deeper` relates pieces to the same pieces some levels deeper, and `Doc.Deeper.render` says
  how their texts differ;
* `Node.OneLine` says that the line breaks of what is printed are the printer's own;
* `Node.OneLine.formatStatement_eq` and `Node.OneLine.formatExpression_eq` are the main statements.
-/

namespace AutoAwait

/-! ## Indented texts -/

/-- Characters with `2 * k` blanks after each line break. -/
def indentChars (k : Nat) (cs : List Char) : List Char :=
  cs.flatMap fun c => if c = '\n' then '\n' :: List.replicate (2 * k) ' ' else [c]

/-- A text with `2 * k` blanks after each line break. -/
def indent (k : Nat) (text : String) : String := String.ofList (indentChars k text.toList)

section indent
variable {k : Nat} {w cs : List Char} {s t : String}

@[simp] theorem indentChars_nil (k : Nat) : indentChars k [] = [] := rfl

theorem indentChars_append (k : Nat) (cs ds : List Char) :
    indentChars k (cs ++ ds) = indentChars k cs ++ indentChars k ds := List.flatMap_append

theorem indentChars_newline (k : Nat) (cs : List Char) :
    indentChars k ('\n' :: cs) = '\n' :: List.replicate (2 * k) ' ' ++ indentChars k cs := rfl

theorem indentChars_cons {c : Char} (h : c ≠ '\n') (k : Nat) (cs : List Char) :
    indentChars k (c :: cs) = c :: indentChars k cs := by
  rw [indentChars, List.flatMap_cons, if_neg h]
  rfl

/-- Characters of one line stay as they are. -/
theorem indentChars_of_not_mem (h : '\n' ∉ cs) (k : Nat) : indentChars k cs = cs := by
  induction cs with
  | nil => rfl
  | cons c cs ih =>
    rw [List.mem_cons, not_or] at h
    rw [indentChars_cons (Ne.symm h.1), ih h.2]

theorem head?_indentChars (k : Nat) (cs : List Char) : (indentChars k cs).head? = cs.head? := by
  cases cs with
  | nil => rfl
  | cons c cs =>
    by_cases h : c = '\n'
    · rw [h, indentChars_newline]
      rfl
    · rw [indentChars_cons h]
      rfl

/-- An indented text begins with the same words. -/
theorem isPrefixOf_indentChars (h : '\n' ∉ w) (k : Nat) (cs : List Char) :
    w.isPrefixOf (indentChars k cs) = w.isPrefixOf cs := by
  induction w generalizing cs with
  | nil => rw [List.isPrefixOf_nil_left, List.isPrefixOf_nil_left]
  | cons x w ih =>
    rw [List.mem_cons, not_or] at h
    cases cs with
    | nil => rfl
    | cons c cs =>
      by_cases hc : c = '\n'
      · have hx : (x == '\n') = false := beq_eq_false_iff_ne.2 (Ne.symm h.1)
        rw [hc, indentChars_newline]
        simp only [List.cons_append, List.isPrefixOf_cons_cons, hx, Bool.false_and]
      · rw [indentChars_cons hc, List.isPrefixOf_cons_cons, List.isPrefixOf_cons_cons, ih h.2]

@[simp] theorem indent_append (k : Nat) (s t : String) :
    indent k (s ++ t) = indent k s ++ indent k t := by
  rw [indent, String.toList_append, indentChars_append, String.ofList_append]
  rfl

theorem indent_of_not_mem (h : '\n' ∉ s.toList) (k : Nat) : indent k s = s := by
  rw [indent, indentChars_of_not_mem h, String.ofList_toList]

theorem isPrefixOf_indent (h : '\n' ∉ w) (k : Nat) (s : String) :
    w.isPrefixOf (indent k s).toList = w.isPrefixOf s.toList := by
  rw [indent, String.toList_ofList, isPrefixOf_indentChars h]

/-- A text that is a line break and the blanks of a line, `k` levels deeper. -/
theorem indent_newline (k depth : Nat) :
    indent k (Piece.newline depth).text = (Piece.newline (k + depth)).text := by
  have hblanks : '\n' ∉ List.replicate (2 * depth) ' ' := fun h =>
    absurd (List.eq_of_mem_replicate h) (by decide)
  rw [Piece.text, indent, String.toList_ofList, indentChars_newline, indentChars_of_not_mem hblanks,
    Piece.text, Nat.mul_add, List.replicate_add]
  rfl

/-- Indented or not, a text begins like a statement of its own or does not. -/
theorem beginsLikeStatement_indent (k : Nat) (s : String) :
    Node.beginsLikeStatement (indent k s) = Node.beginsLikeStatement s := by
  have hword : '\n' ∉ "function".toList := by decide
  have hafter : "function".toList.isPrefixOf s.toList →
      ((indentChars k s.toList).drop "function".toList.length).head? =
        (s.toList.drop "function".toList.length).head? := by
    intro h
    obtain ⟨ds, hds⟩ := List.isPrefixOf_iff_prefix.1 h
    rw [← hds, indentChars_append, indentChars_of_not_mem hword, List.drop_left, List.drop_left,
      head?_indentChars]
  unfold Node.beginsLikeStatement
  simp only [indent, String.toList_ofList, head?_indentChars, isPrefixOf_indentChars hword]
  cases hp : "function".toList.isPrefixOf s.toList with
  | false => rfl
  | true => rw [hafter hp]

end indent

/-! ## Pieces at a deeper level -/

/-- Is this the same piece `k` levels deeper? A word has no line breaks in it. -/
inductive Piece.Deeper (k : Nat) : Piece → Piece → Prop
  | word {w : String} (h : '\n' ∉ w.toList) : Deeper k (.word w) (.word w)
  | space : Deeper k .space .space
  | newline (depth : Nat) : Deeper k (.newline depth) (.newline (k + depth))

/-- The text of a piece `k` levels deeper. -/
theorem Piece.Deeper.text_eq {k : Nat} {p q : Piece} (h : p.Deeper k q) :
    q.text = indent k p.text := by
  cases h with
  | word h => exact (indent_of_not_mem h k).symm
  | space => exact (indent_of_not_mem (s := " ") (by decide) k).symm
  | newline depth => exact (indent_newline k depth).symm

/-- Are these the same pieces `k` levels deeper? -/
def Doc.Deeper (k : Nat) (d e : Doc) : Prop := List.Forall₂ (Piece.Deeper k) d e

namespace Doc.Deeper

variable {k level : Nat} {w op : String} {d d' e e' l l' r r' : Doc} {ds es : List Doc} {n : Node}

/-- The text of pieces `k` levels deeper. -/
theorem render (h : Deeper k d e) : e.render = indent k d.render := by
  induction h with
  | nil => rfl
  | cons hp _ ih => rw [render_cons, render_cons, indent_append, hp.text_eq, ih]

/-- The tokens of pieces are the same at every level, but for their places. -/
theorem tokensAt (h : Deeper k d e) (hd : d.Separated []) (he : e.Separated []) (p q : Position) :
    (e.tokensAt q).map Token.word = (d.tokensAt p).map Token.word := by
  unfold Doc.tokensAt
  induction h generalizing p q with
  | nil => rfl
  | cons hp _ ih =>
    cases hp with
    | word =>
      obtain ⟨⟨kind, hl⟩, hd⟩ := hd
      obtain ⟨⟨kind', hl'⟩, he⟩ := he
      obtain rfl : kind = kind' := hl.isToken.unique hl'.isToken
      rw [List.append_nil] at hl hl'
      rw [chars_word, chars_word, lexemes_cons hl, lexemes_cons hl', tokensFrom_cons,
        tokensFrom_cons, List.map_append, List.map_append, ih hd he]
      rfl
    | space =>
      rw [chars_space, chars_space, (lexemes_blank rfl _).2, (lexemes_blank rfl _).2]
      exact ih hd he _ _
    | newline =>
      rw [chars_newline, chars_newline, lexemes_cons (lexes_newline _),
        lexemes_cons (lexes_newline _), tokensFrom_cons, tokensFrom_cons, (lexemes_spaces _ _).2,
        (lexemes_spaces _ _).2, List.map_append, List.map_append, ih hd he]
      rfl

theorem nil : Deeper k [] [] := List.Forall₂.nil

theorem word (h : '\n' ∉ w.toList) (hd : Deeper k d e) : Deeper k (.word w :: d) (.word w :: e) :=
  List.Forall₂.cons (.word h) hd

theorem space (hd : Deeper k d e) : Deeper k (.space :: d) (.space :: e) :=
  List.Forall₂.cons .space hd

theorem newline (hd : Deeper k d e) :
    Deeper k (.newline level :: d) (.newline (k + level) :: e) :=
  List.Forall₂.cons (.newline level) hd

theorem single (h : '\n' ∉ w.toList) : Deeper k [.word w] [.word w] := .word h .nil

theorem append (h : Deeper k d e) (h' : Deeper k d' e') : Deeper k (d ++ d') (e ++ e') :=
  List.rel_append h h'

theorem parens (h : Deeper k d e) : Deeper k d.parens e.parens :=
  .word (by decide) (h.append (.single (by decide)))

/-- A word, something in parentheses and what follows. -/
theorem header (h : '\n' ∉ w.toList) (hd : Deeper k d d') (he : Deeper k e e') :
    Deeper k (.word w :: .space :: d.parens ++ .space :: e)
      (.word w :: .space :: d'.parens ++ .space :: e') :=
  .word h (.space (hd.parens.append he.space))

theorem commas (h : List.Forall₂ (Deeper k) ds es) : Deeper k (commas ds) (commas es) := by
  induction h with
  | nil => exact .nil
  | cons hd hds ih =>
    cases hds with
    | nil => exact hd
    | cons => exact (hd.append (.word (by decide) (.space .nil))).append ih

theorem braces (h : List.Forall₂ (Deeper k) ds es) :
    Deeper k (braces level ds) (braces (k + level) es) := by
  cases h with
  | nil => exact .word (by decide) (.single (by decide))
  | cons hd hds =>
    have hlines : Deeper k ((_ :: _ : List Doc).flatMap fun d => .newline (level + 1) :: d)
        ((_ :: _ : List Doc).flatMap fun d => .newline (k + (level + 1)) :: d) :=
      List.rel_flatMap (.cons hd hds) fun _ _ h => newline h
    exact (Deeper.word (by decide) hlines).append (.newline (.single (by decide)))

/-- Blanks at the end of a piece are the same at any level. -/
theorem trimEnd_piece {p q : Piece} (h : p.Deeper k q) : Deeper k p.trimEnd q.trimEnd := by
  cases h with
  | space | newline => exact .nil
  | word h =>
    rw [Piece.trimEnd]
    split
    · exact .nil
    · refine .single fun hmem => h ?_
      rw [String.toList_ofList, List.mem_reverse] at hmem
      exact List.mem_reverse.1 ((List.dropWhile_sublist _).mem hmem)

theorem trimEnd (h : Deeper k d e) : Deeper k d.trimEnd e.trimEnd := by
  induction h with
  | nil => exact .nil
  | cons hp _ ih =>
    rename_i p q ps qs _
    rw [Doc.trimEnd, Doc.trimEnd]
    generalize Doc.trimEnd ps = ps, Doc.trimEnd qs = qs at ih ⊢
    cases ih with
    | nil => exact trimEnd_piece hp
    | cons hq hqs => exact .cons hp (.cons hq hqs)

/-! ### Pieces that depend on the node -/

theorem unsupported (n : Node) : Deeper k n.unsupported n.unsupported := by
  have hlabel : ∀ kind : NodeKind, '\n' ∉ ("/* <unsupported " ++ kind.label ++ "> */").toList := by
    intro kind
    cases kind <;> decide
  exact .single (hlabel n.kind)

theorem atLeast (least : Nat) (h : Deeper k d e) :
    Deeper k (n.atLeast least d) (n.atLeast least e) := by
  unfold Node.atLeast
  split
  · exact h.parens
  · exact h

theorem operand (h : Deeper k d e) : Deeper k (n.operand d) (n.operand e) := by
  unfold Node.operand
  split
  · exact (h.atLeast _).parens
  · exact h.atLeast _

theorem infixed (ho : '\n' ∉ op.toList) (hl : Deeper k l l') (hr : Deeper k r r') :
    Deeper k (Node.infixed op l r) (Node.infixed op l' r') :=
  (hl.append (.space (.word ho (.space .nil)))).append hr

theorem arrowBody (h : Deeper k d e) : Deeper k (n.arrowBody d) (n.arrowBody e) := by
  unfold Node.arrowBody
  split
  · exact (h.atLeast _).parens
  · exact h.atLeast _

/-- A statement is in parentheses at every level or at none. -/
theorem asStatement (h : Deeper k d e) : Deeper k (Node.asStatement d) (Node.asStatement e) := by
  unfold Node.asStatement
  rw [h.render, beginsLikeStatement_indent]
  refine Deeper.append ?_ (.single (by decide))
  split
  · exact h.parens
  · exact h

/-- An operator is apart from its operand at every level or at none. -/
theorem prefixed (ho : '\n' ∉ op.toList) (h : Deeper k d e) :
    Deeper k (Node.prefixed op d) (Node.prefixed op e) := by
  unfold Node.prefixed
  rw [h.render, isPrefixOf_indent ho]
  split
  · exact .word ho (.space h)
  · exact .word ho h

theorem elseJoint : Deeper k (n.elseJoint level) (n.elseJoint (k + level)) := by
  unfold Node.elseJoint
  split
  · exact .space (.word (by decide) (.space .nil))
  · exact .newline (.word (by decide) (.space .nil))

end Doc.Deeper

/-! ## Trees without line breaks of their own -/

/-- The texts of a shape that are printed as they are. -/
def Shape.texts {α : Type} : Shape α → List String
  | .identifier n => [n]
  | .literal _ raw => [raw]
  | .assignment op _ _ | .binary op _ _ | .logical op _ _ | .unary op _ | .update op _ _ => [op]
  | .declaration kind _ => [kind]
  | _ => []

namespace Node

variable {n m p : Node}

/-- Is each name, literal and operator of the tree on one line? -/
def OneLine (n : Node) : Prop := ∀ m ∈ n.nodes, ∀ w ∈ m.shape.texts, '\n' ∉ w.toList

namespace OneLine

theorem of_mem (h : n.OneLine) (hm : m ∈ n.nodes) : m.OneLine :=
  fun _ hk => h _ (mem_nodes_trans hm hk)

theorem parts (h : n.OneLine) : ∀ p ∈ n.shape.parts, p.OneLine :=
  fun p hp => h.of_mem (mem_nodes_of_part hp (mem_nodes_self p))

theorem text (h : n.OneLine) {w : String} (hw : w ∈ n.shape.texts) : '\n' ∉ w.toList :=
  h n (mem_nodes_self n) w hw

theorem nameText (h : n.OneLine) : '\n' ∉ n.nameText.toList := by
  obtain ⟨loc, type, shape⟩ := n
  cases shape with
  | identifier => exact h.text (.head _)
  | _ => exact List.not_mem_nil

end OneLine

/-! ### What is printed for names -/

variable {k level : Nat} {ns : List Node}

theorem paramList_deeper (h : ∀ n ∈ ns, n.OneLine) :
    Doc.Deeper k (paramList ns) (paramList ns) := by
  refine .parens (.commas (List.forall₂_map_left_iff.2 (List.forall₂_map_right_iff.2 ?_)))
  exact List.forall₂_same.2 fun n hn => .single (h n hn).nameText

theorem arrowParams_deeper (h : ∀ n ∈ ns, n.OneLine) :
    Doc.Deeper k (arrowParams ns) (arrowParams ns) := by
  match ns with
  | [n] => exact .single (h n (.head _)).nameText
  | [] | _ :: _ :: _ => exact paramList_deeper h

theorem functionDoc_deeper {id : Option Node} {d e : Doc} (hi : ∀ i ∈ id, i.OneLine)
    (hp : ∀ n ∈ ns, n.OneLine) (h : Doc.Deeper k d e) :
    Doc.Deeper k (functionDoc id ns d) (functionDoc id ns e) := by
  refine .word (by decide) (.append (.append ?_ (paramList_deeper hp)) (.space h))
  cases id with
  | none => exact .nil
  | some i => exact .space (.single (hi i rfl).nameText)

/-! ### What is printed for trees -/

open Doc

mutual

theorem expr_deeper (level k : Nat) : (n : Node) → n.OneLine →
    Deeper k (n.expr level) (n.expr (k + level))
  | ⟨_, _, shape⟩, h => by
    cases shape with
    | identifier | literal => exact .single (h.text (.head _))
    | this => exact .single (by decide)
    | array es =>
      have hes : ∀ e ∈ es, e.OneLine := by simpa [Shape.parts, Shape.kids] using h.parts
      exact .word (by decide) ((Deeper.commas (items_deeper level k es hes)).append
        (.single (by decide)))
    | object ps =>
      have hps : ∀ p ∈ ps, p.OneLine := by simpa [Shape.parts, Shape.kids] using h.parts
      cases ps with
      | nil => exact .word (by decide) (.single (by decide))
      | cons p ps =>
        have hcommas := Deeper.commas (entries_deeper level k (p :: ps) hps)
        exact .word (by decide) (.space (hcommas.append (.space (.single (by decide)))))
    | member o p computed =>
      obtain ⟨ho, hp⟩ : o.OneLine ∧ p.OneLine := by simpa [Shape.parts, Shape.kids] using h.parts
      cases computed with
      | false =>
        have hdot : '\n' ∉ ".".toList := by decide
        exact (expr_deeper level k o ho).operand.append (.word hdot (expr_deeper level k p hp))
      | true =>
        have hopen : '\n' ∉ "[".toList := by decide
        exact ((expr_deeper level k o ho).operand.append
          (.word hopen (expr_deeper level k p hp))).append (.single (by decide))
    | call c as =>
      obtain ⟨hc, has⟩ : c.OneLine ∧ ∀ a ∈ as, a.OneLine := by
        simpa [Shape.parts, Shape.kids] using h.parts
      exact (expr_deeper level k c hc).operand.append
        (Deeper.commas (items_deeper level k as has)).parens
    | construct c as =>
      obtain ⟨hc, has⟩ : c.OneLine ∧ ∀ a ∈ as, a.OneLine := by
        simpa [Shape.parts, Shape.kids] using h.parts
      exact .word (by decide) (.space (((expr_deeper level k c hc).atLeast _).append
        (Deeper.commas (items_deeper level k as has)).parens))
    | await a =>
      have ha : a.OneLine := by simpa [Shape.parts, Shape.kids] using h.parts
      exact .word (by decide) (.space ((expr_deeper level k a ha).atLeast _))
    | assignment op l r | binary op l r | logical op l r =>
      obtain ⟨hl, hr⟩ : l.OneLine ∧ r.OneLine := by simpa [Shape.parts, Shape.kids] using h.parts
      exact .infixed (h.text (.head _)) ((expr_deeper level k l hl).atLeast _)
        ((expr_deeper level k r hr).atLeast _)
    | unary op a =>
      have ha : a.OneLine := by simpa [Shape.parts, Shape.kids] using h.parts
      exact .prefixed (h.text (.head _)) ((expr_deeper level k a ha).atLeast _)
    | update op a before =>
      have ha : a.OneLine := by simpa [Shape.parts, Shape.kids] using h.parts
      cases before with
      | true => exact .word (h.text (.head _)) ((expr_deeper level k a ha).atLeast _)
      | false => exact ((expr_deeper level k a ha).atLeast _).append (.single (h.text (.head _)))
    | conditional t c a =>
      obtain ⟨ht, hc, ha⟩ : t.OneLine ∧ c.OneLine ∧ a.OneLine := by
        simpa [Shape.parts, Shape.kids] using h.parts
      have hthen : '\n' ∉ "?".toList := by decide
      have helse : '\n' ∉ ":".toList := by decide
      exact .infixed hthen ((expr_deeper level k t ht).atLeast _)
        (.infixed helse ((expr_deeper level k c hc).atLeast _)
          ((expr_deeper level k a ha).atLeast _))
    | function id ps b =>
      obtain ⟨hi, hps, hb⟩ : (∀ i ∈ id, i.OneLine) ∧ (∀ p ∈ ps, p.OneLine) ∧ b.OneLine := by
        simpa [Shape.parts, Shape.kids, or_imp, forall_and] using h.parts
      exact functionDoc_deeper hi hps (body_deeper level k b hb)
    | arrow ps b =>
      obtain ⟨hps, hb⟩ : (∀ p ∈ ps, p.OneLine) ∧ b.OneLine := by
        simpa [Shape.parts, Shape.kids, or_imp, forall_and] using h.parts
      refine .infixed (by decide) (arrowParams_deeper hps) ?_
      split
      · exact body_deeper level k b hb
      · exact (expr_deeper level k b hb).arrowBody
    | _ => exact .unsupported _

theorem items_deeper (level k : Nat) : (ns : List Node) → (∀ n ∈ ns, n.OneLine) →
    List.Forall₂ (Deeper k) (items level ns) (items (k + level) ns)
  | [], _ => .nil
  | n :: ns, h =>
    .cons (.atLeast _ (expr_deeper level k n (h n (.head _))))
      (items_deeper level k ns fun m hm => h m (.tail _ hm))

theorem entry_deeper (level k : Nat) : (n : Node) → n.OneLine →
    Deeper k (n.entry level) (n.entry (k + level))
  | ⟨_, _, shape⟩, h => by
    cases shape with
    | property key v shorthand =>
      obtain ⟨hkey, hv⟩ : key.OneLine ∧ v.OneLine := by
        simpa [Shape.parts, Shape.kids] using h.parts
      cases shorthand with
      | true => exact expr_deeper level k key hkey
      | false =>
        exact (expr_deeper level k key hkey).append
          (.word (by decide) (.space ((expr_deeper level k v hv).atLeast _)))
    | _ => exact .unsupported _

theorem entries_deeper (level k : Nat) : (ns : List Node) → (∀ n ∈ ns, n.OneLine) →
    List.Forall₂ (Deeper k) (entries level ns) (entries (k + level) ns)
  | [], _ => .nil
  | n :: ns, h =>
    .cons (entry_deeper level k n (h n (.head _)))
      (entries_deeper level k ns fun m hm => h m (.tail _ hm))

theorem declarator_deeper (level k : Nat) : (n : Node) → n.OneLine →
    Deeper k (n.declarator level) (n.declarator (k + level))
  | ⟨_, _, shape⟩, h => by
    cases shape with
    | declarator id init =>
      cases init with
      | none =>
        have hi : id.OneLine := by simpa [Shape.parts, Shape.kids] using h.parts
        exact .single hi.nameText
      | some e =>
        obtain ⟨hi, he⟩ : id.OneLine ∧ e.OneLine := by simpa [Shape.parts, Shape.kids] using h.parts
        exact .infixed (by decide) (.single hi.nameText) ((expr_deeper level k e he).atLeast _)
    | _ => exact .unsupported _

theorem declarators_deeper (level k : Nat) : (ns : List Node) → (∀ n ∈ ns, n.OneLine) →
    List.Forall₂ (Deeper k) (declarators level ns) (declarators (k + level) ns)
  | [], _ => .nil
  | n :: ns, h =>
    .cons (declarator_deeper level k n (h n (.head _)))
      (declarators_deeper level k ns fun m hm => h m (.tail _ hm))

theorem declaration_deeper (level k : Nat) : (n : Node) → n.OneLine →
    Deeper k (n.declaration level) (n.declaration (k + level))
  | ⟨_, _, shape⟩, h => by
    cases shape with
    | declaration kind ds =>
      have hds : ∀ d ∈ ds, d.OneLine := by simpa [Shape.parts, Shape.kids] using h.parts
      exact .word (h.text (.head _)) (.space (.commas (declarators_deeper level k ds hds)))
    | _ => exact .unsupported _

theorem body_deeper (level k : Nat) : (n : Node) → n.OneLine →
    Deeper k (n.body level) (n.body (k + level))
  | ⟨_, _, shape⟩, h => by
    cases shape with
    | block b | program b =>
      have hb : ∀ n ∈ b, n.OneLine := by simpa [Shape.parts, Shape.kids] using h.parts
      exact .braces (stmts_deeper (level + 1) k b hb)
    | _ => exact .unsupported _

theorem optExpr_deeper (level k : Nat) : (o : Option Node) → (∀ e ∈ o, e.OneLine) →
    Deeper k (optExpr level o) (optExpr (k + level) o)
  | none, _ => .nil
  | some e, h => expr_deeper level k e (h e rfl)

theorem loopInit_deeper (level k : Nat) : (o : Option Node) → (∀ e ∈ o, e.OneLine) →
    Deeper k (loopInit level o) (loopInit (k + level) o)
  | none, _ => .nil
  | some i, h => by
    rw [loopInit, loopInit]
    split
    · exact declaration_deeper level k i (h i rfl)
    · exact expr_deeper level k i (h i rfl)

theorem handler_deeper (level k : Nat) : (n : Node) → n.OneLine →
    Deeper k (n.handler level) (n.handler (k + level))
  | ⟨_, _, shape⟩, h => by
    cases shape with
    | catchClause p b =>
      cases p with
      | none =>
        have hb : b.OneLine := by simpa [Shape.parts, Shape.kids] using h.parts
        exact .word (by decide) (.space (body_deeper level k b hb))
      | some p =>
        obtain ⟨hp, hb⟩ : p.OneLine ∧ b.OneLine := by simpa [Shape.parts, Shape.kids] using h.parts
        exact .word (by decide) (.space ((Deeper.single hp.nameText).parens.append
          (.space (body_deeper level k b hb))))
    | _ => exact .unsupported _

theorem optHandler_deeper (level k : Nat) : (o : Option Node) → (∀ e ∈ o, e.OneLine) →
    Deeper k (optHandler level o) (optHandler (k + level) o)
  | none, _ => .nil
  | some c, h => .space (handler_deeper level k c (h c rfl))

theorem optFinalizer_deeper (level k : Nat) : (o : Option Node) → (∀ e ∈ o, e.OneLine) →
    Deeper k (optFinalizer level o) (optFinalizer (k + level) o)
  | none, _ => .nil
  | some b, h => .space (.word (by decide) (.space (body_deeper level k b (h b rfl))))

/-- A statement `k` levels deeper. -/
theorem stmt_deeper (level k : Nat) : (n : Node) → n.OneLine →
    Deeper k (n.stmt level) (n.stmt (k + level))
  | ⟨_, _, shape⟩, h => by
    cases shape with
    | expression e =>
      have he : e.OneLine := by simpa [Shape.parts, Shape.kids] using h.parts
      exact (expr_deeper level k e he).asStatement
    | declaration kind ds =>
      have hds : ∀ d ∈ ds, d.OneLine := by simpa [Shape.parts, Shape.kids] using h.parts
      exact .word (h.text (.head _))
        (.space ((Deeper.commas (declarators_deeper level k ds hds)).append (.single (by decide))))
    | «return» a =>
      cases a with
      | none => exact .word (by decide) (.single (by decide))
      | some a =>
        have ha : a.OneLine := by simpa [Shape.parts, Shape.kids] using h.parts
        exact .word (by decide) (.space ((expr_deeper level k a ha).append (.single (by decide))))
    | block b =>
      have hb : ∀ n ∈ b, n.OneLine := by simpa [Shape.parts, Shape.kids] using h.parts
      exact .braces (stmts_deeper (level + 1) k b hb)
    | functionDecl id ps b =>
      obtain ⟨hi, hps, hb⟩ : id.OneLine ∧ (∀ p ∈ ps, p.OneLine) ∧ b.OneLine := by
        simpa [Shape.parts, Shape.kids, or_imp, forall_and] using h.parts
      exact functionDoc_deeper (by rintro _ ⟨⟩; exact hi) hps (body_deeper level k b hb)
    | «if» t c a =>
      cases a with
      | none =>
        obtain ⟨ht, hc⟩ : t.OneLine ∧ c.OneLine := by simpa [Shape.parts, Shape.kids] using h.parts
        exact .header (by decide) (expr_deeper level k t ht) (stmt_deeper level k c hc)
      | some a =>
        obtain ⟨ht, hc, ha⟩ : t.OneLine ∧ c.OneLine ∧ a.OneLine := by
          simpa [Shape.parts, Shape.kids] using h.parts
        have hword : '\n' ∉ "if".toList := by decide
        have hif := Deeper.header hword (expr_deeper level k t ht) (stmt_deeper level k c hc)
        exact (hif.append .elseJoint).append (stmt_deeper level k a ha)
    | «while» t b =>
      obtain ⟨ht, hb⟩ : t.OneLine ∧ b.OneLine := by simpa [Shape.parts, Shape.kids] using h.parts
      exact .header (by decide) (expr_deeper level k t ht) (stmt_deeper level k b hb)
    | «for» i t u b =>
      obtain ⟨hi, ht, hu, hb⟩ : (∀ e ∈ i, e.OneLine) ∧ (∀ e ∈ t, e.OneLine) ∧ (∀ e ∈ u, e.OneLine) ∧
          b.OneLine := by
        simpa [Shape.parts, Shape.kids, or_imp, forall_and, and_assoc] using h.parts
      have hsep : Deeper k [.word ";", .space] [.word ";", .space] :=
        .word (by decide) (.space .nil)
      have hheader := ((((loopInit_deeper level k i hi).append hsep).append
        (optExpr_deeper level k t ht)).append hsep).append (optExpr_deeper level k u hu)
      exact .header (by decide) hheader.trimEnd (stmt_deeper level k b hb)
    | forOf l r b =>
      obtain ⟨hl, hr, hb⟩ : l.OneLine ∧ r.OneLine ∧ b.OneLine := by
        simpa [Shape.parts, Shape.kids] using h.parts
      have hof : '\n' ∉ "of".toList := by decide
      exact .header (by decide)
        (.infixed hof (declaration_deeper level k l hl) (expr_deeper level k r hr))
        (stmt_deeper level k b hb)
    | «break» | «continue» => exact .word (by decide) (.single (by decide))
    | throw a =>
      have ha : a.OneLine := by simpa [Shape.parts, Shape.kids] using h.parts
      exact .word (by decide) (.space ((expr_deeper level k a ha).append (.single (by decide))))
    | «try» b c f =>
      obtain ⟨hb, hc, hf⟩ : b.OneLine ∧ (∀ e ∈ c, e.OneLine) ∧ (∀ e ∈ f, e.OneLine) := by
        simpa [Shape.parts, Shape.kids, or_imp, forall_and] using h.parts
      exact .word (by decide) (.space (((body_deeper level k b hb).append
        (optHandler_deeper level k c hc)).append (optFinalizer_deeper level k f hf)))
    | _ => exact .unsupported _

theorem stmts_deeper (level k : Nat) : (ns : List Node) → (∀ n ∈ ns, n.OneLine) →
    List.Forall₂ (Deeper k) (stmts level ns) (stmts (k + level) ns)
  | [], _ => .nil
  | n :: ns, h =>
    .cons (stmt_deeper level k n (h n (.head _)))
      (stmts_deeper level k ns fun m hm => h m (.tail _ hm))

end

namespace OneLine

/-- **Statements at deeper levels.** -/
theorem formatStatement_eq (h : n.OneLine) (k : Nat) :
    formatStatement n k = indent k (formatStatement n 0) :=
  (stmt_deeper 0 k n h).render

/-- **Expressions at deeper levels.** -/
theorem formatExpression_eq (h : n.OneLine) (k least : Nat) :
    formatExpression n k least = indent k (formatExpression n 0 least) :=
  ((expr_deeper 0 k n h).atLeast least).render

end OneLine

end Node

end AutoAwait
