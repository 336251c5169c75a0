import AutoAwait.Proofs.Printing.Expressions
import AutoAwait.Proofs.Printing.Firm
import AutoAwait.Proofs.Script.Append

/-!
# Printed statements are spelled by their tokens

For functions and for each form of statement: if the tokens of what is printed for its parts spell
the parts, then those of what is printed for the whole spell the whole.

* `Layout.Starts` are the states in which a statement can be read;
* `Node.ReadsBody` is about blocks, `Node.ReadsStmt` about statements, `Node.ReadsLine` about those
  in a list;
* `emits_headed` is about a word with a header in parentheses and what comes after it, `emits_lines`
  about statements on lines of their own.
-/

namespace AutoAwait

open Node Doc

namespace Layout

variable {s : Layout} {t : Token}

/-- Can a statement be read here? -/
structure Starts (s : Layout) : Prop extends s.Fresh where
  opens : s.opensBlock
  parens : s.inParens = false

theorem Starts.of_atStart (hs : s.Fresh) (ha : s.atStart) (hp : s.inParens = false) : s.Starts :=
  ⟨hs, by simp [opensBlock, ha], hp⟩

theorem inParens_of_opened {s' : Layout} (h : s'.opened = s.opened) : s'.inParens = s.inParens := by
  rw [inParens, inParens, h]

/-- After a semicolon in a header, where no statement could start. -/
theorem Inner.emit (hn : s.newline = none) (ha : s.atStart = false) (ht : t.kind = .semicolon) :
    (s.emit t).Inner := by
  refine Ready.of_opensBlock (.emit hn (by rw [ht]; rfl) (by rw [ht]; rintro ⟨⟩)) ?_
  change (s.atStart || false || t.kind.opensBlock) = false
  rw [ha, ht]
  rfl

end Layout

/-! ## Functions -/

namespace Node

variable [CharNames]
variable {n m o a b c e : Node} {ns as ps : List Node} {d : Doc} {s : Layout} {least level : Nat}
  {loc loc' : Position} {type type' : Option ShellType} {P : Prop}

/-- Is what is printed for a block read as the block? -/
def ReadsBody (level : Nat) (n : Node) : Prop :=
  ∀ s : Layout, s.newline = none → s.opensBlock → Emits (n.body level) s fun us s' =>
    SpelledAs .block Block.toNode n us ∧ s.Done s'

theorem emits_params (hn : s.newline = none) (hh : s.opensHeader) (hp : ∀ p ∈ ps, Fits .name p) :
    Emits (paramList ps) s fun us s' => SpelledAll .parenthesised .name Token.nameNode ps us ∧
      s'.newline = none ∧ s'.opensBlock ∧ s'.opened = s.opened := by
  refine .header hn hh fun l hl => ?_
  have hi : (s.inside .header l).Inner := .inside hn hl (by decide) (by decide)
  have hnames : Reads (Doc.commas (ps.map fun p => [.word p.nameText])) True
      (SpelledAll .list .name Token.nameNode ps) := .list fun p h => reads_name (hp p h)
  refine (hnames _ hi).imp fun us s' hu => ⟨hu.2.newline, hu.2.opened, fun r hr => ?_⟩
  refine ⟨spelledAll_parens hl hu.1 hr, hu.2.newline, ?_, congrArg List.tail hu.2.opened⟩
  simp [Layout.opensBlock, Layout.pastHeader]

omit [CharNames] in
theorem functionDoc_eq (id : Option Node) (ps : List Node) (d : Doc) : functionDoc id ps d =
    .word "function" :: (id.elim [] (fun i => [.space, .word i.nameText]) ++
      (paramList ps ++ .space :: d)) := by
  cases id <;> simp [functionDoc]

/-- What comes after the word `function`. -/
theorem emits_function {id : Option Node} {k : Token} (hn : s.newline = none)
    (hk : k.kind.startsFunction) (hi : ∀ i ∈ id, Fits .name i) (hp : ∀ p ∈ ps, Fits .name p)
    (hb : b.ReadsBody level) :
    Emits (id.elim [] (fun i => [.space, .word i.nameText]) ++
      (paramList ps ++ .space :: b.body level)) (s.past k) fun us s' => (∃ is vs ws,
        us = is ++ vs ++ ws ∧ SpelledOpt .name Token.nameNode id is ∧
        SpelledAll .parenthesised .name Token.nameNode ps vs ∧ SpelledAs .block Block.toNode b ws) ∧
        s.Done s' := by
  have hrest : ∀ (u : Layout) is, u.newline = none → u.opensHeader → u.opened = s.opened →
      SpelledOpt .name Token.nameNode id is →
      Emits (paramList ps ++ .space :: b.body level) u fun us s' => (∃ js vs ws,
        is ++ us = js ++ vs ++ ws ∧ SpelledOpt .name Token.nameNode id js ∧
        SpelledAll .parenthesised .name Token.nameNode ps vs ∧ SpelledAs .block Block.toNode b ws) ∧
        s.Done s' := by
    intro u is hn hh ho hid
    refine (emits_params hn hh hp).append fun vs u' hv => .space ?_
    exact (hb u' hv.2.1 hv.2.2.1).imp fun ws s' hw =>
      ⟨⟨is, vs, ws, by simp, hid, hv.1, hw.1⟩, hw.2.trans (hv.2.2.2.trans ho)⟩
  obtain ⟨hheader, hdot⟩ : k.kind.startsHeader ∧ k.kind ≠ .dot := by
    cases hkind : k.kind with
    | keyword w => cases w <;> rw [hkind] at hk <;> first | exact ⟨rfl, by decide⟩ | cases hk
    | _ => rw [hkind] at hk; first | exact ⟨rfl, by decide⟩ | cases hk
  cases id with
  | none =>
    exact hrest (s.past k) [] hn (by simp [Layout.opensHeader, Layout.past, Layout.emit, hheader]) rfl
      spelledOpt_none
  | some i =>
    refine .space <| .plain hn (fun h => hdot (Option.some.inj h)) (hi i rfl).isToken_nameText rfl
      (by simp) fun t ht htext => ?_
    refine hrest ((s.past k).past t) [t] hn ?_ rfl (spelledOpt_some ?_)
    · simp [Layout.opensHeader, Layout.past, Layout.emit, ht, hk]
    · exact spelledAs_of_name (hi i rfl) ht htext

theorem ReadsBack.function {id : Option Node} (hi : ∀ i ∈ id, Fits .name i)
    (hp : ∀ p ∈ ps, Fits .name p) (hb : b.ReadsBody level) :
    ReadsBack level ⟨loc, type, .function id ps b⟩ := by
  intro s hs
  simp only [expr, functionDoc_eq] at hs ⊢
  refine .plain hs.newline hs.dot (isToken_keyword .function) rfl (fun _ => hs.not_atStart)
    fun k hk _ => ?_
  refine (emits_function hs.newline (by rw [hk]; rfl) hi hp hb).imp fun us s' hu => ?_
  obtain ⟨⟨is, vs, ws, rfl, his, hvs, hws⟩, hdone⟩ := hu
  have h : SpelledAt ⟨loc, type, .function id ps b⟩ 12 _ := .function hk his hvs hws
  exact ⟨h, hdone.after (hasBraces_of_isBraced rfl)⟩

/-- The parameters of an arrow function. -/
theorem emits_arrowParams (hs : s.Fresh) (hp : ∀ p ∈ ps, Fits .name p) :
    Emits (arrowParams ps) s fun us s' => SpelledParams ps us ∧ s.After False s' := by
  have hlist : Emits (paramList ps) s fun us s' => SpelledParams ps us ∧ s.After False s' := by
    have hnames : Reads (Doc.commas (ps.map fun p => [.word p.nameText])) True
        (SpelledAll .list (.phrase 1) Phrase.toNode ps) := by
      refine .list fun p h => ?_
      have hback : p.ReadsBack 0 := .name (hp p h)
      rw [← (hp p h).expr_name 0]
      exact (ReadsAt.reads hback).imp (fun _ => trivial) fun us hu =>
        (hu.lift (Nat.le_refl 1) p.precedence_le.1).phrase
    refine .inParens hs hnames fun l us r hl hu hr => ?_
    refine SpelledParams.list (fun p h => ?_) hl hu hr
    obtain ⟨x, hx, -⟩ := (hp p h).name_shape
    rw [kind, hx]
    rfl
  rcases ps with - | ⟨p, - | ⟨q, ps⟩⟩
  · exact hlist
  · obtain ⟨loc, type, shape⟩ := p
    have hname := hp _ (.head _)
    obtain ⟨x, rfl, ht⟩ := hname.name_shape
    refine .inner hs ht rfl fun t ht htext hi => .nil ⟨?_, hi.after.of_past⟩
    subst htext
    exact SpelledParams.name ‹_›
  · exact hlist

/-- The body of an arrow function can begin where a block can. -/
theorem emits_arrow {e : Doc} (hs : s.Fresh) (hp : ∀ p ∈ ps, Fits .name p)
    (hb : ∀ s' : Layout, s'.Fresh → s'.opensBlock → s'.atStart = false →
      Emits e s' fun us s'' => SpelledAs .arrowBody ArrowBody.toNode b us ∧ s'.After P s'') :
    Emits (infixed "=>" (arrowParams ps) e) s fun us s' =>
      SpelledAt ⟨loc, type, .arrow ps b⟩ 1 us ∧ s.After P s' := by
  unfold infixed
  rw [List.append_assoc]
  refine (emits_arrowParams hs hp).append fun us s' hu => .space ?_
  refine .plain hu.2.newline hu.2.dot (isToken_symbol (k := .arrow) (by decide)) rfl (by simp)
    fun t ht _ => .space ?_
  have hstart : (s'.past t).atStart = false := by
    change (t.kind == _) = false
    rw [ht]
    rfl
  have hblock : (s'.past t).opensBlock := by
    simp [Layout.opensBlock, Layout.past, Layout.emit, ht, TokenKind.opensBlock]
  refine (hb _ (hu.2.toFresh.past (by rw [ht]; rfl)) hblock hstart).imp fun vs u hv => ?_
  exact ⟨hu.1 ht hv.1, .trans hu.2.opened hv.2.of_past⟩

theorem ReadsBack.arrowBlock (hp : ∀ p ∈ ps, Fits .name p) (hk : b.kind = .block)
    (hb : b.ReadsBody level) : ReadsBack level ⟨loc, type, .arrow ps b⟩ := by
  intro s hs
  simp only [expr, if_pos hk]
  refine emits_arrow hs.toFresh hp fun s' hs' hblock _ => (hb s' hs'.newline hblock).imp fun us u hu =>
    ⟨SpelledAs.arrowBlock hu.1, hu.2.after (hasBraces_of_isBraced ?_)⟩
  simp [isBraced, hk]

theorem not_brace_of_seemsBraced (hf : Fits .expr b) (hk : b.kind ≠ .object)
    (hs : seemsBraced ⟨loc, type, .arrow ps b⟩ = false) : ¬ [.word "\x7b"] <+: b.expr level := by
  intro hpre
  obtain ⟨w, hw⟩ := hf.begins
  obtain ⟨d, hd, -⟩ := hw.pieces level
  obtain ⟨d', hd', -⟩ := hw.pieces 0
  rw [hd, List.cons_prefix_cons] at hpre
  obtain rfl : "\x7b" = w := Piece.word.inj hpre.1
  have hprec : ¬ b.precedence < assignmentPrecedence := Nat.not_lt.2 b.precedence_le.1
  have htext : (formatExpression b 0 assignmentPrecedence).toList.head? = some '{' := by
    rw [formatExpression, atLeast, if_neg hprec, hd', Doc.render_cons, String.toList_append]
    rfl
  have hblock : b.kind ≠ .block := hf.kind_ne rfl
  simp [seemsBraced, htext, hk, hblock] at hs

/-- The body of an arrow function begins with a brace only if that is an object's. -/
theorem ReadsBack.arrow (hp : ∀ p ∈ ps, Fits .name p) (hf : Fits .expr b) (hb : b.ReadsBack level)
    (hs : seemsBraced ⟨loc, type, .arrow ps b⟩ = false) :
    ReadsBack level ⟨loc, type, .arrow ps b⟩ := by
  have hk : b.kind ≠ .block := hf.kind_ne rfl
  have hbody : b.ReadsAt 1 (b.atLeast assignmentPrecedence (b.expr level)) :=
    ReadsAt.atLeast hb (by decide)
  have hpart : b.hasBraces → hasBraces ⟨loc, type, .arrow ps b⟩ :=
    hasBraces_of_part (by simp [Shape.parts, Shape.kids])
  intro u hu
  simp only [expr, if_neg hk, arrowBody]
  refine emits_arrow hu.toFresh hp fun s' hs' _ hstart => ?_
  split
  · refine .inParens hs' hbody.reads fun l us r hl hus hr => ?_
    exact ((hus.group hl hr).lift (Nat.le_refl 1) (by decide)).arrowBody
  · have hd : b.atLeast assignmentPrecedence (b.expr level) = b.expr level :=
      if_neg (Nat.not_lt.2 b.precedence_le.1)
    have hready : s'.Ready (b.atLeast assignmentPrecedence (b.expr level)) := by
      rw [hd]
      exact ⟨hs', fun _ => not_brace_of_seemsBraced hf ‹_› hs, by simp [hstart]⟩
    exact (hbody s' hready).imp fun us s'' hu => ⟨hu.1.arrowBody, hu.2.imp hpart⟩

/-! ## Declarations -/

/-- Is what is printed for a declared name and its first value read as such? -/
def ReadsDeclarator (level : Nat) (n : Node) : Prop :=
  Reads (n.declarator level) n.hasBraces (SpelledAs .declarator Declarator.toNode n)

/-- Is what is printed for a declaration, without its end, read as the declaration? -/
def ReadsDeclaration (level : Nat) (n : Node) : Prop :=
  ∀ s : Layout, s.Fresh → Emits (n.declaration level) s fun us s' =>
    n.SpelledDecl us ∧ s.After n.hasBraces s'

theorem spelledAs_declarator_of_name {id : Node} {init : Option Node} {t : Token} {us : List Token}
    (h : Fits .name id) (ht : t.kind = .name) (htext : t.text = id.nameText)
    (hi : SpelledOpt .value Phrase.toNode init us) :
    SpelledAs .declarator Declarator.toNode ⟨loc, type, .declarator id init⟩ (t :: us) := by
  cases h with
  | name h =>
    change t.text = _ at htext
    subst htext
    exact spelledAs_declarator ht hi

theorem ReadsDeclarator.declarator {id : Node} {init : Option Node} (hi : Fits .name id)
    (he : ∀ e ∈ init, e.ReadsBack level) :
    ReadsDeclarator level ⟨loc, type, .declarator id init⟩ := by
  unfold ReadsDeclarator
  cases init with
  | none =>
    simp only [Node.declarator]
    exact .token hi.isToken_nameText rfl fun t ht htext =>
      spelledAs_declarator_of_name hi ht htext spelledOpt_none
  | some e =>
    have he : e.ReadsAt 1 (e.atLeast assignmentPrecedence (e.expr level)) :=
      ReadsAt.atLeast (he e rfl) (by decide)
    have hname : Reads [.word id.nameText] True fun us =>
        ∃ t, us = [t] ∧ t.kind = .name ∧ t.text = id.nameText :=
      .token hi.isToken_nameText rfl fun t ht htext => ⟨t, rfl, ht, htext⟩
    simp only [Node.declarator]
    refine (Reads.infixed (isToken_symbol (k := .assign) (by decide)) rfl hname he.reads ?_).imp
      (hasBraces_of_part (by simp [Shape.parts, Shape.kids])) fun _ h => h
    rintro _ op vs ⟨t, rfl, ht, htext⟩ hop - hv
    exact spelledAs_declarator_of_name hi ht htext (spelledOpt_some (hv.value hop))

theorem ReadsDeclaration.declaration {k : Keyword} (hk : (TokenKind.keyword k).declares)
    (hne : ns ≠ []) (hd : ∀ d ∈ ns, d.ReadsDeclarator level) :
    ReadsDeclaration level ⟨loc, type, .declaration k.spelling ns⟩ := by
  intro s hs
  simp only [Node.declaration, declarators_eq]
  refine .inner hs (isToken_keyword k) (TokenKind.isInner_of_declares hk) fun t ht htext hi =>
    .space ?_
  have hds : Reads (Doc.commas (ns.map (·.declarator level)))
      (hasBraces ⟨loc, type, .declaration k.spelling ns⟩)
      (SpelledAll .commas .declarator Declarator.toNode ns) :=
    .commas hne fun d hmem => (hd d hmem).imp
      (hasBraces_of_part (by simpa [Shape.parts, Shape.kids] using hmem)) fun _ h => h
  refine (hds _ hi).imp fun us s' hu => ⟨?_, hu.2.of_past⟩
  rw [← htext]
  exact .of_all (by rw [ht]; exact hk) hu.1

/-! ## Statements -/

/-- Is what is printed for a statement read as the statement? Where no statement begins a function
cannot be declared. -/
def ReadsStmt (opened : Bool) (level : Nat) (n : Node) : Prop :=
  ∀ s : Layout, s.Starts → (n.kind = .functionDecl → s.atStart) →
    Emits (n.stmt level) s fun us s' => n.SpelledStmt opened us ∧ s.Done s'

/-- Is what is printed for a statement in a list read as the statement? -/
def ReadsLine (level : Nat) (n : Node) : Prop := ∃ opened, Fits (.stmt opened) n ∧ n.ReadsStmt opened level

omit [CharNames] in
/-- Pieces and the end of a statement. -/
theorem emits_terminated {Q R : List Token → Prop} (hp : s.inParens = false)
    (hd : Emits d s fun us s' => Q us ∧ s.After P s')
    (hq : ∀ us t, Q us → t.kind = .terminator → R (us ++ [t])) :
    Emits (d ++ [.word ";"]) s fun us s' => R us ∧ s.Done s' := by
  refine hd.append fun us s' hu => ?_
  have hp' : s'.inParens = false := (Layout.inParens_of_opened hu.2.opened).trans hp
  exact .terminator hu.2.toFresh hp' fun t ht =>
    ⟨hq us t hu.1 ht, .trans hu.2.opened (.terminate hu.2.newline)⟩

theorem SpelledStmts.strays {us vs : List Token} (hs : SpelledStmts ns us) (hv : Strays vs) :
    SpelledStmts ns (us ++ vs) := by
  obtain ⟨ss, hss, hg⟩ := hs
  obtain rfl | ⟨e, rfl, he⟩ := hv
  · exact ⟨ss, by rwa [List.append_nil], hg⟩
  · exact ⟨ss, by simpa using hss.append (.stray he .stmtsNil), hg⟩

/-- Statements, each on a line of its own. -/
theorem emits_lines {depth : Nat} (h : ∀ n ∈ ns, n.ReadsLine level) (hs : s.Fresh) (ha : s.atStart)
    (hp : s.inParens = false) :
    Emits (ns.flatMap fun n => .newline depth :: n.stmt level) s fun us s' =>
      SpelledStmts ns us ∧ s'.newline = none ∧ s'.opened = s.opened := by
  induction ns generalizing s with
  | nil => exact .nil ⟨.nil, hs.newline, rfl⟩
  | cons n ns ih =>
    obtain ⟨⟨opened, hf, hn⟩, h⟩ := List.forall_mem_cons.1 h
    obtain ⟨k, w, d, hd, hw, hk, -⟩ := hf.begins_stmt level
    rw [List.flatMap_cons, hd, List.cons_append, List.cons_append]
    have hfree := TokenKind.isFree_of_startsStatement hk
    refine .line hs.newline hw (TokenKind.ne_of_isFree hfree) fun us u hus hu => ?_
    have hu : u.Fresh ∧ u.atStart ∧ u.opened = s.opened := by
      rcases hu with rfl | rfl
      · exact ⟨hs, ha, rfl⟩
      · exact ⟨.terminate hs.newline, rfl, rfl⟩
    have hpu : u.inParens = false := (Layout.inParens_of_opened hu.2.2).trans hp
    rw [← List.cons_append, ← hd]
    refine (hn u (.of_atStart hu.1 hu.2.1 hpu) fun _ => hu.2.1).append fun vs u' hv => ?_
    have hpu' : u'.inParens = false := (Layout.inParens_of_opened hv.2.opened).trans hpu
    refine (ih h hv.2.toFresh hv.2.atStart hpu').imp fun ws s' hws => ⟨.stray hus (.cons hv.1 hws.1), ?_⟩
    exact ⟨hws.2.1, hws.2.2.trans (hv.2.opened.trans hu.2.2)⟩

theorem ReadsBody.block (h : ∀ n ∈ ns, n.ReadsLine (level + 1)) :
    ReadsBody level ⟨loc, type, .block ns⟩ := by
  intro s hn hb
  simp only [body, stmts_eq]
  cases ns with
  | nil =>
    refine .openBlock hn hb fun l hl => ?_
    refine .closeEmpty hn rfl (congrArg TokenKind.endsStatement hl) fun r hr => ?_
    exact ⟨SpelledStmts.nil.block hl hr, .pastBlock hn rfl hr⟩
  | cons n ns =>
    have hd : Doc.braces level ((n :: ns).map (·.stmt (level + 1))) =
        .word "\x7b" :: ((n :: ns).flatMap (fun n => .newline (level + 1) :: n.stmt (level + 1)) ++
          [.newline level, .word "\x7d"]) := by
      rw [Doc.braces, List.flatMap_map]
      · rfl
      · simp
    rw [hd]
    refine .openBlock hn hb fun l hl => ?_
    have hfresh : (s.inside .block l).Fresh := .inside hn (by rw [hl]; rfl) (by rw [hl]; rintro ⟨⟩)
    refine (emits_lines h hfresh rfl rfl).append fun us s' hu => ?_
    refine .closeBlock hu.2.1 hu.2.2 fun vs u r hvs hnu hou hr => ⟨?_, .pastBlock hnu hou hr⟩
    have hblock : SpelledAs .block Block.toNode ⟨loc, type, .block (n :: ns)⟩ _ :=
      (hu.1.strays hvs).block hl hr
    simpa using hblock

theorem ReadsStmt.block (hf : Fits .body n) (h : n.ReadsBody level) :
    ReadsStmt false level n := by
  intro s hs _
  rw [hf.stmt_body]
  exact (h s hs.newline hs.opens).imp fun us s' hu => ⟨.block hu.1, hu.2⟩

/-! ### Statements with an end -/

theorem ReadsStmt.declared (hf : Fits .declaration n) (h : n.ReadsDeclaration level) :
    ReadsStmt false level n := by
  intro s hs _
  rw [hf.stmt_declaration]
  exact emits_terminated hs.parens (h s hs.toFresh) fun us t hu ht => .declared hu ht

/-- A text that begins like a block or a declaration is put in parentheses. -/
theorem ready_of_not_beginsLikeStatement (hf : Fits .expr e) (hs : s.Fresh)
    (hb : beginsLikeStatement (e.expr level).render = false) : s.Ready (e.expr level) := by
  obtain ⟨w, hw⟩ := hf.begins
  obtain ⟨d, hd, -⟩ := hw.pieces level
  have hd : e.expr level = .word w :: d := hd
  refine ⟨hs, fun _ hpre => ?_, fun _ hpre => ?_⟩ <;> rw [hd, List.cons_prefix_cons] at hpre <;>
    obtain rfl := (Piece.word.inj hpre.1).symm
  · simp [hd, beginsLikeStatement, Piece.text] at hb
  · exact absurd (hw.beginsLikeStatement level) (Bool.eq_false_iff.1 hb)

theorem ReadsStmt.expression (hf : Fits .expr e) (h : e.ReadsBack level) :
    ReadsStmt false level ⟨loc, type, .expression e⟩ := by
  intro s hs _
  have h1 : e.ReadsAt 1 (e.expr level) := ReadsAt.lift h (Nat.le_refl 1) e.precedence_le.1
  have hd : Emits (if beginsLikeStatement (e.expr level).render then (e.expr level).parens
      else e.expr level) s fun us s' => e.SpelledAt 1 us ∧ s.After True s' := by
    split
    · exact .inParens hs.toFresh h1.reads fun l us r hl hu hr =>
        (hu.group hl hr).lift (Nat.le_refl 1) (by decide)
    · rename_i hb
      have hready := ready_of_not_beginsLikeStatement hf hs.toFresh (Bool.eq_false_iff.2 hb)
      exact (h1 s hready).imp fun us s' hu => ⟨hu.1, hu.2.imp fun _ => trivial⟩
  simp only [stmt, asStatement]
  exact emits_terminated hs.parens hd fun us t hu ht => .expression hu ht

/-- A word with an expression after it. -/
theorem emits_worded {k : Keyword} {R : List Token → Prop} (hs : s.Starts)
    (hk : (TokenKind.keyword k).isInner) (h : e.ReadsBack level)
    (hq : ∀ t us t', t.kind = .keyword k → e.SpelledAt 1 us → t'.kind = .terminator →
      R (t :: us ++ [t'])) :
    Emits (.word k.spelling :: .space :: e.expr level ++ [.word ";"]) s fun us s' =>
      R us ∧ s.Done s' := by
  refine emits_terminated (P := True) (Q := fun us => ∃ t vs, us = t :: vs ∧ t.kind = .keyword k ∧
    e.SpelledAt 1 vs) hs.parens ?_ ?_
  · refine .inner hs.toFresh (isToken_keyword k) hk fun t ht _ hi => .space ?_
    refine (ReadsAt.reads h _ hi).imp fun us s' hu => ⟨⟨t, us, rfl, ht, ?_⟩, ?_⟩
    · exact hu.1.lift (Nat.le_refl 1) e.precedence_le.1
    · exact (hu.2.imp fun _ => trivial).of_past
  · rintro _ t' ⟨t, us, rfl, ht, hu⟩ ht'
    exact hq t us t' ht hu ht'

omit [CharNames] in
/-- A word alone. -/
theorem emits_word {k : Keyword} {R : List Token → Prop} (hs : s.Starts)
    (hk : (TokenKind.keyword k).isInner)
    (hq : ∀ t t' : Token, t.kind = .keyword k → t'.kind = .terminator → R [t, t']) :
    Emits [.word k.spelling, .word ";"] s fun us s' => R us ∧ s.Done s' := by
  refine emits_terminated (d := [.word k.spelling]) (P := True)
    (Q := fun us => ∃ t : Token, us = [t] ∧ t.kind = .keyword k) hs.parens ?_ ?_
  · exact .inner hs.toFresh (isToken_keyword k) hk fun t ht _ hi =>
      .nil ⟨⟨t, rfl, ht⟩, hi.after.of_past⟩
  · rintro _ t' ⟨t, rfl, ht⟩ ht'
    exact hq t t' ht ht'

theorem ReadsStmt.return {v : Option Node} (h : ∀ e ∈ v, e.ReadsBack level) :
    ReadsStmt false level ⟨loc, type, .return v⟩ := by
  intro s hs _
  cases v with
  | none =>
    simp only [stmt]
    exact emits_word (k := .return) hs rfl fun t t' ht ht' => .return ht spelledOpt_none ht'
  | some e =>
    simp only [stmt]
    exact emits_worded (k := .return) hs rfl (h e rfl) fun t us t' ht hu ht' =>
      .return ht (spelledOpt_some hu.phrase) ht'

theorem ReadsStmt.throw (h : e.ReadsBack level) : ReadsStmt false level ⟨loc, type, .throw e⟩ := by
  intro s hs _
  simp only [stmt]
  exact emits_worded (k := .throw) hs rfl h fun t us t' ht hu ht' => .throw ht hu ht'

theorem ReadsStmt.break : ReadsStmt false level ⟨loc, type, .break⟩ := by
  intro s hs _
  simp only [stmt]
  exact emits_word (k := .break) hs rfl fun t t' ht ht' => .break ht ht'

theorem ReadsStmt.continue : ReadsStmt false level ⟨loc, type, .continue⟩ := by
  intro s hs _
  simp only [stmt]
  exact emits_word (k := .continue) hs rfl fun t t' ht ht' => .continue ht ht'

/-! ### Statements with a header -/

omit [CharNames] in
/-- A word, a header and a statement. -/
theorem emits_headed {w : Keyword} {e : Doc} {Q R S : List Token → Prop} (hs : s.Starts)
    (hw : (TokenKind.keyword w).startsHeader) (hf : w ≠ .function)
    (hd : ∀ s' : Layout, s'.Inner → s'.opened = .header :: s.opened → Emits d s' fun us s'' =>
      Q us ∧ s''.newline = none ∧ s''.opened = .header :: s.opened)
    (he : ∀ s' : Layout, s'.Starts → Emits e s' fun us s'' => R us ∧ s'.Done s'')
    (hq : ∀ k l us r vs, k.kind = .keyword w → l.kind = .lparen → Q us → r.kind = .rparen → R vs →
      S (k :: l :: us ++ r :: vs)) :
    Emits (.word w.spelling :: .space :: d.parens ++ .space :: e) s fun us s' =>
      S us ∧ s.Done s' := by
  refine .plain hs.newline hs.dot (isToken_keyword w) rfl (fun h => ?_) fun k hk _ => .space ?_
  · exact absurd (TokenKind.keyword.inj h) hf
  have hheader : (s.past k).opensHeader := by
    simp [Layout.opensHeader, Layout.past, Layout.emit, hk, hw]
  have hn : (s.past k).newline = none := hs.newline
  refine Emits.append (R := fun us u => (∃ l vs r, us = l :: vs ++ [r] ∧ l.kind = .lparen ∧ Q vs ∧
      r.kind = .rparen) ∧ u.Starts ∧ u.opened = s.opened) ?_ ?_
  · refine .header hn hheader fun l hl => ?_
    refine (hd _ (.inside hn hl (by decide) (by decide)) rfl).imp fun us u hu =>
      ⟨hu.2.1, hu.2.2, fun r hr => ⟨⟨l, us, r, rfl, hl, hu.1, hr⟩, ⟨?_, ?_, ?_⟩, ?_⟩⟩
    · exact .pastHeader hu.2.1 (by rw [hr]; rfl) (by rw [hr]; rintro ⟨⟩)
    · simp [Layout.opensBlock, Layout.pastHeader]
    · exact (Layout.inParens_of_opened (congrArg List.tail hu.2.2)).trans hs.parens
    · exact congrArg List.tail hu.2.2
  · rintro _ u ⟨⟨l, vs, r, rfl, hl, hv, hr⟩, hu, ho⟩
    refine .space ((he u hu).imp fun ws s' hws => ⟨?_, .trans ho hws.2⟩)
    simpa using hq k l vs r ws hk hl hv hr hws.1

/-- A condition in a header. -/
theorem emits_condition (h : n.ReadsBack level) {bs : List Bracket} {s' : Layout} (hs : s'.Inner)
    (ho : s'.opened = .header :: bs) : Emits (n.expr level) s' fun us s'' =>
      n.SpelledAt 1 us ∧ s''.newline = none ∧ s''.opened = .header :: bs :=
  (ReadsAt.reads h s' hs).imp fun _ _ hu =>
    ⟨hu.1.lift (Nat.le_refl 1) n.precedence_le.1, hu.2.newline, hu.2.opened.trans ho⟩

theorem ReadsStmt.if {opened : Bool} (ht : n.ReadsBack level) (hc : c.ReadsStmt opened level)
    (hk : c.kind ≠ .functionDecl) : ReadsStmt true level ⟨loc, type, .if n c none⟩ := by
  intro s hs _
  simp only [stmt]
  refine emits_headed (w := .if) hs rfl (by decide) (fun _ => emits_condition ht)
    (fun s' hs' => hc s' hs' fun h => absurd h hk) fun k l us r vs hk hl hu hr hv => ?_
  have h : SpelledStmt ⟨loc, type, .if n c none⟩ true _ := .if hk (hu.condition hl hr) hv
  simpa using h

omit [CharNames] in
/-- The `else` after a statement. -/
theorem emits_elseJoint {u : Layout} (hs : s.Starts) (hu : s.Done u) :
    Emits (elseJoint level c) u fun us s' => (∃ t, us = [t] ∧ t.kind = .keyword .else) ∧
      s'.Starts ∧ s'.atStart ∧ s'.opened = s.opened := by
  have hpu : u.inParens = false := (Layout.inParens_of_opened hu.opened).trans hs.parens
  have helse : Emits [.word "else", .space] u fun us s' => (∃ t, us = [t] ∧
      t.kind = .keyword .else) ∧ s'.Starts ∧ s'.atStart ∧ s'.opened = s.opened := by
    refine .plain hu.newline hu.dot (isToken_keyword .else) rfl (by simp) fun t ht _ => .space (.nil ?_)
    have hstart : (u.past t).atStart := by
      change (t.kind == _) = true
      rw [ht]
      rfl
    have hfresh : (u.past t).Fresh := hu.toFresh.past (by rw [ht]; rfl)
    exact ⟨⟨t, rfl, ht⟩, .of_atStart hfresh hstart hpu, hstart, hu.opened⟩
  unfold elseJoint
  split
  · exact .space helse
  · exact .elseLine hu.newline hu.closed helse

/-- After a statement, an `else` and another statement. -/
theorem emits_else {opened : Bool} (hs : s.Starts) (hc : c.ReadsStmt false level)
    (hk : c.kind ≠ .functionDecl) (ha : a.ReadsStmt opened level) :
    Emits (c.stmt level ++ (elseJoint level c ++ a.stmt level)) s fun us s' =>
      (∃ vs t ws, us = vs ++ t :: ws ∧ c.SpelledStmt false vs ∧ t.kind = .keyword .else ∧
        a.SpelledStmt opened ws) ∧ s.Done s' := by
  refine (hc s hs fun h => absurd h hk).append fun vs u hv => ?_
  refine (emits_elseJoint hs hv.2).append ?_
  rintro _ s' ⟨⟨t, rfl, ht⟩, hs', hstart, ho⟩
  exact (ha s' hs' fun _ => hstart).imp fun ws s'' hw =>
    ⟨⟨vs, t, ws, rfl, hv.1, ht, hw.1⟩, .trans ho hw.2⟩

theorem ReadsStmt.ifElse {opened : Bool} (ht : n.ReadsBack level) (hc : c.ReadsStmt false level)
    (hk : c.kind ≠ .functionDecl) (ha : a.ReadsStmt opened level) :
    ReadsStmt opened level ⟨loc, type, .if n c (some a)⟩ := by
  intro s hs _
  simp only [stmt]
  rw [List.append_assoc, List.append_assoc, List.cons_append (a := Piece.space)]
  refine emits_headed (w := .if) hs rfl (by decide) (fun _ => emits_condition ht)
    (fun s' hs' => emits_else hs' hc hk ha) ?_
  rintro k l us r _ hk hl hu hr ⟨vs, t, ws, rfl, hv, ht, hw⟩
  have h : SpelledStmt ⟨loc, type, .if n c (some a)⟩ opened _ :=
    .ifElse hk (hu.condition hl hr) hv ht hw
  simpa using h

theorem ReadsStmt.while {opened : Bool} (ht : n.ReadsBack level) (hb : b.ReadsStmt opened level)
    (hk : b.kind ≠ .functionDecl) : ReadsStmt opened level ⟨loc, type, .while n b⟩ := by
  intro s hs _
  simp only [stmt]
  refine emits_headed (w := .while) hs rfl (by decide) (fun _ => emits_condition ht)
    (fun s' hs' => hb s' hs' fun h => absurd h hk) fun k l us r vs hk hl hu hr hv => ?_
  have h : SpelledStmt ⟨loc, type, .while n b⟩ opened _ := .while hk (hu.condition hl hr) hv
  simpa using h

theorem ReadsStmt.forOf {opened : Bool} {i : Node} {k : Keyword} {dloc iloc : Position}
    {dtype itype : Option ShellType} (hk : (TokenKind.keyword k).declares) (hi : Fits .name i)
    (hn : n.ReadsBack level) (hb : b.ReadsStmt opened level) (hkb : b.kind ≠ .functionDecl) :
    ReadsStmt opened level ⟨loc, type, .forOf
      ⟨dloc, dtype, .declaration k.spelling [⟨iloc, itype, .declarator i none⟩]⟩ n b⟩ := by
  intro s hs _
  simp only [stmt]
  refine emits_headed (w := .for) hs rfl (by decide) (fun s' hs' ho => ?_)
    (fun s' hs' => hb s' hs' fun h => absurd h hkb) (Q := fun us => ∃ d t op vs, us = d :: t :: op :: vs ∧
      (d.kind = .keyword k ∧ d.text = k.spelling) ∧ (t.kind = .name ∧ t.text = i.nameText) ∧
      op.kind = .keyword .of ∧ n.SpelledAt 1 vs) ?_
  · have hdecl : Emits (Node.declaration level
        ⟨dloc, dtype, .declaration k.spelling [⟨iloc, itype, .declarator i none⟩]⟩) s'
        fun us u => (∃ d t, us = [d, t] ∧ (d.kind = .keyword k ∧ d.text = k.spelling) ∧
          t.kind = .name ∧ t.text = i.nameText) ∧ s'.After True u := by
      simp only [Node.declaration, declarators, Node.declarator, Doc.commas, separate]
      refine .inner hs'.fresh (isToken_keyword k) (TokenKind.isInner_of_declares hk)
        fun d hd hdt hi' => .space ?_
      exact .inner hi'.fresh hi.isToken_nameText rfl fun t ht htext hi'' =>
        .nil ⟨⟨d, t, rfl, ⟨hd, hdt⟩, ht, htext⟩, hi''.after.of_past.of_past⟩
    refine (Emits.infixed (isToken_keyword .of) rfl hdecl (ReadsAt.reads hn) ?_).imp fun us u hu =>
      ⟨hu.1, hu.2.newline, hu.2.opened.trans ho⟩
    rintro _ op vs ⟨d, t, rfl, hd, ht⟩ hop - hv
    exact ⟨d, t, op, vs, rfl, hd, ht, hop, hv.lift (Nat.le_refl 1) n.precedence_le.1⟩
  · rintro w l _ r vs hw hl ⟨d, t, op, us, rfl, ⟨hd, hdt⟩, ⟨ht, htext⟩, hop, hu⟩ hr hv
    cases hi with
    | name =>
      change t.text = _ at htext
      subst htext
      rw [← hdt]
      exact .forOf hw hl (by rw [hd]; exact hk) ht hop hu hr hv

theorem ReadsStmt.functionDecl {i : Node} (hi : Fits .name i) (hp : ∀ p ∈ ps, Fits .name p)
    (hb : b.ReadsBody level) : ReadsStmt false level ⟨loc, type, .functionDecl i ps b⟩ := by
  intro s hs hstart
  simp only [stmt, functionDoc_eq]
  refine .functionDecl hs.toFresh (hstart rfl) fun k hk => ?_
  refine (emits_function hs.newline (by rw [hk]; rfl) (by rintro _ ⟨⟩; exact hi) hp hb).imp
    fun us s' hu => ?_
  obtain ⟨⟨is, vs, ws, rfl, his, hvs, hws⟩, hdone⟩ := hu
  exact ⟨.functionDecl hk (spelledAs_of_opt his) hvs hws, hdone⟩

/-! ### Counting loops -/

theorem reads_optExpr {e : Option Node} (h : ∀ n ∈ e, n.ReadsBack level)
    (hb : e.any (·.hasBraces) = false) :
    Reads (optExpr level e) False (SpelledOpt (.phrase 1) Phrase.toNode e) := by
  cases e with
  | none => exact fun s hs => .nil ⟨spelledOpt_none, hs.after⟩
  | some e =>
    exact (ReadsAt.reads (h e rfl)).imp (fun h => by rw [Option.any_some, h] at hb; cases hb)
      fun us hu => spelledOpt_some (hu.lift (Nat.le_refl 1) e.precedence_le.1).phrase

/-- Parts of a header with semicolons between them, none of which has a function with a body in
braces. -/
theorem emits_loopHeader {i : Doc} {t u : Option Node} {Q : List Token → Prop} {s : Layout}
    {bs : List Bracket} (hs : s.Inner) (ho : s.opened = .header :: bs) (hi : Reads i False Q)
    (ht : ∀ e ∈ t, e.ReadsBack level) (htb : t.any (·.hasBraces) = false)
    (hu : ∀ e ∈ u, e.ReadsBack level) (hub : u.any (·.hasBraces) = false) (huf : ∀ e ∈ u, Fits .expr e) :
    Emits (Doc.trimEnd (i ++ [.word ";", .space] ++ optExpr level t ++ [.word ";", .space]
      ++ optExpr level u)) s fun us s' => (∃ is d ts e vs, us = is ++ d :: (ts ++ e :: vs) ∧ Q is ∧
        d.kind = .semicolon ∧ SpelledOpt (.phrase 1) Phrase.toNode t ts ∧ e.kind = .semicolon ∧
        SpelledOpt (.phrase 1) Phrase.toNode u vs) ∧ s'.newline = none ∧
        s'.opened = .header :: bs := by
  have hin : ∀ {s' : Layout}, s'.opened = .header :: bs → s'.inParens := fun h => by
    rw [Layout.inParens, h]
    rfl
  have hupdate : Reads ((u.map (expr level)).elim [] (.space :: ·)) False
      (SpelledOpt (.phrase 1) Phrase.toNode u) := by
    have h := reads_optExpr hu hub
    cases u with
    | none => exact h
    | some e => exact fun s hs => .space (h s hs)
  have hstart : ∀ {s' u : Layout}, s'.After False u → u.atStart = false := fun h =>
    Bool.eq_false_iff.2 h.start
  rw [optExpr_eq level u, Doc.trimEnd_header]
  · refine (hi s hs).append fun is s₁ h₁ => ?_
    have ho₁ := h₁.2.opened.trans ho
    refine .semicolon h₁.2.toFresh (hin ho₁) fun d hd => .space ?_
    have hs₁ := Layout.Inner.emit h₁.2.newline (hstart h₁.2) hd
    refine (reads_optExpr ht htb _ hs₁).append fun ts s₂ h₂ => ?_
    have ho₂ := h₂.2.opened.trans ho₁
    refine .semicolon h₂.2.toFresh (hin ho₂) fun e he => ?_
    have hs₂ := Layout.Inner.emit h₂.2.newline (hstart h₂.2) he
    refine (hupdate _ hs₂).imp fun vs s₃ h₃ => ⟨?_, h₃.2.newline, h₃.2.opened.trans ho₂⟩
    exact ⟨is, d, ts, e, vs, rfl, h₁.1, hd, h₂.1, he, h₃.1⟩
  · intro f hf
    obtain ⟨e, he, rfl⟩ := Option.map_eq_some_iff.1 hf
    exact (huf e he).ends (.inl rfl) level

theorem readsStmt_for {opened : Bool} {i t u : Option Node}
    (hi : Reads (loopInit level i) False (SpelledOpt .init LoopInit.toNode i))
    (ht : ∀ e ∈ t, e.ReadsBack level) (hu : ∀ e ∈ u, e.ReadsBack level) (huf : ∀ e ∈ u, Fits .expr e)
    (hb : b.ReadsStmt opened level) (hk : b.kind ≠ .functionDecl)
    (hh : hasBracesInHeader ⟨loc, type, .for i t u b⟩ = false) :
    ReadsStmt opened level ⟨loc, type, .for i t u b⟩ := by
  intro s hs _
  simp only [hasBracesInHeader, Bool.or_eq_false_iff] at hh
  simp only [stmt]
  refine emits_headed (w := .for) hs rfl (by decide)
    (fun s' hs' ho => emits_loopHeader hs' ho hi ht hh.1.2 hu hh.2 huf)
    (fun s' hs' => hb s' hs' fun h => absurd h hk) ?_
  rintro k l _ r ws hk hl ⟨is, d, ts, e, vs, rfl, his, hd, hts, he, hvs⟩ hr hws
  have h : SpelledStmt ⟨loc, type, .for i t u b⟩ opened _ := .for hk hl his hd hts he hvs hr hws
  simpa using h

theorem ReadsStmt.forDecl {opened : Bool} {i : Node} {t u : Option Node} (hf : Fits .declaration i)
    (hi : i.ReadsDeclaration level) (ht : ∀ e ∈ t, e.ReadsBack level)
    (hu : ∀ e ∈ u, e.ReadsBack level) (huf : ∀ e ∈ u, Fits .expr e) (hb : b.ReadsStmt opened level)
    (hk : b.kind ≠ .functionDecl) (hh : hasBracesInHeader ⟨loc, type, .for (some i) t u b⟩ = false) :
    ReadsStmt opened level ⟨loc, type, .for (some i) t u b⟩ := by
  refine readsStmt_for (fun s hs => ?_) ht hu huf hb hk hh
  have hkind : i.kind = .declaration := by cases hf; rfl
  simp only [hasBracesInHeader, Bool.or_eq_false_iff, Option.any_some] at hh
  rw [loopInit, if_pos hkind]
  exact (hi s hs.fresh).imp fun us s' h =>
    ⟨spelledOpt_some h.1.init, h.2.imp fun h => by rw [hh.1.1] at h; cases h⟩

theorem ReadsStmt.for {opened : Bool} {i t u : Option Node} (hif : ∀ e ∈ i, Fits .expr e)
    (hi : ∀ e ∈ i, e.ReadsBack level) (ht : ∀ e ∈ t, e.ReadsBack level)
    (hu : ∀ e ∈ u, e.ReadsBack level) (huf : ∀ e ∈ u, Fits .expr e) (hb : b.ReadsStmt opened level)
    (hk : b.kind ≠ .functionDecl) (hh : hasBracesInHeader ⟨loc, type, .for i t u b⟩ = false) :
    ReadsStmt opened level ⟨loc, type, .for i t u b⟩ := by
  refine readsStmt_for ?_ ht hu huf hb hk hh
  cases i with
  | none => exact fun s hs => .nil ⟨spelledOpt_none, hs.after⟩
  | some i =>
    simp only [hasBracesInHeader, Bool.or_eq_false_iff, Option.any_some] at hh
    have hkind : i.kind ≠ .declaration := (hif i rfl).kind_ne rfl
    rw [loopInit, if_neg hkind]
    exact (ReadsAt.reads (hi i rfl)).imp (fun h => by rw [hh.1.1] at h; cases h)
      fun us h => spelledOpt_some (h.lift (Nat.le_refl 1) i.precedence_le.1).init

/-! ### `try` -/

/-- A word that a block comes after. -/
theorem emits_beforeBody {k : Keyword} {Q : List Token → Layout → Prop} (hs : s.Fresh)
    (hk : (TokenKind.keyword k).opensBlock) (hb : b.ReadsBody level)
    (hq : ∀ t us s', t.kind = .keyword k → SpelledAs .block Block.toNode b us → s.Done s' →
      Q (t :: us) s') : Emits (.word k.spelling :: .space :: b.body level) s Q := by
  refine .plain hs.newline hs.dot (isToken_keyword k) rfl (fun h => ?_) fun t ht _ => .space ?_
  · rw [TokenKind.keyword.inj h] at hk
    cases hk
  · have hblock : (s.past t).opensBlock := by
      simp [Layout.opensBlock, Layout.past, Layout.emit, ht, hk]
    exact (hb (s.past t) hs.newline hblock).imp fun us s' hu => hq t us s' ht hu.1 hu.2.of_past

/-- Is what is printed for the `catch` part of a `try` read as such? -/
def ReadsHandler (level : Nat) (n : Node) : Prop :=
  ∀ s : Layout, s.Starts → Emits (n.handler level) s fun us s' =>
    SpelledAs .handler Handler.toNode n us ∧ s.Done s'

theorem ReadsHandler.catchClause {p : Option Node} (hp : ∀ i ∈ p, Fits .name i)
    (hb : b.ReadsBody level) : ReadsHandler level ⟨loc, type, .catchClause p b⟩ := by
  intro s hs
  cases p with
  | none =>
    simp only [Node.handler]
    exact emits_beforeBody (k := .catch) hs.toFresh rfl hb fun t us s' ht hu hd =>
      ⟨spelledAs_handler ht spelledOpt_none hu, hd⟩
  | some p =>
    simp only [Node.handler]
    refine emits_headed (w := .catch) hs rfl (by decide) (fun s' hs' ho =>
      (reads_name (P := True) (hp p rfl) s' hs').imp fun us u hu =>
        ⟨hu.1, hu.2.newline, hu.2.opened.trans ho⟩)
      (fun s' hs' => hb s' hs'.newline hs'.opens) fun k l us r vs hk hl hu hr hv => ?_
    have h : SpelledAs .handler Handler.toNode ⟨loc, type, .catchClause (some p) b⟩ _ :=
      spelledAs_handler hk (spelledOpt_some (spelledAs_param hl hu hr)) hv
    simpa using h

theorem ReadsStmt.try {h f : Option Node} (hb : b.ReadsBody level)
    (hh : ∀ c ∈ h, c.ReadsHandler level) (hf : ∀ c ∈ f, c.ReadsBody level) :
    ReadsStmt false level ⟨loc, type, .try b h f⟩ := by
  intro s hs _
  have hhandler : ∀ s' : Layout, s.Done s' → Emits (optHandler level h) s' fun us s'' =>
      SpelledOpt .handler Handler.toNode h us ∧ s'.Done s'' := by
    intro s' hd
    cases h with
    | none => exact .nil ⟨spelledOpt_none, hd.self⟩
    | some h =>
      have hp : s'.inParens = false := (Layout.inParens_of_opened hd.opened).trans hs.parens
      exact .space ((hh h rfl s' (.of_atStart hd.toFresh hd.atStart hp)).imp fun us s'' hu =>
        ⟨spelledOpt_some hu.1, hu.2⟩)
  have hfinalizer : ∀ s' : Layout, s'.Done s' → Emits (optFinalizer level f) s' fun us s'' =>
      SpelledOpt .finalizer Block.toNode f us ∧ s'.Done s'' := by
    intro s' hd
    cases f with
    | none => exact .nil ⟨spelledOpt_none, hd⟩
    | some f =>
      exact .space <| emits_beforeBody (k := .finally) hd.toFresh rfl (hf f rfl)
        fun t us s'' ht hu hd => ⟨spelledOpt_some (spelledAs_finalizer ht hu), hd⟩
  simp only [stmt]
  rw [List.append_assoc]
  refine Emits.append (R := fun us s' => (∃ t vs, us = t :: vs ∧ t.kind = .keyword .try ∧
    SpelledAs .block Block.toNode b vs) ∧ s.Done s') ?_ ?_
  · exact emits_beforeBody (k := .try) hs.toFresh rfl hb fun t us s' ht hu hd =>
      ⟨⟨t, us, rfl, ht, hu⟩, hd⟩
  · rintro _ s₁ ⟨⟨t, us, rfl, ht, hu⟩, h₁⟩
    refine (hhandler s₁ h₁).append fun vs s₂ h₂ => ?_
    refine (hfinalizer s₂ h₂.2.self).imp fun ws s₃ h₃ => ⟨?_, ?_⟩
    · have h : SpelledStmt ⟨loc, type, .try b h f⟩ false _ := .try ht hu h₂.1 h₃.1
      simpa using h
    · exact .trans (h₂.2.opened.trans h₁.opened) h₃.2

end Node

end AutoAwait
