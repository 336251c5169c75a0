import AutoAwait.Proofs.Grammar.Balance
import AutoAwait.Proofs.Grammar.Fits
import AutoAwait.Proofs.Results
import AutoAwait.Proofs.Token.Genuine

/-!
# The trees of what is read

A tree that is made of tokens which spell it can be read in the role in which it was.

* `Form.Sound` says of a form that the trees made of it fit their roles, `Spells.sound` that all
  forms are so that genuine tokens spell.
-/

namespace AutoAwait

/-! ## Genuine tokens -/

namespace TokenKind

/-- Is this a kind of tokens that are cut from a text? -/
def isCut : TokenKind → Bool
  | .terminator | .blockOpen | .functionDecl => false
  | _ => true

theorem isCut_of_operatorLevel {k : TokenKind} {l : Nat} (h : k.operatorLevel? = some l) :
    k.isCut := by
  cases k <;> first | rfl | cases h

theorem isCut_of_assigns {k : TokenKind} (h : k.assigns) : k.isCut := by
  cases k <;> first | rfl | cases h

theorem isCut_of_isUnaryOperator {k : TokenKind} (h : Grammar.isUnaryOperator k) : k.isCut := by
  cases k <;> first | rfl | cases h

theorem isCut_of_declares {k : TokenKind} (h : k.declares) : k.isCut := by
  cases k <;> first | rfl | cases h

theorem ne_dot_of_operatorLevel {k : TokenKind} {l : Nat} (h : k.operatorLevel? = some l) :
    k ≠ .dot := by
  rintro rfl
  cases h

end TokenKind

namespace Genuine

variable {b : Bool} {t : Token} {ts us : List Token}

theorem cons (h : Genuine b (t :: ts)) (ht : t.kind ≠ .dot) : t.Genuine b ∧ Genuine false ts := by
  obtain ⟨h, hs⟩ := h
  rw [beq_eq_false_iff_ne.2 ht] at hs
  exact ⟨h, hs⟩

theorem dot (h : Genuine b (t :: ts)) (ht : t.kind = .dot) : Genuine true ts := by
  obtain ⟨-, hs⟩ := h
  rw [ht] at hs
  exact hs

theorem append (h : Genuine b (ts ++ us)) (hl : ∀ t ∈ ts.getLast?, t.kind ≠ .dot)
    (hb : ts = [] → b = false) :
    Genuine b ts ∧ Genuine false us := by
  induction ts generalizing b with
  | nil => exact ⟨trivial, hb rfl ▸ h⟩
  | cons t ts ih =>
    obtain ⟨ht, h⟩ := h
    cases ts with
    | nil =>
      rw [beq_eq_false_iff_ne.2 (hl t rfl)] at h
      exact ⟨⟨ht, trivial⟩, h⟩
    | cons u ts =>
      obtain ⟨h, hs⟩ := ih h hl nofun
      exact ⟨⟨ht, h⟩, hs⟩

end Genuine

/-- A text of genuine tokens can be cut in two after what spells something. -/
theorem Spells.genuine {f : Form} {ts us : List Token} (h : Spells f ts)
    (hg : Genuine false (ts ++ us)) : Genuine false ts ∧ Genuine false us :=
  hg.append (fun t ht => (h.balanced.last_ne t ht).2) fun _ => rfl

namespace Token.Genuine

variable {t : Token}

theorem isToken (h : t.Genuine false) (hk : t.kind.isCut) : IsToken t.kind t.text := by
  rcases h with h | h | h | h | ⟨h, -⟩
  · exact h
  all_goals first | cases h | (rw [h] at hk; cases hk)

theorem isName (h : t.Genuine false) (hk : t.kind = .name) : IsToken .name t.text := by
  have ht := h.isToken (by rw [hk]; rfl)
  rwa [hk] at ht

theorem isAttr (h : t.Genuine true) (hk : t.kind = .name) :
    IsToken .name t.text ∨ ∃ k, IsToken (.keyword k) t.text := by
  rcases h with h | h | h | h | ⟨-, -, h⟩
  · rw [hk] at h
    exact .inl h
  · rw [h] at hk; cases hk
  · rw [h] at hk; cases hk
  · rw [h] at hk; cases hk
  · exact .inr h

end Token.Genuine

/-! ## Trees of tokens -/

namespace Token

variable {t : Token} {n : Node}

theorem toInteger_ok (h : t.toInteger = .ok n) : ∃ v, n = .untyped t.loc (.literal v t.text) ∧
    ∀ k p, Token.toInteger ⟨k, t.text, p⟩ = .ok (.untyped p (.literal v t.text)) := by
  unfold toInteger at h ⊢
  split at h
  · cases h
    exact ⟨_, rfl, fun k p => by rw [‹Numeral.integer? t.text = _›]⟩
  · cases h

theorem toNumber_ok (h : t.toNumber = .ok n) : ∃ v, n = .untyped t.loc (.literal v t.text) ∧
    ∀ k p, Token.toNumber ⟨k, t.text, p⟩ = .ok (.untyped p (.literal v t.text)) := by
  unfold toNumber at h
  split at h
  · rename_i hd
    cases h
    exact ⟨_, rfl, fun k p => if_pos hd⟩
  · rename_i hd
    obtain ⟨v, hn, hv⟩ := toInteger_ok h
    exact ⟨v, hn, fun k p => (if_neg hd).trans (hv k p)⟩

theorem fits_toIdentifier [CharNames] (h : IsToken .name t.text) :
    Fits .name t.toIdentifier := .name h

theorem fits_toKey [CharNames] (hg : t.Genuine false) (hk : t.kind = .name ∨ t.kind.isLiteralKey)
    (h : t.toKey = .ok n) : Fits .key n := by
  obtain ⟨k, text, loc⟩ := t
  cases k with
  | string =>
    cases h
    exact .textKey (hg.isToken rfl)
  | number =>
    have hn : ∃ v, n = .untyped loc (.literal v text) ∧
        ∀ p, Token.toKey ⟨.number, text, p⟩ = .ok (.untyped p (.literal v text)) := by
      simp only [toKey] at h ⊢
      split at h
      · rename_i hd
        cases h
        exact ⟨_, rfl, fun p => if_pos hd⟩
      · rename_i hd
        obtain ⟨v, hn, hv⟩ := toInteger_ok h
        exact ⟨v, hn, fun p => (if_neg hd).trans (hv _ p)⟩
    obtain ⟨v, rfl, hv⟩ := hn
    exact .numberKey (hg.isToken rfl) hv
  | name =>
    cases h
    exact .nameKey (fits_toIdentifier (hg.isToken rfl))
  | _ => rcases hk with hk | hk <;> cases hk

theorem fits_toConstant [CharNames] (hk : t.kind.isConstant) : Fits .expr t.toConstant := by
  obtain ⟨k, text, loc⟩ := t
  cases k with
  | keyword k =>
    cases k with
    | «true» => exact .constant (k := .true) rfl fun _ _ => rfl
    | «false» => exact .constant (k := .false) rfl fun _ _ => rfl
    | null => exact .constant (k := .null) rfl fun _ _ => rfl
    | _ => cases hk
  | _ => cases hk

end Token

theorem fits_constructTarget [CharNames] {target : Token} {path : List Token}
    (ht : IsToken .name target.text)
    (hp : ∀ t ∈ path, IsToken .name t.text ∨ ∃ k, IsToken (.keyword k) t.text) :
    Fits .path (constructTarget target path) := by
  have hfold : ∀ n, Fits .path n → Fits .path
      (path.foldl (fun o t => .untyped t.loc (.member o t.toIdentifier false)) n) := by
    induction path with
    | nil => exact fun _ h => h
    | cons t path ih =>
      intro n hn
      exact ih (fun u hu => hp u (.tail _ hu)) _ (.pathMember hn (.attr (hp t (.head _))))
  exact hfold _ (.pathName (.name ht))

/-! ## Trees of several parts -/

variable [CharNames]

theorem phraseNodes_eq (ps : List Phrase) : phraseNodes ps = ps.mapM Phrase.toNode := by
  induction ps with
  | nil => rfl
  | cons p ps ih => rw [phraseNodes, ih, List.mapM_cons]

theorem entryNodes_eq (es : List ObjectEntry) : entryNodes es = es.mapM ObjectEntry.toNode := by
  induction es with
  | nil => rfl
  | cons e es ih => rw [entryNodes, ih, List.mapM_cons]

theorem declaratorNodes_eq (ds : List Declarator) :
    declaratorNodes ds = ds.mapM Declarator.toNode := by
  induction ds with
  | nil => rfl
  | cons d ds ih => rw [declaratorNodes, ih, List.mapM_cons]

theorem optionalNode_eq (o : Option Phrase) : optionalNode o = o.mapM Phrase.toNode := by
  cases o <;> rfl

theorem optionalInit_eq (o : Option LoopInit) : optionalInit o = o.mapM LoopInit.toNode := by
  cases o <;> rfl

theorem optionalHandler_eq (o : Option Handler) : optionalHandler o = o.mapM Handler.toNode := by
  cases o <;> rfl

theorem optionalBlock_eq (o : Option Block) : optionalBlock o = o.mapM Block.toNode := by
  cases o <;> rfl

theorem optionalStatement_eq (o : Option Statement) :
    optionalStatement o = o.mapM Statement.toNode := by
  cases o <;> rfl

/-! ## What is spelled by genuine tokens -/

mutual

/-- Do the trees made of this form fit their roles? -/
def Form.Sound : Form → Prop
  | .phrase _ p | .value p => ∀ n, p.toNode = .ok n → Fits .expr n
  | .name t => IsToken .name t.text
  | .path ts => ∀ t ∈ ts, IsToken .name t.text ∨ ∃ k, IsToken (.keyword k) t.text
  | .entry e => ∀ n, e.toNode = .ok n → Fits .entry n
  | .arrowBody (.block b) | .block b | .finalizer b => ∀ n, b.toNode = .ok n → Fits .body n
  | .arrowBody (.phrase p) => ∀ n, p.toNode = .ok n → Fits .expr n
  | .declarator d => ∀ n, d.toNode = .ok n → Fits .declarator n
  | .init i => ∀ n, i.toNode = .ok n → Fits .declaration n ∨ Fits .expr n
  | .handler h => ∀ n, h.toNode = .ok n → Fits .handler n
  | .alternate s | .stmt s => ∀ n, s.toNode = .ok n → Fits (.stmt s.isOpen) n
  | .stmts ss => ∀ ns, statementNodes ss = .ok ns → ∀ n ∈ ns, Fits .line n
  | .parens f => f.Sound
  | .opt f => optionSound f
  | .commas fs | .more fs | .list fs | .items fs => formsSound fs

/-- Do the trees made of these forms fit their roles? -/
def formsSound : List Form → Prop
  | [] => True
  | f :: fs => f.Sound ∧ formsSound fs

/-- Does the tree made of a form that can be missing fit its role? -/
def optionSound : Option Form → Prop
  | none => True
  | some f => f.Sound

end

section parts
variable {α : Type} {f : α → Form} {g : α → Except ParseError Node} {P : Node → Prop}

theorem formsSound_map (hf : ∀ a, (f a).Sound → ∀ n, g a = .ok n → P n) {as : List α}
    (h : formsSound (as.map f)) {ns : List Node} (hn : as.mapM g = .ok ns) : ∀ n ∈ ns, P n := by
  induction as generalizing ns with
  | nil =>
    cases hn
    exact List.forall_mem_nil _
  | cons a as ih =>
    simp only [List.mapM_cons, bind_ok, pure_ok] at hn
    obtain ⟨n, ha, ms, has, rfl⟩ := hn
    exact List.forall_mem_cons.2 ⟨hf a h.1 n ha, ih h.2 has⟩

theorem optionSound_map (hf : ∀ a, (f a).Sound → ∀ n, g a = .ok n → P n) {o : Option α}
    (h : optionSound (o.map f)) {r : Option Node} (hn : o.mapM g = .ok r) : ∀ n ∈ r, P n := by
  cases option_mapM_ok.1 hn with
  | none => rintro _ ⟨⟩
  | some ha =>
    rintro _ ⟨⟩
    exact hf _ h _ ha

end parts

namespace Form

theorem sound_phrases {ps : List Phrase} (h : formsSound (phrases ps)) {ns : List Node}
    (hn : phraseNodes ps = .ok ns) : ∀ n ∈ ns, Fits .expr n :=
  formsSound_map (fun _ => id) h (phraseNodes_eq ps ▸ hn)

theorem sound_entries {es : List ObjectEntry} (h : formsSound (es.map .entry)) {ns : List Node}
    (hn : entryNodes es = .ok ns) : ∀ n ∈ ns, Fits .entry n :=
  formsSound_map (fun _ => id) h (entryNodes_eq es ▸ hn)

theorem sound_declarators {ds : List Declarator} (h : formsSound (ds.map .declarator))
    {ns : List Node} (hn : declaratorNodes ds = .ok ns) : ∀ n ∈ ns, Fits .declarator n :=
  formsSound_map (fun _ => id) h (declaratorNodes_eq ds ▸ hn)

theorem sound_parameters {ps : List Phrase} (h : formsSound (phrases ps)) {ns : List Node}
    (hn : parameterNodes ps = .ok ns) : ∀ n ∈ ns, Fits .name n := by
  induction ps generalizing ns with
  | nil =>
    cases hn
    exact List.forall_mem_nil _
  | cons p ps ih =>
    simp only [parameterNodes, bind_ok] at hn
    obtain ⟨n, hp, hn⟩ := hn
    split at hn
    · simp only [bind_ok, pure_ok] at hn
      obtain ⟨ms, hps, rfl⟩ := hn
      exact List.forall_mem_cons.2 ⟨(h.1 n hp).name_of_expr ‹_›, ih h.2 hps⟩
    · cases hn

theorem sound_names {ts : List Token} (h : formsSound (ts.map .name)) :
    ∀ n ∈ ts.map Token.toIdentifier, Fits .name n := by
  induction ts with
  | nil => exact List.forall_mem_nil _
  | cons t ts ih => exact List.forall_mem_cons.2 ⟨.name h.1, ih h.2⟩

theorem sound_name {f : Token → Form} (hf : ∀ t, (f t).Sound → IsToken .name t.text)
    {t : Option Token} (h : optionSound (t.map f)) :
    ∀ n ∈ t.map Token.toIdentifier, Fits .name n := by
  cases t with
  | none => rintro _ ⟨⟩
  | some t =>
    rintro _ ⟨⟩
    exact .name (hf t h)

theorem sound_args {args : Option (List Phrase)} (h : optionSound (args.map Form.args))
    {ns : List Node} (hn : argumentNodes args = .ok ns) : ∀ n ∈ ns, Fits .expr n := by
  cases args with
  | none =>
    cases hn
    exact List.forall_mem_nil _
  | some ps => exact sound_phrases h hn

theorem sound_option {p : Option Phrase} {level : Nat} (h : optionSound (p.map (.phrase level)))
    {n : Option Node} (hn : optionalNode p = .ok n) : ∀ e ∈ n, Fits .expr e :=
  optionSound_map (fun _ => id) h (optionalNode_eq p ▸ hn)

end Form

/-! ## Trees that are put together -/

theorem fits_unary {op : Token} {a : Node} (ho : Grammar.isUnaryOperator op.kind)
    (hg : op.Genuine false) (ha : Fits .expr a) {loc : Position} {type : Option ShellType} :
    Fits .expr ⟨loc, type, unaryShape op a⟩ := by
  unfold unaryShape
  split
  · exact .await ha
  · exact .unary (hg.isToken (TokenKind.isCut_of_isUnaryOperator ho)) ho ‹_› ha

theorem fits_binary {op : Token} {level : Nat} {l r : Node}
    (ho : op.kind.operatorLevel? = some level) (hg : op.Genuine false) (hl : Fits .expr l)
    (hr : Fits .expr r) {loc : Position} {type : Option ShellType} :
    Fits .expr ⟨loc, type, binaryShape op l r⟩ := by
  have hop := hg.isToken (TokenKind.isCut_of_operatorLevel ho)
  unfold binaryShape
  split
  · rename_i hk
    exact .logical hop (.inl hk) hl hr
  · rename_i hk
    exact .logical hop (.inr hk) hl hr
  · rename_i hand hor
    exact .binary hop ho ⟨hand, hor⟩ hl hr

theorem fits_arrow {ps : List Node} {b : ArrowBody} {n : Node} (hp : ∀ p ∈ ps, Fits .name p)
    (hb : (Form.arrowBody b).Sound) (hn : b.toNode = .ok n) {loc : Position}
    {type : Option ShellType} : Fits .expr ⟨loc, type, .arrow ps n⟩ := by
  cases b with
  | block b => exact .arrowBlock hp (hb n hn)
  | phrase p => exact .arrow hp (hb n hn)

omit [CharNames] in
/-- A genuine token that declares is the spelling of its keyword. -/
theorem Token.Genuine.declares {k : Token} (hg : k.Genuine false) (hk : k.kind.declares) :
    ∃ w, (TokenKind.keyword w).declares ∧ k.text = w.spelling := by
  have ht := hg.isToken (TokenKind.isCut_of_declares hk)
  obtain ⟨w, hw⟩ : ∃ w, k.kind = .keyword w := by
    cases hkind : k.kind <;> rw [hkind] at hk <;> first | exact ⟨_, rfl⟩ | cases hk
  rw [hw] at ht hk
  exact ⟨w, hk, ht.eq_spelling⟩

theorem fits_declaration {k : Token} {ds : List Declarator} {us : List Token}
    (hk : k.kind.declares) (hg : k.Genuine false) (hs : Spells (.commas (ds.map .declarator)) us)
    (h : formsSound (ds.map .declarator)) {ns : List Node} (hn : declaratorNodes ds = .ok ns)
    {loc : Position} {type : Option ShellType} :
    Fits .declaration ⟨loc, type, .declaration k.text ns⟩ := by
  obtain ⟨w, hw, ht⟩ := hg.declares hk
  rw [ht]
  refine .declaration hw ?_ (Form.sound_declarators h hn)
  rintro rfl
  cases ds with
  | nil => cases hs
  | cons d ds =>
    simp only [declaratorNodes, bind_ok, pure_ok] at hn
    obtain ⟨_, _, _, _, ⟨⟩⟩ := hn

/-- **What is read fits.** The trees made of what genuine tokens spell fit their roles. -/
theorem Spells.sound {f : Form} {ts : List Token} (h : Spells f ts) (hg : Genuine false ts) :
    f.Sound := by
  induction h with
  -- Expressions
  | nameRef ht =>
    rintro _ ⟨⟩
    exact .ref (.name (hg.1.isName ht))
  | number ht =>
    intro n hn
    obtain ⟨v, rfl, hv⟩ := Token.toNumber_ok hn
    have hr := hg.1.isToken (by rw [ht]; rfl)
    rw [ht] at hr
    exact .number hr (hv _)
  | string ht =>
    rintro _ ⟨⟩
    have hr := hg.1.isToken (by rw [ht]; rfl)
    rw [ht] at hr
    exact .text hr
  | constant ht =>
    rintro _ ⟨⟩
    exact Token.fits_toConstant ht
  | this _ =>
    rintro _ ⟨⟩
    exact .this
  | group hl h _ ih =>
    exact ih (h.genuine (hg.cons (by simp [hl])).2).1
  | array hl h _ ih =>
    intro n hn
    simp only [Phrase.toNode, bind_ok, pure_ok] at hn
    obtain ⟨ns, hns, rfl⟩ := hn
    exact .array (Form.sound_phrases (ih (h.genuine (hg.cons (by simp [hl])).2).1) hns)
  | object hl h _ ih =>
    intro n hn
    simp only [Phrase.toNode, bind_ok, pure_ok] at hn
    obtain ⟨ns, hns, rfl⟩ := hn
    exact .object (Form.sound_entries (ih (h.genuine (hg.cons (by simp [hl])).2).1) hns)
  | @function k name params body ns ps bs hk hn hp hb ihn ihp ihb =>
    intro n hnode
    simp only [Phrase.toNode, bind_ok, pure_ok] at hnode
    obtain ⟨b, hb', rfl⟩ := hnode
    rw [List.append_assoc] at hg
    obtain ⟨hgn, hg⟩ := hn.genuine (hg.cons (by simp [hk])).2
    obtain ⟨hgp, hgb⟩ := hp.genuine hg
    exact .function (Form.sound_name (fun _ => id) (ihn hgn)) (Form.sound_names (ihp hgp))
      (ihb hgb b hb')
  | construct hk ht hp ha ihp iha =>
    intro n hn
    simp only [Phrase.toNode, bind_ok, pure_ok] at hn
    obtain ⟨as, has, rfl⟩ := hn
    obtain ⟨-, hg⟩ := hg.cons (by simp [hk])
    obtain ⟨hgt, hg⟩ := hg.cons (by simp [ht])
    obtain ⟨hgp, hga⟩ := hp.genuine hg
    exact .construct (fits_constructTarget (hgt.isName ht) (ihp hgp)) (Form.sound_args (iha hga) has)
  | member ho _ hd ht ih =>
    intro n hn
    simp only [Phrase.toNode, bind_ok, pure_ok] at hn
    obtain ⟨o, hon, rfl⟩ := hn
    obtain ⟨hgo, hg⟩ := ho.genuine hg
    exact .member (ih hgo o hon) (.attr ((hg.dot hd).1.isAttr ht))
  | index ho hl hk _ iho ihk =>
    intro n hn
    simp only [Phrase.toNode, bind_ok, pure_ok] at hn
    obtain ⟨o, hon, k, hkn, rfl⟩ := hn
    rw [List.append_assoc] at hg
    obtain ⟨hgo, hg⟩ := ho.genuine hg
    obtain ⟨hgk, -⟩ := hk.genuine (hg.cons (by simp [hl])).2
    exact .index (iho hgo o hon) (ihk hgk k hkn)
  | call hc _ ha ihc iha =>
    intro n hn
    simp only [Phrase.toNode, bind_ok, pure_ok] at hn
    obtain ⟨c, hcn, as, has, rfl⟩ := hn
    obtain ⟨hgc, hga⟩ := hc.genuine hg
    exact .call (ihc hgc c hcn) (Form.sound_phrases (iha hga) has)
  | update h ho ih =>
    intro n hn
    simp only [Phrase.toNode, bind_ok, pure_ok] at hn
    obtain ⟨a, han, rfl⟩ := hn
    obtain ⟨hga, hgo⟩ := h.genuine hg
    have hop := hgo.1.isToken (by rw [ho]; rfl)
    rw [ho] at hop
    exact .update hop (ih hga a han)
  | @unary op p ts ho h ih =>
    intro n hn
    simp only [Phrase.toNode, bind_ok, pure_ok] at hn
    obtain ⟨a, han, rfl⟩ := hn
    obtain ⟨hgo, hga⟩ :=
      hg.cons (TokenKind.ne_of_holds ho rfl)
    exact fits_unary ho hgo (ih hga a han)
  | @binary l op a b ls rs ho ha hb iha ihb =>
    intro n hn
    simp only [Phrase.toNode, bind_ok, pure_ok] at hn
    obtain ⟨na, han, nb, hbn, rfl⟩ := hn
    obtain ⟨hga, hg⟩ := ha.genuine hg
    obtain ⟨hgo, hgb⟩ := hg.cons (TokenKind.ne_dot_of_operatorLevel ho)
    exact fits_binary ho hgo (iha hga na han) (ihb hgb nb hbn)
  | conditional ht hq hc hd ha iht ihc iha =>
    intro n hn
    simp only [Phrase.toNode, bind_ok, pure_ok] at hn
    obtain ⟨t, htn, c, hcn, a, han, rfl⟩ := hn
    rw [List.append_assoc] at hg
    obtain ⟨hgt, hg⟩ := ht.genuine hg
    obtain ⟨hgc, hg⟩ := hc.genuine (hg.cons (by simp [hq])).2
    obtain ⟨-, hga⟩ := hg.cons (by simp [hd])
    exact .conditional (iht hgt t htn) (ihc hgc c hcn) (iha hga a han)
  | assignment ht ho hv iht ihv =>
    intro n hn
    simp only [Phrase.toNode, bind_ok] at hn
    obtain ⟨t, htn, hn⟩ := hn
    split at hn
    · simp only [bind_ok, pure_ok] at hn
      obtain ⟨v, hvn, rfl⟩ := hn
      obtain ⟨hgt, hg⟩ := ht.genuine hg
      obtain ⟨hgo, hgv⟩ :=
        hg.cons (TokenKind.ne_of_holds ho rfl)
      exact .assignment (hgo.isToken (TokenKind.isCut_of_assigns ho)) ho (iht hgt t htn) ‹_›
        (ihv hgv v hvn)
    · cases hn
  | arrowName ht ha _ ih =>
    intro n hn
    simp only [Phrase.toNode, parameterNodes, bind_ok, pure_ok] at hn
    obtain ⟨ps, ⟨_, ⟨⟩, hps⟩, nb, hbn, rfl⟩ := hn
    cases hps
    obtain ⟨hgt, hg⟩ := hg.cons (by simp [ht])
    obtain ⟨-, hgb⟩ := hg.cons (by simp [ha])
    exact fits_arrow (List.forall_mem_singleton.2 (.name (hgt.isName ht))) (ih hgb) hbn
  | arrow hl h hr ha _ ih ihb =>
    intro n hn
    simp only [Phrase.toNode, bind_ok, pure_ok] at hn
    obtain ⟨ns, hns, nb, hbn, rfl⟩ := hn
    obtain ⟨-, hg⟩ := hg.cons (by simp [hl])
    obtain ⟨hgp, hg⟩ := h.genuine hg
    obtain ⟨-, hg⟩ := hg.cons (by simp [hr])
    obtain ⟨-, hgb⟩ := hg.cons (by simp [ha])
    exact fits_arrow (Form.sound_parameters (ih hgp) hns) (ihb hgb) hbn
  | lift _ _ ih | arrowBlock _ ih | arrowPhrase _ ih | optSome _ ih | list _ ih => exact ih hg
  -- Parts of expressions
  | name ht => exact hg.1.isName ht
  | pathNil => exact List.forall_mem_nil _
  | path hd ht _ ih =>
    have hgt := hg.dot hd
    obtain ⟨-, hg⟩ := hgt.cons (by simp [ht])
    exact List.forall_mem_cons.2 ⟨hgt.1.isAttr ht, ih hg⟩
  | shorthand ht =>
    rintro _ ⟨⟩
    exact .shorthand (hg.1.isName ht)
  | @pair t c p ts ht hc h ih =>
    intro n hn
    simp only [ObjectEntry.toNode, bind_ok, pure_ok] at hn
    obtain ⟨k, hk, v, hv, rfl⟩ := hn
    have hne : t.kind ≠ .dot := ht.elim (fun h => by simp [h]) (TokenKind.ne_of_holds · rfl)
    obtain ⟨hgt, hg⟩ := hg.cons hne
    obtain ⟨-, hgp⟩ := hg.cons (by simp [hc])
    exact .pair (Token.fits_toKey hgt ht hk) (ih hgp v hv)
  | parens hl h _ ih => exact ih (h.genuine (hg.cons (by simp [hl])).2).1
  | optNone | moreNil | listNil | itemsNil => exact trivial
  | commas h _ ih ihs =>
    obtain ⟨hg, hgs⟩ := h.genuine hg
    exact ⟨ih hg, ihs hgs⟩
  | more hc h _ ih ihs =>
    obtain ⟨hg, hgs⟩ := h.genuine (hg.cons (by simp [hc])).2
    exact ⟨ih hg, ihs hgs⟩
  | itemsLast _ ih => exact ⟨ih hg, trivial⟩
  | items h hc _ ih ihs =>
    obtain ⟨hg, hgs⟩ := h.genuine hg
    exact ⟨ih hg, ihs (hgs.cons (by simp [hc])).2⟩
  -- Parts of statements
  | value he _ ih => exact ih (hg.cons (by simp [he])).2
  | @declarator t p ts ht _ ih =>
    intro n hn
    simp only [Declarator.toNode, bind_ok, pure_ok] at hn
    obtain ⟨e, he, rfl⟩ := hn
    obtain ⟨hgt, hgp⟩ := hg.cons (by simp [ht])
    exact .declarator (.name (hgt.isName ht))
      (optionSound_map (fun _ => id) (ih hgp) (optionalNode_eq p ▸ he))
  | block hl h _ ih =>
    intro n hn
    simp only [Block.toNode, bind_ok, pure_ok] at hn
    obtain ⟨ns, hns, rfl⟩ := hn
    exact .body (ih (h.genuine (hg.cons (by simp [hl])).2).1 ns hns)
  | initDecl hk h ih =>
    intro n hn
    simp only [LoopInit.toNode, bind_ok, pure_ok] at hn
    obtain ⟨ns, hns, rfl⟩ := hn
    obtain ⟨hgk, hgd⟩ := hg.cons (TokenKind.ne_of_holds hk rfl)
    exact .inl (fits_declaration hk hgk h (ih hgd) hns)
  | initPhrase _ ih => exact fun n hn => .inr (ih hg n hn)
  | @handler k p b ps bs hk hp hb ihp ihb =>
    intro n hn
    simp only [Handler.toNode, bind_ok, pure_ok] at hn
    obtain ⟨nb, hbn, rfl⟩ := hn
    obtain ⟨hgp, hgb⟩ := hp.genuine (hg.cons (by simp [hk])).2
    exact .handler (Form.sound_name (fun _ => id) (ihp hgp)) (ihb hgb nb hbn)
  | finalizer hk _ ih | alternate hk _ ih => exact ih (hg.cons (by simp [hk])).2
  | stmtsNil =>
    rintro _ ⟨⟩
    exact List.forall_mem_nil _
  | stray ht _ ih => exact ih (hg.cons (by simp [ht])).2
  | stmts h _ ih ihs =>
    intro ns hns
    simp only [statementNodes, bind_ok, pure_ok] at hns
    obtain ⟨n, hn, ns, hns, rfl⟩ := hns
    obtain ⟨hg, hgs⟩ := h.genuine hg
    exact List.forall_mem_cons.2 ⟨.line (ih hg n hn), ihs hgs ns hns⟩
  -- Statements
  | declaration hk h _ ih =>
    intro n hn
    simp only [Statement.toNode, bind_ok, pure_ok] at hn
    obtain ⟨ns, hns, rfl⟩ := hn
    obtain ⟨hgk, hg⟩ := hg.cons (TokenKind.ne_of_holds hk rfl)
    exact .declared (fits_declaration hk hgk h (ih (h.genuine hg).1) hns)
  | expression h _ ih =>
    intro n hn
    simp only [Statement.toNode, bind_ok, pure_ok] at hn
    obtain ⟨e, he, rfl⟩ := hn
    exact .expression (ih (h.genuine hg).1 e he)
  | «return» hk h _ ih =>
    intro n hn
    simp only [Statement.toNode, bind_ok, pure_ok] at hn
    obtain ⟨e, he, rfl⟩ := hn
    exact .return (Form.sound_option (ih (h.genuine (hg.cons (by simp [hk])).2).1) he)
  | @«if» k t s a ts ss as hk ht hs hno ha iht ihs iha =>
    intro n hn
    simp only [Statement.toNode, bind_ok, pure_ok] at hn
    obtain ⟨na, han, nt, htn, ns, hsn, rfl⟩ := hn
    rw [List.append_assoc] at hg
    obtain ⟨hgt, hg⟩ := ht.genuine (hg.cons (by simp [hk])).2
    obtain ⟨hgs, hga⟩ := hs.genuine hg
    have hc := ihs hgs ns hsn
    cases a with
    | none =>
      cases han
      exact .if (iht hgt nt htn) hc
    | some a =>
      simp only [optionalStatement, bind_ok, pure_ok] at han
      obtain ⟨na, han, rfl⟩ := han
      rw [hno rfl] at hc
      exact .ifElse (iht hgt nt htn) hc (iha hga na han)
  | «while» hk ht hs iht ihs =>
    intro n hn
    simp only [Statement.toNode, bind_ok, pure_ok] at hn
    obtain ⟨nt, htn, ns, hsn, rfl⟩ := hn
    obtain ⟨hgt, hgs⟩ := ht.genuine (hg.cons (by simp [hk])).2
    exact .while (iht hgt nt htn) (ihs hgs ns hsn)
  | @«for» k l i d t e u r s is ts us ss hk hl hi hd ht he hu hr hs ihi iht ihu ihs =>
    intro n hn
    simp only [Statement.toNode, bind_ok, pure_ok] at hn
    obtain ⟨ni, hin, nt, htn, nu, hun, ns, hsn, rfl⟩ := hn
    simp only [List.append_assoc, List.cons_append] at hg
    obtain ⟨hgi, hg⟩ := hi.genuine ((hg.cons (by simp [hk])).2.cons (by simp [hl])).2
    obtain ⟨hgt, hg⟩ := ht.genuine (hg.cons (by simp [hd])).2
    obtain ⟨hgu, hg⟩ := hu.genuine (hg.cons (by simp [he])).2
    have hsn := ihs (hg.cons (by simp [hr])).2 ns hsn
    have htn := Form.sound_option (iht hgt) htn
    have hun := Form.sound_option (ihu hgu) hun
    have hi := optionSound_map (fun _ => id) (ihi hgi) (optionalInit_eq i ▸ hin)
    cases ni with
    | none => exact .for (by rintro _ ⟨⟩) htn hun hsn
    | some ni =>
      rcases hi ni rfl with hi | hi
      · exact .forDecl hi htn hun hsn
      · exact .for (by rintro _ ⟨⟩; exact hi) htn hun hsn
  | @forOf k l d n o p r s ts ss hk hl hd hn ho hp hr hs ihp ihs =>
    intro node hnode
    simp only [Statement.toNode, bind_ok, pure_ok] at hnode
    obtain ⟨np, hpn, ns, hsn, rfl⟩ := hnode
    simp only [List.cons_append] at hg
    obtain ⟨-, hg⟩ := hg.cons (by simp [hk])
    obtain ⟨-, hg⟩ := hg.cons (by simp [hl])
    obtain ⟨hgd, hg⟩ := hg.cons (TokenKind.ne_of_holds hd rfl)
    obtain ⟨hgn, hg⟩ := hg.cons (by simp [hn])
    obtain ⟨-, hg⟩ := hg.cons (by simp [ho])
    obtain ⟨hgp, hg⟩ := hp.genuine hg
    have hsn := ihs (hg.cons (by simp [hr])).2 ns hsn
    obtain ⟨w, hw, ht⟩ := hgd.declares hd
    rw [ht]
    exact .forOf hw (.name (hgn.isName hn)) (ihp hgp np hpn) hsn
  | functionDecl hk hn hp hb ihp ihb =>
    intro n hnode
    simp only [Statement.toNode, bind_ok, pure_ok] at hnode
    obtain ⟨nb, hbn, rfl⟩ := hnode
    obtain ⟨-, hg⟩ := hg.cons (by simp [hk])
    obtain ⟨hgn, hg⟩ := hg.cons (by simp [hn])
    obtain ⟨hgp, hgb⟩ := hp.genuine hg
    exact .functionDecl (.name (hgn.isName hn)) (Form.sound_names (ihp hgp)) (ihb hgb nb hbn)
  | blockStmt _ ih => exact fun n hn => .block (ih hg n hn)
  | «break» =>
    rintro _ ⟨⟩
    exact .break
  | «continue» =>
    rintro _ ⟨⟩
    exact .continue
  | throw hk h _ ih =>
    intro n hn
    simp only [Statement.toNode, bind_ok, pure_ok] at hn
    obtain ⟨e, he, rfl⟩ := hn
    exact .throw (ih (h.genuine (hg.cons (by simp [hk])).2).1 e he)
  | @«try» k b h f bs hs fs hk hb hh hf ihb ihh ihf =>
    intro n hn
    simp only [Statement.toNode, bind_ok, pure_ok] at hn
    obtain ⟨nb, hbn, nh, hhn, nf, hfn, rfl⟩ := hn
    rw [List.append_assoc] at hg
    obtain ⟨hgb, hg⟩ := hb.genuine (hg.cons (by simp [hk])).2
    obtain ⟨hgh, hgf⟩ := hh.genuine hg
    exact .try (ihb hgb nb hbn)
      (optionSound_map (fun _ => id) (ihh hgh) (optionalHandler_eq h ▸ hhn))
      (optionSound_map (fun _ => id) (ihf hgf) (optionalBlock_eq f ▸ hfn))

end AutoAwait
