import AutoAwait.Proofs.Printing.Endings
import AutoAwait.Proofs.Script.Roundtrip
import AutoAwait.Proofs.Token.Boundaries

/-!
# A statement wherever one can stand

A statement that is read from its text as a script of its own is read from it wherever outside all
brackets a statement can be read, and ends there too.

* `Layout.Starts.alike_run` says that the terminator step emits the same for a statement wherever it
  begins;
* `Node.exists_spells` says that what is emitted for the text of a single statement ends where the
  statement ends;
* `Node.ReadsAlone` says of a statement that it is read from its text, `Node.ReadsAlone.of_emitted`
  when that is so, `Node.spelledStmt_of_alone` that its text then spells it in other places too.
-/

namespace AutoAwait

open Node

/-! ## What comes before a statement -/

namespace Layout

variable {φ : Position → Position} {s s' : Layout} {t : Token}

/-- What is emitted for the first token of a statement does not depend on where a statement begins,
unless it is `function`. -/
theorem Starts.alike_step (h : s.Starts) (h' : s'.Starts) (ho : s'.opened = s.opened)
    (ht : t.kind.isFree) (hf : t.kind = .keyword .function → s'.atStart = s.atStart) :
    (s'.step (t.move φ)).1 = (s.step t).1.map (·.move φ) ∧
      Alike φ (s.step t).2 (s'.step (t.move φ)).2 := by
  have hrekind : s'.rekind (t.move φ) = (s.rekind t).move φ := by
    simp only [rekind, h.dot, h'.dot, h.opens, h'.opens, Token.move_kind, false_and, if_false]
    split
    · rfl
    by_cases hk : t.kind = .keyword .function
    · simp only [hk, hf hk, true_and]
      split <;> rfl
    · simp only [hk, false_and, if_false]
  have hfree : (s.rekind t).kind.isFree := by
    rwa [apply_rekind (f := (·.isFree)) (fun _ => rfl) rfl rfl s t]
  have hheader : s'.opensHeader = s.opensHeader := h'.header.trans h.header.symm
  rw [step_eq_place h.newline (TokenKind.ne_of_isFree ht),
    step_eq_place (t := t.move φ) h'.newline (TokenKind.ne_of_isFree ht)]
  unfold place
  rw [hrekind]
  generalize s.rekind t = u at hfree
  -- after it the two states differ in nothing that matters
  have halike : ∀ (bs bs' : List Bracket) (start : Bool), bs' = bs →
      Alike φ { s.emit u with opened := bs, atStart := start }
        { s'.emit (u.move φ) with opened := bs', atStart := start } := fun bs bs' start hb =>
    { opened := hb, canEnd := rfl, atStart := rfl, afterHeader := rfl, closedBlock := rfl
      prev := rfl, beforePrev := fun _ => h'.not_startsFunction.trans h.not_startsFunction.symm
      last := fun _ => rfl, newline := by rw [emit, emit, h.newline, h'.newline]; rfl }
  obtain ⟨k, text, loc⟩ := u
  cases k with
  | rparen | rbracket | rbrace | newline | semicolon => cases hfree
  | blockOpen => exact ⟨rfl, halike _ _ true (congrArg (.block :: ·) ho)⟩
  | lbrace => exact ⟨rfl, halike _ _ false (congrArg (.object :: ·) ho)⟩
  | lbracket => exact ⟨rfl, halike _ _ false (congrArg (.square :: ·) ho)⟩
  | lparen =>
    refine ⟨rfl, halike _ _ false ?_⟩
    rw [hheader, ho]
  | _ => exact ⟨rfl, halike _ _ _ ho⟩

theorem Starts.alike_run {ts : List Token} (h : s.Starts) (h' : s'.Starts)
    (ho : s'.opened = s.opened) (ht : t.kind.isFree)
    (hf : t.kind = .keyword .function → s'.atStart = s.atStart) :
    (s'.run ((t :: ts).map (·.move φ))).1 = (s.run (t :: ts)).1.map (·.move φ) ∧
      Alike φ (s.run (t :: ts)).2 (s'.run ((t :: ts).map (·.move φ))).2 := by
  obtain ⟨hstep, halike⟩ := h.alike_step (φ := φ) h' ho ht hf
  obtain ⟨hrun, halike⟩ := halike.run ts
  rw [List.map_cons, run, run, hstep, hrun, List.map_append]
  exact ⟨rfl, halike⟩

/-- What is known of the state after a statement is known of every state that is alike. -/
theorem Done.of_alike {u : Layout} (h : u.Done s) (ha : Alike φ s s') {u' : Layout}
    (ho : u'.opened = u.opened) : u'.Done s' where
  newline := by rw [ha.newline, h.newline]; rfl
  dot hd := h.dot ((eq_seen (by decide) ha.prev).1 hd)
  header := ha.opensHeader.trans h.header
  opened := ha.opened.trans (h.opened.trans ho.symm)
  atStart := by rw [ha.atStart]; exact h.atStart
  closed hc := by
    rw [ha.closedBlock]
    exact h.closed (ha.canEnd ▸ hc)

/-- Where what is emitted for a text ends like a statement, one has ended. -/
theorem done_of_endsIn {ts : List Token} {b : Bool} (h : EndsIn b (emitted ts))
    (hd : depth? 0 (emitted ts) = some 0) (hn : newline? ts = none)
    (ht : ∀ t ∈ ts, t.kind ≠ .terminator) : start.Done (start.run ts).2 := by
  obtain ⟨us, t, hus, hkind⟩ := h.last
  have hrev : (emitted ts).reverse = t :: us.reverse := by rw [hus, List.reverse_append]; rfl
  have hm := (follows_run ts).toMarks
  have hs := (starts_run ts ht).atStart
  rw [hrev] at hm hs
  have hnew : (start.run ts).2.newline = none := by rw [(follows_run ts).newline, hn, ite_self]
  have hopened : (start.run ts).2.opened = [] := by
    have he := Emitted.opened_of_depth? [] hd
    rwa [List.append_nil, hrev, ← hm.opened] at he
  have hfresh : t.kind.isQuiet ∧ t.kind ≠ .name := by cases b <;> rw [hkind] <;> decide
  have hboundary : Emitted.atBoundary (t :: us.reverse) ∧ ((start.run ts).2.canEnd →
      (start.run ts).2.closedBlock) := by
    cases b with
    | true =>
      have hclosed := h.closed
      rw [hrev] at hclosed
      exact ⟨by rw [Emitted.atBoundary, hclosed, Bool.or_true], fun _ => hm.closedBlock.trans hclosed⟩
    | false =>
      have hk : t.kind = .terminator := hkind
      refine ⟨by rw [Emitted.atBoundary, hk]; rfl, fun hc => ?_⟩
      rw [hm.canEnd, Emitted.canEnd, hk] at hc
      cases hc
  exact
    { toFresh := .of_prev hnew hm.prev hfresh.1 fun hname => absurd hname hfresh.2
      opened := hopened
      atStart := by rw [hs, startsStatement_eq, hboundary.1, Bool.true_or]
      closed := hboundary.2 }

end Layout

/-! ## Where a single statement ends -/

/-- Two lists that are alike but for some terminators after them. -/
theorem eq_of_append_terminators {ts us vs ws : List Token} {t u : Token}
    (h : ts ++ [t] ++ vs = us ++ [u] ++ ws) (hv : ∀ t ∈ vs, t.kind = .terminator)
    (hw : ∀ t ∈ ws, t.kind = .terminator) (ht : t.kind ≠ .terminator) (hu : u.kind ≠ .terminator) :
    ts ++ [t] = us ++ [u] := by
  rcases List.append_eq_append_iff.1 h with ⟨as, has, hvs⟩ | ⟨as, has, hws⟩
  · rcases List.eq_nil_or_concat' as with rfl | ⟨bs, b, rfl⟩
    · simpa using has.symm
    · obtain ⟨-, hb⟩ := List.append_inj' (has.trans (List.append_assoc ..).symm) rfl
      obtain rfl := List.singleton_inj.1 hb
      exact absurd (hv u (by rw [hvs]; simp)) hu
  · rcases List.eq_nil_or_concat' as with rfl | ⟨bs, b, rfl⟩
    · simpa using has
    · obtain ⟨-, hb⟩ := List.append_inj' (has.trans (List.append_assoc ..).symm) rfl
      obtain rfl := List.singleton_inj.1 hb
      exact absurd (hw t (by rw [hws]; simp)) ht

namespace Layout

/-- Where no newline is pending, a token whose meaning does not depend on the bracket that it stands in
is emitted without a terminator before it. -/
theorem step_of_isFree {s : Layout} {t : Token} (hn : s.newline = none) (ht : t.kind.isFree) :
    (s.step t).1 = [s.rekind t] := by
  rw [step_eq_place hn (TokenKind.ne_of_isFree ht)]
  obtain ⟨us, hus, rfl | ⟨-, hk⟩⟩ := s.place_emits t
  · exact hus
  · have hfree := apply_rekind (f := (·.isFree)) (fun _ => rfl) rfl rfl s t
    rw [hk, ht] at hfree
    cases hfree

/-- The last token of a text is emitted last, and is no terminator, if it is neither a newline nor a
semicolon. -/
theorem emitted_last (ts : List Token) {t : Token} (hn : t.kind ≠ .newline) (hs : t.kind ≠ .semicolon)
    (ht : t.kind ≠ .terminator) : ∃ us u, emitted (ts ++ [t]) = us ++ [u] ∧ u.kind ≠ .terminator := by
  obtain ⟨k, hk, he, -⟩ := (follows_run ts).step_token hn hs
  refine ⟨_, { t with kind := k }, by rw [emitted_snoc, he, List.append_assoc], ?_⟩
  rintro rfl
  generalize t.kind = j at hk ht
  cases hk
  exact ht rfl

/-- What is emitted for the text of a statement: its last token is no terminator or, where the text
does not end with a brace, stands before the last one, which is one and the only one at the end. -/
theorem emitted_of_endsAs {b : Bool} {d : Doc} {ts : List Token} (h : d.EndsAs b)
    (hts : d.Tokens ts) (hd : depth? 0 ts = some 0) (ht : ∀ t ∈ ts, t.kind ≠ .terminator) :
    newline? ts = none ∧ ∃ us t, t.kind ≠ .terminator ∧
      if b then emitted ts = us ++ [t]
      else (∃ e : Token, emitted ts = us ++ [t] ++ [e] ∧ e.kind = .terminator) ∧
        (start.run ts).2.finish = [] := by
  cases h with
  | brace =>
    obtain ⟨us, _, rfl, -, hlast⟩ := hts.split
    obtain ⟨r, _, rfl, hr, ⟨⟩⟩ := hlast.of_word
    have hr : r.kind = .rbrace := hr.unique (isToken_symbol (by decide))
    obtain ⟨vs, u, hu, hne⟩ := emitted_last us (t := r) (by rw [hr]; nofun) (by rw [hr]; nofun)
      (by rw [hr]; nofun)
    exact ⟨by rw [newline?_snoc, hr]; rfl, vs, u, hne, hu⟩
  | semicolon hw hn hs =>
    obtain ⟨_, _, rfl, hts, hlast⟩ := hts.split
    obtain ⟨us, _, rfl, -, hword⟩ := hts.split
    obtain ⟨t, _, rfl, hk, ⟨⟩⟩ := hword.of_word
    obtain ⟨e, _, rfl, he, ⟨⟩⟩ := hlast.of_word
    have hk := hk.unique hw
    have he : e.kind = .semicolon := he.unique (isToken_symbol (by decide))
    obtain ⟨vs, u, hu, hne⟩ := emitted_last us (t := t) (by rwa [hk]) (by rwa [hk]) (ht t (by simp))
    -- outside all brackets the semicolon is a terminator
    have hopened : (start.run (us ++ [t])).2.opened = [] := by
      have hd' : depth? 0 (us ++ [t]) = some 0 := by
        rw [depth?_append] at hd
        obtain ⟨m, hm, hd⟩ := Option.bind_eq_some_iff.1 hd
        rw [depth?_cons, he] at hd
        obtain rfl := Option.some.inj hd
        exact hm
      exact List.length_eq_zero_iff.1 (opened_run (s := .start) hd')
    have hall : emitted (us ++ [t] ++ [e]) = vs ++ [u] ++ [terminatorAt e] := by
      rw [emitted_snoc, hu, step_semicolon_of_opened hopened he]
    refine ⟨by rw [newline?_snoc, he]; rfl, vs, u, hne, ⟨_, hall, rfl⟩, ?_⟩
    have hends : Emitted.canEnd closing (emitted (us ++ [t] ++ [e])).reverse = false := by
      rw [hall, List.reverse_append]
      rfl
    rw [(follows_run _).finish, implied, gapEnds, hends]
    rfl

end Layout

/-- The first token of the text of a statement. -/
theorem Fits.first_token [CharNames] {n : Node} {opened : Bool} {level : Nat} {ts : List Token}
    (h : Fits (.stmt opened) n) (hts : (n.stmt level).Tokens ts) : ∃ t us, ts = t :: us ∧
      t.kind.startsStatement ∧ (t.kind = .keyword .function → n.kind = .functionDecl) := by
  obtain ⟨k, w, d, hd, hw, hk⟩ := h.begins_stmt level
  rw [hd] at hts
  obtain ⟨t, us, rfl, ht, -⟩ := hts.of_word
  exact ⟨t, us, rfl, by rwa [ht.unique hw]⟩

namespace Node

variable {n : Node} {opened : Bool}

/-- What is emitted for the text of a statement, as far as it spells the statement, ends with the
statement. -/
theorem spells_emitted [CharNames] {d : Doc} {ts : List Token} {ss : List Statement}
    (h : d.EndsAs n.endsInBlock)
    (hts : d.Tokens ts) (hd : depth? 0 ts = some 0) (ht : ∀ t ∈ ts, t.kind ≠ .terminator)
    (hfirst : ∀ t ∈ (emitted ts).head?, t.kind ≠ .terminator)
    (hs : Spells (.stmts ss) (emitted ts ++ (Layout.start.run ts).2.finish))
    (hn : statementNodes ss = .ok [n]) : ∃ s, Spells (.stmt s) (emitted ts) ∧ s.toNode = .ok n := by
  obtain ⟨-, us, t, hne, hlast⟩ := Layout.emitted_of_endsAs h hts hd ht
  obtain ⟨s, xs, ys, zs, hall, hxs, hzs, hs, hsn⟩ := hs.of_single hn
  have hfinish : ∀ t ∈ (Layout.start.run ts).2.finish, t.kind = .terminator := by
    rcases (Layout.start.run ts).2.finish_strays with hf | ⟨e, hf, he⟩
    · rw [hf]
      exact List.forall_mem_nil _
    · rw [hf]
      exact List.forall_mem_singleton.2 he
  -- no terminator stands after the statement
  have hend : emitted ts = xs ++ ys := by
    obtain ⟨vs, r, rfl, hr⟩ := (hs.endsIn hsn).last
    cases hb : n.endsInBlock with
    | true =>
      rw [hb, if_pos rfl] at hlast hr
      have heq : us ++ [t] ++ (Layout.start.run ts).2.finish = (xs ++ vs) ++ [r] ++ zs := by
        rw [← hlast, hall]
        simp
      rw [hlast, eq_of_append_terminators heq hfinish hzs hne (by rw [hr]; nofun), List.append_assoc]
    | false =>
      rw [hb] at hlast hr
      obtain ⟨⟨e, hlast, -⟩, hnil⟩ := hlast
      rw [hlast, hnil, List.append_nil] at hall
      rcases List.eq_nil_or_concat' zs with rfl | ⟨ws, z, rfl⟩
      · rw [hlast, hall, List.append_nil]
      · have heq : us ++ [t] = (xs ++ vs) ++ r :: ws := by
          rw [← List.append_assoc] at hall
          simpa using List.append_inj_left' hall rfl
        have hmem : t ∈ r :: ws := by
          have hl := congrArg List.getLast? heq
          rw [List.getLast?_concat, List.getLast?_append_cons] at hl
          exact List.mem_of_getLast? hl.symm
        rcases List.mem_cons.1 hmem with rfl | hmem
        · exact absurd hr hne
        · exact absurd (hzs t (by simp [hmem])) hne
  -- and none before it
  obtain rfl : xs = [] := by
    cases xs with
    | nil => rfl
    | cons x xs => exact absurd (hxs x (.head _)) (hfirst x (by rw [hend]; rfl))
  exact ⟨s, by rwa [hend], hsn⟩

/-- Is the statement read from its text? -/
def ReadsAlone [CharNames] (n : Node) : Prop :=
  ∃ m, parseScript (formatStatement n 0) = .ok (.untyped .start (.program [m])) ∧ m.bare = n.bare

theorem readsAlone_congr [CharNames] {m : Node} (h : n.bare = m.bare) :
    n.ReadsAlone ↔ m.ReadsAlone := by
  have htext : formatStatement n 0 = formatStatement m 0 := congrArg Doc.render (stmt_eq_of_bare h 0)
  rw [ReadsAlone, ReadsAlone, htext, h]

/-- A statement that is spelled by what is emitted for its text is read from it. -/
theorem ReadsAlone.of_emitted [CharNames] (h : (n.stmt 0).Separated [])
    (hs : n.SpelledStmt opened (emitted ((n.stmt 0).tokensAt .start))) : n.ReadsAlone := by
  obtain ⟨hstop, -⟩ := Doc.readTokens_render h
  have hstmts : SpelledStmts [n] (scriptTokens (n.stmt 0).render).tokens := by
    have hone : SpelledStmts [n] (emitted ((n.stmt 0).tokensAt .start) ++ []) := .cons hs .nil
    rw [List.append_nil] at hone
    rw [scriptTokens_tokens hstop]
    exact hone.strays (Layout.finish_strays _)
  obtain ⟨ms, hparse, hms⟩ := parseScript_of_spelled hstop hstmts
  obtain ⟨m, rfl, hm⟩ := List.map_eq_singleton_iff.1 hms
  exact ⟨m, hparse, hm⟩

/-- A statement that can be read from a text, and is printed so that it can, is read from its own. -/
theorem ReadsAlone.of_fits [CharNames] (hf : Fits .line n) (hr : n.Readable) : n.ReadsAlone := by
  obtain ⟨ms, hparse, hms⟩ := @parseScript_formatScript _ [n] .start none
    (List.forall_mem_singleton.2 hf) (List.forall_mem_singleton.2 hr)
  obtain ⟨m, rfl, hm⟩ := List.map_eq_singleton_iff.1 hms
  exact ⟨m, hparse, hm⟩

/-- The tree that a statement is read as is read as itself. -/
theorem ReadsAlone.exists_read [CharNames] (h : n.ReadsAlone) : ∃ m, m.bare = n.bare ∧
    Fits (.stmt m.endsOpen) m ∧
      parseScript (formatStatement m 0) = .ok (.untyped .start (.program [m])) := by
  obtain ⟨m, hparse, hm⟩ := h
  obtain ⟨ns, hns, hfits⟩ := parseScript_fits hparse
  obtain rfl := Shape.program.inj (congrArg Node.shape hns)
  rw [formatStatement, ← stmt_eq_of_bare hm] at hparse
  refine ⟨m, hm, ?_, hparse⟩
  cases hfits m (.head _) with
  | line h => rwa [h.endsOpen]

theorem ReadsAlone.firm [CharNames] (h : n.ReadsAlone) : Doc.Firm (n.stmt 0) := by
  obtain ⟨m, hm, hf, -⟩ := h.exists_read
  rw [← stmt_eq_of_bare hm]
  exact hf.firm 0

/-- A statement that is read from its text ends where all that is emitted for the text does. -/
theorem exists_spells [CharNames] (hf : Fits (.stmt opened) n)
    (h : parseScript (formatStatement n 0) = .ok (.untyped .start (.program [n]))) :
    ∃ s, Spells (.stmt s) (emitted ((n.stmt 0).tokensAt .start)) ∧ s.toNode = .ok n := by
  obtain ⟨ss, ns, hstop, hs, hns, htree⟩ := parseScript_ok.1 h
  obtain rfl : [n] = ns := Shape.program.inj (congrArg Node.shape htree)
  rw [scriptTokens_tokens hstop] at hs
  have hfirm : Doc.Firm (n.stmt 0) := hf.firm 0
  have hnested : (n.stmt 0).Nested true := hf.nested 0
  have hts := (Doc.tokens_of_separated (hfirm [] breaks_nil) .start).2
  have hread : ∀ t ∈ (n.stmt 0).tokensAt .start, t.kind ≠ .terminator := fun t ht =>
    @ne_terminator_of_mem_readTokens (formatStatement n 0).toList t ht
  refine spells_emitted hf.endsAs hts (hnested.depth?_eq hts 0) hread ?_ hs hns
  -- the first token is emitted first
  obtain ⟨t, us, hus, ht, -⟩ := hf.first_token hts
  have hstep : (Layout.start.step t).1 = [Layout.start.rekind t] :=
    Layout.step_of_isFree rfl (TokenKind.isFree_of_startsStatement ht)
  have hkind := Layout.apply_rekind (f := (· == .terminator)) (fun _ => rfl) rfl rfl .start t
  have hne := hread t (by rw [hus]; exact .head _)
  rw [hus, emitted, Layout.run, hstep]
  rintro _ ⟨⟩ he
  rw [he, beq_eq_false_iff_ne.2 hne] at hkind
  cases hkind

end Node

/-! ## A statement in another place -/

theorem Position.advance_pos (p : Position) (cs : List Char) (h : 1 ≤ p.line ∧ 1 ≤ p.column) :
    1 ≤ (p.advance cs).line ∧ 1 ≤ (p.advance cs).column := by
  induction cs generalizing p with
  | nil => exact h
  | cons c cs ih =>
    refine ih (p.next c) ?_
    unfold next
    split
    · exact ⟨Nat.le_add_left 1 _, le_rfl⟩
    · exact ⟨h.1, Nat.le_add_left 1 _⟩

/-- What is read after other characters is only further down and further right. -/
theorem Doc.tokensAt_advance (cs : List Char) : ∃ φ, ∀ d : Doc,
    d.tokensAt (Position.start.advance cs) = (d.tokensAt .start).map (·.move φ) := by
  obtain ⟨hline, hcolumn⟩ := Position.start.advance_pos cs ⟨le_rfl, le_rfl⟩
  generalize Position.start.advance cs = q at hline hcolumn
  let φ : Position → Position := fun p => (p.right (q.column - 1)).down (q.line - 1)
  have hstart : φ .start = q := by
    show (⟨1 + (q.line - 1), 1 + (q.column - 1)⟩ : Position) = q
    rw [Nat.add_sub_cancel' hline, Nat.add_sub_cancel' hcolumn]
  refine ⟨φ, fun d => ?_⟩
  rw [← hstart]
  refine tokensFrom_move (fun ds => ?_) _
  rw [Position.advance_down, Position.advance_right _ le_rfl]

namespace Node

variable {n : Node} {opened : Bool}

/-- **Other places.** The text of a statement that is read alone spells it wherever one can be read
outside all brackets, and ends there. What declares a function needs the start of a statement. -/
theorem spelledStmt_of_alone [CharNames] (hf : Fits (.stmt opened) n)
    (h : parseScript (formatStatement n 0) = .ok (.untyped .start (.program [n]))) {s : Layout}
    (hs : s.Starts) (ho : s.opened = []) (hk : n.kind = .functionDecl → s.atStart) (cs : List Char) :
    n.SpelledStmt opened (s.run ((n.stmt 0).tokensAt (Position.start.advance cs))).1 ∧
      s.Done (s.run ((n.stmt 0).tokensAt (Position.start.advance cs))).2 := by
  obtain ⟨t, hspells, hn⟩ := exists_spells hf h
  have hfirm : Doc.Firm (n.stmt 0) := hf.firm 0
  have hts := (Doc.tokens_of_separated (hfirm [] breaks_nil) .start).2
  have hread : ∀ t ∈ (n.stmt 0).tokensAt .start, t.kind ≠ .terminator := fun t ht =>
    @ne_terminator_of_mem_readTokens (formatStatement n 0).toList t ht
  have hdone : Layout.start.Done (Layout.start.run ((n.stmt 0).tokensAt .start)).2 := by
    have hnested : (n.stmt 0).Nested true := hf.nested 0
    have hnewline := (Layout.emitted_of_endsAs hf.endsAs hts (hnested.depth?_eq hts 0) hread).1
    exact Layout.done_of_endsIn (hspells.endsIn hn) (hspells.balanced.depth?_eq 0) hnewline hread
  obtain ⟨φ, hφ⟩ := Doc.tokensAt_advance cs
  obtain ⟨u, us, hus, hu, hfunction⟩ := hf.first_token hts
  have hstart : Layout.start.Starts := .of_atStart .start rfl rfl
  obtain ⟨hrun, halike⟩ := hstart.alike_run (φ := φ) hs ho
    (TokenKind.isFree_of_startsStatement hu) fun hkind => hk (hfunction hkind)
  rw [← hus, ← hφ] at hrun halike
  refine ⟨⟨t.move φ, ?_, fun hopen => ?_, n.move φ, (t.toNode_move).ok hn, bare_move _ n⟩,
    hdone.of_alike halike ho⟩
  · rw [hrun]
    exact hspells.move (moved_map _)
  · rwa [Statement.isOpen_move, ← t.endsOpen_of_toNode hn, hf.endsOpen] at hopen

end Node

end AutoAwait
