import AutoAwait.Proofs.Grammar.Expressions

/-!
# The parser reads what the grammar spells

* `Grammar.statementStep_run` is about statements, `Grammar.complete_level` about the grammar
  unfolded any number of times;
* `parseTokens_of_spells` is the main statement.
-/

namespace AutoAwait

namespace Grammar

open AutoAwait.Parser

/-! ## What the first tokens decide -/

theorem declarators_start {ds : List Declarator} {ts : List Token}
    (h : Spells (.commas (ds.map .declarator)) ts) : ∃ n us, ts = n :: us ∧ n.kind = .name ∧
      (us = [] ∨ ∃ k, next us = some k ∧ k ≠ .keyword .of) := by
  cases ds with
  | nil => cases h
  | cons d ds =>
    cases h with
    | commas hd hs =>
      cases hd with
      | @declarator n p ts hn hp =>
        refine ⟨n, _, rfl, hn, ?_⟩
        cases p with
        | none =>
          cases hp
          cases ds with
          | nil =>
            cases hs
            exact .inl rfl
          | cons d ds =>
            cases hs with
            | more hc _ _ => exact .inr ⟨.comma, by simp [hc], by decide⟩
        | some p =>
          cases hp with
          | optSome hp =>
            cases hp with
            | value he _ => exact .inr ⟨.assign, by simp [he], by decide⟩

theorem loop_declares {g : Grammar} {k : Position} {l c n : Token} {ts : List Token}
    (hl : l.kind = .lparen) (hc : c.kind.declares) (hn : n.kind = .name)
    (ho : next ts ≠ some (.keyword .of)) :
    g.loop k (l :: c :: n :: ts) = (do
      let ds ← g.declarators n
      g.countingLoop k (some (.declaration c ds))) ts := by
  rcases hk : c.kind with _ | _ | _ | j | _ <;> rw [hk] at hc <;> first | cases hc | skip
  cases j <;> cases hc
  all_goals simp [loop, bind_run, token_run hl, hk, token_run hn, ho]

theorem loop_phrase {g : Grammar} {k : Position} {l : Token} {j : TokenKind} {ts : List Token}
    (hl : l.kind = .lparen) (hj : next ts = some j) (hs : j.startsPhrase) :
    g.loop k (l :: ts) = (do
      let p ← g.phrase
      g.countingLoop k (some (.phrase p))) ts := by
  rw [loop, bind_of_ok (token_run hl), bind_of_ok peek_run, hj]
  rcases j with _ | _ | _ | j | _ <;>
    first | rfl | (cases j <;> first | rfl | cases hs) | cases hs

theorem statementStep_declares {g : Grammar} {k : Token} {ts : List Token}
    (hk' : k.kind.declares) :
    g.statementStep (k :: ts) = (do
      let ds ← (do g.declarators (← token .name))
      let _ ← token .terminator
      return Statement.declaration k ds) ts := by
  rcases hk : k.kind with _ | _ | _ | j | _ <;> rw [hk] at hk' <;> first | cases hk' | skip
  cases j <;> cases hk'
  all_goals
    rw [statementStep, bind_of_ok peek_run, next_cons, hk, bind_assoc_run]
    rfl

theorem statementStep_phrase {g : Grammar} {k : TokenKind} {ts : List Token}
    (hk : next ts = some k) (hs : k.startsPhrase) :
    g.statementStep ts = (do
      let p ← g.phraseStep
      let _ ← token .terminator
      return Statement.expression p) ts := by
  rw [statementStep, bind_of_ok peek_run, hk]
  rcases k with _ | _ | _ | k | _ <;>
    first | rfl | (cases k <;> first | rfl | cases hs) | cases hs

theorem finalizer_next {f : Option Block} {ts rest : List Token}
    (h : Spells (.opt (f.map .finalizer)) ts) (hr : next rest ≠ some (.keyword .catch)) :
    next (ts ++ rest) ≠ some (.keyword .catch) := by
  cases f with
  | none =>
    cases h
    exact hr
  | some b =>
    cases h with
    | optSome h =>
      cases h with
      | finalizer hk _ => simp [hk]

section
variable {g : Grammar} (hg : g.Complete)
include hg

/-! ## Parts of statements -/

theorem declarator_run {d : Declarator} {ts rest : List Token} (h : Spells (.declarator d) ts)
    (hl : ts.length ≤ g.fuel) (hr : Ends 1 rest) :
    (do g.declarator (← token .name)) (ts ++ rest) = .ok (d, rest) := by
  cases h with
  | @declarator t p ts ht h =>
    simp only [List.length_cons] at hl
    have ho : Parser.optional .assign (token .assign *> g.phrase) (ts ++ rest) =
        .ok (p, rest) := by
      cases p with
      | none =>
        cases h
        exact optional_of_not_next fun hk => absurd (hr _ hk) (by decide)
      | some p =>
        cases h with
        | optSome h =>
          cases h with
          | value he h =>
            simp only [List.length_cons] at hl
            have hp := hg.phrase h (by omega) hr
            refine optional_of_next (by simp [he]) ?_
            simp [seqRight_run, bind_run, token_run he, hp]
    simp [bind_run, token_run ht, declarator, ho]

theorem declarators_run {ds : List Declarator} {ts rest : List Token}
    (h : Spells (.commas (ds.map .declarator)) ts) (hl : ts.length ≤ g.fuel) (hr : Ends 1 rest)
    (hc : next rest ≠ some .comma) :
    (do g.declarators (← token .name)) (ts ++ rest) = .ok (ds, rest) := by
  cases ds with
  | nil => cases h
  | cons d ds =>
    cases h with
    | commas h hs =>
      simp only [List.length_append] at hl
      have hd := declarator_run hg h (by omega) (ends_more hs hr)
      have hds := whileNext_more (declarator_run hg) hs (by omega) (n := g.fuel) (by omega) hr hc
      cases h with
      | @declarator t p ts ht h =>
        simp only [List.cons_append, bind_run, token_run ht, List.append_assoc] at hd ⊢
        rw [declarators, bind_of_ok hd]
        exact bind_of_ok hds

theorem condition_run (rest : List Token) {p : Phrase} {ts : List Token}
    (h : Spells (.parens (.phrase 1 p)) ts) (hl : ts.length ≤ g.fuel) :
    g.condition (ts ++ rest) = .ok (p, rest) := by
  cases h with
  | @parens l r _ ts hlp h hrp =>
    simp only [List.length_append, List.length_cons] at hl
    have hr : Ends 1 (r :: rest) := ends_cons (by rw [hrp]; decide)
    have hp := hg.phrase h (by omega) hr
    simp [condition, bind_run, token_run hlp, hp, token_run hrp]

theorem option_phrase_run {k : TokenKind} (hk : k.startsPhrase = false) (rest : List Token)
    (hn : next rest = some k) (hr : Ends 1 rest) {p : Option Phrase} {ts : List Token}
    (h : Spells (.opt (p.map (.phrase 1))) ts) (hl : ts.length ≤ g.fuel) :
    notBefore k g.phrase (ts ++ rest) = .ok (p, rest) := by
  cases p with
  | none =>
    cases h
    exact notBefore_of_next hn
  | some p =>
    cases h with
    | optSome h =>
      obtain ⟨t, us, rfl, ht⟩ := h.starts rfl
      refine notBefore_of_not_next (fun hj => ?_) (hg.phrase h hl hr)
      rw [← Option.some.inj hj] at hk
      rw [show t.kind.startsPhrase from ht] at hk
      cases hk

theorem countingLoop_run {k : Position} {i : Option LoopInit} {t u : Option Phrase} {s : Statement}
    {d e r : Token} {ts us ss rest : List Token} (hd : d.kind = .semicolon)
    (ht : Spells (.opt (t.map (.phrase 1))) ts) (he : e.kind = .semicolon)
    (hu : Spells (.opt (u.map (.phrase 1))) us) (hr : r.kind = .rparen)
    (hs : Spells (.stmt s) ss) (hl : ts.length + us.length + ss.length ≤ g.fuel)
    (hend : s.EndsBefore rest) :
    g.countingLoop k i (d :: (ts ++ e :: (us ++ r :: (ss ++ rest)))) =
      .ok (.for k i t u s, rest) := by
  have htest := option_phrase_run hg (k := .semicolon) rfl (e :: (us ++ r :: (ss ++ rest)))
    (congrArg some he) (ends_cons (by rw [he]; decide)) ht (by omega)
  have hupdate := option_phrase_run hg (k := .rparen) rfl (r :: (ss ++ rest))
    (congrArg some hr) (ends_cons (by rw [hr]; decide)) hu (by omega)
  have hbody := hg.statement hs (by omega) hend
  simp [countingLoop, bind_run, token_run hd, htest, token_run he, hupdate, token_run hr, hbody]

theorem handler_run (rest : List Token) {h : Handler} {ts : List Token}
    (hh : Spells (.handler h) ts) (hl : ts.length ≤ g.fuel) :
    g.handler (ts ++ rest) = .ok (h, rest) := by
  cases hh with
  | @handler k p b ps bs hk hp hb =>
    simp only [List.length_append, List.length_cons] at hl
    have hbody := block_run hg rest hb (by omega)
    have hparam : Parser.optional .lparen (do
        let _ ← token .lparen
        let name ← token .name
        let _ ← token .rparen
        return name) (ps ++ (bs ++ rest)) = .ok (p, bs ++ rest) := by
      cases p with
      | none =>
        cases hp
        obtain ⟨t, us, rfl, ht⟩ := hb.starts rfl
        have ht : t.kind = .blockOpen := ht
        exact optional_of_not_next (by simp [ht])
      | some n =>
        cases hp with
        | optSome hp =>
          cases hp with
          | parens hlp hn hrp =>
            cases hn with
            | name hn =>
              refine optional_of_next (by simp [hlp]) ?_
              simp [bind_run, token_run hlp, token_run hn, token_run hrp]
    simp [handler, bind_run, token_run hk, hparam, hbody]

theorem loop_run {k : Position} {l d e r : Token} {i : Option LoopInit} {t u : Option Phrase}
    {s : Statement} {is ts us ss rest : List Token} (hlp : l.kind = .lparen)
    (hi : Spells (.opt (i.map .init)) is) (hd : d.kind = .semicolon)
    (ht : Spells (.opt (t.map (.phrase 1))) ts) (he : e.kind = .semicolon)
    (hu : Spells (.opt (u.map (.phrase 1))) us) (hr : r.kind = .rparen)
    (hs : Spells (.stmt s) ss) (hl : is.length + ts.length + us.length + ss.length ≤ g.fuel)
    (hend : s.EndsBefore rest) :
    g.loop k (l :: (is ++ d :: (ts ++ e :: (us ++ r :: (ss ++ rest))))) =
      .ok (.for k i t u s, rest) := by
  have hcount := countingLoop_run hg (k := k) (i := i) hd ht he hu hr hs (by omega) hend
  have hsemi : Ends 1 (d :: (ts ++ e :: (us ++ r :: (ss ++ rest)))) :=
    ends_cons (by rw [hd]; decide)
  cases i with
  | none =>
    cases hi
    simp [loop, bind_run, token_run hlp, hd, hcount]
  | some i =>
    cases hi with
    | optSome hi =>
      cases hi with
      | @initDecl c ds _ hc h =>
        simp only [List.length_cons] at hl
        have hds := declarators_run hg h (by omega) hsemi (by simp [hd])
        obtain ⟨n, ws, rfl, hn, hof⟩ := declarators_start h
        have hof : next (ws ++ d :: (ts ++ e :: (us ++ r :: (ss ++ rest)))) ≠
            some (.keyword .of) := by
          rcases hof with rfl | ⟨k, hk, hk'⟩
          · simp [hd]
          · rw [next_append (by rintro rfl; cases hk), hk]
            exact fun h => hk' (Option.some.inj h)
        simp only [List.cons_append, bind_run, token_run hn] at hds
        have hloop := loop_declares hlp hc hn hof (g := g) (k := k)
        rw [List.cons_append, List.cons_append, hloop, bind_of_ok hds, hcount]
      | initPhrase hp =>
        have hphrase := hg.phrase hp (by omega) hsemi
        obtain ⟨w, ws, rfl, hw⟩ := hp.starts rfl
        rw [loop_phrase hlp rfl hw, bind_of_ok hphrase, hcount]

theorem finalizer_run {f : Option Block} {ts rest : List Token}
    (h : Spells (.opt (f.map .finalizer)) ts) (hl : ts.length ≤ g.fuel)
    (hr : next rest ≠ some (.keyword .finally)) :
    Parser.optional (.keyword .finally) (anyToken *> g.block) (ts ++ rest) = .ok (f, rest) := by
  cases f with
  | none =>
    cases h
    exact optional_of_not_next hr
  | some b =>
    cases h with
    | optSome h =>
      cases h with
      | finalizer hk hb =>
        simp only [List.length_cons] at hl
        refine optional_of_next (by simp [hk]) ?_
        simp [seqRight_run, bind_run, block_run hg rest hb (by omega)]

/-! ## Statements -/

theorem statementStep_run {s : Statement} {ts rest : List Token} (h : Spells (.stmt s) ts)
    (hl : ts.length ≤ g.fuel + 1) (hend : s.EndsBefore rest) :
    g.statementStep (ts ++ rest) = .ok (s, rest) := by
  cases h with
  | @declaration k ds e ts hk h he =>
    simp only [List.length_append, List.length_cons] at hl
    have hr : Ends 1 (e :: rest) := ends_cons (by rw [he]; decide)
    have hds := declarators_run hg h (by omega) hr (by simp [he])
    simp only [List.cons_append, List.append_assoc, List.nil_append]
    rw [statementStep_declares hk, bind_of_ok hds]
    simp [bind_run, token_run he]
  | @expression p e ts h he =>
    simp only [List.length_append, List.length_cons] at hl
    have hr : Ends 1 (e :: rest) := ends_cons (by rw [he]; decide)
    have hp := phraseStep_run hg h (by omega) hr
    obtain ⟨t, us, rfl, ht⟩ := h.starts rfl
    simp only [List.cons_append, List.append_assoc, List.nil_append] at hp ⊢
    rw [statementStep_phrase rfl ht, bind_of_ok hp]
    simp [bind_run, token_run he]
  | @«return» k p e ts hk h he =>
    simp only [List.length_append, List.length_cons] at hl
    have hv := option_phrase_run hg (k := .terminator) rfl (e :: rest) (congrArg some he)
      (ends_cons (by rw [he]; decide)) h (by omega)
    simp [statementStep, bind_run, hk, hv, token_run he]
  | @«if» k t s a ts ss as hk ht hs hn ha =>
    simp only [List.length_append, List.length_cons] at hl
    have htest := condition_run hg (ss ++ (as ++ rest)) ht (by omega)
    have halt : Parser.optional (.keyword .else) (anyToken *> g.statement) (as ++ rest) =
        .ok (a, rest) ∧ s.EndsBefore (as ++ rest) := by
      cases a with
      | none =>
        cases ha
        exact ⟨optional_of_not_next (hend.not_else rfl), hend.of_body fun _ => rfl⟩
      | some a =>
        cases ha with
        | optSome ha =>
          cases ha with
          | alternate hk ha =>
            simp only [List.length_cons] at hl
            have ha := hg.statement ha (by omega) (hend.of_body id)
            refine ⟨optional_of_next (by simp [hk]) ?_, ?_⟩
            · simp [seqRight_run, bind_run, ha]
            · exact ⟨fun ho => (by rw [hn rfl] at ho; cases ho), by simp [hk], by simp [hk]⟩
    have hcons := hg.statement hs (by omega) halt.2
    simp [statementStep, bind_run, hk, htest, hcons, halt.1]
  | @«while» k t s ts ss hk ht hs =>
    simp only [List.length_append, List.length_cons] at hl
    have htest := condition_run hg (ss ++ rest) ht (by omega)
    have hbody := hg.statement hs (by omega) (hend.of_body id)
    simp [statementStep, bind_run, hk, htest, hbody]
  | @«for» k l i d t e u r s is ts us ss hk hlp hi hd ht he hu hr hs =>
    simp only [List.length_append, List.length_cons] at hl
    have hloop := loop_run hg (k := k.loc) hlp hi hd ht he hu hr hs (by omega) (hend.of_body id)
    simp [statementStep, bind_run, hk, hloop]
  | @forOf k l d n o p r s ts ss hk hlp hd hn ho hp hr hs =>
    simp only [List.length_append, List.length_cons] at hl
    have hrp : Ends 1 (r :: (ss ++ rest)) := ends_cons (by rw [hr]; decide)
    have hiter := hg.phrase hp (by omega) hrp
    have hbody := hg.statement hs (by omega) (hend.of_body id)
    have hloop : g.loop k.loc (l :: d :: n :: o :: (ts ++ r :: (ss ++ rest))) =
        .ok (.forOf k.loc d n p s, rest) := by
      rcases hdk : d.kind with _ | _ | _ | j | _ <;> rw [hdk] at hd <;>
        first | cases hd | skip
      cases j <;> cases hd
      all_goals
        simp [loop, bind_run, token_run hlp, hdk, token_run hn, ho, token_run ho, hiter,
          token_run hr, hbody]
    simp [statementStep, bind_run, hk, hloop]
  | @functionDecl k n params b ps bs hk hn hp hb =>
    simp only [List.length_append, List.length_cons] at hl
    have hparams := params_run (bs ++ rest) hp (g := g) (by omega)
    have hbody := block_run hg rest hb (by omega)
    simp [statementStep, bind_run, hk, token_run hn, hparams, hbody]
  | blockStmt hb =>
    obtain ⟨t, us, rfl, ht⟩ := hb.starts rfl
    have ht : t.kind = .blockOpen := ht
    have hbody := block_run hg rest hb hl
    rw [List.cons_append] at hbody
    simp [statementStep, bind_run, ht, hbody]
  | «break» hk he | «continue» hk he => simp [statementStep, bind_run, hk, token_run he]
  | @throw k p e ts hk h he =>
    simp only [List.length_append, List.length_cons] at hl
    have hr : Ends 1 (e :: rest) := ends_cons (by rw [he]; decide)
    have hp := hg.phrase h (by omega) hr
    simp [statementStep, bind_run, hk, hp, token_run he]
  | @«try» k b h f bs hs fs hk hb hh hf =>
    simp only [List.length_append, List.length_cons] at hl
    have hbody := block_run hg (hs ++ (fs ++ rest)) hb (by omega)
    have hfin := finalizer_run hg hf (by omega) hend.not_finally
    have hhandler : Parser.optional (.keyword .catch) g.handler (hs ++ (fs ++ rest)) =
        .ok (h, fs ++ rest) := by
      cases h with
      | none =>
        cases hh
        exact optional_of_not_next (by simpa using finalizer_next hf hend.not_catch)
      | some h =>
        cases hh with
        | optSome hh =>
          obtain ⟨t, us, rfl, ht⟩ := hh.starts rfl
          exact optional_of_next (congrArg some ht) (handler_run hg _ hh (by omega))
    simp [statementStep, bind_run, hk, hbody, hhandler, hfin]

end

theorem level_fuel (n : Nat) : (level n).fuel = n := by cases n <;> rfl

/-- The grammar unfolded `n` times reads what is spelled with at most `n` tokens. -/
theorem complete_level (n : Nat) : (level n).Complete := by
  induction n with
  | zero =>
    have hzero : ∀ {f : Form} {ts : List Token}, Spells f ts → f.isSolid → ¬ ts.length ≤ 0 := by
      intro f ts h hf hl
      obtain ⟨t, us, rfl, -⟩ := h.starts hf
      simp at hl
    exact ⟨fun h hl => absurd hl (hzero h rfl), fun h hl => absurd hl (hzero h rfl),
      fun h hl => absurd hl (hzero h rfl)⟩
  | succ n ih =>
    refine ⟨fun h hl => ?_, fun h hl => ?_, fun h hl => ?_⟩
    · exact phraseStep_run ih h (by rw [level_fuel]; exact hl)
    · exact operandStep_run ih h (by rw [level_fuel]; exact hl)
    · exact statementStep_run ih h (by rw [level_fuel]; exact hl)

theorem statements_level {ss : List Statement} {ts : List Token} (h : Spells (.stmts ss) ts)
    {n : Nat} (hn : ts.length ≤ n) : (level n).statements n ts = .ok (ss, []) := by
  have hrun := statements_run (complete_level n) h (by rwa [level_fuel]) (n := n) hn
    (.inl next_nil)
  rwa [List.append_nil] at hrun

end Grammar

/-- Every script that the grammar spells is read, as what is spelled. -/
theorem parseTokens_of_spells {ss : List Statement} {ts : List Token}
    (h : Spells (.stmts ss) ts) : parseTokens ts = .ok ss := by
  simp [parseTokens, Grammar.statements_level h (Nat.le_refl _)]

end AutoAwait
