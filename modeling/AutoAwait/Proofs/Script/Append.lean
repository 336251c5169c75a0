import AutoAwait.Proofs.Grammar.Balance
import AutoAwait.Proofs.Grammar.Complete
import AutoAwait.Proofs.Grammar.Node
import AutoAwait.Proofs.Grammar.Sound
import AutoAwait.Script

/-!
# Reading two scripts as one

Two scripts that can each be read are read alike when they stand in one text, with a line between
them that holds a semicolon: where the first one ends, no bracket is open, no comment has begun and
no statement goes on. The statements of the second one are only some lines further down.

* `Layout.run_seam` is what the terminator step makes of the line between the scripts;
* `parseScript_append` is the main statement.
-/

namespace AutoAwait

variable {φ : Position → Position}

/-! ## The line between two scripts -/

namespace Layout

variable {s : Layout}

/-- A semicolon on a line of its own, outside all brackets, is a terminator, and what follows it is
laid out like the beginning of a text. -/
theorem run_seam (h : s.opened = []) (p q r : Position) (ts : List Token) :
    ∃ e : Token, e.kind = .terminator ∧
      (s.run (⟨.newline, "\n", p⟩ :: ⟨.semicolon, ";", q⟩ :: ⟨.newline, "\n", r⟩ ::
        ts.map (·.move φ))).1 = e :: (start.run ts).1.map (·.move φ) ∧
      (s.run (⟨.newline, "\n", p⟩ :: ⟨.semicolon, ";", q⟩ :: ⟨.newline, "\n", r⟩ ::
        ts.map (·.move φ))).2.finish = (start.run ts).2.finish.map (·.move φ) := by
  obtain ⟨u, hu, hopened⟩ : ∃ u, s.step ⟨.newline, "\n", p⟩ = ([], u) ∧ u.opened = [] := by
    by_cases hn : s.newlineEnds
    · exact ⟨{ s with newline := some ⟨.newline, "\n", p⟩ }, by simp [step, hn], h⟩
    · exact ⟨s, by simp [step, hn], h⟩
  have hsemi : u.step ⟨.semicolon, ";", q⟩ =
      ([terminatorAt ⟨.semicolon, ";", q⟩], ({ u with newline := none } : Layout).terminate) := by
    simp [step, inParens, hopened]
  have hnl : ({ u with newline := none } : Layout).terminate.step ⟨.newline, "\n", r⟩ =
      ([], ({ u with newline := none } : Layout).terminate) := rfl
  have ha : Alike φ start ({ u with newline := none } : Layout).terminate :=
    alike_start φ hopened rfl
  obtain ⟨hrun, ha⟩ := ha.run ts
  refine ⟨terminatorAt ⟨.semicolon, ";", q⟩, rfl, ?_, ?_⟩
  · rw [run, run, run, hu, hsemi, hnl, hrun]
    rfl
  · rw [run, run, run, hu, hsemi, hnl]
    exact ha.finish

end Layout

/-! ## Statements after statements -/

theorem Spells.append {ss ss' : List Statement} {ts us : List Token} (h : Spells (.stmts ss) ts)
    (h' : Spells (.stmts ss') us) : Spells (.stmts (ss ++ ss')) (ts ++ us) := by
  generalize hf : Form.stmts ss = f at h
  induction h generalizing ss <;> cases hf
  case stmtsNil => exact h'
  case stray ht _ ih => exact .stray ht (ih rfl)
  case stmts hs _ _ ih =>
    rw [List.append_assoc]
    exact .stmts hs (ih rfl)

theorem statementNodes_append [CharNames] {ss ss' : List Statement} {ns ns' : List Node}
    (h : statementNodes ss = .ok ns) (h' : statementNodes ss' = .ok ns') :
    statementNodes (ss ++ ss') = .ok (ns ++ ns') := by
  induction ss generalizing ns with
  | nil =>
    cases h
    exact h'
  | cons s ss ih =>
    rw [statementNodes] at h
    rw [List.cons_append, statementNodes]
    cases hs : s.toNode with
    | error e => rw [hs] at h; cases h
    | ok n =>
      rw [hs] at h
      cases hss : statementNodes ss with
      | error e => rw [hss] at h; cases h
      | ok ms =>
        rw [hss] at h
        cases h
        rw [ih hss]
        rfl

theorem moved_map (ts : List Token) : List.Forall₂ (Moved φ) ts (ts.map (·.move φ)) := by
  rw [List.forall₂_map_right_iff, List.forall₂_same]
  exact fun t _ => ⟨rfl, fun _ => rfl⟩

/-- Statements whose tokens may end with a terminator, where another one is put. -/
theorem Spells.terminate [CharNames] {ss : List Statement} {ns : List Node} {ts us : List Token}
    {e : Token}
    (h : Spells (.stmts ss) (ts ++ us)) (hn : statementNodes ss = .ok ns)
    (hu : Strays us) (he : e.kind = .terminator) :
    ∃ ss', Spells (.stmts ss') (ts ++ [e]) ∧ statementNodes ss' = .ok ns := by
  obtain rfl | ⟨e', rfl, he'⟩ := hu
  · refine ⟨ss, ?_, hn⟩
    rw [List.append_nil] at h
    simpa using h.append (.stray he .stmtsNil)
  · have hm : List.Forall₂ (Moved id) (ts ++ [e']) (ts ++ [e]) := by
      refine List.rel_append (List.forall₂_same.2 fun t _ => ⟨rfl, fun _ => rfl⟩) ?_
      exact .cons ⟨he.trans he'.symm, fun hne => absurd he' hne⟩ .nil
    have hns := (statementNodes_move (φ := id) ss).ok hn
    rw [moveStatements_eq, show Node.move id = id from funext Node.move_id, List.map_id] at hns
    exact ⟨_, h.move hm, hns⟩

/-! ## Scripts -/

/-- What is read is what the tokens spell. -/
theorem parseStatements_ok {stream : TokenStream} {ss : List Statement} :
    parseStatements stream = .ok ss ↔
      stream.stop = none ∧ Spells (.stmts ss) stream.tokens := by
  constructor
  · intro h
    unfold parseStatements at h
    split at h <;> cases h
    exact ⟨‹_›, spells_of_parseTokens ‹_›⟩
  · rintro ⟨hstop, hs⟩
    rw [parseStatements, hstop, parseTokens_of_spells hs]

/-- What is reported where the tokens of a script do not fit. -/
theorem parseStatements_misfit {stream : TokenStream} {e : ParseError}
    (h : parseStatements stream = .error e) : (∃ c p, e = .unexpectedCharacter c p) ∨
      ∃ rest, parseTokens stream.tokens = .error rest ∧ e = misfit stream.tokens rest ∧
        (rest = [] → stream.stop = none) := by
  unfold parseStatements at h
  split at h
  · cases h
  · cases h
    exact .inl ⟨_, _, rfl⟩
  · cases h
    exact .inl ⟨_, _, rfl⟩
  · next rest hread hgoes =>
    cases h
    refine .inr ⟨rest, hread, rfl, fun hnil => ?_⟩
    cases hstop : stream.stop with
    | none => rfl
    | some s => exact (hgoes s.1 s.2 hstop hnil).elim

/-- A script that can be read: its tokens are spelled by statements, and a tree is made of these. -/
theorem parseScript_ok [CharNames] {source : String} {tree : Node} : parseScript source = .ok tree ↔
    ∃ ss ns, (readTokens source.toList).stop = none ∧
      Spells (.stmts ss) (scriptTokens source).tokens ∧ statementNodes ss = .ok ns ∧
        tree = .untyped .start (.program ns) := by
  constructor
  · intro h
    rw [parseScript] at h
    cases hs : parseStatements (scriptTokens source) with
    | error e => rw [hs] at h; cases h
    | ok ss =>
      obtain ⟨hstop, hspells⟩ := parseStatements_ok.1 hs
      have htree : Node.ofStatements ss = .ok tree := by rw [hs] at h; exact h
      rw [Node.ofStatements] at htree
      cases hns : statementNodes ss with
      | error e => rw [hns] at htree; cases htree
      | ok ns =>
        rw [hns] at htree
        cases htree
        exact ⟨ss, ns, hstop, hspells, hns, rfl⟩
  · rintro ⟨ss, ns, hstop, hs, hns, rfl⟩
    have hread : parseStatements (scriptTokens source) = .ok ss := parseStatements_ok.2 ⟨hstop, hs⟩
    rw [parseScript, hread]
    show Node.ofStatements ss = _
    rw [Node.ofStatements, hns]
    rfl

theorem scriptTokens_tokens {source : String} (h : (readTokens source.toList).stop = none) :
    (scriptTokens source).tokens = (Layout.start.run (readTokens source.toList).tokens).1 ++
      (Layout.start.run (readTokens source.toList).tokens).2.finish := by
  rw [scriptTokens, layOut, h]
  rfl

/-- **Two scripts in one text.** With a line between them that holds a semicolon, two scripts that
can be read are read as the statements of the first one followed by those of the second one, which
are some lines further down. -/
theorem parseScript_append [CharNames] {a b : String} {ta tb : Node} (ha : parseScript a = .ok ta)
    (hb : parseScript b = .ok tb) : ∃ ns ms n, ta = .untyped .start (.program ns) ∧
      tb = .untyped .start (.program ms) ∧
        parseScript (a ++ "\n;\n" ++ b) =
          .ok (.untyped .start (.program (ns ++ ms.map (Node.move (.down n))))) := by
  obtain ⟨ss, ns, hstop, hs, hns, rfl⟩ := parseScript_ok.1 ha
  obtain ⟨ss', ms, hstop', hs', hms, rfl⟩ := parseScript_ok.1 hb
  rw [scriptTokens_tokens hstop] at hs
  rw [scriptTokens_tokens hstop'] at hs'
  generalize hr : Layout.start.run (readTokens a.toList).tokens = r at hs
  -- at the end of the first script no bracket is open
  have hopened : r.2.opened = [] := by
    have hd := hs.balanced.depth?_eq 0
    have hf : ∀ n, depth? n r.2.finish = some n := by
      intro n
      obtain hf | ⟨e, hf, he⟩ := r.2.finish_strays
      · rw [hf]; rfl
      · rw [hf, depth?_cons, he]; rfl
    rw [depth?_append] at hd
    obtain ⟨m, hm, hd⟩ := Option.bind_eq_some_iff.1 hd
    obtain rfl := Option.some.inj ((hf m).symm.trans hd)
    subst hr
    exact List.length_eq_zero_iff.1 (Layout.run_depth (s := .start) hm)
  -- and no comment can begin at its last token
  have hchain : (readTokens a.toList).tokens.IsChain fun t t' => ¬ t.OpensComment t' := by
    refine Layout.isChain_of_run (s := .start) ?_
    rw [hr]
    exact (List.isChain_append.1 hs.balanced.isChain).1
  obtain ⟨p, q, r', n, htokens⟩ := readTokens_append hstop hchain b.toList
  have hlist : (a ++ "\n;\n" ++ b).toList = a.toList ++ '\n' :: ';' :: '\n' :: b.toList := by
    simp
  obtain ⟨e, he, hrun, hfinish⟩ :=
    Layout.run_seam (φ := .down n) hopened p q r' (readTokens b.toList).tokens
  obtain ⟨ss₁, hs₁, hns₁⟩ := hs.terminate hns r.2.finish_strays he
  have hs₂ := hs'.move (φ := .down n) (moved_map _)
  have hms₂ := (statementNodes_move (φ := .down n) ss').ok hms
  rw [moveStatements_eq] at hms₂
  have hstop₂ : (readTokens (a ++ "\n;\n" ++ b).toList).stop = none := by
    rw [hlist, htokens, hstop']
    rfl
  refine ⟨ns, ms, n, rfl, rfl, parseScript_ok.2
    ⟨_, _, hstop₂, ?_, statementNodes_append hns₁ hms₂, rfl⟩⟩
  have hspells := hs₁.append hs₂
  rw [scriptTokens_tokens hstop₂, hlist, htokens, Layout.run_append, hr, hrun, hfinish]
  simpa using hspells

end AutoAwait
