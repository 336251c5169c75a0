import AutoAwait.Proofs.Grammar.Located
import AutoAwait.Proofs.Script.Append

/-!
# Places in the tree of a script

Every node of a script but the script itself stands at one of its tokens, and the nodes stand in the
order in which the source reads.

* `Layout.places_run` says that the terminator step moves no token, `pairwise_tokensFrom` that the
  tokens of a text come one after the other;
* `parseScript_locations` is the main statement.
-/

namespace AutoAwait

/-! ## Places of tokens -/

namespace Layout

variable {s : Layout} {t : Token}

theorem rekind_loc (s : Layout) (t : Token) : (s.rekind t).loc = t.loc := by
  unfold rekind
  split
  · rfl
  split
  · rfl
  split <;> rfl

theorem places_place (s : Layout) (t : Token) : (places (s.place t).1).Sublist [t.loc] := by
  have hone : (places [s.rekind t]).Sublist [t.loc] := by
    rw [← s.rekind_loc t]
    exact List.filter_sublist.map _
  obtain ⟨us, hus, hi⟩ := s.place_emits t
  rw [hus, places_append]
  rcases hi with rfl | ⟨rfl, -⟩
  · exact hone
  · exact hone

theorem places_step (s : Layout) (t : Token) : (places (s.step t).1).Sublist [t.loc] := by
  by_cases hn : t.kind = .newline
  · rw [step, hn]
    exact List.nil_sublist _
  by_cases hs : t.kind = .semicolon
  · rw [step, hs]
    simp only
    split
    · exact List.filter_sublist.map _
    · exact List.nil_sublist _
  · rw [step_of_ne hn hs]
    split
    · split
      · exact places_place _ t
      · exact places_place _ t
    · exact places_place _ t

/-- The places of the emitted tokens are among those of the tokens that are read, in order. -/
theorem places_run (s : Layout) (ts : List Token) :
    (places (s.run ts).1).Sublist (ts.map (·.loc)) := by
  induction ts generalizing s with
  | nil => exact .slnil
  | cons t ts ih =>
    rw [run, places_append]
    exact (places_step s t).append (ih _)

end Layout

theorem Strays.places {us : List Token} (h : Strays us) : AutoAwait.places us = [] := by
  obtain rfl | ⟨e, rfl, he⟩ := h
  · rfl
  · simp [AutoAwait.places, he]

theorem Position.le_advance (p : Position) (cs : List Char) : p ≤ p.advance cs := by
  induction cs generalizing p with
  | nil => exact le_rfl
  | cons c cs ih =>
    refine le_trans ?_ (ih (p.next c))
    unfold next
    split
    · exact .inl (Nat.lt_succ_self _)
    · exact .inr ⟨rfl, Nat.le_succ _⟩

/-- The tokens of a text come one after the other, from where it begins. -/
theorem pairwise_tokensFrom (p : Position) (ls : List Lexeme) :
    (∀ q ∈ (tokensFrom p ls).map (·.loc), p ≤ q) ∧
      ((tokensFrom p ls).map (·.loc)).Pairwise (· ≤ ·) := by
  induction ls generalizing p with
  | nil => exact ⟨nofun, .nil⟩
  | cons l ls ih =>
    obtain ⟨hle, hs⟩ := ih (p.advance l.text)
    have hle : ∀ q ∈ (tokensFrom (p.advance l.text) ls).map (·.loc), p ≤ q :=
      fun q hq => (p.le_advance l.text).trans (hle q hq)
    rw [tokensFrom_cons]
    cases l.kind with
    | token k => exact ⟨List.forall_mem_cons.2 ⟨le_rfl, hle⟩, .cons hle hs⟩
    | _ => exact ⟨hle, hs⟩

theorem places_scriptTokens {source : String} (h : (readTokens source.toList).stop = none) :
    (places (scriptTokens source).tokens).Sublist
      ((readTokens source.toList).tokens.map (·.loc)) := by
  rw [scriptTokens_tokens h, places_append, (Layout.finish_strays _).places, List.append_nil]
  exact Layout.places_run _ _

/-- **Every node stands at a token.** In the tree of a script every node below the root stands where
a token of the script stands. In the order in which the source reads, without the dotted names after
`new`, no place comes before an earlier one, and no node stands after a part of it. -/
theorem parseScript_locations [CharNames] {source : String} {tree : Node}
    (h : parseScript source = .ok tree) :
    (tree.kind = .program ∧ ∀ n ∈ tree.shape.parts.flatMap Node.nodes,
        ∃ t ∈ (readTokens source.toList).tokens, t.loc = n.loc) ∧
      (tree.ordered.map (·.loc)).Pairwise (· ≤ ·) ∧
        ∀ n ∈ tree.ordered, ∀ k ∈ n.nodes, n.loc ≤ k.loc := by
  obtain ⟨ss, ns, hstop, hspells, hns, rfl⟩ := parseScript_ok.1 h
  have hplaced := hspells.placed ns hns
  have hsub := places_scriptTokens hstop
  obtain ⟨hstart, hsorted⟩ := pairwise_tokensFrom .start (lexemes source.toList).1
  have hparts : (Shape.program ns).parts = ns := by simp [Shape.parts, Shape.kids]
  have hordered : (Node.untyped .start (.program ns)).ordered =
      .untyped .start (.program ns) :: ns.flatMap Node.ordered := by
    rw [Node.ordered_eq]
    exact congrArg (fun ks => _ :: ks.flatMap Node.ordered) hparts
  have hnodes : (Node.untyped .start (.program ns)).nodes =
      .untyped .start (.program ns) :: ns.flatMap Node.nodes := by
    rw [Node.nodes_eq]
    exact congrArg (fun ks => _ :: ks.flatMap Node.nodes) hparts
  have hpairs := hsorted.sublist hsub
  refine ⟨⟨rfl, fun n hn => ?_⟩, ?_, ?_⟩
  · rw [show (Node.untyped .start (.program ns)).shape.parts = ns from hparts] at hn
    simpa using hsub.subset (hplaced.mem n hn)
  · rw [hordered]
    refine .cons (fun q hq => ?_) (hplaced.along.pairwise hpairs)
    exact hstart q (hsub.subset (hplaced.along.mem q hq))
  · rw [hordered]
    refine List.forall_mem_cons.2 ⟨fun k hk => ?_, hplaced.before hpairs⟩
    rw [hnodes] at hk
    rcases List.mem_cons.1 hk with rfl | hk
    · exact le_rfl
    · exact hstart _ (hsub.subset (hplaced.mem k hk))

/-- A call with parentheses in parentheses before it, and `new` with a dotted name in its arguments:
the call stands at the outer parenthesis, its callee at the inner one. -/
theorem parseScript_locations_of_parens :
    ∃ tree, parseScript "x = ((a).b)(new c.d(1))" = .ok tree ∧
      tree.ordered.map (·.loc) = [⟨1, 1⟩, ⟨1, 1⟩, ⟨1, 1⟩, ⟨1, 1⟩, ⟨1, 5⟩, ⟨1, 6⟩, ⟨1, 7⟩, ⟨1, 10⟩,
        ⟨1, 13⟩, ⟨1, 21⟩] ∧
      (∀ n ∈ tree.shape.parts.flatMap Node.nodes,
        ∃ t ∈ (readTokens "x = ((a).b)(new c.d(1))".toList).tokens, t.loc = n.loc) ∧
      (tree.ordered.map (·.loc)).Pairwise (· ≤ ·) ∧
      ∀ n ∈ tree.ordered, ∀ k ∈ n.nodes, n.loc ≤ k.loc := by
  obtain ⟨tree, hparse⟩ :=
    exists_ok_of_isOk (show (parseScript "x = ((a).b)(new c.d(1))").isOk by decide +kernel)
  have hlocs : (parseScript "x = ((a).b)(new c.d(1))").toOption.any fun tree =>
      tree.ordered.map (·.loc) == [⟨1, 1⟩, ⟨1, 1⟩, ⟨1, 1⟩, ⟨1, 1⟩, ⟨1, 5⟩, ⟨1, 6⟩, ⟨1, 7⟩, ⟨1, 10⟩,
        ⟨1, 13⟩, ⟨1, 21⟩] := by
    decide +kernel
  rw [hparse] at hlocs
  obtain ⟨⟨-, htokens⟩, hrest⟩ := parseScript_locations hparse
  exact ⟨tree, hparse, by simpa [Except.toOption] using hlocs, htokens, hrest⟩

end AutoAwait
