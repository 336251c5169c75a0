import AutoAwait.Proofs.Printing.Levels
import AutoAwait.Proofs.Script.Roundtrip

/-!
# Scripts at deeper levels

Trees that are read or compiled are printed with no line breaks but the printer's own, so each of
their statements and expressions is the same text at every level, with other blanks after the line
breaks.

* `Fits.of_mem` says that what is in a tree that can be read can be read in some role;
* `Fits.texts` says that its names, literals and operators are on one line each;
* `ReadAlike` says of two texts that they are the same tokens;
* `printed_deeper` is the main statement.
-/

namespace AutoAwait

open Node

/-- Is this the kind of a statement? -/
def NodeKind.isStatement : NodeKind → Bool
  | .block | .functionDecl | .expression | .declaration | .return | .if | .while | .for | .forOf
  | .break | .continue | .throw | .try => true
  | _ => false

namespace Fits

variable {n m : Node} {r : Role}

/-- The parts of what can be read can be read. -/
theorem parts [CharNames] (h : Fits r n) : ∀ p ∈ n.shape.parts, ∃ r', Fits r' p := by
  induction h with
  | pathName _ ih | nameKey _ ih | ref _ ih | line _ ih | declared _ ih | block _ ih => exact ih
  | shorthand h =>
    exact List.forall_mem_cons.2 ⟨⟨_, .name h⟩, List.forall_mem_singleton.2 ⟨_, .name h⟩⟩
  | forOf hk hi hr hb =>
    refine List.forall_mem_cons.2 ⟨⟨.declaration, .declaration hk (List.cons_ne_nil _ _)
      (List.forall_mem_singleton.2 (.declarator hi ?_))⟩,
      List.forall_mem_cons.2 ⟨⟨_, hr⟩, List.forall_mem_singleton.2 ⟨_, hb⟩⟩⟩
    rintro _ ⟨⟩
  | _ =>
    intro p hp
    simp only [Shape.parts, Shape.kids, List.map_append, Shape.map_snd_many, Shape.map_snd_opt,
      Shape.map_snd_one, List.mem_append, List.mem_singleton, Option.mem_toList, ← Option.mem_def,
      List.map_nil] at hp
    grind

/-- What is in a tree that can be read can be read. -/
theorem of_mem [CharNames] (h : Fits r n) (hm : m ∈ n.nodes) : ∃ r', Fits r' m := by
  induction n using induction generalizing r with
  | step n ih =>
    rw [nodes_eq, List.mem_cons, List.mem_flatMap] at hm
    obtain rfl | ⟨p, hp, hm⟩ := hm
    · exact ⟨r, h⟩
    · obtain ⟨r', hr'⟩ := h.parts p hp
      exact ih p hp hr' hm

/-- What can be read has its names, literals and operators on one line each. -/
theorem texts [CharNames] (h : Fits r n) : ∀ w ∈ n.shape.texts, '\n' ∉ w.toList := by
  induction h with
  | pathName _ ih | nameKey _ ih | ref _ ih | line _ ih | declared _ ih | block _ ih => exact ih
  | name h | textKey h | numberKey h | number h | text h =>
    exact List.forall_mem_singleton.2 (h.not_mem_newline (by decide))
  | update ho => exact List.forall_mem_singleton.2 (ho.not_mem_newline (by decide))
  | attr h =>
    refine List.forall_mem_singleton.2 ?_
    obtain h | ⟨k, h⟩ := h
    · exact h.not_mem_newline (by decide)
    · exact h.not_mem_newline nofun
  | @constant _ _ _ _ k _ hv =>
    have hconst : ∀ w ∈ (Token.toConstant ⟨.keyword k, "", .start⟩).shape.texts,
        '\n' ∉ w.toList := by
      cases k <;> decide
    rwa [hv] at hconst
  | assignment ho hk | unary ho hk =>
    exact List.forall_mem_singleton.2 (ho.not_mem_newline (by rintro rfl; cases hk))
  | binary ho hk => exact List.forall_mem_singleton.2 (ho.not_mem_newline (by rintro rfl; cases hk))
  | logical ho hk =>
    refine List.forall_mem_singleton.2 (ho.not_mem_newline ?_)
    rintro rfl
    rcases hk with hk | hk <;> cases hk
  | @declaration _ _ k =>
    exact List.forall_mem_singleton.2 ((isToken_keyword k).not_mem_newline nofun)
  | _ => exact List.forall_mem_nil _

/-- What is printed as an expression is read token by token. -/
theorem firm_expr [CharNames] (h : Fits r n) (hk : n.kind.isExpression) (level : Nat) :
    Doc.Firm (n.expr level) := by
  have hrole : r = .expr ∨ r = .name ∨ r = .attr ∨ r = .path ∨ r = .key := by
    induction h with
    | line _ ih | declared _ ih | block _ ih => simpa using ih hk
    | _ => first | (simp; done) | cases hk
  obtain rfl | rfl | rfl | rfl | rfl := hrole <;> exact h.firm level

/-- What is printed as a statement is read token by token. -/
theorem firm_stmt [CharNames] (h : Fits r n) (hk : n.kind.isStatement) (level : Nat) :
    Doc.Firm (n.stmt level) := by
  have hrole : r = .body ∨ r = .declaration ∨ r = .line ∨ ∃ opened, r = .stmt opened := by
    induction h with
    | pathName _ ih | nameKey _ ih | ref _ ih => simpa using ih hk
    | _ => first | (simp; done) | cases hk
  obtain rfl | rfl | rfl | ⟨opened, rfl⟩ := hrole
  · exact (Fits.block h).firm level
  · exact (Fits.declared h).firm level
  · exact h.firm level
  · exact h.firm level

end Fits

/-- Are two texts read to their ends, as the same tokens at other places? -/
def ReadAlike (s s' : String) : Prop :=
  (readTokens s.toList).stop = none ∧ (readTokens s'.toList).stop = none ∧
    (readTokens s.toList).tokens.map Token.word = (readTokens s'.toList).tokens.map Token.word

theorem Doc.Deeper.readAlike {k : Nat} {d e : Doc} (h : Deeper k d e) (hd : d.Firm) (he : e.Firm) :
    ReadAlike e.render d.render := by
  have hd := hd [] breaks_nil
  have he := he [] breaks_nil
  exact ⟨(readTokens_render he).1, (readTokens_render hd).1, h.tokensAt hd he _ _⟩

/-- What is in a tree that is read or compiled can be read, or is the whole tree. -/
theorem fits_or_program [CharNames] {source : String} {tree m : Node}
    (h : parseScript source = .ok tree ∨
    ∃ (s : ProgramScope) (t : SymbolTable), (s.compile t source).result = .ok tree)
    (hm : m ∈ tree.nodes) : m.kind = .program ∨ ∃ r, Fits r m := by
  obtain ⟨ns, hshape, hfits⟩ : ∃ ns, tree.shape = .program ns ∧ ∀ n ∈ ns, Fits .line n := by
    obtain h | ⟨s, t, h⟩ := h
    · obtain ⟨ns, rfl, hfits⟩ := parseScript_fits h
      exact ⟨ns, rfl, hfits⟩
    · exact ProgramScope.compile_fits h
  rw [nodes_eq, hshape, List.mem_cons, List.mem_flatMap] at hm
  obtain rfl | ⟨n, hn, hm⟩ := hm
  · exact .inl (by rw [kind, hshape]; rfl)
  · exact .inr ((hfits n (by simpa [Shape.parts, Shape.kids] using hn)).of_mem hm)

/-- **Deeper levels.** A statement or an expression of a tree that is read or compiled is printed
`k` levels deeper with `2 * k` blanks more after each line break and is otherwise the same, and is
read as the same tokens. -/
theorem printed_deeper [CharNames] {source : String} {tree m : Node}
    (h : parseScript source = .ok tree ∨
    ∃ (s : ProgramScope) (t : SymbolTable), (s.compile t source).result = .ok tree)
    (hm : m ∈ tree.nodes) (k least : Nat) :
    (formatStatement m k = indent k (formatStatement m 0) ∧
      formatExpression m k least = indent k (formatExpression m 0 least)) ∧
    (m.kind.isStatement → ReadAlike (formatStatement m k) (formatStatement m 0)) ∧
    (m.kind.isExpression → ReadAlike (formatExpression m k least) (formatExpression m 0 least)) := by
  have honeLine : m.OneLine := by
    intro n hn
    obtain hn | ⟨r, hn⟩ := fits_or_program h (mem_nodes_trans hm hn)
    · obtain ⟨loc, type, shape⟩ := n
      cases shape <;> first | exact List.forall_mem_nil _ | cases hn
    · exact hn.texts
  refine ⟨⟨honeLine.formatStatement_eq k, honeLine.formatExpression_eq k least⟩, fun hk => ?_,
    fun hk => ?_⟩
  · obtain hm | ⟨r, hm⟩ := fits_or_program h hm
    · rw [hm] at hk
      cases hk
    · exact (stmt_deeper 0 k m honeLine).readAlike (hm.firm_stmt hk 0) (hm.firm_stmt hk k)
  · obtain hm | ⟨r, hm⟩ := fits_or_program h hm
    · rw [hm] at hk
      cases hk
    · exact ((expr_deeper 0 k m honeLine).atLeast least).readAlike
        ((hm.firm_expr hk 0).atLeast least) ((hm.firm_expr hk k).atLeast least)

/-- A call whose argument is printed on several lines, at the top and two levels deeper. -/
theorem printed_deeper_of_call : ∃ tree m, parseScript "f(function () \x7b g() \x7d)" = .ok tree ∧
    m ∈ tree.nodes ∧ formatStatement m 0 = "f(function() \x7b\n  g();\n\x7d);" ∧
    formatStatement m 2 = indent 2 (formatStatement m 0) ∧
    ReadAlike (formatStatement m 2) (formatStatement m 0) := by
  obtain ⟨tree, h⟩ := exists_ok_of_isOk
    (show (parseScript "f(function () \x7b g() \x7d)").isOk by decide +kernel)
  have htext : (parseScript "f(function () \x7b g() \x7d)").toOption.any fun tree =>
      tree.nodes.any fun m => m.kind.isStatement &&
        formatStatement m 0 == "f(function() \x7b\n  g();\n\x7d);" := by
    decide +kernel
  rw [h] at htext
  obtain ⟨m, hm, hmtext⟩ := List.any_eq_true.1 htext
  obtain ⟨hk, hmtext⟩ := Bool.and_eq_true_iff.1 hmtext
  obtain ⟨⟨hdeeper, -⟩, hread, -⟩ := printed_deeper (.inl h) hm 2 0
  exact ⟨tree, m, h, hm, eq_of_beq hmtext, hdeeper, hread hk⟩

end AutoAwait
