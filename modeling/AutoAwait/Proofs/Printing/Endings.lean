import AutoAwait.Proofs.Grammar.Endings
import AutoAwait.Proofs.Printing.Nested

/-!
# The end of a printed statement

The text of a statement ends with the brace of a block or with a semicolon.

* `Doc.EndsAs` says so of pieces, `Fits.endsAs` that the tree tells which of the two it is.
-/

namespace AutoAwait

open Node

namespace Doc

/-- Do the pieces end with a brace that closes, or else with a semicolon after another word? -/
inductive EndsAs : Bool → Doc → Prop
  | brace {d} : EndsAs true (d ++ [.word "\x7d"])
  | semicolon {d k w} (hw : IsToken k w) (hn : k ≠ .newline) (hs : k ≠ .semicolon) :
      EndsAs false (d ++ [.word w] ++ [.word ";"])

variable {d e : Doc} {b : Bool}

namespace EndsAs

theorem append (d : Doc) (h : EndsAs b e) : EndsAs b (d ++ e) := by
  cases h with
  | brace =>
    rw [← List.append_assoc]
    exact .brace
  | semicolon hw hn hs =>
    rw [← List.append_assoc, ← List.append_assoc]
    exact .semicolon hw hn hs

theorem cons (p : Piece) (h : EndsAs b e) : EndsAs b (p :: e) := h.append [p]

theorem braces (level : Nat) (lines : List Doc) : EndsAs true (braces level lines) := by
  have hb : EndsAs true [.word "\x7d"] := .brace (d := [])
  unfold Doc.braces
  split
  · exact hb.cons _
  · exact (hb.cons _).append _

end EndsAs

/-- Outside all brackets there is no semicolon, so that the last word is none. -/
theorem Nested.getLast?_ne {lines : Bool} (h : Nested lines d) (hl : lines = false) :
    d.getLast? ≠ some (.word ";") := by
  have hlast : ∀ (p : Piece) {e : Doc}, p ≠ .word ";" → e.getLast? ≠ some (.word ";") →
      (p :: e).getLast? ≠ some (.word ";") := by
    intro p e hp he
    rw [List.getLast?_cons]
    cases hq : e.getLast? with
    | none => simpa using hp
    | some q => rwa [hq] at he
  induction h with
  | nil => nofun
  | space _ ih => exact hlast _ nofun (ih hl)
  | newline => cases hl
  | semicolon => cases hl
  | word hw hk _ ih =>
    refine hlast _ ?_ (ih hl)
    rintro ⟨⟩
    have hsemicolon : IsToken .semicolon ";" := isToken_symbol (by decide)
    rw [hw.unique hsemicolon] at hk
    cases hk
  | @enclosed _ l r d e hb _ _ _ ih =>
    have hr : Piece.word r ≠ .word ";" := by
      rintro ⟨⟩
      simp at hb
    rw [← List.cons_append, List.getLast?_append_cons]
    exact hlast _ hr (ih hl)

/-- A semicolon after something without lines. -/
theorem EndsAs.terminated (hn : Nested false d) (hw : EndsInWord d) :
    EndsAs false (d ++ [.word ";"]) := by
  obtain ⟨d, k, w, rfl, hw, hk⟩ := hw
  refine .semicolon hw hk ?_
  rintro rfl
  have hsymbols : ∀ s ∈ symbols, s.2 = .semicolon → s.1 = [';'] := by decide
  obtain rfl : w = ";" := String.toList_inj.1 (hsymbols _ (hw.mem_symbols rfl) rfl)
  exact hn.getLast?_ne rfl (List.getLast?_concat ..)

theorem EndsInWord.separate {sep : Doc} {ds : List Doc} (h : ∀ d ∈ ds, EndsInWord d) (hne : ds ≠ []) :
    EndsInWord (separate sep ds) := by
  induction ds with
  | nil => exact absurd rfl hne
  | cons d ds ih =>
    obtain ⟨hd, hds⟩ := List.forall_mem_cons.1 h
    cases ds with
    | nil => exact hd
    | cons e ds => exact (ih hds (List.cons_ne_nil _ _)).append _

end Doc

open Doc

namespace Fits

variable {n : Node} {level : Nat}

theorem ends_declarator [CharNames] (h : Fits .declarator n) : EndsInWord (n.declarator level) := by
  cases h with
  | @declarator _ _ i init hi he =>
    cases init with
    | none => exact endsInWord_token hi.isToken_nameText (by decide)
    | some e =>
      simp only [Node.declarator, infixed]
      exact (((he e rfl).ends (.inl rfl) level).atLeast _).append _

theorem ends_declaration [CharNames] (h : Fits .declaration n) :
    EndsInWord (n.declaration level) := by
  cases h with
  | @declaration _ _ _ ds _ hne hd =>
    simp only [Node.declaration, declarators_eq]
    have hds : EndsInWord (commas (ds.map (·.declarator level))) :=
      .separate (List.forall_mem_map.2 fun d h => (hd d h).ends_declarator) (by simpa using hne)
    exact (hds.cons _).cons _

theorem endsAs_body [CharNames] (h : Fits .body n) : EndsAs true (n.body level) := by
  cases h with
  | body => exact .braces _ _

theorem endsAs_handler [CharNames] (h : Fits .handler n) : EndsAs true (n.handler level) := by
  cases h with
  | @handler _ _ p b _ hb =>
    cases p with
    | none => exact (hb.endsAs_body.cons _).cons _
    | some p => exact (hb.endsAs_body.cons _).append _

/-- A word and an expression after it. -/
theorem endsAs_worded [CharNames] (h : Fits .expr n) (w : String) :
    EndsAs false (.word w :: .space :: n.expr level ++ [.word ";"]) := by
  have hn : Nested false (n.expr level) := h.nested level
  exact ((EndsAs.terminated hn (h.ends (.inl rfl) level)).cons _).cons _

theorem endsAs_word (k : Keyword) : EndsAs false [.word k.spelling, .word ";"] :=
  .semicolon (d := []) (isToken_keyword k) nofun nofun

/-- **How printed statements end.** -/
theorem endsAs [CharNames] {opened : Bool} (h : Fits (.stmt opened) n) :
    EndsAs n.endsInBlock (n.stmt level) := by
  generalize hr : Role.stmt opened = r at h
  induction h generalizing opened <;> cases hr
  case declared n h _ =>
    have hb : n.endsInBlock = false := by
      cases h
      rfl
    have hn : Nested false (n.declaration level) := h.nested level
    rw [h.stmt_declaration, hb]
    exact .terminated hn h.ends_declaration
  case expression loc type e h _ =>
    have hn : Nested false (e.expr level) := h.nested level
    simp only [Node.stmt, asStatement]
    split
    · exact .terminated hn.to_lines.parens (endsInWord_parens _)
    · exact .terminated hn (h.ends (.inl rfl) level)
  case «return» loc type a h _ =>
    cases a with
    | none =>
      simp only [Node.stmt]
      exact endsAs_word .return
    | some a =>
      simp only [Node.stmt]
      exact (h a rfl).endsAs_worded _
  case throw h _ =>
    simp only [Node.stmt]
    exact h.endsAs_worded _
  case «break» =>
    simp only [Node.stmt]
    exact endsAs_word .break
  case «continue» =>
    simp only [Node.stmt]
    exact endsAs_word .continue
  case «if» ih | «while» ih | forDecl ih | «for» ih | forOf ih =>
    simp only [Node.stmt]
    exact ((ih rfl).cons _).append _
  case ifElse ih =>
    simp only [Node.stmt]
    exact (ih rfl).append _
  case functionDecl hb _ _ _ =>
    simp only [Node.stmt, functionDoc]
    exact (hb.endsAs_body.cons _).append _
  case block n h _ =>
    have hb : n.endsInBlock = true := by
      cases h
      rfl
    rw [h.stmt_body, hb]
    exact h.endsAs_body
  case «try» loc type b h f hb hh hf _ _ _ =>
    simp only [Node.stmt]
    cases f with
    | some f =>
      have hbody : EndsAs true (f.body level) := (hf f rfl).endsAs_body
      exact (((hbody.cons .space).cons (.word "finally")).cons .space).append _
    | none =>
      simp only [optFinalizer, List.append_nil]
      cases h with
      | some h => exact ((hh h rfl).endsAs_handler.cons .space).append _
      | none =>
        simp only [optHandler, List.append_nil]
        exact (hb.endsAs_body.cons _).cons _

end Fits

end AutoAwait
