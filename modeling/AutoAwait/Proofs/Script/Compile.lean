import AutoAwait.Proofs.Printing.Bare
import AutoAwait.Proofs.Printing.Doc
import AutoAwait.Proofs.Results
import AutoAwait.Proofs.Script.Append
import AutoAwait.Proofs.Typing.Sequence

/-!
# Compiling two scripts as one

A writer that compiles two scripts one after the other does what it would do with both in one
source, with a line between them that holds a semicolon.

* `ProgramScope.compile_ok` takes a compilation apart into reading and typing;
* `ProgramScope.compile_append` is the main statement.
-/

namespace AutoAwait

open Typing (programOf)

/-! ## The text of two scripts -/

theorem formatScript_programOf (ns : List Node) {type : Option ShellType} :
    formatScript ⟨.start, type, .program ns⟩ =
      "\n".intercalate (ns.map fun n => (n.stmt 0).render) := by
  rw [formatScript_eq, Node.stmts_eq, Node.statements?, List.map_map]
  rfl

theorem formatScript_ne {ns : List Node} {type : Option ShellType} (h : ns ≠ []) :
    formatScript ⟨.start, type, .program ns⟩ ≠ "" := by
  obtain ⟨n, ms, rfl⟩ := List.exists_cons_of_ne_nil h
  rw [formatScript_programOf, List.map_cons]
  cases ms with
  | nil => simpa using n.render_stmt_ne 0
  | cons m ms => simp

/-- The text of two scripts in one: that of the first one and that of the second one on lines of
their own, unless one of them is empty. -/
theorem formatScript_append (φ : Position → Position) (ns ms : List Node)
    {type type' type₂ : Option ShellType} :
    formatScript ⟨.start, type₂, .program (ns ++ ms.map (Node.move φ))⟩ =
      "\n".intercalate ([formatScript ⟨.start, type, .program ns⟩,
        formatScript ⟨.start, type', .program ms⟩].filter (· ≠ "")) := by
  have hm : (ms.map (Node.move φ)).map (fun n => (n.stmt 0).render) =
      ms.map fun n => (n.stmt 0).render := by
    rw [List.map_map]
    refine List.map_congr_left fun n _ => ?_
    exact congrArg Doc.render (Node.stmt_eq_of_bare (n.bare_move φ) 0)
  have he : ∀ type, formatScript ⟨.start, type, .program []⟩ = "" := fun _ => rfl
  by_cases hns : ns = []
  · subst hns
    rw [List.nil_append, formatScript_programOf, hm, he]
    by_cases hms : ms = []
    · subst hms
      rfl
    · rw [List.filter_cons_of_neg (by simp), List.filter_cons_of_pos (by simpa using formatScript_ne hms),
        List.filter_nil, String.intercalate_singleton, formatScript_programOf]
  · rw [List.filter_cons_of_pos (by simpa using formatScript_ne hns)]
    by_cases hms : ms = []
    · subst hms
      rw [he, List.filter_cons_of_neg (by simp), List.filter_nil, String.intercalate_singleton,
        List.map_nil, List.append_nil, formatScript_programOf, formatScript_programOf]
    · rw [List.filter_cons_of_pos (by simpa using formatScript_ne hms), List.filter_nil,
        formatScript_programOf, List.map_append, hm,
        String.intercalate_append_of_ne_nil (by simpa using hns) (by simpa using hms),
        formatScript_programOf, formatScript_programOf]
      rfl

/-! ## Compilations -/

namespace ProgramScope

variable {s : ProgramScope} {t : SymbolTable} {source : String} {ns : List Node}

/-- A script that can be read is compiled if the pass succeeds on its tree. -/
theorem compile_isOk [CharNames] (h : parseScript source = .ok (programOf ns)) :
    (s.compile t source).result.isOk ↔
      (Typing.run (programOf ns) (s.enter t).2).2.failure = none := by
  cases hf : (s.rewrite t (programOf ns)).failure with
  | none =>
    have hc : (s.compile t source).result = .ok (s.rewrite t (programOf ns)).tree := by
      simp only [compile, h, hf]
    rw [hc]
    exact ⟨fun _ => (rewrite_ok hf).1, fun _ => rfl⟩
  | some e =>
    have hc : (s.compile t source).result = .error (.typing e) := by simp only [compile, h, hf]
    rw [hc]
    refine ⟨nofun, fun hr => ?_⟩
    rw [(rewrite_of_run hr).1] at hf
    cases hf

theorem compile_ok [CharNames] (h : parseScript source = .ok (programOf ns))
    (hr : (Typing.run (programOf ns) (s.enter t).2).2.failure = none) :
    (s.compile t source).result = .ok (Typing.run (programOf ns) (s.enter t).2).1 ∧
      (s.compile t source).table = (Typing.run (programOf ns) (s.enter t).2).2.table ∧
      (s.compile t source).scope = (s.enter t).1 := by
  obtain ⟨hf, htree, htable, hscope⟩ := rewrite_of_run hr
  simp only [compile, h, hf, htree, htable, hscope, and_self]

/-- The types of a program's nodes below the program itself. -/
theorem types_programOf (ns : List Node) (type : Option ShellType) :
    (⟨.start, type, .program ns⟩ : Node).nodes.tail.map (·.type) =
      ns.flatMap fun n => n.nodes.map (·.type) := by
  rw [Node.nodes_eq, List.tail_cons, List.map_flatMap]
  simp [Shape.parts, Shape.kids]

/-- **Two scripts, one source.** For a new writer it is the same to compile two scripts that can be
read, one after the other, and to compile them as one source, with a line between them that holds a
semicolon: either both succeed or none; and then the statements are the same, with the same types,
the second script being some lines further down; the text of the whole is made of the two texts; and
the writer and its table end alike. -/
theorem compile_append [CharNames] (t : SymbolTable) {a b : String} {na nb : Node}
    (ha : parseScript a = .ok na) (hb : parseScript b = .ok nb) :
    let first := unopened.compile t a
    let second := first.scope.compile first.table b
    let whole := unopened.compile t (a ++ "\n;\n" ++ b)
    (whole.result.isOk ↔ first.result.isOk ∧ second.result.isOk) ∧
      ∀ tree, whole.result = .ok tree → ∃ ta tb, first.result = .ok ta ∧ second.result = .ok tb ∧
        formatScript tree =
          "\n".intercalate ([formatScript ta, formatScript tb].filter (· ≠ "")) ∧
        whole.scope.bindings whole.table = second.scope.bindings second.table ∧
        whole.table = second.table ∧ whole.scope = second.scope ∧
        tree.nodes.tail.map (·.type) =
          ta.nodes.tail.map (·.type) ++ tb.nodes.tail.map (·.type) ∧
        ∃ ns ms lines, ta.shape = .program ns ∧ tb.shape = .program ms ∧
          tree.shape = .program (ns ++ ms.map (Node.move (.down lines))) := by
  intro first second whole
  obtain ⟨ns, ms, lines, rfl, rfl, hw⟩ := parseScript_append ha hb
  obtain ⟨hiff, hend⟩ := Typing.run_append (.down lines) ns ms t.push
  have hsecond : ∀ h : (Typing.run (programOf ns) t.push).2.failure = none,
      second = (ProgramScope.open t.depth).compile (Typing.run (programOf ns) t.push).2.table b := by
    intro h
    obtain ⟨-, htable, hscope⟩ := compile_ok (s := unopened) (t := t) ha h
    simp only [second, first, htable, hscope]
    rfl
  constructor
  · rw [compile_isOk hw, compile_isOk ha]
    refine hiff.trans (and_congr_right fun h => ?_)
    rw [hsecond h, compile_isOk hb]
    rfl
  · intro tree htree
    have hr := (compile_isOk hw).1 (by rw [htree]; rfl)
    obtain ⟨hra, hrb⟩ := hiff.1 hr
    obtain ⟨htable, ns', ms', ea, eb, er⟩ := hend hr
    obtain ⟨oka, -, -⟩ := compile_ok (s := unopened) (t := t) ha hra
    obtain ⟨okb, tableb, scopeb⟩ := compile_ok (s := .open t.depth) hb hrb
    obtain ⟨okw, tablew, scopew⟩ := compile_ok (s := unopened) (t := t) hw hr
    rw [← hsecond hra] at okb tableb scopeb
    have hta : first.result = .ok (Typing.typed (programOf ns') _) := oka.trans (congrArg _ ea)
    have htb : second.result = .ok (Typing.typed (programOf ms') _) := okb.trans (congrArg _ eb)
    obtain rfl := Except.ok.inj (htree.symm.trans (okw.trans (congrArg _ er)))
    have ht : whole.table = second.table := tablew.trans (htable.trans tableb.symm)
    have hs : whole.scope = second.scope := scopew.trans scopeb.symm
    refine ⟨_, _, hta, htb, formatScript_append _ ns' ms', by rw [ht, hs], ht, hs, ?_,
      ns', ms', lines, rfl, rfl, rfl⟩
    refine (types_programOf _ _).trans ?_
    rw [List.flatMap_append, List.flatMap_map]
    simp only [Node.types_move]
    exact congrArg₂ (· ++ ·) (types_programOf ns' _).symm (types_programOf ms' _).symm

/-- The script `f() // one` followed by `x = f()`, where `f` returns a promise. -/
theorem compile_append_of_comment :
    let t : SymbolTable := .ofScope (.ofTypes []) [("f", .type (.function none .absent true))]
    let second :=
      (unopened.compile t "f() // one").scope.compile (unopened.compile t "f() // one").table "x = f()"
    let whole := unopened.compile t ("f() // one" ++ "\n;\n" ++ "x = f()")
    (parseScript "f() // one").isOk ∧ (parseScript "x = f()").isOk ∧ whole.result.isOk ∧
      whole.table = second.table := by
  intro t second whole
  have hoka : (parseScript "f() // one").isOk := by decide +kernel
  have hokb : (parseScript "x = f()").isOk := by decide +kernel
  obtain ⟨na, ha⟩ := exists_ok_of_isOk hoka
  obtain ⟨nb, hb⟩ := exists_ok_of_isOk hokb
  obtain ⟨hiff, hend⟩ := compile_append t ha hb
  have hw : whole.result.isOk := hiff.2 ⟨by decide +kernel, by decide +kernel⟩
  obtain ⟨tree, htree⟩ := exists_ok_of_isOk hw
  obtain ⟨_, _, -, -, -, -, htable, -⟩ := hend tree htree
  exact ⟨hoka, hokb, hw, htable⟩

end ProgramScope

end AutoAwait
