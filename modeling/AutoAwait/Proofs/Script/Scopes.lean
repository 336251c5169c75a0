import AutoAwait.Proofs.Script.ProgramFrames
import AutoAwait.Proofs.Typing.Replace
import AutoAwait.Proofs.Typing.Sheltered
import AutoAwait.Proofs.Typing.Within

/-!
# Variables of nested scopes

A declarator in a block, a loop, a function or a `catch` clause binds its name in the innermost
frame that binds it already, which may lie around the scope. Where none of the frames around binds
the name, or a parameter of the scope hides it, the variable belongs to the scope.

* `ProgramScope.comesTo` is the state in which a rewriting comes to a node;
* `ProgramScope.rewrite_nested` is the main statement;
* `ProgramScope.rewrite_parameter` is what is sure of a parameter even if the rewriting fails.
-/

namespace AutoAwait

namespace ProgramScope

variable {s : ProgramScope} {t : SymbolTable} {tree c n : Node} {path inner : Path} {name : String}

/-- The walk of the typing pass over a node. -/
abbrev walk (n : Node) (place : Place) (p : Typing) : Node × Typing :=
  n.walk Typing.visitor (Node.visit Typing.visitor 0) place p

/-- A node whose parts the typing pass has walked over, and the state of the pass then. -/
abbrev descended (n : Node) (p : Typing) : Node × Typing :=
  Typing.descended (Node.visit Typing.visitor 0) n p

/-- The state in which a rewriting comes to the node at a path. -/
def comesTo (s : ProgramScope) (t : SymbolTable) (tree : Node) (path : Path) : Typing :=
  Typing.comesTo (Node.visit Typing.visitor 0) tree (Typing.start (s.enter t).2) path

theorem walk_comesTo (hp : tree.kind = .program) (h : (s.rewrite t tree).failure = none)
    (hc : tree.at? path = some c) (hne : path ≠ []) (place : Place) :
    (walk c place (s.comesTo t tree path)).2.failure = none := by
  obtain ⟨slot, path, rfl⟩ := List.exists_cons_of_ne_nil hne
  obtain ⟨k, hk, hat⟩ := Option.bind_eq_some_iff.1 hc
  obtain ⟨hr, -⟩ := rewrite_ok h
  rw [Typing.run_eq] at hr
  rw [comesTo, Typing.comesTo, hk, Typing.enter_program hp]
  exact Typing.walk_comesTo (Typing.walkPart_ok hr hk) hat place

/-- **A variable of a scope under a fresh name.** Where no frame binds the variable when the
rewriting comes to the scope, or a parameter of the scope hides it, the rewriting ends alike if the
variable is renamed in the scope, and the same calls are awaited. -/
theorem rewrite_renameInside (hp : tree.kind = .program) (h : (s.rewrite t tree).failure = none)
    (hc : tree.at? path = some c) (hk : Typing.framesOf c.kind = 1) (hname : name ≠ "")
    (hidden : (s.comesTo t tree path).table.Binds name → name ∈ c.paramNames)
    {fresh : String} (hfresh : fresh ≠ "") (hfree : ¬(s.comesTo t tree path).table.Binds fresh)
    (hn : ∀ m ∈ c.nodes, m.name? ≠ some fresh) :
    let renamed := tree.replaceAt path (c.renameInside name fresh)
    (s.rewrite t renamed).failure = none ∧
      (s.rewrite t renamed).table = (s.rewrite t tree).table ∧
      (s.rewrite t renamed).scope = (s.rewrite t tree).scope ∧
      renamed.newAwaits (s.rewrite t renamed).tree = tree.newAwaits (s.rewrite t tree).tree := by
  intro renamed
  cases path with
  | nil =>
    obtain rfl : tree = c := Option.some.inj hc
    rw [hp] at hk
    cases hk
  | cons slot path =>
    obtain ⟨hr, htree, htable, hscope⟩ := rewrite_ok h
    have hleaf : c.kind ≠ .identifier ∧ c.kind ≠ .literal := by
      constructor <;> (intro he; rw [he] at hk; cases hk)
    obtain ⟨hagree, hawaits⟩ := Typing.run_replaceAt hp hc (Typing.kind_renameInside name fresh c)
      hleaf (fun ha hs => (Typing.walk_renameInside hname hfresh hk hn hfree hidden ha hs).1) hr
    obtain ⟨hf', htree', htable', hscope'⟩ := rewrite_of_run (hagree.failure ▸ hr)
    refine ⟨hf', ?_, hscope'.trans hscope.symm, ?_⟩
    · rw [htable', htable, hagree.table]
    · rw [htree', htree, hawaits]

/-- **What a declarator in a scope does around the scope.** The scope `c` is a block, a loop, a
function or a `catch` clause in a program that is rewritten without an error, and `n` a declarator
of `name` in it, in its header or its body. The frames around the scope are those that are open when
the rewriting comes to it.

The declarator changes one of them if and only if one of them binds the name and no frame within the
scope does: then the innermost one that binds the name binds it to the type of the first value.
After the scope just the frames bind the name that had bound it, unless the scope is a function of
that name itself. Where no frame around the scope binds the name, or a parameter of the scope has
it, each of them binds the name to what it had bound it to, after the declarator and after the
scope; and with another name for the variable the rewriting ends with the same table and awaits the
same calls. Only what has no name at all is taken to have the empty one. -/
theorem rewrite_nested (hp : tree.kind = .program) (h : (s.rewrite t tree).failure = none)
    (hc : tree.at? path = some c) (hk : Typing.framesOf c.kind = 1) (hn : c.at? inner = some n)
    (hdecl : n.declaredName? = some name) (place : Place) :
    let p := s.comesTo t tree path
    let d := p.table.depth
    let before := Typing.comesTo (Node.visit Typing.visitor 0) c p inner
    let q := (descended n before).2.table
    let value := (descended n before).2.typeOf (descended n before).1.initializer?
    let declared := (walk n place before).2.table
    let after := (walk c place p).2.table
    declared.around d =
        (if (q.within d).any (·.binds name) then q.around d
        else (SymbolTable.rebind name (.type value) (q.around d)).getD (q.around d)) ∧
      (c.assigned? ≠ some name → after.marks name = p.table.marks name) ∧
      (name ≠ "" → (p.table.Binds name → name ∈ c.paramNames) →
        (declared.around d).map (·.get? name) = p.table.column name ∧
        (c.assigned? ≠ some name → after.column name = p.table.column name) ∧
        ∀ fresh, fresh ≠ "" → ¬p.table.Binds fresh → (∀ m ∈ c.nodes, m.name? ≠ some fresh) →
          let renamed := tree.replaceAt path (c.renameInside name fresh)
          (s.rewrite t renamed).failure = none ∧
            (s.rewrite t renamed).table = (s.rewrite t tree).table ∧
            (s.rewrite t renamed).scope = (s.rewrite t tree).scope ∧
            renamed.newAwaits (s.rewrite t renamed).tree =
              tree.newAwaits (s.rewrite t tree).tree) := by
  intro p d before q value declared after
  have hpath : path ≠ [] := by
    rintro rfl
    obtain rfl : tree = c := Option.some.inj hc
    rw [hp] at hk
    cases hk
  have hinner : inner ≠ [] := by
    rintro rfl
    obtain rfl : c = n := Option.some.inj hn
    obtain ⟨loc, type, shape⟩ := c
    cases shape with
    | declarator => cases hk
    | _ => cases hdecl
  have hs := walk_comesTo hp h hc hpath place
  have hdepth : d < before.table.depth := by
    have hle := Typing.depth_comesTo hs hn hinner
    rw [hk] at hle
    exact hle
  refine ⟨?_, fun ha => Typing.walk_scope_marks hk ha hs, fun hname hidden =>
    ⟨?_, fun ha => Typing.walk_scope_column hname hk hidden ha hs, ?_⟩⟩
  · exact Typing.around_walk_declarator hdecl (Typing.walk_comesTo hs hn place) hdepth
  · exact Typing.column_around hname hk hidden hs hinner hn place
  · intro fresh hfresh hfree hnodes
    exact rewrite_renameInside hp h hc hk hname hidden hfresh hfree hnodes

/-- The parameter `coll` of a function hides a collection of that name: the declarator in the
function leaves the collection alone, and its call after the function is awaited. -/
theorem rewrite_nested_of_parameter :
    let coll : ShellType :=
      .object none "Collection" false (some [("find", .type (.function none .absent true))])
    let t : SymbolTable := .ofScope (.ofTypes []) [("coll", .type coll)]
    let path : Path := [⟨"body", some 0⟩]
    ∃ tree c, parseScript "function f(coll) \x7b let coll = 1 \x7d\ncoll.find()" = .ok tree ∧
      tree.at? path = some c ∧
      let p := unopened.comesTo t tree path
      let renamed := tree.replaceAt path (c.renameInside "coll" "x")
      p.table.marks "coll" = [false, true] ∧
        (walk c .root p).2.table.column "coll" = p.table.column "coll" ∧
        tree.newAwaits (unopened.rewrite t tree).tree [⟨"body", some 1⟩, ⟨"expression", none⟩] ∧
        renamed.newAwaits (unopened.rewrite t renamed).tree =
          tree.newAwaits (unopened.rewrite t tree).tree := by
  intro coll t path
  obtain ⟨tree, hp⟩ := exists_ok_of_isOk
    (show (parseScript "function f(coll) \x7b let coll = 1 \x7d\ncoll.find()").isOk by
      decide +kernel)
  have hfacts : (parseScript "function f(coll) \x7b let coll = 1 \x7d\ncoll.find()").toOption.any
      fun tree => (tree.at? path).any fun c =>
        let p := unopened.comesTo t tree path
        decide (tree.kind = .program) && (unopened.rewrite t tree).failure.isNone &&
        decide (Typing.framesOf c.kind = 1) &&
        (c.at? [⟨"body", none⟩, ⟨"body", some 0⟩, ⟨"declarations", some 0⟩]).any
          (·.declaredName? == some "coll") &&
        c.paramNames.contains "coll" && decide (c.assigned? ≠ some "coll") &&
        (p.table.marks "coll" == [false, true] && p.table.marks "x" == [false, false]) &&
        (c.nodes.all fun m => decide (m.name? ≠ some "x")) &&
        tree.newAwaits (unopened.rewrite t tree).tree [⟨"body", some 1⟩, ⟨"expression", none⟩] := by
    decide +kernel
  rw [hp] at hfacts
  simp only [Except.toOption, Option.any_some, Option.any_eq_true, Bool.and_eq_true, beq_iff_eq,
    decide_eq_true_eq, Option.isNone_iff_eq_none, List.contains_iff_mem, List.all_eq_true] at hfacts
  obtain ⟨c, hc, hfacts, hawait⟩ := hfacts
  obtain ⟨⟨⟨⟨hfacts, hparam⟩, hassigned⟩, hmarks, hfree⟩, hx⟩ := hfacts
  obtain ⟨⟨⟨hprogram, hok⟩, hk⟩, n, hn, hdecl⟩ := hfacts
  clear_value t path
  obtain ⟨-, -, h⟩ := rewrite_nested hprogram hok hc hk hn hdecl .root
  obtain ⟨-, hcol, hfresh⟩ := h (by decide) fun _ => hparam
  refine ⟨tree, c, hp, hc, hmarks, hcol hassigned, hawait, ?_⟩
  exact (hfresh "x" (by decide) (by simp [SymbolTable.Binds, hfree]) hx).2.2.2

/-- A declarator in a block binds a collection of the catalog anew, and the call after the block is
not awaited any more. It is if the variable in the block has another name. -/
theorem rewrite_of_outer_binding :
    let coll : ShellType :=
      .object none "Collection" false (some [("find", .type (.function none .absent true))])
    let t : SymbolTable := .ofScope (.ofTypes []) [("coll", .type coll)]
    let compile (source : String) := unopened.compile t source
    let found (source : String) :=
      ((compile source).table.frames.map fun f => (f.get? "coll").map fun ref => (t.resolve ref).name)
    let code (source : String) := (compile source).result.toOption.map formatScript
    found "\x7b let coll = 1 \x7d\ncoll.find()" = [none, some "unknown"] ∧
      found "\x7b let x = 1 \x7d\ncoll.find()" = [none, some "Collection"] ∧
      code "\x7b let coll = 1 \x7d\ncoll.find()" =
        some "\x7b\n  let coll = 1;\n\x7d\ncoll.find();" ∧
      code "\x7b let x = 1 \x7d\ncoll.find()" =
        some "\x7b\n  let x = 1;\n\x7d\nawait coll.find();" := by
  decide +kernel

/-! ## Parameters -/

/-- A rewriting that fails at a node of the program ends there. -/
theorem run_failed_at (hp : tree.kind = .program) (hc : tree.at? path = some c) (hne : path ≠ [])
    (place : Place) (h : (walk c place (s.comesTo t tree path)).2.failure.isSome) :
    (Typing.run tree (s.enter t).2).2 = (walk c place (s.comesTo t tree path)).2 := by
  obtain ⟨slot, path, rfl⟩ := List.exists_cons_of_ne_nil hne
  obtain ⟨k, hk, hat⟩ := Option.bind_eq_some_iff.1 hc
  rw [comesTo, Typing.comesTo, hk, Typing.enter_program hp] at h ⊢
  dsimp only at h ⊢
  have hpart : (walk k (.part tree.kind slot) (Typing.partState (Node.visit Typing.visitor 0) tree
      slot (Typing.start (s.enter t).2))).2 = _ := Typing.walk_failed_at hat place h
  rw [Typing.run_eq, ← hpart]
  exact Typing.walkParts_snd.trans (Typing.mapM_lookup_failed hk (hpart ▸ h))

/-- **A parameter shelters the frames around its function.** The function or `catch` clause `c` of a
program has a parameter `name`, and is not a function of that name itself. When the rewriting has
walked over it, each frame that was open before binds the name to what it had bound it to, or does
not bind it as before. If the walk fails, those frames lie below the ones that it has left open; the
rewriting fails with its error, and when these frames have been closed the frames that remain bind
the name as they did when the rewriting came to `c`. -/
theorem rewrite_parameter (hp : tree.kind = .program) (hc : tree.at? path = some c)
    (hx : name ∈ c.paramNames) (ha : c.assigned? ≠ some name) (place : Place) :
    let p := s.comesTo t tree path
    let after := (walk c place p).2
    (after.failure = none → after.table.column name = p.table.column name) ∧
      (after.failure.isSome →
        p.table.column name <:+ after.table.column name ∧
          (s.rewrite t tree).failure = after.failure ∧
          (s.rewrite t tree).table.column name =
            (p.table.column name).drop (p.table.depth - (s.enter t).2.depth)) := by
  intro p after
  obtain ⟨hs, hok⟩ : p.table.column name <:+ after.table.column name ∧
      (after.failure = none → after.table.column name = p.table.column name) :=
    Typing.walk_parameter hx ha place
  refine ⟨hok, fun hf => ?_⟩
  have hpath : path ≠ [] := by
    rintro rfl
    obtain rfl : tree = c := Option.some.inj hc
    have hk := Typing.framesOf_of_parameter hx
    rw [hp] at hk
    cases hk
  have hrun := run_failed_at hp hc hpath place hf
  refine ⟨hs, by rw [(rewrite_outcome s t tree).2.1, hrun], ?_⟩
  -- the frames of the table are open all the way, also if the error came before `c`
  have hdepth : (s.enter t).2.depth ≤ p.table.depth := by
    cases hpf : p.failure with
    | none => exact Typing.depth_le_comesTo hpf
    | some e =>
      have hle := Typing.depth_le_run tree (s.enter t).2
      have hfailed : walk c place p = (c, p) :=
        Typing.walk_failed (show p.failure.isSome by rw [hpf]; rfl)
      rwa [hrun, hfailed] at hle
  obtain ⟨above, habove⟩ := hs
  have hlength := congrArg List.length habove
  rw [List.length_append, SymbolTable.length_column, SymbolTable.length_column] at hlength
  have hcol : (s.rewrite t tree).table.column name =
      (after.table.column name).drop (after.table.depth - (s.enter t).2.depth) := by
    rw [rewrite_table, hrun, SymbolTable.column, SymbolTable.column, List.map_drop]
  rw [hcol, ← habove, ← hlength, Nat.add_sub_assoc hdepth, List.drop_length_add_append]

/-- The parameter `coll` of a function is assigned to before the rewriting fails: the collection of
that name stays what it is. -/
theorem rewrite_parameter_of_dynamic_access :
    let coll : ShellType := .object none "Collection" true (some [])
    let db : ShellType := .object none "Database" true none
    let t : SymbolTable := .ofScope (.ofTypes []) [("coll", .type coll), ("db", .type db)]
    let path : Path := [⟨"body", some 0⟩]
    let source := "function f(coll) { coll = 1; db[coll] }"
    ∃ tree c, parseScript source = .ok tree ∧ tree.at? path = some c ∧
      let p := unopened.comesTo t tree path
      let after := (walk c .root p).2
      (p.table.column "coll").map (Option.map fun ref => (t.resolve ref).name) =
          [none, some "Collection"] ∧
        (unopened.rewrite t tree).failure.map (·.message) = some
          ("Cannot access shell API attributes dynamically. " ++ Typing.databaseHint) ∧
        p.table.column "coll" <:+ after.table.column "coll" ∧ after.table.depth = 4 ∧
        (unopened.rewrite t tree).table.column "coll" = p.table.column "coll" := by
  intro coll db t path source
  obtain ⟨tree, hparse⟩ := exists_ok_of_isOk (show (parseScript source).isOk by decide +kernel)
  have hfacts : (parseScript source).toOption.any fun tree => (tree.at? path).any fun c =>
      let p := unopened.comesTo t tree path
      decide (tree.kind = .program) && c.paramNames.contains "coll" &&
      decide (c.assigned? ≠ some "coll") && (walk c .root p).2.failure.isSome &&
      ((p.table.column "coll").map (Option.map fun ref => (t.resolve ref).name) ==
        [none, some "Collection"]) &&
      ((unopened.rewrite t tree).failure.map (·.message) == some
        ("Cannot access shell API attributes dynamically. " ++ Typing.databaseHint)) &&
      (decide ((walk c .root p).2.table.depth = 4) &&
        decide (p.table.depth - (unopened.enter t).2.depth = 0)) := by
    decide +kernel
  rw [hparse] at hfacts
  simp only [Except.toOption, Option.any_some, Option.any_eq_true, Bool.and_eq_true, beq_iff_eq,
    decide_eq_true_eq, List.contains_iff_mem] at hfacts
  obtain ⟨c, hc, ⟨⟨⟨⟨⟨hprogram, hparam⟩, hassigned⟩, hfails⟩, hbefore⟩, hmessage⟩, hopen, hnone⟩ :=
    hfacts
  clear_value t path
  obtain ⟨hsuffix, -, hafter⟩ := (rewrite_parameter hprogram hc hparam hassigned .root).2 hfails
  rw [hnone, List.drop_zero] at hafter
  exact ⟨tree, c, hparse, hc, hbefore, hmessage, hsuffix, hopen, hafter⟩

end ProgramScope

end AutoAwait
