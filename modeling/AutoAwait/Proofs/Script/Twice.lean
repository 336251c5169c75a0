import AutoAwait.Proofs.Printing.Bare
import AutoAwait.Proofs.Script.Append
import AutoAwait.Proofs.Typing.Settled

/-!
# Rewriting a program once more

A writer that rewrites its own result starts from the bindings that the first run has left behind.
Where these give a free name of the program another type, the second run can await more; where they
do not, it prints the same code.

* `ProgramScope.agreesInType_of_unassigned` is the common case: a program that assigns none of its
  free names;
* `ProgramScope.compile_twice` is the main statement, `ProgramScope.not_compile_twice_of_late` a
  script that is rewritten to something else.
-/

namespace AutoAwait.ProgramScope

variable {s : ProgramScope} {t : SymbolTable} {source : String} {program tree : Node}

/-- A script that can be read is compiled by rewriting its tree. -/
theorem compile_of_parse [CharNames] (hp : parseScript source = .ok program)
    (h : (s.compile t source).result = .ok tree) :
    (s.rewrite t program).failure = none ∧ (s.rewrite t program).tree = tree ∧
      (s.compile t source).table = (s.rewrite t program).table ∧
      (s.compile t source).scope = (s.rewrite t program).scope := by
  simp only [compile, hp] at h ⊢
  split at h
  · exact ⟨‹_›, Except.ok.inj h, trivial, trivial⟩
  · cases h

/-- A program that assigns none of its free names leaves them as they are. -/
theorem agreesInType_of_unassigned (s : ProgramScope) (t : SymbolTable)
    (h : ∀ name ∈ program.freeNames, ∀ n ∈ program.nodes, n.assigned? ≠ some name) :
    SymbolTable.AgreesInType (· ∈ program.freeNames) (s.enter t).2 (s.rewrite t program).table := by
  have hl : (s.rewrite t program).table.frames.length = (s.enter t).2.frames.length :=
    rewrite_depth s t program
  refine ⟨(rewrite_registry s t program).trans (enter_registry s t).symm, hl, ?_⟩
  intro i f g hf hg name hn
  rw [SymbolTable.get?_of_column hf hg (rewrite_column (h name hn))]
  cases f.get? name with
  | none => exact .none
  | some ref => exact .some rfl

/-- Trees that are equal but for their types are printed alike. -/
theorem formatScript_of_withoutTypes {n m : Node} (h : n.withoutTypes = m.withoutTypes) :
    formatScript n = formatScript m :=
  Node.formatScript_eq_of_bare (by rw [← Node.bare_withoutTypes, h, Node.bare_withoutTypes])

/-- **Rewriting once more.** A new writer has compiled a script, and the run has left each free name
of the script bound in the frames that bound it, to the type that it had. If the writer rewrites the
tree that it has made, it succeeds and the code is the same. -/
theorem compile_twice [CharNames] (t : SymbolTable) {source : String} {program tree : Node}
    (hp : parseScript source = .ok program) (h : (unopened.compile t source).result = .ok tree)
    (hfree : SymbolTable.AgreesInType (· ∈ program.freeNames) t.push
      (unopened.compile t source).table) :
    let first := unopened.compile t source
    let second := first.scope.rewrite first.table tree
    second.failure = none ∧ formatScript second.tree = formatScript tree := by
  intro first second
  obtain ⟨hf, htree, htable, hscope⟩ := compile_of_parse hp h
  obtain ⟨hr, ht, -, hs⟩ := rewrite_ok hf
  obtain ⟨hfailure, htypes⟩ := Typing.run_settled hfree
  have hkind : program.kind = .program := by
    obtain ⟨_, _, -, -, -, rfl⟩ := parseScript_ok.1 hp
    rfl
  -- from the table that is left the program itself gets the same awaits
  have hopen : first.scope = .open t.depth := hscope.trans hs
  obtain ⟨hf', ht', -, -⟩ :=
    @rewrite_of_run (.open t.depth) first.table program (hfailure.trans hr)
  have hbare : tree.withoutTypes =
      ((ProgramScope.open t.depth).rewrite first.table program).tree.withoutTypes := by
    rw [ht', ← htree, ht]
    exact htypes.symm
  -- and so it makes no difference that the awaits of the first run are there already
  obtain ⟨hsecond, heq, -, -⟩ := @rewrite_again (.open t.depth) first.table program hkind hf'
    (fun _ => false) nofun tree (by rw [Node.unwrap_none]; exact hbare)
  simp only [second, hopen]
  exact ⟨hsecond, by rw [heq]; exact (formatScript_of_withoutTypes hbare).symm⟩

/-- The script `let c = coll` followed by `c.find()`: `coll` is its only free name. -/
theorem compile_twice_of_collection :
    let find : ShellType := .function none .absent true
    let coll : ShellType := .object none "Collection" true (some [("find", .type find)])
    let t : SymbolTable := .ofScope (.ofTypes []) [("coll", .type coll)]
    let first := unopened.compile t "let c = coll\nc.find()"
    ∃ tree, first.result = .ok tree ∧ formatScript tree = "let c = coll;\nawait c.find();" ∧
      (first.scope.rewrite first.table tree).failure = none ∧
      formatScript (first.scope.rewrite first.table tree).tree = formatScript tree := by
  intro find coll t first
  have hparse : (parseScript "let c = coll\nc.find()").toOption.any fun p =>
      p.freeNames.all fun name => p.nodes.all fun n => n.assigned? ≠ some name := by
    decide +kernel
  have hcode : first.result.toOption.map formatScript = some "let c = coll;\nawait c.find();" := by
    decide +kernel
  cases hp : parseScript "let c = coll\nc.find()" with
  | error e =>
    rw [hp] at hparse
    cases hparse
  | ok program =>
    cases h : first.result with
    | error e =>
      rw [h] at hcode
      cases hcode
    | ok tree =>
      have hall : program.freeNames.all fun name =>
          program.nodes.all fun n => n.assigned? ≠ some name := by
        rw [hp] at hparse
        exact hparse
      have hn : ∀ name ∈ program.freeNames, ∀ n ∈ program.nodes, n.assigned? ≠ some name := by
        simpa using hall
      rw [h] at hcode
      have hfree := agreesInType_of_unassigned unopened t hn
      rw [← (compile_of_parse hp h).2.2.1] at hfree
      exact ⟨tree, rfl, Option.some.inj hcode, compile_twice t hp h hfree⟩

/-- The script `x.find()` followed by `x = coll` is rewritten to something else the second time: the
first run has bound `x` to a collection. -/
theorem not_compile_twice_of_late :
    let find : ShellType := .function none .absent true
    let coll : ShellType := .object none "Collection" true (some [("find", .type find)])
    let t : SymbolTable := .ofScope (.ofTypes []) [("coll", .type coll)]
    let first := unopened.compile t "x.find()\nx = coll"
    (first.result.toOption.map fun tree =>
        (formatScript tree, formatScript (first.scope.rewrite first.table tree).tree)) =
      some ("x.find();\nx = coll;", "await x.find();\nx = coll;") := by
  decide +kernel

end AutoAwait.ProgramScope
