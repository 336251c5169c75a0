import AutoAwait.Catalog
import AutoAwait.Proofs.Results
import AutoAwait.Proofs.Script.Writers
import AutoAwait.Proofs.Typing.Declared

/-!
# What a program declares and its writer's program frame

A variable that a script declares is bound in the innermost of the open frames that binds its name
already, and else in the innermost frame of all. That need not be the program frame of the writer:
the scope of the catalog or the program frame of another writer can bind the name, and the program
frames of writers that came later lie above.

* `ProgramScope.bindings_of_split` reads the bindings of a program frame off the frames;
* `Session.declared_bindings` says when a name that a script declares is in the program frame of
  its writer, with the type that the table looks up.
-/

namespace AutoAwait

/-! ## Frames above and below one frame -/

section split
variable {t u : SymbolTable} {above below : List Frame} {own : Frame} {name : String}

/-- A stack can be split at a frame that `k` others lie below. -/
theorem exists_split {fs : List Frame} {k : Nat} (h : k < fs.length) :
    ∃ above own below, fs = above ++ own :: below ∧ below.length = k := by
  have hlt : fs.length - (k + 1) < fs.length := by omega
  refine ⟨fs.take (fs.length - (k + 1)), fs[fs.length - (k + 1)],
    fs.drop (fs.length - (k + 1) + 1), ?_, ?_⟩
  · rw [← List.drop_eq_getElem_cons hlt, List.take_append_drop]
  · rw [List.length_drop]
    omega

theorem ProgramScope.bindings_of_split (h : u.frames = above ++ own :: below) :
    ((ProgramScope.open below.length).bindings u).get? name = (own.get? name).map u.resolve := by
  have hframe : u.frameAt? below.length = some own := by
    rw [SymbolTable.frameAt?, h]
    simp
  rw [bindings, frame, hframe]
  exact Bindings.get?_map u.resolve own name

/-- Where no frame above binds the name, the frame that does decides what it stands for. -/
theorem lookupType_of_split (h : u.frames = above ++ own :: below)
    (habove : ∀ f ∈ above, f.binds name = false) (hown : own.binds name) :
    some (u.lookupType name) = (own.get? name).map u.resolve := by
  obtain ⟨ref, href⟩ := Option.isSome_iff_exists.1 hown
  have hnone : above.findSome? (·.get? name) = none := by
    refine List.findSome?_eq_none_iff.2 fun f hf => ?_
    simpa [Bindings.binds] using habove f hf
  rw [SymbolTable.lookupType, SymbolTable.lookup, SymbolTable.find?, h, List.findSome?_append,
    hnone, List.findSome?_cons, href]
  rfl

end split

namespace ProgramScope

variable {s : ProgramScope} {t : SymbolTable} {tree : Node} {name : String}
  {above below : List Frame} {own : Frame}

/-- The frames after a rewriting that succeeds, split where they were split before. The innermost
frame can bind the name afterwards, the others bind it if and only if they had bound it. -/
theorem rewrite_split (tree : Node) (hb : (s.enter t).2.frames = above ++ own :: below)
    (name : String) :
    ∃ above' own' below', (s.rewrite t tree).table.frames = above' ++ own' :: below' ∧
      below'.length = below.length ∧ above'.length = above.length ∧
      below'.map (·.binds name) = below.map (·.binds name) ∧
      (own.binds name → own'.binds name) ∧
      (above ≠ [] → own'.binds name = own.binds name) := by
  have hd : (s.rewrite t tree).table.frames.length = (above ++ own :: below).length := by
    rw [← hb]
    exact rewrite_depth s t tree
  rw [List.length_append, List.length_cons] at hd
  have hlt : below.length < (s.rewrite t tree).table.frames.length := by omega
  obtain ⟨above', own', below', hsplit, hl⟩ := exists_split hlt
  have ha : above'.length = above.length := by
    rw [hsplit, List.length_append, List.length_cons] at hd
    omega
  have hone : ∀ f : Frame, f.binds name ↔ name ∈ Bindings.names f :=
    fun f => Bindings.mem_names_iff_binds.symm
  refine ⟨above', own', below', hsplit, hl, ha, ?_⟩
  obtain ⟨new, hnew⟩ := rewrite_boundNames s t tree
  simp only [SymbolTable.boundNames, hsplit, hb, List.map_append, List.map_cons] at hnew
  cases above with
  | nil =>
    obtain rfl := List.length_eq_zero_iff.1 ha
    obtain ⟨hown, hbelow⟩ := List.cons.inj hnew
    refine ⟨?_, fun h => ?_, fun h => absurd rfl h⟩
    · rw [SymbolTable.map_binds, hbelow, ← SymbolTable.map_binds]
    · rw [hone, hown]
      exact List.mem_append_left _ ((hone own).1 h)
  | cons top above =>
    cases above' with
    | nil => cases ha
    | cons top' above' =>
      have hrest := (List.cons.inj hnew).2
      obtain ⟨-, hrest⟩ := List.append_inj hrest (by simpa using ha)
      obtain ⟨hown, hbelow⟩ := List.cons.inj hrest
      have hbinds : own'.binds name = own.binds name := by
        rw [Bool.eq_iff_iff, hone, hone, hown]
      refine ⟨?_, fun h => hbinds.trans h, fun _ => hbinds⟩
      rw [SymbolTable.map_binds, hbelow, ← SymbolTable.map_binds]

/-- **The program frame after a rewriting** that succeeds, for a name that the program declares. The
frame `own` is that of the program; the frames `above` and `below` are those that were open besides
when it began. -/
theorem rewrite_bindings (hb : (s.enter t).2.frames = above ++ own :: below)
    (hs : (s.enter t).1 = .open below.length) (h : (s.rewrite t tree).failure = none)
    (hn : name ∈ tree.topNames) :
    let r := s.rewrite t tree
    let found := (r.scope.bindings r.table).get? name
    r.table.Binds name ∧
      (above = [] → (own.binds name ∨ ∀ f ∈ below, f.binds name = false) →
        found = some (r.table.lookupType name)) ∧
      ((∀ n ∈ tree.nodes, n.kind.isFunction → n.assigned? ≠ some name) →
        (own.binds name → (∀ f ∈ above, f.binds name = false) →
          found = some (r.table.lookupType name)) ∧
        (found.isSome ↔ own.binds name ∨ above = [] ∧ ∀ f ∈ below, f.binds name = false)) := by
  intro r found
  have hd : 0 < (s.enter t).2.depth := by
    rw [SymbolTable.depth, hb, List.length_append, List.length_cons]
    omega
  have hbound : r.table.Binds name := rewrite_declares hd h hn
  obtain ⟨above', own', below', hsplit, hl, ha, hbelow, hown, hkeep⟩ :=
    rewrite_split tree hb name
  have hfound : found = (own'.get? name).map r.table.resolve := by
    have hscope : r.scope = .open below'.length := by rw [(rewrite_ok h).2.2.2, hs, hl]
    show (r.scope.bindings r.table).get? name = _
    rw [hscope]
    exact bindings_of_split hsplit
  have hsome : found.isSome = own'.binds name := by
    rw [hfound, Option.isSome_map]
    rfl
  have hlookup : (∀ f ∈ above', f.binds name = false) → own'.binds name →
      found = some (r.table.lookupType name) :=
    fun habove hbinds => hfound.trans (lookupType_of_split hsplit habove hbinds).symm
  -- a name that nothing else binds is bound by the innermost frame
  have htop : above = [] → (∀ f ∈ below, f.binds name = false) → own'.binds name := by
    rintro rfl hnot
    obtain rfl := List.length_eq_zero_iff.1 ha
    have hmarks : true ∈ r.table.frames.map (·.binds name) := hbound
    rw [hsplit, List.nil_append, List.map_cons, hbelow] at hmarks
    rcases List.mem_cons.1 hmarks with hm | hm
    · exact hm.symm
    · obtain ⟨f, hf, hm⟩ := List.mem_map.1 hm
      rw [hnot f hf] at hm
      cases hm
  have hkept : (∀ n ∈ tree.nodes, n.kind.isFunction → n.assigned? ≠ some name) →
      (s.enter t).2.Binds name →
        above'.map (·.binds name) = above.map (·.binds name) ∧
          own'.binds name = own.binds name := by
    intro hfun hbinds
    have hm := rewrite_marks h hfun hbinds
    simp only [SymbolTable.marks, hb, show (s.rewrite t tree).table.frames = _ from hsplit,
      List.map_append, List.map_cons] at hm
    obtain ⟨habove, hrest⟩ := List.append_inj hm (by simpa using ha)
    exact ⟨habove, (List.cons.inj hrest).1⟩
  have hbefore : (s.enter t).2.Binds name ↔ ∃ f ∈ above ++ own :: below, f.binds name := by
    rw [SymbolTable.Binds, SymbolTable.marks, hb, List.mem_map]
  refine ⟨hbound, ?_, fun hfun => ⟨?_, ?_⟩⟩
  · rintro rfl hcase
    obtain rfl := List.length_eq_zero_iff.1 ha
    refine hlookup (by simp) ?_
    exact hcase.elim hown (htop rfl)
  · intro hbinds hnot
    obtain ⟨habove, hsame⟩ := hkept hfun (hbefore.2 ⟨own, by simp, hbinds⟩)
    refine hlookup (fun f hf => ?_) (hsame.trans hbinds)
    have hm : f.binds name ∈ above.map (·.binds name) := habove ▸ List.mem_map_of_mem hf
    obtain ⟨g, hg, he⟩ := List.mem_map.1 hm
    rw [← he, hnot g hg]
  · rw [hsome]
    constructor
    · intro hbinds
      by_cases hbefore' : (s.enter t).2.Binds name
      · exact .inl ((hkept hfun hbefore').2.symm.trans hbinds)
      by_cases habove : above = []
      · refine .inr ⟨habove, fun f hf => ?_⟩
        by_contra hf'
        exact hbefore' (hbefore.2 ⟨f, by simp [hf], Bool.not_eq_false _ ▸ hf'⟩)
      · exact .inl ((hkeep habove).symm.trans hbinds)
    · rintro (hbinds | ⟨habove, hnot⟩)
      · exact hown hbinds
      · exact htop habove hnot

end ProgramScope

namespace Session

variable {s : Session} {name source : String} {tree : Node}

/-- A call for a script that is answered with code has rewritten its tree without an error. -/
theorem failure_of_compile [CharNames] (hp : parseScript source = .ok tree) {keepTree : Bool}
    {a : SessionAnswer} (h : (SessionStep.runCompile s name source keepTree).answer = .ok a) :
    ((s.writer name).scope.rewrite (s.tables.table (s.writer name).table) tree).failure = none := by
  simp only [SessionStep.runCompile, ProgramScope.compile, hp] at h
  split at h
  · cases h
  · next heq =>
    split at heq
    · assumption
    · cases heq

/-- **What a script declares and the bindings of its writer.** After any calls of writers over a
table, a writer compiles a script. Every name that the script declares outside of nested scopes is
then bound in some frame. Where the program frame of the writer is the innermost one, and binds the
name already or no frame below does, it is in the bindings of the writer with the type that the
table looks up; and also where the program frame binds it, no frame above does and the script has no
function of that name. Without such a function it is in the bindings only if the program frame has
bound it already, or is the innermost one and no other frame binds it. -/
theorem declared_bindings [CharNames] (t : SymbolTable) (first : String)
    (calls : List (String × WriterCall))
    (w : String) (hp : parseScript source = .ok tree) {a : SessionAnswer}
    (ha : (((start t first).after calls).call (w, .compile source)).answer = .ok a)
    (hn : name ∈ tree.topNames) :
    let s := (start t first).after calls
    let before := ((s.writer w).scope.enter (s.tableOf w)).2
    let r := (s.call (w, .compile source)).session
    let found := ((r.writer w).scope.bindings (r.tableOf w)).get? name
    (r.tableOf w).Binds name ∧ ∃ above own below, before.frames = above ++ own :: below ∧
      (r.writer w).scope = .open below.length ∧
      (above = [] → (own.binds name ∨ ∀ f ∈ below, f.binds name = false) →
        found = some ((r.tableOf w).lookupType name)) ∧
      ((∀ n ∈ tree.nodes, n.kind.isFunction → n.assigned? ≠ some name) →
        (own.binds name → (∀ f ∈ above, f.binds name = false) →
          found = some ((r.tableOf w).lookupType name)) ∧
        (found.isSome ↔ own.binds name ∨ above = [] ∧ ∀ f ∈ below, f.binds name = false)) := by
  intro s before r found
  have h : SharedBy t (openedBy calls) s := sharedBy_after t first calls
  have hr : Rewritten s w tree (s.call (w, .compile source)) := h.compile_rewritten w hp false
  have hf := failure_of_compile hp ha
  rw [h.table] at hf
  have htable : r.tableOf w = ((s.writer w).scope.rewrite (s.tables.table 0) tree).table := by
    rw [tableOf, (hr.writers w).1, hr.tables, h.table_put]
  have hscope : (r.writer w).scope =
      ((s.writer w).scope.rewrite (s.tables.table 0) tree).scope := by
    rw [(hr.writers w).2, if_pos rfl]
  have hbefore : before = ((s.writer w).scope.enter (s.tables.table 0)).2 :=
    congrArg (fun u => ((s.writer w).scope.enter u).2) (h.tableOf w)
  -- the program frame lies somewhere among the open frames
  obtain ⟨hdepth, -, hopen, -⟩ := h.enter w
  have hw : w ∈ withOpened (openedBy calls) w := by
    unfold withOpened
    split <;> simp [*]
  obtain ⟨i, hi⟩ := List.mem_iff_getElem?.1 hw
  have hplace := hopen i w hi
  rw [if_pos rfl] at hplace
  have hlt : t.depth + i < before.frames.length := by
    have := (List.getElem?_eq_some_iff.1 hi).1
    rw [hbefore]
    show t.depth + i < ((s.writer w).scope.enter (s.tables.table 0)).2.depth
    omega
  obtain ⟨above, own, below, hsplit, hl⟩ := exists_split hlt
  rw [← hl] at hplace
  obtain ⟨hbinds, hrest⟩ := ProgramScope.rewrite_bindings (hbefore ▸ hsplit) hplace hf hn
  simp only [← htable, ← hscope] at hbinds hrest
  refine ⟨hbinds, above, own, below, hsplit, ?_, hrest⟩
  rw [hscope, (ProgramScope.rewrite_ok hf).2.2.2, hplace]

/-- A writer compiles `let c = 1`, another one `let d = 2`, and the first one `let c = 3`: its
program frame is not the innermost one and binds `c` anew. -/
theorem declared_bindings_of_two_writers :
    let t : SymbolTable := .ofScope (.ofTypes []) []
    let s := (start t "w").after [("w", .compile "let c = 1"), ("v", .compile "let d = 2")]
    let r := (s.call ("w", .compile "let c = 3")).session
    ((r.writer "w").scope.bindings (r.tableOf "w")).get? "c" =
      some ((r.tableOf "w").lookupType "c") := by
  intro t s r
  obtain ⟨tree, hp⟩ := exists_ok_of_isOk
    (show (parseScript "let c = 3").isOk by decide +kernel)
  have htree : (parseScript "let c = 3").toOption.any fun tree => tree.topNames == ["c"] &&
      tree.nodes.all fun n => !n.kind.isFunction := by decide +kernel
  rw [hp] at htree
  simp only [Except.toOption, Option.any_some, Bool.and_eq_true, beq_iff_eq,
    List.all_eq_true] at htree
  obtain ⟨a, ha⟩ := exists_ok_of_isOk
    (show (s.call ("w", .compile "let c = 3")).answer.isOk by decide +kernel)
  -- the frame of `v` lies above that of `w`, that of the catalog below
  obtain ⟨place, hopen, hplace⟩ : ∃ place : ProgramScope → Nat,
      (∀ k, place (.open k) = k) ∧ place (r.writer "w").scope = 1 :=
    ⟨fun s => s.casesOn 0 id fun _ => 0, fun _ => rfl, by decide +kernel⟩
  have hm : ((s.writer "w").scope.enter (s.tableOf "w")).2.marks "c" = [false, true, false] := by
    decide +kernel
  -- what follows does not look into the session
  have hs : s = (start t "w").after
    [("w", .compile "let c = 1"), ("v", .compile "let d = 2")] := rfl
  have hr : r = (s.call ("w", .compile "let c = 3")).session := rfl
  clear_value r s
  rw [hs] at ha
  obtain ⟨-, above, own, below, hsplit, hscope, -, h⟩ :=
    declared_bindings t "w" _ "w" hp ha (htree.1 ▸ List.mem_singleton.2 rfl)
  rw [← hs] at hsplit
  rw [← hs, ← hr] at hscope h
  rw [hscope, hopen] at hplace
  rw [SymbolTable.marks, hsplit, List.map_append, List.map_cons] at hm
  obtain ⟨top, rfl⟩ : ∃ top, above = [top] := by
    have hl := congrArg List.length hm
    simp only [List.length_append, List.length_map, List.length_cons, hplace, List.length_nil] at hl
    exact List.length_eq_one_iff.1 (by omega)
  simp only [List.map_cons, List.map_nil, List.singleton_append, List.cons.injEq] at hm
  refine (h fun n hn hf => ?_).1 hm.2.1 ?_
  · have hnone := htree.2 n hn
    rw [hf] at hnone
    cases hnone
  · intro f hf
    rw [List.mem_singleton.1 hf]
    exact hm.1

/-- With a catalog that has `db`, the script `let db = 1` binds `db` in the scope of the catalog,
and not in the program frame. -/
theorem not_mem_bindings_of_catalog :
    let j : Json := .object
      [("types", .object [("Database", .object [("type", .string "Database")])]),
        ("scope", .object [("db", .string "Database")])]
    let t : SymbolTable :=
      .ofScope (.ofTypes [("Database", .object none "Database" false (some []))])
        [("db", .named "Database")]
    let r := (start t "w").call ("w", .compile "let db = 1")
    loadCatalog j = .ok t ∧
      (parseScript "let db = 1").toOption.map Node.topNames = some ["db"] ∧ r.answer.isOk ∧
      ((r.session.writer "w").scope.bindings (r.session.tableOf "w")).get? "db" = none := by
  intro j t r
  exact ⟨rfl, by decide +kernel, by decide +kernel,
    Option.isNone_iff_eq_none.1 (by decide +kernel)⟩

end Session

end AutoAwait
