import AutoAwait.Proofs.Grammar.Written
import AutoAwait.Proofs.Printing.Roundtrip
import AutoAwait.Proofs.Script.Compile
import AutoAwait.Proofs.Typing.Awaits

/-!
# Compiled scripts are read back

The text of a compiled script is read as the tree that it was printed from.

* `Fits.rewrites` says that what can be read from a text can still be read when awaits have been put
  around calls;
* `ProgramScope.compile_readsBack` is the main statement.
-/

namespace AutoAwait

open Node Typing

/-! ## Trees with awaits -/

theorem forall_mem_of_forall₂ {α β : Type} {R : α → β → Prop} {P : β → Prop} {as : List α}
    {bs : List β} (h : List.Forall₂ R as bs) (hp : ∀ a ∈ as, ∀ b, R a b → P b) : ∀ b ∈ bs, P b := by
  induction h with
  | nil => exact List.forall_mem_nil _
  | cons hab _ ih =>
    obtain ⟨ha, has⟩ := List.forall_mem_cons.1 hp
    exact List.forall_mem_cons.2 ⟨ha _ hab, ih has⟩

theorem forall_mem_of_optionRel {α β : Type} {R : α → β → Prop} {P : β → Prop} {a : Option α}
    {b : Option β} (h : Option.Rel R a b) (hp : ∀ x ∈ a, ∀ y, R x y → P y) : ∀ y ∈ b, P y := by
  rcases h with h | -
  · rintro _ ⟨⟩
    exact hp _ rfl _ h
  · rintro _ ⟨⟩

namespace Fits

variable {all : Prop} {n : Node} {r : Role}

/-- If what a node can become without an await around it can be read in a role, then so can all that
it can become. -/
theorem of_shape [CharNames] {parent : Option NodeKind} {m : Node} (hm : Rewrites all parent n m)
    (hs : ∀ loc type s, n.shape.Rel (Rewrites all (some n.kind)) s → Fits r ⟨loc, type, s⟩) :
    Fits r m := by
  have hself : ∀ {m}, Rewrites all (some .await) n m → Fits r m := by
    rintro ⟨loc, type, s⟩ hm
    exact hs loc type s hm.under_await.2
  rcases hm.stays_or_awaited with hm | ⟨call, rfl, hm, hp, -⟩
  · exact hself hm
  · obtain rfl := (hself hm).eq_expr (Node.kind_of_returnsPromise hp)
    exact .await (hself hm)

/-- **Awaits around calls.** What can be read from a text can be read with awaits around its calls. -/
theorem rewrites [CharNames] (h : Fits r n) : ∀ {parent : Option NodeKind} {m : Node},
    Rewrites all parent n m → Fits r m := by
  have hlist : ∀ {r' parent} {as bs : List Node}, List.Forall₂ (Rewrites all parent) as bs →
      (∀ a ∈ as, ∀ {parent m}, Rewrites all parent a m → Fits r' m) → ∀ b ∈ bs, Fits r' b :=
    fun h hp => forall_mem_of_forall₂ h fun a ha b hb => hp a ha hb
  have hopt : ∀ {r' parent} {a b : Option Node}, Option.Rel (Rewrites all parent) a b →
      (∀ x ∈ a, ∀ {parent m}, Rewrites all parent x m → Fits r' m) → ∀ y ∈ b, Fits r' y :=
    fun h hp => forall_mem_of_optionRel h fun x hx y hy => hp x hx hy
  induction h with
  -- Roles that are part of another one
  | pathName _ ih => exact fun hm => .pathName (ih hm)
  | nameKey _ ih => exact fun hm => .nameKey (ih hm)
  | ref _ ih => exact fun hm => .ref (ih hm)
  | line _ ih => exact fun hm => .line (ih hm)
  | declared _ ih => exact fun hm => .declared (ih hm)
  | block _ ih => exact fun hm => .block (ih hm)
  -- Names
  | name h => exact fun hm => of_shape hm fun | _, _, _, .identifier => .name h
  | attr h => exact fun hm => of_shape hm fun | _, _, _, .identifier => .attr h
  | pathMember _ _ iho ihp =>
    exact fun hm => of_shape hm fun | _, _, _, .member ho hp => .pathMember (iho ho) (ihp hp)
  -- Entries of objects
  | textKey h => exact fun hm => of_shape hm fun | _, _, _, .literal => .textKey h
  | numberKey h hv => exact fun hm => of_shape hm fun | _, _, _, .literal => .numberKey h hv
  | pair _ _ ihk ihv =>
    exact fun hm => of_shape hm fun | _, _, _, .property hk hv => .pair (ihk hk) (ihv hv)
  | array _ ih => exact fun hm => of_shape hm fun | _, _, _, .array h => .array (hlist h ih)
  | shorthand h =>
    exact fun hm => of_shape hm fun
      | _, _, _, .property hk hv => by
        obtain ⟨_, _, _, rfl, hkey⟩ := hk.exists_rel (show NodeKind.identifier ≠ .call by decide)
        obtain ⟨_, _, _, rfl, hvalue⟩ := hv.exists_rel (show NodeKind.identifier ≠ .call by decide)
        cases hkey
        cases hvalue
        exact .shorthand h
  | object _ ih => exact fun hm => of_shape hm fun | _, _, _, .object h => .object (hlist h ih)
  -- Expressions
  | number h hv => exact fun hm => of_shape hm fun | _, _, _, .literal => .number h hv
  | text h => exact fun hm => of_shape hm fun | _, _, _, .literal => .text h
  | constant hk hv => exact fun hm => of_shape hm fun | _, _, _, .literal => .constant hk hv
  | this => exact fun hm => of_shape hm fun | _, _, _, .this => .this
  | member _ _ iho ihp =>
    exact fun hm => of_shape hm fun | _, _, _, .member ho hp => .member (iho ho) (ihp hp)
  | index _ _ iho ihk =>
    exact fun hm => of_shape hm fun | _, _, _, .member ho hk => .index (iho ho) (ihk hk)
  | call _ _ ihc iha =>
    exact fun hm => of_shape hm fun | _, _, _, .call hc ha => .call (ihc hc) (hlist ha iha)
  | construct _ _ ihc iha =>
    exact fun hm => of_shape hm fun | _, _, _, .construct hc ha => .construct (ihc hc) (hlist ha iha)
  | await _ ih => exact fun hm => of_shape hm fun | _, _, _, .await h => .await (ih h)
  | assignment ho hk _ ht _ ihl ihr =>
    exact fun hm => of_shape hm fun
      | _, _, _, .assignment hl hr =>
        .assignment ho hk (ihl hl) (by rwa [hl.keeps_kind (by rintro hc; rw [hc] at ht; cases ht)]) (ihr hr)
  | binary ho hk hn _ _ ihl ihr =>
    exact fun hm => of_shape hm fun
      | _, _, _, .binary hl hr => .binary ho hk hn (ihl hl) (ihr hr)
  | logical ho hk _ _ ihl ihr =>
    exact fun hm => of_shape hm fun
      | _, _, _, .logical hl hr => .logical ho hk (ihl hl) (ihr hr)
  | unary ho hk hn _ ih =>
    exact fun hm => of_shape hm fun | _, _, _, .unary h => .unary ho hk hn (ih h)
  | update ho _ ih => exact fun hm => of_shape hm fun | _, _, _, .update h => .update ho (ih h)
  | conditional _ _ _ iht ihc iha =>
    exact fun hm => of_shape hm fun
      | _, _, _, .conditional ht hc ha => .conditional (iht ht) (ihc hc) (iha ha)
  | function _ _ _ ihi ihp ihb =>
    exact fun hm => of_shape hm fun
      | _, _, _, .function hi hp hb => .function (hopt hi ihi) (hlist hp ihp) (ihb hb)
  | arrowBlock _ _ ihp ihb =>
    exact fun hm => of_shape hm fun
      | _, _, _, .arrow hp hb => .arrowBlock (hlist hp ihp) (ihb hb)
  | arrow _ _ ihp ihb =>
    exact fun hm => of_shape hm fun | _, _, _, .arrow hp hb => .arrow (hlist hp ihp) (ihb hb)
  -- Parts of statements
  | declarator _ _ ihi ihe =>
    exact fun hm => of_shape hm fun
      | _, _, _, .declarator hi he => .declarator (ihi hi) (hopt he ihe)
  | declaration hk hne _ ih =>
    exact fun hm => of_shape hm fun
      | _, _, _, .declaration hd =>
        .declaration hk (by rintro rfl; cases hd; exact hne rfl) (hlist hd ih)
  | body _ ih => exact fun hm => of_shape hm fun | _, _, _, .block h => .body (hlist h ih)
  | handler _ _ ihp ihb =>
    exact fun hm => of_shape hm fun
      | _, _, _, .catchClause hp hb => .handler (hopt hp ihp) (ihb hb)
  -- Statements
  | expression _ ih => exact fun hm => of_shape hm fun | _, _, _, .expression h => .expression (ih h)
  | «return» _ ih => exact fun hm => of_shape hm fun | _, _, _, .return h => .return (hopt h ih)
  | «if» _ _ iht ihc =>
    exact fun hm => of_shape hm fun | _, _, _, .if ht hc .none => .if (iht ht) (ihc hc)
  | ifElse _ _ _ iht ihc iha =>
    exact fun hm => of_shape hm fun
      | _, _, _, .if ht hc (.some ha) => .ifElse (iht ht) (ihc hc) (iha ha)
  | «while» _ _ iht ihb =>
    exact fun hm => of_shape hm fun | _, _, _, .while ht hb => .while (iht ht) (ihb hb)
  | forDecl _ _ _ _ ihi iht ihu ihb =>
    exact fun hm => of_shape hm fun
      | _, _, _, .for (.some hi) ht hu hb =>
        .forDecl (ihi hi) (hopt ht iht) (hopt hu ihu) (ihb hb)
  | «for» _ _ _ _ ihi iht ihu ihb =>
    exact fun hm => of_shape hm fun
      | _, _, _, .for hi ht hu hb => .for (hopt hi ihi) (hopt ht iht) (hopt hu ihu) (ihb hb)
  | forOf hk _ _ _ ihi ihr ihb =>
    exact fun hm => of_shape hm fun
      | _, _, _, .forOf hl hr hb => by
        obtain ⟨_, _, _, rfl, hdecl⟩ := hl.exists_rel (show NodeKind.declaration ≠ .call by decide)
        cases hdecl with
        | declaration hds =>
          obtain ⟨_, _, hd, hnil, rfl⟩ := List.forall₂_cons_left_iff.1 hds
          cases hnil
          obtain ⟨_, _, _, rfl, hone⟩ := hd.exists_rel (show NodeKind.declarator ≠ .call by decide)
          cases hone with
          | declarator hi he =>
            cases he
            exact .forOf hk (ihi hi) (ihr hr) (ihb hb)
  | functionDecl _ _ _ ihi ihp ihb =>
    exact fun hm => of_shape hm fun
      | _, _, _, .functionDecl hi hp hb => .functionDecl (ihi hi) (hlist hp ihp) (ihb hb)
  | «break» => exact fun hm => of_shape hm fun | _, _, _, .break => .break
  | «continue» => exact fun hm => of_shape hm fun | _, _, _, .continue => .continue
  | throw _ ih => exact fun hm => of_shape hm fun | _, _, _, .throw h => .throw (ih h)
  | «try» _ _ _ ihb ihh ihf =>
    exact fun hm => of_shape hm fun
      | _, _, _, .try hb hh hf => .try (ihb hb) (hopt hh ihh) (hopt hf ihf)

end Fits

/-- **What is read fits.** -/
theorem parseScript_fits [CharNames] {source : String} {tree : Node}
    (h : parseScript source = .ok tree) :
    ∃ ns, tree = .untyped .start (.program ns) ∧ ∀ n ∈ ns, Fits .line n := by
  obtain ⟨ss, ns, -, hs, hns, rfl⟩ := parseScript_ok.1 h
  exact ⟨ns, rfl, hs.sound (layOut_genuine source.toList) ns hns⟩

/-! ## The text of a script -/

theorem Doc.separate_newline (depth : Nat) (d : Doc) (ds : List Doc) :
    separate [.newline depth] (d :: ds) = d ++ ds.flatMap (.newline depth :: ·) := by
  induction ds generalizing d with
  | nil => simp [separate]
  | cons e ds ih => simp [separate, ih]

/-- Statements at the start of a text. -/
theorem emits_script [CharNames] {ns : List Node} (h : ∀ n ∈ ns, n.ReadsLine 0) :
    Doc.Emits (Doc.separate [.newline 0] (stmts 0 ns)) .start fun us _ => SpelledStmts ns us := by
  rw [stmts_eq]
  cases ns with
  | nil => exact .nil .nil
  | cons n ns =>
    obtain ⟨⟨opened, -, hn⟩, h⟩ := List.forall_mem_cons.1 h
    have hstart : Layout.start.Starts := .of_atStart .start rfl rfl
    rw [List.map_cons, Doc.separate_newline, List.flatMap_map]
    refine (hn .start hstart fun _ => rfl).append fun us s hu => ?_
    have hp : s.inParens = false := Layout.inParens_of_opened hu.2.opened
    exact (emits_lines h hu.2.toFresh hu.2.atStart hp).imp fun vs _ hv => .cons hu.1 hv.1

theorem firm_script [CharNames] {ns : List Node} (h : ∀ n ∈ ns, Fits .line n) :
    Doc.Firm (Doc.separate [.newline 0] (stmts 0 ns)) := by
  rw [stmts_eq]
  exact .separate (fun _ hd => hd.newline) (fun _ => Doc.ends_newline 0 _)
    (List.forall_mem_map.2 fun n hn => (h n hn).firm 0)

/-- A text whose tokens spell statements is read as these. -/
theorem parseScript_of_spelled [CharNames] {source : String} {ns : List Node}
    (hstop : (readTokens source.toList).stop = none)
    (h : SpelledStmts ns (scriptTokens source).tokens) :
    ∃ ms, parseScript source = .ok (.untyped .start (.program ms)) ∧
      ms.map bare = ns.map bare := by
  obtain ⟨ss, hss, htrees⟩ := h
  obtain ⟨ms, hms, hbare⟩ := Gives.list (f := statementNodes) rfl (fun _ _ => rfl) htrees
  exact ⟨ms, parseScript_ok.2 ⟨ss, ms, hstop, hss, hms, rfl⟩, hbare⟩

/-- **Printed scripts are read back.** -/
theorem parseScript_formatScript [CharNames] {ns : List Node} {loc : Position}
    {type : Option ShellType}
    (h : ∀ n ∈ ns, Fits .line n) (hr : ∀ n ∈ ns, n.Readable) :
    ∃ ms, parseScript (formatScript ⟨loc, type, .program ns⟩) = .ok (.untyped .start (.program ms)) ∧
      ms.map bare = ns.map bare := by
  have hsource : formatScript ⟨loc, type, .program ns⟩ =
      (Doc.separate [.newline 0] (stmts 0 ns)).render := rfl
  rw [hsource]
  obtain ⟨hstop, htokens⟩ := Doc.readTokens_render (firm_script h [] breaks_nil)
  have hlines : ∀ n ∈ ns, n.ReadsLine 0 := fun n hn => (h n hn).readsBack (hr n hn) 0
  refine parseScript_of_spelled hstop ?_
  rw [scriptTokens_tokens hstop]
  exact (emits_script hlines _ htokens).strays (Layout.finish_strays _)

/-! ## Compiled scripts -/

namespace ProgramScope

variable {s : ProgramScope} {t : SymbolTable} {source : String} {tree : Node}

/-- What is compiled is a tree that could have been read from a text. -/
theorem compile_fits [CharNames] (h : (s.compile t source).result = .ok tree) :
    ∃ ns, tree.shape = .program ns ∧ ∀ n ∈ ns, Fits .line n := by
  cases hp : parseScript source with
  | error e => simp [compile, hp] at h
  | ok read =>
    obtain ⟨ns, rfl, hfits⟩ := parseScript_fits hp
    have hrun := (compile_isOk hp).1 (by rw [h]; rfl)
    obtain rfl : (Typing.run (Typing.programOf ns) (s.enter t).2).1 = tree :=
      Except.ok.inj ((compile_ok hp hrun).1.symm.trans h)
    have hkind : (Typing.programOf ns).kind ≠ .call := show NodeKind.program ≠ .call by decide
    have hrel := (run_rewrites hkind hrun).rel hkind
    generalize (Typing.run (Typing.programOf ns) (s.enter t).2).1.shape = shape at hrel ⊢
    cases hrel with
    | program hms => exact ⟨_, rfl, forall_mem_of_forall₂ hms fun n hn m hm => (hfits n hn).rewrites hm⟩

/-- **Compiled scripts are read back.** The text of a compiled script is read as the tree that it was
printed from, places and types apart, unless in the tree the body of an arrow function begins like a
block, a function with a body in braces stands in the header of a counting loop, or a function is
declared without braces around it. -/
theorem compile_readsBack [CharNames] (h : (s.compile t source).result = .ok tree)
    (hr : tree.Readable) :
    ∃ again, parseScript (formatScript tree) = .ok again ∧ again.bare = tree.bare := by
  obtain ⟨ns, hshape, hfits⟩ := compile_fits h
  obtain ⟨loc, type, shape⟩ := tree
  obtain rfl : shape = .program ns := hshape
  have hread : ∀ n ∈ ns, n.Readable := fun n hn => hr.part (by simpa [Shape.parts, Shape.kids] using hn)
  obtain ⟨ms, hparse, hbare⟩ := parseScript_formatScript hfits hread
  refine ⟨_, hparse, bare_untyped ?_⟩
  rw [Shape.map, Shape.map, hbare]

/-- A call that gets an await and parentheses around it. -/
theorem compile_readsBack_of_call :
    let t : SymbolTable := .ofScope (.ofTypes []) [("f", .type (.function none .absent true))]
    let c := unopened.compile t "for (let i = 0; i < 2; i++) x = f().y"
    ∃ tree again, c.result = .ok tree ∧ tree.Readable ∧
      parseScript (formatScript tree) = .ok again ∧ again.bare = tree.bare := by
  intro t c
  have hok : c.result.isOk := by decide +kernel
  have hreadable : c.result.toOption.all fun tree => tree.nodes.all (·.isReadable) := by
    decide +kernel
  obtain ⟨tree, h⟩ := exists_ok_of_isOk hok
  have hr : tree.Readable := by
    rw [h] at hreadable
    exact List.all_eq_true.1 hreadable
  obtain ⟨again, hparse, hbare⟩ := compile_readsBack h hr
  exact ⟨tree, again, h, hr, hparse, hbare⟩

end ProgramScope

end AutoAwait
