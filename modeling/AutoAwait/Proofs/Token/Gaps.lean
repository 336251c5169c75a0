import AutoAwait.Proofs.Token.Layout

/-!
# Where terminators stand

What the terminator step emits, told without the step's memory: whether a terminator stands between
two tokens can be read off the tokens emitted before, the newlines in between and the next token.

* `Emitted` are the tokens emitted so far; `Emitted.opened`, `Emitted.closed`, `Emitted.canEnd` are
  what they say of brackets and statements;
* `gapEnds` is the rule for the gap before a token or before the end, `Rekinds` the kinds that a
  token can be emitted with;
* `Layout.Marks` ties the step's memory to the emitted tokens: `Layout.Follows.step`;
* `LaidOutBy` is the whole rule, `laidOutBy_closing` the main statement.
-/

namespace AutoAwait

/-- The tokens emitted so far, the latest first. -/
abbrev Emitted := List Token

namespace Emitted

/-- Is a parenthesis after these tokens that of a control or function header? -/
def headerNext : Emitted → Bool
  | [] => false
  | t :: us => t.kind.startsHeader || (t.kind == .name && us.head?.any (·.kind.startsFunction))

/-- The brackets that are open after these tokens, innermost first. A closing bracket of any kind
closes the innermost one; a brace is a block's if it was emitted as one. -/
def opened : Emitted → List Bracket
  | [] => []
  | t :: us =>
    match t.kind with
    | .blockOpen => .block :: opened us
    | .lbrace => .object :: opened us
    | .lparen => (if headerNext us then .header else .paren) :: opened us
    | .lbracket => .square :: opened us
    | .rparen | .rbracket | .rbrace => (opened us).tail
    | _ => opened us

/-- Is the last token of one of the given kinds, and has it closed a bracket `b`? -/
def closed (kinds : List TokenKind) (b : Bracket) : Emitted → Bool
  | [] => false
  | t :: us => kinds.contains t.kind && (opened us).head? == some b

/-- Can a statement end after these tokens? Not after one of the kinds `closers` that has closed a
header. -/
def canEnd (closers : List TokenKind) : Emitted → Bool
  | [] => false
  | t :: us => t.kind.endsStatement && !closed closers .header (t :: us)

/-- Is the innermost open bracket a block's, or is there none? -/
def inBlock (us : Emitted) : Bool :=
  match (opened us).head? with
  | none | some .block => true
  | _ => false

/-- Is the innermost open bracket a parenthesis? -/
def inParens (us : Emitted) : Bool :=
  match (opened us).head? with
  | some .paren | some .header => true
  | _ => false

/-- Is the last token a dot? -/
def afterDot (us : Emitted) : Bool := us.head?.any (·.kind == .dot)

end Emitted

open Emitted

/-- The newline that some tokens end with, if they end with one. -/
def newline? (ts : List Token) : Option Token := ts.getLast?.filter (·.kind == .newline)

/-- Does the gap between the emitted tokens and the next token, or the end, imply a terminator? -/
def gapEnds (closers : List TokenKind) (us : Emitted) (newline : Bool) : Option Token → Bool
  | none => canEnd closers us
  | some t =>
    canEnd closers us &&
      (t.kind == .rbrace && (opened us).head? == some .block ||
        newline && inBlock us && t.kind != .semicolon && !t.kind.continuesLine &&
          !(t.kind.followsBlock && closed [.rbrace] .block us))

/-- The place of a terminator in a gap after the tokens `ts`: that of the last newline in the gap,
where a newline can end a statement, else that of the next token, else that of the last emitted
one. -/
def gapPlace (ts : List Token) (us : Emitted) (next : Option Token) : Position :=
  let newline := if inBlock us then newline? ts else none
  (((newline <|> next) <|> us.head?).map (·.loc)).getD .start

/-- What is emitted in the gap after the tokens `ts`: one terminator, or nothing. -/
def implied (closers : List TokenKind) (ts : List Token) (us : Emitted) (next : Option Token) :
    List Token :=
  if gapEnds closers us (newline? ts).isSome next then
    [⟨.terminator, "", gapPlace ts us next⟩]
  else []

/-- The kinds with which a token of some kind can be emitted: a reserved word after a dot is a name,
a brace may open a block, `function` may start a declaration. -/
inductive Rekinds (us : Emitted) : TokenKind → TokenKind → Prop
  | name {k} (hd : afterDot us) (hk : k.isKeyword) : Rekinds us k .name
  | block : Rekinds us .lbrace .blockOpen
  | declaration : Rekinds us (.keyword .function) .functionDecl
  | same {k} (h : ¬ (afterDot us ∧ k.isKeyword)) : Rekinds us k k

/-- What has been emitted for some tokens. -/
def emitted (ts : List Token) : List Token := (Layout.start.run ts).1

/-- **The rule.** What is emitted for the tokens `ts` and one more is what was emitted for `ts`,
followed by what the gap implies and by the token; a token of one of the kinds `closers` that closes
a header ends no statement. -/
structure LaidOutBy (closers : List TokenKind) : Prop where
  nothing : emitted [] = []
  newline (ts : List Token) {t : Token} :
    t.kind = .newline → emitted (ts ++ [t]) = emitted ts
  semicolon (ts : List Token) {t : Token} :
    t.kind = .semicolon → emitted (ts ++ [t]) =
      emitted ts ++ [if inParens (emitted ts).reverse then t else ⟨.terminator, "", t.loc⟩]
  token (ts : List Token) {t : Token} :
    t.kind ≠ .newline → t.kind ≠ .semicolon →
      let gap := implied closers ts (emitted ts).reverse (some t)
      ∃ k, Rekinds (gap ++ (emitted ts).reverse) t.kind k ∧
        emitted (ts ++ [t]) = emitted ts ++ gap ++ [{ t with kind := k }]
  /-- Where reading stopped at a character the end is not seen. -/
  finish (stream : TokenStream) : (layOut stream).tokens = emitted stream.tokens ++
    if stream.stop.isNone then
      implied closers stream.tokens (emitted stream.tokens).reverse none
    else []

/-! ## The step's memory -/

theorem Emitted.canEnd_cons {closers : List TokenKind} {t : Token} {us : Emitted}
    (h : t.kind ∉ closers) : canEnd closers (t :: us) = t.kind.endsStatement := by
  simp [canEnd, closed, h]

theorem newline?_snoc (ts : List Token) (t : Token) :
    newline? (ts ++ [t]) = if t.kind = .newline then some t else none := by
  rw [newline?, List.getLast?_concat, Option.filter_some]
  by_cases h : t.kind = .newline <;> simp [h]

namespace Layout

variable {us : Emitted} {ts : List Token} {s : Layout} {t : Token}

/-- The kinds that close a parenthesis or a square bracket. -/
abbrev closing : List TokenKind := [.rparen, .rbracket]

/-- What is remembered after some tokens have been emitted, newlines apart. -/
structure Marks (us : Emitted) (s : Layout) : Prop where
  opened : s.opened = Emitted.opened us
  canEnd : s.canEnd = Emitted.canEnd closing us
  closedBlock : s.closedBlock = Emitted.closed [.rbrace] .block us
  prev : s.prev = us.head?.map (·.kind)
  beforePrev : s.beforePrev = us.tail.head?.map (·.kind)
  last : s.canEnd → s.last = us.head?

namespace Marks

theorem withNewline (h : Marks us s) (n : Option Token) : Marks us { s with newline := n } :=
  { h with }

theorem newlineEnds (h : Marks us s) :
    s.newlineEnds = (Emitted.canEnd closing us && Emitted.inBlock us) := by
  rw [Layout.newlineEnds, h.canEnd, h.opened]
  rfl

theorem inParens (h : Marks us s) : s.inParens = Emitted.inParens us := by
  rw [Layout.inParens, h.opened]
  rfl

theorem beginsStatement (h : Marks us s) (k : TokenKind) : s.beginsStatement k =
    (!k.continuesLine && !(k.followsBlock && Emitted.closed [.rbrace] .block us)) := by
  rw [Layout.beginsStatement, h.closedBlock]

theorem opensHeader (h : Marks us s) : s.opensHeader = Emitted.headerNext us := by
  rw [Layout.opensHeader, h.prev, h.beforePrev]
  rcases us with - | ⟨t, - | ⟨u, us⟩⟩ <;> rfl

theorem afterDot (h : Marks us s) : s.prev = some .dot ↔ Emitted.afterDot us := by
  rw [h.prev]
  cases us <;> simp [Emitted.afterDot]

theorem reads (h : Marks us s) (t : Token) :
    Rekinds us t.kind (s.rekind t).kind ∧ s.rekind t = { t with kind := (s.rekind t).kind } := by
  simp only [rekind, h.afterDot]
  split
  · rename_i hd
    exact ⟨.name hd.1 hd.2, rfl⟩
  · rename_i hd
    split
    · rename_i hb
      rw [hb.1]
      exact ⟨.block, rfl⟩
    · split
      · rename_i hf
        rw [hf.1]
        exact ⟨.declaration, rfl⟩
      · exact ⟨.same hd, rfl⟩

/-- A token that is emitted: of the memory only the brackets, and what the token itself says of
headers and blocks, are not set anew. -/
theorem emit (h : Marks us s) (t : Token) (bs : List Bracket) (hb : bs = Emitted.opened (t :: us))
    {ends closes : Bool} (he : ends = Emitted.canEnd closing (t :: us))
    (hc : closes = Emitted.closed [.rbrace] .block (t :: us)) {start header : Bool} :
    Marks (t :: us) { s.emit t with
      opened := bs, canEnd := ends, closedBlock := closes, atStart := start
      afterHeader := header } where
  opened := hb
  canEnd := he
  closedBlock := hc
  prev := rfl
  beforePrev := h.prev
  last _ := rfl

theorem terminate (h : Marks us s) (t : Token) : Marks (terminatorAt t :: us) s.terminate where
  opened := h.opened
  canEnd := rfl
  closedBlock := rfl
  prev := rfl
  beforePrev := h.prev
  last := nofun

end Marks

/-- A brace that closes a block implies a terminator, and nothing else does when it is emitted. -/
theorem place_fst (s : Layout) (t : Token) : (s.place t).1 =
    (if t.kind = .rbrace ∧ s.opened.head? = some .block ∧ s.canEnd then
      [terminatorAt (s.rekind t)] else []) ++ [s.rekind t] := by
  have hr : (s.rekind t).kind = .rbrace ↔ t.kind = .rbrace := by
    unfold rekind
    split
    · rename_i h
      constructor
      · nofun
      · intro hk
        rw [hk] at h
        cases h.2
    · split
      · rename_i h
        simp [h.1]
      · split
        · rename_i h
          simp [h.1]
        · rfl
  simp only [← hr]
  unfold place
  generalize s.rekind t = t
  obtain ⟨k, text, loc⟩ := t
  cases k with
  | rbrace =>
    by_cases h : s.opened.head? = some .block ∧ s.canEnd
    · simp [h]
    · simp only [not_and, Bool.not_eq_true] at h
      by_cases hb : s.opened.head? = some .block
      · simp [hb, h hb]
      · simp [hb]
  | rparen | rbracket =>
    simp only
    split <;> rfl
  | _ => rfl

theorem Marks.closeBracket (h : Marks us s) (hk : t.kind ∈ closing) :
    Marks ((s.closeBracket t).1.reverse ++ us) (s.closeBracket t).2 := by
  obtain ⟨hopened, hends, hblock⟩ : Emitted.opened (t :: us) = (Emitted.opened us).tail ∧
      t.kind.endsStatement ∧ Emitted.closed [.rbrace] .block (t :: us) = false := by
    obtain ⟨k, text, loc⟩ := t
    rcases List.mem_pair.1 hk with rfl | rfl <;> exact ⟨rfl, rfl, rfl⟩
  rw [← h.opened] at hopened
  have hcan : Emitted.canEnd closing (t :: us) = !(s.opened.head? == some .header) := by
    rw [Emitted.canEnd, hends, Emitted.closed,
      show closing.contains t.kind = true by simpa using hk, Bool.true_and, Bool.true_and, h.opened]
  unfold Layout.closeBracket
  split
  · rename_i hh
    refine h.emit t _ hopened.symm ?_ hblock.symm
    rw [hcan, hh]
    rfl
  · rename_i hh
    refine h.emit t _ hopened.symm ?_ hblock.symm
    rw [hcan, beq_eq_false_iff_ne.2 hh]
    exact hends

theorem Marks.place (h : Marks us s) (t : Token) :
    Marks ((s.place t).1.reverse ++ us) (s.place t).2 := by
  unfold Layout.place
  generalize s.rekind t = t
  obtain ⟨k, text, loc⟩ := t
  cases k with
  | rbrace =>
    have hcloses : (s.opened.head? == some .block) =
        Emitted.closed [.rbrace] .block (⟨.rbrace, text, loc⟩ :: us) := by
      rw [h.opened]
      rfl
    simp only
    split
    · exact (h.terminate ⟨.rbrace, text, loc⟩).emit _ _ (congrArg List.tail h.opened) rfl hcloses
    · exact h.emit _ _ (congrArg List.tail h.opened) rfl hcloses
  | blockOpen => exact h.emit _ _ (congrArg (.block :: ·) h.opened) rfl rfl
  | lbrace => exact h.emit _ _ (congrArg (.object :: ·) h.opened) rfl rfl
  | lparen =>
    refine h.emit _ _ ?_ rfl rfl
    rw [h.opensHeader, h.opened]
    rfl
  | lbracket => exact h.emit _ _ (congrArg (.square :: ·) h.opened) rfl rfl
  | rparen | rbracket => exact h.closeBracket (by simp)
  | _ => exact h.emit _ _ h.opened (Emitted.canEnd_cons (by simp)).symm rfl

/-- What is remembered after the tokens `ts`, for which `us` was emitted. -/
structure Follows (ts : List Token) (us : Emitted) (s : Layout) : Prop extends Marks us s where
  newline : s.newline = if s.newlineEnds then newline? ts else none

namespace Follows

theorem of_marks (h : Marks us s) (hn : s.newline = none) (ht : t.kind ≠ .newline) :
    Follows (ts ++ [t]) us s :=
  { h with newline := by rw [newline?_snoc, if_neg ht, hn, ite_self] }

theorem start : Follows [] [] Layout.start where
  opened := rfl
  canEnd := rfl
  closedBlock := rfl
  prev := rfl
  beforePrev := rfl
  last := nofun
  newline := rfl

/-- A newline is not emitted; it may end the statement before it. -/
theorem step_newline (h : Follows ts us s) (ht : t.kind = .newline) :
    (s.step t).1 = [] ∧ Follows (ts ++ [t]) us (s.step t).2 := by
  rw [step, ht]
  refine ⟨rfl, ?_⟩
  simp only
  split
  · rename_i he
    refine { h.toMarks.withNewline (some t) with newline := ?_ }
    rw [newline?_snoc, if_pos ht]
    exact (if_pos he).symm
  · rename_i he
    refine { h.toMarks with newline := ?_ }
    rw [h.newline, if_neg he, if_neg he]

/-- A semicolon is emitted as it is between parentheses, and else as a terminator. -/
theorem step_semicolon (h : Follows ts us s) (ht : t.kind = .semicolon) :
    (s.step t).1 = [if Emitted.inParens us then t else terminatorAt t] ∧
      Follows (ts ++ [t]) ((s.step t).1.reverse ++ us) (s.step t).2 := by
  have hm := h.toMarks.withNewline none
  simp only [step, ht, hm.inParens]
  have hne : t.kind ≠ .newline := by simp [ht]
  split
  · refine ⟨rfl, of_marks (hm.emit t _ ?_ ?_ ?_) rfl hne⟩
    · rw [Emitted.opened, ht]
      exact h.opened
    · rw [Emitted.canEnd_cons (by simp [ht])]
    · simp [Emitted.closed, ht]
  · exact ⟨rfl, of_marks (hm.terminate t) rfl hne⟩

theorem gapEnds_eq (h : Follows ts us s) (hs : t.kind ≠ .semicolon) :
    gapEnds closing us (newline? ts).isSome (some t) =
      (s.canEnd && t.kind == .rbrace && s.opened.head? == some .block ||
        s.newline.isSome && s.beginsStatement t.kind) := by
  have hn : s.newline.isSome = (s.newlineEnds && (newline? ts).isSome) := by
    rw [h.newline]
    cases s.newlineEnds <;> rfl
  rw [hn, h.newlineEnds, h.beginsStatement, h.canEnd, h.opened, gapEnds, bne_iff_ne.2 hs]
  simp only [Bool.and_true, Bool.and_or_distrib_left, Bool.and_assoc]
  congr 2
  rw [Bool.and_left_comm]

/-- A newline that is remembered is the last one in the gap, where a statement can end. -/
theorem newline_some (h : Follows ts us s) {n : Token} (hn : s.newline = some n) :
    newline? ts = some n ∧ s.canEnd ∧ Emitted.inBlock us := by
  have he := h.newline
  rw [hn] at he
  split at he
  · rename_i hends
    rw [h.newlineEnds, Bool.and_eq_true, ← h.canEnd] at hends
    exact ⟨he.symm, hends⟩
  · cases he

/-- A token that is placed right after what was emitted, but for the terminator that it implies. -/
theorem of_place (ts : List Token) (hm : Marks us s) (hnone : s.newline = none)
    (ht : t.kind ≠ .newline) :
    let gap := if t.kind = .rbrace ∧ s.opened.head? = some .block ∧ s.canEnd then
      [terminatorAt t] else []
    ∃ k, Rekinds (gap ++ us) t.kind k ∧ (s.place t).1 = gap ++ [{ t with kind := k }] ∧
      Follows (ts ++ [t]) ((s.place t).1.reverse ++ us) (s.place t).2 := by
  intro gap
  obtain ⟨hr, he⟩ := hm.reads t
  have hloc : terminatorAt (s.rekind t) = terminatorAt t := by rw [he]; rfl
  refine ⟨(s.rekind t).kind, ?_, ?_, of_marks (hm.place t) ((s.place_newline t).trans hnone) ht⟩
  · simp only [gap]
    split
    · rename_i hb
      rw [hb.1] at hr ⊢
      generalize (s.rekind t).kind = k at hr ⊢
      cases hr with
      | name _ hk => cases hk
      | same _ => exact .same fun hk => by cases hk.2
    · exact hr
  · rw [place_fst, hloc, ← he]

/-- Any other token is emitted, after the terminator that the gap before it implies. -/
theorem step_token (h : Follows ts us s) (hn : t.kind ≠ .newline) (hs : t.kind ≠ .semicolon) :
    let gap := implied closing ts us (some t)
    ∃ k, Rekinds (gap ++ us) t.kind k ∧ (s.step t).1 = gap ++ [{ t with kind := k }] ∧
      Follows (ts ++ [t]) ((s.step t).1.reverse ++ us) (s.step t).2 := by
  have hm := h.toMarks.withNewline none
  have hgap := h.gapEnds_eq hs
  by_cases hb : s.newline.isSome ∧ s.beginsStatement t.kind
  · -- the newline in the gap ends the statement
    obtain ⟨n, hnew⟩ := Option.isSome_iff_exists.1 hb.1
    have himp : implied closing ts us (some t) = [terminatorAt n] := by
      obtain ⟨hlast, -, hin⟩ := h.newline_some hnew
      rw [implied, hgap, hb.1, hb.2, gapPlace, hlast, hin]
      simp [terminatorAt]
    obtain ⟨k, hk, hfst, hf⟩ := of_place ts (hm.terminate n) rfl hn
    rw [if_neg (by rintro ⟨-, -, hc⟩; cases hc)] at hk hfst
    rw [himp, step_of_ne hn hs, hnew]
    simp only [hb.2, if_true]
    refine ⟨k, hk, congrArg _ hfst, ?_⟩
    rw [List.reverse_cons, List.append_assoc]
    exact hf
  · -- only a brace that closes a block can imply a terminator
    have hstep : s.step t = ({ s with newline := none } : Layout).place t := by
      rw [step_of_ne hn hs]
      split
      · rename_i n hnew
        exact if_neg fun hb' => hb ⟨by rw [hnew]; rfl, hb'⟩
      · rfl
    have himp : implied closing ts us (some t) =
        if t.kind = .rbrace ∧ s.opened.head? = some .block ∧ s.canEnd then
          [terminatorAt t] else [] := by
      have hb' : (s.newline.isSome && s.beginsStatement t.kind) = false := by simpa using hb
      rw [implied, hgap, hb', Bool.or_false]
      simp only [Bool.and_eq_true, beq_iff_eq]
      split
      · rename_i hc
        have hnone : newline? ts = none := by
          have he := h.newline
          rw [Layout.newlineEnds, hc.1.1, hc.2] at he
          have hn : s.newline = none := by
            by_contra hn
            refine hb ⟨Option.isSome_iff_ne_none.2 hn, ?_⟩
            rw [hc.1.2]
            rfl
          exact he.symm.trans hn
        rw [if_pos ⟨hc.1.2, hc.2, hc.1.1⟩, gapPlace, hnone, ite_self]
        rfl
      · rename_i hc
        rw [if_neg fun hc' => hc ⟨⟨hc'.2.2, hc'.1⟩, hc'.2.1⟩]
    rw [himp, hstep]
    exact of_place ts hm rfl hn

/-- At the end a terminator is emitted if a statement can end there. -/
theorem finish (h : Follows ts us s) : s.finish = implied closing ts us none := by
  rw [implied, gapEnds, ← h.canEnd, Layout.finish]
  cases hn : s.newline with
  | some n =>
    obtain ⟨hlast, hc, hin⟩ := h.newline_some hn
    rw [hc, gapPlace, hlast, hin]
    rfl
  | none =>
    cases hc : s.canEnd with
    | false => rfl
    | true =>
      have he := h.newline
      rw [hn, h.newlineEnds, ← h.canEnd, hc, Bool.true_and] at he
      have hl := h.last hc
      have hus := h.canEnd
      cases us with
      | nil =>
        rw [hc] at hus
        cases hus
      | cons u us =>
        rw [hl, gapPlace, ← he]
        rfl

end Follows

/-- After any run the memory is what the emitted tokens say. -/
theorem follows_run (ts : List Token) : Follows ts (emitted ts).reverse (start.run ts).2 := by
  induction ts using List.reverseRecOn with
  | nil => exact .start
  | append_singleton ts t ih =>
    rw [emitted, run_append, run, run, List.append_nil, List.reverse_append]
    by_cases hn : t.kind = .newline
    · obtain ⟨he, hf⟩ := ih.step_newline hn
      rw [he]
      exact hf
    by_cases hs : t.kind = .semicolon
    · exact (ih.step_semicolon hs).2
    · obtain ⟨k, -, -, hf⟩ := ih.step_token hn hs
      exact hf

theorem emitted_snoc (ts : List Token) (t : Token) :
    emitted (ts ++ [t]) = emitted ts ++ ((start.run ts).2.step t).1 := by
  rw [emitted, run_append, run, run, List.append_nil]
  rfl

end Layout

open Layout in
/-- **Every gap follows the rule**, where neither a parenthesis nor a square bracket that closes a
header ends a statement. -/
theorem laidOutBy_closing : LaidOutBy [.rparen, .rbracket] where
  nothing := rfl
  newline ts t ht := by
    rw [emitted_snoc, ((follows_run ts).step_newline ht).1, List.append_nil]
  semicolon ts t ht := by
    rw [emitted_snoc, ((follows_run ts).step_semicolon ht).1]
    rfl
  token ts t hn hs := by
    obtain ⟨k, hk, he, -⟩ := (follows_run ts).step_token hn hs
    refine ⟨k, hk, ?_⟩
    rw [emitted_snoc, he, List.append_assoc]
  finish stream := by
    rw [← (follows_run stream.tokens).finish]
    unfold layOut
    split
    · rfl
    · exact (List.append_nil _).symm

/-- In `if (a]`, followed by `b` on the next line, the square bracket closes the header. No
statement ends there, although no parenthesis has closed the header. -/
theorem not_laidOutBy_rparen :
    (layOut (readTokens "if (a]\nb".toList)).tokens.map (·.kind) =
        [.keyword .if, .lparen, .name, .rbracket, .name, .terminator] ∧
      ¬ LaidOutBy [.rparen] := by
  refine ⟨by decide +kernel, fun h => ?_⟩
  let ts := (readTokens "if (a]\n".toList).tokens
  let t : Token := ⟨.name, "b", ⟨2, 1⟩⟩
  obtain ⟨k, -, he⟩ := h.token ts (t := t) (by decide) (by decide)
  have hl := congrArg List.length he
  rw [List.length_append, List.length_append, List.length_singleton] at hl
  exact absurd hl (by decide +kernel)

end AutoAwait
