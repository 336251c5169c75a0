import AutoAwait.Proofs.Token.Genuine
import AutoAwait.Script

/-!
# Places and comments

A text that is read to its end is its lexemes, one after the other. Each token stands where its
first character stands, and a comment does no more than a space would.

* `Position.after` is the place after some characters, counted in newlines and characters;
* `Lexeme.Proper` says what the text of a lexeme looks like, `Lexes.proper` that it is so;
* `Lexes.before_space` is the step: a lexeme before a comment is read again before a space;
  `words_without_comment` is about whole texts;
* `lexemes_placed_and_comments_blank` is the main statement.
-/

namespace AutoAwait

/-! ## Places -/

namespace Position

/-- The place after some characters from the start of a text: each newline begins a line, and each
character since the last one takes a column. -/
def after (cs : List Char) : Position :=
  ⟨1 + cs.count '\n', 1 + (cs.reverse.takeWhile (· ≠ '\n')).length⟩

theorem advance_start (cs : List Char) : start.advance cs = after cs := by
  induction cs using List.reverseRecOn with
  | nil => rfl
  | append_singleton cs c ih =>
    rw [advance_append, ih]
    show next _ c = _
    by_cases hc : c = '\n'
    · simp [next, after, hc, Nat.add_assoc]
    · simp [next, after, hc, Nat.add_comm]

end Position

/-! ## Lexemes by their texts -/

namespace Lexeme

/-- The kind and the text of a lexeme that is a token. -/
def word? (l : Lexeme) : Option (TokenKind × String) :=
  match l.kind with
  | .token k => some (k, String.ofList l.text)
  | _ => none

/-- Is this lexeme a comment? -/
def isComment (l : Lexeme) : Bool := l.kind = .lineComment || l.kind = .blockComment

/-- Does the text of a lexeme look as its kind says? A line comment ends before a newline, a block
comment with the first closing mark after the opening one. -/
def Proper (l : Lexeme) : Prop :=
  match l.kind with
  | .token k => IsToken k (String.ofList l.text)
  | .blank => l.text ≠ [] ∧ ∀ c ∈ l.text, isInlineBlank c
  | .lineComment => ∃ cs, l.text = '/' :: '/' :: cs ∧ '\n' ∉ cs
  | .blockComment =>
    ∃ cs, l.text = '/' :: '*' :: cs ++ ['*', '/'] ∧ ¬ ['*', '/'] <:+: cs ++ ['*']

end Lexeme

theorem commentRest_closes {cs w rest : List Char} (h : commentRest cs = some (w, rest)) :
    ∃ ds, w = ds ++ ['*', '/'] ∧ ¬ ['*', '/'] <:+: ds ++ ['*'] := by
  fun_induction commentRest cs generalizing w with
  | case1 cs =>
    cases h
    exact ⟨[], rfl, by decide⟩
  | case2 c cs hn ih =>
    obtain ⟨⟨w, _⟩, hr, ⟨⟩⟩ := Option.map_eq_some_iff.1 h
    obtain ⟨ds, rfl, hds⟩ := ih hr
    refine ⟨c :: ds, rfl, fun hi => ?_⟩
    rcases List.infix_cons_iff.1 hi with hp | hi
    · -- the mark would have been found here
      obtain ⟨rfl, hslash⟩ := List.cons_prefix_cons.1 hp
      cases ds with
      | nil => exact absurd hslash (by decide)
      | cons d ds =>
        obtain ⟨rfl, -⟩ := List.cons_prefix_cons.1 hslash
        exact hn (ds ++ ['*', '/'] ++ _) rfl (commentRest_some hr).1
    · exact hds hi
  | case3 => cases h

theorem Lexes.proper {cs : List Char} {l : Lexeme} {rest : List Char} (h : Lexes cs l rest) :
    l.Proper := by
  cases h with
  | string h => exact (Lexes.string h).isToken
  | number hq h => exact (Lexes.number hq h).isToken
  | name hq hn h => exact (Lexes.name hq hn h).isToken
  | symbol hq hn hm hb hl hs h => exact (Lexes.symbol hq hn hm hb hl hs h).isToken
  | blank _ _ _ _ _ h =>
    have hw := (blank?_split h).2
    rw [blank?] at h
    split at h
    · cases h
    · cases h
      exact ⟨fun he => by simp [show cs.takeWhile isInlineBlank = [] from he] at hw,
        fun c => List.mem_takeWhile_imp⟩
  | lineComment _ _ _ _ h =>
    unfold lineComment? at h
    split at h
    · cases h
      exact ⟨_, rfl, fun hn => by simpa using List.mem_takeWhile_imp hn⟩
    · cases h
  | blockComment _ _ _ h =>
    unfold blockComment? at h
    split at h
    · obtain ⟨⟨w, _⟩, hr, ⟨⟩⟩ := Option.map_eq_some_iff.1 h
      obtain ⟨ds, rfl, hds⟩ := commentRest_closes hr
      exact ⟨ds, rfl, hds⟩
    · cases h

theorem proper_of_mem_lexemes {cs : List Char} {l : Lexeme} (h : l ∈ (lexemes cs).1) :
    l.Proper := by
  induction cs using lexemes_induction with
  | none cs hn =>
    rw [lexemes_none hn] at h
    cases h
  | cons cs l' rest hl ih =>
    rw [lexemes_cons hl] at h
    rcases List.mem_cons.1 h with rfl | h
    · exact hl.proper
    · exact ih h

theorem words_tokensFrom (p : Position) (ls : List Lexeme) :
    (tokensFrom p ls).map Token.word = ls.filterMap Lexeme.word? := by
  induction ls generalizing p with
  | nil => rfl
  | cons l ls ih =>
    rw [tokensFrom_cons, List.map_append, ih, List.filterMap_cons, Lexeme.word?]
    cases l.kind <;> rfl

/-- A token stands after the texts of all lexemes before it. -/
theorem tokensFrom_getElem? (p : Position) (us vs : List Lexeme) {l : Lexeme}
    {w : TokenKind × String} (h : l.word? = some w) :
    (tokensFrom p (us ++ l :: vs))[(us.filterMap Lexeme.word?).length]? =
      some ⟨w.1, w.2, p.advance (us.flatMap (·.text))⟩ := by
  have hlen : (us.filterMap Lexeme.word?).length = (tokensFrom p us).length := by
    rw [← words_tokensFrom p us, List.length_map]
  obtain ⟨kind, text⟩ := l
  cases kind with
  | token k =>
    cases h
    rw [tokensFrom_append, hlen, List.getElem?_append_right (Nat.le_refl _), Nat.sub_self]
    rfl
  | _ => cases h

/-! ## A space for a comment -/

theorem cuts_space : Cuts ' ' := ⟨by decide, by decide, by decide, by decide, by decide⟩

theorem cuts_slash : Cuts '/' := ⟨by decide, by decide, by decide, by decide, by decide⟩

theorem commentRest_suffix {cs post : List Char} (h : commentRest cs = none) (hp : post <:+ cs) :
    commentRest post = none := by
  induction cs with
  | nil =>
    rw [List.suffix_nil.1 hp]
    exact h
  | cons c cs ih =>
    rcases List.suffix_cons_iff.1 hp with rfl | hp
    · exact h
    · refine ih ?_ hp
      rw [commentRest_cons] at h
      · exact Option.map_eq_none_iff.1 h
      · rintro ⟨rfl, he⟩
        obtain ⟨ds, rfl⟩ := List.head?_eq_some_iff.1 he
        cases h

/-- A block comment that is not closed stays so if a part of the text becomes a space. -/
theorem commentRest_space {us cs post : List Char} (h : commentRest (us ++ cs) = none)
    (hp : post <:+ cs) : commentRest (us ++ ' ' :: post) = none := by
  induction us with
  | nil =>
    rw [List.nil_append, commentRest_cons (fun hc => absurd hc.1 (by decide)),
      commentRest_suffix h hp, Option.map_none]
  | cons u us ih =>
    have hu : ¬ (u = '*' ∧ (us ++ cs).head? = some '/') := by
      rintro ⟨rfl, he⟩
      obtain ⟨ds, hds⟩ := List.head?_eq_some_iff.1 he
      rw [List.cons_append, hds] at h
      cases h
    have hu' : ¬ (u = '*' ∧ (us ++ ' ' :: post).head? = some '/') := by
      rintro ⟨rfl, he⟩
      cases us with
      | nil => cases he
      | cons _ _ => exact hu ⟨rfl, he⟩
    rw [List.cons_append, commentRest_cons hu] at h
    rw [List.cons_append, commentRest_cons hu', ih (Option.map_eq_none_iff.1 h), Option.map_none]

theorem blockComment?_space {u : Char} {us es post : List Char}
    (h : blockComment? (u :: us ++ '/' :: es) = none) (hp : post <:+ es) :
    blockComment? (u :: us ++ ' ' :: post) = none := by
  by_cases ho : ∃ vs, u :: us = '/' :: '*' :: vs
  · obtain ⟨vs, ho⟩ := ho
    rw [ho] at h ⊢
    rw [List.cons_append, List.cons_append, blockComment?] at h ⊢
    rw [commentRest_space (Option.map_eq_none_iff.1 h) (hp.trans (List.suffix_cons _ _)),
      Option.map_none]
  · refine blockComment?_none fun ds he => ho ?_
    cases us with
    | nil => cases he
    | cons v vs =>
      cases he
      exact ⟨vs, rfl⟩

theorem lineComment?_space {u : Char} {us es post : List Char}
    (h : lineComment? (u :: us ++ '/' :: es) = none) :
    lineComment? (u :: us ++ ' ' :: post) = none := by
  refine lineComment?_none fun ds he => ?_
  cases us with
  | nil => cases he
  | cons v vs =>
    cases he
    cases h

theorem dropWhile_line (cs : List Char) :
    cs.dropWhile (· ≠ '\n') = [] ∨ (cs.dropWhile (· ≠ '\n')).head? = some '\n' := by
  induction cs with
  | nil => exact .inl rfl
  | cons c cs ih =>
    by_cases hc : c = '\n'
    · exact .inr (by simp [hc])
    · rw [List.dropWhile_cons_of_pos (by simpa using hc)]
      exact ih

/-- A line comment, which reaches to the end of its line, is the same whatever comes after it on
later lines. -/
theorem lineComment?_again {cs w us es : List Char}
    (h : lineComment? cs = some (w, us ++ '/' :: es)) (ds : List Char) :
    lineComment? (w ++ us ++ ' ' :: ds) = some (w, us ++ ' ' :: ds) := by
  unfold lineComment? at h
  split at h
  · rename_i vs
    obtain ⟨rfl, hrest⟩ := Prod.mk.inj (Option.some.inj h)
    have hus : ∀ c ∈ (us ++ ' ' :: ds).head?, decide (c ≠ '\n') = false := by
      have hline := dropWhile_line vs
      rw [hrest] at hline
      cases us with
      | nil => rcases hline with hline | hline <;> cases hline
      | cons u us =>
        rcases hline with hline | hline <;> cases hline
        rintro _ ⟨⟩
        rfl
    rw [List.append_assoc, List.cons_append, List.cons_append, lineComment?_slashes,
      takeWhile_again hus, dropWhile_again hus]
  · cases h

theorem Lexeme.Proper.slash {l : Lexeme} (h : l.Proper) (hl : l.isComment) :
    ∃ ds, l.text = '/' :: ds := by
  unfold Proper at h
  simp only [isComment, Bool.or_eq_true, decide_eq_true_eq] at hl
  rcases hl with hl | hl <;> rw [hl] at h <;> obtain ⟨ds, hds, -⟩ := h <;> exact ⟨_, hds⟩

/-- No lexeme but a string begins with a quote. -/
theorem Lexes.quoted?_eq_none {cs : List Char} {l : Lexeme} {rest : List Char}
    (h : Lexes cs l rest) (hq : quoted? cs = none) (ds : List Char) :
    quoted? (l.text ++ ds) = none := by
  obtain ⟨c, w, hw⟩ := List.exists_cons_of_ne_nil h.split.2
  rw [hw, List.cons_append, quoted?_cons, if_neg]
  intro hc
  replace hw : l.text.head? = some c := by rw [hw]; rfl
  cases h with
  | string h =>
    rw [hq] at h
    cases h
  | number _ h =>
    have hd := (number?_split h).2
    rw [show _ = some c from hw] at hd
    rcases hc with rfl | rfl <;> exact absurd hd (by decide)
  | name _ _ h =>
    have hd := (name?_split h).2
    rw [show _ = some c from hw] at hd
    rcases hc with rfl | rfl <;> exact absurd hd (by decide)
  | blank _ _ _ _ _ h =>
    have hd := (blank?_split h).2
    rw [show _ = some c from hw] at hd
    rcases hc with rfl | rfl <;> exact absurd hd (by decide)
  | blockComment hq hn hm h =>
    obtain ⟨ds, hds⟩ := (Lexes.blockComment hq hn hm h).proper.slash rfl
    rw [hds] at hw
    obtain rfl := Option.some.inj hw
    exact absurd hc (by decide)
  | lineComment hq hn hm hb h =>
    obtain ⟨ds, hds⟩ := (Lexes.lineComment hq hn hm hb h).proper.slash rfl
    rw [hds] at hw
    obtain rfl := Option.some.inj hw
    exact absurd hc (by decide)
  | symbol _ _ _ _ _ _ h =>
    have hs : ∀ s ∈ symbols, s.1.head? ≠ some '\'' ∧ s.1.head? ≠ some '"' := by decide
    have hd := hs _ (symbol?_split h).2
    rcases hc with rfl | rfl
    · exact hd.1 hw
    · exact hd.2 hw

/-- A lexeme some way before a comment, which begins with a slash, is read again if there is a space
in place of the comment. -/
theorem Lexes.before_space {cs : List Char} {l : Lexeme} {us es post : List Char}
    (h : Lexes cs l (us ++ '/' :: es)) (hl : l.kind ≠ .blank) (hp : post <:+ es) :
    Lexes (l.text ++ us ++ ' ' :: post) l (us ++ ' ' :: post) := by
  obtain ⟨hsplit, hne⟩ := h.split
  obtain ⟨c, w, hw⟩ := List.exists_cons_of_ne_nil hne
  rw [← List.append_assoc] at hsplit
  have hq : quoted? cs = none → quoted? (l.text ++ us ++ ' ' :: post) = none := fun hq => by
    rw [List.append_assoc]
    exact h.quoted?_eq_none hq _
  have hn : number? cs = none → number? (l.text ++ us ++ ' ' :: post) = none := fun h => by
    rw [hsplit, number?_before cuts_slash] at h
    rw [number?_before cuts_space, Option.map_eq_none_iff.1 h, Option.map_none]
  have hm : name? cs = none → name? (l.text ++ us ++ ' ' :: post) = none := fun h => by
    rw [hsplit, name?_before cuts_slash] at h
    rw [name?_before cuts_space, Option.map_eq_none_iff.1 h, Option.map_none]
  have hb : blockComment? cs = none → blockComment? (l.text ++ us ++ ' ' :: post) = none := by
    rw [hsplit, hw]
    exact fun h => blockComment?_space h hp
  have hlc : lineComment? cs = none → lineComment? (l.text ++ us ++ ' ' :: post) = none := by
    rw [hsplit, hw]
    exact lineComment?_space
  have hs : blank? cs = none → blank? (l.text ++ us ++ ' ' :: post) = none := by
    have hblank : ∀ ds, blank? (c :: ds) = none ↔ isInlineBlank c = false := fun ds => by
      simp [blank?, List.takeWhile_cons]
    rw [hsplit, hw]
    exact fun h => (hblank _).2 ((hblank _).1 h)
  have hinj : Function.Injective fun r : List Char × List Char => (r.1, r.2 ++ '/' :: es) := by
    rintro ⟨a, b⟩ ⟨a', b'⟩ he
    simpa using he
  have hinj' : Function.Injective fun r : TokenKind × List Char × List Char =>
      (r.1, r.2.1, r.2.2 ++ '/' :: es) := by
    rintro ⟨k, a, b⟩ ⟨k', a', b'⟩ he
    simpa using he
  cases h with
  | string h =>
    rw [List.append_assoc]
    exact .string ((quoted?_some h).2 _)
  | number hq' h =>
    refine .number (hq hq') ?_
    rw [hsplit, number?_before cuts_slash] at h
    have hr : number? (_ ++ us) = some (_, us) := Option.map_injective hinj h
    rw [number?_before cuts_space, hr]
    rfl
  | name hq' hn' h =>
    refine .name (hq hq') (hn hn') ?_
    rw [hsplit, name?_before cuts_slash] at h
    have hr : name? (_ ++ us) = some (_, us) := Option.map_injective hinj h
    rw [name?_before cuts_space, hr]
    rfl
  | blockComment hq' hn' hm' h =>
    refine .blockComment (hq hq') (hn hn') (hm hm') ?_
    rw [List.append_assoc]
    exact (blockComment?_some h).2 _
  | lineComment hq' hn' hm' hb' h =>
    exact .lineComment (hq hq') (hn hn') (hm hm') (hb hb') (lineComment?_again h _)
  | blank => exact absurd rfl hl
  | symbol hq' hn' hm' hb' hl' hs' h =>
    refine .symbol (hq hq') (hn hn') (hm hm') (hb hb') (hlc hl') (hs hs') ?_
    have hcs : _ ++ us ≠ [] := List.append_ne_nil_of_left_ne_nil hne us
    rw [hsplit, symbol?_before cuts_slash hcs] at h
    have hr : symbol? (_ ++ us) = some (_, _, us) := Option.map_injective hinj' h
    rw [symbol?_before cuts_space hcs, hr]
    rfl

/-! ## Whole texts -/

theorem words_blanks {ws : List Char} (h : ∀ c ∈ ws, isInlineBlank c) (cs : List Char) :
    (lexemes (ws ++ cs)).1.filterMap Lexeme.word? = (lexemes cs).1.filterMap Lexeme.word? := by
  rw [← words_tokensFrom .start, (lexemes_blanks h cs).2, words_tokensFrom]

/-- A text with a space in place of a comment is read to its end, as the same tokens. -/
theorem words_without_comment {cs : List Char} (h : (lexemes cs).2 = []) {us vs : List Lexeme}
    {l : Lexeme} (hl : l.isComment) (hcut : (lexemes cs).1 = us ++ l :: vs) :
    let ds := us.flatMap (·.text) ++ ' ' :: vs.flatMap (·.text)
    (lexemes ds).2 = [] ∧
      (lexemes ds).1.filterMap Lexeme.word? = (lexemes cs).1.filterMap Lexeme.word? := by
  induction cs using lexemes_induction generalizing us with
  | none cs hn =>
    rw [lexemes_none hn] at hcut
    cases us <;> cases hcut
  | cons cs l' rest hl' ih =>
    rw [lexemes_cons hl'] at h hcut ⊢
    have hrest := flatMap_text_lexemes h
    cases us with
    | nil =>
      obtain ⟨rfl, rfl⟩ := List.cons.inj hcut
      have hspace : ∀ c ∈ [' '], isInlineBlank c := by simp [isInlineBlank]
      have hword : l'.word? = none := by
        simp only [Lexeme.isComment, Bool.or_eq_true, decide_eq_true_eq] at hl
        rcases hl with hl | hl <;> simp [Lexeme.word?, hl]
      rw [hrest, List.filterMap_cons_none hword]
      exact ⟨(lexemes_blanks hspace rest).1.trans h, words_blanks hspace rest⟩
    | cons u us =>
      obtain ⟨rfl, htail⟩ := List.cons.inj (hcut.trans (List.cons_append ..))
      obtain ⟨hstop, hwords⟩ := ih h htail
      rw [List.flatMap_cons, List.append_assoc]
      by_cases hb : l'.kind = .blank
      · have hws : ∀ c ∈ l'.text, isInlineBlank c := by
          have hp := hl'.proper
          rw [Lexeme.Proper, hb] at hp
          exact hp.2
        have hword : l'.word? = none := by simp [Lexeme.word?, hb]
        rw [List.filterMap_cons_none hword]
        exact ⟨(lexemes_blanks hws _).1.trans hstop, (words_blanks hws _).trans hwords⟩
      · -- what comes after the lexeme goes on to a slash
        have hmem : l ∈ (lexemes rest).1 := by simp [htail]
        obtain ⟨es, hes⟩ := (proper_of_mem_lexemes hmem).slash hl
        rw [htail, List.flatMap_append, List.flatMap_cons, hes] at hrest
        rw [← hrest] at hl'
        have hnext := hl'.before_space hb (List.suffix_append es (vs.flatMap (·.text)))
        rw [List.append_assoc] at hnext
        intro ds
        rw [show lexemes ds = _ from lexemes_cons hnext]
        exact ⟨hstop, by rw [List.filterMap_cons, List.filterMap_cons, hwords]⟩

/-- The terminator step does not look at places. -/
theorem words_layOut {ts us : TokenStream} (ht : ts.stop = none) (hu : us.stop = none)
    (h : ts.tokens.map Token.word = us.tokens.map Token.word) :
    (layOut ts).tokens.map Token.word = (layOut us).tokens.map Token.word := by
  let φ : Position → Position := fun _ => .start
  have halike : Layout.Alike φ .start .start :=
    ⟨rfl, rfl, rfl, rfl, rfl, rfl, nofun, nofun, rfl⟩
  have hmove : ∀ {vs : List Token},
      vs.map (·.move φ) = (vs.map Token.word).map fun w => ⟨w.1, w.2, .start⟩ := by
    intro vs
    rw [List.map_map]
    rfl
  have hword : ∀ {vs : List Token}, (vs.map (·.move φ)).map Token.word = vs.map Token.word := by
    intro vs
    rw [List.map_map]
    rfl
  have hout : ∀ {vs : TokenStream}, vs.stop = none → (layOut vs).tokens.map Token.word =
      ((Layout.start.run (vs.tokens.map (·.move φ))).1 ++
        (Layout.start.run (vs.tokens.map (·.move φ))).2.finish).map Token.word := by
    intro vs hvs
    obtain ⟨hrun, hlast⟩ := halike.run vs.tokens
    rw [hrun, hlast.finish, ← List.map_append, hword]
    simp [layOut, hvs]
  rw [hout ht, hout hu, hmove, h, hmove]

/-- **Lexing loses nothing.** A text that is read to its end is its tokens, blanks and comments in
order. The line of each token is one more than the newlines before it, its column one more than the
characters since the last of these. With a space in place of any comment the laid-out tokens have
the same kinds and texts. -/
theorem lexemes_placed_and_comments_blank {source : String} (h : (scriptTokens source).stop = none) :
    let ls := (lexemes source.toList).1
    let ts := (readTokens source.toList).tokens
    (ls.flatMap (·.text) = source.toList ∧ ∀ l ∈ ls, l.Proper) ∧
      (ts.map Token.word = ls.filterMap Lexeme.word? ∧
        ∀ us l vs w, ls = us ++ l :: vs → l.word? = some w →
          ts[(us.filterMap Lexeme.word?).length]? =
            some ⟨w.1, w.2, .after (us.flatMap (·.text))⟩) ∧
      ∀ us l vs, ls = us ++ l :: vs → l.isComment →
        let other :=
          scriptTokens (String.ofList (us.flatMap (·.text) ++ ' ' :: vs.flatMap (·.text)))
        other.stop = none ∧
          other.tokens.map Token.word = (scriptTokens source).tokens.map Token.word := by
  have hread : (readTokens source.toList).stop = none := h
  have hstop := readTokens_stop hread
  refine ⟨⟨flatMap_text_lexemes hstop, fun l => proper_of_mem_lexemes⟩,
    ⟨words_tokensFrom _ _, ?_⟩, ?_⟩
  · intro us l vs w hcut hw
    have hts : (readTokens source.toList).tokens =
        tokensFrom .start (lexemes source.toList).1 := rfl
    rw [← Position.advance_start, hts, hcut]
    exact tokensFrom_getElem? _ us vs hw
  · intro us l vs hcut hl
    obtain ⟨hother, hwords⟩ := words_without_comment hstop hl hcut
    have hread' : (readTokens (us.flatMap (·.text) ++ ' ' :: vs.flatMap (·.text))).stop = none := by
      simp [readTokens, hother]
    rw [scriptTokens, String.toList_ofList]
    refine ⟨hread', words_layOut hread' hread ?_⟩
    rw [readTokens, readTokens, words_tokensFrom, words_tokensFrom, hwords]

/-- A comment over two lines in a division: what comes after it is on the second one. -/
theorem quotient_over_lines :
    (scriptTokens "a /* b\n c */ / d").stop = none ∧
      (readTokens "a /* b\n c */ / d".toList).tokens[1]? = some ⟨.mulOp, "/", ⟨2, 7⟩⟩ ∧
      (scriptTokens "a   / d").tokens.map Token.word =
        (scriptTokens "a /* b\n c */ / d").tokens.map Token.word := by
  have hstop : (scriptTokens "a /* b\n c */ / d").stop = none := by decide +kernel
  have hlexemes : (lexemes "a /* b\n c */ / d".toList).1 =
      [⟨.token .name, ['a']⟩, ⟨.blank, [' ']⟩] ++ ⟨.blockComment, "/* b\n c */".toList⟩ ::
        [⟨.blank, [' ']⟩, ⟨.token .mulOp, ['/']⟩, ⟨.blank, [' ']⟩, ⟨.token .name, ['d']⟩] := by
    decide +kernel
  obtain ⟨-, ⟨-, hplace⟩, hcomment⟩ := lexemes_placed_and_comments_blank hstop
  refine ⟨hstop, ?_, (hcomment _ _ _ hlexemes rfl).2⟩
  exact hplace ([⟨.token .name, ['a']⟩, ⟨.blank, [' ']⟩, ⟨.blockComment, "/* b\n c */".toList⟩,
    ⟨.blank, [' ']⟩]) _ _ _ hlexemes rfl

end AutoAwait
