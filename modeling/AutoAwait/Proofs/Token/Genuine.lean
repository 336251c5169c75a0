import AutoAwait.Proofs.Token.Layout
import AutoAwait.Proofs.Token.Reading
import AutoAwait.Proofs.Token.Words

/-!
# Tokens that were read from a text

The tokens of a text, with their terminators, keep the texts they were read from.

* `Genuine` says of a list of tokens that each has the text of a token of its kind, where a reserved
  word after a dot is a name;
* `layOut_genuine` says that the tokens of a text are so.
-/

namespace AutoAwait

/-- Can the token, after a dot or elsewhere, have been read from a text? -/
def Token.Genuine (afterDot : Bool) (t : Token) : Prop :=
  IsToken t.kind t.text ∨ t.kind = .terminator ∨ t.kind = .blockOpen ∨ t.kind = .functionDecl ∨
    (afterDot ∧ t.kind = .name ∧ ∃ k, IsToken (.keyword k) t.text)

/-- Can the tokens, the first one after a dot or elsewhere, have been read from a text? -/
def Genuine (afterDot : Bool) : List Token → Prop
  | [] => True
  | t :: ts => t.Genuine afterDot ∧ Genuine (t.kind == .dot) ts

theorem Token.Genuine.elsewhere {b : Bool} {t : Token} (h : t.Genuine b) (hk : t.kind ≠ .name) :
    t.Genuine false := by
  rcases h with h | h | h | h | ⟨-, h, -⟩
  · exact .inl h
  · exact .inr (.inl h)
  · exact .inr (.inr (.inl h))
  · exact .inr (.inr (.inr (.inl h)))
  · exact absurd h hk

/-! ## Tokens of a text -/

theorem isToken_of_mem_tokensFrom {cs : List Char} {p : Position} {t : Token}
    (h : t ∈ tokensFrom p (lexemes cs).1) : IsToken t.kind t.text := by
  induction cs using lexemes_induction generalizing p with
  | none cs hn =>
    rw [lexemes_none hn] at h
    cases h
  | cons cs l rest hl ih =>
    rw [lexemes_cons hl, tokensFrom_cons] at h
    rcases List.mem_append.1 h with h | h
    · obtain ⟨kind, text⟩ := l
      cases kind with
      | token k =>
        obtain rfl := List.mem_singleton.1 h
        exact hl.isToken
      | _ => cases h
    · exact ih h

namespace Layout

variable {s : Layout} {t : Token} {ts us : List Token}

theorem place_prev (s : Layout) (t : Token) : (s.place t).2.prev = some (s.rekind t).kind := by
  unfold place
  generalize s.rekind t = t
  obtain ⟨k, text, loc⟩ := t
  cases k with
  | rparen | rbracket =>
    simp only
    split <;> rfl
  | _ => rfl

theorem genuine_rekind (h : IsToken t.kind t.text) :
    (s.rekind t).Genuine (s.prev == some .dot) := by
  unfold rekind
  split
  · rename_i hd
    obtain ⟨k, hk⟩ : ∃ k, t.kind = .keyword k := by
      cases hkind : t.kind <;> rw [hkind] at hd <;> first | exact ⟨_, rfl⟩ | cases hd.2
    rw [hk] at h
    exact .inr (.inr (.inr (.inr ⟨by simp [hd.1], rfl, k, h⟩)))
  · split
    · exact .inr (.inr (.inl rfl))
    · split
      · exact .inr (.inr (.inr (.inl rfl)))
      · exact .inl h

theorem genuine_place (ht : IsToken t.kind t.text)
    (h : Genuine ((s.place t).2.prev == some .dot) us) :
    Genuine (s.prev == some .dot) ((s.place t).1 ++ us) := by
  have hr := genuine_rekind (s := s) ht
  rw [place_prev] at h
  obtain ⟨vs, hvs, hi⟩ := s.place_emits t
  rw [hvs]
  rcases hi with rfl | ⟨rfl, hk⟩
  · exact ⟨hr, h⟩
  · exact ⟨.inr (.inl rfl), hr.elsewhere (by rw [hk]; rintro ⟨⟩), h⟩

theorem genuine_step (ht : IsToken t.kind t.text)
    (h : Genuine ((s.step t).2.prev == some .dot) us) :
    Genuine (s.prev == some .dot) ((s.step t).1 ++ us) := by
  by_cases hn : t.kind = .newline
  · rw [step, hn] at h ⊢
    simp only at h ⊢
    split at h <;> exact h
  by_cases hs : t.kind = .semicolon
  · rw [step, hs] at h ⊢
    simp only at h ⊢
    split at h
    · rw [if_pos ‹_›]
      exact ⟨.inl ht, h⟩
    · rw [if_neg ‹_›]
      exact ⟨.inr (.inl rfl), h⟩
  · rw [step_of_ne hn hs] at h ⊢
    cases hnl : s.newline with
    | none =>
      rw [hnl] at h
      exact genuine_place ht h
    | some n =>
      rw [hnl] at h
      simp only at h ⊢
      split at h
      · rw [if_pos ‹_›]
        exact ⟨.inr (.inl rfl), genuine_place (s := Layout.terminate _) ht h⟩
      · rw [if_neg ‹_›]
        exact genuine_place (s := { s with newline := none }) ht h

theorem genuine_run (h : ∀ t ∈ ts, IsToken t.kind t.text)
    (hu : Genuine ((s.run ts).2.prev == some .dot) us) :
    Genuine (s.prev == some .dot) ((s.run ts).1 ++ us) := by
  induction ts generalizing s with
  | nil => exact hu
  | cons t ts ih =>
    obtain ⟨ht, h⟩ := List.forall_mem_cons.1 h
    rw [run, List.append_assoc]
    exact genuine_step ht (ih h hu)

end Layout

theorem Strays.genuine {us : List Token} (h : Strays us) (b : Bool) : Genuine b us := by
  obtain rfl | ⟨e, rfl, he⟩ := h
  · trivial
  · exact ⟨.inr (.inl he), trivial⟩

/-- The tokens of a text were read from it. -/
theorem layOut_genuine (cs : List Char) : Genuine false (layOut (readTokens cs)).tokens := by
  have hrun : ∀ us, Strays us → Genuine false ((Layout.start.run (readTokens cs).tokens).1 ++ us) :=
    fun us hu => Layout.genuine_run (s := .start) (fun t ht => isToken_of_mem_tokensFrom ht)
      (hu.genuine _)
  unfold layOut
  simp only
  split
  · exact hrun _ (Layout.finish_strays _)
  · simpa using hrun [] (.inl rfl)

end AutoAwait
