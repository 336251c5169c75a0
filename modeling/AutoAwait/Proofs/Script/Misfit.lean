import AutoAwait.Proofs.Grammar.Viable
import AutoAwait.Proofs.Script.Faults

/-!
# Where a script is refused

A script that is refused for a token, or for its end, has been a beginning of some script up to that
place, and is none with it. So the place of the error is the earliest at which the script could be
refused.

* `parseScript_misfit` is the main statement.
-/

namespace AutoAwait

/-- A script that is refused because it does not fit does so where its tokens are read. -/
theorem parseStatements_of_unexpected [CharNames] {source : String} {e : ParseError}
    (h : parseScript source = .error e) (he : ∀ ss, ¬ Misused ss e) :
    parseStatements (scriptTokens source) = .error e := by
  rw [parseScript] at h
  cases hs : parseStatements (scriptTokens source) with
  | ok ss =>
    rw [hs] at h
    exact absurd (Node.ofStatements_error h) (he ss)
  | error e' =>
    rw [hs] at h
    cases h
    rfl

/-- **The earliest misfit.** Where a script is refused for a token, some script begins with the
tokens before it, and none with those and the token. Where a script is refused for its end, its
tokens begin some script and are none. -/
theorem parseScript_misfit [CharNames] (source : String) :
    let stream := scriptTokens source
    (∀ t, parseScript source = .error (.unexpectedToken t) →
      ∃ us rest, stream.tokens = us ++ t :: rest ∧ (∃ vs, Derives .program (us ++ vs)) ∧
        ∀ vs, ¬ Derives .program (us ++ t :: vs)) ∧
    ∀ loc, parseScript source = .error (.unexpectedEnd loc) → stream.stop = none ∧
      (∃ vs, Derives .program (stream.tokens ++ vs)) ∧ ¬ Derives .program stream.tokens := by
  intro stream
  constructor
  · intro t h
    have hread := parseStatements_of_unexpected h nofun
    obtain ⟨_, _, he⟩ | ⟨rest, hparse, he, -⟩ := parseStatements_misfit hread
    · cases he
    obtain ⟨us, hus, hviable, hmisfit⟩ := parseTokens_error hparse
    cases rest with
    | nil => cases he
    | cons t' rest =>
      obtain rfl : t = t' := by cases he; rfl
      exact ⟨us, rest, hus, hviable, fun vs => hmisfit (t :: vs) rfl⟩
  · intro loc h
    have hread := parseStatements_of_unexpected h nofun
    obtain ⟨_, _, he⟩ | ⟨rest, hparse, he, hstop⟩ := parseStatements_misfit hread
    · cases he
    obtain ⟨us, hus, hviable, hmisfit⟩ := parseTokens_error hparse
    cases rest with
    | cons => cases he
    | nil =>
      rw [List.append_nil] at hus
      rw [hus]
      exact ⟨hstop rfl, hviable, fun hd => hmisfit [] rfl (by rwa [List.append_nil])⟩

/-- A list in parentheses that no arrow follows, and arguments that the script ends in. -/
theorem parseScript_misfit_of_lists :
    let t : Token := ⟨.terminator, "", ⟨1, 11⟩⟩
    let tokens := (scriptTokens "print(").tokens
    parseScript "x = (a, b);" = .error (.unexpectedToken t) ∧
      (∃ us rest, (scriptTokens "x = (a, b);").tokens = us ++ t :: rest ∧
        (∃ vs, Derives .program (us ++ vs)) ∧ ∀ vs, ¬ Derives .program (us ++ t :: vs)) ∧
    parseScript "print(" = .error (.unexpectedEnd ⟨1, 6⟩) ∧
      (∃ vs, Derives .program (tokens ++ vs)) ∧ ¬ Derives .program tokens := by
  intro t tokens
  have hlist : parseScript "x = (a, b);" = .error (.unexpectedToken t) :=
    mem_errors.1 (by decide +kernel)
  have hend : parseScript "print(" = .error (.unexpectedEnd ⟨1, 6⟩) :=
    mem_errors.1 (by decide +kernel)
  exact ⟨hlist, (parseScript_misfit _).1 t hlist, hend, ((parseScript_misfit _).2 _ hend).2⟩

end AutoAwait
