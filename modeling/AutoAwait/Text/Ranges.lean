/-!
# Sets of characters given by ranges

A character class of Unicode is stored as a list of closed ranges of code points.

* `CodeRanges.mem` decides membership; `mem_iff` says what it decides.
-/

namespace AutoAwait

/-- A set of code points: the union of closed ranges. -/
abbrev CodeRanges := List (Nat × Nat)

namespace CodeRanges

/-- Does one of the ranges hold the code point `n`? -/
def mem (rs : CodeRanges) (n : Nat) : Bool := rs.any fun r => r.1 ≤ n && n ≤ r.2

theorem mem_iff (rs : CodeRanges) (n : Nat) : rs.mem n = true ↔ ∃ r ∈ rs, r.1 ≤ n ∧ n ≤ r.2 := by
  simp [mem]

end CodeRanges

end AutoAwait
