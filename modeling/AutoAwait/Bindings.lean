/-!
# Bindings

Names bound to values, in the order in which they were first bound. Binding a name again changes its
value and not its place.

* `Bindings.get?_put` and `Bindings.names_put` say what binding a name does to the two views of
  bindings: the values of names, and the list of names.
-/

namespace AutoAwait

/-- Names bound to values. -/
abbrev Bindings (α : Type) := List (String × α)

namespace Bindings

variable {α : Type}

/-- The value of a name. -/
def get? (b : Bindings α) (n : String) : Option α :=
  match b with
  | [] => none
  | (m, a) :: b => if m = n then some a else get? b n

/-- Binds the name `n` to `a`. -/
def put (b : Bindings α) (n : String) (a : α) : Bindings α :=
  match b with
  | [] => [(n, a)]
  | (m, c) :: b => if m = n then (n, a) :: b else (m, c) :: put b n a

/-- The bound names. -/
def names (b : Bindings α) : List String := b.map (·.1)

/-- Is the name bound? -/
def binds (b : Bindings α) (n : String) : Bool := (b.get? n).isSome

theorem get?_put (b : Bindings α) (n m : String) (a : α) :
    (b.put n a).get? m = if n = m then some a else b.get? m := by
  induction b with
  | nil => simp [put, get?]
  | cons p b ih =>
    obtain ⟨k, c⟩ := p
    by_cases hk : k = n
    · subst hk; by_cases hm : k = m <;> simp [put, get?, hm]
    · by_cases hm : k = m
      · subst hm; simp [put, get?, hk, Ne.symm hk]
      · simp [put, get?, hk, hm, ih]

theorem names_put (b : Bindings α) (n : String) (a : α) :
    names (put b n a) = if n ∈ names b then names b else names b ++ [n] := by
  induction b with
  | nil => simp [put, names]
  | cons p b ih =>
    obtain ⟨k, c⟩ := p
    by_cases hk : k = n
    · subst hk; simp [put, names]
    · have hs : names (put ((k, c) :: b) n a) = k :: names (put b n a) := by simp [put, hk, names]
      have hn : names ((k, c) :: b) = k :: names b := rfl
      rw [hs, ih, hn]
      by_cases h : n ∈ names b <;> simp [h, Ne.symm hk]

theorem forall_mem_put {P : α → Prop} {b : Bindings α} {a : α}
    (h : ∀ q ∈ b, P q.2) (ha : P a) (name : String) : ∀ q ∈ b.put name a, P q.2 := by
  induction b with
  | nil => exact List.forall_mem_singleton.2 ha
  | cons q b ih =>
    obtain ⟨hq, hb⟩ := List.forall_mem_cons.1 h
    unfold put
    split
    · exact List.forall_mem_cons.2 ⟨ha, hb⟩
    · exact List.forall_mem_cons.2 ⟨hq, ih hb⟩

end Bindings

end AutoAwait
