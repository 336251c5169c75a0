import AutoAwait.Proofs.Typing.Columns
import AutoAwait.Proofs.Typing.Fresh

/-!
# What parameters shelter

A parameter is bound in the frame of its function or handler, and the pass binds a name anew in the
innermost frame that binds it. While that frame is open, what lies below it is out of reach under
the name of the parameter, however many frames are open above it, and also if an error stops the
pass.

* `SymbolTable.shelter` is what stays of the column of a name that a frame somewhere in it binds:
  that it does, and what lies below;
* `Typing.Leaves.shelter` is the step, `Typing.shelter_kept` takes it to whole walks;
* `Typing.walk_parameter` says it of a function or handler.
-/

namespace AutoAwait

namespace SymbolTable

variable {d : Nat} {col : List (Option TypeRef)} {r : Option TypeRef} {ref : TypeRef}

/-- What the frame above the lowest `d` frames shelters in a column: of that frame it is told
whether it binds the name, of those below what they bind it to, and of those above nothing. -/
def shelter (d : Nat) : List (Option TypeRef) → List (Bool × Option TypeRef)
  | [] => []
  | r :: col =>
    (col.length == d && r.isSome, if col.length < d then r else none) :: shelter d col

/-- Does the frame that is to shelter the others bind the name? -/
def Sheltered (l : List (Bool × Option TypeRef)) : Prop := ∃ e ∈ l, e.1 = true

theorem length_shelter (d : Nat) (col : List (Option TypeRef)) :
    (shelter d col).length = col.length := by
  induction col with
  | nil => rfl
  | cons r col ih => rw [shelter, List.length_cons, List.length_cons, ih]

theorem drop_shelter (d k : Nat) (col : List (Option TypeRef)) :
    (shelter d col).drop k = shelter d (col.drop k) := by
  induction col generalizing k with
  | nil => simp [shelter]
  | cons r col ih =>
    cases k with
    | zero => rfl
    | succ k => rw [shelter, List.drop_succ_cons, List.drop_succ_cons, ih]

/-- The frames below are told of in full. -/
theorem shelter_below (h : col.length ≤ d) : shelter d col = col.map (false, ·) := by
  induction col with
  | nil => rfl
  | cons r col ih =>
    have hlt : col.length < d := h
    rw [shelter, ih (Nat.le_of_lt hlt), if_pos hlt, beq_false_of_ne (Nat.ne_of_lt hlt),
      Bool.false_and, List.map_cons]

theorem lt_of_sheltered (h : Sheltered (shelter d col)) : d < col.length := by
  by_contra hle
  obtain ⟨e, he, ht⟩ := h
  rw [shelter_below (Nat.le_of_not_lt hle)] at he
  obtain ⟨r, -, rfl⟩ := List.mem_map.1 he
  cases ht

/-- A name can be bound anew in a frame above, and in the frame that shelters the others. -/
theorem shelter_head (h : Sheltered (shelter d (r :: col))) (ref : TypeRef) :
    shelter d (some ref :: col) = shelter d (r :: col) := by
  have hle : d ≤ col.length := Nat.le_of_lt_succ (lt_of_sheltered h)
  rw [shelter, shelter, if_neg (Nat.not_lt.2 hle), if_neg (Nat.not_lt.2 hle)]
  rcases Nat.eq_or_lt_of_le hle with rfl | hlt
  · -- no frame below is the one that shelters them, so this one is
    obtain ⟨e, he, ht⟩ := h
    rcases List.mem_cons.1 he with rfl | he
    · rw [Bool.and_eq_true] at ht
      rw [ht.2, Option.isSome_some]
    · exact absurd (lt_of_sheltered ⟨e, he, ht⟩) (Nat.lt_irrefl _)
  · rw [beq_false_of_ne (Nat.ne_of_gt hlt), Bool.false_and, Bool.false_and]

theorem shelter_rebound (h : Sheltered (shelter d col)) (ref : TypeRef) :
    shelter d (rebound ref col) = shelter d col := by
  have hlength (col : List (Option TypeRef)) : (rebound ref col).length = col.length := by
    induction col with
    | nil => rfl
    | cons r col ih => cases r <;> simp [rebound, ih]
  induction col with
  | nil => rfl
  | cons r col ih =>
    cases r with
    | some r => exact shelter_head h ref
    | none =>
      obtain ⟨e, he, ht⟩ := h
      have hbelow : Sheltered (shelter d col) := by
        rcases List.mem_cons.1 he with rfl | he
        · rw [Option.isSome_none, Bool.and_false] at ht
          cases ht
        · exact ⟨e, he, ht⟩
      rw [rebound, shelter, shelter, hlength, ih hbelow]

/-- Assigning to a name changes nothing that is sheltered under it. -/
theorem shelter_updated (h : Sheltered (shelter d col)) (ref : TypeRef) :
    shelter d (updated ref col) = shelter d col := by
  rw [updated]
  split
  · exact shelter_rebound h ref
  · obtain ⟨r, col, rfl⟩ := List.exists_cons_of_length_pos (Nat.zero_lt_of_lt (lt_of_sheltered h))
    exact shelter_head h ref

/-- Frames that are told of in full. -/
theorem suffix_of_shelter {a b : List (Option TypeRef)} (h : shelter d a <:+ shelter d b)
    (hd : a.length ≤ d) : a <:+ b := by
  obtain ⟨k, hdrop⟩ : ∃ k, shelter d a = shelter d (b.drop k) :=
    ⟨_, (List.suffix_iff_eq_drop.1 h).trans (drop_shelter ..)⟩
  have hlength := congrArg List.length hdrop
  rw [length_shelter, length_shelter] at hlength
  rw [shelter_below hd, shelter_below (hlength ▸ hd)] at hdrop
  have hinj : Function.Injective fun r : Option TypeRef => (false, r) :=
    fun _ _ h => congrArg Prod.snd h
  rw [hinj.list_map hdrop]
  exact List.drop_suffix _ _

end SymbolTable

namespace Typing

open SymbolTable (shelter Sheltered length_shelter drop_shelter)

variable {again : Place → Node → StateM Typing Node}
variable {p : Typing} {n : Node} {place : Place} {name : String} {u : SymbolTable} {d : Nat}

theorem shelter_update (h : Sheltered (shelter d (p.table.column name))) (other : String)
    (t : ShellType) :
    shelter d ((p.update other t).table.column name) = shelter d (p.table.column name) := by
  by_cases hn : other = name
  · subst hn
    unfold update
    split
    · next u hu => rw [SymbolTable.column_update_self hu, SymbolTable.shelter_updated h]
    · rfl
  · rw [update_column hn]

theorem shelter_declare (h : Sheltered (shelter d (p.table.column name))) (other : String)
    (t : ShellType) :
    shelter d ((p.declare other t).table.column name) = shelter d (p.table.column name) := by
  by_cases hn : other = name
  · subst hn
    unfold declare
    split
    · next u hu =>
      obtain ⟨r, col, hp, hu⟩ := SymbolTable.column_declare_self hu
      rw [hp] at h
      rw [hp, hu, SymbolTable.shelter_head h]
    · rfl
  · rw [declare_column hn]

/-- **Leaving a node and what is sheltered.** If the frame that shelters the others stays, it still
binds the name, and what is told of the frames stays as it was. -/
theorem Leaves.shelter (h : Leaves n p u)
    (hs : Sheltered ((shelter d (p.table.column name)).drop (framesOf n.kind))) :
    SymbolTable.shelter d (u.column name) =
      (SymbolTable.shelter d (p.table.column name)).drop (framesOf n.kind) := by
  cases h with
  | stay h => rw [h, List.drop_zero]
  | update h =>
    rw [h, List.drop_zero] at hs ⊢
    exact shelter_update hs _ _
  | close h => rw [h, closeScope_column, drop_shelter]
  | define h hq =>
    rw [h, drop_shelter, ← closeScope_column p n.kind, ← hq] at hs ⊢
    exact shelter_declare hs _ _

theorem shelter_kept (name : String) (d : Nat) :
    KeptBy (fun t => shelter d (t.column name)) Sheltered (fun _ _ => True) where
  length t := by rw [length_shelter, SymbolTable.length_column]
  more h := fun ⟨e, he, ht⟩ => ⟨e, h.subset he, ht⟩
  enter n _ hp := by rw [drop_shelter, (enter_table n hp name).2]
  leave place n p _ hs := (leaves place n p).shelter hs

theorem framesOf_of_parameter (hx : name ∈ n.paramNames) : framesOf n.kind = 1 := by
  obtain ⟨loc, type, shape⟩ := n
  cases shape <;> first | rfl | cases hx

/-- A parameter is bound in the frame of its function, above the frames that were open before. -/
theorem column_enter_parameter (hx : name ∈ n.paramNames) (hp : p.failure = none) :
    ∃ ref, (enter n p).2.table.column name = some ref :: p.table.column name := by
  obtain ⟨-, ht, -⟩ := enter_scope (framesOf_of_parameter hx) hp
  obtain ⟨ref, href⟩ := Option.isSome_iff_exists.1 (binds_paramFrame p.table.unknown hx)
  exact ⟨ref, by rw [ht, SymbolTable.column, List.map_cons, href]; rfl⟩

/-- While the pass is within a function, the frames below it bind a parameter to what they had bound
it to. -/
theorem column_descended (hx : name ∈ n.paramNames) (hp : p.failure = none) :
    p.table.column name <:+ (descended again n p).2.table.column name := by
  obtain ⟨ref, henter⟩ := column_enter_parameter hx hp
  have hs : Sheltered (shelter p.table.depth ((enter n p).2.table.column name)) := by
    rw [henter]
    exact ⟨_, List.mem_cons_self, by simp⟩
  have hkept : shelter p.table.depth ((enter n p).2.table.column name) <:+
      shelter p.table.depth ((descended again n p).2.table.column name) :=
    (shelter_kept name p.table.depth).parts (fun k _ slot q =>
      (shelter_kept name p.table.depth).walk k (fun _ _ => trivial) (.part n.kind slot) q) _ hs
  refine SymbolTable.suffix_of_shelter (.trans ?_ hkept)
    (Nat.le_of_eq (SymbolTable.length_column ..))
  rw [henter]
  exact List.suffix_cons _ _

/-- **A parameter shelters the frames below.** Walking over a function or handler leaves alone what
the frames that were open before bind a parameter to, unless the function itself has that name. If
an error stops the pass within, the frames that it has left open lie above them. -/
theorem walk_parameter (hx : name ∈ n.paramNames) (ha : n.assigned? ≠ some name) (place : Place) :
    p.table.column name <:+ (n.walk visitor again place p).2.table.column name ∧
      ((n.walk visitor again place p).2.failure = none →
        (n.walk visitor again place p).2.table.column name = p.table.column name) := by
  cases hp : p.failure with
  | some e =>
    rw [walk_failed (by simp [hp])]
    exact ⟨List.suffix_rfl, fun _ => rfl⟩
  | none =>
    have hs : p.table.column name <:+ (descended again n p).2.table.column name :=
      column_descended hx hp
    have hk := framesOf_of_parameter hx
    rw [walk_run hp]
    split
    · next hf => exact ⟨hs, fun h => by rw [h] at hf; cases hf⟩
    · next hf =>
      have hd := Option.not_isSome_iff_eq_none.1 hf
      have hdepth : (descended again n p).2.table.depth = p.table.depth + 1 := by
        rw [← hk, ← enter_depth n hp]
        exact ((carried_depth.parts (fun k _ slot q => carried_depth.walk k _ q) _).1 hd).2
      have hcol : ((descended again n p).2.leaveNode place (descended again n p).1).2.table.column
          name = p.table.column name := by
        rw [(leaves _ _ _).column (by rwa [assigned?_descended hd]),
          show (descended again n p).1.kind = n.kind from kind_walkParts, hk,
          List.suffix_iff_eq_drop.1 hs, SymbolTable.length_column, SymbolTable.length_column,
          hdepth, Nat.add_sub_cancel_left]
      exact ⟨hcol ▸ List.suffix_rfl, fun _ => hcol⟩

end Typing

end AutoAwait
