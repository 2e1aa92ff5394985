import Mathlib.Data.List.GetD

/-!
# Lists as tables with a default

Reads of a list that fall back to a default value, after an entry was replaced.
-/

namespace Lib.Table

universe u

variable {α : Type u}

/-- Reading a table after an entry was replaced. -/
theorem getD_set (l : List α) {n : Nat} (a dflt : α) (hn : n < l.length) (i : Nat) :
    (l.set n a).getD i dflt = if i = n then a else l.getD i dflt := by
  rw [List.getD_eq_getElem?_getD, List.getElem?_set]
  by_cases hi : i = n
  · subst hi
    rw [if_pos rfl, if_pos hn, if_pos rfl, Option.getD_some]
  · rw [if_neg (Ne.symm hi), if_neg hi, List.getD_eq_getElem?_getD]

/-- Writing back the entry that is there changes nothing. -/
theorem set_getD (l : List α) (dflt : α) (i : Nat) : l.set i (l.getD i dflt) = l := by
  by_cases hi : i < l.length
  · rw [List.getD_eq_getElem _ _ hi, List.set_getElem_self]
  · rw [List.set_eq_of_length_le (by omega)]

/-- A table filled with the default reads as the default everywhere. -/
theorem getD_replicate_default (dflt : α) (n i : Nat) :
    (List.replicate n dflt).getD i dflt = dflt := by
  rw [List.getD_eq_getElem?_getD, List.getElem?_getD_replicate_default_eq]

/-- Beyond its end a table reads as the default. -/
theorem lt_length_of_getD_ne {l : List α} {dflt : α} {i : Nat} (h : l.getD i dflt ≠ dflt) :
    i < l.length := by
  apply Nat.lt_of_not_le
  intro hle
  exact h (List.getD_eq_default _ _ hle)

end Lib.Table
