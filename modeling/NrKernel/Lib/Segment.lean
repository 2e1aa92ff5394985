import Mathlib.Data.List.Basic

/-!
# Segments of a list

The part of a list between two positions, taken apart from either end.
-/

namespace Lib

universe u

variable {α : Type u}

/-- The elements at the positions from `s` on and before `e`. -/
def segment (l : List α) (s e : Nat) : List α := (l.take e).drop s

/-- A segment that ends where it starts is empty. -/
@[simp] theorem segment_self (l : List α) (s : Nat) : segment l s s = [] := List.drop_take_self

/-- A segment that ends with the list is the rest of it. -/
theorem segment_length (l : List α) (s : Nat) : segment l s l.length = l.drop s := by
  rw [segment, List.take_length]

/-- A segment within the list has as many elements as its bounds span. -/
theorem length_segment {l : List α} {e : Nat} (s : Nat) (he : e ≤ l.length) :
    (segment l s e).length = e - s := by
  rw [segment, List.length_drop, List.length_take, Nat.min_eq_left he]

/-- A longer list has the same segments. -/
theorem segment_append {l : List α} {e : Nat} (l' : List α) (s : Nat) (he : e ≤ l.length) :
    segment (l ++ l') s e = segment l s e := by
  rw [segment, List.take_append_of_le_length he, segment]

/-- The last element of a segment. -/
theorem segment_succ {l : List α} {s e : Nat} {a : α} (hs : s ≤ e) (ha : l[e]? = some a) :
    segment l s (e + 1) = segment l s e ++ [a] := by
  have hlt : e < l.length := (List.getElem?_eq_some_iff.mp ha).1
  have hs' : s ≤ (l.take e).length := by
    rw [List.length_take]
    omega
  rw [segment, List.take_add_one, ha, List.drop_append_of_le_length hs']
  rfl

/-- The first element of a segment. -/
theorem segment_eq_cons {l : List α} {s e : Nat} {a : α} (hs : s < e) (ha : l[s]? = some a) :
    segment l s e = a :: segment l (s + 1) e := by
  obtain ⟨hlt, rfl⟩ := List.getElem?_eq_some_iff.mp ha
  have hs' : s < (l.take e).length := by
    rw [List.length_take]
    omega
  rw [segment, List.drop_eq_getElem_cons hs', List.getElem_take, segment]

/-- Equality with a segment, from its last element on. -/
theorem concat_eq_segment_iff {l xs : List α} {s e : Nat} {a : α} (he : e ≤ l.length) :
    xs ++ [a] = segment l s e ↔ s < e ∧ l[e - 1]? = some a ∧ xs = segment l s (e - 1) := by
  constructor
  · intro h
    have hlen := congrArg List.length h
    rw [length_segment s he, List.length_append, List.length_singleton] at hlen
    have hlt : e - 1 < l.length := by omega
    have hget : l[e - 1]? = some l[e - 1] := List.getElem?_eq_getElem hlt
    have hlast := segment_succ (s := s) (by omega) hget
    rw [show e - 1 + 1 = e by omega] at hlast
    rw [hlast] at h
    obtain ⟨hxs, ha⟩ := List.append_inj' h rfl
    cases ha
    exact ⟨by omega, hget, hxs⟩
  · rintro ⟨hlt, ha, rfl⟩
    have hlast := segment_succ (s := s) (by omega) ha
    rw [show e - 1 + 1 = e by omega] at hlast
    exact hlast.symm

/-- Equality with a segment, from its first element on. -/
theorem cons_eq_segment_iff {l xs : List α} {s e : Nat} {a : α} (he : e ≤ l.length) :
    a :: xs = segment l s e ↔ s < e ∧ l[s]? = some a ∧ xs = segment l (s + 1) e := by
  constructor
  · intro h
    have hlen := congrArg List.length h
    rw [length_segment s he, List.length_cons] at hlen
    have hlt : s < l.length := by omega
    rw [segment_eq_cons (by omega) (List.getElem?_eq_getElem hlt)] at h
    obtain ⟨rfl, hxs⟩ := List.cons.inj h
    exact ⟨by omega, List.getElem?_eq_getElem hlt, hxs⟩
  · rintro ⟨hlt, ha, rfl⟩
    exact (segment_eq_cons hlt ha).symm

end Lib
