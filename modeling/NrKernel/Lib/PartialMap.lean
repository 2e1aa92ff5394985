import Mathlib.Data.Set.Finite.Basic

/-!
# Partial maps

Total functions into `Option`, with insertion, removal and the finite-support predicate.
Absent keys read as `none`; extensional equality is function equality. No order or hash
on the key type is needed, only decidable equality where a key is written.
-/

namespace Lib

universe u v

/-- A partial map: every key is bound to at most one value. -/
abbrev PMap (K : Type u) (V : Type v) := K → Option V

namespace PMap

variable {K : Type u} {V : Type v}

/-- The map without bindings. -/
def empty : PMap K V := fun _ ↦ none

/-- The set of bound keys. -/
def dom (m : PMap K V) : Set K := {k | m k ≠ none}

/-- The set of bound values. -/
def values (m : PMap K V) : Set V := {v | ∃ k, m k = some v}

/-- The union of two maps in which the second one's bindings count
(`union_prefer_right`). -/
def unionPreferRight (m₁ m₂ : PMap K V) : PMap K V := fun k ↦ (m₂ k).or (m₁ k)

/-- The empty map binds no key. -/
@[simp] theorem empty_apply (k : K) : (empty : PMap K V) k = none := rfl

/-- A key the second map binds has its binding there. -/
theorem unionPreferRight_of_some {m₁ m₂ : PMap K V} {k : K} {v : V} (h : m₂ k = some v) :
    m₁.unionPreferRight m₂ k = some v := by
  rw [unionPreferRight, h, Option.some_or]

/-- A key the second map does not bind has the first one's binding. -/
theorem unionPreferRight_of_none {m₁ m₂ : PMap K V} {k : K} (h : m₂ k = none) :
    m₁.unionPreferRight m₂ k = m₁ k := by
  rw [unionPreferRight, h, Option.none_or]

/-- The domain consists of the bound keys. -/
theorem mem_dom (m : PMap K V) (k : K) : k ∈ m.dom ↔ ∃ v, m k = some v :=
  Option.ne_none_iff_exists'

/-- A key with a binding is in the domain. -/
theorem mem_dom_of_eq {m : PMap K V} {k : K} {v : V} (h : m k = some v) : k ∈ m.dom :=
  (mem_dom m k).mpr ⟨v, h⟩

/-- The keys outside the domain are unbound. -/
theorem notMem_dom (m : PMap K V) (k : K) : k ∉ m.dom ↔ m k = none :=
  not_not

section Write

variable [DecidableEq K]

/-- Bind `k` to `v`, replacing an earlier binding. -/
def insert (m : PMap K V) (k : K) (v : V) : PMap K V :=
  fun x ↦ if x = k then some v else m x

/-- Forget the binding of `k`. -/
def remove (m : PMap K V) (k : K) : PMap K V :=
  fun x ↦ if x = k then none else m x

/-- An inserted key has the inserted value. -/
@[simp] theorem insert_self (m : PMap K V) (k : K) (v : V) : m.insert k v k = some v :=
  if_pos rfl

/-- Inserting a key leaves the others. -/
@[simp] theorem insert_of_ne (m : PMap K V) {k x : K} (v : V) (h : x ≠ k) :
    m.insert k v x = m x :=
  if_neg h

/-- A removed key is unbound. -/
@[simp] theorem remove_self (m : PMap K V) (k : K) : m.remove k k = none :=
  if_pos rfl

/-- Removing a key leaves the others. -/
@[simp] theorem remove_of_ne (m : PMap K V) {k x : K} (h : x ≠ k) : m.remove k x = m x :=
  if_neg h

/-- Lookup after an insertion. -/
@[grind =] theorem insert_apply (m : PMap K V) (k x : K) (v : V) :
    m.insert k v x = if x = k then some v else m x := rfl

/-- Lookup after a removal. -/
@[grind =] theorem remove_apply (m : PMap K V) (k x : K) :
    m.remove k x = if x = k then none else m x := rfl

/-- A lookup in an extended map hits the new binding or an old one at another key. -/
theorem insert_eq_some (m : PMap K V) (k x : K) (v w : V) :
    m.insert k v x = some w ↔ (x = k ∧ v = w) ∨ (x ≠ k ∧ m x = some w) := by
  by_cases h : x = k
  · simp [h]
  · simp [h]

/-- The keys of an extended map are the new one and the old ones. -/
theorem isSome_insert (m : PMap K V) (k x : K) (v : V) :
    (m.insert k v x).isSome ↔ x = k ∨ (m x).isSome := by
  by_cases h : x = k
  · simp [h]
  · simp [h]

/-- A lookup in a reduced map hits an old binding at another key. -/
theorem remove_eq_some (m : PMap K V) (k x : K) (w : V) :
    m.remove k x = some w ↔ x ≠ k ∧ m x = some w := by
  by_cases h : x = k
  · simp [h]
  · simp [h]

/-- Writing what is there changes nothing. -/
theorem insert_of_eq_some {m : PMap K V} {k : K} {v : V} (h : m k = some v) :
    m.insert k v = m := by
  funext x
  by_cases hx : x = k
  · rw [hx, insert_self, h]
  · rw [insert_of_ne m v hx]

/-- Removing what is not there changes nothing. -/
theorem remove_of_eq_none {m : PMap K V} {k : K} (h : m k = none) : m.remove k = m := by
  funext x
  by_cases hx : x = k
  · rw [hx, remove_self, h]
  · rw [remove_of_ne m hx]

/-- The later of two bindings of a key counts. -/
@[simp] theorem insert_insert (m : PMap K V) (k : K) (v w : V) :
    (m.insert k v).insert k w = m.insert k w := by
  funext x
  by_cases hx : x = k
  · rw [hx, insert_self, insert_self]
  · rw [insert_of_ne _ _ hx, insert_of_ne _ _ hx, insert_of_ne _ _ hx]

/-- Forgetting a binding forgets what was just bound. -/
@[simp] theorem remove_insert (m : PMap K V) (k : K) (v : V) :
    (m.insert k v).remove k = m.remove k := by
  funext x
  by_cases hx : x = k
  · rw [hx, remove_self, remove_self]
  · rw [remove_of_ne _ hx, remove_of_ne _ hx, insert_of_ne _ _ hx]

/-- Inserting a key adds it to the domain. -/
theorem dom_insert (m : PMap K V) (k : K) (v : V) : (m.insert k v).dom = Insert.insert k m.dom := by
  ext x
  by_cases h : x = k
  · simp [dom, h]
  · simp [dom, h]

private theorem dom_remove_subset (m : PMap K V) (k : K) : (m.remove k).dom ⊆ m.dom := by
  intro x hx
  by_cases h : x = k
  · simp [dom, h] at hx
  · simpa [dom, h] using hx

/-- Extending a map keeps its domain finite. -/
theorem finite_dom_insert {m : PMap K V} (h : m.dom.Finite) (k : K) (v : V) :
    (m.insert k v).dom.Finite := by
  rw [dom_insert]
  exact h.insert k

/-- Reducing a map keeps its domain finite. -/
theorem finite_dom_remove {m : PMap K V} (h : m.dom.Finite) (k : K) :
    (m.remove k).dom.Finite :=
  h.subset (dom_remove_subset m k)

end Write

/-- The empty map has a finite domain. -/
theorem finite_dom_empty : (empty : PMap K V).dom.Finite := by
  have h : (empty : PMap K V).dom = ∅ := by
    ext k
    simp [dom]
  rw [h]
  exact Set.finite_empty

end PMap

end Lib
