import NrKernel.Lib.PartialMap

/-!
# Exclusively held resources

A partial map from holders to resources in which no two holders hold conflicting resources,
and the ways such a map changes: a holder takes a resource that conflicts with none, gives
one up, or hands one over.
-/

namespace Lib

universe u v w

variable {O : Type u} {R : Type v}

/-- No two holders hold conflicting resources. -/
def Exclusive (conflict : R → R → Prop) (held : PMap O R) : Prop :=
  ∀ o₁ o₂ r₁ r₂, o₁ ≠ o₂ → held o₁ = some r₁ → held o₂ = some r₂ → ¬conflict r₁ r₂

namespace Exclusive

variable {conflict : R → R → Prop} {held held' : PMap O R}

/-- Where nothing is held nothing conflicts. -/
theorem empty : Exclusive conflict (PMap.empty : PMap O R) := by
  intro o₁ o₂ r₁ r₂ _ h₁
  cases h₁

/-- Giving up resources keeps the rest exclusive. -/
theorem mono (h : Exclusive conflict held) (hsub : ∀ o r, held' o = some r → held o = some r) :
    Exclusive conflict held' :=
  fun o₁ o₂ r₁ r₂ hne h₁ h₂ ↦ h o₁ o₂ r₁ r₂ hne (hsub o₁ r₁ h₁) (hsub o₂ r₂ h₂)

/-- A reflexive conflict makes equal resources have one holder. -/
theorem holder_unique (h : Exclusive conflict held) {o₁ o₂ : O} {r₁ r₂ : R}
    (h₁ : held o₁ = some r₁) (h₂ : held o₂ = some r₂) (hc : conflict r₁ r₂) : o₁ = o₂ := by
  by_contra hne
  exact h o₁ o₂ r₁ r₂ hne h₁ h₂ hc

section Write

variable [DecidableEq O]

/-- Giving up what one owner holds creates no conflict. -/
theorem remove (h : Exclusive conflict held) (o : O) : Exclusive conflict (held.remove o) :=
  h.mono fun x r hx ↦ ((PMap.remove_eq_some held o x r).mp hx).2

/-- A holder takes a resource that conflicts with nothing held by the others. -/
theorem insert (h : Exclusive conflict held) (hsymm : ∀ r s, conflict r s → conflict s r) {o : O}
    {r : R} (hnew : ∀ o' r', o' ≠ o → held o' = some r' → ¬conflict r r') :
    Exclusive conflict (held.insert o r) := by
  intro o₁ o₂ r₁ r₂ hne h₁ h₂
  rcases (PMap.insert_eq_some held o o₁ r r₁).mp h₁ with ⟨rfl, rfl⟩ | ⟨hne₁, hx₁⟩
  · rcases (PMap.insert_eq_some held o₁ o₂ r r₂).mp h₂ with ⟨rfl, _⟩ | ⟨hne₂, h₂⟩
    · exact absurd rfl hne
    · exact hnew o₂ r₂ hne₂ h₂
  · rcases (PMap.insert_eq_some held o o₂ r r₂).mp h₂ with ⟨rfl, rfl⟩ | ⟨hne₂, hx₂⟩
    · exact fun hc ↦ hnew o₁ r₁ hne₁ hx₁ (hsymm _ _ hc)
    · exact h o₁ o₂ r₁ r₂ hne hx₁ hx₂

/-- A holder hands its resource over. -/
theorem transfer (h : Exclusive conflict held) (hsymm : ∀ r s, conflict r s → conflict s r)
    {o o' : O} {r : R} (ho : held o = some r) : Exclusive conflict ((held.remove o).insert o' r) :=
  (h.remove o).insert hsymm fun x r' _ hx ↦
    h o x r r' (Ne.symm ((PMap.remove_eq_some held o x r').mp hx).1) ho
      ((PMap.remove_eq_some held o x r').mp hx).2

end Write

end Exclusive

end Lib
