import Mathlib.Data.Finset.Basic
import Mathlib.Data.Multiset.MapFold
import Mathlib.Logic.Function.Basic

/-!
# Tokens

Parties, of which finitely many are in a state that holds a token, and the multiset of these
tokens. When one party changes its state, its token is added or taken away, or all stay.
-/

namespace Lib

universe u v w

variable {ι : Type u} {σ : Type v} {τ : Type w}

/-- The multiset has one token of each party whose state satisfies `P`, and no others. -/
def TokensOf (P : σ → Prop) (parties : ι → σ) (token : ι → τ) (tokens : Multiset τ) : Prop :=
  ∃ holders : Finset ι, (∀ i, i ∈ holders ↔ P (parties i)) ∧ tokens = holders.val.map token

namespace TokensOf

variable {P : σ → Prop} {parties : ι → σ} {token : ι → τ} {tokens : Multiset τ}

/-- Where no party satisfies `P` there is no token. -/
theorem empty (h : ∀ i, ¬ P (parties i)) : TokensOf P parties token 0 :=
  ⟨∅, fun i ↦ iff_of_false (Finset.notMem_empty i) (h i), rfl⟩

section Update

variable [DecidableEq ι] {i : ι} {state : σ}

/-- A party that satisfies `P` as before keeps the tokens. -/
theorem update_same (h : TokensOf P parties token tokens) (hiff : P state ↔ P (parties i)) :
    TokensOf P (Function.update parties i state) token tokens := by
  obtain ⟨holders, hmem, htokens⟩ := h
  refine ⟨holders, fun j ↦ (hmem j).trans ?_, htokens⟩
  by_cases hj : j = i
  · subst hj
    rw [Function.update_self, hiff]
  · rw [Function.update_of_ne hj]

/-- A party that comes to satisfy `P` adds its token. -/
theorem update_add (h : TokensOf P parties token tokens) (hold : ¬ P (parties i))
    (hnew : P state) :
    TokensOf P (Function.update parties i state) token (token i ::ₘ tokens) := by
  obtain ⟨holders, hmem, rfl⟩ := h
  have hnot : i ∉ holders := fun hi ↦ hold ((hmem i).mp hi)
  refine ⟨insert i holders, fun j ↦ ?_, ?_⟩
  · by_cases hj : j = i
    · subst hj
      rw [Function.update_self]
      exact iff_of_true (Finset.mem_insert_self _ _) hnew
    · rw [Function.update_of_ne hj, Finset.mem_insert, or_iff_right hj, hmem]
  · rw [Finset.insert_val_of_notMem hnot, Multiset.map_cons]

/-- A party that ceases to satisfy `P` gives its token back. -/
theorem update_remove (h : TokensOf P parties token tokens) (state : σ) (hold : P (parties i))
    (hnew : ¬ P state) :
    ∃ rest, tokens = token i ::ₘ rest ∧
      TokensOf P (Function.update parties i state) token rest := by
  obtain ⟨holders, hmem, rfl⟩ := h
  have hin : i ∈ holders := (hmem i).mpr hold
  refine ⟨(holders.erase i).val.map token, ?_, holders.erase i, fun j ↦ ?_, rfl⟩
  · rw [← Multiset.map_cons, ← Finset.insert_val_of_notMem (Finset.notMem_erase i holders),
      Finset.insert_erase hin]
  · by_cases hj : j = i
    · subst hj
      rw [Function.update_self]
      exact iff_of_false (Finset.notMem_erase _ _) hnew
    · rw [Function.update_of_ne hj, Finset.mem_erase, and_iff_right hj, hmem]

end Update

end TokensOf

end Lib
