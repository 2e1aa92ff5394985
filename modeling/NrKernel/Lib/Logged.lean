import Mathlib.Data.List.Basic

/-!
# Computations that log what they do

A computation that may stop, next to the events it logged until it returned or stopped.
Forgetting the events leaves a computation in `Option`; a property of the events is proved along
the computation, with the results it had on the way.
-/

namespace Lib

/-- The events a computation logged, and what it returned if it did not stop. -/
structure Logged (ω α : Type) where
  events : List ω
  result : Option α

namespace Logged

variable {ω α β : Type}

/-- A computation that logs nothing. -/
def lift (r : Option α) : Logged ω α := ⟨[], r⟩

/-- Log an event. -/
def log (e : ω) : Logged ω Unit := ⟨[e], some ()⟩

/-- Go on with the result, if there is one. -/
protected def bind (x : Logged ω α) (f : α → Logged ω β) : Logged ω β :=
  match x.result with
  | some a => ⟨x.events ++ (f a).events, (f a).result⟩
  | none => ⟨x.events, none⟩

/-- Computations in sequence join their logs, up to the first failure. -/
instance : Monad (Logged ω) where
  pure a := lift (some a)
  bind := Logged.bind

/-! ## Forgetting the events -/

/-- A pure computation returns its value. -/
@[simp] theorem result_pure (a : α) : (pure a : Logged ω α).result = some a := rfl

/-- A lifted result is returned as it is. -/
@[simp] theorem result_lift (r : Option α) : (lift r : Logged ω α).result = r := rfl

/-- Logging an event succeeds. -/
@[simp] theorem result_log (e : ω) : (log e).result = some () := rfl

/-- The result of a sequence, without the events. -/
@[simp] theorem result_bind (x : Logged ω α) (f : α → Logged ω β) :
    (x >>= f).result = x.result.bind fun a ↦ (f a).result := by
  show (x.bind f).result = _
  unfold Logged.bind
  cases x.result with
  | none => rfl
  | some a => rfl

/-- The result of a choice is that of the branch taken. -/
@[simp] theorem result_ite (c : Prop) [Decidable c] (x y : Logged ω α) :
    (if c then x else y).result = if c then x.result else y.result :=
  apply_ite Logged.result c x y

/-! ## Properties of the events -/

/-- Every event has the property. -/
def All (P : ω → Prop) (x : Logged ω α) : Prop := ∀ e ∈ x.events, P e

variable {P : ω → Prop}

/-- A pure computation logs no event. -/
theorem All.pure (a : α) : (Pure.pure a : Logged ω α).All P :=
  fun _ he ↦ absurd he List.not_mem_nil

/-- A lifted result logs no event. -/
theorem All.lift (r : Option α) : (Logged.lift r : Logged ω α).All P :=
  fun _ he ↦ absurd he List.not_mem_nil

/-- A logged event with the property is the only one. -/
theorem All.log {e : ω} (h : P e) : (Logged.log e).All P :=
  fun _ he ↦ List.mem_singleton.mp he ▸ h

/-- What follows a computation may assume that it has returned. -/
theorem All.bind {x : Logged ω α} {f : α → Logged ω β} (hx : x.All P)
    (hf : ∀ a, x.result = some a → (f a).All P) : (x >>= f).All P := by
  show (x.bind f).All P
  unfold Logged.bind
  cases hr : x.result with
  | none => exact hx
  | some a =>
    intro e he
    rcases List.mem_append.mp he with he | he
    · exact hx e he
    · exact hf a hr e he

/-- What follows a computation whose result is known. -/
theorem All.bind_of_eq {x : Logged ω α} {a : α} {f : α → Logged ω β} (hr : x.result = some a)
    (hx : x.All P) (hf : (f a).All P) : (x >>= f).All P := by
  apply hx.bind
  intro b hb
  obtain rfl : a = b := Option.some.inj (hr.symm.trans hb)
  exact hf

end Logged

end Lib
