import Mathlib

/-! Machines that take calls one after another.

A machine says which calls may be made in a state and what a call does there: it
leaves a new state or it fails. A run is a list of calls, each one allowed in the
state it is made in, none of which fails. Everything proved of runs is proved
through the rules of this file: an invariant that every allowed call keeps holds
at the end of every run, and a machine that never fails from its invariant never
fails on a run. -/
namespace Infinity.Lib

/-- Calls `α` on states `σ` that may fail with an `ε`. -/
structure Machine (σ α ε : Type) where
  enabled : σ → α → Prop
  step : σ → α → Except ε σ

namespace Machine

variable {σ α ε : Type}

/-- The calls, each allowed where it is made, lead from the first state to the last. -/
inductive Run (M : Machine σ α ε) : σ → List α → σ → Prop
  | nil (s : σ) : Run M s [] s
  | cons {s s' s'' : σ} {a : α} {as : List α} (enabled : M.enabled s a) (taken : M.step s a = .ok s')
      (rest : Run M s' as s'') : Run M s (a :: as) s''

/-- The machine whose callers also keep to `G`. -/
def restrict (M : Machine σ α ε) (G : σ → α → Prop) : Machine σ α ε :=
  {M with enabled := fun s a => M.enabled s a ∧ G s a}

instance (M : Machine σ α ε) (G : σ → α → Prop) [∀ s a, Decidable (M.enabled s a)] [∀ s a, Decidable (G s a)] (s : σ)
    (a : α) : Decidable ((M.restrict G).enabled s a) :=
  inferInstanceAs (Decidable (M.enabled s a ∧ G s a))

variable {M : Machine σ α ε}

/-- An invariant kept by every allowed call is kept by every run. -/
theorem Run.invariant {I : σ → Prop} {s s' : σ} {as : List α}
    (keeps : ∀ s a s', I s → M.enabled s a → M.step s a = .ok s' → I s')
    (h : M.Run s as s') (hs : I s) : I s' := by
  induction h with
  | nil => exact hs
  | cons he ht _ ih => exact ih (keeps _ _ _ hs he ht)

theorem Run.of_restrict {G : σ → α → Prop} {s s' : σ} {as : List α}
    (h : (M.restrict G).Run s as s') : M.Run s as s' := by
  induction h with
  | nil => exact .nil _
  | cons he ht _ ih => exact .cons he.1 ht ih

theorem Run.concat {s s' s'' : σ} {as : List α} {a : α} (h : M.Run s as s') (enabled : M.enabled s' a)
    (taken : M.step s' a = .ok s'') : M.Run s (as ++ [a]) s'' := by
  induction h with
  | nil => exact .cons enabled taken (.nil _)
  | cons he ht _ ih => exact .cons he ht (ih enabled taken)

/-- Make the calls in order, checking that each is allowed. -/
def exec (M : Machine σ α ε) [∀ s a, Decidable (M.enabled s a)] (s : σ) : List α → Option σ
  | [] => some s
  | a :: as =>
    if M.enabled s a then
      match M.step s a with
      | .ok s' => exec M s' as
      | .error _ => none
    else none

theorem run_of_exec [∀ s a, Decidable (M.enabled s a)] {s s' : σ} {as : List α}
    (h : M.exec s as = some s') : M.Run s as s' := by
  induction as generalizing s with
  | nil =>
    cases h
    exact .nil _
  | cons a as ih =>
    simp only [exec] at h
    split at h
    · rename_i he
      split at h
      · rename_i s₁ ht
        exact .cons he ht (ih h)
      · cases h
    · cases h

end Machine

/-! ### Maps that change at one place -/

section Update
open Function

variable {α β : Type} [DecidableEq α] {a x : α}

theorem update_cases {f : α → β} {b y : β} (h : update f a b x = y) : (x = a ∧ b = y) ∨ (x ≠ a ∧ f x = y) := by
  by_cases hx : x = a
  · exact .inl ⟨hx, by rwa [hx, update_self] at h⟩
  · exact .inr ⟨hx, by rwa [update_of_ne hx] at h⟩

theorem update_none_eq_some {f : α → Option β} {y : β} : update f a none x = some y ↔ x ≠ a ∧ f x = some y := by
  simp [update_apply]

end Update

end Infinity.Lib
