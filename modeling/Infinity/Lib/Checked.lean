import Mathlib

/-! Computations that check their input.

A computation that may fail checks a condition when it succeeds exactly under it, and what
it then returns has a property. From the outside such a computation is used in two ways:
that it succeeded says the condition held, and that the condition holds says it succeeds.
`Ends` says both what a computation returns and why it fails. -/
namespace Infinity.Lib

variable {ε ε' α β : Type}

/-- `r` succeeds exactly under `P`, and then with a `Q`. -/
structure Checks (r : Except ε α) (P : Prop) (Q : α → Prop) : Prop where
  succeeds : P → ∃ a, r = .ok a ∧ Q a
  condition : ∀ a, r = .ok a → P

theorem Checks.result {r : Except ε α} {P : Prop} {Q : α → Prop} (h : Checks r P Q) {a : α} (ha : r = .ok a) : Q a := by
  obtain ⟨a', ha', hq⟩ := h.succeeds (h.condition a ha)
  rw [ha] at ha'
  cases ha'
  exact hq

/-- Who stops at a failure checks whatever implies the condition. -/
theorem Checks.error {r : Except ε α} {P P' : Prop} {Q : α → Prop} {Q' : β → Prop} {e : ε} {e' : ε'}
    (h : Checks r P Q) (hr : r = .error e) (hP : P' → P) : Checks (.error e' : Except ε' β) P' Q' where
  succeeds hp := by
    obtain ⟨a, ha, -⟩ := h.succeeds (hP hp)
    cases hr.symm.trans ha
  condition a ha := by cases ha

/-- A condition and a property stated in another way. -/
theorem Checks.congr {r : Except ε α} {P P' : Prop} {Q Q' : α → Prop} (h : Checks r P Q) (hP : P' ↔ P)
    (hQ : P → ∀ a, Q a → Q' a) : Checks r P' Q' where
  succeeds hp := by
    obtain ⟨a, ha, hq⟩ := h.succeeds (hP.mp hp)
    exact ⟨a, ha, hQ (hP.mp hp) a hq⟩
  condition a ha := hP.mpr (h.condition a ha)

/-- Two computations in sequence succeed where each does. -/
theorem ok_of_bind {r : Except ε α} {f : α → Except ε β} {b : β} (h : r >>= f = .ok b) : ∃ a, r = .ok a ∧ f a = .ok b := by
  cases r with
  | error e => cases h
  | ok a => exact ⟨a, rfl, h⟩

/-- `r` succeeds with a `Q` or fails with a `P`. -/
def Ends (r : Except ε α) (Q : α → Prop) (P : ε → Prop) : Prop :=
  match r with
  | .ok a => Q a
  | .error e => P e

namespace Ends

variable {r : Except ε α} {Q Q' : α → Prop} {P P' : ε → Prop}

theorem ok (h : Ends r Q P) {a : α} (hr : r = .ok a) : Q a := by
  subst hr
  exact h

theorem error (h : Ends r Q P) {e : ε} (hr : r = .error e) : P e := by
  subst hr
  exact h

theorem imp (h : Ends r Q P) (hQ : ∀ a, Q a → Q' a) (hP : ∀ e, P e → P' e) : Ends r Q' P' := by
  cases r with
  | ok a => exact hQ a h
  | error e => exact hP e h

end Ends

end Infinity.Lib
