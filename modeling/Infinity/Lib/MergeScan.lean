import Mathlib

/-! The two-pointer scan for a common member, on lists that need not be sorted.

The scan walks the first list once; for each member it moves a pointer into the second
list past everything smaller and compares. On sorted lists it finds a common member
whenever there is one. On arbitrary lists the pointer only ever stops at *records* of
the second list, members greater than everything before them, and only records of the
first list can meet it there: `mergeScan_isSome_iff` says that the scan succeeds exactly
when the lists have a record in common. -/
namespace Infinity.Lib

open List

variable {α : Type} [LinearOrder α]

/-- The scan; the second argument is what the pointer has not passed yet. -/
def mergeScan : List α → List α → Option α
  | [], _ => none
  | a :: as, bs =>
    match bs.dropWhile (· < a) with
    | [] => none
    | b :: bs' => if b = a then some a else mergeScan as (b :: bs')

/-- `a` stands in the list and everything before it is smaller. -/
def IsRecord : List α → α → Prop
  | [], _ => False
  | x :: l, a => x = a ∨ (x < a ∧ IsRecord l a)

/-- Dropping smaller members from the front does not change the larger records. -/
theorem isRecord_dropWhile {l : List α} {a x : α} (hax : a ≤ x) : IsRecord (l.dropWhile (· < a)) x ↔ IsRecord l x := by
  induction l with
  | nil => exact Iff.rfl
  | cons y l ih =>
    by_cases hy : y < a
    · rw [dropWhile_cons_of_pos (by simpa using hy), ih]
      have hyx : y < x := lt_of_lt_of_le hy hax
      simp only [IsRecord, hyx, hyx.ne, true_and, false_or]
    · rw [dropWhile_cons_of_neg (by simpa using hy)]

theorem mergeScan_mem {as bs : List α} {a : α} (h : mergeScan as bs = some a) : a ∈ as ∧ a ∈ bs := by
  induction as generalizing bs with
  | nil => cases h
  | cons x as ih =>
    simp only [mergeScan] at h
    have hsub := (dropWhile_sublist (· < x) (l := bs)).subset
    cases hd : bs.dropWhile (· < x) with
    | nil => rw [hd] at h; cases h
    | cons b bs' =>
      rw [hd] at h hsub
      dsimp only at h
      split at h
      · rename_i hb
        cases h
        exact ⟨mem_cons_self, hsub (by rw [hb]; exact mem_cons_self)⟩
      · obtain ⟨h₁, h₂⟩ := ih h
        exact ⟨mem_cons_of_mem _ h₁, hsub h₂⟩

/-- **The scan finds something exactly when the lists have a record in common.** -/
theorem mergeScan_isSome_iff (as bs : List α) : (mergeScan as bs).isSome ↔ ∃ a, IsRecord as a ∧ IsRecord bs a := by
  induction as generalizing bs with
  | nil => simp [mergeScan, IsRecord]
  | cons x as ih =>
    have hge : ∀ a, IsRecord (x :: as) a → x ≤ a := by
      rintro a (rfl | ⟨hlt, -⟩)
      · exact le_rfl
      · exact hlt.le
    cases hd : bs.dropWhile (· < x) with
    | nil =>
      simp only [mergeScan, hd, Option.isSome_none, Bool.false_eq_true, false_iff, not_exists, not_and]
      intro a ha hb
      rw [← isRecord_dropWhile (hge a ha), hd] at hb
      exact hb
    | cons b bs' =>
      have hrec : ∀ a, x ≤ a → (IsRecord (b :: bs') a ↔ IsRecord bs a) := by
        intro a ha
        rw [← hd]
        exact isRecord_dropWhile ha
      have hxb : x ≤ b := by
        have := head_dropWhile_not (· < x) (l := bs) (by rw [hd]; exact cons_ne_nil _ _)
        simpa [hd] using this
      by_cases hb : b = x
      · simp only [mergeScan, hd, hb, if_true, Option.isSome_some, true_iff]
        exact ⟨x, .inl rfl, (hrec x le_rfl).mp (.inl hb)⟩
      simp only [mergeScan, hd, hb, if_false, ih]
      -- the pointer stands behind `x`: what is left to find is greater than `x`
      constructor
      · rintro ⟨a, ha, hba⟩
        have hxa : x < a := by
          rcases hba with rfl | ⟨hlt, -⟩
          · exact lt_of_le_of_ne hxb (Ne.symm hb)
          · exact lt_of_le_of_lt hxb hlt
        exact ⟨a, .inr ⟨hxa, ha⟩, (hrec a hxa.le).mp hba⟩
      · rintro ⟨a, ha, hba⟩
        have hba' := (hrec a (hge a ha)).mpr hba
        rcases ha with rfl | ⟨-, ha⟩
        · rcases hba' with h | ⟨hlt, -⟩
          · exact absurd h hb
          · exact absurd hxb (not_le.mpr hlt)
        · exact ⟨a, ha, hba'⟩

end Infinity.Lib
