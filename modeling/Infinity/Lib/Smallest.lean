import Mathlib

/-! The smallest elements of a collection under a total preorder.

`Smallest le k S T` says that `T` is what is left of `S` when only the `k` smallest elements
are kept: `T` is a part of `S` with `min k |S|` elements, none above an element of the rest.
Equal elements may stand on both sides, so that `T` is determined by `S` only up to elements
that are level with each other. The rules are those of a bounded selection: an element is
added or replaces the largest one, a sorted list is cut, and the smallest of several
collections are the smallest of their smallest. -/
namespace Infinity.Lib

open Multiset

variable {α : Type} {le : α → α → Prop} {k : Nat}

/-- `T` consists of the `k` smallest elements of `S`. -/
def Smallest (le : α → α → Prop) (k : Nat) (S T : Multiset α) : Prop :=
  ∃ R, S = T + R ∧ T.card = min k S.card ∧ ∀ a ∈ T, ∀ b ∈ R, le a b

namespace Smallest

variable {S T : Multiset α}

theorem subset (h : Smallest le k S T) : T ≤ S := by
  obtain ⟨R, rfl, -, -⟩ := h
  exact le_add_right T R

theorem card_eq (h : Smallest le k S T) : T.card = min k S.card := by
  obtain ⟨R, -, hcard, -⟩ := h
  exact hcard

/-- While there is room everything is kept. -/
theorem of_card_le (h : S.card ≤ k) : Smallest le k S S := ⟨0, by simp, by omega, by simp⟩

/-- A full selection is not changed by an element at or above all of it. -/
theorem discard {x : α} (h : Smallest le k S T) (hfull : T.card = k) (hx : ∀ a ∈ T, le a x) :
    Smallest le k (x ::ₘ S) T := by
  obtain ⟨R, rfl, hcard, hle⟩ := h
  refine ⟨x ::ₘ R, by simp, ?_, fun a ha b hb => ?_⟩
  · simp only [card_cons]
    omega
  · rcases mem_cons.mp hb with rfl | hb
    · exact hx a ha
    · exact hle a ha b hb

/-- An element at or below the largest one of a full selection takes its place. -/
theorem replace [IsTrans α le] {m x : α} (h : Smallest le k S (m ::ₘ T))
    (hfull : (m ::ₘ T).card = k) (hm : ∀ a ∈ T, le a m) (hx : le x m) : Smallest le k (x ::ₘ S) (x ::ₘ T) := by
  obtain ⟨R, rfl, hcard, hle⟩ := h
  refine ⟨m ::ₘ R, ?_, ?_, fun a ha b hb => ?_⟩
  · simp only [cons_add, add_cons]
    exact cons_swap x m _
  · simp only [card_cons, card_add] at hfull ⊢
    omega
  · have ham : le a m := by
      rcases mem_cons.mp ha with rfl | ha
      · exact hx
      · exact hm a ha
    rcases mem_cons.mp hb with rfl | hb
    · exact ham
    · exact Trans.trans ham (hle m (mem_cons_self m T) b hb)

/-- Selection by a key. -/
theorem map {β : Type} {le' : β → β → Prop} {f : α → β} (hf : ∀ a b, le a b → le' (f a) (f b))
    (h : Smallest le k S T) : Smallest le' k (S.map f) (T.map f) := by
  obtain ⟨R, rfl, hcard, hle⟩ := h
  refine ⟨R.map f, map_add f T R, by simpa using hcard, fun a ha b hb => ?_⟩
  obtain ⟨a, haT, rfl⟩ := mem_map.mp ha
  obtain ⟨b, hbR, rfl⟩ := mem_map.mp hb
  exact hf a b (hle a haT b hbR)

/-- A sorted list keeps its first elements. -/
theorem take {l : List α} (h : l.Pairwise le) : Smallest le k (l : Multiset α) (l.take k : Multiset α) := by
  refine ⟨(l.drop k : Multiset α), ?_, by simp, fun a ha b hb => ?_⟩
  · rw [coe_add, List.take_append_drop]
  · rw [← List.take_append_drop k l, List.pairwise_append] at h
    exact h.2.2 a (by simpa using ha) b (by simpa using hb)

/-- Of two selections with the same number of elements, what one has and the other lacks the
other has in another element. -/
theorem exists_left_out {T U V X : Multiset α} (h : T + X = U + V) (hcard : T.card = U.card) {u : α} (hu : u ∈ U)
    (hnot : u ∉ T) : ∃ t ∈ T, t ∈ V := by
  classical
  by_contra hno
  push Not at hno
  have hle : T ≤ U := by
    rw [le_iff_count]
    intro a
    by_cases ha : a ∈ T
    · have hcount := congrArg (count a) h
      rw [count_add, count_add, count_eq_zero.mpr (hno a ha)] at hcount
      omega
    rw [count_eq_zero.mpr ha]
    exact Nat.zero_le _
  exact hnot (eq_of_le_of_card_le hle hcard.ge ▸ hu)

variable {X U : Multiset α}

/-- What is not among the smallest of a part is not among the smallest of the whole. -/
theorem of_part [IsTrans α le] (h : Smallest le k S T) (hU : Smallest le k (T + X) U) : Smallest le k (S + X) U := by
  obtain ⟨R, rfl, hcard, hle⟩ := h
  obtain ⟨V, hUV, hcardU, hleU⟩ := hU
  simp only [card_add] at hcard hcardU
  refine ⟨V + R, ?_, ?_, fun u hu b hb => ?_⟩
  · rw [← add_assoc, ← hUV, add_right_comm]
  · simp only [card_add]
    omega
  · rcases mem_add.mp hb with hb | hb
    · exact hleU u hu b hb
    by_cases huT : u ∈ T
    · exact hle u huT b hb
    -- the selection from the part is full, so an element of it has been left out for `u`
    have hpos : 0 < R.card := card_pos_iff_exists_mem.mpr ⟨b, hb⟩
    obtain ⟨t, ht, htV⟩ := exists_left_out hUV (by omega) hu huT
    exact Trans.trans (hleU u hu t htV) (hle t ht b hb)

/-- The smallest elements of several collections are among the smallest of each. -/
theorem of_parts [IsTrans α le] {ι : Type} {l : List ι} {S T : ι → Multiset α}
    (h : ∀ i ∈ l, Smallest le k (S i) (T i)) (hU : Smallest le k ((l.map T).sum + X) U) :
    Smallest le k ((l.map S).sum + X) U := by
  induction l generalizing X with
  | nil => simpa using hU
  | cons i l ih =>
    simp only [List.map_cons, List.sum_cons] at hU ⊢
    rw [add_assoc] at hU ⊢
    have hrest : Smallest le k (T i + ((l.map S).sum + X)) U := by
      rw [add_left_comm] at hU ⊢
      exact ih (fun j hj => h j (List.mem_cons_of_mem i hj)) hU
    exact (h i (List.mem_cons_self ..)).of_part hrest

end Smallest

end Infinity.Lib
