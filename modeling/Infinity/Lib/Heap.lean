import Mathlib

/-! Binary heaps in an array that counts its positions from 1.

The array is a function on positions and `n` the number of those in use; the children of `p`
are `2 p` and `2 p + 1`, and nothing is above its parent. Sifting an element down is described
by the array with the element at the hole: everything off the hole is in order, and the
children of the hole are in order with its parent. One move exchanges the hole with its
larger child and keeps that. -/
namespace Infinity.Lib.Heap

open Finset

variable {γ : Type} {le : γ → γ → Prop} {n lo hole : Nat} {f : Nat → γ}

/-- The elements at the positions in use. -/
def contents (f : Nat → γ) (n : Nat) : Multiset γ := (Finset.Icc 1 n).val.map f

theorem contents_succ (f : Nat → γ) (n : Nat) : contents f (n + 1) = f (n + 1) ::ₘ contents f n := by
  have hmem : n + 1 ∉ Finset.Icc 1 n := by simp
  have hins : Finset.Icc 1 (n + 1) = (Finset.Icc 1 n).cons (n + 1) hmem := by
    ext i
    simp only [mem_Icc, mem_cons]
    omega
  rw [contents, hins, cons_val, Multiset.map_cons, contents]

theorem contents_first (f : Nat → γ) {n : Nat} (hn : 1 ≤ n) : contents f n = f 1 ::ₘ (Finset.Icc 2 n).val.map f := by
  have hmem : 1 ∉ Finset.Icc 2 n := by simp
  have hins : Finset.Icc 1 n = (Finset.Icc 2 n).cons 1 hmem := by
    ext i
    simp only [mem_Icc, mem_cons]
    omega
  rw [contents, hins, cons_val, Multiset.map_cons]

theorem contents_replace_top (f : Nat → γ) {n : Nat} (hn : 1 ≤ n) (x : γ) :
    contents (Function.update f 1 x) n = x ::ₘ (Finset.Icc 2 n).val.map f := by
  rw [contents_first _ hn, Function.update_self]
  refine congrArg _ (Multiset.map_congr rfl fun i hi => Function.update_of_ne ?_ ..)
  have := (mem_Icc.mp (mem_val.mp hi)).1
  omega

@[simp] theorem card_contents (f : Nat → γ) (n : Nat) : (contents f n).card = n := by simp [contents]

theorem mem_contents {x : γ} : x ∈ contents f n ↔ ∃ i, 1 ≤ i ∧ i ≤ n ∧ f i = x := by
  simp [contents, and_assoc]

theorem contents_congr {g : Nat → γ} (h : ∀ i, 1 ≤ i → i ≤ n → g i = f i) : contents g n = contents f n :=
  Multiset.map_congr rfl fun i hi => h i (mem_Icc.mp hi).1 (mem_Icc.mp hi).2

/-- An exchange of two positions in use keeps the contents. -/
theorem contents_swap {i j : Nat} (hi : 1 ≤ i ∧ i ≤ n) (hj : 1 ≤ j ∧ j ≤ n) :
    contents (fun p => f (Equiv.swap i j p)) n = contents f n := by
  have hmap : (Finset.Icc 1 n).map (Equiv.swap i j).toEmbedding = Finset.Icc 1 n := by
    refine map_perm fun p hp => ?_
    rcases Equiv.swap_apply_ne_self_iff.mp hp with ⟨-, rfl | rfl⟩
    · simpa using hi
    · simpa using hj
  calc contents (fun p => f (Equiv.swap i j p)) n
      = ((Finset.Icc 1 n).val.map (Equiv.swap i j)).map f := by simp [contents, Multiset.map_map]
    _ = ((Finset.Icc 1 n).map (Equiv.swap i j).toEmbedding).val.map f := rfl
    _ = contents f n := by rw [hmap, contents]

/-! ### Order -/

def IsChild (c p : Nat) : Prop := c = 2 * p ∨ c = 2 * p + 1

theorem IsChild.twice_le {c p : Nat} (h : IsChild c p) : 2 * p ≤ c := by
  unfold IsChild at h
  omega

/-- From position `lo` on nothing is above its parent. -/
def HeapFrom (le : γ → γ → Prop) (n lo : Nat) (f : Nat → γ) : Prop :=
  ∀ p c, lo ≤ p → IsChild c p → c ≤ n → le (f c) (f p)

/-- The second half of the positions has no children. -/
theorem heapFrom_leaves (h : n < 2 * lo) : HeapFrom le n lo f := fun p c hp hc hcs => by
  have := hc.twice_le
  omega

theorem HeapFrom.replace_top (h : HeapFrom le n 1 f) (x : γ) : HeapFrom le n 2 (Function.update f 1 x) := by
  intro p c hp hc hcs
  have := hc.twice_le
  rw [Function.update_of_ne (by omega), Function.update_of_ne (by omega)]
  exact h p c (by omega) hc hcs

/-- The first element is the largest one. -/
theorem HeapFrom.le_top [IsTrans γ le] [Std.Refl le] (h : HeapFrom le n 1 f) {i : Nat} (hi : 1 ≤ i) (hn : i ≤ n) :
    le (f i) (f 1) := by
  induction i using Nat.strong_induction_on with
  | _ i ih =>
    by_cases h1 : i = 1
    · subst h1
      exact Std.Refl.refl _
    have hchild : IsChild i (i / 2) := by
      unfold IsChild
      omega
    exact Trans.trans (h (i / 2) i (by omega) hchild hn) (ih (i / 2) (by omega) (by omega) (by omega))

/-- The element at the hole may be too small, and nothing else is out of order. -/
structure Sift (le : γ → γ → Prop) (n lo hole : Nat) (f : Nat → γ) : Prop where
  except : ∀ p c, lo ≤ p → p ≠ hole → IsChild c p → c ≤ n → le (f c) (f p)
  grand : ∀ p c, lo ≤ p → IsChild hole p → IsChild c hole → c ≤ n → le (f c) (f p)

theorem Sift.start (hlo : 1 ≤ lo) (h : HeapFrom le n (lo + 1) f) : Sift le n lo lo f where
  except p c hp hne := h p c (by omega)
  grand p c hp hchild := by
    have := hchild.twice_le
    omega

/-- The hole changes places with its larger child. -/
theorem Sift.move (h : Sift le n lo hole f) (hlo : 1 ≤ lo) (hhole : lo ≤ hole) {sub : Nat}
    (hsub : IsChild sub hole) (hn : sub ≤ n) (hmax : ∀ c, IsChild c hole → c ≤ n → le (f c) (f sub))
    (hle : le (f hole) (f sub)) : Sift le n lo sub fun p => f (Equiv.swap hole sub p) := by
  have hlt := hsub.twice_le
  constructor
  · intro p c hp hne hchild hc
    have hpc := hchild.twice_le
    by_cases hph : p = hole
    · subst hph
      rw [Equiv.swap_apply_left]
      by_cases hcs : c = sub
      · subst hcs
        rwa [Equiv.swap_apply_right]
      · rw [Equiv.swap_apply_of_ne_of_ne (by omega) hcs]
        exact hmax c hchild hc
    · rw [Equiv.swap_apply_of_ne_of_ne hph hne]
      by_cases hch : c = hole
      · subst hch
        rw [Equiv.swap_apply_left]
        exact h.grand p sub hp hchild hsub hn
      have hcs : c ≠ sub := fun hcs => by
        unfold IsChild at hchild hsub
        omega
      rw [Equiv.swap_apply_of_ne_of_ne hch hcs]
      exact h.except p c hp hph hchild hc
  · intro p c hp hchild hc hcn
    have hph : p = hole := by
      unfold IsChild at hchild hsub
      omega
    have hsc := hc.twice_le
    rw [hph, Equiv.swap_apply_left, Equiv.swap_apply_of_ne_of_ne (by omega) (by omega)]
    exact h.except sub c (by omega) (by omega) hc hcn

theorem Sift.finish (h : Sift le n lo hole f) (hstop : ∀ c, IsChild c hole → c ≤ n → le (f c) (f hole)) :
    HeapFrom le n lo f := by
  intro p c hp hchild hc
  by_cases hph : p = hole
  · subst hph
    exact hstop c hchild hc
  · exact h.except p c hp hph hchild hc

theorem Sift.leaf (h : Sift le n lo hole f) (hleaf : n < 2 * hole) : HeapFrom le n lo f :=
  h.finish fun c hc hcs => absurd hc.twice_le (by omega)

end Infinity.Lib.Heap
