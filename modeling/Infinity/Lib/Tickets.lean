import Mathlib

/-! Numbers drawn from a counter and turned in by whoever drew them.

Threads draw consecutive numbers, each keeps the one it drew for a while and then
turns it in with a value. `Handed` is what holds at any time in between: every
number drawn so far is either turned in or carried by exactly one thread. The
threads are a list, the carried number is read off a thread's state, and what was
turned in is a partial function of the number. -/
namespace Infinity.Lib

variable {π τ : Type}

/-- Every number below `n` is turned in, or carried by one thread that has not
turned it in. -/
structure Handed (carry : π → Option Nat) (ts : List π) (turned : Nat → Option τ) (n : Nat) : Prop where
  turned_lt : ∀ k e, turned k = some e → k < n
  carried : ∀ (i : Nat) p k, ts[i]? = some p → carry p = some k → k < n ∧ turned k = none
  once : ∀ (i j : Nat) p q k, ts[i]? = some p → ts[j]? = some q → carry p = some k → carry q = some k → i = j
  all : ∀ k < n, turned k = none → ∃ (i : Nat) (p : π), ts[i]? = some p ∧ carry p = some k

namespace Handed

variable {carry : π → Option Nat} {ts : List π} {turned : Nat → Option τ} {n : Nat}

theorem initial (carry : π → Option Nat) : Handed carry [] (fun _ => (none : Option τ)) 0 where
  turned_lt := fun _ _ h => by cases h
  carried := fun _ _ _ h => by cases h
  once := fun _ _ _ _ _ h => by cases h
  all := fun k hk => absurd hk (Nat.not_lt_zero k)

/-- What a thread's new state carries, when it is the thread asked about. -/
theorem get_set {i j : Nat} {p q : π} (h : (ts.set i p)[j]? = some q) :
    (j = i ∧ q = p) ∨ (j ≠ i ∧ ts[j]? = some q) := by
  rw [List.getElem?_set] at h
  split at h
  · rename_i hij
    split at h
    · exact .inl ⟨hij.symm, (Option.some.inj h).symm⟩
    · cases h
  · rename_i hij
    exact .inr ⟨fun hji => hij hji.symm, h⟩

theorem set_self {i : Nat} {p : π} (h : ts[i]? = some p) (q : π) : (ts.set i q)[i]? = some q := by
  obtain ⟨hi, -⟩ := List.getElem?_eq_some_iff.mp h
  simp [hi]

theorem set_other {i j : Nat} (hij : j ≠ i) (q : π) : (ts.set i q)[j]? = ts[j]? := List.getElem?_set_ne (Ne.symm hij)

section
variable (h : Handed carry ts turned n)
include h

/-- A thread that moves on and carries what it carried. -/
theorem keep {i : Nat} {p q : π} (hi : ts[i]? = some p) (hc : carry q = carry p) :
    Handed carry (ts.set i q) turned n := by
  -- every thread of the new list stands for one of the old list that carries the same
  have old : ∀ (j : Nat) r, (ts.set i q)[j]? = some r → ∃ r', ts[j]? = some r' ∧ carry r' = carry r := by
    intro j r hr
    rcases get_set hr with ⟨rfl, rfl⟩ | ⟨-, hr⟩
    · exact ⟨p, hi, hc.symm⟩
    · exact ⟨r, hr, rfl⟩
  refine ⟨h.turned_lt, ?_, ?_, ?_⟩
  · intro j r k hr hk
    obtain ⟨r', hr', he⟩ := old j r hr
    exact h.carried j r' k hr' (he.trans hk)
  · intro j j' r r' k hr hr' hk hk'
    obtain ⟨o, ho, he⟩ := old j r hr
    obtain ⟨o', ho', he'⟩ := old j' r' hr'
    exact h.once j j' o o' k ho ho' (he.trans hk) (he'.trans hk')
  · intro k hk hn
    obtain ⟨j, r, hr, hc'⟩ := h.all k hk hn
    by_cases hj : j = i
    · subst hj
      rw [hi] at hr
      cases hr
      exact ⟨j, q, set_self hi q, hc.trans hc'⟩
    · exact ⟨j, r, (set_other hj q).trans hr, hc'⟩

/-- A new thread that carries nothing. -/
theorem spawn {p : π} (hp : carry p = none) : Handed carry (ts ++ [p]) turned n := by
  have old : ∀ (j : Nat) r k, (ts ++ [p])[j]? = some r → carry r = some k → ts[j]? = some r := by
    intro j r k hr hk
    rcases lt_or_ge j ts.length with hj | hj
    · rwa [List.getElem?_append_left hj] at hr
    rw [List.getElem?_append_right hj, List.getElem?_singleton] at hr
    split at hr
    · cases hr
      rw [hp] at hk
      cases hk
    · cases hr
  refine ⟨h.turned_lt, ?_, ?_, ?_⟩
  · intro j r k hr hk
    exact h.carried j r k (old j r k hr hk) hk
  · intro j j' r r' k hr hr' hk hk'
    exact h.once j j' r r' k (old j r k hr hk) (old j' r' k hr' hk') hk hk'
  · intro k hk hn
    obtain ⟨j, r, hr, hc⟩ := h.all k hk hn
    obtain ⟨hj, -⟩ := List.getElem?_eq_some_iff.mp hr
    exact ⟨j, r, (List.getElem?_append_left hj).trans hr, hc⟩

/-- A thread draws the next number. -/
theorem draw {i : Nat} {p q : π} (hi : ts[i]? = some p) (hp : carry p = none)
    (hq : carry q = some n) : Handed carry (ts.set i q) turned (n + 1) := by
  have fresh : turned n = none :=
    Option.eq_none_iff_forall_ne_some.mpr fun e hn => absurd (h.turned_lt n e hn) (lt_irrefl n)
  refine ⟨fun k e hk => Nat.lt_succ_of_lt (h.turned_lt k e hk), ?_, ?_, ?_⟩
  · intro j r k hr hk
    rcases get_set hr with ⟨rfl, rfl⟩ | ⟨-, hr⟩
    · rw [hq] at hk
      cases hk
      exact ⟨Nat.lt_succ_self n, fresh⟩
    · obtain ⟨hlt, hn⟩ := h.carried j r k hr hk
      exact ⟨Nat.lt_succ_of_lt hlt, hn⟩
  · intro j j' r r' k hr hr' hk hk'
    rcases get_set hr with ⟨hj, hrq⟩ | ⟨hj, ho⟩ <;> rcases get_set hr' with ⟨hj', hrq'⟩ | ⟨hj', ho'⟩
    · exact hj.trans hj'.symm
    · rw [hrq, hq] at hk
      cases hk
      exact absurd (h.carried j' r' n ho' hk').1 (lt_irrefl n)
    · rw [hrq', hq] at hk'
      cases hk'
      exact absurd (h.carried j r n ho hk).1 (lt_irrefl n)
    · exact h.once j j' r r' k ho ho' hk hk'
  · intro k hk hn
    rcases Nat.lt_succ_iff_lt_or_eq.mp hk with hlt | rfl
    · obtain ⟨j, r, hr, hc⟩ := h.all k hlt hn
      have hj : j ≠ i := by
        rintro rfl
        rw [hi] at hr
        cases hr
        rw [hp] at hc
        cases hc
      exact ⟨j, r, (set_other hj q).trans hr, hc⟩
    · exact ⟨i, q, set_self hi q, hq⟩

/-- A thread turns its number in. -/
theorem turnIn {i k : Nat} {p q : π} (hi : ts[i]? = some p) (hp : carry p = some k)
    (hq : carry q = none) (e : τ) : Handed carry (ts.set i q) (Function.update turned k (some e)) n := by
  have other : ∀ (j : Nat) r k', (ts.set i q)[j]? = some r → carry r = some k' → ts[j]? = some r ∧ k' ≠ k := by
    intro j r k' hr hk'
    rcases get_set hr with ⟨rfl, rfl⟩ | ⟨hj, hr⟩
    · rw [hq] at hk'
      cases hk'
    refine ⟨hr, ?_⟩
    rintro rfl
    exact hj (h.once j i r p k' hr hi hk' hp)
  refine ⟨?_, ?_, ?_, ?_⟩
  · intro k' e' hk'
    by_cases heq : k' = k
    · exact heq ▸ (h.carried i p k hi hp).1
    · rw [Function.update_of_ne heq] at hk'
      exact h.turned_lt k' e' hk'
  · intro j r k' hr hk'
    obtain ⟨hr, hne⟩ := other j r k' hr hk'
    rw [Function.update_of_ne hne]
    exact h.carried j r k' hr hk'
  · intro j j' r r' k' hr hr' hk hk'
    exact h.once j j' r r' k' (other j r k' hr hk).1 (other j' r' k' hr' hk').1 hk hk'
  · intro k' hlt hn
    have hne : k' ≠ k := by
      rintro rfl
      simp at hn
    rw [Function.update_of_ne hne] at hn
    obtain ⟨j, r, hr, hc⟩ := h.all k' hlt hn
    have hj : j ≠ i := by
      rintro rfl
      rw [hi] at hr
      cases hr
      rw [hp] at hc
      exact hne (Option.some.inj hc).symm
    exact ⟨j, r, (set_other hj q).trans hr, hc⟩

/-- When no thread carries anything, every number drawn is turned in. -/
theorem turned_of_idle (idle : ∀ p ∈ ts, carry p = none) {k : Nat} (hk : k < n) : turned k ≠ none := by
  intro hn
  obtain ⟨i, p, hp, hc⟩ := h.all k hk hn
  rw [idle p (List.mem_of_getElem? hp)] at hc
  cases hc

end

end Handed

end Infinity.Lib
