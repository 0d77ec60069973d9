import Mathlib

/-! Facts about lists that the library of Lean does not have. -/
namespace Infinity.Lib

open List

variable {α : Type}

variable {l : List α}

/-- Two different members of a list stand in one of the two orders. -/
theorem pairwise_or {R : α → α → Prop} (h : l.Pairwise R) {x y : α} (hx : x ∈ l) (hy : y ∈ l)
    (hne : x ≠ y) : R x y ∨ R y x := by
  have : Std.Symm fun x y => R x y ∨ R y x := ⟨fun _ _ => Or.symm⟩
  have hl : l.Pairwise fun x y => R x y ∨ R y x := h.imp Or.inl
  exact hl.forall hx hy hne

variable {p : α → Bool}

/-- Where whatever precedes a member with `p` has it too, dropping `p` from the front leaves
the members without it. -/
theorem dropWhile_eq_filter (h : l.Pairwise fun a b => p b → p a) : l.dropWhile p = l.filter fun a => !p a := by
  induction h with
  | nil => rfl
  | @cons a l hR _ ih =>
    cases ha : p a
    · have hnone : ∀ b ∈ l, (!p b) = true := fun b hb => by
        cases hb' : p b
        · rfl
        · exact absurd (hR b hb hb') (by simp [ha])
      rw [dropWhile_cons_of_neg (by simp [ha]), filter_cons_of_pos (by simp [ha]), filter_eq_self.mpr hnone]
    · rw [dropWhile_cons_of_pos ha, filter_cons_of_neg (by simp [ha]), ih]

theorem takeWhile_eq_filter (h : l.Pairwise fun a b => p b → p a) : l.takeWhile p = l.filter p := by
  induction l with
  | nil => rfl
  | cons a l ih =>
    obtain ⟨ha, hl⟩ := pairwise_cons.mp h
    by_cases hp : p a
    · rw [takeWhile_cons_of_pos hp, filter_cons_of_pos hp, ih hl]
    · rw [takeWhile_cons_of_neg hp, filter_cons_of_neg hp, filter_eq_nil_iff.mpr fun b hb hpb => hp (ha b hb hpb)]

/-- Where whatever follows a member with `p` has it too, the list is those without it and
then those with it. -/
theorem filter_not_append_filter (h : l.Pairwise fun a b => p a → p b) :
    l.filter (fun a => !p a) ++ l.filter p = l := by
  have hnot : l.Pairwise fun a b => !p b → !p a := h.imp fun {a b} hab hb => by
    cases ha : p a
    · rfl
    · simp [hab ha] at hb
  have hsplit := takeWhile_append_dropWhile (p := fun a => !p a) (l := l)
  rwa [takeWhile_eq_filter hnot, dropWhile_eq_filter hnot, funext fun a => Bool.not_not (p a)] at hsplit

/-- Where whatever follows a member with `p` has it too, dropping `p` from the back leaves
the members without it. -/
theorem rdropWhile_eq_filter (h : l.Pairwise fun a b => p a → p b) : l.rdropWhile p = l.filter fun a => !p a := by
  rw [rdropWhile, dropWhile_eq_filter (pairwise_reverse.mpr h), filter_reverse, reverse_reverse]

variable {a : α}

/-- What is found first comes before all others like it. -/
theorem find?_first {R : α → α → Prop} (h : l.Pairwise R) (hf : l.find? p = some a) :
    p a = true ∧ a ∈ l ∧ ∀ x ∈ l, p x = true → x = a ∨ R a x := by
  obtain ⟨hp, front, back, rfl, hfront⟩ := find?_eq_some_iff_append.mp hf
  refine ⟨hp, by simp, fun x hx hpx => ?_⟩
  rcases mem_append.mp hx with hx | hx
  · exact absurd hpx (by simpa using hfront x hx)
  · exact (mem_cons.mp hx).imp_right ((pairwise_cons.mp (pairwise_append.mp h).2.1).1 x)

/-- The last of increasing values is the largest. -/
theorem getLast?_eq_some_iff_max [LinearOrder α] (h : l.Pairwise (· < ·)) (a : α) :
    l.getLast? = some a ↔ a ∈ l ∧ ∀ b ∈ l, b ≤ a := by
  rcases eq_nil_or_concat l with rfl | ⟨init, last, rfl⟩
  · simp
  rw [concat_eq_append] at h ⊢
  obtain ⟨-, -, hlt⟩ := pairwise_append.mp h
  rw [getLast?_concat, Option.some.injEq]
  constructor
  · rintro rfl
    refine ⟨mem_append_right _ (mem_singleton_self _), fun b hb => ?_⟩
    rcases mem_append.mp hb with hb | hb
    · exact (hlt b hb last (mem_singleton_self _)).le
    · exact (mem_singleton.mp hb).le
  · rintro ⟨ha, hmax⟩
    have hle := hmax last (mem_append_right _ (mem_singleton_self _))
    rcases mem_append.mp ha with ha | ha
    · exact absurd (hlt a ha last (mem_singleton_self _)) (not_lt.mpr hle)
    · exact (mem_singleton.mp ha).symm

/-- What is asked of two lists together, once the first is known to have it. -/
theorem nodup_append_and_forall_iff {A B : List α} {P : α → Prop} (hnd : A.Nodup) (hA : ∀ x ∈ A, P x) :
    ((A ++ B).Nodup ∧ ∀ x ∈ A ++ B, P x) ↔ B.Nodup ∧ ∀ x ∈ B, P x ∧ x ∉ A := by
  rw [nodup_append]
  constructor
  · rintro ⟨⟨_, hndB, hdisj⟩, hall⟩
    exact ⟨hndB, fun x hx => ⟨hall x (mem_append_right _ hx), fun hmem => hdisj x hmem x hx rfl⟩⟩
  · rintro ⟨hndB, hall⟩
    refine ⟨⟨hnd, hndB, ?_⟩, ?_⟩
    · rintro x hx y hy rfl
      exact (hall x hy).2 hx
    · intro x hx
      exact (mem_append.mp hx).elim (hA x) fun hx => (hall x hx).1

variable {i : Nat}

/-- A member is replaced by one with the same image. -/
theorem map_set_same {β : Type} {f : α → β} {a b : α} (h : l[i]? = some b) (hf : f a = f b) :
    (l.set i a).map f = l.map f := by
  obtain ⟨hlt, rfl⟩ := List.getElem?_eq_some_iff.mp h
  rw [map_set, hf, ← getElem_map f (h := by simpa using hlt), set_getElem_self]

/-- One member of a sum is replaced. -/
theorem sum_set_add {l : List Nat} {i a b : Nat} (h : l[i]? = some b) : (l.set i a).sum + b = l.sum + a := by
  induction l generalizing i with
  | nil => cases h
  | cons x l ih =>
    cases i with
    | zero =>
      cases h
      simp only [set_cons_zero, sum_cons]
      omega
    | succ i =>
      have hrest := ih h
      simp only [set_cons_succ, sum_cons]
      omega

/-- One member is replaced: what its image adds to the concatenation is replaced. -/
theorem flatMap_set_perm {β : Type} (f : α → List β) (h : l[i]? = some a) :
    ∃ rest, (l.flatMap f).Perm (f a ++ rest) ∧ ∀ b, ((l.set i b).flatMap f).Perm (f b ++ rest) := by
  induction l generalizing i with
  | nil => cases h
  | cons x l ih =>
    cases i with
    | zero =>
      cases h
      exact ⟨l.flatMap f, .refl _, fun b => .refl _⟩
    | succ i =>
      obtain ⟨rest, hold, hnew⟩ := ih h
      have swap (y : α) {l' : List α} (hl : (l'.flatMap f).Perm (f y ++ rest)) :
          ((x :: l').flatMap f).Perm (f y ++ (f x ++ rest)) :=
        (hl.append_left (f x)).trans (perm_append_comm_assoc ..)
      exact ⟨f x ++ rest, swap a hold, fun b => swap b (hnew b)⟩

/-! ### Lists with a given beginning, in lexicographic order -/

theorem lt_of_take_lt_take [LinearOrder α] {a b : List α} {n : Nat} (h : a.take n < b.take n) : a < b := by
  induction n generalizing a b with
  | zero =>
    rw [take_zero, take_zero] at h
    exact absurd h (lt_irrefl _)
  | succ n ih =>
    cases b with
    | nil => exact absurd h (not_lt_nil _)
    | cons y b =>
      cases a with
      | nil => exact nil_lt_cons y b
      | cons x a =>
        rw [take_succ_cons, take_succ_cons, cons_lt_cons_iff] at h
        rw [cons_lt_cons_iff]
        rcases h with h | ⟨rfl, h⟩
        · exact .inl h
        · exact .inr ⟨rfl, ih h⟩

/-- Cutting lists to a length keeps their order. -/
theorem take_le_take [LinearOrder α] {a b : List α} (n : Nat) (h : a ≤ b) : a.take n ≤ b.take n :=
  not_lt.mp fun hlt => not_lt.mpr h (lt_of_take_lt_take hlt)

/-- What stands between `e` and a list that begins with it begins with it too. -/
theorem isPrefix_of_between [LinearOrder α] {e k k' : List α} (hle : e ≤ k) (hlt : k < k') (h : e <+: k') :
    e <+: k := by
  have hlow := take_le_take e.length hle
  have hhigh := take_le_take e.length hlt.le
  rw [take_length] at hlow
  rw [← prefix_iff_eq_take.mp h] at hhigh
  exact prefix_iff_eq_take.mpr (le_antisymm hlow hhigh)

/-- Where two tests differ at one member only, the one it passes counts one more. -/
theorem countP_eq_add_one {p q : α → Bool} {x : α} (hnd : l.Nodup) (hx : x ∈ l) (hp : p x = true)
    (hq : q x = false) (h : ∀ y ∈ l, y ≠ x → p y = q y) : l.countP p = l.countP q + 1 := by
  induction l with
  | nil => cases hx
  | cons y l ih =>
    obtain ⟨hy, hnd⟩ := nodup_cons.mp hnd
    rcases mem_cons.mp hx with rfl | hxl
    · have hrest : l.countP p = l.countP q :=
        countP_congr fun z hz => by
          rw [h z (mem_cons_of_mem _ hz) fun heq => hy (heq ▸ hz)]
      rw [countP_cons_of_pos hp, countP_cons_of_neg (by simp [hq]), hrest]
    · have hne : y ≠ x := fun heq => hy (heq ▸ hxl)
      have hrest := ih hnd hxl fun z hz => h z (mem_cons_of_mem _ hz)
      rw [countP_cons, countP_cons, h y mem_cons_self hne, hrest]
      omega

/-! ### Lists that agree member by member -/

section Forall₂

variable {β : Type} {R R' : α → β → Prop} {l : List α} {l' : List β}

theorem forall₂_exists_right (h : Forall₂ R l l') {a : α} (ha : a ∈ l) : ∃ b ∈ l', R a b := by
  induction h with
  | nil => cases ha
  | @cons _ b _ _ hab _ ih =>
    rcases mem_cons.mp ha with rfl | ha
    · exact ⟨b, mem_cons_self, hab⟩
    · obtain ⟨b', hb', hR⟩ := ih ha
      exact ⟨b', mem_cons_of_mem _ hb', hR⟩

theorem forall₂_exists_left (h : Forall₂ R l l') {b : β} (hb : b ∈ l') : ∃ a ∈ l, R a b :=
  forall₂_exists_right h.flip hb

theorem forall₂_imp_mem (h : Forall₂ R l l') (himp : ∀ a b, a ∈ l → b ∈ l' → R a b → R' a b) : Forall₂ R' l l' := by
  induction h with
  | nil => exact .nil
  | cons hab _ ih =>
    refine .cons (himp _ _ mem_cons_self mem_cons_self hab) (ih fun a b ha hb => ?_)
    exact himp a b (mem_cons_of_mem _ ha) (mem_cons_of_mem _ hb)

theorem forall₂_set {i : Nat} {b b' : β} (h : Forall₂ R l l') (hb : l'[i]? = some b)
    (hR : ∀ a, R a b → R a b') : Forall₂ R l (l'.set i b') := by
  induction h generalizing i with
  | nil => exact .nil
  | @cons _ c _ _ hab hrest ih =>
    cases i with
    | zero =>
      obtain rfl : c = b := by simpa using hb
      exact .cons (hR _ hab) hrest
    | succ i => exact .cons hab (ih (by simpa using hb))

end Forall₂

end Infinity.Lib
