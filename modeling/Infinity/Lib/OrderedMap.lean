import Mathlib

/-! Maps that keep their entries in key order.

The entries are a list with strictly increasing keys, so that the order in which a
loop visits them, the first entry and the entries around a key are all plain list
facts. Reading is by `find?`; every operation has one lemma that says what `find?`
returns after it, and `begin?_eq_some` says which entry is first. -/
namespace Infinity.Lib

open List

/-- A map from `κ` to `υ` whose entries stand in increasing key order. -/
structure OrderedMap (κ υ : Type) [LinearOrder κ] where
  entries : List (κ × υ)
  sorted : entries.Pairwise (fun a b => a.1 < b.1)

namespace OrderedMap

variable {κ υ : Type} [LinearOrder κ]

def empty : OrderedMap κ υ := ⟨[], .nil⟩

def find? (m : OrderedMap κ υ) (k : κ) : Option υ := (m.entries.find? (fun e => e.1 == k)).map Prod.snd

/-- The first entry. -/
def begin? (m : OrderedMap κ υ) : Option (κ × υ) := m.entries.head?

@[simp]
theorem find?_empty (k : κ) : (empty : OrderedMap κ υ).find? k = none := rfl

theorem mem_entries (m : OrderedMap κ υ) (k : κ) (v : υ) : (k, v) ∈ m.entries ↔ m.find? k = some v := by
  obtain ⟨l, hl⟩ := m
  simp only [find?]
  induction l with
  | nil => simp
  | cons e l ih =>
    obtain ⟨hlt, hl'⟩ := pairwise_cons.mp hl
    by_cases he : e.1 = k
    · have hk : (k, v) ∉ l := fun hm => absurd (hlt _ hm) (by simp [he])
      rw [find?_cons_of_pos (by simp [he])]
      simp only [mem_cons, hk, or_false, Option.map_some, Option.some.injEq]
      constructor
      · rintro rfl
        rfl
      · rintro rfl
        rw [← he]
    · have hne : (k, v) ≠ e := fun h => he (by rw [← h])
      rw [find?_cons_of_neg (by simpa using he), ← ih hl']
      simp [hne]

theorem find?_eq_of_mem {m : OrderedMap κ υ} {k : κ} {o : Option υ}
    (h : ∀ v, (k, v) ∈ m.entries ↔ o = some v) : m.find? k = o := by
  apply Option.ext
  intro v
  rw [← mem_entries, h]

theorem find?_eq_none (m : OrderedMap κ υ) (k : κ) : m.find? k = none ↔ ∀ e ∈ m.entries, e.1 ≠ k := by
  simp [find?]

theorem begin?_eq_some (m : OrderedMap κ υ) (k : κ) (v : υ) :
    m.begin? = some (k, v) ↔ m.find? k = some v ∧ ∀ k' v', m.find? k' = some v' → k ≤ k' := by
  simp only [← mem_entries, begin?]
  obtain ⟨l, hl⟩ := m
  cases l with
  | nil => simp
  | cons e l =>
    obtain ⟨hlt, -⟩ := pairwise_cons.mp hl
    simp only [head?_cons, Option.some.injEq, mem_cons]
    constructor
    · rintro rfl
      refine ⟨.inl rfl, ?_⟩
      rintro k' v' (h | h)
      · exact (congrArg Prod.fst h).ge
      · exact (hlt _ h).le
    · rintro ⟨h | h, hmin⟩
      · exact h.symm
      · exact absurd (hlt _ h) (not_lt.mpr (hmin e.1 e.2 (.inl rfl)))

theorem begin?_eq_none (m : OrderedMap κ υ) : m.begin? = none ↔ ∀ k, m.find? k = none := by
  simp only [begin?, head?_eq_none_iff, find?_eq_none]
  constructor
  · intro h k e he
    rw [h] at he
    cases he
  · intro h
    cases hm : m.entries with
    | nil => rfl
    | cons e l => exact absurd rfl (h e.1 e (by rw [hm]; exact mem_cons_self))

/-! ### Insertion -/

/-- Put `(k, v)` in its place; an entry that has the key already stays as it is. -/
def emplaceEntry (k : κ) (v : υ) : List (κ × υ) → List (κ × υ)
  | [] => [(k, v)]
  | e :: l => if k < e.1 then (k, v) :: e :: l else if e.1 < k then e :: emplaceEntry k v l else e :: l

theorem mem_emplaceEntry {k : κ} {v : υ} {l : List (κ × υ)} (hl : l.Pairwise (fun a b => a.1 < b.1))
    (e : κ × υ) : e ∈ emplaceEntry k v l ↔ e ∈ l ∨ e = (k, v) ∧ ∀ b ∈ l, b.1 ≠ k := by
  induction l with
  | nil => simp [emplaceEntry]
  | cons b l ih =>
    obtain ⟨hlt, hl'⟩ := pairwise_cons.mp hl
    simp only [emplaceEntry]
    split
    · rename_i hk
      have hfree : ∀ c ∈ b :: l, c.1 ≠ k := by
        intro c hc
        rcases mem_cons.mp hc with rfl | hc
        · exact hk.ne'
        · exact (hk.trans (hlt c hc)).ne'
      rw [mem_cons, or_comm, and_iff_left hfree]
    · split
      · rename_i hk
        rw [mem_cons, ih hl', mem_cons, or_assoc]
        simp [hk.ne]
      · rename_i h₁ h₂
        have hb : b.1 = k := le_antisymm (not_lt.mp h₁) (not_lt.mp h₂)
        simp [hb]

theorem emplaceEntry_sorted (k : κ) (v : υ) {l : List (κ × υ)}
    (hl : l.Pairwise (fun a b => a.1 < b.1)) : (emplaceEntry k v l).Pairwise (fun a b => a.1 < b.1) := by
  induction l with
  | nil => exact pairwise_singleton _ _
  | cons e l ih =>
    obtain ⟨hlt, hl'⟩ := pairwise_cons.mp hl
    simp only [emplaceEntry]
    split
    · rename_i hk
      refine pairwise_cons.mpr ⟨fun b hb => ?_, hl⟩
      rcases mem_cons.mp hb with rfl | hb
      · exact hk
      · exact hk.trans (hlt b hb)
    · split
      · rename_i hk
        refine pairwise_cons.mpr ⟨fun b hb => ?_, ih hl'⟩
        rcases (mem_emplaceEntry hl' b).mp hb with hb | ⟨rfl, -⟩
        · exact hlt b hb
        · exact hk
      · exact hl

/-- Store the value unless the key is taken. -/
def emplace (m : OrderedMap κ υ) (k : κ) (v : υ) : OrderedMap κ υ :=
  ⟨emplaceEntry k v m.entries, emplaceEntry_sorted k v m.sorted⟩

theorem find?_emplace (m : OrderedMap κ υ) (k k' : κ) (v : υ) :
    (m.emplace k v).find? k' = if k' = k then some ((m.find? k).getD v) else m.find? k' := by
  apply find?_eq_of_mem
  intro w
  rw [emplace, mem_emplaceEntry m.sorted, mem_entries, ← find?_eq_none]
  by_cases h : k' = k
  · subst h
    cases hm : m.find? k' <;> simp [eq_comm]
  · simp [h]

/-! ### Removal and update in place -/

def erase (m : OrderedMap κ υ) (k : κ) : OrderedMap κ υ := ⟨m.entries.filter (fun e => e.1 ≠ k), m.sorted.filter _⟩

theorem find?_erase (m : OrderedMap κ υ) (k k' : κ) : (m.erase k).find? k' = if k' = k then none else m.find? k' := by
  apply find?_eq_of_mem
  simp only [erase, mem_filter, mem_entries]
  by_cases h : k' = k <;> simp [h]

/-- Replace the value of a key that is present; nothing is added for one that is not. -/
def modify (m : OrderedMap κ υ) (k : κ) (v : υ) : OrderedMap κ υ :=
  ⟨m.entries.map (fun e => if e.1 = k then (e.1, v) else e), by
    rw [List.pairwise_map]
    refine m.sorted.imp (fun {a b} h => ?_)
    by_cases ha : a.1 = k <;> by_cases hb : b.1 = k <;> simp_all⟩

theorem find?_modify (m : OrderedMap κ υ) (k k' : κ) (v : υ) :
    (m.modify k v).find? k' = if k' = k then (m.find? k).map (fun _ => v) else m.find? k' := by
  apply find?_eq_of_mem
  intro w
  simp only [modify, mem_map]
  constructor
  · rintro ⟨e, he, heq⟩
    have hfind := (mem_entries m e.1 e.2).mp he
    by_cases h : e.1 = k
    · rw [if_pos h] at heq
      obtain ⟨rfl, rfl⟩ := Prod.mk.inj heq
      rw [if_pos h, ← h, hfind, Option.map_some]
    · rw [if_neg h] at heq
      subst heq
      rw [if_neg h, hfind]
  · by_cases h : k' = k
    · rw [if_pos h, h]
      intro hw
      obtain ⟨u, hu, rfl⟩ := Option.map_eq_some_iff.mp hw
      exact ⟨(k, u), (mem_entries m k u).mpr hu, by simp⟩
    · rw [if_neg h]
      intro hw
      exact ⟨(k', w), (mem_entries m k' w).mpr hw, by simp [h]⟩

/-! ### Taking ready entries off the front -/

section Ready

variable {β : Type}

/-- Values come off the front until an entry without one is met. -/
def readyEntries : List (κ × Option β) → List (κ × β) × List (κ × Option β)
  | (k, some b) :: l => ((k, b) :: (readyEntries l).1, (readyEntries l).2)
  | l => ([], l)

omit [LinearOrder κ] in
theorem readyEntries_append (l : List (κ × Option β)) :
    (readyEntries l).1.map (fun e => (e.1, some e.2)) ++ (readyEntries l).2 = l := by
  fun_induction readyEntries l with
  | case1 k b l ih => rw [map_cons, cons_append, ih]
  | case2 l => rfl

omit [LinearOrder κ] in
theorem readyEntries_head (l : List (κ × Option β)) (k : κ) (o : Option β)
    (h : (readyEntries l).2.head? = some (k, o)) : o = none := by
  fun_induction readyEntries l with
  | case1 k b l ih => exact ih h
  | case2 l hl =>
    cases l with
    | nil => cases h
    | cons e l =>
      obtain ⟨k', _ | b⟩ := e
      · cases h
        rfl
      · exact absurd rfl (hl k' b l)

/-- Take the longest front part of the map whose entries all have a value. -/
def popReady (m : OrderedMap κ (Option β)) : List (κ × β) × OrderedMap κ (Option β) :=
  ((readyEntries m.entries).1, ⟨(readyEntries m.entries).2, by
    have h := m.sorted
    rw [← readyEntries_append m.entries] at h
    exact (List.pairwise_append.mp h).2.1⟩)

section
variable (m : OrderedMap κ (Option β))
include m

theorem popReady_append : m.popReady.1.map (fun e => (e.1, some e.2)) ++ m.popReady.2.entries = m.entries :=
  readyEntries_append m.entries

theorem popReady_sorted : m.popReady.1.Pairwise (fun a b => a.1 < b.1) ∧
      ∀ e ∈ m.popReady.1, ∀ k o, m.popReady.2.find? k = some o → e.1 < k := by
  have h := m.sorted
  rw [← popReady_append, pairwise_append, pairwise_map] at h
  refine ⟨h.1, fun e he k o hk => ?_⟩
  exact h.2.2 _ (mem_map_of_mem he) _ ((mem_entries _ k o).mpr hk)

/-- What is left begins with an entry that has no value. -/
theorem popReady_begin? (k : κ) (o : Option β)
    (h : m.popReady.2.find? k = some o) : ∃ k', k' ≤ k ∧ m.popReady.2.find? k' = some none := by
  cases hb : m.popReady.2.begin? with
  | none => rw [(begin?_eq_none _).mp hb] at h; cases h
  | some e =>
    obtain ⟨k', o'⟩ := e
    have hnone : o' = none := readyEntries_head m.entries k' o' hb
    obtain ⟨hfind, hmin⟩ := (begin?_eq_some _ k' o').mp hb
    exact ⟨k', hmin k o h, by rw [hfind, hnone]⟩

theorem find?_popReady_none (k : κ) : m.popReady.2.find? k = some none ↔ m.find? k = some none := by
  rw [← mem_entries, ← mem_entries, ← popReady_append m]
  simp

theorem find?_popReady_some (k : κ) (b : β) :
    m.find? k = some (some b) ↔ (k, b) ∈ m.popReady.1 ∨ m.popReady.2.find? k = some (some b) := by
  rw [← mem_entries, ← mem_entries, ← popReady_append m]
  simp

end

end Ready

end OrderedMap

end Infinity.Lib
