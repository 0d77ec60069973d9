import Mathlib

/-! The ring that hands inverters from one indexing stage to the next.

An element is put at an offset. Offsets come in any order, but only the slice that
has no gap from `off_ground_` on may be taken: `off_filled_` is its end. `Shows`
says what a ring stands for, the partial function of everything ever put, and the
two operations are proved against that function only. -/
namespace Infinity.FullText

open Function

/-- `Ring`. A slot is empty when it holds `zero_`. -/
structure Ring (τ : Type) where
  capShift : Nat
  ringBuf : Nat → Option τ := fun _ => none
  offGround : Nat := 0
  offCeiling : Nat := 0
  offFilled : Nat := 0
  seqGet : Nat := 0

namespace Ring

variable {τ : Type}

def capacity (r : Ring τ) : Nat := 2 ^ r.capShift

/-- `off & cap_mask_`. -/
def slot (r : Ring τ) (off : Nat) : Nat := off &&& (r.capacity - 1)

/-- `Put` does not wait for room, or no longer has to. -/
def MayPut (r : Ring τ) (off : Nat) : Prop := off < r.offFilled ∨ off < r.offGround + r.capacity

instance (r : Ring τ) (off : Nat) : Decidable (r.MayPut off) := inferInstanceAs (Decidable (_ ∨ _))

/-- The loop of `Put` over the elements that had been waiting for this one. -/
def fill (r : Ring τ) : Nat → Nat → Nat
  | 0, filled => filled
  | n + 1, filled =>
    if filled < r.offCeiling ∧ (r.ringBuf (r.slot filled)).isSome then r.fill n (filled + 1) else filled

/-- The write of `Put`. -/
def store (r : Ring τ) (off : Nat) (elem : τ) : Ring τ :=
  {r with ringBuf := Function.update r.ringBuf (r.slot off) (some elem),
          offCeiling := if r.offCeiling < off + 1 then off + 1 else r.offCeiling}

/-- `Put`, once there is room. -/
def put (r : Ring τ) (off : Nat) (elem : τ) : Ring τ :=
  if off < r.offFilled then r
  else
    let r' := r.store off elem
    if off = r.offFilled then {r' with offFilled := r'.fill (r'.offCeiling - (off + 1)) (off + 1)} else r'

/-- The loop of `GetBatch`: read so many slots from an offset on, emptying each. -/
def drain (slot : Nat → Nat) (buf : Nat → Option τ) (off : Nat) : Nat → List τ × (Nat → Option τ)
  | 0 => ([], buf)
  | n + 1 =>
    let rest := drain slot (Function.update buf (slot off) none) (off + 1) n
    ((buf (slot off)).toList ++ rest.1, rest.2)

/-- `GetBatch`, when it does not wait any more: the batch, its sequence number and
the ring it leaves. -/
def getBatch (r : Ring τ) : List τ × Nat × Ring τ :=
  if r.offGround = r.offFilled then ([], 0, r)
  else
    let d := drain r.slot r.ringBuf r.offGround (r.offFilled - r.offGround)
    (d.1, r.seqGet, {r with ringBuf := d.2, offGround := r.offFilled, seqGet := r.seqGet + 1})

/-! ### What a ring stands for -/

/-- The ring after exactly the elements of `f` were put. -/
structure Shows (r : Ring τ) (f : Nat → Option τ) : Prop where
  slots : ∀ off, r.offGround ≤ off → off < r.offGround + r.capacity → r.ringBuf (r.slot off) = f off
  ground_le : r.offGround ≤ r.offFilled
  filled_le : r.offFilled ≤ r.offCeiling
  ceiling_le : r.offCeiling ≤ r.offGround + r.capacity
  filled : ∀ off < r.offFilled, f off ≠ none
  gap : f r.offFilled = none
  below : ∀ off e, f off = some e → off < r.offCeiling

theorem slot_eq (r : Ring τ) (off : Nat) : r.slot off = off % r.capacity := by
  rw [slot, capacity, Nat.and_two_pow_sub_one_eq_mod]

theorem slot_inj (r : Ring τ) {g off off' : Nat} (h : g ≤ off) (h' : g ≤ off') (hlt : off < g + r.capacity)
    (hlt' : off' < g + r.capacity) (heq : r.slot off = r.slot off') : off = off' := by
  rw [slot_eq, slot_eq] at heq
  rcases le_total off off' with hle | hle
  · have := (Nat.modEq_iff_dvd' hle).mp heq
    have hz := Nat.eq_zero_of_dvd_of_lt this (by omega)
    omega
  have := (Nat.modEq_iff_dvd' hle).mp heq.symm
  have hz := Nat.eq_zero_of_dvd_of_lt this (by omega)
  omega

theorem slot_add_capacity (r : Ring τ) (off : Nat) : r.slot (off + r.capacity) = r.slot off := by
  rw [slot_eq, slot_eq, Nat.add_mod_right]

theorem shows_empty (shift : Nat) : ({capShift := shift} : Ring τ).Shows fun _ => none where
  slots := fun _ _ _ => rfl
  ground_le := le_rfl
  filled_le := Nat.le_refl _
  ceiling_le := Nat.zero_le _
  filled := fun _ h => absurd h (Nat.not_lt_zero _)
  gap := rfl
  below := fun _ _ h => by cases h

theorem fill_spec (r : Ring τ) {n s : Nat} (hn : s + n = r.offCeiling) : s ≤ r.fill n s ∧ r.fill n s ≤ r.offCeiling ∧
      (∀ off, s ≤ off → off < r.fill n s → (r.ringBuf (r.slot off)).isSome) ∧
      (r.fill n s < r.offCeiling → r.ringBuf (r.slot (r.fill n s)) = none) := by
  induction n generalizing s with
  | zero => exact ⟨le_rfl, by simp only [fill]; omega, fun off h h' => by simp only [fill] at h'; omega,
      fun h => by simp only [fill] at h; omega⟩
  | succ n ih =>
    simp only [fill]
    split
    · rename_i hs
      obtain ⟨hle, hle', hsome, hnone⟩ := ih (s := s + 1) (by omega)
      refine ⟨by omega, hle', ?_, hnone⟩
      intro off ho ho'
      rcases Nat.eq_or_lt_of_le ho with rfl | hlt
      · exact hs.2
      · exact hsome off hlt ho'
    · rename_i hs
      refine ⟨le_rfl, by omega, fun off h h' => absurd h (by omega), ?_⟩
      intro hlt
      cases hb : r.ringBuf (r.slot s) with
      | none => rfl
      | some e => exact absurd ⟨hlt, by rw [hb]; rfl⟩ hs

variable {r : Ring τ} {f : Nat → Option τ} {off : Nat}

theorem Shows.store_slots (h : r.Shows f) (hoff : r.offGround ≤ off)
    (hroom : off < r.offGround + r.capacity) (elem : τ) {o : Nat} (ho : r.offGround ≤ o)
    (ho' : o < r.offGround + r.capacity) :
    (r.store off elem).ringBuf (r.slot o) = update f off (some elem) o := by
  change update r.ringBuf (r.slot off) (some elem) (r.slot o) = _
  by_cases heq : o = off
  · rw [heq, update_self, update_self]
  · have hne : r.slot o ≠ r.slot off := fun hs => heq (r.slot_inj ho hoff ho' hroom hs)
    rw [update_of_ne hne, update_of_ne heq]
    exact h.slots o ho ho'

theorem Shows.store_below (h : r.Shows f) (elem : τ) {o : Nat} {e : τ}
    (he : update f off (some elem) o = some e) : o < (r.store off elem).offCeiling := by
  rw [store]
  dsimp only
  by_cases heq : o = off
  · split <;> omega
  · rw [update_of_ne heq] at he
    have := h.below o e he
    split <;> omega

theorem store_offCeiling (r : Ring τ) (off : Nat) (elem : τ) :
    (r.store off elem).offCeiling = max r.offCeiling (off + 1) := by
  rw [store]
  dsimp only
  split <;> omega

/-- **`Put` at a free offset of the window adds exactly that element.** -/
theorem Shows.put (h : r.Shows f) (hfree : f off = none) (hroom : off < r.offGround + r.capacity) (elem : τ) :
    (r.put off elem).Shows (update f off (some elem)) := by
  have hoff : r.offFilled ≤ off := by
    by_contra hlt
    exact h.filled off (by omega) hfree
  have hg := h.ground_le
  have hcl := h.ceiling_le
  have hceil := r.store_offCeiling off elem
  have slots : ∀ o, r.offGround ≤ o → o < r.offGround + r.capacity →
      (r.store off elem).ringBuf (r.slot o) = update f off (some elem) o :=
    fun o ho ho' => h.store_slots (by omega) hroom elem ho ho'
  have filled : ∀ o < r.offFilled, update f off (some elem) o ≠ none := by
    intro o ho
    rw [update_of_ne (by omega)]
    exact h.filled o ho
  rw [Ring.put, if_neg (by omega)]
  dsimp only
  split
  · rename_i hat
    -- the element closes the gap: the slice grows over everything that had been waiting
    obtain ⟨hstart, hend, hsome, hnone⟩ := (r.store off elem).fill_spec
      (n := (r.store off elem).offCeiling - (off + 1)) (s := off + 1) (by omega)
    generalize (r.store off elem).fill ((r.store off elem).offCeiling - (off + 1)) (off + 1) = filled' at *
    refine ⟨slots, ?_, hend, ?_, ?_, ?_, fun o e he => h.store_below elem he⟩
    · change r.offGround ≤ filled'
      omega
    · change (r.store off elem).offCeiling ≤ r.offGround + r.capacity
      omega
    · intro o ho
      change o < filled' at ho
      rcases lt_or_ge o (off + 1) with hlt | hge
      · rcases Nat.lt_succ_iff_lt_or_eq.mp hlt with hlt | rfl
        · exact filled o (by omega)
        · simp
      · rw [← slots o (by omega) (by omega)]
        exact Option.isSome_iff_ne_none.mp (hsome o hge ho)
    · change update f off (some elem) filled' = none
      rcases Nat.eq_or_lt_of_le hend with heq | hlt
      · cases hf : update f off (some elem) filled' with
        | none => rfl
        | some e => exact absurd (h.store_below elem hf) (by omega)
      · rw [← slots filled' (by omega) (by omega)]
        exact hnone hlt
  · rename_i hat
    refine ⟨slots, hg, ?_, ?_, filled, ?_, fun o e he => h.store_below elem he⟩
    · change r.offFilled ≤ (r.store off elem).offCeiling
      omega
    · change (r.store off elem).offCeiling ≤ r.offGround + r.capacity
      omega
    · change update f off (some elem) r.offFilled = none
      rw [update_of_ne (Ne.symm hat)]
      exact h.gap

theorem put_offGround (r : Ring τ) (off : Nat) (elem : τ) : (r.put off elem).offGround = r.offGround := by
  rw [put]
  split
  · rfl
  · dsimp only
    split <;> rfl

theorem put_seqGet (r : Ring τ) (off : Nat) (elem : τ) : (r.put off elem).seqGet = r.seqGet := by
  rw [put]
  split
  · rfl
  · dsimp only
    split <;> rfl

/-! ### Taking a batch -/

theorem drain_spec (r : Ring τ) (buf : Nat → Option τ) (off : Nat) {n : Nat} (hn : n ≤ r.capacity)
    (hread : ∀ o, off ≤ o → o < off + n → buf (r.slot o) = f o ∧ f o ≠ none) :
    (drain r.slot buf off n).1.map some = (List.range' off n).map f ∧
      (∀ o, off ≤ o → o < off + n → (drain r.slot buf off n).2 (r.slot o) = none) ∧
      ∀ o, off + n ≤ o → o < off + r.capacity → (drain r.slot buf off n).2 (r.slot o) = buf (r.slot o) := by
  induction n generalizing off buf with
  | zero => exact ⟨rfl, fun o h h' => absurd h (by omega), fun o _ _ => rfl⟩
  | succ n ih =>
    obtain ⟨hhead, hsome⟩ := hread off le_rfl (by omega)
    obtain ⟨e, he⟩ := Option.ne_none_iff_exists'.mp hsome
    have other : ∀ o, off + 1 ≤ o → o < off + r.capacity →
        update buf (r.slot off) none (r.slot o) = buf (r.slot o) := by
      intro o ho ho'
      rw [update_of_ne]
      intro hs
      have := r.slot_inj (g := off) (by omega) le_rfl ho' (by omega) hs
      omega
    obtain ⟨hlist, hempty, hkeep⟩ := ih (update buf (r.slot off) none) (off + 1) (by omega)
      (fun o ho ho' => by
        rw [other o ho (by omega)]
        exact hread o (by omega) (by omega))
    simp only [drain]
    refine ⟨?_, ?_, ?_⟩
    · rw [hhead]
      simp only [List.map_append, List.map_cons, List.range'_succ, hlist, he]
      rfl
    · intro o ho ho'
      rcases Nat.eq_or_lt_of_le ho with rfl | hlt
      · -- the slot read first is next met one turn of the ring later, which the loop does not reach
        have hturn := hkeep (off + r.capacity) (by omega) (by omega)
        rw [r.slot_add_capacity, update_self] at hturn
        exact hturn
      · exact hempty o hlt (by omega)
    · intro o ho ho'
      rw [hkeep o (by omega) (by omega)]
      exact other o (by omega) ho'

/-- What is taken from the ground on, within the slice without gap, is what was put there. -/
theorem Shows.take (h : r.Shows f) {n : Nat} (hn : r.offGround + n ≤ r.offFilled) (seq : Nat) :
    (drain r.slot r.ringBuf r.offGround n).1.map some = (List.range' r.offGround n).map f ∧
      Shows {r with ringBuf := (drain r.slot r.ringBuf r.offGround n).2, offGround := r.offGround + n, seqGet := seq}
        f := by
  have hfl := h.filled_le
  have hcl := h.ceiling_le
  obtain ⟨hlist, hempty, hkeep⟩ := r.drain_spec (f := f) r.ringBuf r.offGround (n := n) (by omega)
    (fun o ho ho' => ⟨h.slots o ho (by omega), h.filled o (by omega)⟩)
  refine ⟨hlist, ?_, hn, hfl, ?_, h.filled, h.gap, h.below⟩
  · intro o ho ho'
    change r.offGround + n ≤ o at ho
    change o < r.offGround + n + r.capacity at ho'
    change (drain r.slot r.ringBuf r.offGround n).2 (r.slot o) = f o
    rcases lt_or_ge o (r.offGround + r.capacity) with hlt | hge
    · rw [hkeep o (by omega) (by omega)]
      exact h.slots o (by omega) hlt
    -- a slot that has just been emptied, one turn of the ring later
    have hslot := r.slot_add_capacity (o - r.capacity)
    rw [Nat.sub_add_cancel (by omega)] at hslot
    rw [hslot, hempty (o - r.capacity) (by omega) (by omega)]
    cases hf : f o with
    | none => rfl
    | some e => exact absurd (h.below o e hf) (by omega)
  · change r.offCeiling ≤ r.offGround + n + r.capacity
    omega

/-- **`GetBatch` takes the slice without gap**: everything from the ground to the
first offset not put, in order. -/
theorem Shows.getBatch (h : r.Shows f) :
    (r.getBatch.1.map some = (List.range' r.offGround (r.offFilled - r.offGround)).map f) ∧
      r.getBatch.2.2.Shows f ∧ r.getBatch.2.2.offGround = r.offFilled ∧ r.getBatch.2.2.offFilled = r.offFilled ∧
      (r.getBatch.1 = [] → r.getBatch.2.2 = r ∧ r.offGround = r.offFilled) ∧
      (r.getBatch.1 ≠ [] → r.getBatch.2.1 = r.seqGet ∧ r.getBatch.2.2.seqGet = r.seqGet + 1) := by
  have hg := h.ground_le
  rw [Ring.getBatch]
  split
  · rename_i heq
    exact ⟨by simp [heq], h, heq, rfl, fun _ => ⟨rfl, heq⟩, fun hne => absurd rfl hne⟩
  obtain ⟨hlist, hshows⟩ := h.take (n := r.offFilled - r.offGround) (by omega) (r.seqGet + 1)
  rw [Nat.add_sub_cancel' hg] at hshows
  refine ⟨hlist, hshows, rfl, rfl, ?_, fun _ => ⟨rfl, rfl⟩⟩
  intro hnil
  have hlen := congrArg List.length hlist
  rw [hnil] at hlen
  simp only [List.length_nil, List.length_map, List.length_range'] at hlen
  omega

end Ring

end Infinity.FullText
