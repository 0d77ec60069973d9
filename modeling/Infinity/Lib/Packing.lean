import Mathlib

/-! Lists kept in blocks of a fixed capacity.

A list of blocks is packed when every block but the last is full and none is empty. The
position `i` of the whole list is then the position `i % c` of block `i / c`, and the list
determines its blocks: `chunks` cuts it into them. -/
namespace Infinity.Lib

open List

variable {α : Type} {c : Nat}

/-- The `j`-th block of a list cut into blocks of `c`. -/
def chunk (c : Nat) (l : List α) (j : Nat) : List α := (l.drop (j * c)).take c

/-- The first `n` blocks. -/
def chunks (c : Nat) (l : List α) (n : Nat) : List (List α) := (List.range n).map (chunk c l)

/-- How many blocks `n` elements need. -/
def blockCount (c n : Nat) : Nat := n / c + if n % c = 0 then 0 else 1

/-- The place after position `i`: in the same block, or at the start of the next one. -/
theorem next_place (hpos : 0 < c) (i : Nat) : (i + 1) / c = (if i % c + 1 = c then i / c + 1 else i / c) ∧
      (i + 1) % c = if i % c + 1 = c then 0 else i % c + 1 := by
  have hdiv := Nat.div_add_mod i c
  have hmod := Nat.mod_lt i hpos
  by_cases h : i % c + 1 = c
  · rw [if_pos h, if_pos h]
    refine (Nat.div_mod_unique hpos).mpr ⟨?_, hpos⟩
    rw [Nat.mul_succ]
    omega
  · rw [if_neg h, if_neg h]
    exact (Nat.div_mod_unique hpos).mpr ⟨by omega, by omega⟩

/-- No block is empty or too long, and all but the last are full. -/
def Packed (c : Nat) (blocks : List (List α)) : Prop :=
  ∀ i b, blocks[i]? = some b → b ≠ [] ∧ b.length ≤ c ∧ (i + 1 < blocks.length → b.length = c)

variable {b : List α} {blocks : List (List α)}

theorem Packed.tail (h : Packed c (b :: blocks)) : Packed c blocks := by
  intro i b' hb
  have := h (i + 1) b' (by simpa using hb)
  simpa using this

theorem Packed.head (h : Packed c (b :: blocks)) : b ≠ [] ∧ b.length ≤ c ∧ (blocks ≠ [] → b.length = c) := by
  obtain ⟨hne, hle, hfull⟩ := h 0 b rfl
  refine ⟨hne, hle, fun hb => hfull ?_⟩
  simpa using length_pos_iff.mpr hb

theorem packed_singleton (hne : b ≠ []) (hle : b.length ≤ c) : Packed c [b] := by
  intro i b' hb
  cases i with
  | zero =>
    cases hb
    exact ⟨hne, hle, by simp⟩
  | succ i => simp at hb

/-- A position of the whole list is found by division. -/
theorem Packed.getElem?_flatten (h : Packed c blocks) (i : Nat) :
    (blocks[i / c]?).bind (·[i % c]?) = blocks.flatten[i]? := by
  induction blocks generalizing i with
  | nil => simp
  | cons b blocks ih =>
    obtain ⟨hne, hle, hfull⟩ := h.head
    have hpos : 0 < c := (length_pos_iff.mpr hne).trans_le hle
    by_cases hi : i < c
    · rw [Nat.div_eq_of_lt hi, Nat.mod_eq_of_lt hi]
      cases blocks with
      | nil => simp
      | cons b' blocks =>
        have hlen : i < b.length := by rwa [hfull (by simp)]
        simp [getElem?_append_left hlen]
    · have hi' : c ≤ i := Nat.le_of_not_lt hi
      rw [Nat.div_eq_sub_div hpos hi', Nat.mod_eq_sub_mod hi', getElem?_cons_succ, ih h.tail, flatten_cons,
        getElem?_append_right (hle.trans hi')]
      cases blocks with
      | nil => simp
      | cons b' blocks => rw [hfull (by simp)]

theorem Packed.drop (h : Packed c blocks) (k : Nat) : Packed c (blocks.drop k) := by
  intro i b hb
  rw [getElem?_drop] at hb
  obtain ⟨hne, hle, hfull⟩ := h (k + i) b hb
  exact ⟨hne, hle, fun hlt => hfull (by rw [length_drop] at hlt; omega)⟩

theorem Packed.flatten_drop (h : Packed c blocks) (k : Nat) : (blocks.drop k).flatten = blocks.flatten.drop (k * c) := by
  induction k generalizing blocks with
  | zero => simp
  | succ k ih =>
    cases blocks with
    | nil => simp
    | cons b blocks =>
      obtain ⟨-, hle, hfull⟩ := h.head
      have hb : b.drop ((k + 1) * c) = [] := drop_of_length_le (by rw [add_mul]; omega)
      rw [drop_succ_cons, ih h.tail, flatten_cons, drop_append, hb, nil_append]
      cases blocks with
      | nil => simp
      | cons b' blocks => rw [hfull (by simp), add_mul, one_mul, Nat.add_sub_cancel]

/-- A packed list has at each place the block that its elements give. -/
theorem Packed.getElem?_eq_chunk (h : Packed c blocks) {j : Nat} (hj : j < blocks.length) :
    blocks[j]? = some (chunk c blocks.flatten j) := by
  have hdrop := h.drop j
  rw [chunk, ← h.flatten_drop]
  rw [drop_eq_getElem_cons hj] at hdrop ⊢
  obtain ⟨-, hle, hfull⟩ := hdrop.head
  rw [flatten_cons, take_append, take_of_length_le hle]
  by_cases hrest : blocks.drop (j + 1) = []
  · simp [hrest]
  · simp [hfull hrest]

variable {n : Nat}

theorem blockCount_of_le (hn : 0 < n) (hle : n ≤ c) : blockCount c n = 1 := by
  rcases hle.lt_or_eq with hlt | heq
  · rw [blockCount, Nat.div_eq_of_lt hlt, Nat.mod_eq_of_lt hlt, if_neg (by omega)]
  · rw [blockCount, heq, Nat.div_self (heq ▸ hn), Nat.mod_self, if_pos rfl]

theorem blockCount_add (hpos : 0 < c) (n : Nat) : blockCount c (c + n) = blockCount c n + 1 := by
  simp only [blockCount, Nat.add_div_left n hpos, Nat.add_mod_left]
  omega

/-- Rounding up gives the number of blocks. -/
theorem ceil_div_eq_blockCount (hpos : 0 < c) (n : Nat) : (n + c - 1) / c = blockCount c n := by
  have hdiv := Nat.div_add_mod n c
  have hmod := Nat.mod_lt n hpos
  unfold blockCount
  split
  · exact ((Nat.div_mod_unique hpos).mpr ⟨show c - 1 + c * (n / c + 0) = n + c - 1 by rw [add_zero]; omega, by omega⟩).1
  · exact ((Nat.div_mod_unique hpos).mpr ⟨show n % c - 1 + c * (n / c + 1) = n + c - 1 by rw [Nat.mul_succ]; omega, by omega⟩).1

/-- A block is needed if and only if it has an element. -/
theorem lt_blockCount_iff (hpos : 0 < c) {j : Nat} : j < blockCount c n ↔ j * c < n := by
  rw [← ceil_div_eq_blockCount hpos, ← Nat.succ_le_iff, Nat.le_div_iff_mul_le hpos, Nat.succ_mul]
  omega

theorem le_blockCount_mul (c n : Nat) (hpos : 0 < c) : n ≤ blockCount c n * c :=
  not_lt.mp fun h => lt_irrefl _ ((lt_blockCount_iff hpos).mpr h)

theorem blockCount_mono (hpos : 0 < c) {m : Nat} (h : m ≤ n) : blockCount c m ≤ blockCount c n := by
  refine le_of_forall_lt fun j hj => ?_
  rw [lt_blockCount_iff hpos] at hj ⊢
  exact hj.trans_le h

/-- The number of blocks is that of the elements. -/
theorem Packed.length_eq (h : Packed c blocks) : blocks.length = blockCount c blocks.flatten.length := by
  induction blocks with
  | nil => simp [blockCount]
  | cons b blocks ih =>
    obtain ⟨hne, hle, hfull⟩ := h.head
    have hb := length_pos_iff.mpr hne
    have hpos : 0 < c := hb.trans_le hle
    cases blocks with
    | nil =>
      rw [length_singleton, flatten_cons, flatten_nil, append_nil, blockCount_of_le hb hle]
    | cons b' blocks =>
      rw [flatten_cons, length_append, hfull (by simp), blockCount_add hpos, ← ih h.tail, length_cons]

theorem chunks_nil (c n : Nat) : chunks c ([] : List α) n = replicate n [] := by
  simp [chunks, eq_replicate_iff, chunk]

theorem flatten_chunks (c : Nat) (l : List α) (n : Nat) : (chunks c l n).flatten = l.take (n * c) := by
  induction n with
  | zero => simp [chunks]
  | succ n ih =>
    rw [chunks, range_succ, map_append, flatten_append, ← chunks, ih, add_mul]
    simp [chunk, take_add]

/-- An element at the end goes to the block its position belongs to. -/
theorem chunk_append_singleton (hpos : 0 < c) (l : List α) (x : α) (j : Nat) :
    chunk c (l ++ [x]) j = if l.length / c = j then chunk c l j ++ [x] else chunk c l j := by
  have hdiv := Nat.div_add_mod l.length c
  have hmod := Nat.mod_lt l.length hpos
  unfold chunk
  rw [drop_append, take_append, length_drop]
  by_cases hj : l.length / c = j
  · rw [if_pos hj]
    have hstart : j * c - l.length = 0 := by
      rw [← hj, mul_comm]
      omega
    have hroom : 1 ≤ c - (l.length - j * c) := by
      rw [← hj, mul_comm]
      omega
    have htake : [x].take (c - (l.length - j * c)) = [x] := take_of_length_le hroom
    rw [hstart, drop_zero, htake]
  · rw [if_neg hj]
    have hsucc (i k : Nat) (h : i < k) : c * i + c ≤ c * k := Nat.mul_le_mul_left c h
    rw [mul_comm j c]
    rcases Nat.lt_or_gt_of_ne hj with hlt | hgt
    · -- the block lies behind the new element
      have hle := hsucc _ _ hlt
      have hdrop : [x].drop (c * j - l.length) = [] := drop_of_length_le (by simp only [length_singleton]; omega)
      rw [hdrop, take_nil, append_nil]
    · -- the block is full already
      have hfull := hsucc _ _ hgt
      have hnone : c - (l.length - c * j) = 0 := by omega
      rw [hnone, take_zero, append_nil]

theorem getElem?_chunks (c : Nat) (l : List α) (n j : Nat) :
    (chunks c l n)[j]? = if j < n then some (chunk c l j) else none := by
  unfold chunks
  split
  · rename_i hj
    rw [getElem?_map, getElem?_range hj, Option.map_some]
  · rename_i hj
    exact getElem?_eq_none_iff.mpr (by simpa using hj)

theorem modify_append (l l' : List α) (i : Nat) (f : α → α) : (l ++ l').modify (i + l.length) f = l ++ l'.modify i f := by
  induction l with
  | nil => rfl
  | cons a l ih => rw [cons_append, length_cons, ← add_assoc, modify_succ_cons, ih, cons_append]

theorem modify_chunks (hpos : 0 < c) (l : List α) (x : α) (n : Nat) :
    (chunks c l n).modify (l.length / c) (· ++ [x]) = chunks c (l ++ [x]) n := by
  refine ext_getElem? fun j => ?_
  rw [getElem?_modify, getElem?_chunks, getElem?_chunks, chunk_append_singleton hpos]
  split <;> split <;> simp

theorem packed_chunks (hpos : 0 < c) (l : List α) : Packed c (chunks c l (blockCount c l.length)) := by
  intro j b hb
  rw [getElem?_chunks] at hb
  split at hb
  · rename_i hj
    cases hb
    have hlen : (chunk c l j).length = min c (l.length - j * c) := by simp [chunk]
    have hj' := (lt_blockCount_iff hpos).mp hj
    refine ⟨length_pos_iff.mp (by omega), by omega, fun hnext => ?_⟩
    have hnext' : (j + 1) * c < l.length := (lt_blockCount_iff hpos).mp (by simpa [chunks] using hnext)
    rw [add_mul] at hnext'
    omega
  · cases hb

theorem flatten_chunks_blockCount (hpos : 0 < c) (l : List α) : (chunks c l (blockCount c l.length)).flatten = l := by
  rw [flatten_chunks, take_of_length_le (le_blockCount_mul c l.length hpos)]

end Infinity.Lib
