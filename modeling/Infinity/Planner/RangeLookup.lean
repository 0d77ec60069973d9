import Infinity.Lib.Lists

/-! Looking up a range of keys in a chunk of a secondary index.

A chunk holds pairs of a key and the offset of a row, sorted by key. A learned index gives for
a key a range of positions that contains its lower bound; from there the reader walks to the
first key in the interval and to the first key past it. `none` stands for an access outside
of the chunk. -/
namespace Infinity.Planner

open List

/-- `TrunkReaderT`: the chunk with the positions that a lookup has found. -/
structure TrunkReader (κ : Type) where
  chunk : List (κ × Nat)
  beginPos : Nat := 0
  endPos : Nat := 0

namespace TrunkReader

variable {κ : Type} {chunk : List (κ × Nat)} {p : κ → Bool} {m pos test : Nat}

/-! ### The loops -/

def indexKey (chunk : List (κ × Nat)) (i : Nat) : Option κ := (chunk[i]?).map Prod.fst

theorem indexKey_eq_some {i : Nat} {key : κ} : indexKey chunk i = some key ↔ ∃ off, chunk[i]? = some (key, off) := by
  simp [indexKey]

theorem lt_of_indexKey {i : Nat} {key : κ} (h : indexKey chunk i = some key) : i < chunk.length := by
  obtain ⟨off, hoff⟩ := indexKey_eq_some.mp h
  exact (List.getElem?_eq_some_iff.mp hoff).1

theorem exists_indexKey (h : pos < chunk.length) : ∃ key, indexKey chunk pos = some key :=
  ⟨_, indexKey_eq_some.mpr ⟨_, getElem?_eq_getElem h⟩⟩

/-- The loop that goes on while `p` holds of the key. It stops past the last key. -/
def forward (chunk : List (κ × Nat)) (p : κ → Bool) (pos : Nat) : Option Nat :=
  match h : indexKey chunk pos with
  | none => none
  | some key =>
    if p key then
      if pos + 1 = chunk.length then some (pos + 1) else forward chunk p (pos + 1)
    else some pos
termination_by chunk.length - pos
decreasing_by
  have := lt_of_indexKey h
  omega

/-- The loop that goes back from `test` while `p` does not hold of the key, with the last position
where it did not and whether that is the front. -/
def backward (chunk : List (κ × Nat)) (p : κ → Bool) : Nat → Nat → Option (Nat × Bool)
  | 0, pos => (indexKey chunk 0).map fun key => if p key then (pos, false) else (0, true)
  | test + 1, pos =>
    match indexKey chunk (test + 1) with
    | none => none
    | some key => if p key then some (pos, false) else backward chunk p test (test + 1)

/-- From the position the learned index gave to the first key without `p`. -/
def correct (chunk : List (κ × Nat)) (p : κ → Bool) (pos : Nat) : Option (Nat × Bool) :=
  match indexKey chunk pos with
  | none => none
  | some key => if p key then (forward chunk p pos).map (·, false) else backward chunk p pos pos

/-- `p` holds of the keys before position `m` only. -/
def Splits (chunk : List (κ × Nat)) (p : κ → Bool) (m : Nat) : Prop :=
  ∀ i key, indexKey chunk i = some key → (p key ↔ i < m)

theorem forward_eq {pos : Nat} (h : Splits chunk p m) (hle : m ≤ chunk.length) (hpos : pos < chunk.length)
    (hm : pos ≤ m) : forward chunk p pos = some m := by
  obtain ⟨key, hkey⟩ := exists_indexKey hpos
  have hp := h pos key hkey
  unfold forward
  split
  · simp_all
  rename_i key' hkey'
  obtain rfl := Option.some.inj (hkey.symm.trans hkey')
  split
  · have hlt := hp.mp ‹_›
    split
    · congr 1
      omega
    · exact forward_eq h hle (by omega) hlt
  · have hnot : ¬ pos < m := fun hlt => ‹¬ p key = true› (hp.mpr hlt)
    congr 1
    omega
termination_by chunk.length - pos

theorem backward_eq (h : Splits chunk p m) (htest : test < chunk.length) (hm : m ≤ test + 1)
    (hpos : m = test + 1 → pos = m) :
    ∃ front, backward chunk p test pos = some (m, front) ∧ (front = true → m = 0) := by
  induction test generalizing pos with
  | zero =>
    obtain ⟨key, hkey⟩ := exists_indexKey htest
    have hp := h 0 key hkey
    cases hpk : p key with
    | true => exact ⟨false, by simp [backward, hkey, hpk, hpos (by have := hp.mp hpk; omega)], nofun⟩
    | false =>
      have hzero : m = 0 := by simpa [hpk] using hp
      exact ⟨true, by simp [backward, hkey, hpk, hzero], fun _ => hzero⟩
  | succ test ih =>
    obtain ⟨key, hkey⟩ := exists_indexKey htest
    have hp := h _ key hkey
    cases hpk : p key with
    | true => exact ⟨false, by simp [backward, hkey, hpk, hpos (by have := hp.mp hpk; omega)], nofun⟩
    | false =>
      have hle : m ≤ test + 1 := by simpa [hpk] using hp
      simpa [backward, hkey, hpk] using ih (by omega) hle fun heq => heq.symm

theorem correct_eq (h : Splits chunk p m) (hle : m ≤ chunk.length) (hpos : pos < chunk.length) :
    ∃ front, correct chunk p pos = some (m, front) ∧ (front = true → m = 0) := by
  obtain ⟨key, hkey⟩ := exists_indexKey hpos
  have hp := h pos key hkey
  simp only [correct, hkey]
  split
  · exact ⟨false, by rw [forward_eq h hle hpos (hp.mp ‹_›).le]; rfl, nofun⟩
  · have hmle : m ≤ pos := not_lt.mp fun hlt => ‹¬ p key = true› (hp.mpr hlt)
    exact backward_eq h hpos (by omega) (by omega)

/-! ### The lookup -/

/-- `OutPut`: the bits of the rows between the positions are set. -/
def outPut (r : TrunkReader κ) (selectedRows : Nat → Bool) : Option (Nat → Bool) :=
  (range' r.beginPos (r.endPos - r.beginPos)).foldlM
    (fun rows i => (r.chunk[i]?).map fun pair => Function.update rows pair.2 true) selectedRows

theorem foldlM_rows {is : List Nat} (h : ∀ i ∈ is, i < chunk.length) (rows : Nat → Bool) :
    ∃ rows', is.foldlM (fun rows i => (chunk[i]?).map fun pair => Function.update rows pair.2 true) rows = some rows' ∧
      ∀ off, rows' off = true ↔ rows off = true ∨ ∃ i ∈ is, ∃ key, chunk[i]? = some (key, off) := by
  induction is generalizing rows with
  | nil => exact ⟨rows, rfl, by simp⟩
  | cons i is ih =>
    obtain ⟨hi, hrest⟩ := forall_mem_cons.mp h
    have hget := getElem?_eq_getElem hi
    obtain ⟨rows', hrows', hiff⟩ := ih hrest (Function.update rows chunk[i].2 true)
    refine ⟨rows', by rwa [foldlM_cons, hget], fun off => ?_⟩
    rw [hiff]
    by_cases hoff : off = chunk[i].2
    · subst hoff
      simp only [Function.update_self, true_or, mem_cons, exists_eq_or_imp, hget, true_iff]
      exact .inr (.inl ⟨chunk[i].1, rfl⟩)
    · simp [Function.update_of_ne hoff, hget, Prod.ext_iff, Ne.symm hoff]

variable [LinearOrder κ]

/-- The learned index has answered `beginLower` for the begin and `endUpper` for the end. -/
def getResultCnt (r : TrunkReader κ) (beginVal endVal : κ) (beginLower endUpper : Nat) : Option (TrunkReader κ × Nat) :=
  let endPos := min endUpper (r.chunk.length - 1)
  if endPos < beginLower then some (r, 0)
  else
    match correct r.chunk (· < beginVal) beginLower with
    | none => none
    | some (beginPos, _) =>
      if beginPos = r.chunk.length then some (r, 0)
      else
        match correct r.chunk (· ≤ endVal) endPos with
        | none => none
        | some (_, true) => some (r, 0)
        | some (endPos, false) =>
          if endPos ≤ beginPos then some (r, 0)
          else some ({r with beginPos := beginPos, endPos := endPos}, endPos - beginPos)

/-- The number of keys with `p`: in a sorted chunk, where the keys without it start. -/
def bound (chunk : List (κ × Nat)) (p : κ → Bool) : Nat := chunk.countP fun pair => p pair.1

section
variable (hsorted : chunk.Pairwise fun a b => a.1 ≤ b.1)
include hsorted

theorem splits_bound (hdown : ∀ a b, a ≤ b → p b → p a) : Splits chunk p (bound chunk p) := by
  intro i key hi
  obtain ⟨off, hoff⟩ := indexKey_eq_some.mp hi
  clear hi
  induction chunk generalizing i with
  | nil => cases hoff
  | cons a chunk ih =>
    obtain ⟨hfirst, hrest⟩ := pairwise_cons.mp hsorted
    by_cases ha : p a.1
    · have hcount : bound (a :: chunk) p = bound chunk p + 1 := by simp [bound, ha]
      rw [hcount]
      cases i with
      | zero =>
        obtain rfl : a = (key, off) := Option.some.inj hoff
        simp [ha]
      | succ i => exact (ih hrest i hoff).trans Nat.add_lt_add_iff_right.symm
    · -- nothing after a key without `p` has it
      have hnone : ∀ b ∈ a :: chunk, ¬ p b.1 := by
        intro b hb
        rcases mem_cons.mp hb with rfl | hb
        · exact ha
        · exact fun hp => ha (hdown _ _ (hfirst b hb) hp)
      have hcount : bound (a :: chunk) p = 0 := countP_eq_zero.mpr hnone
      simpa [hcount] using hnone _ (mem_of_getElem? hoff)

theorem splits_lt (b : κ) : Splits chunk (· < b) (bound chunk (· < b)) :=
  splits_bound hsorted fun _ _ hxy hy => decide_eq_true (hxy.trans_lt (of_decide_eq_true hy))

theorem splits_le (e : κ) : Splits chunk (· ≤ e) (bound chunk (· ≤ e)) :=
  splits_bound hsorted fun _ _ hxy hy => decide_eq_true (hxy.trans (of_decide_eq_true hy))

end

/-- The positions left in the reader are those of the keys in the interval. -/
theorem getResultCnt_spec {r : TrunkReader κ} (hnew : r.endPos = 0) (hne : 0 < r.chunk.length)
    (hsorted : r.chunk.Pairwise fun a b => a.1 ≤ b.1) {b e : κ} (hbe : b ≤ e) {beginLower endUpper : Nat}
    (hbegin : beginLower ≤ bound r.chunk (· < b)) (hend : bound r.chunk (· < e) ≤ endUpper) :
    ∃ r' cnt, r.getResultCnt b e beginLower endUpper = some (r', cnt) ∧ r'.chunk = r.chunk ∧
      r'.endPos ≤ r.chunk.length ∧ ∀ i, r'.beginPos ≤ i ∧ i < r'.endPos ↔
        bound r.chunk (· < b) ≤ i ∧ i < bound r.chunk (· ≤ e) := by
  have hlast : bound r.chunk (· ≤ e) ≤ r.chunk.length := countP_le_length
  have hmono : bound r.chunk (· < b) ≤ bound r.chunk (· < e) :=
    countP_mono_left fun _ _ hx => decide_eq_true ((of_decide_eq_true hx).trans_le hbe)
  -- wherever the source returns early, no position lies between the two
  have hearly (hempty : bound r.chunk (· ≤ e) ≤ bound r.chunk (· < b)) : ∀ i, r.beginPos ≤ i ∧ i < r.endPos ↔
      bound r.chunk (· < b) ≤ i ∧ i < bound r.chunk (· ≤ e) := fun i => by omega
  simp only [getResultCnt]
  split
  · exact ⟨r, 0, rfl, rfl, by omega, hearly (by omega)⟩
  obtain ⟨_, hfirst, -⟩ := correct_eq (splits_lt hsorted b) countP_le_length
    (show beginLower < r.chunk.length by omega)
  rw [hfirst]
  dsimp only
  split
  · exact ⟨r, 0, rfl, rfl, by omega, hearly (by omega)⟩
  obtain ⟨front, hfound, hfront⟩ := correct_eq (splits_le hsorted e) hlast
    (show min endUpper (r.chunk.length - 1) < r.chunk.length by omega)
  rw [hfound]
  cases front with
  | true => exact ⟨r, 0, rfl, rfl, by omega, hearly (by simp [hfront rfl])⟩
  | false =>
    dsimp only
    split
    · exact ⟨r, 0, rfl, rfl, by omega, hearly ‹_›⟩
    · exact ⟨_, _, rfl, rfl, hlast, fun _ => Iff.rfl⟩

/-- **The lookup is exact**: with answers of the learned index that contain the lower bounds of
both ends, the bits of the rows with a key in the interval are set and no others, and nothing
outside of the chunk is read. -/
theorem lookup_exact {chunk : List (κ × Nat)} (hne : chunk ≠ [])
    (hsorted : chunk.Pairwise fun a b => a.1 ≤ b.1) {b e : κ} (hbe : b ≤ e) {beginLower endUpper : Nat}
    (hbegin : beginLower ≤ bound chunk (· < b)) (hend : bound chunk (· < e) ≤ endUpper) (rows : Nat → Bool) :
    ∃ r cnt rows', getResultCnt {chunk} b e beginLower endUpper = some (r, cnt) ∧ r.outPut rows = some rows' ∧
      ∀ off, rows' off = true ↔ rows off = true ∨ ∃ key, (key, off) ∈ chunk ∧ b ≤ key ∧ key ≤ e := by
  obtain ⟨r, cnt, hcnt, hchunk, hend, hbetween⟩ :=
    getResultCnt_spec (r := {chunk}) rfl (length_pos_iff.mpr hne) hsorted hbe hbegin hend
  have hinside : ∀ i ∈ range' r.beginPos (r.endPos - r.beginPos), i < r.chunk.length := by
    intro i hi
    rw [mem_range'_1] at hi
    rw [hchunk]
    omega
  obtain ⟨rows', hrows, hiff⟩ := foldlM_rows hinside rows
  refine ⟨r, cnt, rows', hcnt, hrows, fun off => (hiff off).trans (or_congr_right ?_)⟩
  rw [hchunk]
  have hin {i : Nat} {key : κ} (hi : chunk[i]? = some (key, off)) :
      i ∈ range' r.beginPos (r.endPos - r.beginPos) ↔ b ≤ key ∧ key ≤ e := by
    have hkey := indexKey_eq_some.mpr ⟨off, hi⟩
    have hlt := splits_lt hsorted b i key hkey
    have hle := splits_le hsorted e i key hkey
    have hrange := hbetween i
    simp only [decide_eq_true_eq] at hlt hle hrange
    rw [mem_range'_1, ← not_lt (a := key), hlt, hle]
    omega
  constructor
  · rintro ⟨i, hi, key, hget⟩
    exact ⟨key, mem_of_getElem? hget, (hin hget).mp hi⟩
  · rintro ⟨key, hmem, hkey⟩
    obtain ⟨i, hget⟩ := mem_iff_getElem?.mp hmem
    exact ⟨i, (hin hget).mpr hkey, key, hget⟩

/-- Equal keys on both sides of where the learned index points. -/
theorem lookup_exact_duplicates : ∃ r cnt rows', getResultCnt {chunk := [(1, 4), (3, 0), (3, 2), (7, 1)]} 2 3 0 2 =
    some (r, cnt) ∧ r.outPut (fun _ => false) = some rows' ∧
      ∀ off, rows' off = true ↔ false = true ∨ ∃ key, (key, off) ∈ [(1, 4), (3, 0), (3, 2), (7, 1)] ∧ 2 ≤ key ∧ key ≤ 3 :=
  lookup_exact (by simp) (by decide) (by decide) (by decide) (by decide) _

end TrunkReader

end Infinity.Planner
