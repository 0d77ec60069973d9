import Infinity.Table.BlockRun

/-! What is read from a block.

The queries on a block are answered from its version: which rows a reader at a time sees, in
ranges or one by one, and when a row was created. -/
namespace Infinity.Table

open Block Lib List

/-! ### Files -/

namespace BlockEntry

variable {ρ : Type} {b : BlockEntry ρ}

/-- **A version that is saved at a checkpoint and loaded answers as of the checkpoint; one that is
spilled and loaded answers as before.** -/
theorem version_round_trip {as : List (BlockStep ρ)} (h : ((machine ρ).restrict FilesAsOf).Run start as b) (c : Nat) :
    (∃ w, BlockVersion.loadFromFile (b.version.saveToFile c) = some w ∧
      ∀ t o, w.getRowCount t = b.version.getRowCount (min t c) ∧
        w.checkDelete o t = b.version.checkDelete o (min t c)) ∧
    ∃ w, BlockVersion.loadFromFile b.version.spillToFile = some w ∧
      ∀ t o, w.getRowCount t = b.version.getRowCount t ∧ w.checkDelete o t = b.version.checkDelete o t := by
  have hk := Kept.run h
  refine ⟨⟨_, BlockVersion.loadFromFile_saveToFile hk.representable hk.byTime c, fun t o => ?_⟩,
    _, BlockVersion.loadFromFile_spillToFile hk.representable, fun t o => ⟨rfl, rfl⟩⟩
  exact ⟨BlockVersion.getRowCount_upTo hk.byTime c t, BlockVersion.checkDelete_upTo _ c o t⟩

/-- Two appends and a delete, saved between the appends. -/
theorem version_round_trip_two : ∃ b : BlockEntry Nat, b.version.getRowCount 9 = 3 ∧
    ∃ w, BlockVersion.loadFromFile (b.version.saveToFile 5) = some w ∧ w.getRowCount 9 = b.version.getRowCount (min 9 5) := by
  have hrun : (((machine Nat).restrict FilesAsOf).exec start [.append 1 4 [10, 11], .commit 1 4, .delete 2 5 [1], .commit 2 5,
      .append 3 7 [12]]).any
      (fun b => b.version.getRowCount 9 == 3) = true := by decide +kernel
  obtain ⟨b, hb, hcount⟩ := (Option.any_eq_true _ _).mp hrun
  obtain ⟨⟨w, hw, heq⟩, _⟩ := version_round_trip (Machine.run_of_exec hb) 5
  exact ⟨b, beq_iff_eq.mp hcount, w, hw, (heq 9 0).1⟩

/-! ### Visible rows -/

/-- The first offset from `i` on, within `n`, that `p` holds of, or the end. -/
def firstFrom (p : Nat → Bool) : Nat → Nat → Nat
  | 0, i => i
  | n + 1, i => if p i then i else firstFrom p n (i + 1)

/-- The first visible row from `offsetBegin` on, and the first after it that is not. -/
def getVisibleRange (b : BlockEntry ρ) (startTs offsetBegin : Nat) : Nat × Nat :=
  let beginTs := min startTs b.maxRowTs
  let offsetEnd := b.version.getRowCount beginTs
  let rowBegin := firstFrom (fun o => !b.version.checkDelete o beginTs) (offsetEnd - offsetBegin) offsetBegin
  (rowBegin, firstFrom (fun o => b.version.checkDelete o beginTs) (offsetEnd - rowBegin) rowBegin)

/-- The rows of the ranges, each range asked for at the end of the one before. `none` says that
there are more ranges than turns. -/
def visits (b : BlockEntry ρ) (startTs : Nat) : Nat → Nat → Option (List Nat)
  | 0, _ => none
  | turns + 1, readOffset =>
    let range := b.getVisibleRange startTs readOffset
    if range.1 = range.2 then some []
    else (b.visits startTs turns range.2).map (List.range' range.1 (range.2 - range.1) ++ ·)

def setFalse (bitmask : Nat → Bool) (offsetBegin offsetEnd : Nat) : Nat → Bool :=
  fun o => bitmask o && !decide (offsetBegin ≤ o ∧ o < offsetEnd)

def setDeleteBitmask (b : BlockEntry ρ) (queryTs : Nat) : Nat → Nat → (Nat → Bool) → Option (Nat → Bool)
  | 0, _, _ => none
  | turns + 1, readOffset, bitmask =>
    let range := b.getVisibleRange queryTs readOffset
    if range.1 = range.2 then some (setFalse bitmask readOffset b.rows.length)
    else b.setDeleteBitmask queryTs turns range.2 (setFalse bitmask readOffset range.1)

theorem firstFrom_spec (p : Nat → Bool) (n i : Nat) :
    i ≤ firstFrom p n i ∧ firstFrom p n i ≤ i + n ∧ (∀ o, i ≤ o → o < firstFrom p n i → p o = false) ∧
      (firstFrom p n i < i + n → p (firstFrom p n i) = true) := by
  induction n generalizing i with
  | zero =>
    exact ⟨le_rfl, le_rfl, fun o h h' => absurd h' (not_lt.mpr h), fun h => absurd h (lt_irrefl _)⟩
  | succ n ih =>
    simp only [firstFrom]
    split
    · rename_i hp
      exact ⟨le_rfl, by omega, fun o h h' => absurd h' (not_lt.mpr h), fun _ => hp⟩
    rename_i hp
    obtain ⟨hle, hend, hbefore, hat⟩ := ih (i + 1)
    refine ⟨by omega, by omega, fun o ho ho' => ?_, fun h => hat (by omega)⟩
    rcases Nat.eq_or_lt_of_le ho with rfl | ho
    · simpa using hp
    · exact hbefore o ho ho'

/-- Nothing in the version is later than `maxRowTs`, so a reader after it sees what it sees then. -/
theorem Kept.visible (h : b.Kept) (ts o : Nat) : b.checkRowVisible o ts true =
      (decide (o < b.version.getRowCount (min ts b.maxRowTs)) && !b.version.checkDelete o (min ts b.maxRowTs)) := by
  have hcount : b.version.getRowCount ts = b.version.getRowCount (min ts b.maxRowTs) := by
    rw [BlockVersion.getRowCount_eq h.byTime, BlockVersion.getRowCount_eq h.byTime]
    congr 3
    exact filter_congr fun f hf => by have := (h.created f hf).1; simp [this]
  have hdelete : b.version.checkDelete o ts = b.version.checkDelete o (min ts b.maxRowTs) := by
    unfold BlockVersion.checkDelete
    split
    · rfl
    · rename_i old hold
      have := (h.stamps old (mem_of_getElem? hold)).1
      simp [this]
  rw [checkRowVisible, hcount, hdelete]
  by_cases hlt : o < b.version.getRowCount (min ts b.maxRowTs) <;> simp [hlt]

/-- A range is of rows that are visible, and all before it from the offset asked for are not. -/
theorem Kept.getVisibleRange_spec (h : b.Kept) (ts readOffset : Nat) {x y : Nat}
    (hr : b.getVisibleRange ts readOffset = (x, y)) :
    readOffset ≤ x ∧ x ≤ y ∧ (x < y → y ≤ b.rows.length) ∧
      (∀ o, readOffset ≤ o → o < x → b.checkRowVisible o ts true = false) ∧
      (∀ o, x ≤ o → o < y → b.checkRowVisible o ts true = true) ∧
      (x = y → ∀ o, x ≤ o → b.checkRowVisible o ts true = false) := by
  have hle := h.getRowCount_le (min ts b.maxRowTs)
  simp only [h.visible]
  simp only [getVisibleRange, Prod.mk.injEq] at hr
  generalize b.version.getRowCount (min ts b.maxRowTs) = e at hr hle ⊢
  obtain ⟨hx, hy⟩ := hr
  obtain ⟨h1, h2, h3, h4⟩ :=
    firstFrom_spec (fun o => !b.version.checkDelete o (min ts b.maxRowTs)) (e - readOffset) readOffset
  rw [hx] at h1 h2 h3 h4 hy
  obtain ⟨g1, g2, g3, g4⟩ := firstFrom_spec (fun o => b.version.checkDelete o (min ts b.maxRowTs)) (e - x) x
  rw [hy] at g1 g2 g3 g4
  refine ⟨h1, g1, by omega, fun o ho ho' => ?_, fun o ho ho' => ?_, fun heq o ho => ?_⟩
  · have := h3 o ho ho'
    simp_all
  · have := g3 o ho ho'
    simp_all
    omega
  · by_cases hlt : o < e
    · -- a range that is empty before the end would begin and end with the same row
      have h4 := h4 (by omega)
      have g4 := g4 (by omega)
      rw [← heq] at g4
      simp [g4] at h4
    · simp [hlt]

/-- From any offset on, the ranges give the visible rows there, and the bitmask loses the others. -/
theorem Kept.visits_spec (h : b.Kept) (ts turns readOffset : Nat) (hturns : b.rows.length - readOffset < turns) :
    ∃ offsets, b.visits ts turns readOffset = some offsets ∧ offsets.Pairwise (· < ·) ∧
      (∀ o, o ∈ offsets ↔ readOffset ≤ o ∧ b.checkRowVisible o ts true = true) ∧
      ∀ bitmask, ∃ bitmask', b.setDeleteBitmask ts turns readOffset bitmask = some bitmask' ∧
        ∀ o, bitmask' o = (bitmask o && !decide (readOffset ≤ o ∧ o < b.rows.length ∧ o ∉ offsets)) := by
  induction turns generalizing readOffset with
  | zero => omega
  | succ turns ih =>
    obtain ⟨x, y, hr⟩ : ∃ x y, b.getVisibleRange ts readOffset = (x, y) := ⟨_, _, rfl⟩
    obtain ⟨hx, hxy, hend, hbefore, hin, hnone⟩ := h.getVisibleRange_spec ts readOffset hr
    simp only [visits, setDeleteBitmask, hr]
    by_cases heq : x = y
    · have hall : ∀ o, readOffset ≤ o → b.checkRowVisible o ts true = false := fun o ho =>
        if hlt : o < x then hbefore o ho hlt else hnone heq o (by omega)
      refine ⟨[], by simp [heq], .nil, fun o => ?_, fun bitmask => ⟨_, by simp [heq]; rfl, fun o => by simp [setFalse]⟩⟩
      simp only [not_mem_nil, false_iff, not_and]
      exact fun ho => by simp [hall o ho]
    · have hlt : x < y := by omega
      obtain ⟨offsets, hvisits, hsorted, hmem, hmask⟩ := ih y (by have := hend hlt; omega)
      have hmem' : ∀ o, o ∈ range' x (y - x) ++ offsets ↔ readOffset ≤ o ∧ b.checkRowVisible o ts true = true := by
        intro o
        rw [mem_append, mem_range'_1, hmem]
        by_cases h1 : o < x
        · by_cases h0 : readOffset ≤ o
          · simp [hbefore o h0 h1]; omega
          · simp [h0]; omega
        by_cases h2 : o < y
        · simp [hin o (by omega) h2]; omega
        constructor
        · rintro (h | h)
          · omega
          · exact ⟨by omega, h.2⟩
        · exact fun h => .inr ⟨by omega, h.2⟩
      refine ⟨_, by rw [if_neg heq, hvisits]; rfl, ?_, hmem', fun bitmask => ?_⟩
      · refine pairwise_append.mpr ⟨pairwise_lt_range' .., hsorted, fun a ha o ho => ?_⟩
        have := (hmem o).mp ho
        have := mem_range'_1.mp ha
        omega
      · obtain ⟨bitmask', hset, hbits⟩ := hmask (setFalse bitmask readOffset x)
        refine ⟨bitmask', by rw [if_neg heq, hset], fun o => ?_⟩
        rw [hbits, setFalse, Bool.and_assoc, ← Bool.not_or, ← Bool.decide_or]
        congr 2
        rw [decide_eq_decide, mem_append, mem_range'_1, not_or]
        constructor
        · rintro (h | h)
          · exact ⟨h.1, by omega, by omega, fun ho => by have := (hmem o).mp ho; omega⟩
          · exact ⟨by omega, h.2.1, by omega, h.2.2⟩
        · intro h
          by_cases h1 : o < x
          · exact .inl ⟨h.1, h1⟩
          · exact .inr ⟨by omega, h.2.1, h.2.2.2⟩

/-- **The ranges of a block are its visible rows, each once and in order, and the bitmask keeps
exactly them of the rows of the block**, where the version files it was read from are as of their
checkpoints. -/
theorem getVisibleRange_enumerates {as : List (BlockStep ρ)} (h : ((machine ρ).restrict FilesAsOf).Run start as b)
    (ts turns : Nat) (hturns : b.rows.length < turns) :
    ∃ offsets, b.visits ts turns 0 = some offsets ∧ offsets.Pairwise (· < ·) ∧
      (∀ o, o ∈ offsets ↔ b.checkRowVisible o ts true = true) ∧
      ∀ bitmask, ∃ bitmask', b.setDeleteBitmask ts turns 0 bitmask = some bitmask' ∧
        ∀ o, bitmask' o = (bitmask o && !decide (o < b.rows.length ∧ o ∉ offsets)) := by
  simpa using (Kept.run h).visits_spec ts turns 0 hturns

/-- Three rows with the middle one deleted. -/
theorem getVisibleRange_enumerates_three : ∃ b : BlockEntry Nat, b.visits 9 4 0 = some [0, 2] ∧
    ∃ offsets, b.visits 9 4 0 = some offsets ∧ offsets.Pairwise (· < ·) := by
  have hrun : (((machine Nat).restrict FilesAsOf).exec start [.append 1 4 [10, 11, 12], .commit 1 4, .delete 2 5 [1]]).any
      (fun b => b.rows.length == 3 && b.visits 9 4 0 == some [0, 2]) = true := by decide +kernel
  obtain ⟨b, hb, hcheck⟩ := (Option.any_eq_true _ _).mp hrun
  rw [Bool.and_eq_true, beq_iff_eq, beq_iff_eq] at hcheck
  obtain ⟨offsets, hvisits, hsorted, _⟩ := getVisibleRange_enumerates (Machine.run_of_exec hb) 9 4 (by omega)
  exact ⟨b, hcheck.2, offsets, hvisits, hsorted⟩

/-- A checkpoint of 5 while the version is not in memory. The block is read back with the first row
and the time 5, and its version with both rows: the second is visible at 10 and in no range. -/
theorem getVisibleRange_misses : ∃ b : BlockEntry Nat, (machine Nat).Run start
      [.append 1 4 [10], .commit 1 4, .append 2 10 [11], .commit 2 10, .loadCatalog 5 true] b ∧
    b.visits 10 3 0 = some [0] ∧ b.checkRowVisible 1 10 true = true := by
  have hexec : (((machine Nat).restrict FilesAsOf).exec start
      [.append 1 4 [10], .commit 1 4, .append 2 10 [11], .commit 2 10]).any (fun b =>
        {b with rows := b.rows.take (b.version.getRowCount 5), maxRowTs := min b.maxRowTs 5}.visits 10 3 0 == some [0] &&
          b.checkRowVisible 1 10 true) = true := by decide +kernel
  obtain ⟨b, hb, hcheck⟩ := (Option.any_eq_true _ _).mp hexec
  rw [Bool.and_eq_true, beq_iff_eq] at hcheck
  have hrun := Machine.run_of_exec hb
  exact ⟨_, hrun.of_restrict.concat (show (machine Nat).enabled _ (.loadCatalog 5 true) from trivial)
    ((Kept.run hrun).loadCatalog 5 true), hcheck⟩

/-! ### Creation timestamps -/

def maxTimestamp : Nat := 2 ^ 64 - 1

/-- The loops of `GetCreateTS`, from the entry that `lower_bound` finds. -/
def createTsFrom : List CreateField → Nat → Nat → List Nat
  | _, _, 0 => []
  | [], row, size + 1 => maxTimestamp :: createTsFrom [] (row + 1) size
  | f :: rest, row, size + 1 =>
    f.createTs :: createTsFrom (if f.rowCount = row then rest else f :: rest) (row + 1) size

def getCreateTS (v : BlockVersion) (offset size : Nat) : List Nat :=
  createTsFrom (v.created.dropWhile fun f => decide (f.rowCount < offset)) offset size

/-- Appends one after another: transaction, commit timestamp and rows of each. -/
def appendAll : BlockEntry ρ → List (Nat × Nat × List ρ) → Except TableFault (BlockEntry ρ)
  | b, [] => .ok b
  | b, (txnId, commitTs, rows) :: rest =>
    match b.appendData txnId commitTs rows with
    | .error fault => .error fault
    | .ok (b, _) => b.appendAll rest

/-- The first append that ends after a row is the one that created it. -/
structure Recorded (stampOf : ρ → Nat) (b : BlockEntry ρ) : Prop where
  sorted : b.version.created.Pairwise fun f g => f.rowCount ≤ g.rowCount
  rowCount : ∀ f ∈ b.version.created, f.rowCount ≤ b.rows.length
  stamps : ∀ (i : Nat) row, b.rows[i]? = some row →
    (b.version.created.find? fun f => decide (i < f.rowCount)).map CreateField.createTs = some (stampOf row)

theorem Recorded.appendData {stampOf : ρ → Nat} {b' : BlockEntry ρ} {txnId commitTs n : Nat} {rows : List ρ}
    (h : b.Recorded stampOf) (hrows : ∀ row ∈ rows, stampOf row = commitTs)
    (happ : b.appendData txnId commitTs rows = .ok (b', n)) : b'.Recorded stampOf := by
  simp only [BlockEntry.appendData] at happ
  split at happ
  · cases happ
  split at happ
  · cases happ
  generalize hk : (if b.rows.length + rows.length > b.rowCapacity then b.rowCapacity - b.rows.length
    else rows.length) = k at happ
  cases happ
  have hlen : (rows.take n).length = n := by
    rw [length_take]
    split at hk <;> omega
  refine ⟨?_, fun f hf => ?_, fun i row hi => ?_⟩
  · refine pairwise_append.mpr ⟨h.sorted, pairwise_singleton _ _, fun f hf g hg => ?_⟩
    rw [mem_singleton.mp hg]
    exact (h.rowCount f hf).trans (Nat.le_add_right _ _)
  · rw [length_append, hlen]
    rcases mem_append.mp hf with hf | hf
    · exact (h.rowCount f hf).trans (Nat.le_add_right _ _)
    · rw [mem_singleton.mp hf]
  · rw [BlockVersion.append, find?_append, Option.map_or]
    by_cases hold : i < b.rows.length
    · rw [getElem?_append_left hold] at hi
      rw [h.stamps i row hi, Option.some_or]
    have hnone : b.version.created.find? (fun f => decide (i < f.rowCount)) = none :=
      find?_eq_none.mpr fun f hf => by simpa using (h.rowCount f hf).trans (not_lt.mp hold)
    have hlt := (List.getElem?_eq_some_iff.mp hi).1
    rw [length_append, hlen] at hlt
    rw [getElem?_append_right (not_lt.mp hold)] at hi
    simp [hnone, hlt, hrows row (mem_of_mem_take (mem_of_getElem? hi))]

theorem Recorded.appendAll {stampOf : ρ → Nat} {b' : BlockEntry ρ} {appends : List (Nat × Nat × List ρ)}
    (h : b.Recorded stampOf) (hrows : ∀ a ∈ appends, ∀ row ∈ a.2.2, stampOf row = a.2.1)
    (happ : b.appendAll appends = .ok b') : b'.Recorded stampOf := by
  induction appends generalizing b with
  | nil =>
    cases happ
    exact h
  | cons a rest ih =>
    obtain ⟨ha, hrest⟩ := forall_mem_cons.mp hrows
    simp only [BlockEntry.appendAll] at happ
    split at happ
    · cases happ
    rename_i hone
    exact ih (h.appendData ha hone) hrest happ

/-- The append that the walk is at when it comes to a row. It leaves an append at the row where
that ends, so of two that end at one row it never leaves the second. -/
def walkedTo (row : Nat) : List CreateField → Option CreateField
  | [] => none
  | f :: rest =>
    if row ≤ f.rowCount then some f
    else (rest.head?.filter fun g => decide (g.rowCount = f.rowCount)).or (walkedTo row rest)

def stampOr (f : Option CreateField) : Nat := (f.map CreateField.createTs).getD maxTimestamp

theorem createTsFrom_passed {g : CreateField} {rest : List CreateField} {row : Nat} (hpassed : g.rowCount < row)
    {size i : Nat} (hi : i < size) : (createTsFrom (g :: rest) row size)[i]? = some g.createTs := by
  obtain ⟨size, rfl⟩ : ∃ n, size = n + 1 := ⟨size - 1, by omega⟩
  induction i generalizing row size with
  | zero => rfl
  | succ i ih =>
    obtain ⟨size, rfl⟩ : ∃ n, size = n + 1 := ⟨size - 1, by omega⟩
    rw [createTsFrom, if_neg (ne_of_lt hpassed)]
    exact @ih (row + 1) (by omega) size (by omega)

theorem createTsFrom_getElem? {created : List CreateField} (hsorted : created.Pairwise fun f g => f.rowCount ≤ g.rowCount)
    {row size i : Nat} (hle : ∀ f ∈ created, row ≤ f.rowCount) (hi : i < size) :
    (createTsFrom created row size)[i]? = some (stampOr (walkedTo (row + i) created)) := by
  obtain ⟨size, rfl⟩ : ∃ n, size = n + 1 := ⟨size - 1, by omega⟩
  induction i generalizing created row size with
  | zero =>
    cases created with
    | nil => rfl
    | cons f rest =>
      rw [walkedTo, add_zero, if_pos (hle f mem_cons_self)]
      rfl
  | succ i ih =>
    obtain ⟨size, rfl⟩ : ∃ n, size = n + 1 := ⟨size - 1, by omega⟩
    rw [show row + (i + 1) = row + 1 + i by omega]
    cases created with
    | nil => exact @ih [] .nil (row + 1) (by simp) size (by omega)
    | cons f rest =>
      obtain ⟨hf, hrest⟩ := pairwise_cons.mp hsorted
      have hrow := hle f mem_cons_self
      rw [createTsFrom, getElem?_cons_succ]
      by_cases hends : f.rowCount = row
      · rw [if_pos hends, walkedTo, if_neg (by omega)]
        cases rest with
        | nil => exact @ih [] .nil (row + 1) (by simp) size (by omega)
        | cons g rest =>
          by_cases htwo : g.rowCount = row
          · rw [createTsFrom_passed (by omega) (by omega)]
            simp [Option.filter, htwo, hends, stampOr]
          have hg := hf g mem_cons_self
          have hnext : ∀ x ∈ g :: rest, row + 1 ≤ x.rowCount := by
            refine forall_mem_cons.mpr ⟨by omega, fun x hx => ?_⟩
            have := (pairwise_cons.mp hrest).1 x hx
            omega
          rw [ih hrest hnext size (by omega)]
          simp [Option.filter, htwo, hends]
      · have hnext : ∀ x ∈ f :: rest, row + 1 ≤ x.rowCount :=
          forall_mem_cons.mpr ⟨by omega, fun x hx => by have := hf x hx; omega⟩
        rw [if_neg hends]
        exact ih hsorted hnext size (by omega)

/-- Appends that have rows end at different rows, and the walk does not fall behind. -/
theorem walkedTo_eq_find? {created : List CreateField} (hsorted : created.Pairwise fun f g => f.rowCount < g.rowCount)
    {offset row : Nat} (hle : offset ≤ row) :
    walkedTo row (created.dropWhile fun f => decide (f.rowCount < offset)) =
      created.find? fun f => decide (row ≤ f.rowCount) := by
  induction created with
  | nil => rfl
  | cons f rest ih =>
    obtain ⟨hf, hrest⟩ := pairwise_cons.mp hsorted
    rw [dropWhile_cons, find?_cons]
    by_cases hbefore : f.rowCount < offset
    · rw [if_pos (decide_eq_true hbefore), decide_eq_false (by omega)]
      exact ih hrest
    have hdrop : rest.dropWhile (fun g => decide (g.rowCount < offset)) = rest := by
      cases rest with
      | nil => rfl
      | cons g rest =>
        have := hf g mem_cons_self
        exact dropWhile_cons_of_neg (by simpa using by omega)
    have hnone : (rest.head?.filter fun g => decide (g.rowCount = f.rowCount)) = none := by
      cases rest with
      | nil => rfl
      | cons g rest => simp [ne_of_gt (hf g mem_cons_self)]
    rw [if_neg (by simpa using hbefore), walkedTo, hnone, Option.none_or, ← ih hrest, hdrop]
    by_cases hrow : row ≤ f.rowCount <;> simp [hrow]

/-- **`GetCreateTS` tells when a row was created, and the largest timestamp for a row that does not
exist, if and only if the append that the walk is at has the timestamp of the first one that ends
after the row.** When every append has rows, the walk is at the first append that does not end
before the row: then it is right unless an append ends at the row and the next has another timestamp. -/
theorem getCreateTS_eq (capacity : Nat) (stampOf : ρ → Nat) {appends : List (Nat × Nat × List ρ)}
    (hrows : ∀ a ∈ appends, ∀ row ∈ a.2.2, stampOf row = a.2.1)
    (happ : (new capacity : BlockEntry ρ).appendAll appends = .ok b) {offset size i : Nat} (hi : i < size) :
    ((getCreateTS b.version offset size)[i]? = some ((b.rows[offset + i]?.map stampOf).getD maxTimestamp) ↔
      stampOr (walkedTo (offset + i) (b.version.created.dropWhile fun f => decide (f.rowCount < offset))) =
        stampOr (b.version.created.find? fun f => decide (offset + i < f.rowCount))) ∧
    (b.version.created.Pairwise (fun f g => f.rowCount < g.rowCount) →
      walkedTo (offset + i) (b.version.created.dropWhile fun f => decide (f.rowCount < offset)) =
        b.version.created.find? fun f => decide (offset + i ≤ f.rowCount)) := by
  refine ⟨?_, fun hapart => walkedTo_eq_find? hapart (Nat.le_add_right _ _)⟩
  have hrec : (new capacity : BlockEntry ρ).Recorded stampOf :=
    ⟨.nil, by simp [new, BlockVersion.new], by simp [new]⟩
  have hrec := hrec.appendAll hrows happ
  have hstamp : (b.rows[offset + i]?.map stampOf).getD maxTimestamp =
      stampOr (b.version.created.find? fun f => decide (offset + i < f.rowCount)) := by
    rw [stampOr]
    cases hrow : b.rows[offset + i]? with
    | some row => rw [hrec.stamps _ row hrow, Option.map_some]
    | none =>
      have hend := getElem?_eq_none_iff.mp hrow
      rw [find?_eq_none.mpr fun f hf => by simpa using (hrec.rowCount f hf).trans hend]
      rfl
  have hfrom : ∀ f ∈ b.version.created.dropWhile (fun f => decide (f.rowCount < offset)), offset ≤ f.rowCount := by
    rw [dropWhile_eq_filter (hrec.sorted.imp fun hle h => decide_eq_true (hle.trans_lt (of_decide_eq_true h)))]
    intro f hf
    simpa using (mem_filter.mp hf).2
  rw [getCreateTS, hstamp, createTsFrom_getElem? (hrec.sorted.sublist (dropWhile_sublist _)) hfrom hi,
    Option.some_inj]

/-- The third row is the first of an append, but the append before it has the same timestamp. -/
theorem getCreateTS_eq_third :
    ∃ b : BlockEntry Nat, (new 4).appendAll [(1, 4, [4, 4]), (1, 4, [4]), (1, 7, [7])] = .ok b ∧
      (getCreateTS b.version 0 4)[2]? = some ((b.rows[0 + 2]?.map id).getD maxTimestamp) := by
  have happ : (new 4 : BlockEntry Nat).appendAll [(1, 4, [4, 4]), (1, 4, [4]), (1, 7, [7])] = .ok _ := rfl
  exact ⟨_, happ, (getCreateTS_eq 4 id (by decide) happ (by decide)).1.mpr (by decide)⟩

/-- The first row of an append gets the timestamp of the append before it. -/
theorem getCreateTS_first_row :
    ∃ b : BlockEntry Nat, (new 4).appendAll [(1, 4, [4, 4]), (1, 7, [7])] = .ok b ∧ b.rows = [4, 4, 7] ∧
      getCreateTS b.version 0 3 = [4, 4, 4] :=
  ⟨_, rfl, rfl, by decide⟩

end BlockEntry

end Infinity.Table
