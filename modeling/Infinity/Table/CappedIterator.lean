import Infinity.Table.BlockQueries

/-! Iterating over a column up to a cap.

A segment is read block by block, and a block in the visible ranges that it gives. The capped
iterator stops when its cursor, the offset after the row it gave last, has reached the cap; it
does not look at the row it is about to give. So it is exact when the row before the cap is
visible, and otherwise it can give one row from beyond the cap. -/
namespace Infinity.Table

open Block Lib List

/-- `BlockColumnIter<true>` -/
structure BlockColumnIter (ρ : Type) where
  blockEntry : BlockEntry ρ
  iterateTs : Nat
  offset : Nat := 0
  readEnd : Nat := 0

/-- `SegmentIter<true>`, with the blocks that `block_entry_iter_` has not given yet. -/
structure SegmentIter (ρ : Type) where
  blocks : List (BlockEntry ρ)
  iterateTs : Nat
  blockIdx : Nat := 0
  blockIter : Option (BlockColumnIter ρ) := none

/-- A row: its value and its offset in the segment. -/
abbrev SegmentRow (ρ : Type) := Option ρ × Nat

variable {ρ : Type}

def segmentRow (b : BlockEntry ρ) (blockIdx o : Nat) : SegmentRow ρ :=
  (b.rows[o]?, o + blockIdx * defaultCapacity.block)

def BlockColumnIter.next (it : BlockColumnIter ρ) : Option (Nat × BlockColumnIter ρ) :=
  if it.offset = it.readEnd then
    let range := it.blockEntry.getVisibleRange it.iterateTs it.readEnd
    if range.1 = range.2 then none else some (range.1, {it with offset := range.1 + 1, readEnd := range.2})
  else some (it.offset, {it with offset := it.offset + 1})

namespace SegmentIter

/-- `Next` when there is no block at hand. -/
def nextBlock (ts : Nat) : List (BlockEntry ρ) → Nat → Option (SegmentRow ρ) × SegmentIter ρ
  | [], blockIdx => (none, ⟨[], ts, blockIdx, none⟩)
  | b :: blocks, blockIdx =>
    match BlockColumnIter.next ⟨b, ts, 0, 0⟩ with
    | some (o, it) => (some (segmentRow b blockIdx o), ⟨blocks, ts, blockIdx + 1, some it⟩)
    | none => nextBlock ts blocks (blockIdx + 1)

def next (s : SegmentIter ρ) : Option (SegmentRow ρ) × SegmentIter ρ :=
  match s.blockIter with
  | none => nextBlock s.iterateTs s.blocks s.blockIdx
  | some it =>
    match it.next with
    | some (o, it') => (some (segmentRow it.blockEntry (s.blockIdx - 1) o), {s with blockIter := some it'})
    | none => nextBlock s.iterateTs s.blocks s.blockIdx

def offset (s : SegmentIter ρ) : Nat :=
  s.blockIter.elim 0 fun it => (s.blockIdx - 1) * defaultCapacity.block + it.offset

/-- `CappedOneColumnIterator::Next` -/
def cappedNext (s : SegmentIter ρ) (cap : Nat) : Option (SegmentRow ρ) × SegmentIter ρ :=
  if cap ≤ s.offset then (none, s) else s.next

/-- What `Next` gives before the first `None`; `none` if there are more rows than turns. -/
def collect (cap : Nat) : Nat → SegmentIter ρ → Option (List (SegmentRow ρ))
  | 0, _ => none
  | turns + 1, s => (s.cappedNext cap).1.elim (some []) fun row =>
    (collect cap turns (s.cappedNext cap).2).map (row :: ·)

end SegmentIter

/-! ### The rows to give -/

/-- The visible rows of a block from an offset on. -/
def visibleFrom (ts : Nat) (b : BlockEntry ρ) (blockIdx offset : Nat) : List (SegmentRow ρ) :=
  ((range b.rows.length).filter fun o => decide (offset ≤ o) && b.checkRowVisible o ts true).map
    (segmentRow b blockIdx)

/-- The visible rows of the blocks, with the offset of each in the segment. -/
def visibleRows (ts : Nat) : List (BlockEntry ρ) → Nat → List (SegmentRow ρ)
  | [], _ => []
  | b :: blocks, blockIdx => visibleFrom ts b blockIdx 0 ++ visibleRows ts blocks (blockIdx + 1)

variable {ts cap blockIdx lo : Nat} {b : BlockEntry ρ} {blocks : List (BlockEntry ρ)}
  {rows : List (SegmentRow ρ)} {s : SegmentIter ρ} {it : BlockColumnIter ρ}

theorem visibleFrom_cons {o : Nat} (h : b.Kept) (hlo : lo ≤ o) (hvis : b.checkRowVisible o ts true = true)
    (hbefore : ∀ o', lo ≤ o' → o' < o → b.checkRowVisible o' ts true = false) :
    visibleFrom ts b blockIdx lo = segmentRow b blockIdx o :: visibleFrom ts b blockIdx (o + 1) := by
  have hlt : o < b.rows.length := by
    rw [h.visible, Bool.and_eq_true, decide_eq_true_eq] at hvis
    exact hvis.1.trans_le (h.getRowCount_le _)
  have hcons : ((range b.rows.length).filter fun a => decide (lo ≤ a) && b.checkRowVisible a ts true) =
      o :: (range b.rows.length).filter fun a => decide (o + 1 ≤ a) && b.checkRowVisible a ts true := by
    apply (pairwise_lt_range.filter _).eq_of_mem_iff
    · exact pairwise_cons.mpr ⟨fun a ha => by simp at ha; omega, pairwise_lt_range.filter _⟩
    · intro a
      simp only [mem_cons, mem_filter, mem_range, Bool.and_eq_true, decide_eq_true_eq]
      rcases lt_trichotomy a o with ha | rfl | ha
      · have := hbefore a
        grind
      · simp [hlt, hlo, hvis]
      · grind
  simp only [visibleFrom, hcons, map_cons]

theorem visibleFrom_eq_nil (h : ∀ o, lo ≤ o → b.checkRowVisible o ts true = false) :
    visibleFrom ts b blockIdx lo = [] := by
  simp only [visibleFrom, map_eq_nil_iff, filter_eq_nil_iff, Bool.and_eq_true, decide_eq_true_eq]
  exact fun o _ ho => by simp [h o ho.1] at ho

theorem sorted_visibleRows (h : ∀ b ∈ blocks, b.Kept) (ts blockIdx : Nat) :
    (visibleRows ts blocks blockIdx).Pairwise (fun r r' => r.2 < r'.2) ∧
      ∀ r ∈ visibleRows ts blocks blockIdx, blockIdx * defaultCapacity.block ≤ r.2 := by
  induction blocks generalizing blockIdx with
  | nil => simp [visibleRows]
  | cons b blocks ih =>
    obtain ⟨hb, hblocks⟩ := forall_mem_cons.mp h
    obtain ⟨hsorted, hle⟩ := ih hblocks (blockIdx + 1)
    have hfits := hb.capacity ▸ hb.fits
    have hmem : ∀ r ∈ visibleFrom ts b blockIdx 0, ∃ o < b.rows.length, o + blockIdx * defaultCapacity.block = r.2 := by
      intro r hr
      obtain ⟨o, ho, rfl⟩ := mem_map.mp hr
      exact ⟨o, mem_range.mp (mem_of_mem_filter ho), rfl⟩
    have hstep := Nat.add_one_mul blockIdx defaultCapacity.block
    rw [visibleRows]
    constructor
    · refine pairwise_append.mpr ⟨?_, hsorted, fun r hr r' hr' => ?_⟩
      · exact pairwise_map.mpr ((pairwise_lt_range.filter _).imp fun hlt => Nat.add_lt_add_right hlt _)
      · obtain ⟨o, ho, heq⟩ := hmem r hr
        have := hle r' hr'
        omega
    · intro r hr
      rcases mem_append.mp hr with hr | hr
      · obtain ⟨o, -, heq⟩ := hmem r hr
        omega
      have := hle r hr
      omega

/-! ### What the iterators give -/

/-- What is left of the range at hand is visible. -/
structure BlockColumnIter.Reads (it : BlockColumnIter ρ) : Prop where
  kept : it.blockEntry.Kept
  le : it.offset ≤ it.readEnd
  visible : ∀ o, it.offset ≤ o → o < it.readEnd → it.blockEntry.checkRowVisible o it.iterateTs true = true

theorem BlockColumnIter.Reads.next (h : it.Reads) (blockIdx : Nat) :
    (it.next = none ∧ visibleFrom it.iterateTs it.blockEntry blockIdx it.offset = []) ∨
    ∃ o readEnd, it.next = some (o, {it with offset := o + 1, readEnd}) ∧
      Reads {it with offset := o + 1, readEnd} ∧ visibleFrom it.iterateTs it.blockEntry blockIdx it.offset =
        segmentRow it.blockEntry blockIdx o :: visibleFrom it.iterateTs it.blockEntry blockIdx (o + 1) := by
  rw [BlockColumnIter.next]
  by_cases hend : it.offset = it.readEnd
  · obtain ⟨x, y, hr⟩ : ∃ x y, it.blockEntry.getVisibleRange it.iterateTs it.readEnd = (x, y) := ⟨_, _, rfl⟩
    obtain ⟨hx, hxy, -, hbefore, hin, hnone⟩ := h.kept.getVisibleRange_spec it.iterateTs it.readEnd hr
    simp only [hr, hend]
    by_cases heq : x = y
    · refine .inl ⟨if_pos heq, visibleFrom_eq_nil fun o ho => ?_⟩
      rcases lt_or_ge o x with hlt | hge
      · exact hbefore o ho hlt
      · exact hnone heq o hge
    · have hlt := lt_of_le_of_ne hxy heq
      refine .inr ⟨x, y, if_neg heq, ⟨h.kept, hlt, fun o ho => hin o (Nat.le_of_succ_le ho)⟩, ?_⟩
      exact visibleFrom_cons h.kept hx (hin x le_rfl hlt) hbefore
  · have hlt := lt_of_le_of_ne h.le hend
    rw [if_neg hend]
    refine .inr ⟨_, _, rfl, ⟨h.kept, hlt, fun o ho => h.visible o (Nat.le_of_succ_le ho)⟩, ?_⟩
    exact visibleFrom_cons h.kept le_rfl (h.visible _ le_rfl hlt) fun o ho ho' => by omega

namespace SegmentIter

/-- The rows that the iterator has still to give. -/
structure Stands (s : SegmentIter ρ) (rows : List (SegmentRow ρ)) : Prop where
  kept : ∀ b ∈ s.blocks, b.Kept
  reads : ∀ it, s.blockIter = some it → it.Reads ∧ it.iterateTs = s.iterateTs
  rows : rows = (s.blockIter.elim [] fun it => visibleFrom s.iterateTs it.blockEntry (s.blockIdx - 1) it.offset) ++
    visibleRows s.iterateTs s.blocks s.blockIdx

/-- A call gives the next row and moves the cursor behind it, or there is none. -/
def Gives (out : Option (SegmentRow ρ) × SegmentIter ρ) (rows : List (SegmentRow ρ)) : Prop :=
  (out.1 = none ∧ rows = []) ∨
    ∃ row rest, out.1 = some row ∧ rows = row :: rest ∧ out.2.Stands rest ∧ out.2.offset = row.2 + 1

theorem nextBlock_gives (h : ∀ b ∈ blocks, b.Kept) (blockIdx : Nat) :
    Gives (nextBlock ts blocks blockIdx) (visibleRows ts blocks blockIdx) := by
  induction blocks generalizing blockIdx with
  | nil => exact .inl ⟨rfl, rfl⟩
  | cons b blocks ih =>
    obtain ⟨hb, hblocks⟩ := forall_mem_cons.mp h
    have hreads : BlockColumnIter.Reads ⟨b, ts, 0, 0⟩ := ⟨hb, le_rfl, fun o _ ho => absurd ho (Nat.not_lt_zero o)⟩
    rw [nextBlock, visibleRows]
    rcases hreads.next blockIdx with ⟨hnone, hnil⟩ | ⟨o, readEnd, hsome, hit, hcons⟩
    · rw [hnone]
      dsimp only at hnil
      rw [hnil]
      exact ih hblocks (blockIdx + 1)
    · rw [hsome]
      dsimp only at hcons
      rw [hcons]
      refine .inr ⟨_, _, rfl, rfl, ⟨hblocks, fun it' heq => ?_, by simp⟩, ?_⟩
      · cases heq
        exact ⟨hit, rfl⟩
      · simp [offset, segmentRow]
        omega

theorem Stands.next (h : s.Stands rows) : Gives s.next rows := by
  rw [h.rows, SegmentIter.next]
  cases hit : s.blockIter with
  | none => exact nextBlock_gives h.kept s.blockIdx
  | some it =>
    obtain ⟨hreads, hts⟩ := h.reads it hit
    rw [Option.elim_some]
    rcases hreads.next (s.blockIdx - 1) with ⟨hnone, hnil⟩ | ⟨o, readEnd, hsome, hit', hcons⟩
    · rw [hts] at hnil
      simpa only [hnone, hnil, nil_append] using nextBlock_gives h.kept s.blockIdx
    rw [hts] at hcons
    simp only [hsome, hcons]
    refine .inr ⟨_, _, rfl, rfl, ⟨h.kept, fun it'' heq => ?_, by simp⟩, ?_⟩
    · cases heq
      exact ⟨hit', hts⟩
    · simp [offset, segmentRow]
      omega

/-- The row that stops the iteration, if any, is the one before the cap or lies beyond it. -/
theorem Stands.collect {turns : Nat} (h : s.Stands rows) (hturns : rows.length < turns)
    (hsorted : rows.Pairwise fun r r' => r.2 < r'.2) (hle : ∀ r ∈ rows, s.offset ≤ r.2) :
    collect cap turns s = some (rows.filter (·.2 < cap)) ↔
      (s.offset < cap → (∃ r ∈ rows, r.2 + 1 = cap) ∨ ∀ r ∈ rows, r.2 < cap) := by
  induction turns generalizing s rows with
  | zero => omega
  | succ turns ih =>
    rw [SegmentIter.collect, cappedNext]
    by_cases hend : cap ≤ s.offset
    · have hnil : rows.filter (·.2 < cap) = [] := by
        rw [filter_eq_nil_iff]
        intro r hr
        simpa using hend.trans (hle r hr)
      rw [if_pos hend, hnil]
      exact iff_of_true rfl fun hlt => by omega
    · rw [if_neg hend]
      rcases h.next with ⟨hnone, rfl⟩ | ⟨row, rest, hsome, rfl, hrest, hoff⟩
      · rw [hnone]
        exact iff_of_true rfl fun _ => .inr (forall_mem_nil _)
      obtain ⟨hlt, hsorted⟩ := pairwise_cons.mp hsorted
      rw [hsome, Option.elim_some, exists_mem_cons_iff, forall_mem_cons]
      rcases lt_or_ge row.2 cap with hrow | hrow
      · rw [filter_cons_of_pos (by simpa using hrow), Option.map_eq_some_iff]
        simp only [cons.injEq, true_and, exists_eq_right]
        rw [ih hrest (by simpa using hturns) hsorted (fun r hr => hoff ▸ hlt r hr), hoff]
        -- the rows are in order, so the one before the cap is this one or comes later
        by_cases heq : row.2 + 1 = cap
        · simp [heq]
        · have hbefore : row.2 + 1 < cap := by omega
          simp [heq, hrow, hbefore, not_le.mp hend]
      · have hbeyond : ¬ ∃ r ∈ rest, r.2 + 1 = cap := fun ⟨r, hr, heq⟩ => by
          have := hlt r hr
          omega
        refine iff_of_false (fun hgiven => ?_) fun hcap => ?_
        · obtain ⟨given, -, heq⟩ := Option.map_eq_some_iff.mp hgiven
          have hin : row ∈ (row :: rest).filter (·.2 < cap) := heq ▸ mem_cons_self
          exact absurd (by simpa using of_mem_filter hin) (not_lt.mpr hrow)
        · rcases hcap (not_le.mp hend) with (heq | hin) | hall
          · omega
          · exact hbeyond hin
          · exact absurd hall.1 (not_lt.mpr hrow)

/-- **The iterator gives exactly the visible rows below the cap, each once and in order, and then
`None`, if and only if the cap is 0, stands behind a visible row or lies beyond all visible rows.** -/
theorem collect_exact (blocks : List (BlockEntry ρ))
    (hblocks : ∀ b ∈ blocks, ∃ as, ((BlockEntry.machine ρ).restrict BlockEntry.FilesAsOf).Run .start as b) (ts cap turns : Nat)
    (hturns : (visibleRows ts blocks 0).length < turns) :
    (visibleRows ts blocks 0).Pairwise (fun r r' => r.2 < r'.2) ∧
    (collect cap turns {blocks, iterateTs := ts} = some ((visibleRows ts blocks 0).filter (·.2 < cap)) ↔
      cap = 0 ∨ (∃ r ∈ visibleRows ts blocks 0, r.2 + 1 = cap) ∨ ∀ r ∈ visibleRows ts blocks 0, r.2 < cap) := by
  have hkept : ∀ b ∈ blocks, b.Kept := by
    intro b hb
    obtain ⟨as, hrun⟩ := hblocks b hb
    exact BlockEntry.Kept.run hrun
  obtain ⟨hsorted, -⟩ := sorted_visibleRows hkept ts 0
  have hstands : Stands {blocks, iterateTs := ts} (visibleRows ts blocks 0) := ⟨hkept, fun it h => (by cases h), rfl⟩
  refine ⟨hsorted, (hstands.collect hturns hsorted fun r _ => Nat.zero_le _).trans ?_⟩
  exact (or_iff_not_imp_left.trans (imp_congr_left Nat.pos_iff_ne_zero.symm)).symm

/-- A block of three rows of which the middle one is deleted. -/
theorem middle_deleted : ∃ (b : BlockEntry Nat) (as : List (BlockStep Nat)),
    ((BlockEntry.machine Nat).restrict BlockEntry.FilesAsOf).Run .start as b ∧ visibleRows 9 [b] 0 = [(some 10, 0), (some 12, 2)] ∧
      collect 2 3 {blocks := [b], iterateTs := 9} = some [(some 10, 0), (some 12, 2)] := by
  have hrun : (((BlockEntry.machine Nat).restrict BlockEntry.FilesAsOf).exec .start
      [.append 1 4 [10, 11, 12], .commit 1 4, .delete 2 5 [1], .commit 2 5]).any (fun b =>
        visibleRows 9 [b] 0 == [(some 10, 0), (some 12, 2)] &&
        collect 2 3 {blocks := [b], iterateTs := 9} == some [(some 10, 0), (some 12, 2)]) = true := by decide +kernel
  obtain ⟨b, hb, hcheck⟩ := (Option.any_eq_true _ _).mp hrun
  rw [Bool.and_eq_true, beq_iff_eq, beq_iff_eq] at hcheck
  exact ⟨b, _, Machine.run_of_exec hb, hcheck⟩

/-- Up to a cap of 1, only the first row is given. -/
theorem collect_exact_one : ∃ b : BlockEntry Nat,
    collect 1 3 {blocks := [b], iterateTs := 9} = some ((visibleRows 9 [b] 0).filter (·.2 < 1)) ∧
      (visibleRows 9 [b] 0).map Prod.snd = [0, 2] := by
  obtain ⟨b, as, hrun, hrows, -⟩ := middle_deleted
  obtain ⟨-, hexact⟩ := collect_exact [b] (forall_mem_singleton.mpr ⟨as, hrun⟩) 9 1 3 (by simp [hrows])
  exact ⟨b, hexact.mpr (by simp [hrows]), by rw [hrows]; rfl⟩

/-- Up to a cap of 2, behind the deleted row, the last row is given too. -/
theorem collect_beyond_cap : ∃ (b : BlockEntry Nat) (as : List (BlockStep Nat)),
    (BlockEntry.machine Nat).Run .start as b ∧ (visibleRows 9 [b] 0).filter (·.2 < 2) = [(some 10, 0)] ∧
      collect 2 3 {blocks := [b], iterateTs := 9} = some [(some 10, 0), (some 12, 2)] := by
  obtain ⟨b, as, hrun, hrows, hcollect⟩ := middle_deleted
  exact ⟨b, as, hrun.of_restrict, by rw [hrows]; rfl, hcollect⟩

end SegmentIter

end Infinity.Table
