import Infinity.Table.View

/-! Appending in blocks and segments is pushing row by row.

`AppendData` copies as many rows at a time as the last block has room for, in one loop over
the input blocks inside another over the segments. For entries in order, none of its
checks fails, every row is copied, and the view is that of all rows pushed one by one. -/
namespace Infinity.Table

open Block List

variable {ρ : Type} {cap : Capacity} {txnId c : Nat}

/-! ### Views of entries -/

def BlockEntry.view (c : Nat) (b : BlockEntry ρ) : BlockView ρ :=
  ⟨b.rows, fun offset => (b.version.deleted[offset]?).getD 0, b.version.getRowCount, b.commitTs.getD c⟩

/-- `deletes` says that the first delete of the segment is about to be committed. -/
def SegmentEntry.view (c : Nat) (deletes : Bool) (s : SegmentEntry ρ) : SegmentView ρ :=
  ⟨s.blocks.map (BlockEntry.view c), s.commitTs.getD c,
    if deletes = true ∧ (s.status == .deprecated) = false then s.firstDeleteTs.or (some c) else s.firstDeleteTs,
    s.deprecateTs, s.status == .deprecated⟩

/-- The segments `ids` have deletes that are about to be committed. -/
def TableEntry.view (c : Nat) (ids : List Nat) (t : TableEntry ρ) : TableView ρ :=
  ⟨fun id => (t.segmentMap id).map (SegmentEntry.view c (decide (id ∈ ids))), t.nextSegmentId, t.unsealedId⟩

/-! ### Entries in order -/

/-- `maxRowTs` is the time of the last change: no delete is later, and from then on all rows exist. -/
structure BlockEntry.Dated (b : BlockEntry ρ) : Prop where
  stamps : ∀ ts ∈ b.version.deleted, ts ≤ b.maxRowTs
  rowCount : ∀ ts, b.maxRowTs ≤ ts → b.version.getRowCount ts = b.rows.length

/-- Of a block in a table with commits up to `c`, in the hands of `txnId` or of nobody. -/
structure BlockEntry.Sound (cap : Capacity) (txnId c : Nat) (b : BlockEntry ρ) : Prop where
  capacity : b.rowCapacity = cap.block
  fits : b.rows.length ≤ cap.block
  created : ∀ f ∈ b.version.created, f.createTs ≤ c
  deleted : b.version.deleted.length = cap.block
  minRowTs : b.minRowTs ≤ b.maxRowTs
  maxRowTs : b.maxRowTs ≤ c
  unset : b.minRowTs = 0 → b.maxRowTs = 0 ∨ b.maxRowTs = c
  owner : b.usingTxnId = 0 ∨ b.usingTxnId = txnId
  dated : b.Dated

/-- A transaction is at the block and has not committed it. -/
def BlockEntry.Open (b : BlockEntry ρ) : Prop := b.commitTs = none ∨ b.usingTxnId ≠ 0 ∨ b.minRowTs = 0

/-- The rows of a block that are not deleted. -/
def BlockEntry.remaining (b : BlockEntry ρ) : Nat := (b.version.deleted.take b.rows.length).count 0

def SegmentEntry.remaining (s : SegmentEntry ρ) : Nat := (s.blocks.map BlockEntry.remaining).sum

structure SegmentEntry.Sound (cap : Capacity) (txnId c : Nat) (s : SegmentEntry ρ) : Prop where
  blocks : ∀ b ∈ s.blocks, b.Sound cap txnId c
  remaining : s.remaining ≤ s.actualRowCount
  maxRowTs : s.maxRowTs ≤ c

/-- The segment that rows are appended to: its blocks but the last are full. -/
structure SegmentEntry.Filled (cap : Capacity) (s : SegmentEntry ρ) : Prop where
  status : s.status = .unsealed
  capacity : s.rowCapacity = cap.segment
  rowCount : s.rowCount = (s.blocks.map fun b => b.rows.length).sum
  full : ∀ b ∈ s.blocks.dropLast, b.rows.length = cap.block
  room : s.rowCount ≤ cap.segment

variable {s s' : SegmentEntry ρ}

theorem SegmentEntry.Filled.of_rows (hf : s.Filled cap) (hstatus : s'.status = s.status)
    (hcap : s'.rowCapacity = s.rowCapacity) (hcount : s'.rowCount = s.rowCount)
    (hrows : s'.blocks.map (fun b => b.rows) = s.blocks.map fun b => b.rows) : s'.Filled cap := by
  have hlen : s'.blocks.map (fun b => b.rows.length) = s.blocks.map fun b => b.rows.length := by
    simpa [Function.comp_def] using congrArg (map length) hrows
  refine ⟨hstatus.trans hf.status, hcap.trans hf.capacity, ?_, ?_, hcount ▸ hf.room⟩
  · rw [hlen, ← hf.rowCount, hcount]
  · intro b hb
    have hdrop : (s'.blocks.dropLast.map fun b => b.rows.length) = s.blocks.dropLast.map fun b => b.rows.length := by
      rw [map_dropLast, map_dropLast, hlen]
    have hmem : b.rows.length ∈ s.blocks.dropLast.map fun b => b.rows.length := hdrop ▸ mem_map.mpr ⟨b, hb, rfl⟩
    obtain ⟨b₀, hb₀, heq⟩ := mem_map.mp hmem
    rw [← heq]
    exact hf.full b₀ hb₀

/-! ### Blocks -/

theorem getRowCount_append {v : BlockVersion} (h : ∀ f ∈ v.created, f.createTs ≤ c) (n ts : Nat) :
    (v.append c n).getRowCount ts = if c ≤ ts then n else v.getRowCount ts := by
  simp only [BlockVersion.getRowCount, BlockVersion.append]
  by_cases hts : c ≤ ts
  · have hall : ∀ f ∈ v.created ++ [⟨c, n⟩], decide (f.createTs ≤ ts) = true := by
      intro f hf
      rcases mem_append.mp hf with hf | hf
      · exact decide_eq_true ((h f hf).trans hts)
      · rw [mem_singleton.mp hf]
        exact decide_eq_true hts
    rw [takeWhile_eq_self_iff.mpr hall, if_pos hts]
    simp
  · have hnew : [CreateField.mk c n].takeWhile (fun f => decide (f.createTs ≤ ts)) = [] := by simp [hts]
    have htake : (v.created ++ [CreateField.mk c n]).takeWhile (fun f => decide (f.createTs ≤ ts)) =
        v.created.takeWhile fun f => decide (f.createTs ≤ ts) := by
      rw [takeWhile_append, hnew]
      split
      · rename_i hlen
        rw [append_nil, (List.takeWhile_prefix _).eq_of_length hlen]
      · rfl
    rw [htake, if_neg hts]

theorem BlockEntry.new_sound : (BlockEntry.new cap.block : BlockEntry ρ).Sound cap txnId c where
  capacity := rfl
  fits := Nat.zero_le _
  created := by simp [BlockEntry.new, BlockVersion.new]
  deleted := by simp [BlockEntry.new, BlockVersion.new]
  minRowTs := Nat.le_refl _
  maxRowTs := Nat.zero_le _
  unset _ := .inl rfl
  owner := .inl rfl
  dated := ⟨by simp [BlockEntry.new, BlockVersion.new], fun _ _ => rfl⟩

theorem BlockEntry.new_view (capacity : Nat) : (BlockEntry.new capacity : BlockEntry ρ).view c = .new c := by
  simp only [view, BlockEntry.new, BlockVersion.new, BlockView.new, BlockView.mk.injEq, true_and, Option.getD_none,
    and_true]
  constructor
  · funext offset
    by_cases h : offset < capacity <;> simp [h]
  · rfl

variable {rows : List ρ}

theorem BlockEntry.appendData_spec {b : BlockEntry ρ} (hb : b.Sound cap txnId c)
    (hroom : b.rows.length < cap.block) (hne : rows ≠ []) :
    ∃ b' n, b.appendData txnId c rows = .ok (b', n) ∧ n = min rows.length (cap.block - b.rows.length) ∧
      b'.Sound cap txnId c ∧ b'.rows = b.rows ++ rows.take n ∧
      b'.view c = (rows.take n).foldl (BlockView.push c) (b.view c) ∧ b'.remaining ≤ b.remaining + n := by
  have howner : ¬ (b.usingTxnId ≠ 0 ∧ b.usingTxnId ≠ txnId) := by rcases hb.owner with h | h <;> simp [h]
  have hts : ¬ (b.minRowTs > c ∨ b.maxRowTs > c) := by
    have := hb.minRowTs
    have := hb.maxRowTs
    omega
  have hcopied : (if b.rows.length + rows.length > b.rowCapacity then b.rowCapacity - b.rows.length else rows.length) =
      min rows.length (cap.block - b.rows.length) := by
    rw [hb.capacity]
    split <;> omega
  simp only [BlockEntry.appendData, howner, hts, hcopied]
  have hpos : 0 < rows.length := length_pos_iff.mpr hne
  generalize hn : min rows.length (cap.block - b.rows.length) = n
  have hlen : (rows.take n).length = n := by
    rw [length_take]
    omega
  refine ⟨_, n, rfl, rfl, ?_, rfl, ?_, ?_⟩
  · refine ⟨hb.capacity, ?_, ?_, hb.deleted, le_rfl, le_rfl, fun _ => .inr rfl, .inr rfl,
      fun ts hmem => (hb.dated.stamps ts hmem).trans hb.maxRowTs, fun ts hle => ?_⟩
    · rw [length_append]
      omega
    · intro f hf
      rcases mem_append.mp hf with hf | hf
      · exact hb.created f hf
      · rw [mem_singleton.mp hf]
    · rw [getRowCount_append hb.created, if_pos hle, length_append, hlen]
  · obtain ⟨row, rest, htake⟩ : ∃ row rest, rows.take n = row :: rest := by
      cases htake : rows.take n with
      | nil =>
        rw [htake, length_nil] at hlen
        omega
      | cons row rest => exact ⟨row, rest, rfl⟩
    rw [htake, foldl_cons, BlockView.foldl_push, ← htake, hlen]
    simp only [BlockEntry.view, BlockView.mk.injEq, true_and, and_true]
    refine ⟨rfl, ?_⟩
    funext ts
    exact getRowCount_append hb.created _ _
  · simp only [BlockEntry.remaining, BlockVersion.append, length_append, hlen]
    rw [take_add, count_append]
    have hcount := count_le_length (a := 0) (l := (b.version.deleted.drop b.rows.length).take n)
    have hle := length_take_le n (b.version.deleted.drop b.rows.length)
    omega

/-! ### Segments -/

theorem sum_rows_full {blocks : List (BlockEntry ρ)} (h : ∀ b ∈ blocks, b.rows.length = cap.block) :
    (blocks.map fun b => b.rows.length).sum = blocks.length * cap.block := by
  rw [map_congr_left h, map_const', sum_replicate_nat]

theorem SegmentEntry.lastBlock_spec (hs : s.Sound cap txnId c) (hf : s.Filled cap) :
    ∃ front last, s.lastBlock cap.block = (front, last) ∧ last.Sound cap txnId c ∧
      last.rows.length < cap.block ∧ (∀ b ∈ front, b.Sound cap txnId c ∧ b.rows.length = cap.block) ∧
      s.rowCount = front.length * cap.block + last.rows.length ∧
      s.remaining = (front.map BlockEntry.remaining).sum + last.remaining ∧
      lastView cap.block c (s.blocks.map (BlockEntry.view c)) = (front.map (BlockEntry.view c), last.view c) ∧
      ((last = .new cap.block ∧ front = s.blocks) ∨ s.blocks = front ++ [last]) := by
  have hfull := hf.full
  have hcount := hf.rowCount
  have hsound := hs.blocks
  have hnew : ((BlockEntry.new cap.block : BlockEntry ρ)).remaining = 0 := rfl
  unfold lastBlock lastView remaining
  rcases eq_nil_or_concat s.blocks with hnil | ⟨front, last, hblocks⟩
  · rw [hnil] at hcount ⊢
    exact ⟨[], .new cap.block, rfl, BlockEntry.new_sound, cap.block_pos, by simp, by simpa [BlockEntry.new] using hcount,
      by simp [hnew], by simp [BlockEntry.new_view], .inl ⟨rfl, rfl⟩⟩
  rw [concat_eq_append] at hblocks
  rw [hblocks] at hfull hcount hsound ⊢
  simp only [dropLast_concat] at hfull
  simp only [getLast?_concat, dropLast_concat, map_append, map_singleton]
  have hlast := hsound last (by simp)
  have hrows : (last.view c).rows.length = last.rows.length := rfl
  rw [hlast.capacity, hrows]
  split
  · rename_i hle
    have hall : ∀ b ∈ front ++ [last], b.rows.length = cap.block := by
      intro b hb
      rcases mem_append.mp hb with hb | hb
      · exact hfull b hb
      · rw [mem_singleton.mp hb]
        exact le_antisymm hlast.fits hle
    refine ⟨_, _, rfl, BlockEntry.new_sound, cap.block_pos, fun b hb => ⟨hsound b hb, hall b hb⟩, ?_, ?_, ?_,
      .inl ⟨rfl, rfl⟩⟩
    · rw [hcount, sum_rows_full hall]
      rfl
    · simp [hnew]
    · simp [BlockEntry.new_view]
  · refine ⟨_, _, rfl, hlast, by omega, fun b hb => ⟨hsound b (by simp [hb]), hfull b hb⟩, ?_, ?_, rfl, .inr rfl⟩
    · rw [hcount, map_append, sum_append, sum_rows_full hfull]
      simp
    · simp

/-- From `s` to `s'` the rows are appended, and `changed` grows to `changed'`. -/
structure SegmentEntry.Appended (cap : Capacity) (txnId c : Nat) (s s' : SegmentEntry ρ) (rows : List ρ)
    (changed changed' : List Nat) : Prop where
  sound : s'.Sound cap txnId c
  filled : s'.Filled cap
  view : ∀ deletes, s'.view c deletes = rows.foldl (SegmentView.push cap.block c) (s.view c deletes)
  rowCount : s'.rowCount = s.rowCount + rows.length
  segmentId : s'.segmentId = s.segmentId
  minRowTs : s'.minRowTs = s.minRowTs
  commitTs : s'.commitTs = s.commitTs
  kept : changed ⊆ changed'
  touched : rows ≠ [] → changed' ≠ []
  fresh : ∀ (i : Nat) b', s'.blocks[i]? = some b' → b'.Open → i ∈ changed' ∨ ∃ b, s.blocks[i]? = some b ∧ b.Open

theorem SegmentEntry.Appended.refl (changed : List Nat) (hs : s.Sound cap txnId c)
    (hf : s.Filled cap) : s.Appended cap txnId c s [] changed changed :=
  ⟨hs, hf, fun _ => rfl, rfl, rfl, rfl, rfl, fun _ h => h, fun h => absurd rfl h, fun _ b h hn => .inr ⟨b, h, hn⟩⟩

theorem SegmentEntry.Appended.trans {s s' s'' : SegmentEntry ρ} {rows rows' : List ρ}
    {changed changed' changed'' : List Nat} (h : s.Appended cap txnId c s' rows changed changed')
    (h' : s'.Appended cap txnId c s'' rows' changed' changed'') :
    s.Appended cap txnId c s'' (rows ++ rows') changed changed'' where
  sound := h'.sound
  filled := h'.filled
  view deletes := by rw [h'.view, h.view, foldl_append]
  rowCount := by rw [h'.rowCount, h.rowCount, length_append, add_assoc]
  segmentId := h'.segmentId.trans h.segmentId
  minRowTs := h'.minRowTs.trans h.minRowTs
  commitTs := h'.commitTs.trans h.commitTs
  kept := fun _ hi => h'.kept (h.kept hi)
  touched hne := by
    by_cases hrows : rows = []
    · exact h'.touched (by simpa [hrows] using hne)
    · intro hnil
      obtain ⟨i, hi⟩ := exists_mem_of_ne_nil _ (h.touched hrows)
      simpa [hnil] using h'.kept hi
  fresh i b'' hb'' hn := by
    rcases h'.fresh i b'' hb'' hn with hi | ⟨b', hb', hn'⟩
    · exact .inl hi
    · exact (h.fresh i b' hb' hn').imp_left fun hi => h'.kept hi

theorem SegmentEntry.appendTurn (changed : List Nat) (hs : s.Sound cap txnId c)
    (hf : s.Filled cap) (hroom : s.rowCount < cap.segment) (hne : rows ≠ []) :
    ∃ front last last' n, s.lastBlock cap.block = (front, last) ∧ last.appendData txnId c rows = .ok (last', n) ∧
      0 < n ∧ n ≤ rows.length ∧
      s.Appended cap txnId c {s with
        blocks := front ++ [last']
        rowCount := s.rowCount + n
        actualRowCount := s.actualRowCount + n} (rows.take n) changed
        (if changed.getLast? = some front.length then changed else changed ++ [front.length]) := by
  obtain ⟨front, last, hlb, hlast, hlt, hfront, hcount, hrem, hview, hold⟩ := lastBlock_spec hs hf
  obtain ⟨last', n, happ, hn, hlast', hrows', hview', hrem'⟩ := BlockEntry.appendData_spec hlast hlt hne
  have hpos : 0 < rows.length := length_pos_iff.mpr hne
  have hlen : (rows.take n).length = n := by
    rw [length_take]
    omega
  have hmem : front.length ∈ (if changed.getLast? = some front.length then changed else changed ++ [front.length]) := by
    split
    · rename_i h
      exact mem_of_getLast? h
    · simp
  refine ⟨front, last, last', n, hlb, happ, by omega, by omega, ?_⟩
  refine ⟨⟨?_, ?_, hs.maxRowTs⟩, ⟨hf.status, hf.capacity, ?_, ?_, ?_⟩, ?_, ?_, rfl, rfl, rfl, ?_, ?_, ?_⟩
  · intro b hb
    rcases mem_append.mp hb with hb | hb
    · exact (hfront b hb).1
    · exact (mem_singleton.mp hb) ▸ hlast'
  · have := hs.remaining
    simp only [remaining, map_append, map_singleton, sum_append, sum_singleton] at hrem this ⊢
    omega
  · have hsum := sum_rows_full fun b hb => (hfront b hb).2
    simp only [map_append, map_singleton, sum_append, sum_singleton, hsum, hrows', length_append, hlen]
    omega
  · intro b hb
    rw [dropLast_concat] at hb
    exact (hfront b hb).2
  · -- the segment is made of whole blocks
    obtain ⟨m, hm⟩ := cap.whole
    have hblocks : front.length < m := by
      by_contra hge
      have : cap.block * m ≤ front.length * cap.block := by
        rw [mul_comm]
        exact Nat.mul_le_mul_right _ (by omega)
      omega
    have hfit : (front.length + 1) * cap.block ≤ cap.block * m := by
      rw [mul_comm cap.block]
      exact Nat.mul_le_mul_right _ hblocks
    rw [add_mul] at hfit
    show s.rowCount + n ≤ cap.segment
    omega
  · intro deletes
    rw [SegmentView.foldl_push]
    simp only [SegmentEntry.view]
    rw [foldl_pushBlocks hview (by intro h; rw [h, length_nil] at hlen; omega)
      (by show last.rows.length + _ ≤ _; rw [hlen]; omega), ← hview']
    simp
  · rw [hlen]
  · intro i hi
    split
    · exact hi
    · exact mem_append_left _ hi
  · exact fun _ => ne_nil_of_mem hmem
  · intro i b' hb' hnone
    rcases lt_trichotomy i front.length with hi | rfl | hi
    · rw [getElem?_append_left hi] at hb'
      right
      refine ⟨b', ?_, hnone⟩
      rcases hold with ⟨_, rfl⟩ | hblocks
      · exact hb'
      · rwa [hblocks, List.getElem?_append_left hi]
    · exact .inl hmem
    · rw [getElem?_eq_none (by simp; omega)] at hb'
      cases hb'

theorem SegmentEntry.appendRows_spec {turns : Nat} (changed : List Nat)
    (hturns : rows.length ≤ turns) (hs : s.Sound cap txnId c) (hf : s.Filled cap) (hroom : s.rowCount < cap.segment) :
    ∃ s' taken left changed', s.appendRows cap txnId c turns rows changed = .ok (s', left, changed') ∧
      rows = taken ++ left ∧ s.Appended cap txnId c s' taken changed changed' ∧
      (left = [] ∨ s'.rowCount = cap.segment) ∧ (rows ≠ [] → taken ≠ []) := by
  induction turns generalizing s rows changed with
  | zero =>
    have hnil : rows = [] := length_eq_zero_iff.mp (by omega)
    exact ⟨s, [], rows, changed, rfl, rfl, .refl changed hs hf, .inl hnil, fun h => absurd hnil h⟩
  | succ turns ih =>
    by_cases hne : rows = []
    · exact ⟨s, [], rows, changed, by simp [appendRows, hne], rfl, .refl changed hs hf, .inl hne, fun h => absurd hne h⟩
    obtain ⟨front, last, last', n, hlb, happ, hpos, hle, hturn⟩ := appendTurn changed hs hf hroom hne
    have htaken : rows.take n ≠ [] := by
      intro h
      have hlen := congrArg length h
      rw [length_take, length_nil] at hlen
      omega
    have hcap := hturn.filled.capacity
    have hbound := hturn.filled.room
    have hdrop : (rows.drop n).length ≤ turns := by
      rw [length_drop]
      omega
    simp only [appendRows, hne, if_false, hlb, happ]
    dsimp only at hcap hbound
    split
    · rename_i hfull
      exact ⟨_, rows.take n, rows.drop n, _, rfl, (take_append_drop n rows).symm, hturn,
        .inr (hfull.trans hcap), fun _ => htaken⟩
    rename_i hnot
    rw [if_neg (by omega)]
    obtain ⟨s', taken, left, changed', hrun, hsplit, happended, hend, _⟩ :=
      ih _ hdrop hturn.sound hturn.filled (by dsimp only; omega)
    refine ⟨s', rows.take n ++ taken, left, changed', hrun, ?_, hturn.trans happended, hend, ?_⟩
    · rw [append_assoc, ← hsplit, take_append_drop]
    · exact fun _ => by simp [htaken]

theorem SegmentEntry.appendBlocks_spec (inputs : List (List ρ)) (changed : List Nat)
    (hs : s.Sound cap txnId c) (hf : s.Filled cap) :
    ∃ s' taken left changed', s.appendBlocks cap txnId c inputs changed = .ok (s', left, changed') ∧
      inputs.flatten = taken ++ left.flatten ∧ s.Appended cap txnId c s' taken changed changed' ∧
      (s.rowCount < cap.segment → inputs.flatten ≠ [] → taken ≠ []) := by
  induction inputs generalizing s changed with
  | nil => exact ⟨s, [], [], changed, rfl, rfl, .refl changed hs hf, fun _ h => absurd rfl h⟩
  | cons input inputs ih =>
    simp only [appendBlocks, hf.capacity]
    split
    · rename_i hroom
      obtain ⟨s', taken, left, changed', hrun, hsplit, happended, hend, htaken⟩ :=
        appendRows_spec changed le_rfl hs hf hroom
      rw [hrun]
      cases left with
      | nil =>
        obtain ⟨s'', taken', left', changed'', hrun', hsplit', happended', htaken'⟩ :=
          ih changed' happended.sound happended.filled
        refine ⟨s'', taken ++ taken', left', changed'', hrun', ?_, happended.trans happended', ?_⟩
        · rw [flatten_cons, hsplit, hsplit', append_nil, append_assoc]
        · intro _ hne hnil
          obtain ⟨h1, h2⟩ := append_eq_nil_iff.mp hnil
          subst h1 hsplit
          have hcount := happended.rowCount
          exact htaken' (by rwa [hcount]) (by simpa using hne) h2
      | cons row rest =>
        refine ⟨s', taken, (row :: rest) :: inputs, changed', rfl, ?_, happended, ?_⟩
        · rw [flatten_cons, flatten_cons, hsplit, append_assoc]
        · exact fun _ _ => htaken (by simp [hsplit])
    · rename_i hfull
      exact ⟨s, [], input :: inputs, changed, rfl, rfl, .refl changed hs hf, fun h => absurd h hfull⟩

theorem SegmentEntry.appendData_spec {inputs : List (List ρ)} (hs : s.Sound cap txnId c)
    (hf : s.Filled cap) (hroom : s.rowCount < cap.segment) (hne : inputs.flatten ≠ []) :
    ∃ s' taken left changed, s.appendData cap txnId c inputs = .ok (s', left, changed) ∧ taken ≠ [] ∧
      inputs.flatten = taken ++ left.flatten ∧ s.Appended cap txnId c s' taken [] changed := by
  obtain ⟨s', taken, left, changed, hrun, hsplit, happended, htaken⟩ := appendBlocks_spec inputs [] hs hf
  refine ⟨s', taken, left, changed, ?_, htaken hroom hne, hsplit, happended⟩
  have hcap := hf.capacity
  rwa [appendData, if_neg (by simp [hf.status]), if_neg (by omega)]

/-! ### Tables -/

structure TableEntry.Sound (cap : Capacity) (txnId c : Nat) (t : TableEntry ρ) : Prop where
  ids : ∀ id s, t.segmentMap id = some s → s.segmentId = id ∧ id < t.nextSegmentId
  segments : ∀ id s, t.segmentMap id = some s → s.Sound cap txnId c
  unsealed : ∀ id s, t.unsealedId = some id → t.segmentMap id = some s → s.Filled cap

/-- What is not committed yet was touched. -/
structure TableEntry.Pending (t : TableEntry ρ) (touched : List (Nat × Nat)) : Prop where
  segments : ∀ id s, t.segmentMap id = some s → s.commitTs = none → s.status ≠ .deprecated ∧ ∃ i, (id, i) ∈ touched
  blocks : ∀ id s, t.segmentMap id = some s → ∀ (i : Nat) b, s.blocks[i]? = some b → b.Open →
    s.status ≠ .deprecated ∧ (id, i) ∈ touched

theorem SegmentEntry.Filled.count_view (hf : s.Filled cap) (deletes : Bool) :
    (s.view c deletes).count = s.rowCount := by
  rw [hf.rowCount]
  simp [SegmentEntry.view, SegmentView.count, BlockEntry.view, Function.comp_def]

theorem SegmentEntry.new_sound (id : Nat) : (SegmentEntry.new id cap.segment : SegmentEntry ρ).Sound cap txnId c :=
  ⟨by simp [SegmentEntry.new], Nat.le_refl _, Nat.zero_le _⟩

theorem SegmentEntry.new_filled (id : Nat) : (SegmentEntry.new id cap.segment : SegmentEntry ρ).Filled cap :=
  ⟨rfl, rfl, rfl, by simp [SegmentEntry.new], Nat.zero_le _⟩

variable {t : TableEntry ρ}

theorem TableEntry.Sound.fresh (h : t.Sound cap txnId c) (ids : List Nat) : (t.view c ids).Fresh := by
  intro id hid
  cases hs : t.segmentMap id with
  | none => simp [TableEntry.view, hs]
  | some s =>
    have hlt := (h.ids id s hs).2
    have hle : t.nextSegmentId ≤ id := hid
    omega

/-- The segment to append to: one of the table that is not full, or a new one. -/
structure TableEntry.Unsealed (cap : Capacity) (txnId c : Nat) (t t' : TableEntry ρ) (s : SegmentEntry ρ) : Prop where
  sound : s.Sound cap txnId c
  filled : s.Filled cap
  room : s.rowCount < cap.segment
  target : (t.view c []).target cap c = (t'.view c [], s.segmentId, s.view c false)
  segmentMap : t'.segmentMap = t.segmentMap
  unsealedId : t'.unsealedId = some s.segmentId
  next : t.nextSegmentId ≤ t'.nextSegmentId ∧ s.segmentId < t'.nextSegmentId
  old : t.segmentMap s.segmentId = some s ∨ (t.segmentMap s.segmentId = none ∧ s.blocks = [])

theorem TableEntry.Unsealed.open (h : t.Sound cap txnId c) (htarget : (t.view c []).target cap c =
      ({t.view c [] with nextId := t.nextSegmentId + 1, unsealed := some t.nextSegmentId}, t.nextSegmentId, .new c)) :
    t.Unsealed cap txnId c (t.openSegment cap).1 (t.openSegment cap).2 where
  sound := SegmentEntry.new_sound _
  filled := SegmentEntry.new_filled _
  room := cap.segment_pos
  target := htarget
  segmentMap := rfl
  unsealedId := rfl
  next := ⟨Nat.le_succ _, Nat.lt_succ_self _⟩
  old := by
    right
    refine ⟨?_, rfl⟩
    have hfresh := h.fresh [] t.nextSegmentId le_rfl
    show t.segmentMap t.nextSegmentId = none
    simpa [TableEntry.view] using hfresh

/-- The segments noted as full are no longer the unsealed one. -/
def TableEntry.Left (t : TableEntry ρ) (full : List Nat) : Prop :=
  ∀ id ∈ full, id < t.nextSegmentId ∧ t.unsealedId ≠ some id

theorem TableEntry.Left.open (cap : Capacity) {full : List Nat} (h : ∀ id ∈ full, id < t.nextSegmentId) :
    (t.openSegment cap).1.Left full := by
  intro id hid
  have hlt := h id hid
  refine ⟨Nat.lt_succ_of_lt hlt, fun heq => ?_⟩
  cases heq
  exact lt_irrefl _ hlt

theorem TableEntry.unsealedSegment_spec (touched : Touched) (h : t.Sound cap txnId c) :
    ∃ t' s touched', t.unsealedSegment cap touched = ((t', s), touched') ∧ touched'.blocks = touched.blocks ∧
      (t.Left touched.full → t'.Left touched'.full) ∧ t.Unsealed cap txnId c t' s := by
  unfold unsealedSegment
  cases hu : t.unsealedId.bind t.segmentMap with
  | none =>
    refine ⟨_, _, touched, rfl, rfl, fun hl => Left.open cap fun id hid => (hl id hid).1, .open h ?_⟩
    have hnone : ((t.view c []).unsealed.bind fun id => ((t.view c []).segments id).map fun s => (id, s)) = none := by
      simp only [TableEntry.view]
      cases hid : t.unsealedId with
      | none => rfl
      | some id =>
        have hs : t.segmentMap id = none := by simpa [hid] using hu
        simp [hs]
    simp only [TableView.target, hnone]
    rfl
  | some s =>
    obtain ⟨id, hid, hs⟩ := Option.bind_eq_some_iff.mp hu
    have hfilled := h.unsealed id s hid hs
    obtain ⟨hsid, hlt⟩ := h.ids id s hs
    have hsome : ((t.view c []).unsealed.bind fun id => ((t.view c []).segments id).map fun s => (id, s)) =
        some (id, s.view c false) := by
      simp [TableEntry.view, hid, hs]
    simp only [hfilled.capacity]
    split
    · rename_i hfull
      refine ⟨_, _, _, rfl, rfl, fun hl => Left.open cap fun id' hid' => ?_, .open h ?_⟩
      · rcases mem_append.mp hid' with hid' | hid'
        · exact (hl id' hid').1
        · rwa [mem_singleton.mp hid', hsid]
      simp only [TableView.target, hsome, hfilled.count_view, hfull]
      rfl
    · rename_i hnot
      have hroom := hfilled.room
      refine ⟨t, s, touched, rfl, rfl, fun hl => hl, h.segments id s hs, hfilled, by omega, ?_, rfl, hsid ▸ hid,
        ⟨le_rfl, hsid ▸ hlt⟩, .inl (hsid ▸ hs)⟩
      simp only [TableView.target, hsome, hfilled.count_view, hnot, if_false, hsid]

/-- The segment is there for a transaction that deletes rows of it and commits at `c`. -/
def TableEntry.Born (c : Nat) (t : TableEntry ρ) (id : Nat) : Prop :=
  ∃ s m, t.segmentMap id = some s ∧ s.status ≠ .deprecated ∧ s.minRowTs = some m ∧ m ≤ c

/-- From `t` to `t'` the rows are appended. -/
structure TableEntry.Appended (cap : Capacity) (txnId c : Nat) (t t' : TableEntry ρ) (rows : List ρ)
    (touched touched' : Touched) : Prop where
  sound : t'.Sound cap txnId c
  view : t'.view c [] = rows.foldl (TableView.push cap c) (t.view c [])
  pending : t.Pending touched.blocks → t'.Pending touched'.blocks
  left : t.Left touched.full → t'.Left touched'.full
  born : ∀ id, t.Born c id → t'.Born c id

theorem TableEntry.Appended.refl (touched : Touched) (h : t.Sound cap txnId c) :
    t.Appended cap txnId c t [] touched touched :=
  ⟨h, rfl, fun hp => hp, fun hl => hl, fun _ hb => hb⟩

theorem TableEntry.Appended.trans {t t' t'' : TableEntry ρ} {rows rows' : List ρ}
    {touched touched' touched'' : Touched} (h : t.Appended cap txnId c t' rows touched touched')
    (h' : t'.Appended cap txnId c t'' rows' touched' touched'') :
    t.Appended cap txnId c t'' (rows ++ rows') touched touched'' where
  sound := h'.sound
  view := by rw [h'.view, h.view, foldl_append]
  pending hp := h'.pending (h.pending hp)
  left hl := h'.left (h.left hl)
  born id hb := h'.born id (h.born id hb)

theorem TableEntry.setSegment_self (t : TableEntry ρ) (s : SegmentEntry ρ) :
    (t.setSegment s).segmentMap s.segmentId = some s := by simp [setSegment]

variable {id : Nat}

theorem TableEntry.setSegment_ne (h : id ≠ s.segmentId) :
    (t.setSegment s).segmentMap id = t.segmentMap id := by simp [setSegment, h]

theorem TableEntry.setSegment_cases {s s₁ : SegmentEntry ρ} {id id' : Nat} (hid : s.segmentId = id)
    (h : (t.setSegment s).segmentMap id' = some s₁) :
    (id' = id ∧ s₁ = s) ∨ (id' ≠ id ∧ t.segmentMap id' = some s₁) := by
  subst hid
  by_cases heq : id' = s.segmentId
  · subst heq
    rw [setSegment_self] at h
    exact .inl ⟨rfl, (Option.some.inj h).symm⟩
  · rw [setSegment_ne heq] at h
    exact .inr ⟨heq, h⟩

theorem TableEntry.Sound.setSegment (h : t.Sound cap txnId c)
    (hid : s.segmentId = id) (hlt : id < t.nextSegmentId) (hs : s.Sound cap txnId c)
    (hf : t.unsealedId = some id → s.Filled cap) : (t.setSegment s).Sound cap txnId c where
  ids id' s₁ hs₁ := by
    rcases setSegment_cases hid hs₁ with ⟨rfl, rfl⟩ | ⟨_, hs₁⟩
    · exact ⟨hid, hlt⟩
    · exact h.ids id' s₁ hs₁
  segments id' s₁ hs₁ := by
    rcases setSegment_cases hid hs₁ with ⟨rfl, rfl⟩ | ⟨_, hs₁⟩
    · exact hs
    · exact h.segments id' s₁ hs₁
  unsealed id' s₁ hu hs₁ := by
    rcases setSegment_cases hid hs₁ with ⟨rfl, rfl⟩ | ⟨_, hs₁⟩
    · exact hf hu
    · exact h.unsealed id' s₁ hu hs₁

theorem TableEntry.Pending.setSegment {touched touched' : List (Nat × Nat)}
    (hp : t.Pending touched) (hsub : touched ⊆ touched') (hid : s.segmentId = id) (hst : s.status ≠ .deprecated)
    (hnew : s.commitTs = none → ∃ i, (id, i) ∈ touched')
    (hopen : ∀ (i : Nat) b, s.blocks[i]? = some b → b.Open → (id, i) ∈ touched') :
    (t.setSegment s).Pending touched' where
  segments id' s₁ hs₁ hnone := by
    rcases setSegment_cases hid hs₁ with ⟨rfl, rfl⟩ | ⟨_, hs₁⟩
    · exact ⟨hst, hnew hnone⟩
    · obtain ⟨hst, i, hi⟩ := hp.segments id' s₁ hs₁ hnone
      exact ⟨hst, i, hsub hi⟩
  blocks id' s₁ hs₁ i b hb ho := by
    rcases setSegment_cases hid hs₁ with ⟨rfl, rfl⟩ | ⟨_, hs₁⟩
    · exact ⟨hst, hopen i b hb ho⟩
    · exact (hp.blocks id' s₁ hs₁ i b hb ho).imp_right fun hi => hsub hi

theorem TableEntry.Born.setSegment {id id' : Nat} (hb : t.Born c id')
    (hid : s.segmentId = id) (hst : s.status ≠ .deprecated)
    (hold : ∀ s₀, t.segmentMap id = some s₀ → s.minRowTs = s₀.minRowTs) : (t.setSegment s).Born c id' := by
  subst hid
  obtain ⟨s₁, m, hs₁, hst₁, hm, hle⟩ := hb
  by_cases heq : id' = s.segmentId
  · subst heq
    exact ⟨s, m, setSegment_self t s, hst, (hold s₁ hs₁).trans hm, hle⟩
  · exact ⟨s₁, m, (setSegment_ne heq).trans hs₁, hst₁, hm, hle⟩

theorem TableEntry.view_setSegment (t : TableEntry ρ) (s : SegmentEntry ρ) (ids : List Nat) :
    (t.setSegment s).view c ids = (t.view c ids).set s.segmentId (s.view c (decide (s.segmentId ∈ ids))) := by
  simp only [view, TableView.set, setSegment, TableView.mk.injEq, and_true]
  funext id
  by_cases hid : id = s.segmentId
  · subst hid
    simp
  · simp [hid]

variable {t' : TableEntry ρ}

theorem TableEntry.Unsealed.table (hu : t.Unsealed cap txnId c t' s)
    (h : t.Sound cap txnId c) : t'.Sound cap txnId c where
  ids id s₁ hs₁ := by
    rw [hu.segmentMap] at hs₁
    exact ⟨(h.ids id s₁ hs₁).1, (h.ids id s₁ hs₁).2.trans_le hu.next.1⟩
  segments id s₁ hs₁ := h.segments id s₁ (hu.segmentMap ▸ hs₁)
  unsealed id s₁ hid hs₁ := by
    rw [hu.unsealedId, Option.some.injEq] at hid
    subst hid
    rw [hu.segmentMap] at hs₁
    rcases hu.old with hold | ⟨hnone, _⟩
    · rw [hold, Option.some.injEq] at hs₁
      exact hs₁ ▸ hu.filled
    · simp [hnone] at hs₁

theorem TableEntry.Unsealed.appended
    {changed : List Nat} {touched touched' : Touched} (hu : t.Unsealed cap txnId c t' s) (h : t.Sound cap txnId c)
    (ha : s.Appended cap txnId c s' rows [] changed) (hne : rows ≠ []) (hblocks : touched'.blocks = touched.blocks)
    (hleft : t.Left touched.full → t'.Left touched'.full) :
    t.Appended cap txnId c (t'.setSegment s') rows touched
      {touched' with blocks := touched'.blocks ++ changed.map fun blockId => (s'.segmentId, blockId)} := by
  have hid := ha.segmentId
  have hstatus : s'.status ≠ .deprecated := by rw [ha.filled.status]; decide
  have hmem : ∀ i ∈ changed, (s.segmentId, i) ∈ touched'.blocks ++ changed.map fun blockId => (s'.segmentId, blockId) :=
    fun i hi => mem_append_right _ (mem_map.mpr ⟨i, hi, by rw [hid]⟩)
  refine ⟨(hu.table h).setSegment hid hu.next.2 ha.sound fun _ => ha.filled, ?_, fun hp => ?_, hleft, fun id hb => ?_⟩
  · have hfit : ((t.view c []).target cap c).2.2.count + rows.length ≤ cap.segment := by
      rw [hu.target]
      rw [hu.filled.count_view, ← ha.rowCount]
      exact ha.filled.room
    rw [TableView.foldl_push hne hfit, hu.target, view_setSegment, hid]
    exact congrArg _ (ha.view false)
  · have hp' : t'.Pending touched'.blocks := by
      rw [hblocks]
      exact ⟨hu.segmentMap ▸ hp.segments, hu.segmentMap ▸ hp.blocks⟩
    refine hp'.setSegment (subset_append_left _ _) hid hstatus (fun _ => ?_) fun i b hb ho => ?_
    · obtain ⟨i, hi⟩ := exists_mem_of_ne_nil _ (ha.touched hne)
      exact ⟨i, hmem i hi⟩
    · rcases ha.fresh i b hb ho with hi | ⟨b₀, hb₀, ho₀⟩
      · exact hmem i hi
      · rcases hu.old with hold | ⟨_, hempty⟩
        · rw [hblocks]
          exact mem_append_left _ (hp.blocks _ _ hold i b₀ hb₀ ho₀).2
        · simp [hempty] at hb₀
  · have hb' : t'.Born c id := by
      obtain ⟨s₁, m, hs₁, hrest⟩ := hb
      exact ⟨s₁, m, hu.segmentMap ▸ hs₁, hrest⟩
    refine hb'.setSegment hid hstatus fun s₀ hs₀ => ?_
    rw [hu.segmentMap] at hs₀
    rcases hu.old with hold | ⟨hnone, _⟩
    · rw [hold, Option.some.injEq] at hs₀
      exact hs₀ ▸ ha.minRowTs
    · simp [hnone] at hs₀

/-- **Appending blocks of rows is pushing the rows one by one**, and it never fails. -/
theorem TableEntry.appendData_spec (inputs : List (List ρ)) (touched : Touched) (h : t.Sound cap txnId c) :
    ∃ t' touched', t.appendData cap txnId c inputs touched = .ok (t', touched') ∧
      t.Appended cap txnId c t' inputs.flatten touched touched' := by
  have hloop : ∀ turns, inputs.flatten.length ≤ turns →
      ∃ t' touched', t.appendLoop cap txnId c turns inputs touched = .ok (t', touched') ∧
        t.Appended cap txnId c t' inputs.flatten touched touched' := by
    intro turns hturns
    induction turns generalizing t inputs touched with
    | zero =>
      have hnil : inputs.flatten = [] := length_eq_zero_iff.mp (by omega)
      exact ⟨t, touched, rfl, hnil ▸ .refl _ h⟩
    | succ turns ih =>
      by_cases hne : inputs.flatten = []
      · exact ⟨t, touched, by simp only [appendLoop, hne, if_true], hne ▸ .refl _ h⟩
      obtain ⟨t₁, s, touched₁, hseg, hblocks, hleft, hu⟩ := unsealedSegment_spec touched h
      obtain ⟨s', taken, left, changed, hrun, htaken, hsplit, ha⟩ :=
        SegmentEntry.appendData_spec hu.sound hu.filled hu.room hne
      have happended := hu.appended h ha htaken hblocks hleft
      have hless : left.flatten.length ≤ turns := by
        have hlen := congrArg length hsplit
        rw [length_append] at hlen
        have := length_pos_iff.mpr htaken
        omega
      obtain ⟨t', touched', hrest, hrest'⟩ := ih left
        {touched₁ with blocks := touched₁.blocks ++ changed.map fun blockId => (s'.segmentId, blockId)}
        happended.sound hless
      refine ⟨t', touched', ?_, ?_⟩
      · simp only [appendLoop, hne, hseg, hrun]
        exact hrest
      · rw [hsplit]
        exact happended.trans hrest'
  exact hloop _ le_rfl

end Infinity.Table
