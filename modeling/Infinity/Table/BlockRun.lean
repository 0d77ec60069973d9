import Infinity.Lib.Machine
import Infinity.Table.Entries

/-! The life of one block.

Rows are appended to a block and deleted from it, an import fills it, its version is spilled
out of memory and read again, and a restart reads all of it from the full catalog or from the
delta log. Whatever the order, the version stays in step with the block (`Kept`): appends are
recorded in the order of time and of rows, and nothing in it is later than `maxRowTs`.

A restart reads the version file of the checkpoint, which has all of a version that was not in
memory then. Such a file runs ahead of the block until the log is replayed, so the version is
in step only where its files are as of their checkpoints (`FilesAsOf`). -/
namespace Infinity.Table

open Block Lib List

inductive BlockStep (ρ : Type) where
  | append (txnId commitTs : Nat) (rows : List ρ)
  | delete (txnId commitTs : Nat) (offsets : List Nat)
  | commit (txnId commitTs : Nat)
  /-- `AppendBlock`, for a block that an import or a compaction makes. -/
  | fill (rows : List ρ)
  | commitFlushed (commitTs : Nat)
  /-- The version leaves the memory and is loaded again. -/
  | spill
  /-- A checkpoint writes the block and a restart reads it from the full catalog. -/
  | loadCatalog (checkpointTs : Nat) (evicted : Bool)
  /-- The same from the delta log, with the counts as of the last commit. -/
  | loadDelta (checkpointTs : Nat) (evicted : Bool)

namespace BlockEntry

variable {ρ : Type}

def commitFlushed (b : BlockEntry ρ) (commitTs : Nat) : BlockEntry ρ :=
  {b with version := b.version.append commitTs b.rows.length, minRowTs := commitTs, maxRowTs := commitTs}

def withVersion (b : BlockEntry ρ) (file : List UInt8) : Except (Option TableFault) (BlockEntry ρ) :=
  match BlockVersion.loadFromFile file with
  | none => .error none
  | some version => .ok {b with version}

/-- `Serialize` and `Deserialize`: the rows and timestamps are cut at the checkpoint too. -/
def loadCatalog (b : BlockEntry ρ) (checkpointTs : Nat) (evicted : Bool) : Except (Option TableFault) (BlockEntry ρ) :=
  {b with
    rows := b.rows.take (b.version.getRowCount checkpointTs)
    minRowTs := min b.minRowTs checkpointTs
    maxRowTs := min b.maxRowTs checkpointTs
    usingTxnId := 0}.withVersion (b.version.checkpointFile checkpointTs evicted)

/-- A step. `none` is a version file that cannot be read. -/
def step (b : BlockEntry ρ) : BlockStep ρ → Except (Option TableFault) (BlockEntry ρ)
  | .append txnId commitTs rows => ((b.appendData txnId commitTs rows).mapError some).map Prod.fst
  | .delete txnId commitTs offsets => (b.deleteData txnId commitTs offsets).mapError some
  | .commit txnId commitTs => (b.commitBlock txnId commitTs).mapError some
  | .fill rows => .ok {b with rows := b.rows ++ rows}
  | .commitFlushed commitTs => .ok (b.commitFlushed commitTs)
  | .spill => b.withVersion b.version.spillToFile
  | .loadCatalog checkpointTs evicted => b.loadCatalog checkpointTs evicted
  | .loadDelta checkpointTs evicted =>
    {b with usingTxnId := 0}.withVersion (b.version.checkpointFile checkpointTs evicted)

/-- What the callers see to: rows are appended to a block with room for one, a block is filled
while it is new, and timestamps have 64 bits. -/
def Enabled (b : BlockEntry ρ) : BlockStep ρ → Prop
  | .append _ commitTs rows => rows ≠ [] ∧ b.rows.length < b.rowCapacity ∧ commitTs < 2 ^ 64
  | .delete _ commitTs _ => commitTs < 2 ^ 64
  | .fill rows => b.version = .new b.rowCapacity ∧ b.rows.length + rows.length ≤ b.rowCapacity
  | .commitFlushed commitTs => b.version = .new b.rowCapacity ∧ commitTs < 2 ^ 64
  | _ => True

instance (b : BlockEntry ρ) : (a : BlockStep ρ) → Decidable (b.Enabled a)
  | .append .. => inferInstanceAs (Decidable (_ ∧ _ ∧ _))
  | .delete .. => inferInstanceAs (Decidable (_ < _))
  | .fill .. => inferInstanceAs (Decidable (_ ∧ _))
  | .commitFlushed .. => inferInstanceAs (Decidable (_ ∧ _))
  | .commit .. | .spill | .loadCatalog .. | .loadDelta .. => inferInstanceAs (Decidable True)

def machine (ρ : Type) : Machine (BlockEntry ρ) (BlockStep ρ) (Option TableFault) := ⟨Enabled, step⟩

instance (b : BlockEntry ρ) (a : BlockStep ρ) : Decidable ((machine ρ).enabled b a) :=
  inferInstanceAs (Decidable (b.Enabled a))

/-- A version file is written from memory, or nothing in the version is after the checkpoint. -/
def FilesAsOf (b : BlockEntry ρ) : BlockStep ρ → Prop
  | .loadCatalog checkpointTs evicted | .loadDelta checkpointTs evicted =>
    evicted = true → b.version.Bounded checkpointTs
  | _ => True

instance (b : BlockEntry ρ) : (a : BlockStep ρ) → Decidable (b.FilesAsOf a)
  | .loadCatalog .. | .loadDelta .. => inferInstanceAs (Decidable (_ → _))
  | .append .. | .delete .. | .commit .. | .fill .. | .commitFlushed .. | .spill => inferInstanceAs (Decidable True)

/-- A block of the default capacity. -/
def start : BlockEntry ρ := .new defaultCapacity.block

structure Kept (b : BlockEntry ρ) : Prop where
  capacity : b.rowCapacity = defaultCapacity.block
  fits : b.rows.length ≤ b.rowCapacity
  sorted : b.version.created.Pairwise fun f g => f.createTs ≤ g.createTs ∧ f.rowCount < g.rowCount
  created : ∀ f ∈ b.version.created, f.createTs ≤ b.maxRowTs ∧ f.createTs < 2 ^ 64 ∧ f.rowCount ≤ b.rows.length
  deleted : b.version.deleted.length = b.rowCapacity
  stamps : ∀ ts ∈ b.version.deleted, ts ≤ b.maxRowTs ∧ ts < 2 ^ 64

/-! ### Kept by every step -/

variable {b b' : BlockEntry ρ}

theorem Kept.byTime (h : b.Kept) : b.version.created.Pairwise fun f g => f.createTs ≤ g.createTs :=
  h.sorted.imp And.left

theorem Kept.representable (h : b.Kept) : b.version.Representable := by
  have hcap : b.rowCapacity = 8192 := h.capacity
  have hfits := h.fits
  -- every append ends at a row of its own
  have hnodup : (b.version.created.map CreateField.rowCount).Nodup :=
    pairwise_map.mpr (h.sorted.imp fun hlt => ne_of_lt hlt.2)
  have hsub : b.version.created.map CreateField.rowCount ⊆ range (8192 + 1) := by
    intro n hn
    obtain ⟨f, hf, rfl⟩ := mem_map.mp hn
    have := (h.created f hf).2.2
    exact mem_range.mpr (by omega)
  have hlen := (subperm_of_subset hnodup hsub).length_le
  rw [length_map, length_range] at hlen
  refine ⟨by omega, by rw [h.deleted]; omega, fun f hf => ?_, fun ts hts => (h.stamps ts hts).2⟩
  have := h.created f hf
  exact ⟨this.2.1, by omega⟩

theorem kept_start : (start : BlockEntry ρ).Kept where
  capacity := rfl
  fits := Nat.zero_le _
  sorted := .nil
  created := by simp [start, new, BlockVersion.new]
  deleted := by simp [start, new, BlockVersion.new]
  stamps := by simp [start, new, BlockVersion.new]

theorem Kept.append (h : b.Kept) (commitTs : Nat) (rows : List ρ) (hts : b.maxRowTs ≤ commitTs) (hlt : commitTs < 2 ^ 64)
    (hroom : b.rows.length + rows.length ≤ b.rowCapacity) (hnew : rows ≠ [] ∨ b.version.created = [])
    (txnId minRowTs : Nat) :
    Kept {b with
      rows := b.rows ++ rows
      version := b.version.append commitTs (b.rows.length + rows.length)
      minRowTs
      maxRowTs := commitTs
      usingTxnId := txnId} where
  capacity := h.capacity
  fits := by simpa using hroom
  sorted := by
    refine pairwise_append.mpr ⟨h.sorted, pairwise_singleton _ _, fun f hf g hg => ?_⟩
    rw [mem_singleton.mp hg]
    have := h.created f hf
    rcases hnew with hne | hnil
    · have := length_pos_iff.mpr hne
      dsimp only
      omega
    · simp [hnil] at hf
  created := by
    intro f hf
    rw [length_append]
    rcases mem_append.mp hf with hf | hf
    · have := h.created f hf
      dsimp only
      omega
    rw [mem_singleton.mp hf]
    exact ⟨le_rfl, hlt, le_rfl⟩
  deleted := h.deleted
  stamps ts hmem := ⟨(h.stamps ts hmem).1.trans hts, (h.stamps ts hmem).2⟩

theorem Kept.upTo (h : b.Kept) {c : Nat} {rows : List ρ} {maxRowTs : Nat} (hmax : min b.maxRowTs c ≤ maxRowTs)
    (hrows : rows.length ≤ b.rowCapacity) (hcount : ∀ f ∈ b.version.created, f.createTs ≤ c → f.rowCount ≤ rows.length)
    (minRowTs : Nat) :
    Kept {b with rows, version := b.version.upTo c, minRowTs, maxRowTs, usingTxnId := 0} where
  capacity := h.capacity
  fits := hrows
  sorted := h.sorted.filter _
  created f hf := by
    obtain ⟨hf, hle⟩ := mem_filter.mp hf
    have hle := of_decide_eq_true hle
    have := h.created f hf
    exact ⟨(Nat.le_min.mpr ⟨this.1, hle⟩).trans hmax, this.2.1, hcount f hf hle⟩
  deleted := (length_map _).trans h.deleted
  stamps ts hts := by
    obtain ⟨old, hold, rfl⟩ := mem_map.mp hts
    have := h.stamps old hold
    dsimp only
    split <;> omega

theorem Kept.le_getRowCount (h : b.Kept) {c : Nat} {f : CreateField} (hf : f ∈ b.version.created) (hle : f.createTs ≤ c) :
    f.rowCount ≤ b.version.getRowCount c := by
  rw [BlockVersion.getRowCount_eq h.byTime]
  have hmem : f ∈ b.version.created.filter fun f => decide (f.createTs ≤ c) := mem_filter.mpr ⟨hf, decide_eq_true hle⟩
  have hsorted := h.sorted.filter fun f => decide (f.createTs ≤ c)
  rcases eq_nil_or_concat (b.version.created.filter fun f => decide (f.createTs ≤ c)) with hnil | ⟨front, last, heq⟩
  · simp [hnil] at hmem
  rw [concat_eq_append] at heq
  rw [heq] at hmem hsorted
  rw [heq, getLast?_concat]
  rcases mem_append.mp hmem with hmem | hmem
  · exact le_of_lt ((pairwise_append.mp hsorted).2.2 f hmem last (by simp)).2
  · rw [mem_singleton.mp hmem]
    exact le_rfl

theorem Kept.getRowCount_le (h : b.Kept) (ts : Nat) : b.version.getRowCount ts ≤ b.rows.length := by
  unfold BlockVersion.getRowCount
  split
  · exact Nat.zero_le _
  · rename_i f hf
    exact (h.created f ((List.takeWhile_prefix _).subset (mem_of_getLast? hf))).2.2

theorem Kept.loadCatalog (h : b.Kept) (c : Nat) (evicted : Bool) : b.loadCatalog c evicted = .ok {b with
    rows := b.rows.take (b.version.getRowCount c)
    version := b.version.savedAt c evicted
    minRowTs := min b.minRowTs c
    maxRowTs := min b.maxRowTs c
    usingTxnId := 0} := by
  simp only [BlockEntry.loadCatalog, withVersion, BlockVersion.loadFromFile_checkpointFile h.representable h.byTime]

theorem Kept.step {a : BlockStep ρ} (h : b.Kept) (he : b.Enabled a) (hf : b.FilesAsOf a) (hs : b.step a = .ok b') :
    b'.Kept := by
  cases a with
  | append txnId commitTs rows =>
    simp only [BlockEntry.step, appendData] at hs
    split at hs
    · cases hs
    generalize hn : (if b.rows.length + rows.length > b.rowCapacity then b.rowCapacity - b.rows.length
      else rows.length) = n at hs
    split at hs
    · cases hs
    cases hs
    obtain ⟨hne, hroom, hlt⟩ := he
    have hpos := length_pos_iff.mpr hne
    have hlen : (rows.take n).length = n := by
      rw [length_take]
      split at hn <;> omega
    have := h.append commitTs (rows.take n) (by omega) hlt
      (by rw [hlen]; split at hn <;> omega)
      (.inl fun hnil => by rw [hnil] at hlen; simp only [length_nil] at hlen; split at hn <;> omega)
      txnId commitTs
    rwa [hlen] at this
  | delete txnId commitTs offsets =>
    simp only [BlockEntry.step, deleteData] at hs
    split at hs
    · cases hs
    split at hs
    · cases hs
    rename_i v hdel
    split at hs
    · cases hs
    cases hs
    have hm := BlockVersion.deleteRows_marked hdel
    refine ⟨h.capacity, h.fits, hm.created ▸ h.sorted, fun f hf => ?_, hm.length.trans h.deleted, fun ts hts => ?_⟩
    · have := h.created f (hm.created ▸ hf)
      dsimp only
      omega
    · have hlt : commitTs < 2 ^ 64 := he
      rcases hm.mem hts with hold | rfl
      · have := h.stamps ts hold
        dsimp only
        omega
      · exact ⟨le_rfl, hlt⟩
  | commit txnId commitTs =>
    simp only [BlockEntry.step, commitBlock] at hs
    split at hs
    · cases hs
    split at hs
    · cases hs
    cases hs
    have hmax : b.maxRowTs ≤ if b.maxRowTs = 0 then commitTs else b.maxRowTs := by split <;> omega
    exact ⟨h.capacity, h.fits, h.sorted, fun f hf => ⟨(h.created f hf).1.trans hmax, (h.created f hf).2⟩, h.deleted,
      fun ts hts => ⟨(h.stamps ts hts).1.trans hmax, (h.stamps ts hts).2⟩⟩
  | fill rows =>
    cases hs
    obtain ⟨hnew, hroom⟩ := he
    refine ⟨h.capacity, by simpa using hroom, h.sorted, ?_, h.deleted, h.stamps⟩
    simp [hnew, BlockVersion.new]
  | commitFlushed commitTs =>
    cases hs
    obtain ⟨hnew, hlt⟩ := he
    have hzero : ∀ ts ∈ b.version.deleted, ts = 0 := by simp [hnew, BlockVersion.new]
    have h₀ : Kept {b with maxRowTs := 0} :=
      ⟨h.capacity, h.fits, h.sorted, by simp [hnew, BlockVersion.new], h.deleted, fun ts hts => by simp [hzero ts hts]⟩
    have := h₀.append commitTs [] (Nat.zero_le _) hlt (by simpa using h.fits)
      (.inr (by simp [hnew, BlockVersion.new])) b.usingTxnId commitTs
    simpa [commitFlushed] using this
  | spill =>
    simp only [BlockEntry.step, withVersion, BlockVersion.loadFromFile_spillToFile h.representable] at hs
    cases hs
    exact ⟨h.capacity, h.fits, h.sorted, h.created, h.deleted, h.stamps⟩
  | loadCatalog c evicted =>
    simp only [BlockEntry.step, h.loadCatalog, BlockVersion.savedAt_eq_upTo hf] at hs
    cases hs
    have hle := h.getRowCount_le c
    have hlen : (b.rows.take (b.version.getRowCount c)).length = b.version.getRowCount c := by
      rw [length_take]
      omega
    exact h.upTo le_rfl (by have := h.fits; omega)
      (fun f hf hfc => by rw [hlen]; exact h.le_getRowCount hf hfc) _
  | loadDelta c evicted =>
    simp only [BlockEntry.step, withVersion, BlockVersion.loadFromFile_checkpointFile h.representable h.byTime,
      BlockVersion.savedAt_eq_upTo hf] at hs
    cases hs
    exact h.upTo (min_le_left _ _) h.fits (fun f hf _ => (h.created f hf).2.2) _

theorem Kept.run {as : List (BlockStep ρ)} (h : ((machine ρ).restrict FilesAsOf).Run start as b) : b.Kept := by
  refine h.invariant (fun _ _ _ hk he hs => ?_) kept_start
  exact hk.step he.1 he.2 hs

end BlockEntry

end Infinity.Table
