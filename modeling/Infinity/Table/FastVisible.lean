import Infinity.Lib.Machine
import Infinity.Table.BlockRun

/-! Visible rows in bulk.

`CheckRowVisible` asks for one row. The bulk checks go over the deletes of a segment only when
there are any at the time, and they know that from `firstDeleteTs`. So they agree with the
check of one row as long as no delete is earlier than `firstDeleteTs`, after commits and after
every way in which a segment gets back into memory. The operations of the delta log are made by
the commits and the version files by the checkpoint, which may come after later commits. -/
namespace Infinity.Table

open Block Lib List

variable {ρ : Type}

/-! ### The bulk checks -/

def BlockEntry.committedBy (b : BlockEntry ρ) (checkTs : Nat) : Bool := b.commitTs.any fun ts => decide (ts ≤ checkTs)

/-- `CheckRowsVisible` of a block on a list of offsets in the segment. -/
def BlockEntry.checkOffsetsVisible (b : BlockEntry ρ) (capacity checkTs : Nat) (offsets : List Nat) : List Nat :=
  if b.committedBy checkTs then offsets.filter fun o => !b.version.checkDelete (o % capacity) checkTs else offsets

/-- `CheckRowsVisible` of a block on a bitmask. -/
def BlockEntry.checkBitmaskVisible (b : BlockEntry ρ) (capacity checkTs blockId : Nat) (bitmask : Nat → Bool) : Nat → Bool :=
  if b.committedBy checkTs then
    (List.range (b.version.getRowCount checkTs)).foldl (fun m off =>
      if b.version.checkDelete off checkTs then Function.update m (blockId * capacity + off) false else m) bitmask
  else bitmask

namespace SegmentEntry

/-- On a list of offsets: they are sorted into their blocks, and put together in block order. -/
def checkOffsetsVisible (s : SegmentEntry ρ) (capacity checkTs : Nat) (offsets : List Nat) : List Nat :=
  if s.checkAnyDelete checkTs then
    ((offsets.map (· / capacity)).dedup.mergeSort).flatMap fun blockId =>
      match s.blocks[blockId]? with
      | none => []
      | some b =>
        if b.committedBy checkTs then b.checkOffsetsVisible capacity checkTs (offsets.filter (· / capacity == blockId))
        else []
  else offsets

def checkBitmaskVisible (s : SegmentEntry ρ) (capacity checkTs : Nat) (bitmask : Nat → Bool) : Nat → Bool :=
  if s.checkAnyDelete checkTs then
    s.blocks.zipIdx.foldl (fun m e => e.1.checkBitmaskVisible capacity checkTs e.2 m) bitmask
  else bitmask

/-- `row_count(check_ts)`. -/
def rowCountAt (s : SegmentEntry ρ) (checkTs : Nat) : Nat :=
  if s.status = .deprecated ∧ s.deprecateTs.any (fun ts => decide (ts < checkTs)) then 0
  else if s.status = .sealed then s.rowCount
  else (s.blocks.map fun b =>
    if b.maxRowTs ≤ checkTs then b.rows.length else b.version.getRowCount checkTs).sum

end SegmentEntry

/-! ### The life of a segment -/

/-- A block as a restart reads it after a checkpoint. -/
def BlockEntry.savedAt (b : BlockEntry ρ) (checkpointTs : Nat) (evicted : Bool) : BlockEntry ρ :=
  {b with version := b.version.savedAt checkpointTs evicted, usingTxnId := 0}

namespace SegmentEntry

/-- Append, delete and commit by one transaction. -/
def commitTxn (cap : Capacity) (txnId commitTs : Nat) (inputs : List (List ρ)) (deletes : List (Nat × List Nat))
    (s : SegmentEntry ρ) : Except TableFault (SegmentEntry ρ) :=
  match if inputs.flatten = [] then .ok (s, [], []) else s.appendData cap txnId commitTs inputs with
  | .error fault => .error fault
  | .ok (s, _, changed) =>
    match s.deleteData txnId commitTs deletes with
    | .error fault => .error fault
    | .ok s => s.commitSegment txnId commitTs (changed ++ deletes.map Prod.fst) !deletes.isEmpty

def getSaveStatus (s : SegmentEntry ρ) (ts : Nat) : SegmentStatus :=
  match s.status with
  | .unsealed => .unsealed
  | .deprecated => if s.deprecateTs.any fun d => decide (d ≤ ts) then .deprecated else .sealed
  | _ => .sealed

/-- `Serialize` and `Deserialize`, with the versions of the blocks `evicted` not in memory. The time
of the deprecation is not written. -/
def loadCatalog (s : SegmentEntry ρ) (ts : Nat) (evicted : List Nat) : SegmentEntry ρ :=
  let blocks := (s.blocks.zipIdx.filter fun e => e.1.committedBy ts).map fun e =>
    {e.1.savedAt ts (evicted.contains e.2) with
      rows := e.1.rows.take (e.1.version.getRowCount ts)
      minRowTs := min e.1.minRowTs ts
      maxRowTs := min e.1.maxRowTs ts}
  {s with
    status := s.getSaveStatus ts
    blocks
    rowCount := (blocks.map fun b => b.rows.length).sum
    maxRowTs := min s.maxRowTs ts
    deprecateTs := none}

/-- `AddSegmentReplay` and `AddBlockReplay` (`kNew`): an entry commits when its operation does. -/
def loadNew (s : SegmentEntry ρ) (ts : Nat) : SegmentEntry ρ :=
  {s with
    status := s.getSaveStatus ts
    blocks := s.blocks.map fun b => {b.savedAt ts false with commitTs := some b.maxRowTs}
    commitTs := some s.maxRowTs}

/-- `UpdateSegmentReplay` on the entry `old` (`kUpdate`), with its blocks updated or new. The first
delete is not among what is updated. -/
def loadUpdate (old s : SegmentEntry ρ) (ts : Nat) : SegmentEntry ρ :=
  {old with
    status := s.getSaveStatus ts
    rowCount := s.rowCount
    actualRowCount := s.actualRowCount
    minRowTs := s.minRowTs
    maxRowTs := s.maxRowTs
    deprecateTs := s.deprecateTs
    blocks := s.blocks.zipIdx.map fun e =>
      {e.1.savedAt ts false with commitTs := (old.blocks[e.2]?.map BlockEntry.commitTs).getD (some e.1.maxRowTs)}}

/-- The version files of the segment `live` for the entry `saved`. -/
def flush (saved live : SegmentEntry ρ) (ts : Nat) (evicted : List Nat) : SegmentEntry ρ :=
  {saved with blocks := saved.blocks.zipIdx.map fun e =>
    match live.blocks[e.2]? with
    | none => e.1
    | some b => {e.1 with version := b.version.savedAt ts (evicted.contains e.2)}}

end SegmentEntry

/-- The segment in memory, and the one that a restart would read. -/
structure StoredSegment (ρ : Type) where
  live : SegmentEntry ρ
  saved : SegmentEntry ρ

inductive SegmentStep (ρ : Type) where
  | commit (txnId commitTs : Nat) (inputs : List (List ρ)) (deletes : List (Nat × List Nat))
  | setSealed
  | saveCatalog (checkpointTs : Nat) (evicted : List Nat)
  | saveNew (checkpointTs : Nat)
  | saveUpdate (checkpointTs : Nat)
  | flush (checkpointTs : Nat) (evicted : List Nat)
  | reload

namespace StoredSegment

def step (cap : Capacity) (t : StoredSegment ρ) : SegmentStep ρ → Except TableFault (StoredSegment ρ)
  | .commit txnId commitTs inputs deletes =>
    (t.live.commitTxn cap txnId commitTs inputs deletes).map fun s => {t with live := s}
  | .setSealed => .ok {t with live := {t.live with status := .sealed}}
  | .saveCatalog ts evicted => .ok {t with saved := t.live.loadCatalog ts evicted}
  | .saveNew ts => .ok {t with saved := t.live.loadNew ts}
  | .saveUpdate ts => .ok {t with saved := t.saved.loadUpdate t.live ts}
  | .flush ts evicted => .ok {t with saved := t.saved.flush t.live ts evicted}
  | .reload => .ok {t with live := t.saved}

/-- Commits come in their order, also those that are replayed after a restart, and a deprecated
segment refuses deletes (`CheckDeleteConflict`). -/
def Enabled (t : StoredSegment ρ) : SegmentStep ρ → Prop
  | .commit _ commitTs _ deletes => deletes ≠ [] →
      t.live.status ≠ .deprecated ∧ t.live.firstDeleteTs.all (fun f => decide (f ≤ commitTs)) = true
  | _ => True

def machine (ρ : Type) (cap : Capacity) : Machine (StoredSegment ρ) (SegmentStep ρ) TableFault := ⟨Enabled, step cap⟩

instance (cap : Capacity) (t : StoredSegment ρ) : (a : SegmentStep ρ) → Decidable ((machine ρ cap).enabled t a)
  | .commit .. => inferInstanceAs (Decidable (_ → _ ∧ _))
  | .setSealed | .saveCatalog .. | .saveNew .. | .saveUpdate .. | .flush .. | .reload => inferInstanceAs (Decidable True)

/-- An update finds the first delete in the entry it updates. Version files are written for an entry
that has the first delete up to the checkpoint, and nothing in a version that is not in memory is
after the checkpoint. -/
def KeepsFirstDelete (t : StoredSegment ρ) : SegmentStep ρ → Prop
  | .saveUpdate _ => t.saved.firstDeleteTs = t.live.firstDeleteTs
  | .flush ts evicted => (∀ f ∈ t.live.firstDeleteTs, f ≤ ts → f ∈ t.saved.firstDeleteTs) ∧
      ∀ e ∈ t.live.blocks.zipIdx, evicted.contains e.2 = true → e.1.version.Bounded ts
  | _ => True

instance (t : StoredSegment ρ) : (a : SegmentStep ρ) → Decidable (KeepsFirstDelete t a)
  | .saveUpdate _ => inferInstanceAs (Decidable (_ = _))
  | .flush .. => inferInstanceAs (Decidable (_ ∧ _))
  | .commit .. | .setSealed | .saveCatalog .. | .saveNew .. | .reload => inferInstanceAs (Decidable True)

def start (cap : Capacity) (segmentId : Nat) : StoredSegment ρ :=
  ⟨.new segmentId cap.segment, .new segmentId cap.segment⟩

end StoredSegment

/-! ### No delete is before the first -/

/-- The deletes of a block are not before `first`. -/
def BlockEntry.After (cap : Capacity) (first : Option Nat) (b : BlockEntry ρ) : Prop :=
  b.version.deleted.length = cap.block ∧ ∀ ts ∈ b.version.deleted, ts ≠ 0 → ∃ f ∈ first, f ≤ ts

namespace SegmentEntry

variable {cap : Capacity} {txnId c : Nat} {s s' : SegmentEntry ρ} {P : BlockEntry ρ → Prop}

/-- What holds of new blocks and is kept by an append to a block is kept by an append. -/
theorem appendRows_forall (hnew : P (.new cap.block))
    (happ : ∀ b b' rows n, P b → b.appendData txnId c rows = .ok (b', n) → P b')
    {turns : Nat} {rows left : List ρ} {changed changed' : List Nat}
    (h : s.appendRows cap txnId c turns rows changed = .ok (s', left, changed')) (hs : ∀ b ∈ s.blocks, P b) :
    (∀ b ∈ s'.blocks, P b) ∧ s'.firstDeleteTs = s.firstDeleteTs ∧ s'.status = s.status := by
  induction turns generalizing s rows changed with
  | zero =>
    cases h
    exact ⟨hs, rfl, rfl⟩
  | succ turns ih =>
    simp only [appendRows] at h
    split at h
    · cases h
      exact ⟨hs, rfl, rfl⟩
    have hlast : (∀ b ∈ (s.lastBlock cap.block).1, P b) ∧ P (s.lastBlock cap.block).2 := by
      unfold lastBlock
      split
      · exact ⟨hs, hnew⟩
      rename_i b hb
      split
      · exact ⟨hs, hnew⟩
      · exact ⟨fun b hb => hs b (dropLast_subset _ hb), hs b (mem_of_getLast? hb)⟩
    split at h
    · cases h
    rename_i last n hone
    have hnext : ∀ b ∈ (s.lastBlock cap.block).1 ++ [last], P b := by
      intro b hb
      rcases mem_append.mp hb with hb | hb
      · exact hlast.1 b hb
      · exact mem_singleton.mp hb ▸ happ _ _ _ _ hlast.2 hone
    split at h
    · cases h
      exact ⟨hnext, rfl, rfl⟩
    split at h
    · cases h
    · have hrest := ih h hnext
      exact hrest

theorem appendBlocks_forall (hnew : P (.new cap.block))
    (happ : ∀ b b' rows n, P b → b.appendData txnId c rows = .ok (b', n) → P b')
    {inputs left : List (List ρ)} {changed changed' : List Nat}
    (h : s.appendBlocks cap txnId c inputs changed = .ok (s', left, changed')) (hs : ∀ b ∈ s.blocks, P b) :
    (∀ b ∈ s'.blocks, P b) ∧ s'.firstDeleteTs = s.firstDeleteTs ∧ s'.status = s.status := by
  induction inputs generalizing s changed with
  | nil =>
    cases h
    exact ⟨hs, rfl, rfl⟩
  | cons input inputs ih =>
    simp only [appendBlocks] at h
    split at h
    · split at h
      · cases h
      · rename_i hrows
        obtain ⟨hP, hfirst, hstatus⟩ := appendRows_forall hnew happ hrows hs
        rw [← hfirst, ← hstatus]
        exact ih h hP
      · rename_i hrows
        cases h
        exact appendRows_forall hnew happ hrows hs
    · cases h
      exact ⟨hs, rfl, rfl⟩

theorem set_forall {blocks : List (BlockEntry ρ)} (h : ∀ b ∈ blocks, P b) {b : BlockEntry ρ} (hb : P b) (i : Nat) :
    ∀ x ∈ blocks.set i b, P x := fun _ hx => (mem_or_eq_of_mem_set hx).elim (h _) (· ▸ hb)

theorem deleteBlocks_forall (hdel : ∀ b b' offsets, P b → b.deleteData txnId c offsets = .ok b' → P b')
    {rows : List (Nat × List Nat)} {n : Nat} (h : s.deleteBlocks txnId c rows = .ok (s', n)) (hs : ∀ b ∈ s.blocks, P b) :
    (∀ b ∈ s'.blocks, P b) ∧ s'.firstDeleteTs = s.firstDeleteTs ∧ s'.status = s.status := by
  induction rows generalizing s n with
  | nil =>
    cases h
    exact ⟨hs, rfl, rfl⟩
  | cons row rows ih =>
    simp only [deleteBlocks] at h
    split at h
    · cases h
    rename_i b hb
    split at h
    · cases h
    rename_i b' hone
    split at h
    · cases h
    split at h
    · cases h
    rename_i hrest
    cases h
    have := ih hrest (set_forall hs (hdel _ _ _ (hs b (mem_of_getElem? hb)) hone) _)
    exact this

theorem commitBlocks_forall (hcommit : ∀ b b', P b → b.commitBlock txnId c = .ok b' → P b')
    {blocks blocks' : List (BlockEntry ρ)} {ids : List Nat} (h : commitBlocks txnId c blocks ids = .ok blocks')
    (hs : ∀ b ∈ blocks, P b) : ∀ b ∈ blocks', P b := by
  induction ids generalizing blocks with
  | nil =>
    cases h
    exact hs
  | cons id ids ih =>
    simp only [commitBlocks] at h
    split at h
    · exact ih h hs
    rename_i b hb
    split at h
    · cases h
    rename_i hone
    exact ih h (set_forall hs (hcommit _ _ (hs b (mem_of_getElem? hb)) hone) _)

end SegmentEntry

namespace BlockEntry

variable {cap : Capacity} {txnId c : Nat} {first : Option Nat} {b b' : BlockEntry ρ}

theorem After.new : (new cap.block : BlockEntry ρ).After cap first := by
  refine ⟨by simp [BlockEntry.new, BlockVersion.new], fun ts hts hne => absurd ?_ hne⟩
  exact eq_of_mem_replicate hts

section
variable (h : b.After cap first)
include h

theorem After.appendData {rows : List ρ} {n : Nat}
    (happ : b.appendData txnId c rows = .ok (b', n)) : b'.After cap first := by
  simp only [BlockEntry.appendData] at happ
  split at happ
  · cases happ
  split at happ
  · cases happ
  cases happ
  exact h

theorem After.deleteData {offsets : List Nat} (hc : ∃ f ∈ first, f ≤ c)
    (hdel : b.deleteData txnId c offsets = .ok b') : b'.After cap first := by
  simp only [BlockEntry.deleteData] at hdel
  split at hdel
  · cases hdel
  split at hdel
  · cases hdel
  rename_i v hrows
  split at hdel
  · cases hdel
  cases hdel
  have hm := BlockVersion.deleteRows_marked hrows
  exact ⟨hm.length.trans h.1, fun ts hts hne => (hm.mem hts).elim (h.2 ts · hne) (· ▸ hc)⟩

theorem After.commitBlock (hcommit : b.commitBlock txnId c = .ok b') : b'.After cap first := by
  simp only [BlockEntry.commitBlock] at hcommit
  split at hcommit
  · cases hcommit
  split at hcommit
  · cases hcommit
  cases hcommit
  exact h

/-- What a file keeps of the deletes. -/
theorem After.saved (ts : Nat) (evicted : Bool) : (b.version.savedAt ts evicted).deleted.length = cap.block ∧
    ∀ d ∈ (b.version.savedAt ts evicted).deleted, d ≠ 0 → (evicted = false → d ≤ ts) ∧ d ∈ b.version.deleted ∧
      ∃ f ∈ first, f ≤ d := by
  cases evicted with
  | true => exact ⟨h.1, fun d hd hne => ⟨nofun, hd, h.2 d hd hne⟩⟩
  | false =>
    refine ⟨(length_map _).trans h.1, fun d hd hne => ?_⟩
    obtain ⟨old, hold, rfl⟩ := mem_map.mp hd
    split at hne
    · rename_i hle
      rw [if_pos hle]
      exact ⟨fun _ => hle, hold, h.2 old hold hne⟩
    · exact absurd rfl hne

theorem After.savedAt (ts : Nat) (evicted : Bool) : (b.savedAt ts evicted).After cap first :=
  ⟨(h.saved ts evicted).1, fun d hd hne => ((h.saved ts evicted).2 d hd hne).2.2⟩

end

end BlockEntry

/-- Every block is so, for the first delete of the segment. -/
def SegmentEntry.Tracked (cap : Capacity) (s : SegmentEntry ρ) : Prop := ∀ b ∈ s.blocks, b.After cap s.firstDeleteTs

theorem SegmentEntry.Tracked.commitTxn {cap : Capacity} {txnId c : Nat} {inputs : List (List ρ)}
    {deletes : List (Nat × List Nat)} {s s' : SegmentEntry ρ} (h : s.Tracked cap)
    (hdel : deletes ≠ [] → s.status ≠ .deprecated ∧ s.firstDeleteTs.all (fun f => decide (f ≤ c)) = true)
    (hrun : s.commitTxn cap txnId c inputs deletes = .ok s') : s'.Tracked cap := by
  -- the first delete that the commit will leave
  let first := if deletes = [] then s.firstDeleteTs else s.firstDeleteTs.or (some c)
  have hfirst : ∀ b ∈ s.blocks, b.After cap first := by
    refine fun b hb => ⟨(h b hb).1, fun ts hts hne => ?_⟩
    obtain ⟨f, hf, hle⟩ := (h b hb).2 ts hts hne
    simp only [first]
    split <;> simp_all
  have hle : deletes ≠ [] → ∃ f ∈ first, f ≤ c := by
    intro hne
    simp only [first, if_neg hne]
    cases hf : s.firstDeleteTs with
    | none => exact ⟨c, rfl, le_rfl⟩
    | some f => exact ⟨f, rfl, by simpa [hf] using (hdel hne).2⟩
  simp only [SegmentEntry.commitTxn] at hrun
  split at hrun
  · cases hrun
  rename_i s₁ _ changed happ
  have h₁ : (∀ b ∈ s₁.blocks, b.After cap first) ∧ s₁.firstDeleteTs = s.firstDeleteTs ∧ s₁.status = s.status := by
    split at happ
    · cases happ
      exact ⟨hfirst, rfl, rfl⟩
    simp only [SegmentEntry.appendData] at happ
    split at happ
    · cases happ
    split at happ
    · cases happ
    · exact appendBlocks_forall .new (fun _ _ _ _ hb => hb.appendData) happ hfirst
  split at hrun
  · cases hrun
  rename_i s₂ hrows
  have h₂ : (∀ b ∈ s₂.blocks, b.After cap first) ∧ s₂.firstDeleteTs = s.firstDeleteTs ∧ s₂.status = s.status := by
    simp only [SegmentEntry.deleteData] at hrows
    split at hrows
    · cases hrows
    rename_i s₃ n hblocks
    split at hrows
    · cases hrows
    cases hrows
    by_cases hne : deletes = []
    · subst hne
      cases hblocks
      exact h₁
    · obtain ⟨hb, hf, hst⟩ := deleteBlocks_forall (fun _ _ _ hb => hb.deleteData (hle hne)) hblocks h₁.1
      exact ⟨hb, hf.trans h₁.2.1, hst.trans h₁.2.2⟩
  simp only [SegmentEntry.commitSegment] at hrun
  split at hrun
  · rename_i hdep
    cases hrun
    have hnil : deletes = [] := by
      by_contra hne
      exact (hdel hne).1 (h₂.2.2 ▸ hdep)
    intro b hb
    have := h₂.1 b hb
    simpa only [first, if_pos hnil, h₂.2.1] using this
  · split at hrun
    · cases hrun
    · split at hrun
      · cases hrun
      · rename_i blocks hcommit
        cases hrun
        intro b hb
        have := commitBlocks_forall (fun _ _ hb => hb.commitBlock) hcommit h₂.1 b hb
        simp only [first] at this
        by_cases hne : deletes = [] <;> simpa [h₂.2.1] using this

theorem StoredSegment.tracked {cap : Capacity} {segmentId : Nat} {as : List (SegmentStep ρ)} {t : StoredSegment ρ}
    (h : ((machine ρ cap).restrict KeepsFirstDelete).Run (start cap segmentId) as t) :
    t.live.Tracked cap ∧ t.saved.Tracked cap := by
  refine h.invariant (I := fun t => t.live.Tracked cap ∧ t.saved.Tracked cap) (fun t a t' ht he hs => ?_) ?_
  · obtain ⟨hlive, hsaved⟩ := ht
    cases a with
    | commit txnId c inputs deletes =>
      simp only [machine, Machine.restrict, step] at hs
      cases hrun : t.live.commitTxn cap txnId c inputs deletes with
      | error fault =>
        rw [hrun] at hs
        cases hs
      | ok s =>
        rw [hrun] at hs
        cases hs
        exact ⟨hlive.commitTxn he.1 hrun, hsaved⟩
    | setSealed =>
      cases hs
      exact ⟨hlive, hsaved⟩
    | saveCatalog ts evicted =>
      cases hs
      refine ⟨hlive, fun b hb => ?_⟩
      obtain ⟨e, he', rfl⟩ := mem_map.mp hb
      exact (hlive e.1 (fst_mem_of_mem_zipIdx (mem_of_mem_filter he'))).savedAt ts _
    | saveNew ts =>
      cases hs
      refine ⟨hlive, fun b hb => ?_⟩
      obtain ⟨b₀, hb₀, rfl⟩ := mem_map.mp hb
      exact (hlive b₀ hb₀).savedAt ts false
    | saveUpdate ts =>
      cases hs
      refine ⟨hlive, fun b hb => ?_⟩
      obtain ⟨e, he', rfl⟩ := mem_map.mp hb
      have hfirst : t.saved.firstDeleteTs = t.live.firstDeleteTs := he.2
      have := (hlive e.1 (fst_mem_of_mem_zipIdx he')).savedAt ts false
      rw [← hfirst] at this
      exact this
    | flush ts evicted =>
      cases hs
      obtain ⟨hfirst, hbounded⟩ : KeepsFirstDelete t (.flush ts evicted) := he.2
      refine ⟨hlive, fun b hb => ?_⟩
      obtain ⟨e, he', rfl⟩ := mem_map.mp hb
      split
      · exact hsaved e.1 (fst_mem_of_mem_zipIdx he')
      rename_i b hb
      obtain ⟨hlen, hmem⟩ := (hlive b (mem_of_getElem? hb)).saved ts (evicted.contains e.2)
      refine ⟨hlen, fun d hd hne => ?_⟩
      obtain ⟨hcut, hold, f, hf, hle⟩ := hmem d hd hne
      -- what is in the file is up to the checkpoint, in memory or not
      have hd : d ≤ ts := by
        cases hev : evicted.contains e.2 with
        | false => exact hcut hev
        | true => exact (hbounded (b, e.2) (mem_zipIdx_iff_getElem?.mpr hb) hev).2 d hold
      exact ⟨f, hfirst f hf (hle.trans hd), hle⟩
    | reload =>
      cases hs
      exact ⟨hsaved, hsaved⟩
  · constructor <;> exact fun b hb => by simp [start, SegmentEntry.new] at hb

/-! ### The bulk checks agree -/

theorem foldl_and {α : Type} {F : α → (Nat → Bool) → Nat → Bool} (clears : α → Nat → Bool)
    (h : ∀ e m o, F e m o = (m o && !clears e o)) (l : List α) (m : Nat → Bool) (o : Nat) :
    l.foldl (fun m e => F e m) m o = (m o && !l.any (clears · o)) := by
  induction l generalizing m with
  | nil => simp
  | cons e l ih => rw [foldl_cons, ih, h, any_cons, Bool.not_or, Bool.and_assoc]

/-- Whether the loop over a block clears an offset. -/
def BlockEntry.clears (capacity checkTs : Nat) (e : BlockEntry ρ × Nat) (o : Nat) : Bool :=
  e.1.committedBy checkTs && (List.range (e.1.version.getRowCount checkTs)).any fun off =>
    e.1.version.checkDelete off checkTs && e.2 * capacity + off == o

theorem BlockEntry.checkBitmaskVisible_apply (capacity checkTs : Nat) (e : BlockEntry ρ × Nat) (m : Nat → Bool) (o : Nat) :
    e.1.checkBitmaskVisible capacity checkTs e.2 m o = (m o && !clears capacity checkTs e o) := by
  unfold checkBitmaskVisible clears
  split
  · rename_i hc
    rw [foldl_and fun off o => e.1.version.checkDelete off checkTs && e.2 * capacity + off == o, hc]
    · simp
    · intro off m o
      by_cases hdel : e.1.version.checkDelete off checkTs = true
      · by_cases heq : e.2 * capacity + off = o
        · simp [hdel, heq]
        · simp [hdel, heq, Function.update_of_ne (Ne.symm heq)]
      · simp [hdel]
  · rename_i hc
    simp [hc]

/-- The row exists at the time. -/
def SegmentEntry.Exists (s : SegmentEntry ρ) (capacity checkTs o : Nat) : Prop :=
  ∃ b, s.blocks[o / capacity]? = some b ∧ b.committedBy checkTs = true ∧ o % capacity < b.version.getRowCount checkTs

theorem SegmentEntry.Tracked.not_deleted {cap : Capacity} {s : SegmentEntry ρ} (h : s.Tracked cap) {ts : Nat}
    (hne : s.firstDeleteTs ≠ some ts) (hno : s.checkAnyDelete ts = false) {b : BlockEntry ρ} (hb : b ∈ s.blocks) (o : Nat) :
    b.version.checkDelete o ts = false := by
  unfold BlockVersion.checkDelete
  split
  · rfl
  rename_i d hd
  by_cases hz : d = 0
  · simp [hz]
  obtain ⟨f, hf, hle⟩ := (h b hb).2 d (mem_of_getElem? hd) hz
  rw [Option.mem_def] at hf
  rw [hf] at hne
  have hne : f ≠ ts := fun heq => hne (congrArg some heq)
  simp only [SegmentEntry.checkAnyDelete, hf, Option.any_some, decide_eq_false_iff_not] at hno
  simp only [Bool.and_eq_false_iff, decide_eq_false_iff_not]
  omega

/-- **For rows that exist at the time, the bulk checks and the check of one row agree.** -/
theorem StoredSegment.bulk_agrees {cap : Capacity} {segmentId : Nat} {as : List (SegmentStep ρ)} {t : StoredSegment ρ}
    (h : ((machine ρ cap).restrict KeepsFirstDelete).Run (start cap segmentId) as t) (ts : Nat)
    (hne : t.live.firstDeleteTs ≠ some ts) (hexists : ∀ o < t.live.rowCountAt ts, t.live.Exists cap.block ts o) (o : Nat)
    (ho : o < t.live.rowCountAt ts) :
    (∀ bitmask, t.live.checkBitmaskVisible cap.block ts bitmask o =
      (bitmask o && t.live.checkRowVisible cap.block o ts true)) ∧
    ∀ offsets, o ∈ t.live.checkOffsetsVisible cap.block ts offsets ↔
      o ∈ offsets ∧ t.live.checkRowVisible cap.block o ts true = true := by
  have htracked := (tracked h).1
  obtain ⟨b, hb, hcommitted, hlt⟩ := hexists o ho
  have hmem := mem_of_getElem? hb
  have hvisible : t.live.checkRowVisible cap.block o ts true = !b.version.checkDelete (o % cap.block) ts := by
    obtain ⟨d, hd, hle⟩ := (Option.any_eq_true _ _).mp hcommitted
    simp only [decide_eq_true_eq] at hle
    simp [SegmentEntry.checkRowVisible, hb, hd, BlockEntry.checkRowVisible, not_lt.mpr hle, not_le.mpr hlt]
  rw [hvisible]
  cases hany : t.live.checkAnyDelete ts with
  | false =>
    simp [SegmentEntry.checkBitmaskVisible, SegmentEntry.checkOffsetsVisible, hany,
      htracked.not_deleted hne hany hmem (o % cap.block)]
  | true =>
    constructor
    · intro bitmask
      rw [SegmentEntry.checkBitmaskVisible, if_pos hany, foldl_and _ (BlockEntry.checkBitmaskVisible_apply cap.block ts)]
      congr 2
      rw [Bool.eq_iff_iff]
      simp only [any_eq_true, mem_zipIdx_iff_getElem?, BlockEntry.clears, Bool.and_eq_true, beq_iff_eq, mem_range]
      constructor
      · rintro ⟨⟨b', i⟩, hb', _, off, _, hdel, heq⟩
        -- a deleted offset is below the capacity, so the offset tells the block
        have hoff : off < cap.block := by
          rw [← (htracked b' (mem_of_getElem? hb')).1]
          exact BlockVersion.lt_of_checkDelete hdel
        obtain ⟨rfl, rfl⟩ : i = o / cap.block ∧ off = o % cap.block := by
          rw [← heq, mul_comm]
          simp [Nat.mul_add_div cap.block_pos, Nat.div_eq_of_lt hoff, Nat.mod_eq_of_lt hoff]
        cases hb.symm.trans hb'
        exact hdel
      · exact fun hdel => ⟨(b, _), hb, hcommitted, _, hlt, hdel, Nat.div_add_mod' _ _⟩
    · intro offsets
      rw [SegmentEntry.checkOffsetsVisible, if_pos hany]
      simp only [mem_flatMap, mem_mergeSort, mem_dedup, mem_map]
      constructor
      · rintro ⟨_, ⟨o', _, rfl⟩, hin⟩
        split at hin
        · cases hin
        rename_i b' hb'
        split at hin
        · rename_i hc
          rw [BlockEntry.checkOffsetsVisible, if_pos hc] at hin
          simp only [mem_filter, beq_iff_eq] at hin
          obtain ⟨⟨hmem', heq⟩, hdel⟩ := hin
          rw [← heq] at hb'
          cases hb.symm.trans hb'
          exact ⟨hmem', hdel⟩
        · cases hin
      · rintro ⟨hin, hdel⟩
        refine ⟨_, ⟨o, hin, rfl⟩, ?_⟩
        simp only [hb, hcommitted, if_true, BlockEntry.checkOffsetsVisible, mem_filter, beq_self_eq_true, and_true]
        exact ⟨hin, hdel⟩

/-- A row and its delete, read back from the delta log with a version that was not in memory. -/
theorem StoredSegment.bulk_agrees_new : ∃ t : StoredSegment Nat, t.live.rowCountAt 9 = 1 ∧
    t.live.checkBitmaskVisible 2 9 (fun _ => true) 0 = (true && t.live.checkRowVisible 2 0 9 true) := by
  have hrun : (((machine Nat sampleCapacity).restrict KeepsFirstDelete).exec (start sampleCapacity 0)
      [.commit 1 2 [[10]] [], .commit 2 5 [] [(0, [0])], .saveNew 6, .flush 6 [0], .reload]).any (fun t =>
        decide (t.live.firstDeleteTs ≠ some 9) && t.live.rowCountAt 9 == 1 && t.live.blocks[0]?.any (fun b =>
          b.committedBy 9 && decide (0 < b.version.getRowCount 9))) = true := by decide +kernel
  obtain ⟨t, ht, hcheck⟩ := (Option.any_eq_true _ _).mp hrun
  simp only [Bool.and_eq_true, beq_iff_eq, decide_eq_true_eq] at hcheck
  obtain ⟨⟨hne, hcount⟩, hblock⟩ := hcheck
  obtain ⟨b, hb, hexists⟩ := (Option.any_eq_true _ _).mp hblock
  simp only [Bool.and_eq_true, decide_eq_true_eq] at hexists
  refine ⟨t, hcount, (bulk_agrees (Machine.run_of_exec ht) 9 hne (fun o ho => ?_) 0 (by omega)).1 _⟩
  obtain rfl : o = 0 := by omega
  exact ⟨b, hb, hexists⟩

/-- A delete that is read back by an update of the segment, and one from the file of a version that
was not in memory at a checkpoint before it. -/
def lostDeletes : List (List (SegmentStep Nat)) :=
  [[.commit 1 2 [[10]] [], .saveNew 3, .commit 2 5 [] [(0, [0])], .saveUpdate 6, .reload],
    [.commit 1 2 [[10]] [], .saveNew 3, .commit 2 5 [] [(0, [0])], .flush 3 [0], .reload]]

theorem StoredSegment.bulk_misses_delete : lostDeletes.Forall fun as =>
    ∃ t : StoredSegment Nat, (machine Nat sampleCapacity).Run (start sampleCapacity 0) as t ∧
      t.live.rowCountAt 9 = 1 ∧ t.live.checkRowVisible 2 0 9 true = false ∧
      t.live.checkBitmaskVisible 2 9 (fun _ => true) 0 = true := by
  have hrun : ∀ as ∈ lostDeletes, ((machine Nat sampleCapacity).exec (start sampleCapacity 0) as).any (fun t =>
        t.live.rowCountAt 9 == 1 && !t.live.checkRowVisible 2 0 9 true &&
          t.live.checkBitmaskVisible 2 9 (fun _ => true) 0) = true := by decide +kernel
  refine forall_iff_forall_mem.mpr fun as has => ?_
  obtain ⟨t, ht, hcheck⟩ := (Option.any_eq_true _ _).mp (hrun as has)
  simp only [Bool.and_eq_true, beq_iff_eq, Bool.not_eq_true'] at hcheck
  exact ⟨t, Machine.run_of_exec ht, hcheck.1.1, hcheck.1.2, hcheck.2⟩

end Infinity.Table
