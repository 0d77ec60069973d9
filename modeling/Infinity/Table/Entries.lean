import Infinity.Block.BlockVersion

/-! Table, segment and block entries: how a transaction's rows and deletes get into them.

A table has segments, a segment has blocks, and a block has rows with a version that says
which of them exist and which are deleted at a timestamp. Rows are appended to the last
block of the one unsealed segment; a full block is followed by a new block, a full
segment by a new segment. What a transaction touches is remembered, and its commit
then puts the timestamp on it. -/
namespace Infinity.Table

open Block

/-- `DEFAULT_BLOCK_CAPACITY` and `DEFAULT_SEGMENT_CAPACITY`. -/
structure Capacity where
  block : Nat
  segment : Nat
  block_pos : 0 < block
  segment_pos : 0 < segment
  whole : block ∣ segment

def defaultCapacity : Capacity := ⟨8192, 1024 * 8192, by decide, by decide, by decide⟩

/-- Segments of two blocks of two rows. -/
def sampleCapacity : Capacity := ⟨2, 4, Nat.two_pos, by decide, by decide⟩

/-- The ways a change of a table stops the engine. -/
inductive TableFault where
  /-- "Multiple transactions are changing data of Segment: {}, Block: {}, ..." -/
  | multipleTransactions (usingTxnId txnId : Nat)
  /-- "BlockEntry::AppendData min_row_ts_ > commit_ts, ..." -/
  | appendRowTs (minRowTs commitTs : Nat)
  /-- "BlockEntry::DeleteData max_row_ts_ > commit_ts, ..." -/
  | deleteRowTs (maxRowTs commitTs : Nat)
  /-- "BlockEntry::CommitBlock invalid ts, ..." -/
  | commitBlock (minRowTs maxRowTs : Nat)
  | version (fault : VersionFault)
  /-- "AppendData to sealed/compacting/no_delete/deprecated segment" -/
  | notUnsealed (segmentId : Nat)
  /-- "Segment {} error, row_count {}, capacity {}" -/
  | segmentFull (segmentId : Nat)
  /-- "Not implemented: append data exceed segment row capacity" -/
  | exceedsCapacity (segmentId : Nat)
  /-- `block_entries_.at` throws. -/
  | noBlock (segmentId blockId : Nat)
  /-- "Delete rows exceed block capacity" -/
  | deleteRowsExceed (blockId : Nat)
  /-- "Delete row exceed block capacity" -/
  | deleteExceeds
  /-- "Decrease row count exceed actual row count" -/
  | decreaseExceeds (segmentId : Nat)
  /-- "SegmentEntry commit_ts {} is less than max_row_ts {}" -/
  | commitSegment (commitTs maxRowTs : Nat)
  /-- "Set sealed segment failed, segment id: {}" -/
  | sealFailed (segmentId : Nat)
  deriving DecidableEq, Repr

/-! ### Blocks -/

/-- A block. `usingTxnId` is zero between transactions, and a block that is not committed
has no `commitTs`. -/
structure BlockEntry (ρ : Type) where
  rows : List ρ
  rowCapacity : Nat
  version : BlockVersion
  minRowTs : Nat
  maxRowTs : Nat
  commitTs : Option Nat
  usingTxnId : Nat
  deriving DecidableEq, Repr

namespace BlockEntry

variable {ρ : Type}

def new (rowCapacity : Nat) : BlockEntry ρ := ⟨[], rowCapacity, .new rowCapacity, 0, 0, none, 0⟩

/-- As many of the rows as there is room for; how many is returned too. -/
def appendData (b : BlockEntry ρ) (txnId commitTs : Nat) (rows : List ρ) : Except TableFault (BlockEntry ρ × Nat) :=
  if b.usingTxnId ≠ 0 ∧ b.usingTxnId ≠ txnId then .error (.multipleTransactions b.usingTxnId txnId)
  else
    let actualCopied :=
      if b.rows.length + rows.length > b.rowCapacity then b.rowCapacity - b.rows.length else rows.length
    if b.minRowTs > commitTs ∨ b.maxRowTs > commitTs then .error (.appendRowTs b.minRowTs commitTs)
    else .ok ({b with
      rows := b.rows ++ rows.take actualCopied
      version := b.version.append commitTs (b.rows.length + actualCopied)
      minRowTs := commitTs
      maxRowTs := commitTs
      usingTxnId := txnId}, actualCopied)

def deleteData (b : BlockEntry ρ) (txnId commitTs : Nat) (offsets : List Nat) : Except TableFault (BlockEntry ρ) :=
  if b.usingTxnId ≠ 0 ∧ b.usingTxnId ≠ txnId then .error (.multipleTransactions b.usingTxnId txnId)
  else
    match b.version.deleteRows commitTs offsets with
    | .error fault => .error (.version fault)
    | .ok version =>
      if b.maxRowTs > commitTs then .error (.deleteRowTs b.maxRowTs commitTs)
      else .ok {b with version, maxRowTs := commitTs, usingTxnId := txnId}

def commitBlock (b : BlockEntry ρ) (txnId commitTs : Nat) : Except TableFault (BlockEntry ρ) :=
  if b.usingTxnId ≠ 0 ∧ b.usingTxnId ≠ txnId then .error (.multipleTransactions b.usingTxnId txnId)
  else if b.minRowTs > b.maxRowTs then .error (.commitBlock b.minRowTs b.maxRowTs)
  else .ok {b with
    usingTxnId := 0
    minRowTs := if b.minRowTs = 0 then commitTs else b.minRowTs
    maxRowTs := if b.maxRowTs = 0 then commitTs else b.maxRowTs
    commitTs := b.commitTs.or (some commitTs)}

def checkRowVisible (b : BlockEntry ρ) (blockOffset checkTs : Nat) (checkAppend : Bool) : Bool :=
  if checkAppend ∧ b.version.getRowCount checkTs ≤ blockOffset then false
  else !b.version.checkDelete blockOffset checkTs

end BlockEntry

/-! ### Segments -/

inductive SegmentStatus where
  | unsealed
  | sealed
  | compacting
  | noDelete
  | deprecated
  deriving DecidableEq, Repr

/-- A segment. Timestamps that start as `UNCOMMIT_TS` are options. -/
structure SegmentEntry (ρ : Type) where
  segmentId : Nat
  rowCapacity : Nat
  status : SegmentStatus
  blocks : List (BlockEntry ρ)
  rowCount : Nat
  actualRowCount : Nat
  minRowTs : Option Nat
  maxRowTs : Nat
  commitTs : Option Nat
  firstDeleteTs : Option Nat
  deprecateTs : Option Nat
  deriving DecidableEq, Repr

namespace SegmentEntry

variable {ρ : Type}

def new (segmentId rowCapacity : Nat) : SegmentEntry ρ :=
  ⟨segmentId, rowCapacity, .unsealed, [], 0, 0, none, 0, none, none, none⟩

/-- The block to append to, after those before it: the last one, or a new one when there is
none or it has no available capacity. -/
def lastBlock (s : SegmentEntry ρ) (blockCapacity : Nat) : List (BlockEntry ρ) × BlockEntry ρ :=
  match s.blocks.getLast? with
  | none => (s.blocks, .new blockCapacity)
  | some b =>
    if b.rowCapacity ≤ b.rows.length then (s.blocks, .new blockCapacity) else (s.blocks.dropLast, b)

/-- The inner loop of `AppendData`, over the rows of one input block: what is left of them
when the segment is full, and the blocks that were changed. Every turn appends at least
one row, so that as many turns as there are rows are enough. -/
def appendRows (cap : Capacity) (txnId commitTs : Nat) :
    Nat → SegmentEntry ρ → List ρ → List Nat → Except TableFault (SegmentEntry ρ × List ρ × List Nat)
  | 0, s, rows, changed => .ok (s, rows, changed)
  | turns + 1, s, rows, changed =>
    if rows = [] then .ok (s, rows, changed)
    else
      let (front, last) := s.lastBlock cap.block
      let changed := if changed.getLast? = some front.length then changed else changed ++ [front.length]
      match last.appendData txnId commitTs rows with
      | .error fault => .error fault
      | .ok (last, actualAppended) =>
        let s := {s with
          blocks := front ++ [last]
          rowCount := s.rowCount + actualAppended
          actualRowCount := s.actualRowCount + actualAppended}
        if s.rowCount = s.rowCapacity then .ok (s, rows.drop actualAppended, changed)
        else if s.rowCount > s.rowCapacity then .error (.exceedsCapacity s.segmentId)
        else appendRows cap txnId commitTs turns s (rows.drop actualAppended) changed

/-- The outer loop, over the input blocks, while the segment has room. -/
def appendBlocks (cap : Capacity) (txnId commitTs : Nat) :
    SegmentEntry ρ → List (List ρ) → List Nat → Except TableFault (SegmentEntry ρ × List (List ρ) × List Nat)
  | s, [], changed => .ok (s, [], changed)
  | s, input :: inputs, changed =>
    if s.rowCount < s.rowCapacity then
      match s.appendRows cap txnId commitTs input.length input changed with
      | .error fault => .error fault
      | .ok (s, [], changed) => appendBlocks cap txnId commitTs s inputs changed
      | .ok (s, row :: rows, changed) => .ok (s, (row :: rows) :: inputs, changed)
    else .ok (s, input :: inputs, changed)

def appendData (cap : Capacity) (txnId commitTs : Nat) (s : SegmentEntry ρ) (inputs : List (List ρ)) :
    Except TableFault (SegmentEntry ρ × List (List ρ) × List Nat) :=
  if s.status ≠ .unsealed then .error (.notUnsealed s.segmentId)
  else if s.rowCapacity ≤ s.rowCount then .error (.segmentFull s.segmentId)
  else s.appendBlocks cap txnId commitTs inputs []

/-- The loop of `DeleteData`; the number of deleted rows is returned too. -/
def deleteBlocks (txnId commitTs : Nat) :
    SegmentEntry ρ → List (Nat × List Nat) → Except TableFault (SegmentEntry ρ × Nat)
  | s, [] => .ok (s, 0)
  | s, (blockId, offsets) :: rest =>
    match s.blocks[blockId]? with
    | none => .error (.noBlock s.segmentId blockId)
    | some b =>
      match b.deleteData txnId commitTs offsets with
      | .error fault => .error fault
      | .ok b =>
        if offsets.length > b.rowCapacity then .error (.deleteRowsExceed blockId)
        else
          match deleteBlocks txnId commitTs {s with blocks := s.blocks.set blockId b} rest with
          | .error fault => .error fault
          | .ok (s, deleted) => .ok (s, offsets.length + deleted)

def deleteData (txnId commitTs : Nat) (s : SegmentEntry ρ) (rows : List (Nat × List Nat)) :
    Except TableFault (SegmentEntry ρ) :=
  match s.deleteBlocks txnId commitTs rows with
  | .error fault => .error fault
  | .ok (s, deleted) =>
    if deleted > s.actualRowCount then .error (.decreaseExceeds s.segmentId)
    else .ok {s with actualRowCount := s.actualRowCount - deleted}

def commitBlocks (txnId commitTs : Nat) : List (BlockEntry ρ) → List Nat → Except TableFault (List (BlockEntry ρ))
  | blocks, [] => .ok blocks
  | blocks, blockId :: rest =>
    match blocks[blockId]? with
    | none => commitBlocks txnId commitTs blocks rest
    | some b =>
      match b.commitBlock txnId commitTs with
      | .error fault => .error fault
      | .ok b => commitBlocks txnId commitTs (blocks.set blockId b) rest

/-- `CommitSegment`. `deletes` says whether the transaction deletes rows of the segment. -/
def commitSegment (txnId commitTs : Nat) (s : SegmentEntry ρ) (blockIds : List Nat) (deletes : Bool) :
    Except TableFault (SegmentEntry ρ) :=
  if s.status = .deprecated then .ok s
  else if commitTs < s.maxRowTs then .error (.commitSegment commitTs s.maxRowTs)
  else
    match commitBlocks txnId commitTs s.blocks blockIds with
    | .error fault => .error fault
    | .ok blocks => .ok {s with
        blocks
        firstDeleteTs := if deletes then s.firstDeleteTs.or (some commitTs) else s.firstDeleteTs
        minRowTs := some (match s.minRowTs with | none => commitTs | some ts => min ts commitTs)
        maxRowTs := commitTs
        commitTs := s.commitTs.or (some commitTs)}

/-- `CheckVisible` for a transaction that begins at `beginTs` and did not make the segment. -/
def checkVisible (s : SegmentEntry ρ) (beginTs : Nat) : Bool :=
  s.deprecateTs.all (fun ts => decide (beginTs < ts)) && s.commitTs.any fun ts => decide (ts ≤ beginTs)

def checkRowVisible (s : SegmentEntry ρ) (blockCapacity segmentOffset checkTs : Nat) (checkAppend : Bool) : Bool :=
  match s.blocks[segmentOffset / blockCapacity]? with
  | none => false
  | some b =>
    if b.commitTs.all (fun ts => decide (ts > checkTs)) then false
    else b.checkRowVisible (segmentOffset % blockCapacity) checkTs checkAppend

def checkAnyDelete (s : SegmentEntry ρ) (checkTs : Nat) : Bool := s.firstDeleteTs.any fun ts => decide (ts < checkTs)

end SegmentEntry

end Infinity.Table
