import Infinity.Table.Entries

/-! The two ways a transaction gets into a table.

A transaction that runs gathers its rows and its deletes in a `TxnTableStore` and logs one
command for each statement. When it commits, `PrepareCommit` appends all rows and then
deletes all rows to delete, and `Commit` puts the timestamp on what was touched. After a
crash its commands are replayed one by one, each with a store of its own. -/
namespace Infinity.Table

open Block

/-- A row by its segment and its offset in the segment. -/
structure RowID where
  segmentId : Nat
  segmentOffset : Nat
  deriving DecidableEq, Repr

/-- `DeleteState`: offsets by segment and block. -/
abbrev DeleteState := List (Nat × List (Nat × List Nat))

/-- `segment_map_`, and which of its segments is the unsealed one. -/
structure TableEntry (ρ : Type) where
  segmentMap : Nat → Option (SegmentEntry ρ)
  nextSegmentId : Nat
  unsealedId : Option Nat

/-- What a transaction touched: blocks by segment, and segments it found full. -/
structure Touched where
  blocks : List (Nat × Nat)
  full : List Nat
  deriving DecidableEq, Repr

namespace TableEntry

variable {ρ : Type}

def new : TableEntry ρ := ⟨fun _ => none, 0, none⟩

def setSegment (t : TableEntry ρ) (s : SegmentEntry ρ) : TableEntry ρ :=
  {t with segmentMap := Function.update t.segmentMap s.segmentId (some s)}

/-- A new segment, with the next id. -/
def openSegment (cap : Capacity) (t : TableEntry ρ) : TableEntry ρ × SegmentEntry ρ :=
  ({t with nextSegmentId := t.nextSegmentId + 1, unsealedId := some t.nextSegmentId},
    .new t.nextSegmentId cap.segment)

/-- The segment to append to: the unsealed one, or a new one when there is none or it has no
room, and then the full one is noted. -/
def unsealedSegment (cap : Capacity) (t : TableEntry ρ) (touched : Touched) :
    (TableEntry ρ × SegmentEntry ρ) × Touched :=
  match t.unsealedId.bind t.segmentMap with
  | none => (t.openSegment cap, touched)
  | some s =>
    if s.rowCount = s.rowCapacity then (t.openSegment cap, {touched with full := touched.full ++ [s.segmentId]})
    else ((t, s), touched)

/-- The loop of `AppendData`, until no row is left. Every turn appends at least one. -/
def appendLoop (cap : Capacity) (txnId commitTs : Nat) :
    Nat → TableEntry ρ → List (List ρ) → Touched → Except TableFault (TableEntry ρ × Touched)
  | 0, t, _, touched => .ok (t, touched)
  | turns + 1, t, inputs, touched =>
    if inputs.flatten = [] then .ok (t, touched)
    else
      let ((t, s), touched) := t.unsealedSegment cap touched
      match s.appendData cap txnId commitTs inputs with
      | .error fault => .error fault
      | .ok (s, inputs, changed) =>
        appendLoop cap txnId commitTs turns (t.setSegment s) inputs
          {touched with blocks := touched.blocks ++ changed.map fun blockId => (s.segmentId, blockId)}

def appendData (cap : Capacity) (txnId commitTs : Nat) (t : TableEntry ρ) (inputs : List (List ρ))
    (touched : Touched) : Except TableFault (TableEntry ρ × Touched) :=
  appendLoop cap txnId commitTs inputs.flatten.length t inputs touched

def getSegmentByID (t : TableEntry ρ) (segmentId ts : Nat) : Option (SegmentEntry ρ) :=
  match t.segmentMap segmentId with
  | none => none
  | some s => if s.minRowTs.any (fun m => decide (m ≤ ts)) then some s else none

/-- `Delete`. A segment that is not there ends it with a status that its callers do not look
at; what was deleted before stays. -/
def delete (txnId commitTs : Nat) : TableEntry ρ → DeleteState → Touched → Except TableFault (TableEntry ρ × Touched)
  | t, [], touched => .ok (t, touched)
  | t, (segmentId, rows) :: rest, touched =>
    match t.getSegmentByID segmentId commitTs with
    | none => .ok (t, touched)
    | some s =>
      match s.deleteData txnId commitTs rows with
      | .error fault => .error fault
      | .ok s => delete txnId commitTs (t.setSegment s) rest
          {touched with blocks := touched.blocks ++ rows.map fun row => (segmentId, row.1)}

/-- The loop of `CommitWrite` over the segments that were touched. -/
def commitSegments (txnId commitTs : Nat) (blocks : List (Nat × Nat)) (deleteState : DeleteState) :
    TableEntry ρ → List Nat → Except TableFault (TableEntry ρ)
  | t, [] => .ok t
  | t, segmentId :: rest =>
    match t.segmentMap segmentId with
    | none => commitSegments txnId commitTs blocks deleteState t rest
    | some s =>
      match s.commitSegment txnId commitTs ((blocks.filter fun b => b.1 == segmentId).map Prod.snd)
          (deleteState.any fun d => d.1 == segmentId && !d.2.isEmpty) with
      | .error fault => .error fault
      | .ok s => commitSegments txnId commitTs blocks deleteState (t.setSegment s) rest

def commitWrite (txnId commitTs : Nat) (t : TableEntry ρ) (touched : Touched) (deleteState : DeleteState) :
    Except TableFault (TableEntry ρ) :=
  commitSegments txnId commitTs touched.blocks deleteState t (touched.blocks.map Prod.fst).dedup

def setSealed : TableEntry ρ → List Nat → Except TableFault (TableEntry ρ)
  | t, [] => .ok t
  | t, segmentId :: rest =>
    match t.segmentMap segmentId with
    | none => setSealed t rest
    | some s =>
      if s.status ≠ .unsealed then .error (.sealFailed segmentId)
      else setSealed (t.setSegment {s with status := .sealed}) rest

/-! ### What a reader sees -/

def rowAt (t : TableEntry ρ) (segmentId blockId blockOffset : Nat) : Option ρ := do
  let s ← t.segmentMap segmentId
  let b ← s.blocks[blockId]?
  b.rows[blockOffset]?

/-- A row is seen in a segment that is. -/
def rowVisible (cap : Capacity) (t : TableEntry ρ) (row : RowID) (checkTs : Nat) (checkAppend : Bool) : Bool :=
  match t.segmentMap row.segmentId with
  | none => false
  | some s => s.checkVisible checkTs && s.checkRowVisible cap.block row.segmentOffset checkTs checkAppend

def anyDelete (t : TableEntry ρ) (segmentId checkTs : Nat) : Bool :=
  match t.segmentMap segmentId with
  | none => false
  | some s => s.checkAnyDelete checkTs

end TableEntry

/-! ### The store of a transaction -/

structure TxnTableStore (ρ : Type) where
  blocks : List (List ρ)
  deleteState : DeleteState
  deriving DecidableEq, Repr

namespace TxnTableStore

variable {ρ : Type}

def new : TxnTableStore ρ := ⟨[], []⟩

/-- The input goes behind the rows of the last block, and into a new one when that is full. -/
def packBlock (blockCapacity : Nat) (blocks : List (List ρ)) (input : List ρ) : List (List ρ) :=
  let current := blocks.getLastD []
  if current.length + input.length > blockCapacity then
    let toAppend := blockCapacity - current.length
    blocks.dropLast ++ [current ++ input.take toAppend, input.drop toAppend]
  else blocks.dropLast ++ [current ++ input]

def append (blockCapacity : Nat) (store : TxnTableStore ρ) (input : List ρ) : TxnTableStore ρ :=
  {store with blocks := packBlock blockCapacity store.blocks input}

/-- `seg_map[block_id].emplace_back(block_offset)`. -/
def addOffset (blockId blockOffset : Nat) : List (Nat × List Nat) → List (Nat × List Nat)
  | [] => [(blockId, [blockOffset])]
  | (id, offsets) :: rest =>
    if id = blockId then (id, offsets ++ [blockOffset]) :: rest
    else (id, offsets) :: addOffset blockId blockOffset rest

/-- `row_hash_table[segment_id]`, and the offset added there. -/
def addRow (segmentId blockId blockOffset : Nat) : DeleteState → DeleteState
  | [] => [(segmentId, [(blockId, [blockOffset])])]
  | (id, rows) :: rest =>
    if id = segmentId then (id, addOffset blockId blockOffset rows) :: rest
    else (id, rows) :: addRow segmentId blockId blockOffset rest

/-- The size of `block_vec`. -/
def blockSize (segmentId blockId : Nat) (deleteState : DeleteState) : Nat :=
  match deleteState.lookup segmentId with
  | none => 0
  | some rows =>
    match rows.lookup blockId with
    | none => 0
    | some offsets => offsets.length

def deleteRows (blockCapacity : Nat) : DeleteState → List RowID → Except TableFault DeleteState
  | deleteState, [] => .ok deleteState
  | deleteState, row :: rest =>
    let blockId := row.segmentOffset / blockCapacity
    let deleteState := addRow row.segmentId blockId (row.segmentOffset % blockCapacity) deleteState
    if blockSize row.segmentId blockId deleteState > blockCapacity then .error .deleteExceeds
    else deleteRows blockCapacity deleteState rest

def delete (blockCapacity : Nat) (store : TxnTableStore ρ) (rows : List RowID) : Except TableFault (TxnTableStore ρ) :=
  match deleteRows blockCapacity store.deleteState rows with
  | .error fault => .error fault
  | .ok deleteState => .ok {store with deleteState}

end TxnTableStore

/-- A block of rows, of at most the capacity of a block. -/
structure DataBlock (cap : Capacity) (ρ : Type) where
  rows : List ρ
  fits : rows.length ≤ cap.block

/-- The commands that are logged for the statements on a table. -/
inductive WalCmd (cap : Capacity) (ρ : Type) where
  | append (block : DataBlock cap ρ)
  | delete (rows : List RowID)

section Paths

variable {ρ : Type} (cap : Capacity) (txnId commitTs : Nat)

/-- The statements of the transaction: `Txn::Append` and `Txn::Delete` log the command and
change the store. -/
def runStatements : TxnTableStore ρ → List (WalCmd cap ρ) → Except TableFault (TxnTableStore ρ)
  | store, [] => .ok store
  | store, .append block :: rest => runStatements (store.append cap.block block.rows) rest
  | store, .delete rows :: rest =>
    match store.delete cap.block rows with
    | .error fault => .error fault
    | .ok store => runStatements store rest

def prepareCommit (t : TableEntry ρ) (store : TxnTableStore ρ) : Except TableFault (TableEntry ρ × Touched) :=
  match t.appendData cap txnId commitTs store.blocks ⟨[], []⟩ with
  | .error fault => .error fault
  | .ok (t, touched) =>
    match t.delete txnId commitTs store.deleteState touched with
    | .error fault => .error fault
    | .ok (t, touched) =>
      match t.setSealed touched.full with
      | .error fault => .error fault
      | .ok t => .ok (t, touched)

/-- The transaction as it runs: its statements, `PrepareCommit` and `Commit`. -/
def liveCommit (t : TableEntry ρ) (cmds : List (WalCmd cap ρ)) : Except TableFault (TableEntry ρ) :=
  match runStatements cap .new cmds with
  | .error fault => .error fault
  | .ok store =>
    match prepareCommit cap txnId commitTs t store with
    | .error fault => .error fault
    | .ok (t, touched) => t.commitWrite txnId commitTs touched store.deleteState

def walCmdAppendReplay (t : TableEntry ρ) (block : List ρ) : Except TableFault (TableEntry ρ) :=
  let store := TxnTableStore.new.append cap.block block
  match t.appendData cap txnId commitTs store.blocks ⟨[], []⟩ with
  | .error fault => .error fault
  | .ok (t, touched) => t.commitWrite txnId commitTs touched []

def walCmdDeleteReplay (t : TableEntry ρ) (rows : List RowID) : Except TableFault (TableEntry ρ) :=
  match TxnTableStore.new.delete (ρ := ρ) cap.block rows with
  | .error fault => .error fault
  | .ok store =>
    match t.delete txnId commitTs store.deleteState ⟨[], []⟩ with
    | .error fault => .error fault
    | .ok (t, touched) => t.commitWrite txnId commitTs touched store.deleteState

/-- The commands of the transaction, replayed one by one. -/
def replay : TableEntry ρ → List (WalCmd cap ρ) → Except TableFault (TableEntry ρ)
  | t, [] => .ok t
  | t, cmd :: rest =>
    let replayed :=
      match cmd with
      | .append block => walCmdAppendReplay cap txnId commitTs t block.rows
      | .delete rows => walCmdDeleteReplay cap txnId commitTs t rows
    match replayed with
    | .error fault => .error fault
    | .ok t => replay t rest

end Paths

end Infinity.Table
