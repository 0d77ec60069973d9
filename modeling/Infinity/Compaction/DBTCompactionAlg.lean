import Infinity.Common
import Infinity.Lib.Machine
import Infinity.Table.Entries

/-! The bookkeeping that chooses segments for compaction.

`DBTCompactionAlg` lists the segments of a table in layers by their row count. When a layer
has enough of them, `CheckCompaction` moves the smallest to the list of a transaction; a
commit drops that list and a rollback gives it back to the layer. A manual compaction calls
`Disable`, which waits for the running ones and empties the layers, and `Enable` when it is
done.

The second half of the file is the table that calls it. -/
namespace Infinity.Compaction.DBT

open Lib Table

/-- What the algorithm is given: `m`, the layer of a row count, the capacity of a segment,
and the `std::nth_element` of the standard library, of which only this much is used. -/
structure DBTConfig where
  m : Nat
  m_pos : 0 < m
  calculateLayer : Nat → Nat
  monotone : Monotone calculateLayer
  maxSegmentCapacity : Nat
  /-- Move the `n` members with the smallest keys to the front. -/
  nthElement : Nat → (Nat → Nat) → List Nat → List Nat
  nthElement_perm : ∀ n key l, (nthElement n key l).Perm l

/-! ### A layer -/

/-- The entry of a key and the other entries of a map. -/
def extract (txnId : Nat) : List (Nat × List Nat) → Option (List Nat × List (Nat × List Nat))
  | [] => none
  | (t, segments) :: rest =>
    if t = txnId then some (segments, rest)
    else (extract txnId rest).map fun (found, others) => (found, (t, segments) :: others)

/-- The segments by id, and those that transactions have taken. -/
structure SegmentLayer where
  segments : List Nat
  compactingSegmentsMap : List (Nat × List Nat)
  deriving DecidableEq, Repr

namespace SegmentLayer

def new : SegmentLayer := ⟨[], []⟩

def addSegment (l : SegmentLayer) (segmentId : Nat) : Except Fault SegmentLayer :=
  if segmentId ∈ l.segments then .error (.unrecoverable s!"SegmentID conflict: {segmentId}")
  else .ok {l with segments := segmentId :: l.segments}

def removeSegment (l : SegmentLayer) (segmentId : Nat) : Except Fault SegmentLayer :=
  if segmentId ∈ l.segments then .ok {l with segments := l.segments.erase segmentId}
  else .error (.unrecoverable s!"Segment not found in layer: {segmentId}")

/-- The `m` smallest segments, unless they are too large together. -/
def pickCompacting (cfg : DBTConfig) (rows : Nat → Nat) (txnId : Nat) (l : SegmentLayer) :
    Except Fault (List Nat × SegmentLayer) :=
  if l.segments.length < cfg.m then .error (.unrecoverable "SegmentLayer::PickCompacting error.")
  else
    let ret := (cfg.nthElement cfg.m rows l.segments).take cfg.m
    if (ret.map rows).sum > cfg.maxSegmentCapacity then .ok ([], l)
    else if txnId ∈ l.compactingSegmentsMap.map Prod.fst then
      .error (.unrecoverable s!"TransactionID conflict: {txnId}")
    else .ok (ret, ⟨l.segments.diff ret, (txnId, ret) :: l.compactingSegmentsMap⟩)

def commitCompact (l : SegmentLayer) (txnId : Nat) : Except Fault SegmentLayer :=
  match extract txnId l.compactingSegmentsMap with
  | none => .error (.unrecoverable s!"TransactionID not found in layer: {txnId}")
  | some (_, rest) => .ok {l with compactingSegmentsMap := rest}

def addSegments (l : SegmentLayer) : List Nat → Except Fault SegmentLayer
  | [] => .ok l
  | s :: rest =>
    match l.addSegment s with
    | .error e => .error e
    | .ok l' => l'.addSegments rest

def rollbackCompact (l : SegmentLayer) (txnId : Nat) : Except Fault SegmentLayer :=
  match extract txnId l.compactingSegmentsMap with
  | none => .error (.unrecoverable s!"TransactionID not found in layer: {txnId}")
  | some (segments, rest) => ({l with compactingSegmentsMap := rest} : SegmentLayer).addSegments segments

end SegmentLayer

/-! ### The layers -/

inductive CompactionStatus where
  | disable
  | enable
  | running
  deriving DecidableEq, Repr

/-- The status as the error messages print it. -/
def CompactionStatus.code : CompactionStatus → Nat
  | .disable => 0
  | .enable => 1
  | .running => 2

structure DBTCompactionAlg where
  segmentLayers : List SegmentLayer
  status : CompactionStatus
  runningTaskN : Int
  txn2Layer : Nat → Option Nat

namespace DBTCompactionAlg

/-- As the constructor of `TableEntry` leaves it, after its `Enable({})`. -/
def new : DBTCompactionAlg := ⟨[], .enable, 0, fun _ => none⟩

/-- Change one layer. -/
def onLayer (a : DBTCompactionAlg) (layer : Nat) (f : SegmentLayer → Except Fault SegmentLayer) :
    Except Fault DBTCompactionAlg :=
  match a.segmentLayers[layer]? with
  | none => .error .outOfRange
  | some l =>
    match f l with
    | .error e => .error e
    | .ok l' => .ok {a with segmentLayers := a.segmentLayers.set layer l'}

def resize (a : DBTCompactionAlg) (n : Nat) : DBTCompactionAlg :=
  {a with segmentLayers := a.segmentLayers ++ List.replicate (n - a.segmentLayers.length) .new}

def addSegmentInner (cfg : DBTConfig) (rows : Nat → Nat) (a : DBTCompactionAlg) (segmentId : Nat) :
    Except Fault DBTCompactionAlg :=
  let layer := cfg.calculateLayer (rows segmentId)
  (a.resize (layer + 1)).onLayer layer (·.addSegment segmentId)

def findSegmentAndLayer (a : DBTCompactionAlg) (segmentId : Nat) : Option Nat :=
  a.segmentLayers.findIdx? fun l => decide (segmentId ∈ l.segments)

def deleteInSegment (cfg : DBTConfig) (rows : Nat → Nat) (a : DBTCompactionAlg) (segmentId : Nat) :
    Except Fault DBTCompactionAlg :=
  match a.findSegmentAndLayer segmentId with
  -- the segment is compacting
  | none => .ok a
  | some oldLayer =>
    let newLayer := cfg.calculateLayer (rows segmentId)
    if newLayer = oldLayer then .ok a
    else if newLayer > oldLayer then .error (.unrecoverable "Shrink segment should has less rows than before")
    else
      match a.onLayer oldLayer (·.removeSegment segmentId) with
      | .error e => .error e
      | .ok a' => a'.onLayer newLayer (·.addSegment segmentId)

/-- The loop of `CheckCompaction` over the layers below `layer`, the highest first. -/
def checkLayers (cfg : DBTConfig) (rows : Nat → Nat) (txnId : Nat) (a : DBTCompactionAlg) :
    Nat → Except Fault (List Nat × DBTCompactionAlg)
  | 0 => .ok ([], a)
  | layer + 1 =>
    match a.segmentLayers[layer]? with
    | none => .error .outOfRange
    | some l =>
      if l.segments.length ≥ cfg.m then
        match l.pickCompacting cfg rows txnId with
        | .error e => .error e
        | .ok ([], _) => checkLayers cfg rows txnId a layer
        | .ok (s :: ret, l') =>
          .ok (s :: ret,
            { segmentLayers := a.segmentLayers.set layer l'
              status := if a.runningTaskN + 1 = 1 then .running else a.status
              runningTaskN := a.runningTaskN + 1
              txn2Layer := Function.update a.txn2Layer txnId (some layer) })
      else checkLayers cfg rows txnId a layer

def checkCompaction (cfg : DBTConfig) (rows : Nat → Nat) (a : DBTCompactionAlg) (txnId : Nat) :
    Except Fault (List Nat × DBTCompactionAlg) :=
  if a.status = .disable then .ok ([], a) else a.checkLayers cfg rows txnId a.segmentLayers.length

/-- What `CommitCompact` and `RollbackCompact` share: `f` on the layer of the transaction,
and one task less. -/
def endCompact (a : DBTCompactionAlg) (txnId : Nat) (f : SegmentLayer → Except Fault SegmentLayer) :
    Except Fault DBTCompactionAlg :=
  match a.txn2Layer txnId with
  | none => .error (.unrecoverable s!"TransactionID not found in layer: {txnId}")
  | some layer =>
    match a.onLayer layer f with
    | .error e => .error e
    | .ok a' => .ok
        { a' with
          txn2Layer := Function.update a'.txn2Layer txnId none
          runningTaskN := a'.runningTaskN - 1
          status := if a'.runningTaskN - 1 = 0 then .enable else a'.status }

def commitCompact (a : DBTCompactionAlg) (txnId : Nat) : Except Fault DBTCompactionAlg :=
  if a.status ≠ .running then .error (.unrecoverable s!"Wrong status of compaction alg: {a.status.code}")
  else a.endCompact txnId (·.commitCompact txnId)

def rollbackCompact (a : DBTCompactionAlg) (txnId : Nat) : Except Fault DBTCompactionAlg :=
  if a.status ≠ .running then
    .error (.unrecoverable s!"Rollback compact when compaction not running, {a.status.code}")
  else a.endCompact txnId (·.rollbackCompact txnId)

def addSegmentsInner (cfg : DBTConfig) (rows : Nat → Nat) (a : DBTCompactionAlg) :
    List Nat → Except Fault DBTCompactionAlg
  | [] => .ok a
  | s :: rest =>
    match a.addSegmentInner cfg rows s with
    | .error e => .error e
    | .ok a' => a'.addSegmentsInner cfg rows rest

def enable (cfg : DBTConfig) (rows : Nat → Nat) (a : DBTCompactionAlg) (segmentIds : List Nat) :
    Except Fault DBTCompactionAlg :=
  match a.addSegmentsInner cfg rows segmentIds with
  | .error e => .error e
  | .ok a' =>
    if a'.runningTaskN ≠ 0 then .error (.unrecoverable "Running task is not 0 when enable compaction")
    else .ok {a' with status := .enable}

/-- `Disable`, once the wait for `kEnable` is over. -/
def disable (a : DBTCompactionAlg) : DBTCompactionAlg := {a with segmentLayers := [], status := .disable}

/-- The segments in the lists of the layers. -/
def listed (a : DBTCompactionAlg) : List Nat := a.segmentLayers.flatMap SegmentLayer.segments

/-- The transactions that have taken segments, with what they took. -/
def taken (a : DBTCompactionAlg) : List (Nat × List Nat) := a.segmentLayers.flatMap SegmentLayer.compactingSegmentsMap

end DBTCompactionAlg

/-! ### The table and its compactions -/

/-- The algorithm with the segments of its table. `running` are the compactions that
`CheckCompaction` has started, `manual` is what a manual compaction has in hand. A segment
that a compaction works on counts as sealed. -/
structure TableState where
  alg : DBTCompactionAlg
  status : Nat → SegmentStatus
  rows : Nat → Nat
  added : List Nat
  running : List (Nat × List Nat)
  manual : Option (List Nat)

namespace TableState

def setStatus (m : TableState) (segmentIds : List Nat) (status : SegmentStatus) : TableState :=
  {m with status := fun s => if s ∈ segmentIds then status else m.status s}

/-- The segments in the hands of compactions. -/
def compacting (m : TableState) : List Nat := m.running.flatMap Prod.snd ++ m.manual.getD []

end TableState

inductive Call where
  /-- Rows are appended to the segment that is not sealed yet. -/
  | append (segmentId rows : Nat)
  | setSealed (segmentId : Nat)
  /-- At start-up for every segment of the table, later for the newly sealed ones. -/
  | addSegment (segmentId : Nat)
  /-- Deletes take effect; `DeleteInSegment` follows later. -/
  | delete (segmentId rows : Nat)
  | deleteInSegment (segmentId : Nat)
  | checkCompaction (txnId : Nat)
  /-- The transaction has compacted the segments. -/
  | commitCompact (txnId : Nat) (compacted : List Nat)
  | rollbackCompact (txnId : Nat)
  /-- A manual compaction, and the segments its groups are made of. -/
  | disable (groups : List Nat)
  | commitManual
  /-- The old segments of `compact_data_`. -/
  | rollbackManual (compactData : List Nat)

/-- The order in which the callers make their calls. -/
def Allowed (m : TableState) : Call → Prop
  | .append s n => m.status s = .unsealed ∧ m.rows s ≤ n
  | .setSealed s => m.status s = .unsealed
  | .addSegment s => m.status s ≠ .deprecated
  | .delete s n => n ≤ m.rows s
  | .deleteInSegment _ => True
  | .checkCompaction t => t ∉ m.running.map Prod.fst
  | .commitCompact t compacted => ∃ segments, (t, segments) ∈ m.running ∧ compacted ⊆ segments
  | .rollbackCompact t => t ∈ m.running.map Prod.fst
  | .disable groups => m.alg.status = .enable ∧ groups.Nodup ∧ ∀ s ∈ groups, m.status s = .sealed
  | .commitManual => m.manual ≠ none
  | .rollbackManual compactData => ∃ groups, m.manual = some groups ∧ (compactData = groups ∨ compactData = [])

/-- A call on the algorithm alone. -/
def TableState.withAlg (m : TableState) : Except Fault DBTCompactionAlg → Except Fault TableState
  | .error e => .error e
  | .ok alg => .ok {m with alg}

def call (cfg : DBTConfig) (m : TableState) : Call → Except Fault TableState
  | .append s n | .delete s n => .ok {m with rows := Function.update m.rows s n}
  | .setSealed s => .ok (m.setStatus [s] .sealed)
  | .addSegment s => {m with added := s :: m.added}.withAlg (m.alg.addSegmentInner cfg m.rows s)
  | .deleteInSegment s => m.withAlg (m.alg.deleteInSegment cfg m.rows s)
  | .checkCompaction t =>
    match m.alg.checkCompaction cfg m.rows t with
    | .error e => .error e
    | .ok ([], alg) => .ok {m with alg}
    | .ok (s :: ret, alg) => .ok {m with alg, running := (t, s :: ret) :: m.running}
  | .commitCompact t compacted =>
    {m.setStatus compacted .deprecated with running := ((extract t m.running).map Prod.snd).getD m.running}.withAlg
      (m.alg.commitCompact t)
  | .rollbackCompact t =>
    {m with running := ((extract t m.running).map Prod.snd).getD m.running}.withAlg (m.alg.rollbackCompact t)
  | .disable groups => .ok {m with alg := m.alg.disable, manual := some groups}
  | .commitManual =>
    {m.setStatus (m.manual.getD []) .deprecated with manual := none}.withAlg (m.alg.enable cfg m.rows [])
  | .rollbackManual compactData => {m with manual := none}.withAlg (m.alg.enable cfg m.rows compactData)

def bookkeeping (cfg : DBTConfig) : Machine TableState Call Fault where
  enabled := Allowed
  step := call cfg

/-- A table whose algorithm knows no segment yet. -/
structure Start (m : TableState) : Prop where
  alg : m.alg = .new
  added : m.added = []
  running : m.running = []
  manual : m.manual = none

end Infinity.Compaction.DBT
