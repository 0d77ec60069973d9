import Infinity.Common
import Infinity.Lib.Machine
import Infinity.Table.Entries

/-! What deleting and compacting transactions leave on a segment.

A deleting transaction puts itself into `delete_txns_` of every segment it deletes from and
is taken out again by `CommitSegment`. A compacting transaction takes sealed segments with
`TrySetCompacting`, closes them to new deletes with `SetNoDelete`, which it repeats until
no delete is running, hands the list to `TxnTableStore::Compact`, and at commit deprecates
them. `Rollback` gives back the segments that list names, and nothing else.

The model keeps what these functions read and write of a segment, and for each transaction
how far it is. Every call of the machine is one critical section of the source: the lock of
a segment, or the locks `CheckDeleteConflict` takes together. -/
namespace Infinity.Compaction.SegmentLifecycle

open Lib Table

/-! ### A segment -/

/-- What these functions read and write of a `SegmentEntry`. `compactStateData` is the
transaction whose `CompactStateData` the segment points to. -/
structure Segment where
  status : SegmentStatus
  deleteTxns : Finset Nat
  compactStateData : Option Nat
  deprecateTs : Option Nat
  deriving DecidableEq

namespace Segment

/-- Held by a compaction, as far as the status says. -/
abbrev Busy (e : Segment) : Prop := e.status = .compacting ∨ e.status = .noDelete

def setSealed (e : Segment) : Bool × Segment :=
  if e.status ≠ .unsealed then (false, e) else (true, {e with status := .sealed})

def trySetCompacting (e : Segment) (compactStateData : Nat) : Bool × Segment :=
  if e.status ≠ .sealed then (false, e)
  else (true, {e with compactStateData := some compactStateData, status := .compacting})

/-- The status changes whether or not deletes are still running. -/
def setNoDelete (e : Segment) : Except Fault (Bool × Segment) :=
  if e.status ≠ .compacting ∧ e.status ≠ .noDelete then
    .error (.unrecoverable "Assert: kNoDelete is only allowed to set on compacting segment.")
  else if e.deleteTxns ≠ ∅ then .ok (false, {e with status := .noDelete})
  else .ok (true, {e with status := .noDelete, compactStateData := none})

def setDeprecated (e : Segment) (deprecateTs : Nat) : Except Fault Segment :=
  if e.status ≠ .noDelete then
    .error (.unrecoverable "Assert: kDeprecated is only allowed to set on compacting segment.")
  else .ok {e with status := .deprecated, deprecateTs := some deprecateTs}

def rollbackCompact (e : Segment) : Except Fault Segment :=
  if e.status ≠ .noDelete then
    .error (.unrecoverable "Assert: Rollbacked segment should be in No Delete state.")
  else .ok {e with status := .sealed, deprecateTs := none}

/-- `CommitSegment` of a transaction that deletes from the segment. -/
def commitSegment (e : Segment) (txnId : Nat) : Except Fault Segment :=
  if e.status = .deprecated then .ok e
  else if e.compactStateData ≠ none ∧ e.status ≠ .compacting ∧ e.status ≠ .noDelete then
    .error (.unrecoverable "Assert: compact_task is not nullptr means segment is being compacted")
  else .ok {e with deleteTxns := e.deleteTxns.erase txnId}

/-- A deleting transaction is refused. -/
abbrev Closed (e : Segment) : Prop := e.status = .deprecated ∨ e.status = .noDelete

end Segment

/-- All segments are locked and looked at before any is changed. -/
def checkDeleteConflict (segments : Nat → Segment) (deleted : Finset Nat) (txnId : Nat) : Bool × (Nat → Segment) :=
  if ∃ s ∈ deleted, (segments s).Closed then (true, segments)
  else (false, fun s => if s ∈ deleted then {segments s with deleteTxns := insert txnId (segments s).deleteTxns}
    else segments s)

/-! ### Transactions -/

/-- How far a transaction is, with the segments it has still to do with. -/
inductive Phase where
  | idle
  /-- Registered in the segments. -/
  | deleting (registered : Finset Nat)
  /-- A later statement ran into a closed segment. -/
  | conflicted (registered : Finset Nat)
  /-- `CommitSegment` is still to be called for the segments. -/
  | committing (left : Finset Nat)
  /-- `TrySetCompacting` took the segments. -/
  | compacting (old : Finset Nat)
  /-- In `ApplyDeletes`: `SetNoDelete` succeeded on `closed` and is still to be called for `left`. -/
  | applying (closed left : Finset Nat)
  /-- `TxnTableStore::Compact` wrote the segments into `compact_data_`. -/
  | compacted (old : Finset Nat)
  | deprecating (commitTs : Nat) (left : Finset Nat)
  | rollingBack (left : Finset Nat)
  | finished
  deriving DecidableEq

namespace Phase

/-- The segments a compaction has taken and not given back. -/
def held : Phase → Finset Nat
  | .compacting old | .compacted old => old
  | .applying closed left => closed ∪ left
  | .deprecating _ left | .rollingBack left => left
  | _ => ∅

/-- Those of them that `SetNoDelete` succeeded on. -/
def cleared : Phase → Finset Nat
  | .applying closed _ => closed
  | .compacted old => old
  | .deprecating _ left | .rollingBack left => left
  | _ => ∅

/-- The segments a deleting transaction is registered in. -/
def registered : Phase → Finset Nat
  | .deleting r | .conflicted r | .committing r => r
  | _ => ∅

/-- The old segments of `compact_data_`. -/
def compactData : Phase → Finset Nat
  | .compacted old => old
  | _ => ∅

/-- The timestamp `CommitCompact` was given. -/
def commitTs : Phase → Nat
  | .deprecating ts _ => ts
  | _ => 0

/-- `SetNoDelete` answered for the segment. A refusal ends the pass, and the next pass
begins with the first segment again. -/
def answered : Phase → Nat → Bool → Phase
  | .applying closed left, segmentId, true => .applying (insert segmentId closed) (left.erase segmentId)
  | .applying closed left, _, false => .applying ∅ (closed ∪ left)
  | p, _, _ => p

/-- The segment is dealt with. -/
def without : Phase → Nat → Phase
  | .committing left, segmentId => .committing (left.erase segmentId)
  | .deprecating ts left, segmentId => .deprecating ts (left.erase segmentId)
  | .rollingBack left, segmentId => .rollingBack (left.erase segmentId)
  | p, _ => p

/-- Nothing more will come of the transaction. -/
abbrev Over (p : Phase) : Prop := p = .idle ∨ p = .finished

end Phase

/-! ### The system -/

structure System where
  segments : Nat → Segment
  phase : Nat → Phase

namespace System

def move (m : System) (txnId : Nat) (p : Phase) : System := {m with phase := Function.update m.phase txnId p}

def put (m : System) (segmentId : Nat) (e : Segment) : System :=
  {m with segments := Function.update m.segments segmentId e}

end System

inductive Call where
  | setSealed (segmentId : Nat)
  /-- A delete statement. -/
  | delete (txnId : Nat) (deleted : Finset Nat)
  | commitWrite (txnId : Nat)
  | commitSegment (txnId segmentId : Nat)
  | trySetCompacting (txnId segmentId : Nat)
  | applyDeletes (txnId : Nat)
  | setNoDelete (txnId segmentId : Nat)
  | compact (txnId : Nat)
  | commitCompact (txnId commitTs : Nat)
  | setDeprecated (txnId segmentId : Nat)
  | rollback (txnId : Nat)
  | rollbackCompact (txnId segmentId : Nat)
  | finish (txnId : Nat)

/-- The order in which a transaction makes its calls. -/
def Allowed (m : System) : Call → Prop
  | .setSealed _ => True
  | .delete t _ => m.phase t = .idle ∨ ∃ r, m.phase t = .deleting r
  | .commitWrite t => ∃ r, m.phase t = .deleting r
  | .commitSegment t s => ∃ left, m.phase t = .committing left ∧ s ∈ left
  | .trySetCompacting t _ => m.phase t = .idle ∨ ∃ old, m.phase t = .compacting old
  | .applyDeletes t => ∃ old, m.phase t = .compacting old
  | .setNoDelete t s => ∃ closed left, m.phase t = .applying closed left ∧ s ∈ left
  | .compact t => ∃ closed, m.phase t = .applying closed ∅
  | .commitCompact t _ => ∃ old, m.phase t = .compacted old
  | .setDeprecated t s => ∃ ts left, m.phase t = .deprecating ts left ∧ s ∈ left
  | .rollback t => ∀ left ts, m.phase t ≠ .committing left ∧ m.phase t ≠ .deprecating ts left ∧
      m.phase t ≠ .rollingBack left ∧ m.phase t ≠ .finished
  | .rollbackCompact t s => ∃ left, m.phase t = .rollingBack left ∧ s ∈ left
  | .finish t => m.phase t = .committing ∅ ∨ m.phase t = .rollingBack ∅ ∨ ∃ ts, m.phase t = .deprecating ts ∅

def call (m : System) : Call → Except Fault System
  | .setSealed s => .ok (m.put s (m.segments s).setSealed.2)
  | .delete t deleted =>
    match checkDeleteConflict m.segments deleted t with
    | (true, _) => .ok (m.move t (.conflicted (m.phase t).registered))
    | (false, segments) => .ok ({m with segments}.move t (.deleting ((m.phase t).registered ∪ deleted)))
  | .commitWrite t => .ok (m.move t (.committing (m.phase t).registered))
  | .commitSegment t s =>
    match (m.segments s).commitSegment t with
    | .error e => .error e
    | .ok e => .ok ((m.put s e).move t ((m.phase t).without s))
  | .trySetCompacting t s =>
    match (m.segments s).trySetCompacting t with
    | (false, _) => .ok (m.move t (.compacting (m.phase t).held))
    | (true, e) => .ok ((m.put s e).move t (.compacting (insert s (m.phase t).held)))
  | .applyDeletes t => .ok (m.move t (.applying ∅ (m.phase t).held))
  | .setNoDelete t s =>
    match (m.segments s).setNoDelete with
    | .error e => .error e
    | .ok (success, e) => .ok ((m.put s e).move t ((m.phase t).answered s success))
  | .compact t => .ok (m.move t (.compacted (m.phase t).held))
  | .commitCompact t commitTs => .ok (m.move t (.deprecating commitTs (m.phase t).compactData))
  | .setDeprecated t s =>
    match (m.segments s).setDeprecated (m.phase t).commitTs with
    | .error e => .error e
    | .ok e => .ok ((m.put s e).move t ((m.phase t).without s))
  | .rollback t => .ok (m.move t (.rollingBack (m.phase t).compactData))
  | .rollbackCompact t s =>
    match (m.segments s).rollbackCompact with
    | .error e => .error e
    | .ok e => .ok ((m.put s e).move t ((m.phase t).without s))
  | .finish t => .ok (m.move t .finished)

/-- Any number of transactions, call by call. -/
def lifecycle : Machine System Call Fault where
  enabled := Allowed
  step := call

/-- No transaction has begun, and no segment bears a mark of one. -/
structure Start (m : System) : Prop where
  idle : ∀ t, m.phase t = .idle
  calm : ∀ s, ¬(m.segments s).Busy ∧ (m.segments s).deleteTxns = ∅ ∧ (m.segments s).compactStateData = none

end Infinity.Compaction.SegmentLifecycle
