import Infinity.Common
import Infinity.Lib.Machine

/-! The version list of one catalog name.

Every database, table and index name owns an `EntryList`: the versions of the object
behind the name, newest in front. A version is made by a transaction, has no commit
timestamp until that transaction commits, and may be a deletion marker. `addEntry` and
`dropEntry` first look for what stands in the way (`findEntryNoLock`), which depends on
the state of the transaction behind the first version that is not being rolled back;
`getEntry` is the read path; `deleteEntry` takes back what a rolled-back transaction
made; `pickCleanup` removes versions no transaction can see any more.

The second half puts the list under any number of transactions. Rolling back is not one
step: the transaction first changes its state (`rollback`), and its versions stay in
the list until `deleteEntry` runs; in between other transactions look past them. -/
namespace Infinity.Catalog

open Lib

inductive TxnState where
  | notStarted
  | started
  | committing
  | committed
  | rollbacking
  | rollbacked
  | invalid
  deriving DecidableEq, Repr

/-- Which objects a list holds; it decides the error codes. -/
inductive EntryKind where
  | db
  | table
  | tableIndex
  deriving DecidableEq, Repr

/-- One version. `ptr` is the identity of the object, `commitTs` is `none` while the
version is uncommitted, and `indexType` is only meaningful for index versions. -/
structure Entry where
  ptr : Nat
  indexType : Nat
  txnId : Nat
  beginTs : Nat
  commitTs : Option Nat
  deleted : Bool
  deriving DecidableEq, Repr

inductive FindResult where
  | found
  | notFound
  | uncommitted
  | uncommittedDelete
  | conflict
  deriving DecidableEq, Repr

inductive ConflictType where
  | invalid
  | ignore
  | error
  | replace
  deriving DecidableEq, Repr

inductive ErrorCode where
  | duplicateDatabaseName
  | duplicateTableName
  | duplicateIndexName
  | dbNotExist
  | tableNotExist
  | indexNotExist
  | txnConflict
  deriving DecidableEq, Repr

inductive Status where
  | ok
  | ignore
  | error (code : ErrorCode) (message : String)
  deriving DecidableEq, Repr

def EntryKind.duplicated : EntryKind → Status
  | .db => .error .duplicateDatabaseName "Duplicated db entry"
  | .table => .error .duplicateTableName "Duplicated table entry"
  | .tableIndex => .error .duplicateIndexName "Duplicated table index entry"

def EntryKind.notExisted : EntryKind → Status
  | .db => .error .dbNotExist "Not existed entry."
  | .table => .error .tableNotExist "Not existed entry."
  | .tableIndex => .error .indexNotExist "Not existed entry."

def writeWriteConflict : Status :=
  .error .txnConflict
    "Write-write conflict: There is a committing/committed entry which is later than current transaction."

/-- What stands in the way of a change by `txnId`: the first version that is not being
rolled back decides. -/
def findEntryNoLock (getTxnState : Nat → TxnState) (txnId beginTs : Nat) : List Entry → Except Fault FindResult
  | [] => .ok .notFound
  | e :: rest =>
    match e.commitTs with
    | some c =>
      .ok (if beginTs ≥ c then (if e.deleted then .notFound else .found) else .conflict)
    | none =>
      match getTxnState e.txnId with
      | .started =>
        .ok (if e.txnId = txnId then (if e.deleted then .uncommittedDelete else .uncommitted) else .conflict)
      | .committing | .committed => .ok .conflict
      | .rollbacking | .rollbacked => findEntryNoLock getTxnState txnId beginTs rest
      | .notStarted | .invalid => .error (.unrecoverable "Invalid entry txn state")

/-- What a change returns: the version made or taken out, the status and the new list. -/
structure Outcome where
  entry : Option Entry
  status : Status
  entries : List Entry
  deriving DecidableEq

/-- Put `entry`, made by the calling transaction, in front unless something stands in the way. -/
def addEntry (kind : EntryKind) (getTxnState : Nat → TxnState) (entry : Entry) (conflictType : ConflictType)
    (addIfFound : Bool) (entries : List Entry) : Except Fault Outcome :=
  match findEntryNoLock getTxnState entry.txnId entry.beginTs entries with
  | .error e => .error e
  | .ok findRes =>
    match (if addIfFound && findRes == .found then FindResult.notFound else findRes) with
    | .uncommittedDelete | .notFound => .ok ⟨some entry, .ok, entry :: entries⟩
    | .uncommitted | .found =>
      match conflictType with
      | .ignore => .ok ⟨none, .ignore, entries⟩
      | _ => .ok ⟨none, kind.duplicated, entries⟩
    | .conflict => .ok ⟨none, writeWriteConflict, entries⟩

/-- A dropped index takes over the index type of the version in front. -/
def adoptIndexType (kind : EntryKind) (entry : Entry) (entries : List Entry) : Entry :=
  match kind, entries with
  | .tableIndex, front :: _ => {entry with indexType := front.indexType}
  | _, _ => entry

/-- Drop the object: a version of the transaction's own is taken out again, a committed
one gets the deletion marker `entry` in front of it. -/
def dropEntry (kind : EntryKind) (getTxnState : Nat → TxnState) (entry : Entry) (conflictType : ConflictType)
    (entries : List Entry) : Except Fault Outcome :=
  match findEntryNoLock getTxnState entry.txnId entry.beginTs entries with
  | .error e => .error e
  | .ok .uncommittedDelete | .ok .notFound =>
    match conflictType with
    | .ignore => .ok ⟨none, .ignore, entries⟩
    | _ => .ok ⟨none, kind.notExisted, entries⟩
  | .ok .uncommitted => .ok ⟨entries.head?, .ok, entries.tail⟩
  | .ok .found =>
    let dropped := adoptIndexType kind entry entries
    .ok ⟨some dropped, .ok, dropped :: entries⟩
  | .ok .conflict => .ok ⟨none, writeWriteConflict, entries⟩

/-- The version a transaction reads (`GetEntryInner1NoLock`). -/
def getEntryInner1NoLock (txnId beginTs : Nat) : List Entry → Option Entry
  | [] => none
  | e :: rest =>
    match e.commitTs with
    | some c =>
      if beginTs ≥ c then (if e.deleted then none else some e)
      else getEntryInner1NoLock txnId beginTs rest
    | none =>
      if txnId = e.txnId then (if e.deleted then none else some e)
      else getEntryInner1NoLock txnId beginTs rest

def getEntry (kind : EntryKind) (txnId beginTs : Nat) (entries : List Entry) : Option Entry × Status :=
  match getEntryInner1NoLock txnId beginTs entries with
  | some e => (some e, .ok)
  | none => (none, kind.notExisted)

/-- Take back everything a transaction made. -/
def deleteEntry (txnId : Nat) (entries : List Entry) : List Entry := entries.filter (fun e => e.txnId != txnId)

/-- The first loop of `PickCleanup`: up to the newest version older than `visibleTs`,
which goes if it is a deletion marker. Returns what is kept of that part, whether the
object was dropped there, and the rest of the list. -/
def pickVisible (visibleTs : Nat) : List Entry → List Entry × Bool × List Entry
  | [] => ([], true, [])
  | e :: rest =>
    if e.commitTs.any (· < visibleTs) then
      if e.deleted then ([], true, rest) else ([e], false, rest)
    else
      let (kept, dropped, behind) := pickVisible visibleTs rest
      (e :: kept, dropped, behind)

/-- The second loop: committed versions go, and those that are objects are handed out
with whether the object was dropped when they were superseded. -/
def pickBehind (dropped : Bool) : List Entry → List Entry × List (Entry × Bool)
  | [] => ([], [])
  | e :: rest =>
    if e.commitTs.isSome then
      if e.deleted then pickBehind true rest
      else
        let (kept, picked) := pickBehind false rest
        (kept, (e, dropped) :: picked)
    else
      let (kept, picked) := pickBehind dropped rest
      (e :: kept, picked)

/-- Remove what no transaction from `visibleTs` on can see. Returns the list left and
the versions handed to the cleanup scanner. -/
def pickCleanup (visibleTs : Nat) (entries : List Entry) : List Entry × List (Entry × Bool) :=
  let (front, dropped, behind) := pickVisible visibleTs entries
  let (kept, picked) := pickBehind dropped behind
  (front ++ kept, picked)

/-! ### The list under transactions -/

/-- A transaction in the manager's map. -/
structure TxnRecord where
  state : TxnState
  beginTs : Nat
  commitTs : Nat
  deriving DecidableEq, Repr

/-- A committed change of the list: who made it and over which span. -/
structure Change where
  txnId : Nat
  beginTs : Nat
  commitTs : Nat
  deriving DecidableEq, Repr

/-- The list, the transaction manager's clock and map, and the changes committed so far,
newest first. -/
structure System where
  entries : List Entry
  currentTs : Nat
  nextTxnId : Nat
  txnMap : Nat → Option TxnRecord
  nextPtr : Nat
  changes : List Change

def System.start (startTs : Nat) : System := ⟨[], startTs, 0, fun _ => none, 0, []⟩

/-- A transaction that is not in the map has committed. -/
def System.getTxnState (s : System) (txnId : Nat) : TxnState :=
  match s.txnMap txnId with
  | none => .committed
  | some t => t.state

inductive Call where
  | beginTxn
  | addEntry (txnId indexType : Nat) (conflictType : ConflictType) (addIfFound : Bool)
  | dropEntry (txnId indexType : Nat) (conflictType : ConflictType)
  | getWriteCommitTS (txnId : Nat)
  | commit (txnId : Nat)
  | rollback (txnId : Nat)
  | deleteEntry (txnId : Nat)
  | finishRollback (txnId : Nat)
  | cleanup (visibleTs : Nat)
  deriving DecidableEq, Repr

/-- Changes are made by started transactions, then they commit or roll back; the cleanup
scan is not ahead of any transaction in the map, nor of the next one to begin. -/
def Allowed (s : System) : Call → Prop
  | .beginTxn => True
  | .addEntry t _ _ _ | .dropEntry t _ _ | .getWriteCommitTS t =>
    ∃ r, s.txnMap t = some r ∧ r.state = .started
  | .commit t => ∃ r, s.txnMap t = some r ∧ r.state = .committing
  | .rollback t => ∃ r, s.txnMap t = some r ∧ (r.state = .started ∨ r.state = .committing)
  | .deleteEntry t => ∃ r, s.txnMap t = some r ∧ r.state = .rollbacking
  | .finishRollback t => ∃ r, s.txnMap t = some r ∧ r.state = .rollbacked
  | .cleanup visibleTs => visibleTs ≤ s.currentTs + 1 ∧ ∀ t r, s.txnMap t = some r → visibleTs ≤ r.beginTs

/-- What `init_func` makes for a transaction. -/
def System.newEntry (s : System) (t : Nat) (r : TxnRecord) (indexType : Nat) (deleted : Bool) : Entry :=
  ⟨s.nextPtr, indexType, t, r.beginTs, none, deleted⟩

/-- `Commit` stamps a version of the transaction that has no commit timestamp yet. -/
def commitOne (txnId commitTs : Nat) (e : Entry) : Entry :=
  if e.txnId = txnId ∧ e.commitTs = none then {e with commitTs := some commitTs} else e

/-- Commit every version the transaction has in the list. -/
def commitEntries (txnId commitTs : Nat) (entries : List Entry) : List Entry := entries.map (commitOne txnId commitTs)

def step (kind : EntryKind) (s : System) : Call → Except Fault System
  | .beginTxn =>
    .ok {s with
      nextTxnId := s.nextTxnId + 1
      txnMap := Function.update s.txnMap (s.nextTxnId + 1) (some ⟨.started, s.currentTs + 1, 0⟩)}
  | .addEntry t indexType conflictType addIfFound =>
    match s.txnMap t with
    | none => .ok s
    | some r =>
      (addEntry kind s.getTxnState (s.newEntry t r indexType false) conflictType addIfFound s.entries).map
        (fun o => {s with entries := o.entries, nextPtr := s.nextPtr + 1})
  | .dropEntry t indexType conflictType =>
    match s.txnMap t with
    | none => .ok s
    | some r =>
      (dropEntry kind s.getTxnState (s.newEntry t r indexType true) conflictType s.entries).map
        (fun o => {s with entries := o.entries, nextPtr := s.nextPtr + 1})
  | .getWriteCommitTS t =>
    match s.txnMap t with
    | none => .ok s
    | some r =>
      .ok {s with
        currentTs := s.currentTs + 2
        txnMap := Function.update s.txnMap t (some {r with state := .committing, commitTs := s.currentTs + 2})}
  | .commit t =>
    match s.txnMap t with
    | none => .ok s
    | some r =>
      .ok {s with
        entries := commitEntries t r.commitTs s.entries
        txnMap := Function.update s.txnMap t none
        changes := if s.entries.any (fun e => e.txnId == t && e.commitTs.isNone)
          then ⟨t, r.beginTs, r.commitTs⟩ :: s.changes else s.changes}
  | .rollback t =>
    match s.txnMap t with
    | none => .ok s
    | some r => .ok {s with txnMap := Function.update s.txnMap t (some {r with state := .rollbacking})}
  | .deleteEntry t =>
    match s.txnMap t with
    | none => .ok s
    | some r =>
      .ok {s with
        entries := deleteEntry t s.entries
        txnMap := Function.update s.txnMap t (some {r with state := .rollbacked})}
  | .finishRollback t => .ok {s with txnMap := Function.update s.txnMap t none}
  | .cleanup visibleTs => .ok {s with entries := (pickCleanup visibleTs s.entries).1}

def listMachine (kind : EntryKind) : Machine System Call Fault := ⟨Allowed, step kind⟩

end Infinity.Catalog
