import Infinity.Common
import Infinity.Lib.Machine
import Infinity.Lib.OrderedMap

/-! The transaction manager's own records of a transaction, from `BeginTxn` to `CleanupTxn`.

A transaction object lives as long as something holds it: the manager's `txn_map_`, or
the candidate list of a conflict check that is still going on. The manager also keeps
weak references to all transactions in the order they began, the committing ones by
commit timestamp, and the pins of the conflict checks; from these it answers two
questions, up to which timestamp everything has committed (`maxCommittedTs`) and up to
which timestamp old versions may be cleaned up (`getCleanupScanTS`).

Every part of a call that runs under the manager's lock is one call here, with the
changes its own thread makes to the transaction right after it. Reporting to the log is
left to `Infinity.Transaction.SubmitOrder`. -/
namespace Infinity.Transaction.Lifecycle

open Lib

inductive TxnState where
  | started
  | committing
  | committed
  | rollbacking
  | rollbacked
  deriving DecidableEq, Repr

def TxnState.toStr : TxnState → String
  | .started => "Started"
  | .committing => "Committing"
  | .committed => "Committed"
  | .rollbacking => "Rollbacking"
  | .rollbacked => "Rollbacked"

inductive TransactionType where
  | checkpoint
  | read
  | normal
  deriving DecidableEq, Repr

structure TxnContext where
  beginTs : Nat := 0
  commitTs : Nat := 0
  state : TxnState := .started
  txnType : TransactionType := .read
  isWriteTransaction : Bool := false
  deriving DecidableEq, Repr

/-- The locals of a conflict check while it compares: the candidates it holds and its
pin, `none` where the source has `UNCOMMIT_TS`. -/
structure Check where
  candidateTxns : List Nat
  minCheckingTs : Option Nat
  deriving DecidableEq, Repr

/-- The manager with the transaction objects, which are named by their ids. The objects
of expired references keep their last content in `txns`; nothing reads it. -/
structure TxnManager where
  isRunning : Bool
  nextTxnId : Nat
  currentTs : Nat
  maxCommittedTs : Nat
  ckpBeginTs : Option Nat
  txns : Nat → TxnContext
  txnMap : List Nat
  beginnedTxns : List Nat
  committingTxns : OrderedMap Nat Nat
  checkingTs : OrderedMap Nat Unit
  checks : OrderedMap Nat Check

/-- `max_committed_ts_` once the timestamp `c` has left the committing ones. -/
def watermark (committingTxns : OrderedMap Nat Nat) (c old : Nat) : Nat :=
  match committingTxns.begin? with
  | none => c
  | some (first, _) => if first > c then c else old

namespace TxnManager

variable (m : TxnManager)

/-- Something holds the transaction, so a weak reference to it can be locked. -/
def alive (t : Nat) : Bool := decide (t ∈ m.txnMap) || m.checks.entries.any (fun e => decide (t ∈ e.2.candidateTxns))

/-- `BeginTxn`. A second checkpoint gets no transaction, but uses up its id. -/
def beginTxn (txnType : TransactionType) : Except Fault (Option Nat × TxnManager) :=
  if !m.isRunning then
    .error (.unrecoverable "TxnManager is not running, cannot create txn")
  else
    let txnId := m.nextTxnId + 1
    let beginTs := m.currentTs + 1
    if txnType = .checkpoint ∧ m.ckpBeginTs.isSome then
      .ok (none, {m with nextTxnId := txnId})
    else
      .ok (some txnId, {m with
        nextTxnId := txnId
        ckpBeginTs := if txnType = .checkpoint then some beginTs else m.ckpBeginTs
        txns := Function.update m.txns txnId {beginTs := beginTs, txnType := txnType}
        txnMap := txnId :: m.txnMap
        beginnedTxns := m.beginnedTxns ++ [txnId]})

/-- `GetReadCommitTS`. -/
def getReadCommitTS (t : Nat) : Nat × TxnManager :=
  (m.currentTs + 1, {m with txns := Function.update m.txns t {m.txns t with isWriteTransaction := false}})

/-- `GetWriteCommitTS`. -/
def getWriteCommitTS (t : Nat) : Nat × TxnManager :=
  let commitTs := m.currentTs + 2
  (commitTs, {m with
    currentTs := commitTs
    committingTxns := m.committingTxns.emplace commitTs t
    txns := Function.update m.txns t {m.txns t with isWriteTransaction := true}})

def setTxnCommitting (t commitTs : Nat) : Except Fault TxnManager :=
  if (m.txns t).state ≠ .started then
    .error (.unrecoverable "Transaction isn't in STARTED status.")
  else
    .ok {m with txns := Function.update m.txns t {m.txns t with state := .committing, commitTs := commitTs}}

def setTxnCommitted (t : Nat) : Except Fault TxnManager :=
  if (m.txns t).state ≠ .committing then
    .error (.unrecoverable "Transaction isn't in COMMITTING status.")
  else
    .ok {m with txns := Function.update m.txns t {m.txns t with state := .committed}}

def setTxnRollbacking (t rollbackTs : Nat) : Except Fault TxnManager :=
  if (m.txns t).state ≠ .committing ∧ (m.txns t).state ≠ .started then
    .error (.unrecoverable s!"Transaction is in {(m.txns t).state.toStr} status, which can't rollback.")
  else
    .ok {m with txns := Function.update m.txns t {m.txns t with state := .rollbacking, commitTs := rollbackTs}}

/-- The candidates of a check and the least of their begin timestamps. -/
def collect (commitTs : Nat) : List (Nat × Nat) → List Nat → Option Nat → List Nat × Option Nat
  | [], candidateTxns, minCheckingTs => (candidateTxns, minCheckingTs)
  | (committingTs, t) :: rest, candidateTxns, minCheckingTs =>
    if commitTs > committingTs then
      let beginTs := (m.txns t).beginTs
      collect commitTs rest (candidateTxns ++ [t]) (some ((minCheckingTs.map (min · beginTs)).getD beginTs))
    else collect commitTs rest candidateTxns minCheckingTs

/-- The part of `CheckTxnConflict` before the comparisons. -/
def startCheck (t : Nat) : TxnManager :=
  let (candidateTxns, minCheckingTs) := m.collect (m.txns t).commitTs m.committingTxns.entries [] none
  {m with
    checkingTs := match minCheckingTs with
      | some ts => m.checkingTs.emplace ts ()
      | none => m.checkingTs
    checks := m.checks.emplace t ⟨candidateTxns, minCheckingTs⟩}

/-- The end of `CheckTxnConflict`: the pin is taken out, then the candidates are let go. -/
def finishCheck (t : Nat) : TxnManager :=
  match m.checks.find? t with
  | none => m
  | some check =>
    {m with
      checkingTs := match check.minCheckingTs with
        | some ts => m.checkingTs.erase ts
        | none => m.checkingTs
      checks := m.checks.erase t}

/-- Pop expired references off the front; the first live one gives the oldest begin timestamp. -/
def popExpired : List Nat → List Nat
  | [] => []
  | t :: rest => if m.alive t then t :: rest else popExpired rest

/-- `GetCleanupScanTS`, given what the log manager answers as the last checkpoint. -/
def getCleanupScanTS (lastCheckpointTs : Nat) : Nat × TxnManager :=
  let beginnedTxns := m.popExpired m.beginnedTxns
  let firstUncommittedBeginTs := match beginnedTxns with
    | t :: _ => (m.txns t).beginTs
    | [] => m.currentTs
  let leastTs := min firstUncommittedBeginTs lastCheckpointTs
  let leastTs := match m.checkingTs.begin? with
    | some (ts, _) => min leastTs ts
    | none => leastTs
  (leastTs, {m with beginnedTxns := beginnedTxns})

/-- `CleanupTxn`. -/
def cleanupTxn (t : Nat) : Except Fault TxnManager :=
  let txn := m.txns t
  if txn.isWriteTransaction then
    let done : Except Fault TxnState := match txn.state with
      | .committing => .ok .committed
      | .rollbacking => .ok .rollbacked
      | state => .error (.unrecoverable s!"Invalid transaction status: {state.toStr}")
    match done with
    | .error e => .error e
    | .ok state =>
      if m.committingTxns.find? txn.commitTs = none then
        .error (.unrecoverable "Txn not found in committing_txns_")
      else if t ∉ m.txnMap then
        .error (.unrecoverable s!"Txn: {t} not found in txn map")
      else
        let committingTxns := m.committingTxns.erase txn.commitTs
        .ok {m with
          txns := Function.update m.txns t {txn with state := state}
          committingTxns := committingTxns
          txnMap := m.txnMap.filter (· ≠ t)
          maxCommittedTs := watermark committingTxns txn.commitTs m.maxCommittedTs}
  else .ok {m with txnMap := m.txnMap.filter (· ≠ t)}

/-- `CommitTxn` and `RollBackTxn` end a checkpoint before they clean up. -/
def endTxn (t : Nat) : Except Fault TxnManager :=
  if (m.txns t).txnType = .checkpoint then {m with ckpBeginTs := none}.cleanupTxn t else m.cleanupTxn t

/-- `InCheckpointProcess`. -/
def inCheckpointProcess (commitTs : Nat) : Bool × TxnManager :=
  match m.ckpBeginTs with
  | some ts => if commitTs > ts then (true, {m with ckpBeginTs := none}) else (false, m)
  | none => (false, m)

end TxnManager

/-! ### The calls of any number of transactions -/

inductive Call where
  | beginTxn (txnType : TransactionType)
  /-- `Txn::Commit` of a transaction that wrote nothing, up to its clean-up. -/
  | commitReadOnly (t : Nat)
  /-- `Txn::Commit` of a writing transaction takes its timestamp. -/
  | commitWrite (t : Nat)
  | startCheck (t : Nat)
  | finishCheck (t : Nat)
  /-- `Txn::Rollback`. -/
  | rollback (t : Nat)
  | cleanupTxn (t : Nat)
  | inCheckpointProcess (commitTs : Nat)
  | getCleanupScanTS (lastCheckpointTs : Nat)

/-- The order in which the thread of a transaction makes its calls: it commits or rolls
back, checks while it is committing, and is cleaned up once, last. -/
def Allowed (m : TxnManager) : Call → Prop
  | .beginTxn _ => True
  | .commitReadOnly t | .commitWrite t => t ∈ m.txnMap ∧ (m.txns t).state = .started
  | .startCheck t =>
    t ∈ m.txnMap ∧ (m.txns t).state = .committing ∧ (m.txns t).isWriteTransaction ∧ m.checks.find? t = none
  | .finishCheck t => m.checks.find? t ≠ none
  | .rollback t =>
    t ∈ m.txnMap ∧ ((m.txns t).state = .started ∨ (m.txns t).state = .committing) ∧ m.checks.find? t = none
  | .cleanupTxn t => t ∈ m.txnMap ∧ (m.txns t).state ≠ .started ∧ m.checks.find? t = none
  | .inCheckpointProcess _ => True
  | .getCleanupScanTS _ => True

def call (m : TxnManager) : Call → Except Fault TxnManager
  | .beginTxn txnType => (m.beginTxn txnType).map Prod.snd
  | .commitReadOnly t =>
    let (commitTs, m) := m.getReadCommitTS t
    (m.setTxnCommitting t commitTs).bind fun m => m.setTxnCommitted t
  | .commitWrite t =>
    let (commitTs, m) := m.getWriteCommitTS t
    m.setTxnCommitting t commitTs
  | .startCheck t => .ok (m.startCheck t)
  | .finishCheck t => .ok (m.finishCheck t)
  | .rollback t =>
    match (m.txns t).state with
    | .started =>
      let (abortTs, m) := m.getReadCommitTS t
      m.setTxnRollbacking t abortTs
    | .committing => m.setTxnRollbacking t (m.txns t).commitTs
    | state => .error (.unrecoverable s!"Transaction {t} state is {state.toStr}.")
  | .cleanupTxn t => m.endTxn t
  | .inCheckpointProcess commitTs => .ok (m.inCheckpointProcess commitTs).2
  | .getCleanupScanTS lastCheckpointTs => .ok (m.getCleanupScanTS lastCheckpointTs).2

def lifecycle : Machine TxnManager Call Fault := ⟨Allowed, call⟩

/-- A running manager before its first transaction. -/
def TxnManager.start (nextTxnId startTs : Nat) : TxnManager where
  isRunning := true
  nextTxnId := nextTxnId
  currentTs := startTs
  maxCommittedTs := startTs
  ckpBeginTs := none
  txns := fun _ => {}
  txnMap := []
  beginnedTxns := []
  committingTxns := .empty
  checkingTs := .empty
  checks := .empty

end Infinity.Transaction.Lifecycle
