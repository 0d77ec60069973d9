import Infinity.Wal.WalLog

/-! The catalog files of full and delta checkpoints.

A full checkpoint writes `FULL.{max_commit_ts}.json`, a delta checkpoint
`DELTA.{max_commit_ts}`, before the transaction of the checkpoint is logged. Once a full
checkpoint is logged, `RecycleCatalogFile` deletes the older full files and the delta files
up to it, one file after another. Recovery takes the `max_commit_ts` of a logged checkpoint
and selects the newest full file not above it and the delta files in between
(`parseValidCheckpointFilenames`).

File names stand for themselves here: `CatalogFile.full ts` is `FULL.{ts}.json` and
`CatalogFile.delta ts` is `DELTA.{ts}`. The directory is listed in any order. -/
namespace Infinity.Wal

open Lib

inductive CatalogFile where
  | full (maxCommitTs : Nat)
  | delta (maxCommitTs : Nat)
  deriving DecidableEq, Repr

namespace CatalogFile

def maxCommitTs : CatalogFile → Nat
  | full ts => ts
  | delta ts => ts

def full? : CatalogFile → Option Nat
  | full ts => some ts
  | delta _ => none

def delta? : CatalogFile → Option Nat
  | full _ => none
  | delta ts => some ts

/-- The file a checkpoint writes. -/
def ofCheckpoint (maxCommitTs : Nat) (isFull : Bool) : CatalogFile :=
  if isFull then full maxCommitTs else delta maxCommitTs

end CatalogFile

def sortInfos (infos : List Nat) : List Nat := infos.mergeSort fun a b => decide (a ≤ b)

/-- `ParseValidCheckpointFilenames`, given the timestamps in the names of the listed files. -/
def parseValidCheckpointFilenames (fullInfos deltaInfos : List Nat) (maxCheckpointTs : Nat) : Option (Nat × List Nat) :=
  let fullInfos := (sortInfos fullInfos).rdropWhile fun ts => decide (ts > maxCheckpointTs)
  match fullInfos.getLast? with
  | none => none
  | some lastFullInfo =>
    let deltaInfos := (sortInfos deltaInfos).rdropWhile fun ts => decide (ts > maxCheckpointTs)
    some (lastFullInfo, deltaInfos.dropWhile fun ts => decide (ts ≤ lastFullInfo))

/-- A call of `RecycleCatalogFile` that has listed the directory: what it still deletes, and
whether it saw the file of its own checkpoint. -/
structure Recycle where
  maxCommitTs : Nat
  fullInfos : List Nat
  found : Bool
  deltaInfos : List Nat
  deriving DecidableEq, Repr

inductive CatalogFault where
  | wal (fault : WalFault)
  /-- "Full catalog file {} not found in the catalog directory: {}" -/
  | fullNotFound (maxCommitTs : Nat)
  deriving DecidableEq, Repr

/-- The log manager with the catalog directory. For the statements only: every file ever
written, in that order, and every file deleted, with the full checkpoint it was deleted for. -/
structure Store where
  wal : System
  fullInfos : List Nat
  deltaInfos : List Nat
  recycling : List Recycle
  saved : List CatalogFile
  deleted : List (Nat × CatalogFile)
  deriving DecidableEq, Repr

def Store.start : Store := ⟨Wal.start, [], [], [], [], []⟩

/-- `FullCheckpointInner`, which saves the full catalog if it is not skipped. -/
def fullCheckpoint (s : Store) (maxCommitTs : Nat) : Except CatalogFault Store :=
  match chooseFull s.wal maxCommitTs with
  | .error fault => .error (.wal fault)
  | .ok wal =>
    if s.wal.lastFullCkpTs = some maxCommitTs then .ok s
    else .ok {s with
      wal := wal
      fullInfos := s.fullInfos ++ [maxCommitTs]
      saved := s.saved ++ [.full maxCommitTs]}

/-- `DeltaCheckpointInner`, which saves the delta catalog if it takes effect. -/
def deltaCheckpoint (s : Store) (seen maxCommitTs : Nat) : Except CatalogFault Store :=
  match chooseDelta s.wal seen maxCommitTs with
  | .error fault => .error (.wal fault)
  | .ok wal =>
    if wal.lastCkpTs = s.wal.lastCkpTs then .ok s
    else .ok {s with
      wal := wal
      deltaInfos := s.deltaInfos ++ [maxCommitTs]
      saved := s.saved ++ [.delta maxCommitTs]}

/-- The beginning of `RecycleCatalogFile`, with the order in which the directory is listed. -/
def recycleCatalogFile (s : Store) (maxCommitTs : Nat) (fullInfos deltaInfos : List Nat) : Store :=
  {s with recycling := s.recycling ++ [{
    maxCommitTs := maxCommitTs
    fullInfos := fullInfos.filter fun ts => decide (ts < maxCommitTs)
    found := decide (maxCommitTs ∈ fullInfos)
    deltaInfos := deltaInfos.filter fun ts => decide (ts ≤ maxCommitTs)}]}

/-- Its next deletion; the check for its own file comes after the full files. -/
def deleteNext (s : Store) (job : Recycle) : Except CatalogFault Store :=
  match job.fullInfos with
  | ts :: rest => .ok {s with
      fullInfos := s.fullInfos.filter (· ≠ ts)
      deleted := s.deleted ++ [(job.maxCommitTs, .full ts)]
      recycling := s.recycling.erase job ++ [{job with fullInfos := rest}]}
  | [] =>
    if !job.found then .error (.fullNotFound job.maxCommitTs)
    else
      match job.deltaInfos with
      | ts :: rest => .ok {s with
          deltaInfos := s.deltaInfos.filter (· ≠ ts)
          deleted := s.deleted ++ [(job.maxCommitTs, .delta ts)]
          recycling := s.recycling.erase job ++ [{job with deltaInfos := rest}]}
      | [] => .ok {s with recycling := s.recycling.erase job}

inductive CatalogCall where
  /-- Any call of the log manager but the choice of a checkpoint. -/
  | wal (call : Call)
  | fullCheckpoint (maxCommitTs : Nat)
  | deltaCheckpoint (seen maxCommitTs : Nat)
  | recycleCatalogFile (maxCommitTs : Nat) (fullInfos deltaInfos : List Nat)
  | deleteNext (job : Recycle)
  deriving Repr

/-- A checkpoint with this `max_commit_ts` is in the log. -/
def Logged (s : Store) (maxCommitTs : Nat) (isFull : Bool) : Prop :=
  ∃ e ∈ s.wal.logged, .checkpoint maxCommitTs isFull ∈ e.cmds

/-- Catalog files are recycled for a logged full checkpoint. -/
def catalogEnabled (s : Store) : CatalogCall → Prop
  | .wal (.chooseFull _) | .wal (.chooseDelta _ _) => False
  | .wal call => enabled s.wal call
  | .fullCheckpoint maxCommitTs => enabled s.wal (.chooseFull maxCommitTs)
  | .deltaCheckpoint seen maxCommitTs => enabled s.wal (.chooseDelta seen maxCommitTs)
  | .recycleCatalogFile maxCommitTs fullInfos deltaInfos =>
    Logged s maxCommitTs true ∧ fullInfos.Perm s.fullInfos ∧ deltaInfos.Perm s.deltaInfos
  | .deleteNext job => job ∈ s.recycling

def catalogStep (s : Store) : CatalogCall → Except CatalogFault Store
  | .wal call =>
    match step s.wal call with
    | .error fault => .error (.wal fault)
    | .ok wal => .ok {s with wal := wal}
  | .fullCheckpoint maxCommitTs => fullCheckpoint s maxCommitTs
  | .deltaCheckpoint seen maxCommitTs => deltaCheckpoint s seen maxCommitTs
  | .recycleCatalogFile maxCommitTs fullInfos deltaInfos =>
    .ok (recycleCatalogFile s maxCommitTs fullInfos deltaInfos)
  | .deleteNext job => deleteNext s job

def catalogMachine : Machine Store CatalogCall CatalogFault := ⟨catalogEnabled, catalogStep⟩

/-! ### What recovery needs -/

/-- The files written after `file`. -/
def writtenAfter (file : CatalogFile) (saved : List CatalogFile) : List CatalogFile :=
  (saved.dropWhile fun f => decide (f ≠ file)).tail

/-- What a recovery at `maxCheckpointTs` needs of all that was ever written: the newest full
file not above it, and the delta files written after that one and not above it. -/
def needed (saved : List CatalogFile) (maxCheckpointTs : Nat) : Option (Nat × List Nat) :=
  match ((saved.filterMap CatalogFile.full?).filter fun ts => decide (ts ≤ maxCheckpointTs)).getLast? with
  | none => none
  | some ts => some (ts, ((writtenAfter (.full ts) saved).filterMap CatalogFile.delta?).filter
      fun d => decide (d ≤ maxCheckpointTs))

/-- What a crash may leave in the directory, listed in any order: files that were written,
and every one of them unless it was deleted. Deletions may be undone by the crash. -/
structure CrashDir (s : Store) (fullInfos deltaInfos : List Nat) : Prop where
  fullNodup : fullInfos.Nodup
  deltaNodup : deltaInfos.Nodup
  full : ∀ ts ∈ fullInfos, .full ts ∈ s.saved
  delta : ∀ ts ∈ deltaInfos, .delta ts ∈ s.saved
  fullKept : ∀ ts, .full ts ∈ s.saved → ts ∈ fullInfos ∨ ∃ c, (c, .full ts) ∈ s.deleted
  deltaKept : ∀ ts, .delta ts ∈ s.saved → ts ∈ deltaInfos ∨ ∃ c, (c, .delta ts) ∈ s.deleted

end Infinity.Wal
