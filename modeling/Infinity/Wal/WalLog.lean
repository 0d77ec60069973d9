import Infinity.Lib.Machine

/-! The write-ahead log and how it is read after a crash.

Entries are appended to `wal.log` in the order of their commit timestamps. When the file
is large, or a checkpoint begins, it is swapped: renamed after the last timestamp in it,
and a new `wal.log` is made. A checkpoint has a `max_commit_ts`, up to which everything is
in the catalog files; its own entry says so in the log, and after that the log files named
after timestamps up to it are recycled.

After a crash `ReplayWalFile` reads the files backwards, newest file and newest entry
first. It collects the entries up to the first checkpoint entry it meets, and from there
on those above the checkpoint's `max_commit_ts`, until one is not.

A checkpoint chooses its `max_commit_ts` first and logs it later, in the transaction it
runs in. The transactions of the periodic checkpoints run one at a time, but a checkpoint
that a statement asks for runs in a transaction of its own, so that the model keeps what
is chosen and not logged yet. -/
namespace Infinity.Wal

open Lib

inductive WalCmd where
  | checkpoint (maxCommitTs : Nat) (isFullCheckpoint : Bool)
  /-- Any other command. -/
  | other (info : Nat)
  deriving DecidableEq, Repr

structure WalEntry where
  txnId : Nat
  commitTs : Nat
  cmds : List WalCmd
  deriving DecidableEq, Repr

/-- The loop of `IsCheckPoint`: the largest `max_commit_ts` of the checkpoint commands. -/
def maxCheckpoint : List WalCmd → Nat → Nat
  | [], maxCommitTs => maxCommitTs
  | .checkpoint ts _ :: cmds, maxCommitTs => maxCheckpoint cmds (if ts > maxCommitTs then ts else maxCommitTs)
  | .other _ :: cmds, maxCommitTs => maxCheckpoint cmds maxCommitTs

/-- `IsCheckPoint`, with the `max_commit_ts` of the command it finds. -/
def WalEntry.isCheckPoint (e : WalEntry) : Option Nat :=
  if maxCheckpoint e.cmds 0 ≠ 0 then some (maxCheckpoint e.cmds 0) else none

inductive WalFault where
  /-- "WalManager::UpdateCommitState commit_ts {} <= max_commit_ts_ {} ..." -/
  | commitState (commitTs maxCommitTs : Nat)
  /-- "last_full_ckp_ts {} >= max_commit_ts {} or last_ckp_ts {} > max_commit_ts {}" -/
  | fullCheckpoint (maxCommitTs : Nat)
  /-- "last_ckp_ts {} >= max_commit_ts {}" -/
  | deltaCheckpoint (lastCkpTs maxCommitTs : Nat)
  /-- "new_max_commit_ts = 0" -/
  | zeroCheckpoint
  /-- "File: {}, exists!" -/
  | fileExists (maxCommitTs : Nat)
  /-- The log file is closed between the two halves of a swap. -/
  | notOpen
  /-- "Found unexpected bad wal entry" -/
  | badEntry
  /-- "WAL replay: No checkpoint found in wal" -/
  | noCheckpoint
  /-- "Wal Replay: Commit ts should be greater than max commit ts, commit_ts: {}, max_commit: {}" -/
  | replayOrder (commitTs maxCommitTs : Nat)
  deriving DecidableEq, Repr

/-- The log manager and its directory. `files` are the swapped files by the timestamp they
are named after, `current` is `wal.log` unless it has just been renamed. For the statements
only: all entries ever logged, all files ever swapped and the names of those recycled. -/
structure System where
  maxCommitTs : Nat
  lastSwapWalTs : Nat
  lastCkpTs : Option Nat
  lastFullCkpTs : Option Nat
  pending : List (Nat × Bool)
  files : List (Nat × List WalEntry)
  current : Option (List WalEntry)
  logged : List WalEntry
  swapped : List (Nat × List WalEntry)
  recycled : List Nat
  deriving DecidableEq, Repr

/-- A first start. `UNCOMMIT_TS` stands for no checkpoint yet. -/
def start : System := ⟨0, 0, none, none, [], [], some [], [], [], []⟩

/-- `Flush` writes the entry of a transaction and `UpdateCommitState` checks the order. -/
def writeEntry (s : System) (e : WalEntry) : Except WalFault System :=
  match s.current with
  | none => .error .notOpen
  | some entries =>
    if e.commitTs ≤ s.maxCommitTs then .error (.commitState e.commitTs s.maxCommitTs)
    else .ok {s with current := some (entries ++ [e]), maxCommitTs := e.commitTs, logged := s.logged ++ [e]}

/-- The first half of `SwapWalFile`: `wal.log` is renamed after the last timestamp. -/
def swapRename (s : System) : Except WalFault System :=
  if s.maxCommitTs ≤ s.lastSwapWalTs then .ok s
  else
    match s.current with
    | none => .error .notOpen
    | some entries =>
      if s.files.any (fun f => f.1 == s.maxCommitTs) then .error (.fileExists s.maxCommitTs)
      else .ok {s with
        files := s.files ++ [(s.maxCommitTs, entries)]
        swapped := s.swapped ++ [(s.maxCommitTs, entries)]
        current := none
        lastSwapWalTs := s.maxCommitTs}

/-- The second half: a new `wal.log`. -/
def swapCreate (s : System) : Except WalFault System :=
  match s.current with
  | none => .ok {s with current := some []}
  | some _ => .ok s

/-- `FullCheckpointInner` with the `max_committed_ts` of the transaction manager. -/
def chooseFull (s : System) (maxCommitTs : Nat) : Except WalFault System :=
  if s.lastFullCkpTs = some maxCommitTs then .ok s
  else if s.lastFullCkpTs.any (fun ts => decide (ts ≥ maxCommitTs)) ∨
      s.lastCkpTs.any (fun ts => decide (ts > maxCommitTs)) then .error (.fullCheckpoint maxCommitTs)
  else .ok {s with
    pending := s.pending ++ [(maxCommitTs, true)]
    lastCkpTs := some maxCommitTs
    lastFullCkpTs := some maxCommitTs}

/-- `DeltaCheckpointInner`. `seen` is the commit state it looks at first, `maxCommitTs` comes
from the delta entry that is flushed. Without a checkpoint before it there is none. -/
def chooseDelta (s : System) (seen maxCommitTs : Nat) : Except WalFault System :=
  match s.lastCkpTs with
  | none => .ok s
  | some lastCkpTs =>
    if seen = lastCkpTs then .ok s
    else if lastCkpTs ≥ seen then .error (.deltaCheckpoint lastCkpTs seen)
    else if lastCkpTs ≥ maxCommitTs then .ok s
    else if maxCommitTs = 0 then .error .zeroCheckpoint
    else .ok {s with pending := s.pending ++ [(maxCommitTs, false)], lastCkpTs := some maxCommitTs}

inductive Call where
  /-- A transaction that is no checkpoint is logged. -/
  | commit (txnId commitTs : Nat) (infos : List Nat)
  | swapRename
  | swapCreate
  | chooseFull (maxCommitTs : Nat)
  | chooseDelta (seen maxCommitTs : Nat)
  /-- The transaction of a checkpoint is logged. -/
  | logCheckpoint (txnId commitTs maxCommitTs : Nat) (isFull : Bool)
  /-- `RecycleWalFile` deletes one file. -/
  | recycle (name : Nat)
  deriving Repr

/-- A checkpoint is of something logged already, what is chosen is logged, and files are
recycled for a logged checkpoint. -/
def enabled (s : System) : Call → Prop
  | .chooseFull maxCommitTs => 0 < maxCommitTs ∧ maxCommitTs ≤ s.maxCommitTs
  | .chooseDelta seen maxCommitTs => seen ≤ s.maxCommitTs ∧ maxCommitTs ≤ s.maxCommitTs
  | .logCheckpoint _ _ maxCommitTs isFull => (maxCommitTs, isFull) ∈ s.pending
  | .recycle name => ∃ e ∈ s.logged, ∃ maxCommitTs, e.isCheckPoint = some maxCommitTs ∧ name ≤ maxCommitTs
  | _ => True

def step (s : System) : Call → Except WalFault System
  | .commit txnId commitTs infos => writeEntry s ⟨txnId, commitTs, infos.map .other⟩
  | .swapRename => swapRename s
  | .swapCreate => swapCreate s
  | .chooseFull maxCommitTs => chooseFull s maxCommitTs
  | .chooseDelta seen maxCommitTs => chooseDelta s seen maxCommitTs
  | .logCheckpoint txnId commitTs maxCommitTs isFull =>
    writeEntry {s with pending := s.pending.erase (maxCommitTs, isFull)}
      ⟨txnId, commitTs, [.checkpoint maxCommitTs isFull]⟩
  | .recycle name =>
    .ok {s with files := s.files.filter (fun f => f.1 != name), recycled := s.recycled ++ [name]}

def walMachine : Machine System Call WalFault := ⟨enabled, step⟩

/-! ### After a crash -/

/-- A log file as it is read: its complete entries, and whether bytes of an incomplete one
follow them. -/
structure LogFile where
  entries : List WalEntry
  torn : Bool
  deriving DecidableEq, Repr

/-- What a crash leaves in the directory, in the order it is listed. -/
structure Disk where
  temp : Option LogFile
  files : List (Nat × LogFile)

/-- A crash after the last complete entry: only `wal.log` may have more bytes. -/
structure CrashOf (s : System) (d : Disk) : Prop where
  temp : d.temp.map LogFile.entries = s.current
  files : d.files.Perm (s.files.map fun f => (f.1, ⟨f.2, false⟩))

/-- The order `ReplayWalFile` reads the files in: `wal.log`, then by name, largest first. -/
def walList (d : Disk) : List LogFile := d.temp.toList ++ (d.files.mergeSort fun a b => decide (b.1 ≤ a.1)).map Prod.snd

def LogFile.hasCheckpoint (f : LogFile) : Bool := f.entries.any fun e => e.isCheckPoint.isSome

/-- `PurgeBadEntriesAfterLatestCheckpoint`, from the newest file to the first with a
checkpoint. `kept` are the files looked at; those before a file with a bad entry go. -/
def purge : List LogFile → List LogFile → List LogFile
  | kept, [] => kept
  | kept, f :: rest =>
    if f.torn then
      if f.entries = [] then purge [] rest
      else if f.hasCheckpoint then ⟨f.entries, false⟩ :: rest
      else purge [⟨f.entries, false⟩] rest
    else if f.hasCheckpoint then kept ++ f :: rest
    else purge (kept ++ [f]) rest

/-- What the list iterator gives, newest entry first; `none` is a bad entry. -/
def backward (files : List LogFile) : List (Option WalEntry) :=
  files.flatMap fun f => (if f.torn then [none] else []) ++ f.entries.reverse.map some

/-- Phase 1: the entries up to the first checkpoint entry, its `max_commit_ts` and
`commit_ts`, and what is left. -/
def phase1 : List (Option WalEntry) → Except WalFault (List WalEntry × Option (Nat × Nat) × List (Option WalEntry))
  | [] => .ok ([], none, [])
  | none :: _ => .error .badEntry
  | some e :: rest =>
    match e.isCheckPoint with
    | some maxCommitTs => .ok ([], some (maxCommitTs, e.commitTs), rest)
    | none =>
      match phase1 rest with
      | .error fault => .error fault
      | .ok (entries, found, left) => .ok (e :: entries, found, left)

/-- Phase 2: further entries while they are above the checkpoint. -/
def phase2 (maxCheckpointTs : Nat) : List (Option WalEntry) → Except WalFault (List WalEntry)
  | [] => .ok []
  | none :: _ => .error .badEntry
  | some e :: rest =>
    if e.commitTs > maxCheckpointTs then
      match phase2 maxCheckpointTs rest with
      | .error fault => .error fault
      | .ok entries => .ok (e :: entries)
    else .ok []

inductive StorageMode where
  | writable
  | readable
  deriving DecidableEq, Repr

/-- The check in front of every entry that is replayed. -/
def checkOrder (maxCheckpointTs : Nat) : List WalEntry → Except WalFault Unit
  | [] => .ok ()
  | e :: rest =>
    if e.commitTs < maxCheckpointTs then .error (.replayOrder e.commitTs maxCheckpointTs)
    else checkOrder maxCheckpointTs rest

/-- `ReplayWalFile` up to phase 3: the entries in the order they are replayed, or nothing to
replay. -/
def replayWalFile (mode : StorageMode) (d : Disk) : Except WalFault (Option (List WalEntry)) :=
  if walList d = [] then .ok none
  else
    match phase1 (backward (purge [] (walList d))) with
    | .error fault => .error fault
    | .ok (newest, found, left) =>
      match found with
      | none =>
        match mode with
        | .writable => .error .noCheckpoint
        | .readable => .ok none
      | some (maxCheckpointTs, lastCommitTs) =>
        match phase2 maxCheckpointTs left with
        | .error fault => .error fault
        | .ok older =>
          if lastCommitTs = 0 then
            match mode with
            | .writable => .error .noCheckpoint
            | .readable => .ok none
          else
            match checkOrder maxCheckpointTs (newest ++ older).reverse with
            | .error fault => .error fault
            | .ok () => .ok (some (newest ++ older).reverse)

end Infinity.Wal
