import Infinity.FullText.Ring
import Infinity.Lib.Lists
import Infinity.Lib.Machine
import Infinity.Lib.Tickets

/-! How batches pass through the memory indexer.

`AsyncInsert` numbers a batch and has a pool thread invert it, put it into the
first ring and call `CommitSync`. `CommitSync` takes what the first ring has ready,
merges it into one inverter and puts that into the second ring; then whoever gets
the commit lock empties the second ring, and whoever does not returns. The threads
are run in any order, one critical section at a time.

A batch stands for its own documents: an inverter is the list of batches whose
documents it holds. Generating the postings of an inverter appends them to
`generated`, releasing its semaphores appends to `released`. -/
namespace Infinity.FullText

open Lib

/-- `ColumnInverter`, as far as the batches it holds are concerned. -/
structure ColumnInverter where
  batches : List Nat
  merged : Nat := 1
  semas : List Nat
  deriving DecidableEq, Repr

namespace ColumnInverter

/-- The inverter that `AsyncInsert` makes for a batch. -/
def ofBatch (seq : Nat) : ColumnInverter := {batches := [seq], semas := [seq]}

/-- `ColumnInverter::Merge(rhs)`. -/
def merge (c rhs : ColumnInverter) : ColumnInverter :=
  {batches := c.batches ++ rhs.batches, merged := c.merged + 1, semas := c.semas ++ rhs.semas}

/-- `ColumnInverter::Merge(inverters)`, which leaves everything in the first one. -/
def mergeAll (first : ColumnInverter) (rest : List ColumnInverter) : ColumnInverter := rest.foldl merge first

end ColumnInverter

/-- Where a thread stands in `AsyncInsert`, in the task it pushes, or in `CommitSync`. -/
inductive Pc
  /-- `AsyncInsert` is called. -/
  | insert
  /-- The batch has its number and is not counted yet. -/
  | count (seq : Nat)
  /-- The task runs and has its batch to put. -/
  | put (seq : Nat)
  /-- `CommitSync` is called, or the task has come to its call. -/
  | collect
  /-- A merged inverter is to be put into the second ring. -/
  | deposit (seqCommit : Nat) (inverter : ColumnInverter)
  | tryLock
  /-- Holding the lock, before `GetBatch`; `numGenerated` so far. -/
  | get (numGenerated : Nat)
  /-- Holding the lock, with these inverters of the batch left. -/
  | generate (numGenerated : Nat) (inverters : List ColumnInverter)
  /-- Holding the lock, after the loop. -/
  | deduct (numGenerated : Nat)
  | unlock
  | returned
  deriving DecidableEq, Repr

/-- `MemoryIndexer`, with its threads and what they have done to the postings. -/
structure MemoryIndexer where
  seqInserted : Nat := 0
  inflightTasks : Nat := 0
  ringInverted : Ring ColumnInverter := {capShift := 15}
  ringSorted : Ring ColumnInverter := {capShift := 13}
  /-- The thread that holds `mutex_commit_`. -/
  mutexCommit : Option Nat := none
  threads : List Pc := []
  generated : List Nat := []
  released : List Nat := []

namespace MemoryIndexer

/-- What may happen next: a call from outside, or one thread's next step. -/
inductive Event
  | asyncInsert
  | commitSync
  | act (i : Nat)
  deriving DecidableEq, Repr

/-- The thread goes on at `pc`. -/
def goto (s : MemoryIndexer) (i : Nat) (pc : Pc) : MemoryIndexer := {s with threads := s.threads.set i pc}

/-- A thread may take its next step unless it has returned or waits for room in a ring. -/
def CanAct (s : MemoryIndexer) : Pc → Prop
  | .put seq => s.ringInverted.MayPut seq
  | .deposit c _ => s.ringSorted.MayPut c
  | .returned => False
  | _ => True

instance (s : MemoryIndexer) (pc : Pc) : Decidable (s.CanAct pc) := by
  cases pc <;> unfold CanAct <;> infer_instance

/-- `a -= n` on a `u64`. -/
def subU64 (a n : Nat) : Nat := (a + 2 ^ 64 - n % 2 ^ 64) % 2 ^ 64

/-- One step of a thread. `GetBatch` on an empty ring is a wait that has timed out,
or one that was never made; how long it takes is the moment the step is taken. -/
def act (s : MemoryIndexer) (i : Nat) : Pc → MemoryIndexer
  | .insert => {s with seqInserted := s.seqInserted + 1}.goto i (.count s.seqInserted)
  | .count seq => {s with inflightTasks := (s.inflightTasks + 1) % 2 ^ 64}.goto i (.put seq)
  | .put seq => {s with ringInverted := s.ringInverted.put seq (.ofBatch seq)}.goto i .collect
  | .collect =>
    match s.ringInverted.getBatch with
    | ([], _, _) => s.goto i .tryLock
    | (first :: rest, seqCommit, ring) => {s with ringInverted := ring}.goto i (.deposit seqCommit (first.mergeAll rest))
  | .deposit c inverter => {s with ringSorted := s.ringSorted.put c inverter}.goto i .tryLock
  | .tryLock =>
    match s.mutexCommit with
    | none => {s with mutexCommit := some i}.goto i (.get 0)
    | some _ => s.goto i .returned
  | .get n =>
    match s.ringSorted.getBatch with
    | ([], _, _) => s.goto i (.deduct n)
    | (first :: rest, _, ring) => {s with ringSorted := ring}.goto i (.generate n (first :: rest))
  | .generate n [] => s.goto i (.get n)
  | .generate n (inverter :: rest) =>
    {s with generated := s.generated ++ inverter.batches, released := s.released ++ inverter.semas}.goto i
      (.generate (n + inverter.merged) rest)
  | .deduct n => {s with inflightTasks := if 0 < n then subU64 s.inflightTasks n else s.inflightTasks}.goto i .unlock
  | .unlock => {s with mutexCommit := none}.goto i .returned
  | .returned => s

def step (s : MemoryIndexer) : Event → MemoryIndexer
  | .asyncInsert => {s with threads := s.threads ++ [.insert]}
  | .commitSync => {s with threads := s.threads ++ [.collect]}
  | .act i =>
    match s.threads[i]? with
    | some pc => s.act i pc
    | none => s

def Allowed (s : MemoryIndexer) : Event → Prop
  | .asyncInsert => True
  | .commitSync => True
  | .act i => ∃ pc, s.threads[i]? = some pc ∧ s.CanAct pc

instance (s : MemoryIndexer) (e : Event) : Decidable (s.Allowed e) :=
  match e with
  | .asyncInsert => isTrue trivial
  | .commitSync => isTrue trivial
  | .act i =>
    match h : s.threads[i]? with
    | none => isFalse (by rintro ⟨pc, hpc, -⟩; rw [h] at hpc; cases hpc)
    | some pc =>
      if hc : s.CanAct pc then isTrue ⟨pc, h, hc⟩
      else isFalse (by rintro ⟨pc', hpc, hc'⟩; rw [h] at hpc; cases hpc; exact hc hc')

/-- The memory indexer under any interleaving. -/
def machine : Machine MemoryIndexer Event Empty := ⟨Allowed, fun s e => .ok (s.step e)⟩

instance (s : MemoryIndexer) (e : Event) : Decidable (machine.enabled s e) := inferInstanceAs (Decidable (s.Allowed e))

end MemoryIndexer

end Infinity.FullText
