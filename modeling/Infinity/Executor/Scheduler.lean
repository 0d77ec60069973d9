import Infinity.Lib.Machine

/-! Scheduling the tasks of plan fragments.

A query is a tree of fragments with any number of tasks each. The tasks of the leaves are
started, the others read from a queue that the tasks of their child fragments fill. A worker
takes a task it has been given, executes it once, sends what it has produced and then either
completes the task, keeps it, or lets go of it when its queue is empty. Completing a task may
schedule the parent fragment: its pending tasks become running and are given to workers. All
of this is cut into the steps between which another worker may act.

A message is a block with the flag that it is the last one of its sender. Which task a worker
takes next, and which worker a scheduled task is given to, are left open. -/
namespace Infinity.Executor

open Lib

/-- A fragment and the number of the task in it. -/
abbrev TaskId := Nat × Nat

/-- The fragments of a query with their parents, kinds and numbers of tasks. -/
structure FragmentTree where
  fragments : List Nat
  parent : Nat → Option Nat
  taskCount : Nat → Nat
  stream : Nat → Bool
  /-- The height of a fragment in the tree. -/
  rank : Nat → Nat
  nodup : fragments.Nodup
  parent_mem : ∀ f ∈ fragments, ∀ g, parent f = some g → g ∈ fragments
  rank_lt : ∀ f ∈ fragments, ∀ g, parent f = some g → rank f < rank g
  taskCount_pos : ∀ f ∈ fragments, 0 < taskCount f

namespace FragmentTree

variable (T : FragmentTree)

def tasksOf (f : Nat) : List TaskId := (List.range (T.taskCount f)).map fun t => (f, t)

def children (g : Nat) : List Nat := T.fragments.filter fun f => T.parent f == some g

/-- The tasks that send to every task of `g`. -/
def childTasks (g : Nat) : List TaskId := (T.children g).flatMap T.tasksOf

def parentTasks (x : TaskId) : List TaskId :=
  match T.parent x.1 with
  | none => []
  | some g => T.tasksOf g

/-- The source of the task is a queue. -/
def hasQueue (x : TaskId) : Bool := !(T.children x.1).isEmpty

def tasks : List TaskId := T.fragments.flatMap T.tasksOf

/-- `GetStartFragments`: the tasks of the fragments without children. -/
def startTasks : List TaskId := (T.fragments.filter fun f => (T.children f).isEmpty).flatMap T.tasksOf

/-- What an execution with so many blocks sends: every block to every task of the parent, and
with the completion a last block. -/
def sends (x : TaskId) (blocks : Nat) (complete : Bool) : List (TaskId × Bool) :=
  (List.replicate blocks ((T.parentTasks x).map fun p => (p, false))).flatten ++
    if complete then (T.parentTasks x).map fun p => (p, true) else []

end FragmentTree

/-- `FragmentTaskStatus` without errors. -/
inductive TaskStatus where
  | pending
  | running
  | finished
  deriving DecidableEq, Repr

/-- Where a worker is in its loop, and with which task. -/
inductive Phase where
  /-- About to take a task. -/
  | idle
  /-- In `OnExecute`, the sink has these messages left. -/
  | sending (x : TaskId) (sends : List (TaskId × Bool)) (complete : Bool)
  /-- Before `QuitFromWorkerLoop`. -/
  | quitting (x : TaskId)
  /-- Before `CompleteTask`. -/
  | completing (x : TaskId)
  /-- Before `TryFinishFragmentInner`. -/
  | finishing (x : TaskId)
  /-- Before `TryStartFragment` of the parent. -/
  | starting (x : TaskId) (g : Nat)
  /-- In `ScheduleFragment`: `TryIntoWorkerLoop` is left to be called for `todo`. It is early when
  the fragment of the task has not finished. -/
  | waking (x : TaskId) (g : Nat) (early : Bool) (todo got : List TaskId)
  /-- In `ScheduleFragment`: `ScheduleTask` is left to be called. -/
  | scheduling (x : TaskId) (got : List TaskId)
  /-- Before `FinishTask`. -/
  | notifying (x : TaskId)
  deriving DecidableEq, Repr

/-- A worker: the tasks in its queue and its list, and its phase. -/
structure Worker where
  pool : List TaskId
  phase : Phase

inductive SchedFault where
  /-- "This task should not be scheduled if the source queue is empty" -/
  | emptyQueue (x : TaskId)
  /-- "Task can't be scheduled" -/
  | cannotSchedule (x : TaskId)
  /-- "Status should be an error status" -/
  | badStatus (x : TaskId)
  deriving DecidableEq, Repr

/-- The tasks, the counters of the fragments and the workers. `missing` counts the completions a
queue still has to deliver. `sent` and `finishes` are histories: which task has sent its last
block to which task, and how often `FinishTask` was called for a task. -/
structure Sched where
  status : TaskId → TaskStatus
  queue : TaskId → List Bool
  missing : TaskId → Nat
  unfinishedTask : Nat → Nat
  unfinishedChild : Nat → Nat
  toStart : List TaskId
  workers : Nat → Worker
  allTaskN : Nat
  sent : TaskId → TaskId → Bool
  finishes : TaskId → Nat

namespace Sched

def initial (T : FragmentTree) : Sched where
  status _ := .pending
  queue _ := []
  missing x := (T.childTasks x.1).length
  unfinishedTask := T.taskCount
  unfinishedChild g := (T.children g).length
  toStart := T.startTasks
  workers _ := ⟨[], .idle⟩
  allTaskN := T.tasks.length
  sent _ _ := false
  finishes _ := 0

def setWorker (s : Sched) (w : Nat) (k : Worker) : Sched := {s with workers := Function.update s.workers w k}

def setPhase (s : Sched) (w : Nat) (phase : Phase) : Sched := s.setWorker w {s.workers w with phase := phase}

/-- `ScheduleTask` -/
def addTask (s : Sched) (v : Nat) (x : TaskId) : Sched :=
  s.setWorker v {s.workers v with pool := (s.workers v).pool ++ [x]}

def setStatus (s : Sched) (x : TaskId) (status : TaskStatus) : Sched :=
  {s with status := Function.update s.status x status}

/-- A message is put into the queue of `p`. -/
def enqueue (s : Sched) (x p : TaskId) (last : Bool) : Sched :=
  { s with
    queue := Function.update s.queue p (s.queue p ++ [last])
    sent := fun c q => s.sent c q || (last && c == x && q == p) }

/-- `GetData` -/
def getData (s : Sched) (x : TaskId) : Except SchedFault Sched :=
  match s.queue x with
  | [] => .error (.emptyQueue x)
  | last :: rest =>
    .ok { s with
      queue := Function.update s.queue x rest
      missing := Function.update s.missing x (if last then s.missing x - 1 else s.missing x) }

/-- The next block completes the input of the task. -/
def completesInput (s : Sched) (x : TaskId) : Bool :=
  match s.getData x with
  | .ok s' => s'.missing x == 0
  | .error _ => false

/-- `TryFinishFragmentInner`: one task of the fragment less. -/
def decTask (s : Sched) (f : Nat) : Sched :=
  {s with unfinishedTask := Function.update s.unfinishedTask f (s.unfinishedTask f - 1)}

/-- `TryStartFragment`: one child of the fragment less. -/
def decChild (s : Sched) (g : Nat) : Sched :=
  {s with unfinishedChild := Function.update s.unfinishedChild g (s.unfinishedChild g - 1)}

/-- `FinishTask` -/
def finishTask (s : Sched) (x : TaskId) : Sched :=
  { s with
    allTaskN := s.allTaskN - 1
    finishes := Function.update s.finishes x (s.finishes x + 1) }

/-- `Schedule`: the task of a leaf becomes running and is given to worker `v`. -/
def startTask (s : Sched) (x : TaskId) (rest : List TaskId) (v : Nat) : Sched :=
  Sched.addTask { s with status := Function.update s.status x .running, toStart := rest } v x

/-- The next step of worker `w` in the middle of its work; a task that it schedules is given to
worker `v`. -/
def next (T : FragmentTree) (s : Sched) (w v : Nat) : Except SchedFault Sched :=
  match (s.workers w).phase with
  | .idle => .ok s
  | .sending x ((p, last) :: rest) complete => .ok ((s.enqueue x p last).setPhase w (.sending x rest complete))
  | .sending x [] complete => .ok (s.setPhase w (if complete then .completing x else .quitting x))
  | .quitting x =>
    if T.hasQueue x = true ∧ s.queue x = [] ∧ s.status x = .running then
      .ok ((s.setStatus x .pending).setPhase w .idle)
    else .ok (s.setWorker w ⟨(s.workers w).pool ++ [x], .idle⟩)
  | .completing x =>
    if s.status x = .running then .ok ((s.setStatus x .finished).setPhase w (.finishing x))
    else .error (.badStatus x)
  | .finishing x =>
    match T.parent x.1 with
    | none => .ok ((s.decTask x.1).setPhase w (.notifying x))
    | some g =>
      if s.unfinishedTask x.1 = 1 then .ok ((s.decTask x.1).setPhase w (.starting x g))
      else if T.stream x.1 then .ok ((s.decTask x.1).setPhase w (.waking x g true (T.tasksOf g) []))
      else .ok ((s.decTask x.1).setPhase w (.notifying x))
  | .starting x g =>
    if s.unfinishedChild g = 1 then .ok ((s.decChild g).setPhase w (.waking x g false (T.tasksOf g) []))
    else .ok ((s.decChild g).setPhase w (.notifying x))
  | .waking x g early (p :: todo) got =>
    if s.status p = .pending then
      .ok ((s.setStatus p .running).setPhase w (.waking x g early todo (got ++ [p])))
    else .ok (s.setPhase w (.waking x g early todo got))
  | .waking x _ _ [] got => .ok (s.setPhase w (.scheduling x got))
  | .scheduling x (p :: got) => .ok ((s.setPhase w (.scheduling x got)).addTask v p)
  | .scheduling x [] => .ok (s.setPhase w (.notifying x))
  | .notifying x => .ok ((s.finishTask x).setPhase w .idle)

end Sched

inductive SchedCall where
  /-- `Schedule` gives the next task of the leaves to worker `v`. -/
  | start (v : Nat)
  /-- Worker `w` takes a task of its own and executes it; the execution leaves so many blocks for
  the sink, and completes the task or not. -/
  | execute (w : Nat) (x : TaskId) (blocks : Nat) (complete : Bool)
  /-- Worker `w` goes on. -/
  | next (w v : Nat)
  deriving Repr

namespace Sched

def step (T : FragmentTree) (s : Sched) : SchedCall → Except SchedFault Sched
  | .start v =>
    match s.toStart with
    | [] => .ok s
    | x :: rest =>
      if s.status x = .pending then .ok (s.startTask x rest v)
      else .error (.cannotSchedule x)
  | .execute w x blocks complete =>
    let s := s.setWorker w ⟨(s.workers w).pool.erase x, .sending x (T.sends x blocks complete) complete⟩
    if T.hasQueue x then s.getData x else .ok s
  | .next w v => s.next T w v

/-- Calls that may be made with `n` workers. A materialized fragment sends only when the task is
complete; a task is complete at the latest with its input. -/
def Allowed (T : FragmentTree) (n : Nat) (s : Sched) : SchedCall → Prop
  | .start v => v < n ∧ s.toStart ≠ []
  | .execute w x blocks complete =>
    w < n ∧ (s.workers w).phase = .idle ∧ x ∈ (s.workers w).pool ∧
      (T.stream x.1 = false → complete = false → blocks = 0) ∧
      (T.hasQueue x = true → s.completesInput x = true → complete = true)
  | .next w v => w < n ∧ v < n ∧ (s.workers w).phase ≠ .idle

instance (T : FragmentTree) (n : Nat) (s : Sched) (a : SchedCall) : Decidable (s.Allowed T n a) :=
  match a with
  | .start v => inferInstanceAs (Decidable (v < n ∧ s.toStart ≠ []))
  | .execute w x blocks complete =>
    inferInstanceAs (Decidable (w < n ∧ (s.workers w).phase = .idle ∧ x ∈ (s.workers w).pool ∧
      (T.stream x.1 = false → complete = false → blocks = 0) ∧
      (T.hasQueue x = true → s.completesInput x = true → complete = true)))
  | .next w v => inferInstanceAs (Decidable (w < n ∧ v < n ∧ (s.workers w).phase ≠ .idle))

end Sched

/-- `n` workers on the tasks of the tree. -/
def scheduler (T : FragmentTree) (n : Nat) : Machine Sched SchedCall SchedFault where
  enabled := Sched.Allowed T n
  step := Sched.step T

instance (T : FragmentTree) (n : Nat) (s : Sched) (a : SchedCall) : Decidable ((scheduler T n).enabled s a) :=
  inferInstanceAs (Decidable (s.Allowed T n a))

/-- The task for which `TryIntoWorkerLoop` is called next, before the fragment of its child has finished. -/
def Phase.wakesEarly : Phase → Option TaskId
  | .waking _ _ true (p :: _) _ => some p
  | _ => none

/-- When `ScheduleFragment` is called early for a task that is pending, the queue of that task is
not empty. -/
def WakesWithData (s : Sched) : SchedCall → Prop
  | .next w _ => ∀ p ∈ (s.workers w).phase.wakesEarly, s.status p = .pending → s.queue p ≠ []
  | _ => True

instance (s : Sched) (a : SchedCall) : Decidable (WakesWithData s a) :=
  match a with
  | .next w _ =>
    inferInstanceAs (Decidable (∀ p ∈ (s.workers w).phase.wakesEarly, s.status p = .pending → s.queue p ≠ []))
  | .start _ => isTrue trivial
  | .execute _ _ _ _ => isTrue trivial

/-! ### The steps of a worker -/

/-- What `Sched.next` does, branch by branch. -/
inductive Next (T : FragmentTree) (s : Sched) (w v : Nat) : Sched → Prop
  | send {x p : TaskId} {last : Bool} {rest : List (TaskId × Bool)} {complete : Bool}
      (phase : (s.workers w).phase = .sending x ((p, last) :: rest) complete) :
      Next T s w v ((s.enqueue x p last).setPhase w (.sending x rest complete))
  | sent {x : TaskId} {complete : Bool} (phase : (s.workers w).phase = .sending x [] complete) :
      Next T s w v (s.setPhase w (if complete then .completing x else .quitting x))
  | quit {x : TaskId} (phase : (s.workers w).phase = .quitting x) (queue : T.hasQueue x = true)
      (empty : s.queue x = []) (running : s.status x = .running) :
      Next T s w v ((s.setStatus x .pending).setPhase w .idle)
  | keep {x : TaskId} (phase : (s.workers w).phase = .quitting x)
      (more : ¬ (T.hasQueue x = true ∧ s.queue x = [] ∧ s.status x = .running)) :
      Next T s w v (s.setWorker w ⟨(s.workers w).pool ++ [x], .idle⟩)
  | complete {x : TaskId} (phase : (s.workers w).phase = .completing x) (running : s.status x = .running) :
      Next T s w v ((s.setStatus x .finished).setPhase w (.finishing x))
  | finishRoot {x : TaskId} (phase : (s.workers w).phase = .finishing x) (parent : T.parent x.1 = none) :
      Next T s w v ((s.decTask x.1).setPhase w (.notifying x))
  | finishLast {x : TaskId} {g : Nat} (phase : (s.workers w).phase = .finishing x) (parent : T.parent x.1 = some g)
      (left : s.unfinishedTask x.1 = 1) :
      Next T s w v ((s.decTask x.1).setPhase w (.starting x g))
  | finishEarly {x : TaskId} {g : Nat} (phase : (s.workers w).phase = .finishing x) (parent : T.parent x.1 = some g)
      (left : s.unfinishedTask x.1 ≠ 1) (stream : T.stream x.1 = true) :
      Next T s w v ((s.decTask x.1).setPhase w (.waking x g true (T.tasksOf g) []))
  | finishQuiet {x : TaskId} {g : Nat} (phase : (s.workers w).phase = .finishing x) (parent : T.parent x.1 = some g)
      (left : s.unfinishedTask x.1 ≠ 1) :
      Next T s w v ((s.decTask x.1).setPhase w (.notifying x))
  | startAll {x : TaskId} {g : Nat} (phase : (s.workers w).phase = .starting x g) (left : s.unfinishedChild g = 1) :
      Next T s w v ((s.decChild g).setPhase w (.waking x g false (T.tasksOf g) []))
  | startMore {x : TaskId} {g : Nat} (phase : (s.workers w).phase = .starting x g) (left : s.unfinishedChild g ≠ 1) :
      Next T s w v ((s.decChild g).setPhase w (.notifying x))
  | wake {x p : TaskId} {g : Nat} {early : Bool} {todo got : List TaskId}
      (phase : (s.workers w).phase = .waking x g early (p :: todo) got) (pending : s.status p = .pending) :
      Next T s w v ((s.setStatus p .running).setPhase w (.waking x g early todo (got ++ [p])))
  | pass {x p : TaskId} {g : Nat} {early : Bool} {todo got : List TaskId}
      (phase : (s.workers w).phase = .waking x g early (p :: todo) got) (awake : s.status p ≠ .pending) :
      Next T s w v (s.setPhase w (.waking x g early todo got))
  | woken {x : TaskId} {g : Nat} {early : Bool} {got : List TaskId}
      (phase : (s.workers w).phase = .waking x g early [] got) : Next T s w v (s.setPhase w (.scheduling x got))
  | schedule {x p : TaskId} {got : List TaskId} (phase : (s.workers w).phase = .scheduling x (p :: got)) :
      Next T s w v ((s.setPhase w (.scheduling x got)).addTask v p)
  | scheduled {x : TaskId} (phase : (s.workers w).phase = .scheduling x []) :
      Next T s w v (s.setPhase w (.notifying x))
  | notify {x : TaskId} (phase : (s.workers w).phase = .notifying x) :
      Next T s w v ((s.finishTask x).setPhase w .idle)

theorem Sched.next_cases {T : FragmentTree} {s s' : Sched} {w v : Nat} (hidle : (s.workers w).phase ≠ .idle)
    (h : s.next T w v = .ok s') : Next T s w v s' := by
  unfold Sched.next at h
  split at h
  · exact absurd ‹_› hidle
  · cases h
    exact .send ‹_›
  · cases h
    exact .sent ‹_›
  · split at h
    · rename_i hphase hq
      cases h
      exact .quit hphase hq.1 hq.2.1 hq.2.2
    · cases h
      exact .keep ‹_› ‹_›
  · split at h
    · cases h
      exact .complete ‹_› ‹_›
    · cases h
  · rename_i x hphase
    split at h
    · cases h
      exact .finishRoot hphase ‹_›
    rename_i g hg
    split at h
    · cases h
      exact .finishLast hphase hg ‹_›
    split at h
    · cases h
      exact .finishEarly hphase hg ‹_› ‹_›
    · cases h
      exact .finishQuiet hphase hg ‹_›
  · rename_i x g hphase
    split at h
    · cases h
      exact .startAll hphase ‹_›
    · cases h
      exact .startMore hphase ‹_›
  · split at h
    · cases h
      exact .wake ‹_› ‹_›
    · cases h
      exact .pass ‹_› ‹_›
  · cases h
    exact .woken ‹_›
  · cases h
    exact .schedule ‹_›
  · cases h
    exact .scheduled ‹_›
  · cases h
    exact .notify ‹_›

theorem Sched.next_error {T : FragmentTree} {s : Sched} {w v : Nat} {e : SchedFault} (h : s.next T w v = .error e) :
    ∃ x, (s.workers w).phase = .completing x ∧ s.status x ≠ .running := by
  unfold Sched.next at h
  split at h <;> try cases h
  · split at h <;> cases h
  · split at h
    · cases h
    · exact ⟨_, ‹_›, ‹_›⟩
  · split at h
    · cases h
    · split at h
      · cases h
      · split at h <;> cases h
  · split at h <;> cases h
  · split at h <;> cases h

end Infinity.Executor
