import Infinity.Lib.Machine
import Infinity.Lib.OrderedMap

/-! Data queues between plan fragments.

The tasks of a fragment sink their blocks into the queue of a task of the parent fragment.
A materialized fragment sends the blocks of a task when the task is complete, a stream
fragment sends them after every execution. The parent's source state counts, for every child
fragment, the tasks it still expects data from; it learns from flags on the blocks that a
task is done. A queue may be closed, and then refuses what is sent. -/
namespace Infinity.Executor

open Lib

/-- The first operator of the parent task. -/
inductive MergeOp where
  | mergeKnn
  | mergeMatchSparse
  | mergeMatchTensor
  | fusion
  | mergeLimit
  | mergeTop
  | mergeAggregate
  deriving DecidableEq, Repr

inductive FragmentFault where
  /-- "Get unexpected data from child fragment" -/
  | unexpectedData (fragmentId : Nat)
  /-- "This task should not be scheduled if the source queue is empty" -/
  | emptyQueue
  deriving DecidableEq, Repr

/-- `FragmentData`: a block with the task it comes from, its place among the blocks sent with
it, and whether the task was complete. -/
structure FragmentData (β : Type) where
  fragmentId : Nat
  dataBlock : β
  taskId : Nat
  dataIdx : Option Nat
  dataCount : Nat
  isLast : Bool
  totalHitsCountFlag : Bool
  totalHitsCount : Nat
  deriving DecidableEq, Repr

/-- `FragmentDataBase`. -/
inductive FragmentMessage (β : Type) where
  | data (d : FragmentData β)
  | error (fragmentId : Nat)
  | none (fragmentId : Nat)
  deriving DecidableEq, Repr

/-- `QueueSourceState` with its queue and the input of the operator behind it. -/
structure QueueSourceState (β : Type) where
  numTasks : OrderedMap Nat Nat
  sourceQueue : List (FragmentMessage β)
  allowEnqueue : Bool
  ok : Bool
  inputDataBlocks : List (Nat × β)
  inputComplete : Bool
  totalHitsCountFlag : Bool
  totalHitsCount : Nat

/-- The output status of an `OperatorState`. -/
structure OperatorState (β : Type) where
  dataBlockArray : List β
  complete : Bool
  totalHitsCountFlag : Bool
  totalHitsCount : Nat

def OperatorState.initial {β : Type} : OperatorState β := ⟨[], false, false, 0⟩

/-- The last operator of a child task and where its sink is: at which block of the loop, when
it runs. -/
structure SinkTask (β : Type) extends OperatorState β where
  idx : Option Nat

variable {β : Type}

/-! ### The parent's side -/

def FragmentMessage.fragmentId : FragmentMessage β → Nat
  | .data d => d.fragmentId
  | .error fragmentId => fragmentId
  | .none fragmentId => fragmentId

def QueueSourceState.markCompletedTask (s : QueueSourceState β) (fragmentId : Nat) :
    Except FragmentFault (QueueSourceState β) :=
  match s.numTasks.find? fragmentId with
  | some pending =>
    .ok {s with numTasks := if pending - 1 = 0 then s.numTasks.erase fragmentId
                            else s.numTasks.modify fragmentId (pending - 1)}
  | none => .error (.unexpectedData fragmentId)

/-- The message completes its task: the condition on a block's flags, always for the others. -/
def FragmentMessage.marks : FragmentMessage β → Bool
  | .data d => d.isLast && (match d.dataIdx with
    | Option.none => true
    | some i => i + 1 == d.dataCount)
  | .error _ => true
  | .none _ => true

def FragmentMessage.isError : FragmentMessage β → Bool
  | .error _ => true
  | _ => false

/-- The switch on the kind of message. -/
def QueueSourceState.receive (s : QueueSourceState β) (message : FragmentMessage β) :
    Except FragmentFault (QueueSourceState β) :=
  if message.marks then {s with ok := s.ok && !message.isError}.markCompletedTask message.fragmentId else .ok s

/-- What an operator takes of a message: its block, and the completion of the input. -/
def QueueSourceState.handOver (s : QueueSourceState β) (op : MergeOp) (completed : Bool) (d : FragmentData β) :
    QueueSourceState β :=
  match op with
  | .mergeKnn | .mergeMatchSparse | .mergeAggregate =>
    {s with inputDataBlocks := [(d.fragmentId, d.dataBlock)], inputComplete := completed}
  | .mergeMatchTensor | .fusion =>
    {s with inputDataBlocks := s.inputDataBlocks ++ [(d.fragmentId, d.dataBlock)], inputComplete := completed}
  | .mergeLimit | .mergeTop =>
    {s with
      inputDataBlocks := s.inputDataBlocks ++ [(d.fragmentId, d.dataBlock)]
      totalHitsCountFlag := s.totalHitsCountFlag || d.totalHitsCountFlag
      totalHitsCount := if d.totalHitsCountFlag then s.totalHitsCount + d.totalHitsCount else s.totalHitsCount
      inputComplete := s.inputComplete || completed
      allowEnqueue := s.allowEnqueue && !(s.inputComplete || completed)}

/-- `QueueSourceState::GetData`; the answer is whether the source is complete. An error has no
block to hand over: the operators are not run then. -/
def QueueSourceState.getData (s : QueueSourceState β) (op : MergeOp) :
    Except FragmentFault (QueueSourceState β × Bool) :=
  match s.sourceQueue with
  | [] => .error .emptyQueue
  | message :: rest =>
    match {s with sourceQueue := rest}.receive message with
    | .error e => .error e
    | .ok s =>
      let completed := s.numTasks.begin?.isNone
      match message with
      | .data d => .ok (s.handOver op completed d, completed)
      | _ => .ok (s, completed)

/-- `BlockingQueue::Enqueue`: a closed queue refuses. -/
def QueueSourceState.enqueue (s : QueueSourceState β) (message : FragmentMessage β) : QueueSourceState β × Bool :=
  if s.allowEnqueue then ({s with sourceQueue := s.sourceQueue ++ [message]}, true) else (s, false)

/-! ### The children's side -/

/-- The start of `FillSinkStateFromLastOperatorState`. -/
def SinkTask.startSink (t : SinkTask β) (materialize : Bool) : SinkTask β :=
  if !t.complete && materialize then t else {t with idx := some 0}

/-- The message for the block at `idx`. -/
def SinkTask.message (t : SinkTask β) (materialize : Bool) (fragmentId taskId idx : Nat) (block : β) :
    FragmentData β where
  fragmentId := fragmentId
  dataBlock := block
  taskId := taskId
  dataIdx := if t.complete && !materialize then none else some idx
  dataCount := t.dataBlockArray.length
  isLast := t.complete
  totalHitsCountFlag := t.totalHitsCountFlag
  totalHitsCount := t.totalHitsCount

/-- One round of the loop of `FillSinkStateFromLastOperatorState`, or its end. A task whose
block is refused is complete. -/
def SinkTask.sink (t : SinkTask β) (source : QueueSourceState β) (materialize : Bool) (fragmentId taskId idx : Nat) :
    SinkTask β × QueueSourceState β :=
  match t.dataBlockArray[idx]? with
  | none => ({t with dataBlockArray := [], idx := none}, source)
  | some block =>
    let (source, taken) := source.enqueue (.data (t.message materialize fragmentId taskId idx block))
    ({t with idx := some (idx + 1), complete := t.complete || !taken}, source)

/-! ### Children and parent together -/

/-- The child fragments of a parent task with their numbers of tasks, as `SetTaskNum` tells
them to the source state, their kinds and the parent's first operator. -/
structure Plan where
  tasks : OrderedMap Nat Nat
  materialize : Nat → Bool
  op : MergeOp
  /-- The number is set from within the loop over the tasks. -/
  tasks_pos : ∀ f n, tasks.find? f = some n → 0 < n
  /-- A task with a queue for a source has a child. -/
  tasks_some : tasks.begin? ≠ none

/-- One child fragment, number 1, with `n + 1` tasks. -/
def Plan.single (op : MergeOp) (materialize : Bool) (n : Nat) : Plan where
  tasks := ⟨[(1, n + 1)], .cons (by simp) .nil⟩
  materialize _ := materialize
  op := op
  tasks_pos f m h := by
    have hmem := (OrderedMap.mem_entries _ f m).mpr h
    cases List.mem_singleton.mp hmem
    exact Nat.succ_pos n
  tasks_some := nofun

/-- `t` is a task of the child fragment `f`. -/
def Plan.Task (plan : Plan) (f t : Nat) : Prop := ∃ n, plan.tasks.find? f = some n ∧ t < n

/-- The parent's source, the children's tasks, all messages dequeued so far and the last
answer of `GetData`. -/
structure Exchange (β : Type) where
  source : QueueSourceState β
  children : Nat → Nat → SinkTask β
  dequeued : List (FragmentMessage β)
  reported : Bool

def Exchange.initial (plan : Plan) : Exchange β where
  source :=
    { numTasks := plan.tasks, sourceQueue := [], allowEnqueue := true, ok := true, inputDataBlocks := []
      inputComplete := false, totalHitsCountFlag := false, totalHitsCount := 0 }
  children _ _ := {OperatorState.initial with idx := none}
  dequeued := []
  reported := false

inductive ExchangeCall (β : Type) where
  /-- The operators of a child task run and leave blocks at the last of them; the sink starts. -/
  | execute (f t : Nat) (blocks : List β) (complete : Bool) (hits : Option Nat)
  /-- The sink of a child task goes on. -/
  | sink (f t : Nat)
  /-- The parent task takes a message from its queue. -/
  | getData
  /-- `PhysicalMergeLimit::Execute` has enough rows. -/
  | limitOver

def Exchange.setChild (s : Exchange β) (f t : Nat) (c : SinkTask β) : Exchange β :=
  {s with children := fun f' t' => if f' = f ∧ t' = t then c else s.children f' t'}

def Exchange.step (plan : Plan) (s : Exchange β) : ExchangeCall β → Except FragmentFault (Exchange β)
  | .execute f t blocks complete hits =>
    let c := s.children f t
    let c : SinkTask β :=
      { c with
        dataBlockArray := c.dataBlockArray ++ blocks
        complete := complete
        totalHitsCountFlag := hits.isSome
        totalHitsCount := hits.getD 0 }
    .ok (s.setChild f t (c.startSink (plan.materialize f)))
  | .sink f t =>
    match (s.children f t).idx with
    | none => .ok s
    | some idx =>
      let (c, source) := (s.children f t).sink s.source (plan.materialize f) f t idx
      .ok {s.setChild f t c with source := source}
  | .getData =>
    match s.source.getData plan.op with
    | .error e => .error e
    | .ok (source, completed) =>
      .ok {s with source := source, dequeued := s.dequeued ++ s.source.sourceQueue.take 1, reported := completed}
  | .limitOver => .ok {s with source := {s.source with inputComplete := true}}

/-- A task runs until it is complete, and not while it is sinking; the parent is run when its
queue is not empty. -/
def Exchange.Allowed (plan : Plan) (s : Exchange β) : ExchangeCall β → Prop
  | .execute f t _ _ _ => plan.Task f t ∧ (s.children f t).idx = none ∧ (s.children f t).complete = false
  | .sink f t => plan.Task f t ∧ (s.children f t).idx ≠ none
  | .getData => s.source.sourceQueue ≠ []
  | .limitOver => plan.op = .mergeLimit

/-- Children sink while the parent reads, in any interleaving. -/
def exchange (β : Type) (plan : Plan) : Machine (Exchange β) (ExchangeCall β) FragmentFault where
  enabled := Exchange.Allowed plan
  step := Exchange.step plan

end Infinity.Executor
