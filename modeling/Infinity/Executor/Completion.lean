import Infinity.Executor.QueueSource

/-! Completion accounting between plan fragments.

A child task is done with the message that marks it. The development follows, for every task,
the messages it has sent so far in the order of the queue: none of them marks while the task
still has something to send, and afterwards exactly the last one does. The parent's counts are
then the numbers of tasks whose last message is still to come.

The flags are right when a stream task ends with exactly one block and a materialized task
with at least one. A final batch of several blocks in a stream fragment marks its task once
per block; a task that ends without a block is never marked. -/
namespace Infinity.Executor

open Lib List

variable {β : Type} {plan : Plan}

/-! ### What one call of `GetData` does -/

/-- The message comes from task `t` of fragment `f`. -/
def FragmentMessage.isFrom (f t : Nat) : FragmentMessage β → Bool
  | .data d => d.fragmentId == f && d.taskId == t
  | _ => false

/-- The messages of task `t` of fragment `f`. -/
def own (f t : Nat) (l : List (FragmentMessage β)) : List (FragmentMessage β) := l.filter (FragmentMessage.isFrom f t)

/-- The completions of tasks of fragment `f`. -/
def marked (f : Nat) (l : List (FragmentMessage β)) : Nat := l.countP fun m => m.marks && m.fragmentId == f

/-- What a message adds to the total of hits. -/
def FragmentMessage.hits : FragmentMessage β → Nat
  | .data d => if d.totalHitsCountFlag then d.totalHitsCount else 0
  | _ => 0

/-- The number of tasks of `f` the source still waits for. -/
def QueueSourceState.left (s : QueueSourceState β) (f : Nat) : Nat := (s.numTasks.find? f).getD 0

/-- The counts of a source from which a message has been taken. -/
structure QueueSourceState.Counted (s s' : QueueSourceState β) (m : FragmentMessage β) : Prop where
  expected : m.marks = true → s.numTasks.find? m.fragmentId ≠ none
  left : ∀ f, s'.left f = if m.marks ∧ m.fragmentId = f then s.left f - 1 else s.left f
  positive : (∀ f, s.numTasks.find? f ≠ some 0) → ∀ f, s'.numTasks.find? f ≠ some 0

variable {s s' : QueueSourceState β} {m : FragmentMessage β}

theorem QueueSourceState.Counted.of_unmarked
    (h : m.marks = false) (hs : s'.numTasks = s.numTasks) : s.Counted s' m where
  expected h' := by simp [h] at h'
  left f := by simp [h, QueueSourceState.left, hs]
  positive h' := by simpa [hs] using h'

theorem QueueSourceState.markCompletedTask_spec (hm : m.marks = true) (h : s.markCompletedTask m.fragmentId = .ok s') :
    s.Counted s' m ∧ s' = {s with numTasks := s'.numTasks} := by
  unfold markCompletedTask at h
  split at h
  · rename_i pending hp
    cases h
    refine ⟨⟨fun _ => by simp [hp], fun f => ?_, fun h₀ f => ?_⟩, rfl⟩
    · by_cases hf : m.fragmentId = f
      · subst hf
        simp only [QueueSourceState.left, hm, hp]
        split
        · simp [OrderedMap.find?_erase]
          omega
        · simp [OrderedMap.find?_modify, hp]
      · have hf' : ¬ f = m.fragmentId := fun e => hf e.symm
        simp only [QueueSourceState.left, hm, hf, and_false, if_false]
        split <;> simp [OrderedMap.find?_erase, OrderedMap.find?_modify, hf']
    · show (ite _ _ _ : OrderedMap Nat Nat).find? f ≠ some 0
      split
      · simp [OrderedMap.find?_erase, h₀]
      rename_i hne
      by_cases hf : f = m.fragmentId
      · subst hf
        simp [OrderedMap.find?_modify, hp, hne]
      · simp [OrderedMap.find?_modify, hf, h₀]
  · cases h

theorem QueueSourceState.receive_spec (h : s.receive m = .ok s') :
    s.Counted s' m ∧ s'.sourceQueue = s.sourceQueue ∧ s'.allowEnqueue = s.allowEnqueue ∧
      s'.inputComplete = s.inputComplete ∧ s'.totalHitsCount = s.totalHitsCount := by
  unfold receive at h
  split at h
  · rename_i hm
    obtain ⟨hc, hs⟩ := markCompletedTask_spec hm h
    rw [hs]
    exact ⟨⟨hc.expected, hc.left, hc.positive⟩, rfl, rfl, rfl, rfl⟩
  · rename_i hm
    cases h
    exact ⟨.of_unmarked (by simpa using hm) rfl, rfl, rfl, rfl, rfl⟩

/-- A source that waits for nobody. -/
def QueueSourceState.Idle (s : QueueSourceState β) : Prop := ∀ f, s.left f = 0

theorem QueueSourceState.begin?_isNone (h : ∀ f, s.numTasks.find? f ≠ some 0) :
    s.numTasks.begin?.isNone = true ↔ s.Idle := by
  rw [Option.isNone_iff_eq_none, OrderedMap.begin?_eq_none]
  refine forall_congr' fun f => ⟨fun hn => by simp [QueueSourceState.left, hn], fun hl => ?_⟩
  cases hf : s.numTasks.find? f with
  | none => rfl
  | some n =>
    simp only [QueueSourceState.left, hf] at hl
    exact absurd (hl ▸ hf) (h f)

/-- A source after a call of `GetData` that answered `completed`, with the message it took. -/
structure QueueSourceState.Took (s s' : QueueSourceState β) (op : MergeOp) (completed : Bool) (m : FragmentMessage β) :
    Prop where
  queue : s.sourceQueue = m :: s'.sourceQueue
  counted : s.Counted s' m
  answer : completed = s'.numTasks.begin?.isNone
  inputComplete : s'.inputComplete = true → s.inputComplete = true ∨ completed = true
  closed : s'.allowEnqueue = false → s.allowEnqueue = false ∨ s'.inputComplete = true
  total : op = .mergeTop → s'.totalHitsCount = s.totalHitsCount + m.hits

theorem QueueSourceState.handOver_spec (s : QueueSourceState β) (op : MergeOp) (completed : Bool) (d : FragmentData β) :
    (s.handOver op completed d).numTasks = s.numTasks ∧ (s.handOver op completed d).sourceQueue = s.sourceQueue ∧
      ((s.handOver op completed d).inputComplete = true → s.inputComplete = true ∨ completed = true) ∧
      ((s.handOver op completed d).allowEnqueue = false →
        s.allowEnqueue = false ∨ (s.handOver op completed d).inputComplete = true) ∧
      (op = .mergeTop →
        (s.handOver op completed d).totalHitsCount = s.totalHitsCount + (FragmentMessage.data d).hits) := by
  cases op <;> simp [handOver, FragmentMessage.hits] <;> grind

theorem QueueSourceState.getData_spec {op : MergeOp} {completed : Bool}
    (h : s.getData op = .ok (s', completed)) : ∃ m, s.Took s' op completed m := by
  unfold getData at h
  split at h
  · cases h
  rename_i m rest hq
  split at h
  · cases h
  rename_i s₁ hr
  obtain ⟨hc, hqueue, hallow, hcomplete, htotal⟩ := receive_spec hr
  refine ⟨m, ?_⟩
  split at h
  · rename_i d
    cases h
    obtain ⟨hn, hq', hin, hal, htot⟩ := s₁.handOver_spec op s₁.numTasks.begin?.isNone d
    refine ⟨by rw [hq', hqueue, hq], ⟨hc.expected, fun f => ?_, fun h₀ f => ?_⟩, by rw [hn], ?_, ?_, ?_⟩
    · exact (congrArg (fun numTasks => (numTasks.find? f).getD 0) hn).trans (hc.left f)
    · rw [hn]
      exact hc.positive h₀ f
    · intro h'
      rw [← hcomplete]
      exact hin h'
    · intro h'
      rw [← hallow]
      exact hal h'
    · intro hop
      exact (htot hop).trans (by rw [htotal])
  · rename_i hdata
    cases h
    refine ⟨by rw [hqueue, hq], ⟨hc.expected, hc.left, hc.positive⟩, rfl, ?_, ?_, ?_⟩
    · intro h'
      exact .inl (hcomplete ▸ h')
    · intro h'
      exact .inl (hallow ▸ h')
    · intro _
      cases m with
      | data d => exact absurd rfl (hdata d)
      | error f => exact htotal
      | none f => exact htotal

/-- `GetData` fails only on an empty queue or for a message it does not expect. -/
theorem QueueSourceState.getData_error {op : MergeOp} {e : FragmentFault} (h : s.getData op = .error e) :
    s.sourceQueue = [] ∨ ∃ m rest, s.sourceQueue = m :: rest ∧ m.marks = true ∧ s.left m.fragmentId = 0 := by
  unfold getData at h
  split at h
  · exact .inl ‹_›
  rename_i m rest hq
  refine .inr ⟨m, rest, hq, ?_⟩
  split at h
  · rename_i e' hr
    unfold receive at hr
    split at hr
    · rename_i hm
      refine ⟨hm, ?_⟩
      unfold markCompletedTask at hr
      split at hr
      · cases hr
      rename_i hn
      have hn' : s.numTasks.find? m.fragmentId = none := hn
      simp [QueueSourceState.left, hn']
    · cases hr
  · split at h <;> cases h

/-! ### The messages of one task -/

theorem own_append (f t : Nat) (l l' : List (FragmentMessage β)) : own f t (l ++ l') = own f t l ++ own f t l' :=
  filter_append ..

theorem own_message (c : SinkTask β) (materialize : Bool) (f t i : Nat) (block : β) (f' t' : Nat) :
    own f' t' [.data (c.message materialize f t i block)] =
      if f' = f ∧ t' = t then [.data (c.message materialize f t i block)] else [] := by
  by_cases hft : f' = f ∧ t' = t
  · simp [own, FragmentMessage.isFrom, SinkTask.message, hft]
  · have hne : ¬ (f = f' ∧ t = t') := fun e => hft ⟨e.1.symm, e.2.symm⟩
    rw [if_neg hft]
    simpa [own, FragmentMessage.isFrom, SinkTask.message] using hne

theorem marked_append (f : Nat) (l l' : List (FragmentMessage β)) : marked f (l ++ l') = marked f l + marked f l' :=
  countP_append ..

variable {l : List (FragmentMessage β)}

/-- What the messages of a fragment add up to is what those of its tasks do. -/
theorem sum_own {f n : Nat}
    (h : ∀ m ∈ l, ∃ d, m = .data d ∧ (d.fragmentId = f → d.taskId < n)) (w : FragmentMessage β → Nat) :
    ((l.filter (·.fragmentId == f)).map w).sum = ∑ t ∈ Finset.range n, ((own f t l).map w).sum := by
  induction l with
  | nil => simp [own]
  | cons m l ih =>
    obtain ⟨d, rfl, hd⟩ := h m (mem_cons_self ..)
    have hl := ih fun m hm => h m (mem_cons_of_mem _ hm)
    -- the new message counts once, with the task it comes from
    have hone : ∀ t, ((own f t (.data d :: l)).map w).sum = ((own f t l).map w).sum +
        if d.taskId = t then (if d.fragmentId = f then w (.data d) else 0) else 0 := by
      intro t
      by_cases ht : d.taskId = t <;> by_cases hf : d.fragmentId = f <;>
        simp [own, FragmentMessage.isFrom, ht, hf, add_comm]
    simp only [hone, Finset.sum_add_distrib, Finset.sum_ite_eq, Finset.mem_range, ← hl]
    by_cases hf : d.fragmentId = f
    · simp [hd hf, FragmentMessage.fragmentId, hf, add_comm]
    · simp [FragmentMessage.fragmentId, hf]

theorem countP_eq_sum (p : FragmentMessage β → Bool) (l : List (FragmentMessage β)) :
    l.countP p = (l.map fun m => if p m then 1 else 0).sum := by
  induction l with
  | nil => rfl
  | cons m l ih => rw [countP_cons, ih, map_cons, sum_cons, add_comm]

theorem marked_eq_sum {f n : Nat} (h : ∀ m ∈ l, ∃ d, m = .data d ∧ (d.fragmentId = f → d.taskId < n)) :
    marked f l = ∑ t ∈ Finset.range n, (own f t l).countP FragmentMessage.marks := by
  simp only [marked, ← countP_filter, countP_eq_sum, sum_own h]

/-- The task is complete and its sink has sent every block. -/
def SinkTask.Sent (c : SinkTask β) : Prop := c.complete = true ∧ (c.idx = none ∨ c.idx = some c.dataBlockArray.length)

/-- What a task may hold when it ends: in a stream fragment one block, in a materialized one at
least one. -/
def FinalBlocks (materialize : Bool) (blocks : List β) : Prop := if materialize then blocks ≠ [] else blocks.length = 1

/-- A task that ends with these blocks marks itself at most once, and at least once unless it may
be silent. -/
structure MarksOnce (silent : Prop) (materialize : Bool) (blocks : List β) : Prop where
  some : silent ∨ blocks ≠ []
  single : materialize = false → blocks.length ≤ 1

variable {materialize : Bool}

theorem FinalBlocks.marksOnce {blocks : List β} (h : FinalBlocks materialize blocks) :
    MarksOnce False materialize blocks := by
  cases materialize with
  | false =>
    have hlen : blocks.length = 1 := h
    exact ⟨.inr (length_pos_iff.mp (by omega)), fun _ => hlen.le⟩
  | true => exact ⟨.inr h, nofun⟩

/-- A child task with the messages it has sent, in order. -/
structure TaskInv (silent : Prop) (materialize : Bool) (c : SinkTask β) (l : List (FragmentMessage β)) : Prop where
  sinking : ∀ i, c.idx = some i → i ≤ c.dataBlockArray.length
  kind : c.idx ≠ none → materialize = true → c.complete = true
  final : c.idx ≠ none → c.complete = true → MarksOnce silent materialize c.dataBlockArray
  cleared : materialize = false → c.idx = none → c.dataBlockArray = []
  unmarked : ¬ c.Sent → ∀ m ∈ l, m.marks = false
  last : c.Sent → (silent ∧ ∀ m ∈ l, m.marks = false) ∨
    ∃ before m, l = before ++ [m] ∧ m.marks = true ∧ ∀ x ∈ before, x.marks = false

variable {silent : Prop}

theorem TaskInv.startSink {c c' : SinkTask β}
    (h : TaskInv silent materialize c l) (hc : c.complete = false) (hidx : c'.idx = none)
    (hfinal : c'.complete = true → MarksOnce silent materialize c'.dataBlockArray) :
    TaskInv silent materialize (c'.startSink materialize) l := by
  have hun : ∀ m ∈ l, m.marks = false := h.unmarked fun hs => by simp [SinkTask.Sent, hc] at hs
  have hsilent : (c'.startSink materialize).Sent → silent := by
    rintro ⟨hcomplete, hsent⟩
    unfold SinkTask.startSink at hcomplete hsent
    split at hcomplete
    · rename_i hb
      simp [hcomplete] at hb
    rename_i hb
    simp only [if_neg hb, Option.some.injEq, reduceCtorEq, false_or] at hsent
    exact (hfinal hcomplete).some.resolve_right (not_not.mpr (length_eq_zero_iff.mp hsent.symm))
  refine ⟨?_, ?_, ?_, ?_, fun _ => hun, fun hs => .inl ⟨hsilent hs, hun⟩⟩ <;> unfold SinkTask.startSink <;> split <;>
    rename_i hb
  · simp [hidx]
  · simp
  · simp [hidx]
  · intro _ hm
    simpa [hm] using hb
  · simp [hidx]
  · intro _ hcomplete
    exact hfinal hcomplete
  · intro hm
    simp [hm] at hb
  · simp

variable {c : SinkTask β} {i : Nat}

theorem TaskInv.clear (h : TaskInv silent materialize c l) (hidx : c.idx = some i) (hi : c.dataBlockArray.length ≤ i) :
    TaskInv silent materialize {c with dataBlockArray := [], idx := none} l := by
  have hlen : i = c.dataBlockArray.length := le_antisymm (h.sinking i hidx) hi
  have hsent : c.Sent ↔ c.complete = true := by simp [SinkTask.Sent, hidx, hlen]
  refine ⟨by simp, by simp, by simp, fun _ _ => rfl, fun hs => h.unmarked ?_, fun hs => h.last (hsent.mpr hs.1)⟩
  exact fun hs' => hs ⟨hs'.1, .inl rfl⟩

variable {f t : Nat}

theorem TaskInv.send {block : β}
    (h : TaskInv silent materialize c l) (hidx : c.idx = some i) (hi : i < c.dataBlockArray.length) :
    TaskInv silent materialize {c with idx := some (i + 1)} (l ++ [.data (c.message materialize f t i block)]) := by
  have hun : ∀ m ∈ l, m.marks = false := h.unmarked fun hs => by
    rcases hs.2 with hn | hn <;> simp [hidx] at hn
    omega
  have hmarks : (FragmentMessage.data (c.message materialize f t i block)).marks = true ↔
      c.complete = true ∧ i + 1 = c.dataBlockArray.length := by
    cases hm : materialize
    · have hone : c.complete = true → c.dataBlockArray.length ≤ 1 := fun hcomplete =>
        (h.final (by simp [hidx]) hcomplete).single hm
      cases hc : c.complete
      · simp [FragmentMessage.marks, SinkTask.message, hc]
      · have := hone hc
        simp [FragmentMessage.marks, SinkTask.message, hc]
        omega
    · simp [FragmentMessage.marks, SinkTask.message]
  refine ⟨?_, fun _ => h.kind (by simp [hidx]), fun _ => h.final (by simp [hidx]), by simp, ?_, ?_⟩
  · intro j hj
    cases hj
    exact hi
  · intro hs m hm
    rcases mem_append.mp hm with hm | hm
    · exact hun m hm
    · rw [mem_singleton.mp hm, Bool.eq_false_iff, ne_eq, hmarks]
      rintro ⟨hcomplete, hlen⟩
      exact hs ⟨hcomplete, .inr (congrArg some hlen)⟩
  · rintro ⟨hcomplete, hlen⟩
    have hlen : i + 1 = c.dataBlockArray.length := by simpa using hlen
    exact .inr ⟨l, _, rfl, hmarks.mpr ⟨hcomplete, hlen⟩, hun⟩

/-! ### The whole exchange -/

/-- Everything the children have sent, in the order of the queue. -/
def Exchange.sent (s : Exchange β) : List (FragmentMessage β) := s.dequeued ++ s.source.sourceQueue

/-- Task `t` of fragment `f` has sent all it has, and nothing of it is left in the queue. -/
def Exchange.Read (s : Exchange β) (f t : Nat) : Prop := (s.children f t).Sent ∧ own f t s.source.sourceQueue = []

/-- The accounts of the exchange; with `silent`, tasks may end without a block. -/
structure ExchangeInv (silent : Prop) (plan : Plan) (s : Exchange β) : Prop where
  known : ∀ m ∈ s.sent, ∃ d, m = .data d ∧ plan.Task d.fragmentId d.taskId
  task : ∀ f t, plan.Task f t → TaskInv silent (plan.materialize f) (s.children f t) (own f t s.sent)
  left : ∀ f, s.source.left f + marked f s.dequeued = (plan.tasks.find? f).getD 0
  positive : ∀ f, s.source.numTasks.find? f ≠ some 0
  reported : s.reported = true ↔ s.source.Idle
  inputComplete : s.source.inputComplete = true → s.reported = true
  closed : s.source.allowEnqueue = false → s.reported = true

theorem ExchangeInv.initial (silent : Prop) (plan : Plan) : ExchangeInv silent plan (Exchange.initial plan : Exchange β) where
  known := by simp [Exchange.sent, Exchange.initial]
  task f t _ := by
    refine ⟨by simp [Exchange.initial], by simp [Exchange.initial], by simp [Exchange.initial], fun _ _ => rfl, ?_, ?_⟩
    · simp [Exchange.sent, Exchange.initial, own]
    · simp [SinkTask.Sent, Exchange.initial, OperatorState.initial]
  left f := by simp [Exchange.initial, QueueSourceState.left, marked]
  positive f h := absurd (plan.tasks_pos f 0 h) (lt_irrefl 0)
  reported := by
    have hpos (f : Nat) : (Exchange.initial plan : Exchange β).source.numTasks.find? f ≠ some 0 :=
      fun h => absurd (plan.tasks_pos f 0 h) (lt_irrefl 0)
    rw [← QueueSourceState.begin?_isNone hpos, Option.isNone_iff_eq_none]
    exact ⟨fun h => by simp [Exchange.initial] at h, fun h => absurd h plan.tasks_some⟩
  inputComplete := by simp [Exchange.initial]
  closed := by simp [Exchange.initial]

section Facts

variable {s : Exchange β} (h : ExchangeInv silent plan s)
include h

variable {f t : Nat}

theorem ExchangeInv.marks_of_read (hloud : ¬ silent) (ht : plan.Task f t) (hr : s.Read f t) :
    (own f t s.dequeued).countP FragmentMessage.marks = 1 := by
  have hinv := h.task f t ht
  rw [Exchange.sent, own_append, hr.2, append_nil] at hinv
  obtain ⟨before, m, hl, hm, hbefore⟩ := (hinv.last hr.1).resolve_left fun hs => hloud hs.1
  have hzero : before.countP FragmentMessage.marks = 0 := countP_eq_zero.mpr fun x hx => by simp [hbefore x hx]
  simp [hl, hm, hzero]

theorem ExchangeInv.marks_of_not_read (ht : plan.Task f t) (hr : ¬ s.Read f t) :
    (own f t s.dequeued).countP FragmentMessage.marks = 0 := by
  have hinv := h.task f t ht
  rw [Exchange.sent, own_append] at hinv
  refine countP_eq_zero.mpr fun x hx => ?_
  by_cases hs : (s.children f t).Sent
  · rcases hinv.last hs with ⟨-, hun⟩ | ⟨before, m, hl, hm, hbefore⟩
    · simp [hun x (mem_append_left _ hx)]
    · -- the last message is in the queue, so what was dequeued came before it
      have hq : own f t s.source.sourceQueue ≠ [] := fun hq => hr ⟨hs, hq⟩
      rw [← dropLast_append_getLast hq, ← append_assoc] at hl
      have hb := (append_inj' hl rfl).1
      simp [hbefore x (hb ▸ mem_append_left _ hx)]
  · simp [hinv.unmarked hs x (mem_append_left _ hx)]

theorem ExchangeInv.marks_le_one (ht : plan.Task f t) : (own f t s.dequeued).countP FragmentMessage.marks ≤ 1 := by
  by_cases hr : s.Read f t
  · have hinv := h.task f t ht
    rw [Exchange.sent, own_append, hr.2, append_nil] at hinv
    rcases hinv.last hr.1 with ⟨-, hun⟩ | ⟨before, m, hl, hm, hbefore⟩
    · have hzero : (own f t s.dequeued).countP FragmentMessage.marks = 0 :=
        countP_eq_zero.mpr fun x hx => by simp [hun x hx]
      omega
    have hzero : before.countP FragmentMessage.marks = 0 := countP_eq_zero.mpr fun x hx => by simp [hbefore x hx]
    simp [hl, hm, hzero]
  · simp [h.marks_of_not_read ht hr]

theorem ExchangeInv.marked_eq {f n : Nat} (hf : plan.tasks.find? f = some n) :
    marked f s.dequeued = ∑ t ∈ Finset.range n, (own f t s.dequeued).countP FragmentMessage.marks := by
  refine marked_eq_sum fun m hm => ?_
  obtain ⟨d, rfl, n', hn', ht⟩ := h.known m (mem_append_left _ hm)
  refine ⟨d, rfl, fun hd => ?_⟩
  rw [hd, hf] at hn'
  cases hn'
  exact ht

theorem ExchangeInv.left_pos (ht : plan.Task f t) (hr : ¬ s.Read f t) : 0 < s.source.left f := by
  obtain ⟨n, hn, htn⟩ := ht
  have hleft := h.left f
  rw [hn, Option.getD_some, h.marked_eq hn] at hleft
  have hlt : ∑ t ∈ Finset.range n, (own f t s.dequeued).countP FragmentMessage.marks < ∑ _t ∈ Finset.range n, 1 := by
    refine Finset.sum_lt_sum (fun t' ht' => ?_) ⟨t, Finset.mem_range.mpr htn, ?_⟩
    · exact h.marks_le_one ⟨n, hn, Finset.mem_range.mp ht'⟩
    · simp [h.marks_of_not_read ⟨n, hn, htn⟩ hr]
  rw [Finset.sum_const, Finset.card_range, Nat.nsmul_eq_mul] at hlt
  omega

theorem ExchangeInv.left_eq_zero (hloud : ¬ silent) (hr : ∀ t, plan.Task f t → s.Read f t) : s.source.left f = 0 := by
  have hleft := h.left f
  cases hf : plan.tasks.find? f with
  | none =>
    rw [hf, Option.getD_none] at hleft
    omega
  | some n =>
    have hone : ∀ t ∈ Finset.range n, (own f t s.dequeued).countP FragmentMessage.marks = 1 := fun t ht => by
      have htask : plan.Task f t := ⟨n, hf, Finset.mem_range.mp ht⟩
      exact h.marks_of_read hloud htask (hr t htask)
    rw [hf, h.marked_eq hf, Finset.sum_congr rfl hone] at hleft
    simpa using hleft

theorem ExchangeInv.sent_of_idle (hidle : s.source.Idle) :
    (∀ f t, plan.Task f t → (s.children f t).Sent) ∧ s.source.sourceQueue = [] := by
  have hall : ∀ f t, plan.Task f t → s.Read f t := fun f t ht => by
    by_contra hr
    exact absurd (hidle f) (h.left_pos ht hr).ne'
  refine ⟨fun f t ht => (hall f t ht).1, eq_nil_iff_forall_not_mem.mpr fun m hm => ?_⟩
  obtain ⟨d, rfl, hd⟩ := h.known m (mem_append_right _ hm)
  have hmem : FragmentMessage.data d ∈ own d.fragmentId d.taskId s.source.sourceQueue :=
    mem_filter.mpr ⟨hm, by simp [FragmentMessage.isFrom]⟩
  simp [(hall _ _ hd).2] at hmem

theorem ExchangeInv.idle_iff (hloud : ¬ silent) :
    s.source.Idle ↔ (∀ f t, plan.Task f t → (s.children f t).Sent) ∧ s.source.sourceQueue = [] := by
  refine ⟨h.sent_of_idle, ?_⟩
  rintro ⟨hsent, hq⟩ f
  exact h.left_eq_zero hloud fun t ht => ⟨hsent f t ht, by simp [hq, own]⟩

theorem ExchangeInv.expected {m : FragmentMessage β} {rest : List (FragmentMessage β)}
    (hq : s.source.sourceQueue = m :: rest) : 0 < s.source.left m.fragmentId := by
  obtain ⟨d, rfl, hd⟩ := h.known m (mem_append_right _ (by simp [hq]))
  have hne : own d.fragmentId d.taskId s.source.sourceQueue ≠ [] := by simp [hq, own, FragmentMessage.isFrom]
  exact h.left_pos hd fun hr => hne hr.2

end Facts

/-! ### Every step keeps the accounts -/

/-- The blocks of an execution that completes its task let it mark itself once. -/
def MayEnd (silent : Prop) (plan : Plan) (s : Exchange β) : ExchangeCall β → Prop
  | .execute f t blocks complete _ =>
    complete = true → MarksOnce silent (plan.materialize f) ((s.children f t).dataBlockArray ++ blocks)
  | _ => True

theorem Exchange.setChild_self (s : Exchange β) (f t : Nat) (c : SinkTask β) : (s.setChild f t c).children f t = c := by
  simp [setChild]

theorem Exchange.setChild_ne (s : Exchange β) {f t f' t' : Nat} (c : SinkTask β) (h : ¬ (f' = f ∧ t' = t)) :
    (s.setChild f t c).children f' t' = s.children f' t' := by
  simp [setChild, h]

theorem SinkTask.sink_open {source : QueueSourceState β} {block : β}
    (hget : c.dataBlockArray[i]? = some block) (hopen : source.allowEnqueue = true) :
    c.sink source materialize f t i = ({c with idx := some (i + 1)},
       {source with sourceQueue := source.sourceQueue ++ [.data (c.message materialize f t i block)]}) := by
  simp [sink, hget, QueueSourceState.enqueue, hopen]

theorem Exchange.getData_took {s s' : Exchange β} (hstep : Exchange.step plan s .getData = .ok s') :
    ∃ m, s.source.Took s'.source plan.op s'.reported m ∧ s'.dequeued = s.dequeued ++ [m] ∧ s'.children = s.children := by
  simp only [Exchange.step] at hstep
  split at hstep
  · cases hstep
  rename_i hget
  cases hstep
  obtain ⟨m, htook⟩ := QueueSourceState.getData_spec hget
  exact ⟨m, htook, by simp [htook.queue], rfl⟩

section Steps

variable {s s' : Exchange β} (h : ExchangeInv silent plan s)
include h

variable {f t : Nat}

theorem ExchangeInv.setChild {c : SinkTask β}
    (hc : TaskInv silent (plan.materialize f) c (own f t s.sent)) : ExchangeInv silent plan (s.setChild f t c) where
  known := h.known
  task f' t' ht := by
    by_cases hft : f' = f ∧ t' = t
    · obtain ⟨rfl, rfl⟩ := hft
      rwa [Exchange.setChild_self]
    · rw [Exchange.setChild_ne _ _ hft]
      exact h.task f' t' ht
  left := h.left
  positive := h.positive
  reported := h.reported
  inputComplete := h.inputComplete
  closed := h.closed

theorem ExchangeInv.allowEnqueue (ht : plan.Task f t) (hs : ¬ (s.children f t).Sent) :
    s.source.allowEnqueue = true := by
  by_contra hno
  have hidle := h.reported.mp (h.closed (by simpa using hno))
  exact hs ((h.sent_of_idle hidle).1 f t ht)

theorem ExchangeInv.send {f t i : Nat} {block : β} {source : QueueSourceState β} (ht : plan.Task f t)
    (hs : s' = {s.setChild f t {s.children f t with idx := some (i + 1)} with source := source})
    (hidx : (s.children f t).idx = some i) (hi : i < (s.children f t).dataBlockArray.length)
    (hqueue : source.sourceQueue =
      s.source.sourceQueue ++ [.data ((s.children f t).message (plan.materialize f) f t i block)])
    (hnum : source.numTasks = s.source.numTasks) (hin : source.inputComplete = s.source.inputComplete)
    (hopen : source.allowEnqueue = true) : ExchangeInv silent plan s' := by
  have hsent : s'.sent = s.sent ++ [.data ((s.children f t).message (plan.materialize f) f t i block)] := by
    simp [Exchange.sent, Exchange.setChild, hs, hqueue]
  have hchildren : s'.children = (s.setChild f t {s.children f t with idx := some (i + 1)}).children := by rw [hs]
  have hleft : s'.source.left = s.source.left := by
    funext f
    simp [hs, QueueSourceState.left, hnum]
  refine ⟨?_, ?_, ?_, ?_, ?_, ?_, ?_⟩
  · rw [hsent]
    intro m' hm'
    rcases mem_append.mp hm' with hm' | hm'
    · exact h.known m' hm'
    · exact ⟨_, mem_singleton.mp hm', ht⟩
  · intro f' t' ht'
    rw [hsent, own_append, own_message]
    by_cases hft : f' = f ∧ t' = t
    · obtain ⟨rfl, rfl⟩ := hft
      rw [if_pos ⟨rfl, rfl⟩, hchildren, Exchange.setChild_self]
      exact (h.task f' t' ht').send hidx hi
    · rw [if_neg hft, append_nil, hchildren, Exchange.setChild_ne s _ hft]
      exact h.task f' t' ht'
  · subst hs
    exact hleft ▸ h.left
  · subst hs
    exact hnum ▸ h.positive
  · subst hs
    unfold QueueSourceState.Idle
    rw [hleft]
    exact h.reported
  · subst hs
    exact hin ▸ h.inputComplete
  · subst hs
    intro hc
    simp [hopen] at hc

theorem ExchangeInv.sink_cases (ha : Exchange.Allowed plan s (.sink f t))
    (hstep : Exchange.step plan s (.sink f t) = .ok s') :
    ∃ i, (s.children f t).idx = some i ∧ ((s.children f t).dataBlockArray.length = i ∧
          s' = s.setChild f t {s.children f t with dataBlockArray := [], idx := none} ∨
        ∃ block, (s.children f t).dataBlockArray[i]? = some block ∧ s.source.allowEnqueue = true ∧
          s' = {s.setChild f t {s.children f t with idx := some (i + 1)} with
            source := {s.source with
              sourceQueue := s.source.sourceQueue ++
                [.data ((s.children f t).message (plan.materialize f) f t i block)]}}) := by
  obtain ⟨ht, hne⟩ := ha
  obtain ⟨i, hidx⟩ := Option.ne_none_iff_exists'.mp hne
  refine ⟨i, hidx, ?_⟩
  simp only [Exchange.step, hidx] at hstep
  cases hget : (s.children f t).dataBlockArray[i]? with
  | none =>
    simp only [SinkTask.sink, hget] at hstep
    cases hstep
    exact .inl ⟨le_antisymm (getElem?_eq_none_iff.mp hget) ((h.task f t ht).sinking i hidx), rfl⟩
  | some block =>
    have hi : i < (s.children f t).dataBlockArray.length := (List.getElem?_eq_some_iff.mp hget).1
    have hopen : s.source.allowEnqueue = true := h.allowEnqueue ht fun hs => by
      rcases hs.2 with hn | hn <;> simp [hidx] at hn
      omega
    rw [SinkTask.sink_open hget hopen] at hstep
    cases hstep
    exact .inr ⟨block, rfl, hopen, rfl⟩

theorem ExchangeInv.getData (hstep : Exchange.step plan s .getData = .ok s') : ExchangeInv silent plan s' := by
  obtain ⟨m, htook, hdequeued, hchildren⟩ := Exchange.getData_took hstep
  have hpos := h.expected htook.queue
  have hsent : s'.sent = s.sent := by simp [Exchange.sent, htook.queue, hdequeued]
  have hpositive : ∀ f, s'.source.numTasks.find? f ≠ some 0 := htook.counted.positive h.positive
  have hanswer : s'.reported = true ↔ s'.source.Idle := by
    rw [htook.answer]
    exact QueueSourceState.begin?_isNone hpositive
  have hopen : s.reported = false := by
    by_contra hno
    have hidle := h.reported.mp (by simpa using hno)
    exact absurd (hidle m.fragmentId) hpos.ne'
  have hin : s'.source.inputComplete = true → s'.reported = true := fun hi => by
    rcases htook.inputComplete hi with hi | hi
    · exact absurd (h.inputComplete hi) (by simp [hopen])
    · exact hi
  refine ⟨hsent ▸ h.known, ?_, fun f => ?_, hpositive, hanswer, hin, fun hc => ?_⟩
  · rw [hsent, hchildren]
    exact h.task
  · have hleft := h.left f
    rw [hdequeued, marked_append, htook.counted.left f]
    by_cases hm : m.marks = true ∧ m.fragmentId = f
    · have hone : marked f [m] = 1 := by simp [marked, hm]
      rw [if_pos hm]
      have := hm.2 ▸ hpos
      omega
    · have hzero : marked f [m] = 0 := by simpa [marked] using hm
      rwa [if_neg hm, hzero]
  · rcases htook.closed hc with hc | hc
    · exact absurd (h.closed hc) (by simp [hopen])
    · exact hin hc

theorem ExchangeInv.step (hop : plan.op ≠ .mergeLimit) {a : ExchangeCall β} (ha : Exchange.Allowed plan s a)
    (hone : MayEnd silent plan s a) (hstep : Exchange.step plan s a = .ok s') : ExchangeInv silent plan s' := by
  cases a with
  | execute f t blocks complete hits =>
    obtain ⟨ht, hidx, hc⟩ := ha
    cases hstep
    exact h.setChild ((h.task f t ht).startSink hc hidx hone)
  | sink f t =>
    obtain ⟨i, hidx, ⟨hlen, rfl⟩ | ⟨block, hget, hopen, rfl⟩⟩ := h.sink_cases ha hstep
    · exact h.setChild ((h.task f t ha.1).clear hidx hlen.le)
    · exact h.send ha.1 rfl hidx (List.getElem?_eq_some_iff.mp hget).1 rfl rfl rfl hopen
  | getData => exact h.getData hstep
  | limitOver => exact absurd ha hop

theorem ExchangeInv.getData_ok (hq : s.source.sourceQueue ≠ []) (e : FragmentFault) :
    s.source.getData plan.op ≠ .error e := by
  intro he
  rcases QueueSourceState.getData_error he with hn | ⟨m, rest, hqueue, -, hzero⟩
  · exact hq hn
  · exact absurd hzero (h.expected hqueue).ne'

end Steps

/-! ### Completion is reached -/

/-- All tasks of the child fragments. -/
def Plan.pairs (plan : Plan) : Finset (Nat × Nat) :=
  plan.tasks.entries.toFinset.biUnion fun e => (Finset.range e.2).image fun t => (e.1, t)

theorem Plan.mem_pairs (plan : Plan) (p : Nat × Nat) : p ∈ plan.pairs ↔ plan.Task p.1 p.2 := by
  obtain ⟨f, t⟩ := p
  simp only [pairs, Finset.mem_biUnion, mem_toFinset, Finset.mem_image, Finset.mem_range, Prod.mk.injEq]
  constructor
  · rintro ⟨e, he, t', ht', rfl, rfl⟩
    exact ⟨e.2, (plan.tasks.mem_entries e.1 e.2).mp he, ht'⟩
  · rintro ⟨n, hn, ht⟩
    exact ⟨(f, n), (plan.tasks.mem_entries f n).mpr hn, t, ht, rfl, rfl⟩

/-- The calls a sinking task still causes: two for every block, and the end of the loop. -/
def SinkTask.work (c : SinkTask β) : Nat :=
  match c.idx with
  | none => 0
  | some i => 2 * (c.dataBlockArray.length - i) + 1

/-- The calls that are left when all children are complete. -/
def Exchange.work (plan : Plan) (s : Exchange β) : Nat :=
  s.source.sourceQueue.length + ∑ p ∈ plan.pairs, (s.children p.1 p.2).work

def AllComplete (plan : Plan) (s : Exchange β) : Prop := ∀ f t, plan.Task f t → (s.children f t).complete = true

theorem Exchange.work_setChild {s : Exchange β} (ht : plan.Task f t) (c : SinkTask β) :
    (∑ p ∈ plan.pairs, ((s.setChild f t c).children p.1 p.2).work) + (s.children f t).work =
      (∑ p ∈ plan.pairs, (s.children p.1 p.2).work) + c.work := by
  have hmem : (f, t) ∈ plan.pairs := (plan.mem_pairs (f, t)).mpr ht
  have hrest : ∑ p ∈ plan.pairs.erase (f, t), ((s.setChild f t c).children p.1 p.2).work =
      ∑ p ∈ plan.pairs.erase (f, t), (s.children p.1 p.2).work := by
    refine Finset.sum_congr rfl fun p hp => ?_
    rw [Exchange.setChild_ne _ _ fun e => (Finset.mem_erase.mp hp).1 (Prod.ext e.1 e.2)]
  rw [← Finset.add_sum_erase _ _ hmem, ← Finset.add_sum_erase plan.pairs _ hmem]
  simp only [Exchange.setChild_self]
  omega

section Progress

variable {s s' : Exchange β} (h : ExchangeInv silent plan s) (hall : AllComplete plan s)
include h hall

theorem ExchangeInv.step_work (hop : plan.op ≠ .mergeLimit) {a : ExchangeCall β} (ha : Exchange.Allowed plan s a)
    (hstep : Exchange.step plan s a = .ok s') :
    ExchangeInv silent plan s' ∧ AllComplete plan s' ∧ s'.work plan < s.work plan := by
  cases a with
  | execute f t blocks complete hits => exact absurd (hall f t ha.1) (by simp [ha.2.2])
  | sink f t =>
    refine ⟨h.step hop ha trivial hstep, ?_⟩
    have hcomplete (c : SinkTask β) (hc : c.complete = true) : AllComplete plan (s.setChild f t c) := by
      intro f' t' ht'
      by_cases hft : f' = f ∧ t' = t
      · obtain ⟨rfl, rfl⟩ := hft
        rwa [Exchange.setChild_self]
      · rw [Exchange.setChild_ne _ _ hft]
        exact hall f' t' ht'
    obtain ⟨i, hidx, ⟨hlen, rfl⟩ | ⟨block, hget, -, rfl⟩⟩ := h.sink_cases ha hstep
    · refine ⟨hcomplete _ (hall f t ha.1), ?_⟩
      have hsum := Exchange.work_setChild (s := s) ha.1 {s.children f t with dataBlockArray := [], idx := none}
      simp only [SinkTask.work, hidx] at hsum
      simp only [Exchange.work, SinkTask.work, Exchange.setChild] at hsum ⊢
      omega
    · refine ⟨hcomplete _ (hall f t ha.1), ?_⟩
      have hi := (List.getElem?_eq_some_iff.mp hget).1
      have hsum := Exchange.work_setChild (s := s) ha.1 {s.children f t with idx := some (i + 1)}
      simp only [SinkTask.work, hidx] at hsum
      simp only [Exchange.work, SinkTask.work, length_append, length_singleton] at hsum ⊢
      omega
  | getData =>
    refine ⟨h.getData hstep, ?_⟩
    obtain ⟨m, htook, -, hchildren⟩ := Exchange.getData_took hstep
    refine ⟨fun f t ht => by rw [hchildren]; exact hall f t ht, ?_⟩
    simp [Exchange.work, htook.queue, hchildren]
  | limitOver => exact absurd ha hop

theorem ExchangeInv.reported_or_enabled (hloud : ¬ silent) : s.reported = true ∨ ∃ a, Exchange.Allowed plan s a := by
  by_cases hq : s.source.sourceQueue = []
  · by_cases hidx : ∀ f t, plan.Task f t → (s.children f t).idx = none
    · exact .inl (h.reported.mpr ((h.idle_iff hloud).mpr ⟨fun f t ht => ⟨hall f t ht, .inl (hidx f t ht)⟩, hq⟩))
    · push Not at hidx
      obtain ⟨f, t, ht, hne⟩ := hidx
      exact .inr ⟨.sink f t, ht, hne⟩
  · exact .inr ⟨.getData, hq⟩

end Progress

/-- Every run that starts when all children are complete is short and ends with the answer. -/
theorem ExchangeInv.run_complete (hloud : ¬ silent) (hop : plan.op ≠ .mergeLimit) {s s' : Exchange β} {calls : List (ExchangeCall β)}
    (h : ExchangeInv silent plan s) (hall : AllComplete plan s) (run : (exchange β plan).Run s calls s') :
    calls.length ≤ s.work plan ∧ (s'.reported = true ∨ ∃ a, (exchange β plan).enabled s' a) := by
  induction run with
  | nil => exact ⟨Nat.zero_le _, h.reported_or_enabled hall hloud⟩
  | cons ha hstep _ ih =>
    obtain ⟨h₁, hall₁, hlt⟩ := h.step_work hall hop ha hstep
    obtain ⟨hlen, hend⟩ := ih h₁ hall₁
    refine ⟨?_, hend⟩
    rw [length_cons]
    omega

/-- The condition on an execution that completes its task: in a stream fragment the task holds
one block then, in a materialized one at least one. -/
def OneMark (plan : Plan) (s : Exchange β) : ExchangeCall β → Prop
  | .execute f t blocks complete _ =>
    complete = true → FinalBlocks (plan.materialize f) ((s.children f t).dataBlockArray ++ blocks)
  | _ => True

theorem OneMark.mayEnd {s : Exchange β} {a : ExchangeCall β} (h : OneMark plan s a) : MayEnd False plan s a := by
  cases a with
  | execute f t blocks complete hits => exact fun hc => (h hc).marksOnce
  | sink f t => trivial
  | getData => trivial
  | limitOver => trivial

/-- **Completion accounting.** Let every task of a stream fragment end with one block and every
task of a materialized fragment with at least one. Then a task is marked at most once, and it
has been exactly when its last block is dequeued; the counts are the tasks that are left;
`GetData` answers that the input is complete exactly when all blocks of all tasks are
consumed, and never meets data it does not expect; and when all children are complete, every
way to go on ends, and ends with that answer. -/
theorem completion_accounting {plan : Plan} (hop : plan.op ≠ .mergeLimit) {calls : List (ExchangeCall β)}
    {s : Exchange β} (run : ((exchange β plan).restrict (OneMark plan)).Run (.initial plan) calls s) :
    (∀ f t, plan.Task f t → (own f t s.dequeued).countP FragmentMessage.marks ≤ 1 ∧
      ((own f t s.dequeued).countP FragmentMessage.marks = 1 ↔
        (s.children f t).Sent ∧ own f t s.source.sourceQueue = [])) ∧
    (∀ f, (s.source.numTasks.find? f).getD 0 + marked f s.dequeued = (plan.tasks.find? f).getD 0) ∧
    (s.reported = true ↔ (∀ f t, plan.Task f t → (s.children f t).Sent) ∧ s.source.sourceQueue = []) ∧
    (s.source.sourceQueue ≠ [] → ∀ e, s.source.getData plan.op ≠ .error e) ∧
    ((∀ f t, plan.Task f t → (s.children f t).complete = true) → ∀ calls' s', (exchange β plan).Run s calls' s' →
      calls'.length ≤ s.work plan ∧ (s'.reported = true ∨ ∃ a, (exchange β plan).enabled s' a)) := by
  have keeps (s : Exchange β) (a : ExchangeCall β) (s' : Exchange β) (h : ExchangeInv False plan s)
      (ha : Exchange.Allowed plan s a ∧ OneMark plan s a) (hstep : Exchange.step plan s a = .ok s') :
      ExchangeInv False plan s' := h.step hop ha.1 ha.2.mayEnd hstep
  have h : ExchangeInv False plan s := run.invariant keeps (.initial False plan)
  refine ⟨fun f t ht => ?_, h.left, h.reported.trans (h.idle_iff id), h.getData_ok,
    fun hall _ _ => h.run_complete id hop hall⟩
  by_cases hr : s.Read f t
  · have hone := h.marks_of_read id ht hr
    exact ⟨hone.le, fun _ => hr, fun _ => hone⟩
  · have hzero := h.marks_of_not_read ht hr
    exact ⟨by omega, fun hone => by omega, fun hr' => absurd hr' hr⟩

/-- Two tasks of a materialized fragment, the second with two blocks. -/
theorem completion_accounting_two : ∃ calls, ∃ s : Exchange Nat,
    ((exchange Nat (.single .mergeKnn true 1)).restrict (OneMark (.single .mergeKnn true 1))).Run (.initial (.single .mergeKnn true 1)) calls s ∧
      s.reported = true ∧ s.source.sourceQueue = [] := by
  have hrun : ∃ calls, ∃ s : Exchange Nat,
      ((exchange Nat (.single .mergeKnn true 1)).restrict (OneMark (.single .mergeKnn true 1))).Run (.initial (.single .mergeKnn true 1)) calls s ∧
        s.reported = true :=
    ⟨[.execute 1 1 [5] false none, .execute 1 0 [7] true none, .sink 1 0, .execute 1 1 [6] true none, .sink 1 1,
        .getData, .sink 1 1, .sink 1 0, .getData, .getData], _,
      .cons ⟨⟨⟨2, rfl, by decide⟩, rfl, rfl⟩, nofun⟩ rfl <|
      .cons ⟨⟨⟨2, rfl, by decide⟩, rfl, rfl⟩, fun _ => nofun⟩ rfl <|
      .cons ⟨⟨⟨2, rfl, by decide⟩, nofun⟩, trivial⟩ rfl <|
      .cons ⟨⟨⟨2, rfl, by decide⟩, rfl, rfl⟩, fun _ => nofun⟩ rfl <|
      .cons ⟨⟨⟨2, rfl, by decide⟩, nofun⟩, trivial⟩ rfl <|
      .cons ⟨nofun, trivial⟩ rfl <|
      .cons ⟨⟨⟨2, rfl, by decide⟩, nofun⟩, trivial⟩ rfl <|
      .cons ⟨⟨⟨2, rfl, by decide⟩, nofun⟩, trivial⟩ rfl <|
      .cons ⟨nofun, trivial⟩ rfl <|
      .cons ⟨nofun, trivial⟩ rfl <|
      .nil _, rfl⟩
  obtain ⟨calls, s, run, hreported⟩ := hrun
  have hop : (Plan.single .mergeKnn true 1).op ≠ .mergeLimit := nofun
  exact ⟨calls, s, run, hreported, ((completion_accounting hop run).2.2.1.mp hreported).2⟩

/-- A stream task that ends with two blocks is counted twice: its first block completes the
input and its second one is not expected. A task that ends without a block is never counted. -/
theorem final_blocks_miscounted :
    (∃ calls, ∃ s : Exchange Nat, (exchange Nat (.single .mergeKnn false 0)).Run (.initial (.single .mergeKnn false 0)) calls s ∧
      s.reported = true ∧ s.source.sourceQueue ≠ [] ∧
      s.source.getData .mergeKnn = .error (.unexpectedData 1)) ∧
    (∃ calls, ∃ s : Exchange Nat, (exchange Nat (.single .mergeKnn true 0)).Run (.initial (.single .mergeKnn true 0)) calls s ∧
      (s.children 1 0).Sent ∧ s.source.sourceQueue = [] ∧ s.reported = false) := by
  constructor
  · exact ⟨[.execute 1 0 [5, 6] true none, .sink 1 0, .sink 1 0, .getData], _,
      .cons ⟨⟨1, rfl, by decide⟩, rfl, rfl⟩ rfl <|
      .cons ⟨⟨1, rfl, by decide⟩, nofun⟩ rfl <|
      .cons ⟨⟨1, rfl, by decide⟩, nofun⟩ rfl <|
      .cons nofun rfl <|
      .nil _, rfl, nofun, rfl⟩
  · exact ⟨[.execute 1 0 [] true none, .sink 1 0], _, .cons ⟨⟨1, rfl, by decide⟩, rfl, rfl⟩ rfl <|
      .cons ⟨⟨1, rfl, by decide⟩, nofun⟩ rfl <|
      .nil _, ⟨rfl, .inl rfl⟩, rfl, rfl⟩

end Infinity.Executor
