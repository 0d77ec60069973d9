import Infinity.Executor.SchedulerMarks

/-! Queue-driven tasks run when they have work.

As long as no early call of `ScheduleFragment` wakes a task whose queue is empty, no task reads
from an empty queue, and when the workers have nothing left to do every task has finished, with
one call of `FinishTask` each. The condition fails when the parent reads a block between the
time it is sent and the time its sender completes. -/
namespace Infinity.Executor

open Lib List Function

/-- The tasks that a worker is going to execute next. -/
def Phase.got : Phase → List TaskId
  | .waking _ _ _ _ got => got
  | .scheduling _ got => got
  | _ => []

/-- The tasks that are going to be woken because all children of their fragment have finished. -/
def Phase.wakes : Phase → List TaskId
  | .waking _ _ false todo _ => todo
  | _ => []

def Worker.ready (k : Worker) : List TaskId := k.pool ++ k.phase.got

theorem Worker.ready_subset (k : Worker) {x : TaskId} (h : x ∈ k.ready) : x ∈ k.holds := by
  rcases mem_append.mp h with h | h
  · exact mem_append_left _ h
  · refine mem_append_right _ ?_
    cases hphase : k.phase <;> rw [hphase] at h <;> first | exact h | cases h

structure Supplied (T : FragmentTree) (n : Nat) (s : Sched) : Prop where
  ready : ∀ u < n, ∀ x ∈ (s.workers u).ready, T.hasQueue x = true → s.queue x ≠ []
  awaited : ∀ p ∈ T.tasks, T.hasQueue p = true → s.status p = .pending →
    0 < s.unfinishedChild p.1 ∨ ∃ u < n, p ∈ (s.workers u).phase.wakes

section Waiting

variable {T : FragmentTree} {n : Nat} {s : Sched} {p : TaskId}

/-- Once the children of its fragment have finished, a task has all their completions. -/
theorem Marks.missing_of_children (h : Marks T n s) (hcounters : Counters T n s) (hp : p ∈ T.tasks)
    (hzero : s.unfinishedChild p.1 = 0) : s.missing p = (s.queue p).count true := by
  have hnone : (T.childTasks p.1).countP (fun c => !s.sent c p) = 0 := by
    refine countP_eq_zero.mpr fun c hc => ?_
    obtain ⟨hc, hparent⟩ := FragmentTree.mem_childTasks.mp hc
    have hf : c.1 ∈ T.children p.1 := FragmentTree.mem_children.mpr ⟨(FragmentTree.mem_tasks.mp hc).1, hparent⟩
    have hchildren := hcounters.children p.1
    have hcount : (T.children p.1).countP (fun f => s.unfinishedTask f != 0) = 0 := by omega
    have hfzero : s.unfinishedTask c.1 = 0 := by simpa using countP_eq_zero.mp hcount c.1 hf
    have htasks := hcounters.tasks c.1
    have hopen : (T.tasksOf c.1).countP s.isOpen = 0 := by omega
    have hfin : s.status c = .finished := by
      have hnot := countP_eq_zero.mp hopen c
        (FragmentTree.mem_tasksOf.mpr ⟨rfl, (FragmentTree.mem_tasks.mp hc).2⟩)
      simpa [Sched.isOpen] using hnot
    have hsent : s.sent c p = true :=
      h.sealed c (.inl hfin) p (FragmentTree.mem_parentTasks.mpr ⟨hparent, (FragmentTree.mem_tasks.mp hp).2⟩)
    simp [hsent]
  rw [h.missing, hnone, add_zero]

theorem Marks.queue_ne_nil (h : Marks T n s) (hcounters : Counters T n s) (hp : p ∈ T.tasks)
    (hqueue : T.hasQueue p = true) (hnot : ¬ s.Ended n p) (hzero : s.unfinishedChild p.1 = 0) : s.queue p ≠ [] := by
  intro hempty
  have hmissing := h.missing_of_children hcounters hp hzero
  rw [hempty] at hmissing
  exact hnot (h.ended p hqueue hmissing)

theorem Places.not_ended_of_pending (h : Places T n s) (hpending : s.status p = .pending) : ¬ s.Ended n p := by
  rintro (hfin | ⟨u, hu, hends⟩)
  · simp [hpending] at hfin
  · have hrun := h.running_of_holds hu (mem_append_right _ hends.held)
    simp [hpending] at hrun

end Waiting

namespace Supplied

variable {T : FragmentTree} {n w v : Nat} {s s' : Sched} {x : TaskId} {k : Worker}

theorem initial : Supplied T n (Sched.initial T) where
  ready u _ x hx := by
    cases hx
  awaited p _ hqueue _ := by
    refine .inl (length_pos_iff.mpr ?_)
    simpa [FragmentTree.hasQueue] using hqueue

section
variable (h : Supplied T n s)
include h

theorem of_update (hw : w < n) (hworkers : s'.workers = update s.workers w k)
    (hqueue : ∀ y, s.queue y ≠ [] → s'.queue y ≠ [])
    (hready : ∀ y ∈ k.ready, T.hasQueue y = true → y ∈ (s.workers w).ready ∨ s'.queue y ≠ [])
    (hawaited : ∀ p ∈ T.tasks, T.hasQueue p = true → s'.status p = .pending →
      (s.status p = .pending ∧ (0 < s.unfinishedChild p.1 → 0 < s'.unfinishedChild p.1 ∨ p ∈ k.phase.wakes) ∧
        (p ∈ (s.workers w).phase.wakes → p ∈ k.phase.wakes)) ∨ 0 < s'.unfinishedChild p.1) :
    Supplied T n s' where
  ready u hu y hy hq := by
    refine Sched.of_worker (P := fun _ k => y ∈ k.ready → s'.queue y ≠ []) hworkers (fun hy => ?_)
      (fun _ hy => hqueue y (h.ready u hu y hy hq)) hy
    rcases hready y hy hq with hold | hnew
    · exact hqueue y (h.ready w hw y hold hq)
    · exact hnew
  awaited p hp hq hpending := by
    have hself : p ∈ k.phase.wakes → ∃ u < n, p ∈ (s'.workers u).phase.wakes := fun hmem =>
      ⟨w, hw, by rwa [hworkers, update_self]⟩
    rcases hawaited p hp hq hpending with ⟨hold, hchild, hwakes⟩ | hpos
    · rcases h.awaited p hp hq hold with hpos | ⟨u, hu, hmem⟩
      · rcases hchild hpos with hpos | hmem
        · exact .inl hpos
        · exact .inr (hself hmem)
      · by_cases heq : u = w
        · exact .inr (hself (hwakes (heq ▸ hmem)))
        · exact .inr ⟨u, hu, by rwa [hworkers, update_of_ne heq]⟩
    · exact .inl hpos

/-- A step of one worker that leaves statuses, queues and children alone. -/
theorem of_same (hw : w < n) (hworkers : s'.workers = update s.workers w k)
    (hqueue : s'.queue = s.queue) (hstatus : s'.status = s.status) (hchild : s'.unfinishedChild = s.unfinishedChild)
    (hready : ∀ y ∈ k.ready, T.hasQueue y = true → y ∈ (s.workers w).ready ∨ s'.queue y ≠ [])
    (hwakes : ∀ p, s.status p = .pending → p ∈ (s.workers w).phase.wakes → p ∈ k.phase.wakes) : Supplied T n s' := by
  refine h.of_update hw hworkers (hqueue ▸ fun _ hy => hy) hready fun p _ _ hpending => .inl ?_
  rw [hstatus] at hpending
  exact ⟨hpending, fun hpos => .inl (hchild ▸ hpos), hwakes p hpending⟩

theorem addTask (hv : v < n) {p : TaskId} (hp : T.hasQueue p = true → s.queue p ≠ []) :
    Supplied T n (s.addTask v p) := by
  refine h.of_same (k := ⟨(s.workers v).pool ++ [p], (s.workers v).phase⟩) hv rfl rfl rfl rfl
    (fun y hy hq => ?_) fun _ _ hmem => hmem
  rcases mem_append.mp hy with hy | hy
  · rcases mem_append.mp hy with hy | hy
    · exact .inl (mem_append_left _ hy)
    · rw [mem_singleton.mp hy] at hq ⊢
      exact .inr (hp hq)
  · exact .inl (mem_append_right _ hy)

theorem wake (hplaces : Places T n s) (hcounters : Counters T n s) (hmarks : Marks T n s)
    (hw : w < n) {p : TaskId} {g : Nat} {early : Bool} {todo got : List TaskId}
    (phase : (s.workers w).phase = .waking x g early (p :: todo) got) (pending : s.status p = .pending)
    (hdata : early = true → s.queue p ≠ []) :
    Supplied T n ((s.setStatus p .running).setPhase w (.waking x g early todo (got ++ [p]))) := by
  obtain ⟨hp, hg, hq⟩ := hplaces.waking_task hw phase mem_cons_self
  have hsome : s.queue p ≠ [] := by
    cases early with
    | true => exact hdata rfl
    | false =>
      refine hmarks.queue_ne_nil hcounters hp hq (hplaces.not_ended_of_pending pending) ?_
      exact hcounters.woken w hw p.1 (by rw [phase, hg]; rfl)
  refine h.of_update (k := ⟨(s.workers w).pool, .waking x g early todo (got ++ [p])⟩) hw rfl (fun _ hy => hy)
    (fun y hy _ => ?_) fun q _ _ hpending => .inl ?_
  · rcases mem_append.mp hy with hy | hy
    · exact .inl (mem_append_left _ hy)
    · rcases mem_append.mp hy with hy | hy
      · exact .inl (mem_append_right _ (by rwa [phase]))
      · exact .inr (mem_singleton.mp hy ▸ hsome)
  · have hne : q ≠ p := by
      rintro rfl
      have hrun : update s.status q TaskStatus.running q = .pending := hpending
      simp at hrun
    have hold : s.status q = .pending := (update_of_ne hne ..).symm.trans hpending
    refine ⟨hold, fun hpos => .inl hpos, fun hmem => ?_⟩
    rw [phase] at hmem
    cases early with
    | true => cases hmem
    | false => exact (mem_cons.mp hmem).resolve_left hne

/-- `QuitFromWorkerLoop` lets go of a task only when a child of its fragment has not finished. -/
theorem quit (hplaces : Places T n s) (hcounters : Counters T n s) (hmarks : Marks T n s)
    (hw : w < n) (phase : (s.workers w).phase = .quitting x) (queue : T.hasQueue x = true) (empty : s.queue x = [])
    (running : s.status x = .running) : Supplied T n ((s.setStatus x .pending).setPhase w .idle) := by
  have hx : x ∈ T.tasks := hplaces.known x (by simp [running])
  have hnot : ¬ s.Ended n x := by
    intro hends
    have hphase := hends.not_of_held hplaces hw (mem_append_right _ (by rw [phase]; exact mem_singleton_self x))
    rw [phase] at hphase
    exact hphase
  have hpos : 0 < s.unfinishedChild x.1 := by
    refine pos_of_ne_zero fun hzero => ?_
    exact hmarks.queue_ne_nil hcounters hx queue hnot hzero empty
  refine h.of_update (k := ⟨(s.workers w).pool, .idle⟩) hw rfl (fun _ hy => hy)
    (fun y hy _ => .inl ?_) fun q _ _ hpending => ?_
  · rwa [Worker.ready, phase]
  · by_cases heq : q = x
    · exact .inr (heq ▸ hpos)
    · have hold : s.status q = .pending := (update_of_ne heq ..).symm.trans hpending
      exact .inl ⟨hold, fun hpos => .inl hpos, fun hmem => by rw [phase] at hmem; cases hmem⟩

theorem next (hplaces : Places T n s) (hcounters : Counters T n s) (hmarks : Marks T n s)
    (hw : w < n) (hv : v < n) (hdata : WakesWithData s (.next w v)) (hs : Next T s w v s') : Supplied T n s' := by
  -- Most steps come from a phase with no task to execute or to wake.
  have quiet : ∀ {t : Sched} {old p : Phase}, (s.workers w).phase = old →
      t.workers = update s.workers w ⟨(s.workers w).pool, p⟩ →
      t.queue = s.queue → t.status = s.status → t.unfinishedChild = s.unfinishedChild → p.got = old.got →
      (∀ y, s.status y = .pending → y ∈ old.wakes → y ∈ p.wakes) → Supplied T n t := by
    intro t old p hphase hworkers hqueue hstatus hchild hgot hwakes
    refine h.of_same hw hworkers hqueue hstatus hchild (fun y hy _ => .inl ?_) (hphase ▸ hwakes)
    rwa [Worker.ready, hphase, ← hgot]
  cases hs with
  | @send x p last rest complete phase =>
    refine h.of_update (k := ⟨(s.workers w).pool, .sending x rest complete⟩) hw rfl (fun y hy => ?_)
      (fun y hy _ => .inl ?_) fun q _ _ hpending => .inl ⟨hpending, .inl, ?_⟩
    · show update s.queue p (s.queue p ++ [last]) y ≠ []
      by_cases heq : y = p
      · rw [heq, update_self]
        simp
      · rwa [update_of_ne heq]
    · rwa [Worker.ready, phase]
    · rw [phase]
      nofun
  | @sent x complete phase =>
    cases complete <;> exact quiet phase rfl rfl rfl rfl rfl nofun
  | quit phase queue empty running => exact h.quit hplaces hcounters hmarks hw phase queue empty running
  | @keep x phase more =>
    have hrun : s.status x = .running :=
      hplaces.running_of_holds hw (mem_append_right _ (by rw [phase]; exact mem_singleton_self x))
    refine h.of_same (k := ⟨(s.workers w).pool ++ [x], .idle⟩) hw rfl rfl rfl rfl (fun y hy hq => ?_)
      (by rw [phase]; nofun)
    rcases mem_append.mp hy with hy | hy
    · rcases mem_append.mp hy with hy | hy
      · exact .inl (mem_append_left _ hy)
      · rw [mem_singleton.mp hy] at hq ⊢
        exact .inr fun hempty => more ⟨hq, hempty, hrun⟩
    · cases hy
  | @complete x phase running =>
    refine h.of_update (k := ⟨(s.workers w).pool, .finishing x⟩) hw rfl (fun _ hy => hy)
      (fun y hy _ => .inl ?_) fun q _ _ hpending => .inl ⟨?_, .inl, ?_⟩
    · rwa [Worker.ready, phase]
    · by_cases heq : q = x
      · have hfin : update s.status q TaskStatus.finished q = .pending := heq ▸ hpending
        simp at hfin
      · exact (update_of_ne heq ..).symm.trans hpending
    · rw [phase]
      nofun
  | finishRoot phase | finishLast phase | finishEarly phase | finishQuiet phase | scheduled phase | notify phase =>
    exact quiet phase rfl rfl rfl rfl rfl nofun
  | @startAll x g phase left =>
    refine h.of_update (k := ⟨(s.workers w).pool, .waking x g false (T.tasksOf g) []⟩) hw rfl (fun _ hy => hy)
      (fun y hy _ => .inl ?_) fun q hq _ hpending => .inl ⟨hpending, fun hpos => ?_, ?_⟩
    · rwa [Worker.ready, phase]
    · by_cases heq : q.1 = g
      · exact .inr (FragmentTree.mem_tasksOf.mpr ⟨heq, heq ▸ (FragmentTree.mem_tasks.mp hq).2⟩)
      · refine .inl ?_
        show 0 < update s.unfinishedChild g (s.unfinishedChild g - 1) q.1
        rwa [update_of_ne heq]
    · rw [phase]
      nofun
  | @startMore x g phase left =>
    refine h.of_update (k := ⟨(s.workers w).pool, .notifying x⟩) hw rfl (fun _ hy => hy)
      (fun y hy _ => .inl ?_) fun q hq _ hpending => .inl ⟨hpending, fun hpos => .inl ?_, ?_⟩
    · rwa [Worker.ready, phase]
    · show 0 < update s.unfinishedChild g (s.unfinishedChild g - 1) q.1
      by_cases heq : q.1 = g
      · rw [heq, update_self]
        rw [heq] at hpos
        omega
      · rwa [update_of_ne heq]
    · rw [phase]
      nofun
  | @wake x p g early todo got phase pending =>
    refine h.wake hplaces hcounters hmarks hw phase pending fun hearly => ?_
    refine hdata p ?_ pending
    rw [phase, hearly]
    rfl
  | @pass x p g early todo got phase awake =>
    refine quiet phase rfl rfl rfl rfl rfl fun q hq hmem => ?_
    cases early with
    | true => cases hmem
    | false => exact (mem_cons.mp hmem).resolve_left fun heq => awake (heq ▸ hq)
  | @woken x g early got phase =>
    refine quiet phase rfl rfl rfl rfl rfl fun q hq hmem => ?_
    cases early <;> cases hmem
  | @schedule x p got phase =>
    have hp : T.hasQueue p = true → s.queue p ≠ [] :=
      h.ready w hw p (mem_append_right _ (by rw [phase]; exact mem_cons_self))
    have hmid : Supplied T n (s.setPhase w (.scheduling x got)) := by
      refine h.of_same (k := ⟨(s.workers w).pool, .scheduling x got⟩) hw rfl rfl rfl rfl (fun y hy _ => .inl ?_)
        (by rw [phase]; nofun)
      rw [Worker.ready, phase]
      rcases mem_append.mp hy with hy | hy
      · exact mem_append_left _ hy
      · exact mem_append_right _ (mem_cons_of_mem _ hy)
    exact hmid.addTask hv hp

end

end Supplied

/-! ### Runs -/

theorem Sched.getData_of_queue {s : Sched} {x : TaskId} {last : Bool} {rest : List Bool}
    (h : s.queue x = last :: rest) :
    s.getData x = .ok { s with
      queue := update s.queue x rest
      missing := update s.missing x (if last then s.missing x - 1 else s.missing x) } := by
  unfold getData
  rw [h]

structure SchedInv (T : FragmentTree) (n : Nat) (s : Sched) : Prop where
  places : Places T n s
  counters : Counters T n s
  marks : Marks T n s
  supplied : Supplied T n s

/-- The leaves have been started and no worker has a task or is at work. -/
def Sched.Quiet (n : Nat) (s : Sched) : Prop :=
  s.toStart = [] ∧ ∀ u < n, (s.workers u).pool = [] ∧ (s.workers u).phase = .idle

namespace SchedInv

variable {T : FragmentTree} {n w v : Nat} {s s' : Sched} {x : TaskId}

theorem initial : SchedInv T n (Sched.initial T) := ⟨Places.initial, Counters.initial, Marks.initial, Supplied.initial⟩

section
variable (h : SchedInv T n s)
include h

theorem start (hv : v < n) {rest : List TaskId} (hstart : s.toStart = x :: rest) :
    SchedInv T n (s.startTask x rest v) := by
  obtain ⟨hpending, hx⟩ := h.places.waiting x (by rw [hstart]; exact mem_cons_self)
  have hleaf : T.hasQueue x = false := (FragmentTree.mem_startTasks.mp hx).2
  have hopen : ∀ y, update s.status x .running y = .finished ↔ s.status y = .finished := fun y => by
    by_cases heq : y = x
    · simp [heq, hpending]
    · rw [update_of_ne heq]
  refine ⟨h.places.start hv hstart, ?_, ?_, ?_⟩
  · exact h.counters.of_same (Sched.isOpen_setStatus (by simp [hpending]) (by simp)) rfl rfl rfl rfl
      (fun f => Sched.tally_phase_addTask (Phase.finishesIn f) x)
      (fun g => Sched.tally_phase_addTask (Phase.startsIn g) x) fun u _ g hg => by
        rwa [Sched.startTask, Sched.addTask_phase] at hg
  · exact h.marks.of_phases (fun u => Sched.addTask_phase _ v u x) rfl rfl rfl hopen
  · have hmid : Supplied T n { s with status := update s.status x .running, toStart := rest } := by
      refine ⟨h.supplied.ready, fun p hp hq hyp => h.supplied.awaited p hp hq ?_⟩
      have hne : p ≠ x := by
        rintro rfl
        simp [hleaf] at hq
      exact (update_of_ne hne ..).symm.trans hyp
    exact hmid.addTask hv fun hq => by rw [hleaf] at hq; cases hq

/-- A worker executes a task: it is taken out of the pool, and a block out of its queue. -/
theorem execute (hw : w < n) {blocks : Nat} {complete : Bool}
    (hidle : (s.workers w).phase = .idle) (hx : x ∈ (s.workers w).pool) {queue : TaskId → List Bool}
    {missing : TaskId → Nat}
    (hmissing : ∀ p, missing p + (s.queue p).count true = s.missing p + (queue p).count true)
    (hother : ∀ p, p ≠ x → missing p = s.missing p ∧ queue p = s.queue p)
    (hended : T.hasQueue x = true → missing x = 0 → complete = true) :
    SchedInv T n { s with
      workers := update s.workers w
        ⟨(s.workers w).pool.erase x, .sending x (T.sends x blocks complete) complete⟩
      queue := queue
      missing := missing } := by
  have hcons : ∀ y, (s.workers w).pool.count y = ((s.workers w).pool.erase x).count y + [x].count y := by
    intro y
    rw [(perm_cons_erase hx).count_eq y, ← singleton_append, count_append, add_comm]
  have hheld : x ∈ (s.workers w).holds := mem_append_left _ hx
  -- The task is in the pool only once.
  have hone : x ∉ (s.workers w).pool.erase x := by
    intro hmem
    have hpos : 0 < ((s.workers w).pool.erase x).count x := count_pos_iff.mpr hmem
    have hself : [x].count x = 1 := by simp
    have hpool := hcons x
    have hle : (s.workers w).holds.count x ≤ s.tally n fun k => k.holds.count x :=
      Sched.le_tally (g := fun k => k.holds.count x) hw
    rw [h.places.held x, if_pos (h.places.running_of_holds hw hheld), Worker.holds, count_append] at hle
    omega
  refine ⟨?_, ?_, ?_, ⟨fun u hu y hy hq => ?_, fun p hp hq hyp => ?_⟩⟩
  · refine h.places.of_same hw rfl rfl rfl rfl (fun y => ?_) (by rw [hidle]; rfl) fun q hq => FragmentTree.mem_sends hq
    simp only [Worker.holds, hidle, count_append]
    exact (hcons y).symm
  · exact h.counters.of_update hw rfl rfl rfl rfl rfl rfl
      (by rw [hidle]; exact fun _ => rfl) (by rw [hidle]; exact fun _ => rfl) fun g hg => by cases hg
  · exact h.marks.execute h.places hw hidle hx rfl rfl rfl hmissing (fun p hp => (hother p hp).1) hended
  · have hold : y ≠ x ∧ y ∈ (s.workers u).ready := by
      by_cases heq : u = w
      · subst heq
        simp only [Worker.ready, update_self, Phase.got, append_nil] at hy
        refine ⟨fun hxy => hone (hxy ▸ hy), mem_append_left _ (mem_of_mem_erase hy)⟩
      · simp only [update_of_ne heq] at hy
        refine ⟨fun hxy => heq (h.places.holds_unique hu hw ?_ hheld), hy⟩
        exact hxy ▸ (s.workers u).ready_subset hy
    show queue y ≠ []
    rw [(hother y hold.1).2]
    exact h.supplied.ready u hu y hold.2 hq
  · rcases h.supplied.awaited p hp hq hyp with hpos | ⟨u, hu, hmem⟩
    · exact .inl hpos
    · refine .inr ⟨u, hu, ?_⟩
      by_cases heq : u = w
      · rw [heq, hidle] at hmem
        cases hmem
      · simpa only [update_of_ne heq] using hmem

/-- **No allowed call fails**: in particular a task never reads from an empty queue. -/
theorem step_ok {a : SchedCall} (ha : s.Allowed T n a) (e : SchedFault) : s.step T a ≠ .error e := by
  intro herr
  cases a with
  | start v =>
    cases hstart : s.toStart with
    | nil => exact ha.2 hstart
    | cons x rest =>
      have hpending := (h.places.waiting x (by rw [hstart]; exact mem_cons_self)).1
      simp [Sched.step, hstart, hpending] at herr
  | execute w x blocks complete =>
    obtain ⟨hw, hidle, hx, -, -⟩ := ha
    cases hq : T.hasQueue x with
    | false =>
      simp [Sched.step, hq] at herr
    | true =>
      have hsome := h.supplied.ready w hw x (mem_append_left _ hx) hq
      obtain ⟨last, rest, hqueue⟩ := exists_cons_of_ne_nil hsome
      have hqueue' : ∀ k, (s.setWorker w k).queue x = last :: rest := fun _ => hqueue
      simp [Sched.step, hq, Sched.getData, hqueue'] at herr
  | next w v =>
    obtain ⟨x, hphase, hstatus⟩ := Sched.next_error herr
    refine hstatus (h.places.running_of_holds ha.1 (mem_append_right _ ?_))
    rw [hphase]
    exact mem_singleton_self x

theorem step {a : SchedCall} (ha : s.Allowed T n a) (hdata : WakesWithData s a)
    (hs : s.step T a = .ok s') : SchedInv T n s' := by
  cases a with
  | start v =>
    obtain ⟨x, rest, hstart⟩ := exists_cons_of_ne_nil ha.2
    have hpending := (h.places.waiting x (by rw [hstart]; exact mem_cons_self)).1
    simp only [Sched.step, hstart, hpending, if_true, Except.ok.injEq] at hs
    exact hs ▸ h.start ha.1 hstart
  | execute w x blocks complete =>
    obtain ⟨hw, hidle, hx, -, hcomplete⟩ := ha
    cases hq : T.hasQueue x with
    | false =>
      simp only [Sched.step, hq, Bool.false_eq_true, if_false, Except.ok.injEq] at hs
      subst hs
      exact h.execute hw hidle hx (fun p => Nat.add_comm .. ▸ rfl) (fun p _ => ⟨rfl, rfl⟩) fun hq' => by simp [hq] at hq'
    | true =>
      have hsome := h.supplied.ready w hw x (mem_append_left _ hx) hq
      obtain ⟨last, rest, hqueue⟩ := exists_cons_of_ne_nil hsome
      have hqueue' : ∀ k, (s.setWorker w k).queue x = last :: rest := fun _ => hqueue
      simp only [Sched.step, hq, if_true, Sched.getData, hqueue', Except.ok.injEq] at hs
      subst hs
      refine h.execute hw hidle hx (fun p => ?_) (fun p hp => ?_) fun _ hzero => ?_
      · by_cases heq : p = x
        · have hold := h.marks.missing x
          rw [heq, update_self, update_self, hqueue]
          rw [hqueue] at hold
          cases last with
          | false =>
            rfl
          | true =>
            rw [count_cons_self] at hold ⊢
            show s.missing x - 1 + _ = s.missing x + _
            omega
        · rw [update_of_ne heq, update_of_ne heq]
          rfl
      · exact ⟨update_of_ne hp .., update_of_ne hp ..⟩
      · refine hcomplete hq ?_
        rw [Sched.completesInput, Sched.getData_of_queue hqueue]
        exact beq_iff_eq.mpr hzero
  | next w v =>
    have hnext := Sched.next_cases ha.2.2 hs
    exact ⟨h.places.next ha.1 ha.2.1 hnext, h.counters.next h.places ha.1 hnext, h.marks.next h.places ha.1 hnext,
      h.supplied.next h.places h.counters h.marks ha.1 ha.2.1 hdata hnext⟩

/-- When nothing is left to do, every task has finished: a pending one would wait for a task below. -/
theorem finished_of_quiet (hquiet : s.Quiet n) (hx : x ∈ T.tasks) : s.status x = .finished := by
  have hidle : ∀ u < n, (s.workers u).phase = .idle := fun u hu => (hquiet.2 u hu).2
  have hnotrun : ∀ y, s.status y ≠ .running := by
    intro y hrun
    have hheld := h.places.held y
    rw [if_pos hrun, Sched.tally_eq_zero] at hheld
    · cases hheld
    · intro u hu
      rw [Worker.holds, (hquiet.2 u hu).1, (hquiet.2 u hu).2]
      rfl
  have hall : ∀ r, ∀ y ∈ T.tasks, T.rank y.1 = r → s.status y = .finished := by
    intro r
    induction r using Nat.strong_induction_on with
    | _ r ih =>
      intro y hy hrank
      cases hstatus : s.status y with
      | finished => rfl
      | running => exact absurd hstatus (hnotrun y)
      | pending =>
        cases hq : T.hasQueue y with
        | false =>
          have hmem := h.places.leaves y (FragmentTree.mem_startTasks.mpr ⟨hy, hq⟩) hstatus
          simp [hquiet.1] at hmem
        | true =>
          rcases h.supplied.awaited y hy hq hstatus with hpos | ⟨u, hu, hmem⟩
          · -- Some child fragment has a task that has not finished, against the induction hypothesis.
            have hchildren := h.counters.children y.1
            rw [Sched.tally_eq_zero fun u hu => by rw [hidle u hu]; rfl] at hchildren
            obtain ⟨f, hf, hopen⟩ := countP_pos_iff.mp (hchildren ▸ hpos)
            obtain ⟨hfrag, hparent⟩ := FragmentTree.mem_children.mp hf
            have htasks := h.counters.tasks f
            rw [Sched.tally_eq_zero fun u hu => by rw [hidle u hu]; rfl] at htasks
            have hne : s.unfinishedTask f ≠ 0 := by simpa using hopen
            obtain ⟨c, hc, hcopen⟩ := countP_pos_iff.mp (show 0 < countP s.isOpen (T.tasksOf f) by omega)
            obtain ⟨rfl, hlt⟩ := FragmentTree.mem_tasksOf.mp hc
            have hless : T.rank c.1 < r := hrank ▸ T.rank_lt c.1 hfrag y.1 hparent
            have hfin := ih (T.rank c.1) hless c (FragmentTree.mem_tasks.mpr ⟨hfrag, hlt⟩) rfl
            simp [Sched.isOpen, hfin] at hcopen
          · rw [hidle u hu] at hmem
            cases hmem
  exact hall _ x hx rfl

theorem finishes_of_quiet (hquiet : s.Quiet n) (hx : x ∈ T.tasks) : s.finishes x = 1 := by
  have hclosed := h.places.closed x
  rw [if_pos (h.finished_of_quiet hquiet hx), Sched.tally_eq_zero] at hclosed
  · exact hclosed
  · intro u hu
    rw [Worker.closes, (hquiet.2 u hu).2]
    rfl

theorem allTaskN_of_quiet (hquiet : s.Quiet n) : s.allTaskN = 0 := by
  have hall : T.tasks.countP (fun y => s.finishes y != 0) = T.tasks.length :=
    countP_eq_length.mpr fun y hy => by simp [h.finishes_of_quiet hquiet hy]
  have hcount := h.counters.all
  omega

end

end SchedInv

/-- **Queue-driven tasks run when they have work**: whatever the tree, the numbers of tasks and
workers and the interleaving, as long as every early call of `ScheduleFragment` finds data in
the queues of the tasks it wakes, no call fails, so no task reads from an empty queue;
`FinishTask` is called at most once for a task; and when no worker has anything left to do
every task has finished, was counted once, and the notifier has been told. -/
theorem queue_driven_tasks (T : FragmentTree) (n : Nat) {s : Sched} {as : List SchedCall}
    (hrun : ((scheduler T n).restrict WakesWithData).Run (Sched.initial T) as s) :
    (∀ a e, s.Allowed T n a → s.step T a ≠ .error e) ∧
      (∀ x, s.finishes x ≤ 1) ∧
      (s.Quiet n → s.allTaskN = 0 ∧ ∀ x ∈ T.tasks, s.status x = .finished ∧ s.finishes x = 1) := by
  have keeps (s : Sched) (a : SchedCall) (s' : Sched) (h : SchedInv T n s)
      (ha : ((scheduler T n).restrict WakesWithData).enabled s a)
      (hs : ((scheduler T n).restrict WakesWithData).step s a = .ok s') : SchedInv T n s' :=
    h.step ha.1 ha.2 hs
  have hinv := hrun.invariant keeps SchedInv.initial
  refine ⟨fun a e ha => hinv.step_ok ha e, fun x => ?_, fun hquiet => ⟨hinv.allTaskN_of_quiet hquiet, fun x hx =>
    ⟨hinv.finished_of_quiet hquiet hx, hinv.finishes_of_quiet hquiet hx⟩⟩⟩
  have hclosed := hinv.places.closed x
  split at hclosed <;> omega

/-- A fragment of so many streaming tasks below one task. -/
def twoFragments (tasks : Nat) (h : 0 < tasks) : FragmentTree where
  fragments := [0, 1]
  parent f := if f = 1 then some 0 else none
  taskCount f := if f = 1 then tasks else 1
  stream f := f == 1
  rank f := 1 - f
  nodup := by decide
  parent_mem f _ g hg := by
    split at hg <;> cases hg
    exact List.mem_cons_self
  rank_lt f _ g hg := by
    split at hg <;> cases hg
    omega
  taskCount_pos f _ := by
    split
    · exact h
    · exact Nat.one_pos

/-- One task sends to another, both complete. -/
theorem queue_driven_tasks_two :
    ∃ as s, ((scheduler (twoFragments 1 (by decide)) 2).restrict WakesWithData).Run
        (Sched.initial (twoFragments 1 (by decide))) as s ∧
      s.Quiet 2 ∧ ∀ x ∈ [(0, 0), (1, 0)], s.status x = .finished ∧ s.finishes x = 1 := by
  let calls : List SchedCall :=
    [.start 0, .execute 0 (1, 0) 0 true, .next 0 0, .next 0 0, .next 0 0, .next 0 0, .next 0 0, .next 0 0, .next 0 0,
      .next 0 1, .next 0 0, .next 0 0, .execute 1 (0, 0) 0 true, .next 1 1, .next 1 1, .next 1 1, .next 1 1]
  obtain ⟨s, hs, hquiet⟩ : ∃ s, ((scheduler (twoFragments 1 (by decide)) 2).restrict WakesWithData).exec
      (Sched.initial (twoFragments 1 (by decide))) calls = some s ∧ s.Quiet 2 :=
    ⟨_, rfl, rfl, by decide⟩
  have hrun := Machine.run_of_exec hs
  exact ⟨calls, s, hrun, hquiet, ((queue_driven_tasks _ 2 hrun).2.2 hquiet).2⟩

/-- The first task completes and the parent is scheduled. The second has sent its last block; the
parent reads both blocks and lets go. Then the second task completes and the parent is
scheduled once more. -/
def staleWake : List SchedCall :=
  [.start 0, .start 1, .start 2,
    .execute 0 (1, 0) 0 true, .next 0 0, .next 0 0, .next 0 0, .next 0 0, .next 0 0, .next 0 0, .next 0 3,
    .execute 1 (1, 1) 0 true, .next 1 1,
    .execute 3 (0, 0) 0 false, .next 3 3, .next 3 3, .execute 3 (0, 0) 0 false, .next 3 3, .next 3 3,
    .next 1 1, .next 1 1, .next 1 1, .next 1 1, .next 1 1, .next 1 3]

/-- With three streaming tasks the parent reads from an empty queue. -/
theorem stale_wake_reads_empty_queue :
    ∃ s, (scheduler (twoFragments 3 (by decide)) 4).Run (Sched.initial (twoFragments 3 (by decide))) staleWake s ∧
      s.Allowed (twoFragments 3 (by decide)) 4 (.execute 3 (0, 0) 0 false) ∧
      s.step (twoFragments 3 (by decide)) (.execute 3 (0, 0) 0 false) = .error (.emptyQueue (0, 0)) :=
  ⟨_, Machine.run_of_exec rfl, by decide, rfl⟩

/-- **A running task is with one worker**, in its pool or in its hands, and no other task is. -/
theorem task_held_once (T : FragmentTree) (n : Nat) {s : Sched} {as : List SchedCall}
    (hrun : ((scheduler T n).restrict WakesWithData).Run (Sched.initial T) as s) (x : TaskId) :
    (s.tally n fun k => k.holds.count x) = if s.status x = .running then 1 else 0 := by
  refine (hrun.invariant (I := SchedInv T n) ?_ SchedInv.initial).places.held x
  exact fun _ _ _ h ha hs => h.step ha.1 ha.2 hs

theorem task_held_once_two : ∃ s, ((scheduler (twoFragments 1 (by decide)) 2).restrict WakesWithData).Run
    (Sched.initial (twoFragments 1 (by decide))) [.start 0] s ∧ (s.tally 2 fun k => k.holds.count (1, 0)) = 1 := by
  have h : ((scheduler (twoFragments 1 (by decide)) 2).restrict WakesWithData).Run
      (Sched.initial (twoFragments 1 (by decide))) [.start 0] _ := .cons ⟨by decide, trivial⟩ rfl (.nil _)
  exact ⟨_, h, task_held_once _ 2 h (1, 0)⟩

end Infinity.Executor
