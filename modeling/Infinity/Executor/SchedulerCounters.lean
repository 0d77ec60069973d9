import Infinity.Executor.SchedulerPlaces

/-! The counters of the fragments.

`unfinished_task_n_` counts the tasks of a fragment that have not finished, with those that have
finished and whose worker has not taken them off yet. `unfinished_child_n_` counts the child
fragments in the same way, and the counter of the notifier counts the tasks for which
`FinishTask` has not been called. -/
namespace Infinity.Executor

open Lib Function

/-- One when the worker is about to take a task off the counter of the fragment. -/
def Phase.finishesIn (f : Nat) : Phase → Nat
  | .finishing x => if x.1 = f then 1 else 0
  | _ => 0

/-- One when the worker is about to take a child off the counter of the fragment. -/
def Phase.startsIn (g : Nat) : Phase → Nat
  | .starting _ g' => if g' = g then 1 else 0
  | _ => 0

theorem Phase.finishesIn_finishing (x : TaskId) (f : Nat) :
    (Phase.finishing x).finishesIn f = if x.1 = f then 1 else 0 := rfl

theorem Phase.finishesIn_completing (x : TaskId) (f : Nat) : (Phase.completing x).finishesIn f = 0 := rfl

theorem Phase.startsIn_finishing (x : TaskId) (g : Nat) : (Phase.finishing x).startsIn g = 0 := rfl

theorem Phase.startsIn_starting (x : TaskId) (g g' : Nat) :
    (Phase.starting x g').startsIn g = if g' = g then 1 else 0 := rfl

/-- The fragment whose tasks are woken because all its children have finished. -/
def Phase.wakesAll : Phase → Option Nat
  | .waking _ g false _ _ => some g
  | _ => none

def Sched.isOpen (s : Sched) (x : TaskId) : Bool := s.status x != .finished

structure Counters (T : FragmentTree) (n : Nat) (s : Sched) : Prop where
  tasks : ∀ f, s.unfinishedTask f = (T.tasksOf f).countP s.isOpen + s.tally n fun k => k.phase.finishesIn f
  children : ∀ g, s.unfinishedChild g =
    (T.children g).countP (fun f => s.unfinishedTask f != 0) + s.tally n fun k => k.phase.startsIn g
  all : s.allTaskN + T.tasks.countP (fun x => s.finishes x != 0) = T.tasks.length
  woken : ∀ u < n, ∀ g, (s.workers u).phase.wakesAll = some g → s.unfinishedChild g = 0

namespace Sched

variable {n v : Nat} {s : Sched}

theorem tally_phase_addTask (g : Phase → Nat) (p : TaskId) :
    tally n (fun k => g k.phase) (s.addTask v p) = tally n (fun k => g k.phase) s :=
  Finset.sum_congr rfl fun u _ => congrArg g (addTask_phase s v u p)

theorem isOpen_setStatus {x : TaskId} {st : TaskStatus} (hold : s.status x ≠ .finished) (hnew : st ≠ .finished) :
    (s.setStatus x st).isOpen = s.isOpen := by
  funext y
  show (update s.status x st y != .finished) = (s.status y != .finished)
  by_cases h : y = x
  · rw [h, update_self, bne_iff_ne.mpr hold, bne_iff_ne.mpr hnew]
  · rw [update_of_ne h]

end Sched

namespace Counters

variable {T : FragmentTree} {n w v : Nat} {s s' : Sched} {x : TaskId}

theorem initial : Counters T n (Sched.initial T) where
  tasks f := by
    have htally : (Sched.initial T).tally n (fun k => k.phase.finishesIn f) = 0 := Sched.tally_eq_zero fun _ _ => rfl
    have hall : (T.tasksOf f).countP (Sched.initial T).isOpen = (T.tasksOf f).length :=
      List.countP_eq_length.mpr fun _ _ => rfl
    rw [htally, hall, FragmentTree.tasksOf, List.length_map, List.length_range]
    rfl
  children g := by
    have htally : (Sched.initial T).tally n (fun k => k.phase.startsIn g) = 0 := Sched.tally_eq_zero fun _ _ => rfl
    have hall : (T.children g).countP (fun f => (Sched.initial T).unfinishedTask f != 0) = (T.children g).length := by
      refine List.countP_eq_length.mpr fun f hf => ?_
      have hpos := T.taskCount_pos f (FragmentTree.mem_children.mp hf).1
      simpa [Sched.initial] using hpos.ne'
    rw [htally, hall]
    rfl
  all := by
    have hnone : T.tasks.countP (fun x => (Sched.initial T).finishes x != 0) = 0 :=
      List.countP_eq_zero.mpr fun _ _ => by simp [Sched.initial]
    rw [hnone]
    rfl
  woken u _ g hg := by
    cases hg

theorem of_same (h : Counters T n s) (hopen : s'.isOpen = s.isOpen) (htask : s'.unfinishedTask = s.unfinishedTask)
    (hchild : s'.unfinishedChild = s.unfinishedChild) (hall : s'.allTaskN = s.allTaskN)
    (hfin : s'.finishes = s.finishes)
    (hfinishes : ∀ f, s'.tally n (fun k => k.phase.finishesIn f) = s.tally n fun k => k.phase.finishesIn f)
    (hstarts : ∀ g, s'.tally n (fun k => k.phase.startsIn g) = s.tally n fun k => k.phase.startsIn g)
    (hwoken : ∀ u < n, ∀ g, (s'.workers u).phase.wakesAll = some g → (s.workers u).phase.wakesAll = some g) :
    Counters T n s' where
  tasks f := by rw [htask, hopen, hfinishes, h.tasks]
  children g := by rw [hchild, htask, hstarts, h.children]
  all := by rw [hall, hfin, h.all]
  woken u hu g hg := by rw [hchild, h.woken u hu g (hwoken u hu g hg)]

theorem wakesAll_of_update {k : Worker} {u g : Nat} (hworkers : s'.workers = update s.workers w k)
    (hk : k.phase.wakesAll = some g → (s.workers w).phase.wakesAll = some g)
    (hg : (s'.workers u).phase.wakesAll = some g) : (s.workers u).phase.wakesAll = some g :=
  Sched.of_worker (P := fun u k => k.phase.wakesAll = some g → (s.workers u).phase.wakesAll = some g) hworkers hk
    (fun _ h => h) hg

section
variable (h : Counters T n s)
include h

theorem of_update (hw : w < n) {k : Worker}
    (hworkers : s'.workers = update s.workers w k) (hopen : s'.isOpen = s.isOpen)
    (htask : s'.unfinishedTask = s.unfinishedTask) (hchild : s'.unfinishedChild = s.unfinishedChild)
    (hall : s'.allTaskN = s.allTaskN) (hfin : s'.finishes = s.finishes)
    (hfinishes : ∀ f, k.phase.finishesIn f = (s.workers w).phase.finishesIn f)
    (hstarts : ∀ g, k.phase.startsIn g = (s.workers w).phase.startsIn g)
    (hwoken : ∀ g, k.phase.wakesAll = some g → (s.workers w).phase.wakesAll = some g) : Counters T n s' := by
  refine h.of_same hopen htask hchild hall hfin (fun f => ?_) (fun g => ?_) fun u hu g hg => ?_
  · exact Sched.tally_of_same hw hworkers (hfinishes f)
  · exact Sched.tally_of_same hw hworkers (hstarts g)
  · exact wakesAll_of_update hworkers (hwoken g) hg

/-- A step of one worker to another phase that touches none of the counters. -/
theorem of_phase (hw : w < n) {old new : Phase} (phase : (s.workers w).phase = old)
    (hworkers : s'.workers = update s.workers w ⟨(s.workers w).pool, new⟩) (hopen : s'.isOpen = s.isOpen)
    (htask : s'.unfinishedTask = s.unfinishedTask) (hchild : s'.unfinishedChild = s.unfinishedChild)
    (hall : s'.allTaskN = s.allTaskN) (hfin : s'.finishes = s.finishes)
    (hfinishes : ∀ f, new.finishesIn f = old.finishesIn f) (hstarts : ∀ g, new.startsIn g = old.startsIn g)
    (hwoken : ∀ g, new.wakesAll = some g → old.wakesAll = some g) : Counters T n s' :=
  h.of_update hw hworkers hopen htask hchild hall hfin (phase ▸ hfinishes) (phase ▸ hstarts) (phase ▸ hwoken)

/-- `CompleteTask`: the task has finished, its worker is about to say so. -/
theorem complete (hw : w < n) (hx : x ∈ T.tasks)
    (phase : (s.workers w).phase = .completing x) (running : s.status x = .running) :
    Counters T n ((s.setStatus x .finished).setPhase w (.finishing x)) := by
  have hworkers : ((s.setStatus x .finished).setPhase w (.finishing x)).workers =
    update s.workers w ⟨(s.workers w).pool, .finishing x⟩ := rfl
  have hself : (s.setStatus x .finished).isOpen x = false := by simp [Sched.isOpen, Sched.setStatus]
  have hother : ∀ y, y ≠ x → s.isOpen y = (s.setStatus x .finished).isOpen y := fun y hy => by
    simp [Sched.isOpen, Sched.setStatus, update_of_ne hy]
  refine ⟨fun f => ?_, fun g => ?_, h.all, fun u hu g hg => h.woken u hu g (wakesAll_of_update hworkers nofun hg)⟩
  · have htally := Sched.tally_of_workers (g := fun k => k.phase.finishesIn f) hw hworkers
    have hold := h.tasks f
    rw [phase, Phase.finishesIn_completing, Phase.finishesIn_finishing] at htally
    show s.unfinishedTask f = (T.tasksOf f).countP (s.setStatus x .finished).isOpen + _
    by_cases hf : x.1 = f
    · have hcount := countP_eq_add_one (T.nodup_tasksOf f)
        (FragmentTree.mem_tasksOf.mpr ⟨hf, hf ▸ (FragmentTree.mem_tasks.mp hx).2⟩)
        (show s.isOpen x = true by simp [Sched.isOpen, running]) hself fun y _ hy => hother y hy
      rw [if_pos hf] at htally
      omega
    · have hcount : (T.tasksOf f).countP s.isOpen = (T.tasksOf f).countP (s.setStatus x .finished).isOpen := by
        refine List.countP_congr fun y hy => ?_
        rw [hother y fun heq => hf (heq ▸ (FragmentTree.mem_tasksOf.mp hy).1)]
      rw [if_neg hf] at htally
      omega
  · exact (h.children g).trans (congrArg (_ + ·) (Sched.tally_of_same hw hworkers (by rw [phase]; rfl)).symm)

theorem finish (hplaces : Places T n s) (hw : w < n) (phase : (s.workers w).phase = .finishing x)
    {next : Phase} (hfinishes : ∀ f, next.finishesIn f = 0)
    (hstarts : ∀ g, next.startsIn g = if s.unfinishedTask x.1 = 1 ∧ T.parent x.1 = some g then 1 else 0)
    (hwakes : next.wakesAll = none) : Counters T n ((s.decTask x.1).setPhase w next) := by
  have hworkers : ((s.decTask x.1).setPhase w next).workers = update s.workers w ⟨(s.workers w).pool, next⟩ := rfl
  have hx : x ∈ T.tasks := hplaces.task_of_closing hw (by rw [phase]; rfl)
  have hself : (s.decTask x.1).unfinishedTask x.1 = s.unfinishedTask x.1 - 1 := update_self ..
  have hother : ∀ f, f ≠ x.1 → (s.decTask x.1).unfinishedTask f = s.unfinishedTask f := fun f hf => update_of_ne hf ..
  have hpos : 0 < s.unfinishedTask x.1 := by
    have hle : (s.workers w).phase.finishesIn x.1 ≤ s.tally n fun k => k.phase.finishesIn x.1 :=
      Sched.le_tally (g := fun k => k.phase.finishesIn x.1) hw
    have hone : (s.workers w).phase.finishesIn x.1 = 1 := by rw [phase]; exact if_pos rfl
    have hold := h.tasks x.1
    omega
  refine ⟨fun f => ?_, fun g => ?_, h.all, fun u hu g hg => h.woken u hu g (wakesAll_of_update hworkers ?_ hg)⟩
  · have htally := Sched.tally_of_workers (g := fun k => k.phase.finishesIn f) hw hworkers
    have hold := h.tasks f
    rw [phase, Phase.finishesIn_finishing, hfinishes] at htally
    show (s.decTask x.1).unfinishedTask f = (T.tasksOf f).countP s.isOpen + _
    by_cases hf : x.1 = f
    · rw [if_pos hf] at htally
      rw [← hf]
      rw [← hf] at htally hold
      omega
    · rw [if_neg hf] at htally
      rw [hother f (Ne.symm hf)]
      omega
  · have htally := Sched.tally_of_workers (g := fun k => k.phase.startsIn g) hw hworkers
    have hold := h.children g
    rw [phase, Phase.startsIn_finishing, hstarts] at htally
    show s.unfinishedChild g = (T.children g).countP (fun f => (s.decTask x.1).unfinishedTask f != 0) + _
    by_cases hlast : s.unfinishedTask x.1 = 1 ∧ T.parent x.1 = some g
    · have hcount : (T.children g).countP (fun f => s.unfinishedTask f != 0) =
          (T.children g).countP (fun f => (s.decTask x.1).unfinishedTask f != 0) + 1 :=
        countP_eq_add_one (T.nodup_children g)
          (FragmentTree.mem_children.mpr ⟨(FragmentTree.mem_tasks.mp hx).1, hlast.2⟩) (by simp [hlast.1])
          (by simp [hself, hlast.1]) fun f _ hf => by rw [hother f hf]
      rw [if_pos hlast] at htally
      omega
    · have hcount : (T.children g).countP (fun f => s.unfinishedTask f != 0) =
          (T.children g).countP fun f => (s.decTask x.1).unfinishedTask f != 0 := by
        refine List.countP_congr fun f hf => ?_
        by_cases heq : f = x.1
        · have hmany : s.unfinishedTask x.1 ≠ 1 := fun hone => hlast ⟨hone, heq ▸ (FragmentTree.mem_children.mp hf).2⟩
          simp only [heq, hself, bne_iff_ne]
          omega
        · rw [hother f heq]
      rw [if_neg hlast] at htally
      omega
  · exact fun hnext => absurd (hwakes.symm.trans hnext) nofun

theorem start (hw : w < n) {g : Nat} (phase : (s.workers w).phase = .starting x g)
    {next : Phase} (hfinishes : ∀ f, next.finishesIn f = 0) (hstarts : ∀ g', next.startsIn g' = 0)
    (hwakes : ∀ g', next.wakesAll = some g' → g' = g ∧ s.unfinishedChild g = 1) :
    Counters T n ((s.decChild g).setPhase w next) := by
  have hworkers : ((s.decChild g).setPhase w next).workers = update s.workers w ⟨(s.workers w).pool, next⟩ := rfl
  have hself : (s.decChild g).unfinishedChild g = s.unfinishedChild g - 1 := update_self ..
  have hother : ∀ g', g' ≠ g → (s.decChild g).unfinishedChild g' = s.unfinishedChild g' := fun g' hg =>
    update_of_ne hg ..
  refine ⟨fun f => ?_, fun g' => ?_, h.all, fun u hu g' hg => ?_⟩
  · refine (h.tasks f).trans (congrArg (_ + ·) (Sched.tally_of_same hw hworkers ?_).symm)
    rw [phase]
    exact hfinishes f
  · have htally := Sched.tally_of_workers (g := fun k => k.phase.startsIn g') hw hworkers
    have hold := h.children g'
    rw [phase, Phase.startsIn_starting, hstarts] at htally
    show (s.decChild g).unfinishedChild g' = (T.children g').countP (fun f => s.unfinishedTask f != 0) + _
    by_cases hg : g = g'
    · rw [if_pos hg] at htally
      rw [← hg]
      rw [← hg] at htally hold
      omega
    · rw [if_neg hg] at htally
      rw [hother g' (Ne.symm hg)]
      omega
  · show (s.decChild g).unfinishedChild g' = 0
    rw [hworkers] at hg
    by_cases heq : u = w
    · rw [heq, update_self] at hg
      obtain ⟨rfl, hone⟩ := hwakes g' hg
      rw [hself, hone]
    rw [update_of_ne heq] at hg
    have hzero := h.woken u hu g' hg
    by_cases hne : g' = g
    · rw [hne, hself, ← hne, hzero]
    · rw [hother g' hne, hzero]

theorem notify (hplaces : Places T n s) (hw : w < n)
    (phase : (s.workers w).phase = .notifying x) : Counters T n ((s.finishTask x).setPhase w .idle) := by
  have hworkers : ((s.finishTask x).setPhase w .idle).workers = update s.workers w ⟨(s.workers w).pool, .idle⟩ := rfl
  have hfin := hplaces.finished_of_closing hw (x := x) (by rw [phase]; rfl)
  have hx : x ∈ T.tasks := hplaces.task_of_closing hw (by rw [phase]; rfl)
  -- The worker that notifies accounts for the task, so it has not been counted before.
  have hzero : s.finishes x = 0 := by
    have hle : Worker.closes x (s.workers w) ≤ s.tally n (Worker.closes x) := Sched.le_tally hw
    have hone : Worker.closes x (s.workers w) = 1 := if_pos (by rw [phase]; rfl)
    have hclosed := hplaces.closed x
    rw [if_pos hfin] at hclosed
    omega
  refine ⟨fun f => ?_, fun g => ?_, ?_, fun u hu g hg => h.woken u hu g (wakesAll_of_update hworkers nofun hg)⟩
  · exact (h.tasks f).trans (congrArg (_ + ·) (Sched.tally_of_same hw hworkers (by rw [phase]; rfl)).symm)
  · exact (h.children g).trans (congrArg (_ + ·) (Sched.tally_of_same hw hworkers (by rw [phase]; rfl)).symm)
  · have hcount : T.tasks.countP (fun y => (s.finishTask x).finishes y != 0) =
        T.tasks.countP (fun y => s.finishes y != 0) + 1 := by
      refine countP_eq_add_one T.nodup_tasks hx (by simp [Sched.finishTask]) (by simp [hzero]) fun y _ hy => ?_
      simp [Sched.finishTask, update_of_ne hy]
    have hle : T.tasks.countP (fun y => (s.finishTask x).finishes y != 0) ≤ T.tasks.length := List.countP_le_length
    have hold := h.all
    show s.allTaskN - 1 + T.tasks.countP (fun y => (s.finishTask x).finishes y != 0) = _
    omega

theorem next (hplaces : Places T n s) (hw : w < n) (hs : Next T s w v s') : Counters T n s' := by
  cases hs with
  | send phase | woken phase | scheduled phase =>
    exact h.of_phase hw phase rfl rfl rfl rfl rfl rfl (fun _ => rfl) (fun _ => rfl) nofun
  | @sent x complete phase =>
    cases complete <;> exact h.of_phase hw phase rfl rfl rfl rfl rfl rfl (fun _ => rfl) (fun _ => rfl) nofun
  | quit phase _ _ running =>
    exact h.of_phase hw phase rfl (Sched.isOpen_setStatus (by simp [running]) (by simp)) rfl rfl rfl rfl
      (fun _ => rfl) (fun _ => rfl) nofun
  | @keep x phase =>
    exact h.of_update (k := ⟨(s.workers w).pool ++ [x], .idle⟩) hw rfl rfl rfl rfl rfl rfl
      (by rw [phase]; exact fun _ => rfl) (by rw [phase]; exact fun _ => rfl) nofun
  | @complete x phase running =>
    exact h.complete hw (hplaces.known x (by simp [running])) phase running
  | finishRoot phase parent =>
    exact h.finish hplaces hw phase (fun _ => rfl) (fun g => by rw [if_neg (by simp [parent])]; rfl) rfl
  | finishLast phase parent left =>
    exact h.finish hplaces hw phase (fun _ => rfl) (fun g => by simp [Phase.startsIn_starting, left, parent]) rfl
  | finishEarly phase _ left | finishQuiet phase _ left =>
    exact h.finish hplaces hw phase (fun _ => rfl) (fun g => by rw [if_neg (by simp [left])]; rfl) rfl
  | @startAll x g phase left =>
    exact h.start hw phase (fun _ => rfl) (fun _ => rfl) fun g' hg => ⟨(Option.some.inj hg).symm, left⟩
  | @startMore x g phase left => exact h.start hw phase (fun _ => rfl) (fun _ => rfl) nofun
  | @wake x p g early todo got phase pending =>
    refine h.of_phase hw phase rfl (Sched.isOpen_setStatus (by simp [pending]) (by simp)) rfl rfl rfl rfl
      (fun _ => rfl) (fun _ => rfl) ?_
    cases early <;> exact fun _ hg => hg
  | @pass x p g early todo got phase =>
    refine h.of_phase hw phase rfl rfl rfl rfl rfl rfl (fun _ => rfl) (fun _ => rfl) ?_
    cases early <;> exact fun _ hg => hg
  | @schedule x p got phase =>
    have hmid : Counters T n (s.setPhase w (.scheduling x got)) :=
      h.of_phase hw phase rfl rfl rfl rfl rfl rfl (fun _ => rfl) (fun _ => rfl) nofun
    exact hmid.of_same rfl rfl rfl rfl rfl (fun f => Sched.tally_phase_addTask (Phase.finishesIn f) p)
      (fun g => Sched.tally_phase_addTask (Phase.startsIn g) p) fun u _ g hg => by rwa [Sched.addTask_phase] at hg
  | @notify x phase => exact h.notify hplaces hw phase

end

end Counters

end Infinity.Executor
