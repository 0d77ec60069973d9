import Infinity.Executor.Scheduler
import Infinity.Lib.Lists

/-! Where the tasks of a query are.

A running task is in exactly one place: in the pool of a worker, in the hands of the worker that
executes it, or among the tasks a worker is about to schedule. A finished task has been counted
by `FinishTask` or is on its way there with exactly one worker. -/
namespace Infinity.Executor

open Lib List Function

/-! ### Trees -/

namespace FragmentTree

variable {T : FragmentTree}

theorem mem_tasksOf {x : TaskId} {f : Nat} : x ∈ T.tasksOf f ↔ x.1 = f ∧ x.2 < T.taskCount f := by
  obtain ⟨a, b⟩ := x
  simp only [tasksOf, mem_map, mem_range, Prod.mk.injEq]
  constructor
  · rintro ⟨t, ht, rfl, rfl⟩
    exact ⟨rfl, ht⟩
  · rintro ⟨rfl, ht⟩
    exact ⟨b, ht, rfl, rfl⟩

theorem mem_tasks {x : TaskId} : x ∈ T.tasks ↔ x.1 ∈ T.fragments ∧ x.2 < T.taskCount x.1 := by
  simp only [tasks, mem_flatMap, mem_tasksOf]
  constructor
  · rintro ⟨f, hf, rfl, hx⟩
    exact ⟨hf, hx⟩
  · rintro ⟨hf, hx⟩
    exact ⟨x.1, hf, rfl, hx⟩

theorem mem_children {f g : Nat} : f ∈ T.children g ↔ f ∈ T.fragments ∧ T.parent f = some g := by
  simp [children]

theorem mem_startTasks {x : TaskId} : x ∈ T.startTasks ↔ x ∈ T.tasks ∧ T.hasQueue x = false := by
  simp only [startTasks, mem_flatMap, mem_filter, mem_tasksOf, mem_tasks, hasQueue]
  constructor
  · rintro ⟨f, ⟨hf, hempty⟩, rfl, hx⟩
    exact ⟨⟨hf, hx⟩, by simp [hempty]⟩
  · rintro ⟨⟨hf, hx⟩, hempty⟩
    exact ⟨x.1, ⟨hf, by simpa using hempty⟩, rfl, hx⟩

theorem mem_parentTasks {x p : TaskId} : p ∈ T.parentTasks x ↔ T.parent x.1 = some p.1 ∧ p.2 < T.taskCount p.1 := by
  unfold parentTasks
  cases hparent : T.parent x.1 with
  | none => simp
  | some g =>
    simp only [mem_tasksOf, Option.some.injEq]
    constructor
    · rintro ⟨rfl, hp⟩
      exact ⟨rfl, hp⟩
    · rintro ⟨rfl, hp⟩
      exact ⟨rfl, hp⟩

theorem mem_childTasks {c p : TaskId} : c ∈ T.childTasks p.1 ↔ c ∈ T.tasks ∧ T.parent c.1 = some p.1 := by
  simp only [childTasks, mem_flatMap, mem_children, mem_tasksOf, mem_tasks]
  constructor
  · rintro ⟨f, ⟨hf, hparent⟩, rfl, hc⟩
    exact ⟨⟨hf, hc⟩, hparent⟩
  · rintro ⟨⟨hf, hc⟩, hparent⟩
    exact ⟨c.1, ⟨hf, hparent⟩, rfl, hc⟩

theorem nodup_tasksOf (f : Nat) : (T.tasksOf f).Nodup := nodup_range.map fun _ _ h => (Prod.mk.injEq .. ▸ h).2

theorem nodup_flatMap_tasksOf {fs : List Nat} (h : fs.Nodup) : (fs.flatMap T.tasksOf).Nodup := by
  rw [nodup_flatMap]
  refine ⟨fun f _ => T.nodup_tasksOf f, h.imp fun {f g} hne => ?_⟩
  intro x hf hg
  exact hne ((mem_tasksOf.mp hf).1.symm.trans (mem_tasksOf.mp hg).1)

theorem nodup_children (g : Nat) : (T.children g).Nodup := T.nodup.filter _

theorem nodup_tasks : T.tasks.Nodup := nodup_flatMap_tasksOf T.nodup

theorem nodup_childTasks (g : Nat) : (T.childTasks g).Nodup := nodup_flatMap_tasksOf (T.nodup_children g)

theorem hasQueue_of_parent {x p : TaskId} (hx : x ∈ T.tasks) (h : T.parent x.1 = some p.1) : T.hasQueue p = true := by
  have hchild : x.1 ∈ T.children p.1 := mem_children.mpr ⟨(mem_tasks.mp hx).1, h⟩
  simp only [hasQueue, Bool.not_eq_true', isEmpty_eq_false_iff]
  exact ne_nil_of_mem hchild

end FragmentTree

/-! ### Sums over the workers -/

/-- The tasks a worker is about to execute, is executing or is about to schedule. -/
def Phase.held : Phase → List TaskId
  | .sending x _ _ => [x]
  | .quitting x => [x]
  | .completing x => [x]
  | .waking _ _ _ _ got => got
  | .scheduling _ got => got
  | _ => []

/-- The finished task whose completion a worker is working on. -/
def Phase.closing : Phase → Option TaskId
  | .finishing x => some x
  | .starting x _ => some x
  | .waking x _ _ _ _ => some x
  | .scheduling x _ => some x
  | .notifying x => some x
  | _ => none

def Worker.holds (k : Worker) : List TaskId := k.pool ++ k.phase.held

/-- One when the worker closes the task. -/
def Worker.closes (x : TaskId) (k : Worker) : Nat := if k.phase.closing = some x then 1 else 0

namespace Sched

/-- The sum of `g` over `n` workers. -/
def tally (n : Nat) (g : Worker → Nat) (s : Sched) : Nat := ∑ w ∈ Finset.range n, g (s.workers w)

variable {n w v : Nat} {s : Sched} {g : Worker → Nat}

theorem tally_of_workers {s' : Sched} {k : Worker} (hw : w < n) (h : s'.workers = update s.workers w k) :
    tally n g s' + g (s.workers w) = tally n g s + g k := by
  have hmem : w ∈ Finset.range n := Finset.mem_range.mpr hw
  have hrest : ∀ u ∈ (Finset.range n).erase w, g (s'.workers u) = g (s.workers u) := by
    intro u hu
    rw [h, update_of_ne (Finset.ne_of_mem_erase hu)]
  unfold tally
  rw [← Finset.add_sum_erase _ _ hmem, ← Finset.add_sum_erase _ (fun u => g (s.workers u)) hmem,
    Finset.sum_congr rfl hrest, h, update_self]
  omega

theorem tally_of_same {s' : Sched} {k : Worker} (hw : w < n) (h : s'.workers = update s.workers w k)
    (hsame : g k = g (s.workers w)) : tally n g s' = tally n g s := by
  have htally := tally_of_workers (g := g) hw h
  rw [hsame] at htally
  exact Nat.add_right_cancel htally

theorem of_worker {P : Nat → Worker → Prop} {s' : Sched} {k : Worker} {u : Nat}
    (h : s'.workers = update s.workers w k) (hself : P w k) (hother : u ≠ w → P u (s.workers u)) :
    P u (s'.workers u) := by
  rw [h]
  by_cases heq : u = w
  · rwa [heq, update_self]
  · rw [update_of_ne heq]
    exact hother heq

theorem tally_holds_addTask (hv : v < n) (p y : TaskId) :
    tally n (fun k => k.holds.count y) (s.addTask v p) = tally n (fun k => k.holds.count y) s + [p].count y := by
  have hworkers : (s.addTask v p).workers = update s.workers v ⟨(s.workers v).pool ++ [p], (s.workers v).phase⟩ := rfl
  have htally := tally_of_workers (g := fun k => k.holds.count y) hv hworkers
  simp only [Worker.holds, count_append] at htally ⊢
  omega

theorem tally_closes_addTask (hv : v < n) (p y : TaskId) :
    tally n (Worker.closes y) (s.addTask v p) = tally n (Worker.closes y) s := by
  exact tally_of_same (k := ⟨(s.workers v).pool ++ [p], (s.workers v).phase⟩) hv rfl rfl

theorem addTask_phase (s : Sched) (v u : Nat) (p : TaskId) :
    ((s.addTask v p).workers u).phase = (s.workers u).phase := by
  exact of_worker (P := fun u k => k.phase = (s.workers u).phase) rfl rfl fun _ => rfl

theorem le_tally (hw : w < n) : g (s.workers w) ≤ tally n g s :=
  Finset.single_le_sum (f := fun u => g (s.workers u)) (fun _ _ => Nat.zero_le _) (Finset.mem_range.mpr hw)

theorem add_le_tally (hw : w < n) (hv : v < n) (hne : w ≠ v) : g (s.workers w) + g (s.workers v) ≤ tally n g s := by
  have hsub : ({w, v} : Finset Nat) ⊆ Finset.range n := by
    intro u hu
    rcases Finset.mem_insert.mp hu with rfl | hu
    · exact Finset.mem_range.mpr hw
    · rw [Finset.mem_singleton.mp hu]
      exact Finset.mem_range.mpr hv
  rw [← Finset.sum_pair (f := fun u => g (s.workers u)) hne]
  exact Finset.sum_le_sum_of_subset hsub

theorem tally_eq_zero (h : ∀ u < n, g (s.workers u) = 0) : tally n g s = 0 :=
  Finset.sum_eq_zero fun u hu => h u (Finset.mem_range.mp hu)

end Sched

/-! ### Places -/

/-- The tasks and fragments a phase speaks of. -/
def Phase.Fits (T : FragmentTree) : Phase → Prop
  | .sending x sends _ => ∀ q ∈ sends, q.1 ∈ T.parentTasks x
  | .starting x g => T.parent x.1 = some g
  | .waking x g _ todo _ => T.parent x.1 = some g ∧ ∀ p ∈ todo, p ∈ T.tasksOf g
  | _ => True

structure Places (T : FragmentTree) (n : Nat) (s : Sched) : Prop where
  held : ∀ x, s.tally n (fun k => k.holds.count x) = if s.status x = .running then 1 else 0
  closed : ∀ x, s.finishes x + s.tally n (Worker.closes x) = if s.status x = .finished then 1 else 0
  known : ∀ x, s.status x ≠ .pending → x ∈ T.tasks
  fits : ∀ u < n, (s.workers u).phase.Fits T
  waiting : ∀ x ∈ s.toStart, s.status x = .pending ∧ x ∈ T.startTasks
  distinct : s.toStart.Nodup
  leaves : ∀ x ∈ T.startTasks, s.status x = .pending → x ∈ s.toStart

namespace Places

variable {T : FragmentTree} {n w v : Nat} {s s' : Sched} {x : TaskId}

section
variable (h : Places T n s)
include h

section
variable (hw : w < n)
include hw

theorem running_of_holds (hx : x ∈ (s.workers w).holds) : s.status x = .running := by
  have hle : (s.workers w).holds.count x ≤ s.tally n (fun k => k.holds.count x) :=
    Sched.le_tally (g := fun k => k.holds.count x) hw
  have hpos : 0 < (s.workers w).holds.count x := count_pos_iff.mpr hx
  have hheld := h.held x
  by_contra hrun
  rw [if_neg hrun] at hheld
  omega

theorem holds_unique (hv : v < n) (hx : x ∈ (s.workers w).holds) (hx' : x ∈ (s.workers v).holds) : w = v := by
  by_contra hne
  have hle : (s.workers w).holds.count x + (s.workers v).holds.count x ≤ s.tally n (fun k => k.holds.count x) :=
    Sched.add_le_tally (g := fun k => k.holds.count x) hw hv hne
  have hpos : 0 < (s.workers w).holds.count x := count_pos_iff.mpr hx
  have hpos' : 0 < (s.workers v).holds.count x := count_pos_iff.mpr hx'
  have hheld := h.held x
  split at hheld <;> omega

theorem finished_of_closing (hx : (s.workers w).phase.closing = some x) : s.status x = .finished := by
  have hle : Worker.closes x (s.workers w) ≤ s.tally n (Worker.closes x) := Sched.le_tally hw
  have hone : Worker.closes x (s.workers w) = 1 := if_pos hx
  have hclosed := h.closed x
  by_contra hfin
  rw [if_neg hfin] at hclosed
  omega

theorem task_of_closing (hx : (s.workers w).phase.closing = some x) : x ∈ T.tasks :=
  h.known x (by simp [h.finished_of_closing hw hx])

theorem waking_task {g : Nat} {early : Bool} {p : TaskId} {todo got : List TaskId}
    (hphase : (s.workers w).phase = .waking x g early todo got) (hp : p ∈ todo) :
    p ∈ T.tasks ∧ p.1 = g ∧ T.hasQueue p = true := by
  have hfits := h.fits w hw
  rw [hphase] at hfits
  have hx : x ∈ T.tasks := h.task_of_closing hw (by rw [hphase]; rfl)
  obtain ⟨hg, hlt⟩ := FragmentTree.mem_tasksOf.mp (hfits.2 p hp)
  have hgmem : g ∈ T.fragments := T.parent_mem x.1 (FragmentTree.mem_tasks.mp hx).1 g hfits.1
  refine ⟨FragmentTree.mem_tasks.mpr ⟨hg ▸ hgmem, hg ▸ hlt⟩, hg, ?_⟩
  exact FragmentTree.hasQueue_of_parent hx (hg ▸ hfits.1)

/-! ### Steps -/

/-- A step of one worker keeps the places when what it holds and closes changes with the statuses. -/
theorem of_update {k : Worker} (hworkers : s'.workers = update s.workers w k)
    (hheld : ∀ y, k.holds.count y + (if s.status y = .running then 1 else 0) =
      (s.workers w).holds.count y + if s'.status y = .running then 1 else 0)
    (hclosed : ∀ y, s'.finishes y + k.closes y + (if s.status y = .finished then 1 else 0) =
      s.finishes y + (s.workers w).closes y + if s'.status y = .finished then 1 else 0)
    (hfits : k.phase.Fits T) (hstart : s'.toStart = s.toStart)
    (hknown : ∀ y, s'.status y ≠ .pending → y ∈ T.tasks)
    (hleaf : ∀ y ∈ T.startTasks, s'.status y = .pending ↔ s.status y = .pending) : Places T n s' where
  held y := by
    have htally := Sched.tally_of_workers (g := fun k => k.holds.count y) hw hworkers
    have hold := h.held y
    have hy := hheld y
    omega
  closed y := by
    have htally := Sched.tally_of_workers (g := Worker.closes y) hw hworkers
    have hold := h.closed y
    have hy := hclosed y
    omega
  known := hknown
  fits u hu := Sched.of_worker (P := fun _ k => k.phase.Fits T) hworkers hfits fun _ => h.fits u hu
  waiting y hy := by
    obtain ⟨hpending, hmem⟩ := h.waiting y (hstart ▸ hy)
    exact ⟨(hleaf y hmem).mpr hpending, hmem⟩
  distinct := hstart ▸ h.distinct
  leaves y hy hpending := by
    rw [hstart]
    exact h.leaves y hy ((hleaf y hy).mp hpending)

theorem of_same {k : Worker} (hworkers : s'.workers = update s.workers w k)
    (hstatus : s'.status = s.status) (hfin : s'.finishes = s.finishes) (hstart : s'.toStart = s.toStart)
    (hheld : ∀ y, k.holds.count y = (s.workers w).holds.count y)
    (hclosing : k.phase.closing = (s.workers w).phase.closing) (hfits : k.phase.Fits T) : Places T n s' := by
  refine h.of_update hw hworkers (fun y => ?_) (fun y => ?_) hfits hstart ?_ fun y _ => ?_
  · rw [hheld, hstatus]
  · rw [hfin, hstatus, Worker.closes, Worker.closes, hclosing]
  · rw [hstatus]
    exact h.known
  · rw [hstatus]

theorem of_phase {old new : Phase} (phase : (s.workers w).phase = old)
    (hworkers : s'.workers = update s.workers w ⟨(s.workers w).pool, new⟩) (hstatus : s'.status = s.status)
    (hfin : s'.finishes = s.finishes) (hstart : s'.toStart = s.toStart) (hheld : new.held = old.held)
    (hclosing : new.closing = old.closing) (hfits : new.Fits T) : Places T n s' :=
  h.of_same hw hworkers hstatus hfin hstart (fun y => by rw [Worker.holds, Worker.holds, phase, hheld])
    (by rw [phase, hclosing]) hfits

theorem of_status {k : Worker} {st : TaskStatus}
    (hworkers : s'.workers = update s.workers w k) (hstatus : s'.status = update s.status x st)
    (hfin : s'.finishes = s.finishes) (hstart : s'.toStart = s.toStart) (hx : x ∈ T.tasks)
    (hleaf : T.hasQueue x = false → (st = .pending ↔ s.status x = .pending))
    (hheld : k.holds.count x + (if s.status x = .running then 1 else 0) =
      (s.workers w).holds.count x + if st = .running then 1 else 0)
    (hclosed : k.closes x + (if s.status x = .finished then 1 else 0) =
      (s.workers w).closes x + if st = .finished then 1 else 0)
    (hrest : ∀ y, y ≠ x → k.holds.count y = (s.workers w).holds.count y ∧ k.closes y = (s.workers w).closes y)
    (hfits : k.phase.Fits T) : Places T n s' := by
  have hself : s'.status x = st := by rw [hstatus, update_self]
  have hother : ∀ y, y ≠ x → s'.status y = s.status y := fun y hy => by rw [hstatus, update_of_ne hy]
  refine h.of_update hw hworkers (fun y => ?_) (fun y => ?_) hfits hstart (fun y hy => ?_) fun y hy => ?_
  · by_cases heq : y = x
    · rw [heq, hself, hheld]
    · rw [hother y heq, (hrest y heq).1]
  · by_cases heq : y = x
    · rw [heq, hself, hfin, add_assoc, hclosed, add_assoc]
    · rw [hother y heq, (hrest y heq).2, hfin]
  · by_cases heq : y = x
    · exact heq ▸ hx
    · exact h.known y (hother y heq ▸ hy)
  · by_cases heq : y = x
    · rw [heq, hself]
      exact hleaf (FragmentTree.mem_startTasks.mp (heq ▸ hy)).2
    · rw [hother y heq]

theorem next (hv : v < n) (hs : Next T s w v s') : Places T n s' := by
  have hfits := h.fits w hw
  cases hs with
  | @send x p last rest complete phase =>
    rw [phase] at hfits
    exact h.of_phase hw phase rfl rfl rfl rfl rfl rfl fun q hq => hfits q (mem_cons_of_mem _ hq)
  | @sent x complete phase =>
    cases complete <;> exact h.of_phase hw phase rfl rfl rfl rfl rfl rfl trivial
  | @quit x phase queue empty running =>
    refine h.of_status (k := ⟨(s.workers w).pool, .idle⟩) hw rfl rfl rfl rfl (h.known x (by simp [running]))
      (by simp [queue]) ?_ ?_ (fun y hy => ⟨?_, ?_⟩) trivial
    · simp [Worker.holds, phase, Phase.held, running]
    · simp [Worker.closes, phase, Phase.closing, running]
    · simp [Worker.holds, phase, Phase.held, hy.symm]
    · simp [Worker.closes, phase, Phase.closing]
  | @keep x phase =>
    exact h.of_same (k := ⟨(s.workers w).pool ++ [x], .idle⟩) hw rfl rfl rfl rfl
      (fun y => by simp [Worker.holds, phase, Phase.held]) (by rw [phase]; rfl) trivial
  | @complete x phase running =>
    refine h.of_status (k := ⟨(s.workers w).pool, .finishing x⟩) hw rfl rfl rfl rfl (h.known x (by simp [running]))
      (by simp [running]) ?_ ?_ (fun y hy => ⟨?_, ?_⟩) trivial
    · simp [Worker.holds, phase, Phase.held, running]
    · simp [Worker.closes, phase, Phase.closing, running]
    · simp [Worker.holds, phase, Phase.held, hy.symm]
    · simp [Worker.closes, phase, Phase.closing, hy.symm]
  | finishRoot phase | finishQuiet phase | startMore phase | woken phase | scheduled phase =>
    exact h.of_phase hw phase rfl rfl rfl rfl rfl rfl trivial
  | finishLast phase parent => exact h.of_phase hw phase rfl rfl rfl rfl rfl rfl parent
  | finishEarly phase parent => exact h.of_phase hw phase rfl rfl rfl rfl rfl rfl ⟨parent, fun _ hp => hp⟩
  | startAll phase =>
    rw [phase] at hfits
    exact h.of_phase hw phase rfl rfl rfl rfl rfl rfl ⟨hfits, fun _ hp => hp⟩
  | @wake x p g early todo got phase pending =>
    obtain ⟨hp, -, hqueue⟩ := h.waking_task hw phase mem_cons_self
    rw [phase] at hfits
    refine h.of_status (k := ⟨(s.workers w).pool, .waking x g early todo (got ++ [p])⟩) hw rfl rfl rfl rfl hp
      (by simp [hqueue]) ?_ ?_ (fun y hy => ⟨?_, ?_⟩) ⟨hfits.1, fun q hq => hfits.2 q (mem_cons_of_mem _ hq)⟩
    · simp [Worker.holds, phase, Phase.held, pending]
      omega
    · simp [Worker.closes, phase, Phase.closing, pending]
    · simp [Worker.holds, phase, Phase.held, hy.symm]
    · simp [Worker.closes, phase, Phase.closing]
  | pass phase =>
    rw [phase] at hfits
    exact h.of_phase hw phase rfl rfl rfl rfl rfl rfl ⟨hfits.1, fun q hq => hfits.2 q (mem_cons_of_mem _ hq)⟩
  | @schedule x p got phase =>
    have hmid : (s.setPhase w (.scheduling x got)).workers =
      update s.workers w ⟨(s.workers w).pool, .scheduling x got⟩ := rfl
    refine ⟨fun y => ?_, fun y => ?_, h.known, fun u hu => ?_, h.waiting, h.distinct, h.leaves⟩
    · have htally := Sched.tally_of_workers (g := fun k => k.holds.count y) hw hmid
      have hcount : (s.workers w).holds.count y =
          (Worker.holds ⟨(s.workers w).pool, .scheduling x got⟩).count y + [p].count y := by
        simp only [Worker.holds, phase, Phase.held, count_append]
        rw [← singleton_append, count_append]
        omega
      rw [Sched.tally_holds_addTask hv]
      refine Eq.trans ?_ (h.held y)
      omega
    · rw [Sched.tally_closes_addTask hv, Sched.tally_of_same (g := Worker.closes y) hw hmid]
      · exact h.closed y
      · rw [Worker.closes, Worker.closes, phase]
        rfl
    · rw [Sched.addTask_phase]
      exact Sched.of_worker (P := fun _ k => k.phase.Fits T) hmid trivial fun _ => h.fits u hu
  | @notify x phase =>
    refine h.of_update (k := ⟨(s.workers w).pool, .idle⟩) hw rfl
      (fun y => ?_) (fun y => ?_) trivial rfl h.known fun _ _ => Iff.rfl
    · rw [Worker.holds, Worker.holds, phase]
      rfl
    · have hsum : update s.finishes x (s.finishes x + 1) y + Worker.closes y ⟨(s.workers w).pool, .idle⟩ =
          s.finishes y + (s.workers w).closes y := by
        by_cases heq : y = x
        · rw [heq, update_self]
          simp [Worker.closes, phase, Phase.closing]
        · rw [update_of_ne heq]
          simp [Worker.closes, phase, Phase.closing, Ne.symm heq]
      exact congrArg (· + _) hsum

end

theorem start (hv : v < n) {rest : List TaskId} (hstart : s.toStart = x :: rest) :
    Places T n (s.startTask x rest v) := by
  obtain ⟨hpending, hx⟩ := h.waiting x (by rw [hstart]; exact mem_cons_self)
  obtain ⟨hnotin, hnodup⟩ := nodup_cons.mp (hstart ▸ h.distinct)
  have hother : ∀ y, y ≠ x → update s.status x .running y = s.status y := fun y hy => update_of_ne hy ..
  refine ⟨fun y => ?_, fun y => ?_, fun y hy => ?_, fun u hu => ?_, fun y hy => ?_, hnodup, fun y hy hyp => ?_⟩
  · have hheld : s.tally n (fun k => k.holds.count y) + [x].count y =
        if update s.status x .running y = .running then 1 else 0 := by
      rw [h.held y]
      by_cases heq : y = x
      · simp [heq, hpending]
      · simp [hother y heq, Ne.symm heq]
    exact (Sched.tally_holds_addTask hv x y).trans hheld
  · have hclosed : s.finishes y + s.tally n (Worker.closes y) =
        if update s.status x .running y = .finished then 1 else 0 := by
      rw [h.closed y]
      by_cases heq : y = x
      · simp [heq, hpending]
      · simp [hother y heq]
    exact (congrArg (s.finishes y + ·) (Sched.tally_closes_addTask hv x y)).trans hclosed
  · by_cases heq : y = x
    · exact heq ▸ (FragmentTree.mem_startTasks.mp hx).1
    · exact h.known y (hother y heq ▸ hy)
  · rw [Sched.startTask, Sched.addTask_phase]
    exact h.fits u hu
  · obtain ⟨hyp, hmem⟩ := h.waiting y (by rw [hstart]; exact mem_cons_of_mem _ hy)
    have hne : y ≠ x := fun heq => hnotin (heq ▸ hy)
    exact ⟨(hother y hne).trans hyp, hmem⟩
  · have hne : y ≠ x := by
      rintro rfl
      have hrun : update s.status y .running y = .pending := hyp
      simp at hrun
    have hmem := h.leaves y hy ((hother y hne).symm.trans hyp)
    rw [hstart] at hmem
    exact (mem_cons.mp hmem).resolve_left hne

end

theorem initial : Places T n (Sched.initial T) where
  held _ := Sched.tally_eq_zero fun _ _ => rfl
  closed _ := (zero_add _).trans (Sched.tally_eq_zero fun _ _ => rfl)
  known _ hy := absurd rfl hy
  fits _ _ := trivial
  waiting _ hy := ⟨rfl, hy⟩
  distinct := FragmentTree.nodup_flatMap_tasksOf (T.nodup.filter _)
  leaves _ hy _ := hy

end Places

end Infinity.Executor
