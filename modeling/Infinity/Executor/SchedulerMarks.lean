import Infinity.Executor.SchedulerCounters

/-! What the queue of a task still has to deliver.

The completions a queue is missing are those that wait in it and those of the child tasks that
have not sent theirs. A task whose queue misses none is over, or its worker knows that it is. -/
namespace Infinity.Executor

open Lib List Function

/-- The worker has executed the task for the last time. -/
def Phase.Ends (x : TaskId) : Phase → Prop
  | .sending y _ complete => y = x ∧ complete = true
  | .completing y => y = x
  | _ => False

def Sched.Ended (n : Nat) (s : Sched) (x : TaskId) : Prop :=
  s.status x = .finished ∨ ∃ u < n, (s.workers u).phase.Ends x

/-- The last blocks of a task have been sent. -/
def Sched.Sealed (n : Nat) (s : Sched) (x : TaskId) : Prop :=
  s.status x = .finished ∨ ∃ u < n, (s.workers u).phase = .completing x

/-- A task that completes has its last blocks left to send to exactly the tasks that have not got
them, another has none left. -/
def Phase.SendsLast (T : FragmentTree) (s : Sched) : Phase → Prop
  | .sending x sends complete => if complete then
      ∀ p ∈ T.parentTasks x, (s.sent x p = true ↔ (p, true) ∉ sends) ∧ sends.count (p, true) ≤ 1
    else ∀ p, (p, true) ∉ sends
  | _ => True

structure Marks (T : FragmentTree) (n : Nat) (s : Sched) : Prop where
  missing : ∀ p, s.missing p = (s.queue p).count true + (T.childTasks p.1).countP fun c => !s.sent c p
  sender : ∀ c p, s.sent c p = true → s.Ended n c
  sending : ∀ u < n, (s.workers u).phase.SendsLast T s
  sealed : ∀ x, s.Sealed n x → ∀ p ∈ T.parentTasks x, s.sent x p = true
  ended : ∀ x, T.hasQueue x = true → s.missing x = 0 → s.Ended n x

theorem FragmentTree.mem_sends {T : FragmentTree} {x : TaskId} {blocks : Nat} {complete : Bool} {q : TaskId × Bool}
    (h : q ∈ T.sends x blocks complete) : q.1 ∈ T.parentTasks x := by
  rcases mem_append.mp h with h | h
  · obtain ⟨l, hl, hq⟩ := mem_flatten.mp h
    rw [(mem_replicate.mp hl).2] at hq
    obtain ⟨p, hp, rfl⟩ := mem_map.mp hq
    exact hp
  · cases complete with
    | false => cases h
    | true =>
      obtain ⟨p, hp, rfl⟩ := mem_map.mp h
      exact hp

/-- Last blocks are sent with the completion only, one to each task of the parent. -/
theorem FragmentTree.count_sends {T : FragmentTree} {x p : TaskId} (blocks : Nat) (complete : Bool) :
    (T.sends x blocks complete).count (p, true) = if complete = true ∧ p ∈ T.parentTasks x then 1 else 0 := by
  have hblocks : (replicate blocks ((T.parentTasks x).map fun p => (p, false))).flatten.count (p, true) = 0 := by
    refine count_eq_zero.mpr fun h => ?_
    obtain ⟨l, hl, hq⟩ := mem_flatten.mp h
    rw [(mem_replicate.mp hl).2] at hq
    obtain ⟨q, _, hq⟩ := mem_map.mp hq
    cases hq
  rw [sends, count_append, hblocks]
  cases complete with
  | false => simp
  | true =>
    have hinj : Function.Injective fun p : TaskId => (p, true) := fun _ _ h => (Prod.mk.inj h).1
    have hnodup : (T.parentTasks x).Nodup := by
      unfold parentTasks
      split
      · exact nodup_nil
      · exact T.nodup_tasksOf _
    rw [if_pos rfl]
    by_cases hp : p ∈ T.parentTasks x
    · rw [if_pos ⟨rfl, hp⟩, count_eq_one_of_mem (hnodup.map hinj) (mem_map.mpr ⟨p, hp, rfl⟩)]
    rw [if_neg fun h => hp h.2, count_eq_zero.mpr]
    rintro hmem
    obtain ⟨q, hq, heq⟩ := mem_map.mp hmem
    exact hp (hinj heq ▸ hq)

theorem Phase.Ends.held {x : TaskId} {phase : Phase} (h : phase.Ends x) : x ∈ phase.held := by
  cases phase with
  | sending y _ _ => exact mem_singleton.mpr h.1.symm
  | completing y => exact mem_singleton.mpr (Eq.symm h)
  | _ => exact h.elim

theorem Phase.SendsLast.congr {T : FragmentTree} {s s' : Sched} {phase : Phase} (h : phase.SendsLast T s)
    (hsent : s'.sent = s.sent) : phase.SendsLast T s' := by
  cases phase with
  | sending y sends complete =>
    simp only [SendsLast, hsent]
    exact h
  | _ => exact trivial

theorem Sched.Sealed.of_update {n w : Nat} {s s' : Sched} {x : TaskId} {k : Worker} (h : s'.Sealed n x)
    (hworkers : s'.workers = update s.workers w k) (hfin : s'.status x = .finished → s.status x = .finished)
    (hk : k.phase ≠ .completing x) : s.Sealed n x := by
  rcases h with h | ⟨u, hu, h⟩
  · exact .inl (hfin h)
  · refine .inr ⟨u, hu, ?_⟩
    exact Sched.of_worker (P := fun u k => k.phase = .completing x → (s.workers u).phase = .completing x) hworkers
      (fun hc => absurd hc hk) (fun _ h => h) h

namespace Sched.Ended

variable {T : FragmentTree} {n w : Nat} {s s' : Sched} {x : TaskId} {k : Worker}

theorem of_update (h : s.Ended n x) (hw : w < n) (hworkers : s'.workers = update s.workers w k)
    (hfin : s.status x = .finished → s'.status x = .finished)
    (hends : (s.workers w).phase.Ends x → s'.status x = .finished ∨ k.phase.Ends x) : s'.Ended n x := by
  rcases h with h | ⟨u, hu, h⟩
  · exact .inl (hfin h)
  by_cases heq : u = w
  · rcases hends (heq ▸ h) with hfin | hk
    · exact .inl hfin
    · exact .inr ⟨w, hw, by rwa [hworkers, update_self]⟩
  · exact .inr ⟨u, hu, by rwa [hworkers, update_of_ne heq]⟩

theorem not_of_held (h : s.Ended n x) (hplaces : Places T n s) (hw : w < n) (hx : x ∈ (s.workers w).holds) :
    (s.workers w).phase.Ends x := by
  have hrun := hplaces.running_of_holds hw hx
  rcases h with h | ⟨u, hu, h⟩
  · rw [hrun] at h
    cases h
  have heq := hplaces.holds_unique hw hu hx (mem_append_right _ h.held)
  rwa [heq]

end Sched.Ended

namespace Marks

variable {T : FragmentTree} {n w v : Nat} {s s' : Sched} {x : TaskId} {k : Worker}

theorem initial : Marks T n (Sched.initial T) where
  missing p := by
    have hall : (T.childTasks p.1).countP (fun c => !(Sched.initial T).sent c p) = (T.childTasks p.1).length :=
      countP_eq_length.mpr fun _ _ => rfl
    rw [hall]
    exact (zero_add _).symm
  sender c p h := by
    cases h
  sending u _ := trivial
  sealed x h := by
    rcases h with h | ⟨u, _, h⟩ <;> cases h
  ended x hqueue hzero := by
    -- Every child has a task, so something is missing at the start.
    simp only [FragmentTree.hasQueue, Bool.not_eq_true', isEmpty_eq_false_iff] at hqueue
    obtain ⟨f, hf⟩ := exists_mem_of_ne_nil _ hqueue
    have hmem := FragmentTree.mem_children.mp hf
    have hchild : (f, 0) ∈ T.childTasks x.1 :=
      FragmentTree.mem_childTasks.mpr ⟨FragmentTree.mem_tasks.mpr ⟨hmem.1, T.taskCount_pos f hmem.1⟩, hmem.2⟩
    have hlen : (T.childTasks x.1).length = 0 := hzero
    rw [length_eq_zero_iff.mp hlen] at hchild
    cases hchild

section
variable (h : Marks T n s)
include h

theorem of_update (hw : w < n) (hworkers : s'.workers = update s.workers w k)
    (hmissing : s'.missing = s.missing) (hqueue : s'.queue = s.queue) (hsent : s'.sent = s.sent)
    (hfin : ∀ y, s.status y = .finished → s'.status y = .finished)
    (hends : ∀ y, (s.workers w).phase.Ends y → s'.status y = .finished ∨ k.phase.Ends y)
    (hlast : k.phase.SendsLast T s)
    (hsealed : ∀ y, s'.status y = .finished ∨ k.phase = .completing y → s.Sealed n y ∨
      ∀ p ∈ T.parentTasks y, s.sent y p = true) : Marks T n s' where
  missing p := by rw [hmissing, hqueue, hsent, h.missing]
  sender c p hc := (h.sender c p (hsent ▸ hc)).of_update hw hworkers (hfin c) (hends c)
  sending u hu := Sched.of_worker (P := fun _ k => k.phase.SendsLast T s') hworkers (hlast.congr hsent)
    fun _ => (h.sending u hu).congr hsent
  sealed y hy p hp := by
    rw [hsent]
    by_cases hnew : s'.status y = .finished ∨ k.phase = .completing y
    · rcases hsealed y hnew with hold | hall
      · exact h.sealed y hold p hp
      · exact hall p hp
    · refine h.sealed y (hy.of_update hworkers (fun hfin => absurd (.inl hfin) hnew) fun hk => hnew (.inr hk)) p hp
  ended y hq hzero := (h.ended y hq (hmissing ▸ hzero)).of_update hw hworkers (hfin y) (hends y)

theorem of_phases (hphase : ∀ u, (s'.workers u).phase = (s.workers u).phase)
    (hmissing : s'.missing = s.missing) (hqueue : s'.queue = s.queue) (hsent : s'.sent = s.sent)
    (hfin : ∀ y, s'.status y = .finished ↔ s.status y = .finished) : Marks T n s' := by
  have hended : ∀ y, s'.Ended n y ↔ s.Ended n y := fun y => by simp only [Sched.Ended, hfin, hphase]
  have hsealed : ∀ y, s'.Sealed n y ↔ s.Sealed n y := fun y => by simp only [Sched.Sealed, hfin, hphase]
  refine ⟨fun p => ?_, fun c p hc => ?_, fun u hu => ?_, fun y hy p hp => ?_, fun y hq hzero => ?_⟩
  · rw [hmissing, hqueue, hsent, h.missing]
  · exact (hended c).mpr (h.sender c p (hsent ▸ hc))
  · rw [hphase]
    exact (h.sending u hu).congr hsent
  · rw [hsent]
    exact h.sealed y ((hsealed y).mp hy) p hp
  · exact (hended y).mpr (h.ended y hq (hmissing ▸ hzero))

theorem send (hplaces : Places T n s) (hw : w < n) {p : TaskId} {last : Bool}
    {rest : List (TaskId × Bool)} {complete : Bool}
    (phase : (s.workers w).phase = .sending x ((p, last) :: rest) complete) :
    Marks T n ((s.enqueue x p last).setPhase w (.sending x rest complete)) := by
  have hworkers : ((s.enqueue x p last).setPhase w (.sending x rest complete)).workers =
    update s.workers w ⟨(s.workers w).pool, .sending x rest complete⟩ := rfl
  have hheld : x ∈ (s.workers w).holds := by
    rw [Worker.holds, phase]
    exact mem_append_right _ (mem_singleton_self x)
  have hx : x ∈ T.tasks := hplaces.known x (by simp [hplaces.running_of_holds hw hheld])
  have hfits := hplaces.fits w hw
  rw [phase] at hfits
  have hp : p ∈ T.parentTasks x := hfits (p, last) mem_cons_self
  have hlast := h.sending w hw
  rw [phase] at hlast
  have hgrows : ∀ c q, s.sent c q = true → (s.enqueue x p last).sent c q = true := fun c q hc => by
    simp [Sched.enqueue, hc]
  have hsame : ∀ c q, ¬ (last = true ∧ c = x ∧ q = p) → (s.enqueue x p last).sent c q = s.sent c q := by
    intro c q hne
    cases last
    · simp [Sched.enqueue]
    · rcases not_and_or.mp fun h => hne ⟨rfl, h⟩ with hc | hq
      · simp [Sched.enqueue, hc]
      · simp [Sched.enqueue, hq]
  -- A last block comes from a task that completes and has not sent it before.
  have hcomplete : last = true → complete = true ∧ s.sent x p = false := by
    rintro rfl
    cases complete with
    | false => exact absurd mem_cons_self (hlast p)
    | true =>
      refine ⟨rfl, ?_⟩
      cases hsent : s.sent x p
      · rfl
      · exact absurd mem_cons_self ((hlast p hp).1.mp hsent)
  have hended : ∀ y, s.Ended n y → Sched.Ended n ((s.enqueue x p last).setPhase w (.sending x rest complete)) y :=
    fun y hy => hy.of_update hw hworkers id (by rw [phase]; exact fun hends => .inr hends)
  refine ⟨fun q => ?_, fun c q hc => ?_, fun u hu => ?_, fun y hy q hq => ?_, fun y hq hzero => ?_⟩
  · have hold := h.missing q
    by_cases heq : q = p
    · have hqueue : (s.enqueue x p last).queue q = s.queue q ++ [last] := by
        rw [heq]
        exact update_self ..
      show s.missing q = ((s.enqueue x p last).queue q).count true +
        (T.childTasks q.1).countP fun c => !(s.enqueue x p last).sent c q
      rw [hqueue, count_append]
      cases last with
      | false =>
        simp only [hsame _ _ (fun hc => Bool.false_ne_true hc.1)]
        simpa using hold
      | true =>
        have hmem : x ∈ T.childTasks q.1 :=
          FragmentTree.mem_childTasks.mpr ⟨hx, heq ▸ (FragmentTree.mem_parentTasks.mp hp).1⟩
        have hcount : (T.childTasks q.1).countP (fun c => !s.sent c q) =
            (T.childTasks q.1).countP (fun c => !(s.enqueue x p true).sent c q) + 1 := by
          refine countP_eq_add_one (T.nodup_childTasks q.1) hmem ?_ ?_ fun c _ hc => ?_
          · simp [heq, (hcomplete rfl).2]
          · simp [Sched.enqueue, heq]
          · rw [hsame c q fun hne => hc hne.2.1]
        have hone : [true].count true = 1 := rfl
        omega
    · have hqueue : (s.enqueue x p last).queue q = s.queue q := update_of_ne heq ..
      show s.missing q = ((s.enqueue x p last).queue q).count true +
        (T.childTasks q.1).countP fun c => !(s.enqueue x p last).sent c q
      simp only [hqueue, hsame _ q fun hne => heq hne.2.2]
      exact hold
  · have hc' : (s.enqueue x p last).sent c q = true := hc
    by_cases hnew : last = true ∧ c = x ∧ q = p
    · refine .inr ⟨w, hw, ?_⟩
      rw [hworkers, update_self]
      exact ⟨hnew.2.1.symm, (hcomplete hnew.1).1⟩
    · rw [hsame c q hnew] at hc'
      exact hended c (h.sender c q hc')
  · rw [hworkers]
    by_cases heq : u = w
    · rw [heq, update_self]
      cases complete with
      | false => exact fun q hq => hlast q (mem_cons_of_mem _ hq)
      | true =>
        intro q hq
        show ((s.enqueue x p last).sent x q = true ↔ _) ∧ _
        obtain ⟨hiff, hcount⟩ := hlast q hq
        rw [count_cons] at hcount
        by_cases hnew : (p, last) = (q, true)
        · obtain ⟨rfl, rfl⟩ := Prod.mk.inj hnew
          rw [if_pos (by simp)] at hcount
          have hnone : (p, true) ∉ rest := fun hmem => by
            have := count_pos_iff.mpr hmem
            omega
          exact ⟨⟨fun _ => hnone, fun _ => by simp [Sched.enqueue]⟩, by omega⟩
        · rw [hsame x q fun hne => hnew (by rw [hne.1, hne.2.2])]
          refine ⟨hiff.trans ?_, by omega⟩
          rw [mem_cons, not_or]
          exact ⟨fun hnot => hnot.2, fun hnot => ⟨Ne.symm hnew, hnot⟩⟩
    · rw [update_of_ne heq]
      have hold := h.sending u hu
      cases hphase : (s.workers u).phase with
      | sending y sends complete' =>
        have hne : y ≠ x := by
          rintro rfl
          refine heq (hplaces.holds_unique hu hw (x := y) ?_ hheld)
          rw [Worker.holds, hphase]
          exact mem_append_right _ (mem_singleton_self y)
        rw [hphase] at hold
        cases complete' with
        | false => exact hold
        | true =>
          intro q hq
          show ((s.enqueue x p last).sent y q = true ↔ _) ∧ _
          rw [hsame y q fun hc => hne hc.2.1]
          exact hold q hq
      | _ => exact trivial
  · exact hgrows y q (h.sealed y (hy.of_update hworkers id fun hc => by cases hc) q hq)
  · exact hended y (h.ended y hq hzero)

/-- A worker takes a task out of its pool, reads a block if the task has a queue, and has the
blocks of the execution to send. -/
theorem execute (hplaces : Places T n s) (hw : w < n) {pool : List TaskId} {blocks : Nat}
    {complete : Bool} (hidle : (s.workers w).phase = .idle) (hx : x ∈ (s.workers w).pool)
    (hworkers : s'.workers = update s.workers w ⟨pool, .sending x (T.sends x blocks complete) complete⟩)
    (hstatus : s'.status = s.status) (hsent : s'.sent = s.sent)
    (hmissing : ∀ p, s'.missing p + (s.queue p).count true = s.missing p + (s'.queue p).count true)
    (hother : ∀ p, p ≠ x → s'.missing p = s.missing p)
    (hended : T.hasQueue x = true → s'.missing x = 0 → complete = true) : Marks T n s' := by
  have hnot : ¬ s.Ended n x := by
    intro hends
    have hphase := hends.not_of_held hplaces hw (mem_append_left _ hx)
    rw [hidle] at hphase
    exact hphase
  have hkept : ∀ y, s.Ended n y → s'.Ended n y := fun y hy =>
    hy.of_update hw hworkers (hstatus ▸ id) (by rw [hidle]; exact fun hends => hends.elim)
  refine ⟨fun p => ?_, fun c p hc => ?_, fun u hu => ?_, fun y hy p hp => ?_, fun y hq hzero => ?_⟩
  · have hold := h.missing p
    have hnew := hmissing p
    rw [hsent]
    omega
  · exact hkept c (h.sender c p (hsent ▸ hc))
  · rw [hworkers]
    by_cases heq : u = w
    · rw [heq, update_self]
      cases complete with
      | false =>
        intro p
        rw [← count_eq_zero, FragmentTree.count_sends]
        rfl
      | true =>
        intro p hp
        have hcount : (T.sends x blocks true).count (p, true) = 1 := by rw [FragmentTree.count_sends, if_pos ⟨rfl, hp⟩]
        have hmem : (p, true) ∈ T.sends x blocks true := count_pos_iff.mp (by omega)
        rw [hsent]
        exact ⟨⟨fun hs => absurd (h.sender x p hs) hnot, fun hs => absurd hmem hs⟩, hcount.le⟩
    · rw [update_of_ne heq]
      exact (h.sending u hu).congr hsent
  · rw [hsent]
    exact h.sealed y (hy.of_update hworkers (hstatus ▸ id) nofun) p hp
  · by_cases heq : y = x
    · refine .inr ⟨w, hw, ?_⟩
      rw [hworkers, update_self]
      exact ⟨heq.symm, hended (heq ▸ hq) (heq ▸ hzero)⟩
    · exact hkept y (h.ended y hq (hother y heq ▸ hzero))

theorem next (hplaces : Places T n s) (hw : w < n) (hs : Next T s w v s') : Marks T n s' := by
  -- Most steps come from a phase that ends no task and go to one that sends nothing.
  have quiet : ∀ {t : Sched} {k : Worker} {old : Phase}, (s.workers w).phase = old →
      t.workers = update s.workers w k → t.missing = s.missing → t.queue = s.queue → t.sent = s.sent →
      (∀ y, t.status y = .finished ↔ s.status y = .finished) → (∀ y, ¬ old.Ends y) → k.phase.SendsLast T s →
      (∀ y, k.phase ≠ .completing y) → Marks T n t := by
    intro t k old hphase hworkers hmissing hqueue hsent hfin hends hlast hcomp
    refine h.of_update hw hworkers hmissing hqueue hsent (fun y => (hfin y).mpr)
      (fun y hy => absurd (hphase ▸ hy) (hends y)) hlast fun y hy => ?_
    rcases hy with hy | hy
    · exact .inl (.inl ((hfin y).mp hy))
    · exact absurd hy (hcomp y)
  have hswitch : ∀ {p : TaskId} {st : TaskStatus}, s.status p ≠ .finished → st ≠ .finished → ∀ y,
      update s.status p st y = .finished ↔ s.status y = .finished := by
    intro p st hold hnew y
    by_cases heq : y = p
    · rw [heq, update_self]
      exact ⟨fun h => absurd h hnew, fun h => absurd h hold⟩
    · rw [update_of_ne heq]
  cases hs with
  | send phase => exact h.send hplaces hw phase
  | @sent x complete phase =>
    have hlast := h.sending w hw
    rw [phase] at hlast
    refine h.of_update (k := ⟨(s.workers w).pool, if complete then .completing x else .quitting x⟩) hw
      rfl rfl rfl rfl (fun _ hy => hy) (fun y hy => ?_) ?_ fun y hy => ?_
    · rw [phase] at hy
      obtain ⟨rfl, rfl⟩ := hy
      exact .inr rfl
    · cases complete <;> exact trivial
    · rcases hy with hy | hy
      · exact .inl (.inl hy)
      · cases complete with
        | false => cases hy
        | true =>
          cases hy
          exact .inr fun p hp => (hlast p hp).1.mpr not_mem_nil
  | quit phase _ _ running =>
    exact quiet phase rfl rfl rfl rfl (hswitch (by simp [running]) (by simp)) (fun _ hy => hy) trivial nofun
  | keep phase | finishRoot phase | finishLast phase | finishEarly phase | finishQuiet phase | startAll phase
  | startMore phase | pass phase | woken phase | scheduled phase | notify phase =>
    exact quiet phase rfl rfl rfl rfl (fun _ => Iff.rfl) (fun _ hy => hy) trivial nofun
  | @complete x phase running =>
    have hself : update s.status x TaskStatus.finished x = .finished := update_self ..
    have hother : ∀ y, y ≠ x → update s.status x TaskStatus.finished y = s.status y := fun y hy => update_of_ne hy ..
    refine h.of_update (k := ⟨(s.workers w).pool, .finishing x⟩) hw rfl rfl rfl rfl (fun y hy => ?_) (fun y hy => ?_)
      trivial fun y hy => ?_
    · by_cases heq : y = x
      · exact heq ▸ hself
      · exact (hother y heq).trans hy
    · rw [phase] at hy
      have heq : x = y := hy
      exact .inl (heq ▸ hself)
    · refine .inl ?_
      by_cases heq : y = x
      · exact .inr ⟨w, hw, heq ▸ phase⟩
      · rcases hy with hy | hy
        · exact .inl ((hother y heq).symm.trans hy)
        · cases hy
  | wake phase pending =>
    exact quiet phase rfl rfl rfl rfl (hswitch (by simp [pending]) (by simp)) (fun _ hy => hy) trivial nofun
  | @schedule x p got phase =>
    have hmid : Marks T n (s.setPhase w (.scheduling x got)) :=
      quiet phase rfl rfl rfl rfl (fun _ => Iff.rfl) (fun _ hy => hy) trivial nofun
    exact hmid.of_phases (fun u => Sched.addTask_phase _ v u p) rfl rfl rfl fun _ => Iff.rfl

end

end Marks

end Infinity.Executor
