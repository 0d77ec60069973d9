import Infinity.FullText.MemoryIndexer

/-! No batch is left behind in the memory indexer, and when one is.

`Inv` is what every interleaving keeps: each batch is with the thread that numbered
it, in the first ring, in a merged inverter on its way, in the second ring, with the
thread that generates postings, or generated, and nowhere twice. `HandedOver` is the
rest: whenever a ring has something ready, some thread is still going to look. A
`try_lock` that fails just after the holder has looked for the last time breaks
that, and the batch stays in the second ring. -/
namespace Infinity.FullText

open Lib Option List

/-- The batch number a thread has drawn and not put. -/
def Pc.seq : Pc → Option Nat
  | .count k => some k
  | .put k => some k
  | _ => none

/-- The place in the second ring a thread has drawn and not filled. -/
def Pc.seqCommit : Pc → Option Nat
  | .deposit c _ => some c
  | _ => none

/-- The thread holds `mutex_commit_`. -/
def Pc.Locked : Pc → Prop
  | .get _ => True
  | .generate _ _ => True
  | .deduct _ => True
  | .unlock => True
  | _ => False

/-- The inverters a thread has taken and not generated yet. -/
def Pc.pending : Pc → List ColumnInverter
  | .generate _ l => l
  | _ => []

/-- A batch drawn and not counted. -/
def Pc.uncounted : Pc → Nat
  | .count _ => 1
  | _ => 0

/-- Batches generated and not deducted. -/
def Pc.undeducted : Pc → Nat
  | .get n => n
  | .generate n _ => n
  | .deduct n => n
  | _ => 0

/-- The thread holds the lock and will still call `GetBatch` on the second ring. -/
def Pc.Getting : Pc → Prop
  | .get _ => True
  | .generate _ _ => True
  | _ => False

instance : DecidablePred Pc.Getting
  | .get _ | .generate _ _ => isTrue trivial
  | .insert | .count _ | .put _ | .collect | .deposit _ _ | .tryLock | .deduct _ | .unlock | .returned => isFalse id

/-- An `AsyncInsert` that has not drawn its number. -/
def Pc.undrawn : Pc → Nat
  | .insert => 1
  | _ => 0

/-- An inverter that counts and signals every batch it holds. -/
def ColumnInverter.Whole (c : ColumnInverter) : Prop := c.merged = c.batches.length ∧ c.semas = c.batches

theorem ColumnInverter.mergeAll_ofBatch (first : ColumnInverter) (l : List Nat) (h : first.Whole) :
    (first.mergeAll (l.map .ofBatch)).batches = first.batches ++ l ∧ (first.mergeAll (l.map .ofBatch)).Whole := by
  induction l generalizing first with
  | nil => exact ⟨by simp [mergeAll], h⟩
  | cons k l ih =>
    have hw : (first.merge (.ofBatch k)).Whole := by
      obtain ⟨hm, hs⟩ := h
      exact ⟨by simp [merge, ofBatch, hm], by simp [merge, ofBatch, hs]⟩
    obtain ⟨hb, hw'⟩ := ih (first.merge (.ofBatch k)) hw
    refine ⟨?_, hw'⟩
    change ((first.merge (.ofBatch k)).mergeAll (l.map .ofBatch)).batches = _
    rw [hb]
    simp [merge, ofBatch]

/-- Once no thread carries a number drawn for it, a ring's slice holds every number. -/
theorem Ring.Shows.filled_eq {τ : Type} {r : Ring τ} {f : Nat → Option τ} (h : r.Shows f) {carry : Pc → Option Nat}
    {ts : List Pc} {n : Nat} (hd : Handed carry ts f n) (idle : ∀ pc ∈ ts, carry pc = none) : r.offFilled = n := by
  rcases lt_trichotomy r.offFilled n with hlt | heq | hgt
  · exact absurd h.gap (hd.turned_of_idle idle hlt)
  · exact heq
  · obtain ⟨e, he⟩ := ne_none_iff_exists'.mp (h.filled n hgt)
    exact absurd (hd.turned_lt n e he) (lt_irrefl n)

namespace MemoryIndexer

/-- What the holder of the lock has taken and not generated yet. -/
def pendingOf (holder : Option Nat) (ts : List Pc) : List ColumnInverter :=
  match holder with
  | none => []
  | some i => ((ts[i]?).map Pc.pending).getD []

/-- An inverter on its way was taken, and the holder of the lock is a thread that says so. -/
structure Held (mutex : Option Nat) (ts : List Pc) (commits : List ColumnInverter) : Prop where
  carried : ∀ (i c : Nat) e, ts[i]? = some (.deposit c e) → commits[c]? = some e
  locked : ∀ (i : Nat) pc, ts[i]? = some pc → (pc.Locked ↔ mutex = some i)
  holder : ∀ i, mutex = some i → i < ts.length

/-- What every interleaving keeps. `f` and `g` are what has been put into the two
rings, `commits` the merged inverters in the order they were taken. -/
structure Inv (s : MemoryIndexer) (f g : Nat → Option ColumnInverter) (commits : List ColumnInverter) :
    Prop where
  inverted : s.ringInverted.Shows f
  sorted : s.ringSorted.Shows g
  drawn : Handed Pc.seq s.threads f s.seqInserted
  taken : Handed Pc.seqCommit s.threads g s.ringInverted.seqGet
  ofBatch : ∀ k e, f k = some e → e = .ofBatch k
  deposited : ∀ (c : Nat) e, g c = some e → commits[c]? = some e
  held : Held s.mutexCommit s.threads commits
  length : commits.length = s.ringInverted.seqGet
  whole : ∀ c ∈ commits, c.Whole
  cover : commits.flatMap ColumnInverter.batches = List.range s.ringInverted.offGround
  logged : ∃ l, s.generated = l.flatMap ColumnInverter.batches ∧
    l ++ pendingOf s.mutexCommit s.threads = commits.take s.ringSorted.offGround
  released : s.released = s.generated
  inflight_lt : s.inflightTasks < 2 ^ 64
  counted : (s.inflightTasks + (s.threads.map Pc.uncounted).sum + s.generated.length) % 2 ^ 64 =
    (s.seqInserted + (s.threads.map Pc.undeducted).sum) % 2 ^ 64

theorem Inv.initial : Inv {} (fun _ => none) (fun _ => none) [] where
  inverted := Ring.shows_empty 15
  sorted := Ring.shows_empty 13
  drawn := Handed.initial _
  taken := Handed.initial _
  ofBatch := fun _ _ h => by cases h
  deposited := fun _ _ h => by cases h
  held := ⟨nofun, nofun, nofun⟩
  length := rfl
  whole := fun _ h => by cases h
  cover := rfl
  logged := ⟨[], rfl, rfl⟩
  released := rfl
  inflight_lt := by decide
  counted := rfl

/-! ### Threads -/

variable {ts : List Pc} {i : Nat}

/-- A step of a thread that is not the holder leaves what the holder has. -/
theorem pendingOf_set_other {m : Option Nat} (h : m ≠ some i) (pc : Pc) :
    pendingOf m (ts.set i pc) = pendingOf m ts := by
  cases m with
  | none => rfl
  | some j =>
    have hij : j ≠ i := fun he => h (congrArg some he)
    rw [pendingOf, pendingOf, Handed.set_other hij]

variable {pc : Pc}

theorem pendingOf_self (hi : ts[i]? = some pc) : pendingOf (some i) ts = pc.pending := by
  rw [pendingOf, hi]
  rfl

theorem pendingOf_set_self (hi : ts[i]? = some pc) (pc' : Pc) : pendingOf (some i) (ts.set i pc') = pc'.pending :=
  pendingOf_self (Handed.set_self hi pc')

/-- The sum over the threads of what one thread counts for, after that thread's step. -/
theorem sum_goto (hi : ts[i]? = some pc) (w : Pc → Nat) (pc' : Pc) :
    ((ts.set i pc').map w).sum + w pc = (ts.map w).sum + w pc' := by
  rw [map_set]
  exact sum_set_add (by rw [List.getElem?_map, hi]; rfl)

variable {s : MemoryIndexer} {f g : Nat → Option ColumnInverter} {commits : List ColumnInverter}

variable {m : Option Nat} {commits' : List ColumnInverter} {pc' : Pc}

/-- A thread goes on, and what was taken may become more. -/
theorem Held.set (h : Held m ts commits) (hi : ts[i]? = some pc)
    (hold : ∀ (c : Nat) e, commits[c]? = some e → commits'[c]? = some e)
    (hnew : ∀ c e, pc' = .deposit c e → commits'[c]? = some e) (hlock : pc'.Locked ↔ pc.Locked) :
    Held m (ts.set i pc') commits' := by
  refine ⟨fun j c e hq => ?_, fun j q hq => ?_, fun j hj => (length_set ..).symm ▸ h.holder j hj⟩
  · rcases Handed.get_set hq with ⟨-, hq⟩ | ⟨-, hq⟩
    · exact hnew c e hq.symm
    · exact hold c e (h.carried j c e hq)
  · rcases Handed.get_set hq with ⟨rfl, rfl⟩ | ⟨-, hq⟩
    · exact hlock.trans (h.locked j pc hi)
    · exact h.locked j q hq

theorem Held.goto (h : Held m ts commits) (hi : ts[i]? = some pc) (hcommit : pc'.seqCommit = none)
    (hlock : pc'.Locked ↔ pc.Locked) : Held m (ts.set i pc') commits :=
  h.set hi (fun _ _ he => he) (by rintro c e rfl; cases hcommit) hlock

/-- A step of a thread without the lock generates nothing. -/
theorem Inv.logged_goto (h : Inv s f g commits) (hi : s.threads[i]? = some pc) (hpc : ¬ pc.Locked) (pc' : Pc) :
    ∃ l, s.generated = l.flatMap ColumnInverter.batches ∧
      l ++ pendingOf s.mutexCommit (s.threads.set i pc') = commits.take s.ringSorted.offGround := by
  rw [pendingOf_set_other fun hm => hpc ((h.held.locked i pc hi).mpr hm)]
  exact h.logged

theorem Inv.counted_set (h : Inv s f g commits) (hi : s.threads[i]? = some pc) (pc' : Pc)
    {inflight inserted generated : Nat}
    (heq : (inflight + pc'.uncounted + generated + (s.seqInserted + pc.undeducted)) % 2 ^ 64 =
      (s.inflightTasks + pc.uncounted + s.generated.length + (inserted + pc'.undeducted)) % 2 ^ 64) :
    (inflight + ((s.threads.set i pc').map Pc.uncounted).sum + generated) % 2 ^ 64 =
      (inserted + ((s.threads.set i pc').map Pc.undeducted).sum) % 2 ^ 64 := by
  have hu := sum_goto hi Pc.uncounted pc'
  have hd := sum_goto hi Pc.undeducted pc'
  have hc := h.counted
  omega

theorem Inv.spawn (h : Inv s f g commits) (hseq : pc.seq = none) (hcommit : pc.seqCommit = none)
    (hlock : ¬ pc.Locked) (hu : pc.uncounted = 0) (hd : pc.undeducted = 0) :
    Inv {s with threads := s.threads ++ [pc]} f g commits := by
  have old : ∀ (j : Nat) q, (s.threads ++ [pc])[j]? = some q →
      s.threads[j]? = some q ∨ (q = pc ∧ j = s.threads.length) := by
    intro j q hq
    rcases lt_or_ge j s.threads.length with hj | hj
    · rw [List.getElem?_append_left hj] at hq
      exact .inl hq
    rw [List.getElem?_append_right hj, List.getElem?_singleton] at hq
    split at hq
    · exact .inr ⟨(some.inj hq).symm, by omega⟩
    · cases hq
  have hpending : pendingOf s.mutexCommit (s.threads ++ [pc]) = pendingOf s.mutexCommit s.threads := by
    cases hm : s.mutexCommit with
    | none => rfl
    | some i => rw [pendingOf, pendingOf, List.getElem?_append_left (h.held.holder i hm)]
  refine {h with
    drawn := h.drawn.spawn hseq
    taken := h.taken.spawn hcommit
    held := ⟨?_, ?_, fun i hm => (h.held.holder i hm).trans_le (by simp)⟩
    logged := ?_
    counted := ?_}
  · intro i c e hq
    rcases old i _ hq with hq | ⟨rfl, -⟩
    · exact h.held.carried i c e hq
    · cases hcommit
  · intro i q hq
    rcases old i q hq with hq | ⟨rfl, rfl⟩
    · exact h.held.locked i q hq
    · exact ⟨fun hl => absurd hl hlock, fun hm => absurd (h.held.holder _ hm) (lt_irrefl _)⟩
  · have hl := h.logged
    rwa [← hpending] at hl
  · have := h.counted
    simp only [map_append, sum_append, map_cons, map_nil, sum_cons, sum_nil, hu, hd]
    omega

variable {n : Nat}

section
variable (h : Inv s f g commits)
include h

/-- A step that moves no batch: the thread goes on and the count may change with it. -/
theorem Inv.goto (hi : s.threads[i]? = some pc) (pc' : Pc)
    (hseq : pc'.seq = pc.seq) (hcommit : pc.seqCommit = none) (hcommit' : pc'.seqCommit = none)
    (hlock : pc'.Locked ↔ pc.Locked) (hp : pc'.pending = pc.pending) (hn : n < 2 ^ 64)
    (hcount : (n + pc'.uncounted + pc.undeducted) % 2 ^ 64 =
      (s.inflightTasks + pc.uncounted + pc'.undeducted) % 2 ^ 64) :
    Inv ({s with inflightTasks := n}.goto i pc') f g commits := by
  have hpending : pendingOf s.mutexCommit (s.threads.set i pc') = pendingOf s.mutexCommit s.threads := by
    by_cases hm : s.mutexCommit = some i
    · rw [hm, pendingOf_set_self hi, pendingOf_self hi, hp]
    · exact pendingOf_set_other hm pc'
  refine {h with
    drawn := h.drawn.keep hi hseq
    taken := h.taken.keep hi (hcommit'.trans hcommit.symm)
    held := h.held.goto hi hcommit' hlock
    logged := ?_
    inflight_lt := hn
    counted := h.counted_set hi pc' (by dsimp only [MemoryIndexer.goto]; omega)}
  have hl := h.logged
  rwa [← hpending] at hl

theorem Inv.insert (hi : s.threads[i]? = some .insert) : Inv (s.act i .insert) f g commits := by
  refine {h with
    drawn := h.drawn.draw hi rfl rfl
    taken := h.taken.keep hi rfl
    held := h.held.goto hi rfl Iff.rfl
    logged := h.logged_goto hi id _
    counted := h.counted_set hi (.count s.seqInserted) ?_}
  dsimp only [MemoryIndexer.goto, act, Pc.uncounted, Pc.undeducted]
  omega

theorem Inv.put {i k : Nat} (hi : s.threads[i]? = some (.put k)) (hroom : s.ringInverted.MayPut k) :
    Inv (s.act i (.put k)) (Function.update f k (some (.ofBatch k))) g commits := by
  obtain ⟨-, hfree⟩ := h.drawn.carried i _ k hi rfl
  have hroom' : k < s.ringInverted.offGround + s.ringInverted.capacity := by
    rcases hroom with hlt | hlt
    · exact absurd hfree (h.inverted.filled k hlt)
    · exact hlt
  refine {h with
    inverted := h.inverted.put hfree hroom' _
    drawn := h.drawn.turnIn hi rfl rfl _
    taken := ?_
    ofBatch := ?_
    held := h.held.goto hi rfl Iff.rfl
    length := h.length.trans (Ring.put_seqGet ..).symm
    cover := h.cover.trans (congrArg List.range (Ring.put_offGround ..).symm)
    logged := h.logged_goto hi id _
    counted := h.counted_set hi .collect rfl}
  · change Handed Pc.seqCommit (s.threads.set i .collect) g (s.ringInverted.put k (.ofBatch k)).seqGet
    rw [Ring.put_seqGet]
    exact h.taken.keep hi rfl
  · intro k' e he
    by_cases heq : k' = k
    · rw [heq, Function.update_self] at he
      rw [heq]
      exact (some.inj he).symm
    · rw [Function.update_of_ne heq] at he
      exact h.ofBatch k' e he

/-- What the first ring gives out holds the batches of its slice, one each. -/
theorem Inv.batch_inverted : s.ringInverted.getBatch.1 =
      (List.range' s.ringInverted.offGround (s.ringInverted.offFilled - s.ringInverted.offGround)).map .ofBatch := by
  have hlist := h.inverted.getBatch.1
  apply map_injective_iff.mpr (some_injective _)
  rw [hlist, List.map_map]
  apply map_congr_left
  intro k hk
  rw [mem_range'_1] at hk
  obtain ⟨e, he⟩ := ne_none_iff_exists'.mp (h.inverted.filled k (by omega))
  rw [he, h.ofBatch k e he]
  rfl

theorem Inv.batch_sorted :
    commits.take s.ringSorted.offGround ++ s.ringSorted.getBatch.1 = commits.take s.ringSorted.offFilled := by
  have hlist := h.sorted.getBatch.1
  have hg := h.sorted.ground_le
  have hlen := congrArg List.length hlist
  simp only [length_map, length_range'] at hlen
  have hnext : s.ringSorted.getBatch.1 =
      (commits.drop s.ringSorted.offGround).take (s.ringSorted.offFilled - s.ringSorted.offGround) := by
    apply ext_getElem?
    intro j
    rcases lt_or_ge j (s.ringSorted.offFilled - s.ringSorted.offGround) with hj | hj
    · have hget := congrArg (·[j]?) hlist
      simp only [List.getElem?_map, List.getElem?_range' hj, map_some, one_mul] at hget
      obtain ⟨e, he⟩ := ne_none_iff_exists'.mp (h.sorted.filled (s.ringSorted.offGround + j) (by omega))
      rw [List.getElem?_take_of_lt hj, List.getElem?_drop, h.deposited _ e he]
      rw [he] at hget
      cases hb : s.ringSorted.getBatch.1[j]? with
      | none =>
        simp [hb] at hget
      | some e' =>
        rw [hb] at hget
        exact some.inj hget
    · rw [List.getElem?_eq_none (by omega), List.getElem?_take_eq_none hj]
  rw [hnext, ← take_add, Nat.add_sub_cancel' hg]

end

variable {rest : List ColumnInverter}

/-- Merged, the slice of the first ring is one inverter that holds its batches in order. -/
theorem Inv.merged_slice (h : Inv s f g commits) {first : ColumnInverter}
    (hb : s.ringInverted.getBatch.1 = first :: rest) :
    (first.mergeAll rest).batches =
        List.range' s.ringInverted.offGround (s.ringInverted.offFilled - s.ringInverted.offGround) ∧
      (first.mergeAll rest).Whole := by
  have hbatch := h.batch_inverted
  rw [hb] at hbatch
  -- the slice is not empty: the merge goes over the batches after its first one
  cases hn : s.ringInverted.offFilled - s.ringInverted.offGround with
  | zero =>
    simp [hn] at hbatch
  | succ n =>
    rw [hn] at hbatch
    obtain ⟨rfl, rfl⟩ := List.cons.inj hbatch
    obtain ⟨hbs, hw⟩ := ColumnInverter.mergeAll_ofBatch (.ofBatch s.ringInverted.offGround)
      (List.range' (s.ringInverted.offGround + 1) n) ⟨rfl, rfl⟩
    exact ⟨hbs.trans List.range'_succ.symm, hw⟩

theorem Inv.ground_le_commits (h : Inv s f g commits) : s.ringSorted.offGround ≤ commits.length := by
  rw [h.length]
  rcases Nat.eq_zero_or_pos s.ringSorted.offGround with hz | hpos
  · omega
  have hle := h.sorted.ground_le
  obtain ⟨e, he⟩ := ne_none_iff_exists'.mp (h.sorted.filled (s.ringSorted.offGround - 1) (by omega))
  have := h.taken.turned_lt _ e he
  omega

variable {c : Nat}

section
variable (h : Inv s f g commits)
include h

theorem Inv.collect (hi : s.threads[i]? = some .collect) {first : ColumnInverter} {ring : Ring ColumnInverter}
    (hb : s.ringInverted.getBatch = (first :: rest, c, ring)) :
    Inv ({s with ringInverted := ring}.goto i (.deposit c (first.mergeAll rest))) f g
      (commits ++ [first.mergeAll rest]) := by
  have hg := h.inverted.ground_le
  obtain ⟨-, hshows, hground, -, -, hseq⟩ := h.inverted.getBatch
  obtain ⟨hbs, hw⟩ := h.merged_slice (congrArg Prod.fst hb)
  rw [hb] at hshows hground hseq
  obtain ⟨rfl, hget⟩ := hseq (cons_ne_nil _ _)
  generalize first.mergeAll rest = m at hbs hw ⊢
  have hlt : ∀ (c : Nat) e, commits[c]? = some e → (commits ++ [m])[c]? = some e := by
    intro c e he
    obtain ⟨hc, -⟩ := List.getElem?_eq_some_iff.mp he
    rw [List.getElem?_append_left hc, he]
  refine {h with
    inverted := hshows
    drawn := h.drawn.keep hi rfl
    taken := ?_
    deposited := fun c e he => hlt c e (h.deposited c e he)
    held := h.held.set hi hlt ?_ Iff.rfl
    length := ?_
    whole := ?_
    cover := ?_
    logged := ?_
    counted := h.counted_set hi (.deposit s.ringInverted.seqGet m) rfl}
  · change Handed Pc.seqCommit (s.threads.set i _) g ring.seqGet
    rw [hget]
    exact h.taken.draw hi rfl rfl
  · rintro c e ⟨⟩
    rw [← h.length, List.getElem?_append_right le_rfl, Nat.sub_self]
    rfl
  · change (commits ++ [m]).length = ring.seqGet
    rw [hget, length_append, h.length]
    rfl
  · intro c hc
    rcases mem_append.mp hc with hc | hc
    · exact h.whole c hc
    · rwa [mem_singleton.mp hc]
  · change (commits ++ [m]).flatMap ColumnInverter.batches = List.range ring.offGround
    have happ := List.range'_append_1 (s := 0) (m := s.ringInverted.offGround)
      (n := s.ringInverted.offFilled - s.ringInverted.offGround)
    rw [zero_add, Nat.add_sub_cancel' hg] at happ
    rwa [hground, flatMap_append, h.cover, flatMap_singleton, hbs, range_eq_range', range_eq_range']
  · obtain ⟨l, hl, hp⟩ := h.logged_goto hi id (.deposit s.ringInverted.seqGet m)
    exact ⟨l, hl, hp.trans (take_append_of_le_length h.ground_le_commits).symm⟩

theorem Inv.deposit {e : ColumnInverter} (hi : s.threads[i]? = some (.deposit c e)) (hroom : s.ringSorted.MayPut c) :
    Inv (s.act i (.deposit c e)) f (Function.update g c (some e)) commits := by
  obtain ⟨-, hfree⟩ := h.taken.carried i _ c hi rfl
  have hroom' : c < s.ringSorted.offGround + s.ringSorted.capacity := by
    rcases hroom with hlt | hlt
    · exact absurd hfree (h.sorted.filled c hlt)
    · exact hlt
  refine {h with
    sorted := h.sorted.put hfree hroom' e
    drawn := h.drawn.keep hi rfl
    taken := h.taken.turnIn hi rfl rfl e
    deposited := ?_
    held := h.held.goto hi rfl Iff.rfl
    logged := ?_
    counted := h.counted_set hi .tryLock rfl}
  · intro c' e' he
    by_cases heq : c' = c
    · rw [heq, Function.update_self] at he
      cases he
      rw [heq]
      exact h.held.carried i c e hi
    · rw [Function.update_of_ne heq] at he
      exact h.deposited c' e' he
  · obtain ⟨l, hl, hp⟩ := h.logged_goto hi id .tryLock
    refine ⟨l, hl, hp.trans ?_⟩
    change _ = commits.take (s.ringSorted.put c e).offGround
    rw [Ring.put_offGround]

theorem Inv.lock (hi : s.threads[i]? = some .tryLock) (hm : s.mutexCommit = none) :
    Inv ({s with mutexCommit := some i}.goto i (.get 0)) f g commits := by
  refine {h with
    drawn := h.drawn.keep hi rfl
    taken := h.taken.keep hi rfl
    held := ⟨?_, ?_, ?_⟩
    logged := ?_
    counted := h.counted_set hi (.get 0) rfl}
  · intro j c e hq
    rcases Handed.get_set hq with ⟨-, hq⟩ | ⟨-, hq⟩
    · cases hq
    · exact h.held.carried j c e hq
  · intro j q hq
    rcases Handed.get_set hq with ⟨rfl, rfl⟩ | ⟨hj, hq⟩
    · exact ⟨fun _ => rfl, fun _ => trivial⟩
    · have hold := h.held.locked j q hq
      rw [hm] at hold
      exact ⟨fun hl => absurd (hold.mp hl) (by simp), fun he => absurd (some.inj he).symm hj⟩
  · rintro j ⟨⟩
    obtain ⟨hlt, -⟩ := List.getElem?_eq_some_iff.mp hi
    exact (length_set ..).symm ▸ hlt
  · obtain ⟨l, hl, hp⟩ := h.logged
    rw [hm] at hp
    exact ⟨l, hl, (congrArg (l ++ ·) (pendingOf_set_self hi (.get 0))).trans hp⟩

theorem Inv.get (hi : s.threads[i]? = some (.get n)) {inverters : List ColumnInverter} {ring : Ring ColumnInverter}
    (hb : s.ringSorted.getBatch = (inverters, c, ring)) :
    Inv ({s with ringSorted := ring}.goto i (.generate n inverters)) f g commits := by
  have hm := (h.held.locked i _ hi).mp trivial
  obtain ⟨-, hshows, hground, -⟩ := h.sorted.getBatch
  have hbatch := h.batch_sorted
  rw [hb] at hshows hground hbatch
  refine {h with
    sorted := hshows
    drawn := h.drawn.keep hi rfl
    taken := h.taken.keep hi rfl
    held := h.held.goto hi rfl Iff.rfl
    logged := ?_
    counted := h.counted_set hi (.generate n inverters) rfl}
  · obtain ⟨l, hl, hp⟩ := h.logged
    rw [hm, pendingOf_self hi] at hp
    change l ++ [] = _ at hp
    refine ⟨l, hl, ?_⟩
    change l ++ pendingOf s.mutexCommit (s.threads.set i _) = commits.take ring.offGround
    rw [hm, pendingOf_set_self hi]
    rw [hground, ← hbatch, ← hp, append_nil]
    rfl

/-- The holder generates the postings of one inverter and signals its batches. -/
theorem Inv.generate {e : ColumnInverter} (hi : s.threads[i]? = some (.generate n (e :: rest))) :
    Inv (s.act i (.generate n (e :: rest))) f g commits := by
  have hm := (h.held.locked i _ hi).mp trivial
  obtain ⟨l, hl, hp⟩ := h.logged
  rw [hm, pendingOf_self hi] at hp
  have hw : e.Whole := by
    apply h.whole
    apply mem_of_mem_take (i := s.ringSorted.offGround)
    rw [← hp]
    exact mem_append_right _ (mem_cons_self ..)
  refine {h with
    drawn := h.drawn.keep hi rfl
    taken := h.taken.keep hi rfl
    held := h.held.goto hi rfl Iff.rfl
    logged := ⟨l ++ [e], ?_, ?_⟩
    released := ?_
    counted := h.counted_set hi (.generate (n + e.merged) rest) ?_}
  · change s.generated ++ e.batches = _
    rw [flatMap_append, flatMap_singleton, hl]
  · change (l ++ [e]) ++ pendingOf s.mutexCommit (s.threads.set i _) = commits.take s.ringSorted.offGround
    rw [hm, pendingOf_set_self hi, append_assoc, ← hp]
    rfl
  · change s.released ++ e.semas = s.generated ++ e.batches
    rw [h.released, hw.2]
  · dsimp only [MemoryIndexer.goto, act, Pc.uncounted, Pc.undeducted]
    rw [length_append, hw.1]
    omega

theorem Inv.unlock (hi : s.threads[i]? = some .unlock) : Inv (s.act i .unlock) f g commits := by
  have hm := (h.held.locked i _ hi).mp trivial
  refine {h with
    drawn := h.drawn.keep hi rfl
    taken := h.taken.keep hi rfl
    held := ⟨?_, ?_, nofun⟩
    logged := ?_
    counted := h.counted_set hi .returned rfl}
  · intro j c e hq
    rcases Handed.get_set hq with ⟨-, hq⟩ | ⟨-, hq⟩
    · cases hq
    · exact h.held.carried j c e hq
  · intro j q hq
    refine ⟨fun hl => ?_, fun he => by cases he⟩
    rcases Handed.get_set hq with ⟨rfl, rfl⟩ | ⟨hj, hq⟩
    · cases hl
    have hj' := (h.held.locked j q hq).mp hl
    rw [hm] at hj'
    exact absurd (some.inj hj').symm hj
  · obtain ⟨l, hl, hp⟩ := h.logged
    rw [hm, pendingOf_self hi] at hp
    exact ⟨l, hl, hp⟩

/-! ### Every interleaving -/

/-- **Every step of every thread keeps the invariant.** -/
theorem Inv.act (hi : s.threads[i]? = some pc) (hcan : s.CanAct pc) :
    ∃ f' g' commits', Inv (s.act i pc) f' g' commits' := by
  have hlt := h.inflight_lt
  cases pc with
  | insert => exact ⟨_, _, _, h.insert hi⟩
  | count k =>
    refine ⟨_, _, _, h.goto hi (.put k) rfl rfl rfl Iff.rfl rfl (Nat.mod_lt _ (by decide)) ?_⟩
    simp only [Pc.uncounted, Pc.undeducted]
    omega
  | put k => exact ⟨_, _, _, h.put hi hcan⟩
  | collect =>
    rw [MemoryIndexer.act]
    split
    · exact ⟨_, _, _, h.goto hi .tryLock rfl rfl rfl Iff.rfl rfl hlt rfl⟩
    · rename_i hb
      exact ⟨_, _, _, h.collect hi hb⟩
  | deposit c e => exact ⟨_, _, _, h.deposit hi hcan⟩
  | tryLock =>
    rw [MemoryIndexer.act]
    split
    · rename_i hm
      exact ⟨_, _, _, h.lock hi hm⟩
    · exact ⟨_, _, _, h.goto hi .returned rfl rfl rfl Iff.rfl rfl hlt rfl⟩
  | get n =>
    rw [MemoryIndexer.act]
    split
    · exact ⟨_, _, _, h.goto hi (.deduct n) rfl rfl rfl Iff.rfl rfl hlt rfl⟩
    · rename_i hb
      exact ⟨_, _, _, h.get hi hb⟩
  | generate n l =>
    cases l with
    | nil => exact ⟨_, _, _, h.goto hi (.get n) rfl rfl rfl Iff.rfl rfl hlt rfl⟩
    | cons e rest => exact ⟨_, _, _, h.generate hi⟩
  | deduct n =>
    refine ⟨_, _, _, h.goto hi .unlock rfl rfl rfl Iff.rfl rfl ?_ ?_⟩
    · split
      · exact Nat.mod_lt _ (by decide)
      · exact hlt
    · simp only [Pc.uncounted, Pc.undeducted, subU64]
      split <;> omega
  | unlock => exact ⟨_, _, _, h.unlock hi⟩
  | returned => exact hcan.elim

theorem Inv.step {e : Event} (ha : s.Allowed e) : ∃ f' g' commits', Inv (s.step e) f' g' commits' := by
  cases e with
  | asyncInsert => exact ⟨_, _, _, h.spawn rfl rfl (fun hl => hl) rfl rfl⟩
  | commitSync => exact ⟨_, _, _, h.spawn rfl rfl (fun hl => hl) rfl rfl⟩
  | act i =>
    obtain ⟨pc, hi, hcan⟩ := ha
    rw [MemoryIndexer.step, hi]
    exact h.act hi hcan

end

/-! ### Handing a batch over -/

/-- Whenever a ring has something ready, some thread is still going to look. -/
structure HandedOver (s : MemoryIndexer) : Prop where
  inverted : s.ringInverted.offGround < s.ringInverted.offFilled →
    ∃ (i : Nat) (pc : Pc), s.threads[i]? = some pc ∧ pc = .collect
  sorted : s.ringSorted.offGround < s.ringSorted.offFilled →
    ∃ (i : Nat) (pc : Pc), s.threads[i]? = some pc ∧ (pc = .tryLock ∨ pc.Getting)

/-- The lock is tried only when it is free, or when its holder is going to look into
the second ring again. -/
def LooksAgain (s : MemoryIndexer) : Event → Prop
  | .act i =>
    match s.threads[i]?, s.mutexCommit with
    | some .tryLock, some j => ∃ pc ∈ s.threads[j]?, pc.Getting
    | _, _ => True
  | _ => True

instance (s : MemoryIndexer) (e : Event) : Decidable (s.LooksAgain e) := by
  cases e with
  | act i =>
    unfold LooksAgain
    dsimp only
    split <;> infer_instance
  | _ => exact isTrue trivial

/-- A thread that is going to look is still one after another thread's step, and after
its own unless that step is the look. -/
theorem exists_set {P : Pc → Prop} (hi : ts[i]? = some pc) (himp : P pc → P pc')
    (h : ∃ (j : Nat) (q : Pc), ts[j]? = some q ∧ P q) : ∃ (j : Nat) (q : Pc), (ts.set i pc')[j]? = some q ∧ P q := by
  obtain ⟨j, q, hq, hp⟩ := h
  by_cases hj : j = i
  · subst hj
    rw [hi] at hq
    cases hq
    exact ⟨j, pc', Handed.set_self hi pc', himp hp⟩
  · exact ⟨j, q, (Handed.set_other hj pc').trans hq, hp⟩

variable {s' : MemoryIndexer}

theorem HandedOver.goto (ho : HandedOver s) (hi : s.threads[i]? = some pc)
    (pc' : Pc) (hcollect : pc ≠ .collect) (hget : pc = .tryLock ∨ pc.Getting → pc' = .tryLock ∨ pc'.Getting)
    (hts : s'.threads = s.threads.set i pc') (hinverted : s'.ringInverted = s.ringInverted)
    (hsorted : s'.ringSorted = s.ringSorted) : HandedOver s' := by
  refine ⟨fun hlt => ?_, fun hlt => ?_⟩
  · rw [hts]
    rw [hinverted] at hlt
    exact exists_set hi (fun he => absurd he hcollect) (ho.inverted hlt)
  · rw [hts]
    rw [hsorted] at hlt
    exact exists_set hi hget (ho.sorted hlt)

theorem HandedOver.spawn (ho : HandedOver s) (pc : Pc) : HandedOver {s with threads := s.threads ++ [pc]} := by
  have old : ∀ (j : Nat) q, s.threads[j]? = some q → (s.threads ++ [pc])[j]? = some q := by
    intro j q hq
    obtain ⟨hj, -⟩ := List.getElem?_eq_some_iff.mp hq
    rw [List.getElem?_append_left hj, hq]
  refine ⟨fun hlt => ?_, fun hlt => ?_⟩
  · obtain ⟨j, q, hq, hp⟩ := ho.inverted hlt
    exact ⟨j, q, old j q hq, hp⟩
  · obtain ⟨j, q, hq, hp⟩ := ho.sorted hlt
    exact ⟨j, q, old j q hq, hp⟩

/-- **No batch is dropped between two threads**, as long as no one gives up on a holder
that will not look again. -/
theorem HandedOver.act (ho : HandedOver s) (h : Inv s f g commits) (hi : s.threads[i]? = some pc)
    (hlook : s.LooksAgain (.act i)) : HandedOver (s.act i pc) := by
  obtain ⟨-, -, hground, hfilled, hempty, -⟩ := h.inverted.getBatch
  obtain ⟨-, -, hground', hfilled', hempty', -⟩ := h.sorted.getBatch
  cases pc with
  | insert => exact ho.goto hi (.count s.seqInserted) (by simp) (by simp [Pc.Getting]) rfl rfl rfl
  | count k => exact ho.goto hi (.put k) (by simp) (by simp [Pc.Getting]) rfl rfl rfl
  | put k =>
    exact ⟨fun _ => ⟨i, .collect, Handed.set_self hi _, rfl⟩,
      fun hlt => exists_set hi (by simp [Pc.Getting]) (ho.sorted hlt)⟩
  | collect =>
    rw [MemoryIndexer.act]
    split
    · rename_i hb
      rw [hb] at hempty
      exact ⟨fun hlt => absurd (hempty rfl).2 (ne_of_lt hlt),
        fun hlt => exists_set hi (by simp [Pc.Getting]) (ho.sorted hlt)⟩
    · rename_i hb
      rw [hb] at hground hfilled
      refine ⟨fun hlt => ?_, fun hlt => exists_set hi (by simp [Pc.Getting]) (ho.sorted hlt)⟩
      exact absurd (hground.trans hfilled.symm) (ne_of_lt hlt)
  | deposit c e =>
    exact ⟨fun hlt => exists_set hi (by simp) (ho.inverted hlt), fun _ => ⟨i, .tryLock, Handed.set_self hi _, .inl rfl⟩⟩
  | tryLock =>
    rw [MemoryIndexer.act]
    split
    · exact ho.goto hi (.get 0) (by simp) (fun _ => .inr trivial) rfl rfl rfl
    rename_i j hm
    -- the holder looks again: whatever is in the second ring is its to take
    simp only [LooksAgain, hi, hm] at hlook
    obtain ⟨q, hq, hg⟩ := hlook
    have hj : j ≠ i := by
      rintro rfl
      rw [hi] at hq
      cases hq
      exact hg
    exact ⟨fun hlt => exists_set hi (by simp) (ho.inverted hlt),
      fun _ => ⟨j, q, (Handed.set_other hj _).trans hq, .inr hg⟩⟩
  | get n =>
    rw [MemoryIndexer.act]
    split
    · rename_i hb
      rw [hb] at hempty'
      exact ⟨fun hlt => exists_set hi (by simp) (ho.inverted hlt), fun hlt => absurd (hempty' rfl).2 (ne_of_lt hlt)⟩
    rename_i hb
    rw [hb] at hground' hfilled'
    refine ⟨fun hlt => exists_set hi (by simp) (ho.inverted hlt), fun hlt => ?_⟩
    exact absurd (hground'.trans hfilled'.symm) (ne_of_lt hlt)
  | generate n l =>
    cases l with
    | nil => exact ho.goto hi (.get n) (by simp) (fun _ => .inr trivial) rfl rfl rfl
    | cons e rest => exact ho.goto hi (.generate (n + e.merged) rest) (by simp) (fun _ => .inr trivial) rfl rfl rfl
  | deduct n => exact ho.goto hi .unlock (by simp) (by simp [Pc.Getting]) rfl rfl rfl
  | unlock => exact ho.goto hi .returned (by simp) (by simp [Pc.Getting]) rfl rfl rfl
  | returned => exact ho

/-! ### What was inserted -/

/-- The calls of `AsyncInsert`, drawn or not. -/
def calls (s : MemoryIndexer) : Nat := s.seqInserted + (s.threads.map Pc.undrawn).sum

theorem calls_goto {s s' : MemoryIndexer} (hi : s.threads[i]? = some pc)
    (hs : s'.threads = s.threads.set i pc') (hn : s'.seqInserted + pc'.undrawn = s.seqInserted + pc.undrawn) :
    s'.calls = s.calls := by
  have := sum_goto hi Pc.undrawn pc'
  rw [calls, calls, hs]
  omega

theorem calls_act (hi : s.threads[i]? = some pc) : (s.act i pc).calls = s.calls := by
  cases pc with
  | insert | count _ | put _ | deposit _ _ | deduct _ | unlock => exact calls_goto hi rfl rfl
  | collect | tryLock | get _ =>
    rw [act]
    split <;> exact calls_goto hi rfl rfl
  | generate n l => cases l <;> exact calls_goto hi rfl rfl
  | returned => rfl

theorem calls_run {M : Machine MemoryIndexer Event Empty} (hM : M.step = machine.step) {s s' : MemoryIndexer}
    {es : List Event} (h : M.Run s es s') : s'.calls = s.calls + es.count .asyncInsert := by
  induction h with
  | nil => rfl
  | @cons s s₁ s₂ e es _ ht _ ih =>
    rw [hM] at ht
    have hs : s.step e = s₁ := Except.ok.inj ht
    have hstep : s₁.calls = s.calls + [e].count .asyncInsert := by
      rw [← hs]
      cases e with
      | asyncInsert => simp [step, calls, Pc.undrawn, add_assoc]
      | commitSync => simp [step, calls, Pc.undrawn]
      | act i =>
        rw [step]
        split
        · rename_i pc hi
          simpa using calls_act hi
        · simp
    rw [ih, hstep, add_assoc, ← count_append]
    rfl

/-! ### When everything has returned -/

/-- **No batch is left behind.** When every task and every `CommitSync` has returned,
the postings of every batch given to `AsyncInsert` have been generated once and in
order, each batch has been signalled and none is in flight. -/
theorem no_batch_left {s : MemoryIndexer} {es : List Event} (h : (machine.restrict LooksAgain).Run {} es s)
    (hreturned : ∀ pc ∈ s.threads, pc = .returned) :
    s.generated = List.range (es.count .asyncInsert) ∧ s.released = List.range (es.count .asyncInsert) ∧
      s.inflightTasks = 0 := by
  have hcalls := calls_run (M := machine.restrict LooksAgain) rfl h
  have hinv : (∃ f g commits, Inv s f g commits) ∧ HandedOver s := by
    refine Machine.Run.invariant (I := fun s => (∃ f g commits, Inv s f g commits) ∧ HandedOver s) ?_ h
      ⟨⟨_, _, _, Inv.initial⟩, ⟨fun hlt => absurd hlt (by decide), fun hlt => absurd hlt (by decide)⟩⟩
    rintro s e s' ⟨⟨f, g, commits, hi⟩, ho⟩ ⟨ha, hlook⟩ hstep
    cases hstep
    refine ⟨hi.step ha, ?_⟩
    cases e with
    | asyncInsert => exact ho.spawn .insert
    | commitSync => exact ho.spawn .collect
    | act i =>
      obtain ⟨pc, hpc, -⟩ := ha
      rw [MemoryIndexer.step, hpc]
      exact ho.act hi hpc hlook
  obtain ⟨⟨f, g, commits, hi⟩, ho⟩ := hinv
  -- nothing is ready in either ring, since no thread is left that would look
  have hidle : ∀ {P : Pc → Prop}, ¬ P .returned → ¬ ∃ (i : Nat) (pc : Pc), s.threads[i]? = some pc ∧ P pc := by
    rintro P hP ⟨i, pc, hpc, hp⟩
    rw [hreturned pc (mem_of_getElem? hpc)] at hp
    exact hP hp
  have hempty : s.ringInverted.offGround = s.ringInverted.offFilled := by
    by_contra hne
    have := hi.inverted.ground_le
    exact hidle (by simp) (ho.inverted (by omega))
  have hempty' : s.ringSorted.offGround = s.ringSorted.offFilled := by
    by_contra hne
    have := hi.sorted.ground_le
    exact hidle (by simp [Pc.Getting]) (ho.sorted (by omega))
  -- and nothing is on its way to one
  have hall : s.ringInverted.offFilled = s.seqInserted :=
    hi.inverted.filled_eq hi.drawn fun pc hpc => by rw [hreturned pc hpc]; rfl
  have hall' : s.ringSorted.offFilled = s.ringInverted.seqGet :=
    hi.sorted.filled_eq hi.taken fun pc hpc => by rw [hreturned pc hpc]; rfl
  have hzero : ∀ w : Pc → Nat, w .returned = 0 → (s.threads.map w).sum = 0 := by
    intro w hw
    rw [List.sum_eq_zero_iff_forall_eq_nat]
    intro n hn
    obtain ⟨pc, hpc, rfl⟩ := mem_map.mp hn
    rw [hreturned pc hpc, hw]
  have hcount : s.seqInserted = es.count .asyncInsert := by
    rw [calls, hzero Pc.undrawn rfl] at hcalls
    simpa [calls] using hcalls
  have hgenerated : s.generated = List.range s.seqInserted := by
    obtain ⟨l, hl, hp⟩ := hi.logged
    have hm : s.mutexCommit = none := by
      cases hm : s.mutexCommit with
      | none => rfl
      | some j =>
        obtain ⟨pc, hpc⟩ : ∃ pc, s.threads[j]? = some pc := ⟨_, List.getElem?_eq_getElem (hi.held.holder j hm)⟩
        have hlocked := (hi.held.locked j pc hpc).mpr hm
        rw [hreturned pc (mem_of_getElem? hpc)] at hlocked
        exact hlocked.elim
    rw [hm, hempty', hall', ← hi.length, take_length] at hp
    rw [hl, ← hall, ← hempty, ← hi.cover, ← hp]
    simp [pendingOf]
  refine ⟨hcount ▸ hgenerated, hcount ▸ (hi.released.trans hgenerated), ?_⟩
  have hbalance := hi.counted
  rw [hzero Pc.uncounted rfl, hzero Pc.undeducted rfl, hgenerated, length_range] at hbalance
  have := hi.inflight_lt
  omega

/-- Two batches, one after the other. -/
def twoBatches : List Event := [.asyncInsert, .asyncInsert] ++ List.replicate 12 (.act 0) ++ List.replicate 12 (.act 1)

theorem no_batch_left_two :
    ∃ s, (machine.restrict LooksAgain).Run {} twoBatches s ∧ (∀ pc ∈ s.threads, pc = .returned) ∧
      s.generated = List.range (twoBatches.count .asyncInsert) ∧
      s.released = List.range (twoBatches.count .asyncInsert) ∧ s.inflightTasks = 0 := by
  have hexec : ((machine.restrict LooksAgain).exec {} twoBatches).any
      (fun s => decide (∀ pc ∈ s.threads, pc = .returned)) = true := by decide +kernel
  obtain ⟨s, hs, hreturned⟩ := (any_eq_true _ _).mp hexec
  have h := Machine.run_of_exec hs
  exact ⟨s, h, of_decide_eq_true hreturned, no_batch_left h (of_decide_eq_true hreturned)⟩

/-- The first thread has found the second ring empty for the last time; the second one
puts its batch there, does not get the lock and returns. -/
def missedBatch : List Event :=
  [.asyncInsert, .asyncInsert] ++ List.replicate 10 (.act 0) ++ List.replicate 6 (.act 1) ++ [.act 0, .act 0]

theorem batch_left_behind :
    ∃ s, machine.Run {} missedBatch s ∧ (∀ pc ∈ s.threads, pc = .returned) ∧ missedBatch.count .asyncInsert = 2 ∧
      s.generated = [0] ∧ s.released = [0] ∧ s.inflightTasks = 1 := by
  have hexec : (machine.exec {} missedBatch).any (fun s => decide ((∀ pc ∈ s.threads, pc = .returned) ∧
      s.generated = [0] ∧ s.released = [0] ∧ s.inflightTasks = 1)) = true := by decide +kernel
  obtain ⟨s, hs, hend⟩ := (any_eq_true _ _).mp hexec
  obtain ⟨hreturned, hg, hr, hf⟩ := of_decide_eq_true hend
  exact ⟨s, Machine.run_of_exec hs, hreturned, by decide, hg, hr, hf⟩

end MemoryIndexer

end Infinity.FullText
