import Infinity.Buffer.BufferManager
import Infinity.Lib.Checked

/-! What a garbage collection pass does.

Seen from one object, a pass of `RequestSpace` leaves everything as it was or takes the
object out of its queue and frees it, and it only frees what is unloaded and not locked.
`Collected` says so of all objects, with the memory that was freed. It holds of one `Free` of
a queued object and passes along the loops over a queue and over the caches. A pass stops the
engine at a queued object that is not unloaded (`PassCause`), or where it cannot spill. -/
namespace Infinity.Buffer.Pool

open Lib List Function

variable (cfg : Config)

/-- The object is in the queue of its cache. -/
def Manager.Waiting (m : Manager) (x : Nat) : Prop := x ∈ m.gcLists (lruIdx cfg x)

/-- The memory an object takes. -/
def held : Option BufferObj → Nat
  | some o => if o.data then o.size else 0
  | none => 0

/-- The memory all objects take. -/
def Manager.inUse (m : Manager) : Nat := ∑ x ∈ Finset.range m.bufferId, held (m.objs x)

/-- Objects have been made, and each is at most once in the queue of its cache and in no other. -/
structure Shape (m : Manager) : Prop where
  known : ∀ x o, m.objs x = some o → x < m.bufferId
  nodup : ∀ k, (m.gcLists k).Nodup
  shard : ∀ k x, x ∈ m.gcLists k → k = lruIdx cfg x
  turn : m.roundRobin < cfg.lruCount

def Kept (m m' : Manager) (x : Nat) : Prop := m'.objs x = m.objs x ∧ (m'.Waiting cfg x ↔ m.Waiting cfg x)

/-- A pass has taken the object out of its queue and freed its memory. -/
def Freed (m m' : Manager) (x : Nat) : Prop :=
  ∃ o type, m.objs x = some o ∧ o.status = .unloaded ∧ m.Waiting cfg x ∧ type ≠ .mmap ∧
    m'.objs x = some {o with type := type, status := .freed, data := false} ∧ ¬ m'.Waiting cfg x

def Fate (m m' : Manager) (x : Nat) : Prop := Kept cfg m m' x ∨ Freed cfg m m' x

/-- A pass has freed `freed` bytes. -/
structure Collected (env : Env) (m m' : Manager) (freed : Nat) : Prop where
  fate : ∀ x, Fate cfg m m' x
  locked : ∀ x, env.locked x → Kept cfg m m' x
  shape : Shape cfg m'
  bufferId : m'.bufferId = m.bufferId
  current : m'.currentMemorySize = m.currentMemorySize
  memory : m'.inUse + freed = m.inUse

/-- The errors that have nothing to do with queues and memory. -/
def PoolFault.Plain : PoolFault → Prop
  | .attemptToFree _ _ | .notInGCQueue _ | .memoryUnderflow _ _ => False
  | _ => True

/-- Why a pass stops: it met a queued object that is not unloaded. -/
def PassCause (m : Manager) : PoolFault → Prop
  | .attemptToFree x status =>
    m.Waiting cfg x ∧ ∃ p, m.objs x = some p ∧ p.status = status ∧ status ≠ .unloaded
  | .notInGCQueue _ | .memoryUnderflow _ _ => False
  | _ => True

variable {cfg} {env : Env} {m m' m'' : Manager} {x id : Nat} {o o' : BufferObj}

theorem PoolFault.Plain.passCause {e : PoolFault} (h : e.Plain) : PassCause cfg m e := by
  cases e with
  | attemptToFree x status => exact h.elim
  | notInGCQueue x => exact h.elim
  | memoryUnderflow a b => exact h.elim
  | _ => trivial

/-! ### Memory in use -/

/-- Replacing one object changes the memory in use by what the two of them hold. -/
theorem inUse_update {v : Option BufferObj} (hx : x < m.bufferId)
    (hobjs : m'.objs = update m.objs x v) (hid : m'.bufferId = m.bufferId) :
    m'.inUse + held (m.objs x) = m.inUse + held v := by
  have hmem : x ∈ Finset.range m.bufferId := Finset.mem_range.mpr hx
  have hrest : ∑ y ∈ (Finset.range m.bufferId).erase x, held (m'.objs y) =
      ∑ y ∈ (Finset.range m.bufferId).erase x, held (m.objs y) := by
    refine Finset.sum_congr rfl fun y hy => ?_
    rw [hobjs, update_of_ne (Finset.ne_of_mem_erase hy)]
  have hm := Finset.add_sum_erase _ (fun y => held (m.objs y)) hmem
  have hm' := Finset.add_sum_erase _ (fun y => held (m'.objs y)) hmem
  simp only [hobjs, update_self] at hm' hrest
  simp only [Manager.inUse, hid, hobjs]
  omega

/-! ### Fates -/

theorem Kept.refl (x : Nat) : Kept cfg m m x := ⟨rfl, Iff.rfl⟩

theorem Kept.trans (h : Kept cfg m m' x) (h' : Kept cfg m' m'' x) : Kept cfg m m'' x := ⟨h'.1.trans h.1, h'.2.trans h.2⟩

theorem Fate.trans (h : Fate cfg m m' x) (h' : Fate cfg m' m'' x) : Fate cfg m m'' x := by
  obtain hk | ⟨o, type, ho, hst, hw, ht, ho', hw'⟩ := h
  · obtain hk' | ⟨o, type, ho, hst, hw, ht, ho', hw'⟩ := h'
    · exact .inl (hk.trans hk')
    · exact .inr ⟨o, type, hk.1 ▸ ho, hst, hk.2.mp hw, ht, ho', hw'⟩
  obtain hk' | ⟨o₁, _, ho₁, hst₁, _⟩ := h'
  · exact .inr ⟨o, type, ho, hst, hw, ht, hk'.1.trans ho', fun h => hw' (hk'.2.mp h)⟩
  -- a freed object is not unloaded
  rw [ho'] at ho₁
  cases ho₁
  cases hst₁

namespace Collected

theorem refl (h : Shape cfg m) : Collected cfg env m m 0 :=
  ⟨fun x => .inl (.refl x), fun x _ => .refl x, h, rfl, rfl, rfl⟩

theorem trans {a b : Nat} (h : Collected cfg env m m' a) (h' : Collected cfg env m' m'' b) :
    Collected cfg env m m'' (a + b) where
  fate x := (h.fate x).trans (h'.fate x)
  locked x hx := (h.locked x hx).trans (h'.locked x hx)
  shape := h'.shape
  bufferId := h'.bufferId.trans h.bufferId
  current := h'.current.trans h.current
  memory := by
    have := h.memory
    have := h'.memory
    omega

end Collected

variable {freed : Nat}

theorem Collected.turn (h : Collected cfg env m m' freed) (k : Nat) :
    Collected cfg env m {m' with roundRobin := k % cfg.lruCount} freed :=
  ⟨h.fate, h.locked, ⟨h.shape.known, h.shape.nodup, h.shape.shard, Nat.mod_lt _ cfg.lruCount_pos⟩, h.bufferId,
    h.current, h.memory⟩

/-! ### One object -/

/-- `Free` changes the object and the sets of temporary files, no more. -/
structure Freeing (env : Env) (m m' : Manager) (x : Nat) (o : BufferObj) : Prop where
  unlocked : env.locked x = false
  unloaded : o.status = .unloaded
  data : o.data = true
  objs : ∃ type, type ≠ .mmap ∧
    m'.objs = Function.update m.objs x (some {o with type := type, status := .freed, data := false})
  gcLists : m'.gcLists = m.gcLists
  bufferId : m'.bufferId = m.bufferId
  roundRobin : m'.roundRobin = m.roundRobin
  current : m'.currentMemorySize = m.currentMemorySize

theorem spill_spec (type : BufferType) : Ends (m.spill env x type) (fun r => r.2 ≠ .mmap ∧ r.1.objs = m.objs ∧
    r.1.gcLists = m.gcLists ∧ r.1.bufferId = m.bufferId ∧ r.1.roundRobin = m.roundRobin ∧
      r.1.currentMemorySize = m.currentMemorySize) PoolFault.Plain := by
  cases type with
  | temp | persistent => simp [Manager.spill, Ends]
  | ephemeral =>
    by_cases hsave : env.allSave x = true <;> by_cases htemp : x ∈ m.tempSet <;>
      simp [Manager.spill, Manager.addTemp, Ends, PoolFault.Plain, hsave, htemp]
  | mmap | toMmap => trivial

theorem freeInMemory_spec : Ends (o.freeInMemory id) (fun o' => o.data = true ∧ o' = {o with data := false})
    PoolFault.Plain := by
  unfold BufferObj.freeInMemory
  split
  · exact ⟨‹_›, rfl⟩
  · trivial

theorem free_spec : Ends (m.free env x) (fun r => ∃ o, m.objs x = some o ∧
      ((r = none ∧ env.locked x = true) ∨ ∃ m', r = some m' ∧ Freeing env m m' x o))
    fun e => e.Plain ∨ ∃ p, m.objs x = some p ∧ p.status ≠ .unloaded ∧ e = .attemptToFree x p.status := by
  unfold Manager.free
  split
  · exact .inl trivial
  rename_i o ho
  split
  · rename_i hl
    exact ⟨o, ho, .inl ⟨rfl, hl⟩⟩
  rename_i hl
  split
  · rename_i hst
    exact .inr ⟨o, ho, hst, rfl⟩
  rename_i hst
  split
  · rename_i e he
    exact .inl ((spill_spec o.type).error he)
  rename_i m₁ type hs
  obtain ⟨ht, hobjs, hgc, hid, hrr, hcur⟩ := (spill_spec o.type).ok hs
  dsimp only at hobjs
  split
  · rename_i e he
    exact .inl (freeInMemory_spec.error he)
  rename_i p hp
  obtain ⟨hd, rfl⟩ := freeInMemory_spec.ok hp
  exact ⟨o, ho, .inr ⟨_, rfl, by simpa using hl, not_not.mp hst, hd, ⟨type, ht, by simp [Manager.setObj, hobjs]⟩,
    hgc, hid, hrr, hcur⟩⟩

variable {k : Nat}

theorem free_cause (hs : Shape cfg m) (hq : x ∈ m.gcLists k) {e : PoolFault} (he : m.free env x = .error e) :
    PassCause cfg m e := by
  have hk := hs.shard k x hq
  subst hk
  rcases free_spec.error he with hplain | ⟨p, hp, hst, rfl⟩
  · exact hplain.passCause
  · exact ⟨hq, p, hp, rfl, hst⟩

/-- **Freeing one queued object** is a pass that frees its size. -/
theorem Freeing.collected (hs : Shape cfg m) (ho : m.objs x = some o)
    (hx : x ∈ m.gcLists k) (h : Freeing env m m' x o) : Collected cfg env m (m'.dequeue k x) o.size := by
  obtain ⟨type, ht, hobjs⟩ := h.objs
  have hk : k = lruIdx cfg x := hs.shard k x hx
  subst hk
  have hother {y : Nat} (hy : y ≠ x) : Kept cfg m (m'.dequeue (lruIdx cfg x) x) y := by
    refine ⟨by simp [Manager.dequeue, hobjs, hy], ?_⟩
    simp only [Manager.Waiting, Manager.dequeue, h.gcLists]
    by_cases hi : lruIdx cfg y = lruIdx cfg x
    · rw [hi, update_self]
      exact mem_erase_of_ne hy
    · rw [update_of_ne hi]
  have hgone : ¬ (m'.dequeue (lruIdx cfg x) x).Waiting cfg x := by
    simp only [Manager.Waiting, Manager.dequeue, h.gcLists, update_self]
    exact (hs.nodup _).not_mem_erase
  refine ⟨fun y => ?_, fun y hy => ?_, ⟨fun y o' hy => ?_, fun k => ?_, fun k y hy => ?_, ?_⟩, h.bufferId, h.current, ?_⟩
  · by_cases hy : y = x
    · subst hy
      exact .inr ⟨o, type, ho, h.unloaded, hx, ht, by simp [Manager.dequeue, hobjs], hgone⟩
    · exact .inl (hother hy)
  · refine hother fun hyx => ?_
    subst hyx
    simp [h.unlocked] at hy
  · simp only [Manager.dequeue, h.bufferId]
    by_cases hyx : y = x
    · exact hyx ▸ hs.known x o ho
    · refine hs.known y o' ?_
      simpa [Manager.dequeue, hobjs, hyx] using hy
  · simp only [Manager.dequeue, h.gcLists]
    by_cases hk : k = lruIdx cfg x
    · subst hk
      rw [update_self]
      exact (hs.nodup _).erase x
    · rw [update_of_ne hk]
      exact hs.nodup k
  · simp only [Manager.dequeue, h.gcLists] at hy
    by_cases hk : k = lruIdx cfg x
    · subst hk
      rw [update_self] at hy
      exact hs.shard _ y (mem_of_mem_erase hy)
    · rw [update_of_ne hk] at hy
      exact hs.shard k y hy
  · simpa only [Manager.dequeue, h.roundRobin] using hs.turn
  · have hmem : (m'.dequeue (lruIdx cfg x) x).inUse + held (m.objs x) = m.inUse + held _ :=
      inUse_update (hs.known x o ho) hobjs h.bufferId
    simp only [ho, held, h.data, if_true, Bool.false_eq_true, if_false] at hmem
    omega

/-! ### The loops -/

theorem wordAdd_of_lt {a b : Nat} (h : a + b < word) : wordAdd a b = a + b := if_pos h

theorem wordSub_of_le {a b : Nat} (h : b ≤ a) : wordSub a b = a - b := if_pos h

/-- What is left in a queue after a pass over it that did not find enough. -/
def Exhausted (env : Env) (m : Manager) (k : Nat) : Prop := ∀ x ∈ m.gcLists k, env.locked x = true

theorem Collected.mem_of_mem (h : Collected cfg env m m' freed) (hx : x ∈ m'.gcLists k) : x ∈ m.gcLists k := by
  have hk := h.shape.shard k x hx
  subst hk
  obtain hk | ⟨_, _, _, _, hw, _⟩ := h.fate x
  · exact hk.2.mp hx
  · exact hw

theorem Collected.exhausted (h : Collected cfg env m m' freed)
    (he : Exhausted env m k) : Exhausted env m' k := fun x hx => he x (h.mem_of_mem hx)

theorem Collected.cause {e : PoolFault} (h : Collected cfg env m m' freed) (hc : PassCause cfg m' e) :
    PassCause cfg m e := by
  cases e with
  | attemptToFree x status =>
    obtain ⟨hw, p, hp, hst⟩ := hc
    obtain ⟨hobjs, hwait⟩ | ⟨_, _, _, _, _, _, _, hout⟩ := h.fate x
    · exact ⟨hwait.mp hw, p, hobjs ▸ hp, hst⟩
    · exact absurd hw hout
  | notInGCQueue x => exact hc
  | memoryUnderflow a b => exact hc
  | _ => trivial

/-- **The pass over one queue.** It counts what it frees, as long as a word can hold it. If it
did not find enough, only locked objects are left of those it was to look at. -/
theorem lruLoop_spec {k needSpace : Nat} (l : List Nat) (freeSpace : Nat) (hs : Shape cfg m)
    (hl : ∀ x ∈ l, x ∈ m.gcLists k) (hnd : l.Nodup) :
    Ends (Manager.lruLoop env k needSpace m freeSpace l) (fun r => ∃ freed, Collected cfg env m r.1 freed ∧
      (freeSpace + m.inUse < word → r.2 = freeSpace + freed) ∧ r.1.roundRobin = m.roundRobin ∧
      (r.2 < needSpace → ∀ x ∈ l, x ∈ r.1.gcLists k → env.locked x = true)) (PassCause cfg m) := by
  induction l generalizing m freeSpace with
  | nil => exact ⟨0, .refl hs, fun _ => rfl, rfl, by simp⟩
  | cons y rest ih =>
    have hrest : ∀ x ∈ rest, x ∈ m.gcLists k := fun x hx => hl x (mem_cons_of_mem _ hx)
    have hy : y ∈ m.gcLists k := hl y mem_cons_self
    simp only [Manager.lruLoop]
    split
    · split
      · rename_i e he
        exact free_cause hs hy he
      · rename_i hfree
        obtain ⟨o, ho, ⟨-, hlock⟩ | ⟨_, hr, _⟩⟩ := free_spec.ok hfree
        · refine (ih freeSpace hs hrest hnd.of_cons).imp ?_ fun _ => id
          rintro r ⟨freed, hc, hsum, hrr, hleft⟩
          refine ⟨freed, hc, hsum, hrr, fun hlt x hx => ?_⟩
          obtain rfl | hx := mem_cons.mp hx
          · exact fun _ => hlock
          · exact hleft hlt x hx
        · cases hr
      · rename_i m₁ hfree
        obtain ⟨o, ho, ⟨hr, -⟩ | ⟨_, hr, hone⟩⟩ := free_spec.ok hfree
        · cases hr
        cases hr
        have hc₁ : Collected cfg env m (m₁.dequeue k y) o.size := hone.collected hs ho hy
        have hsize : (m₁.objs y).elim 0 BufferObj.size = o.size := by
          obtain ⟨type, -, hobjs⟩ := hone.objs
          simp [hobjs]
        have hmem : ∀ x ∈ rest, x ∈ (m₁.dequeue k y).gcLists k := by
          intro x hx
          have hne : x ≠ y := fun hxy => (nodup_cons.mp hnd).1 (hxy ▸ hx)
          simp only [Manager.dequeue, update_self, hone.gcLists]
          exact (mem_erase_of_ne hne).mpr (hrest x hx)
        refine (ih _ hc₁.shape hmem hnd.of_cons).imp ?_ fun _ => hc₁.cause
        rintro r ⟨freed, hc, hsum, hrr, hleft⟩
        refine ⟨o.size + freed, hc₁.trans hc, fun hlt => ?_, hrr.trans hone.roundRobin, fun hlt x hx hx' => ?_⟩
        · have hin := hc₁.memory
          rw [hsize, wordAdd_of_lt (by omega)] at hsum
          rw [hsum (by omega), add_assoc]
        · obtain rfl | hx := mem_cons.mp hx
          · -- the object that was freed is not in the queue any more
            have hout := hc.mem_of_mem hx'
            simp only [Manager.dequeue, update_self, hone.gcLists] at hout
            exact absurd hout (hs.nodup k).not_mem_erase
          · exact hleft hlt x hx hx'
    · rename_i hge
      exact ⟨0, .refl hs, fun _ => rfl, rfl, fun hlt => absurd hlt hge⟩

/-- One turn: the queue of the cache whose turn it is. -/
theorem lruLoop_turn (needSize : Nat) (hs : Shape cfg m) :
    Ends (Manager.lruLoop env m.roundRobin needSize m 0 (m.gcLists m.roundRobin)) (fun r => ∃ freed,
      Collected cfg env m {r.1 with roundRobin := (m.roundRobin + 1) % cfg.lruCount} freed ∧
      (m.inUse < word → r.2 = freed) ∧ (r.2 < needSize → Exhausted env r.1 m.roundRobin)) (PassCause cfg m) := by
  refine (lruLoop_spec _ 0 hs (fun _ hx => hx) (hs.nodup _)).imp ?_ fun _ => id
  rintro r ⟨freed, hc, hsum, -, hleft⟩
  exact ⟨freed, hc.turn _, fun hlt => by rw [hsum (by omega), zero_add],
    fun hlt x hx => hleft hlt x (hc.mem_of_mem hx) hx⟩

/-- **The pass over the caches.** -/
theorem requestLoop_spec {needSize freeSpace start : Nat} (turns freedSpace : Nat) (hs : Shape cfg m) :
    Ends (Manager.requestLoop cfg env needSize freeSpace start turns m freedSpace) (fun r => ∃ freed,
      Collected cfg env m r.1 freed ∧ (freedSpace + m.inUse < word → r.2 = freedSpace + freed)) (PassCause cfg m) := by
  induction turns generalizing m freedSpace with
  | zero => exact ⟨0, .refl hs, fun _ => rfl⟩
  | succ turns ih =>
    simp only [Manager.requestLoop]
    split
    · rename_i e he
      exact (lruLoop_turn needSize hs).error he
    rename_i m₁ freed₁ hlru
    obtain ⟨n, hc₁, hsum, -⟩ := (lruLoop_turn needSize hs).ok hlru
    dsimp only at hc₁ hsum
    have hin := hc₁.memory
    split
    · refine (ih _ hc₁.shape).imp ?_ fun _ => hc₁.cause
      rintro r ⟨n', hc', hsum'⟩
      refine ⟨n + n', hc₁.trans hc', fun hlt => ?_⟩
      rw [hsum (by omega), wordAdd_of_lt (by omega)] at hsum'
      rw [hsum' (by omega), add_assoc]
    · refine ⟨n, hc₁, fun hlt => ?_⟩
      show wordAdd freedSpace freed₁ = _
      rw [hsum (by omega), wordAdd_of_lt (by omega)]

variable {needSize : Nat}

theorem requestSpace_free (h : wordSub cfg.memoryLimit m.currentMemorySize ≥ needSize) :
    m.requestSpace cfg env needSize =
      .ok ({m with currentMemorySize := wordAdd m.currentMemorySize needSize}, true) := if_pos h

theorem requestSpace_pass {needSize freedSpace : Nat} {ok : Bool}
    (h : ¬ wordSub cfg.memoryLimit m.currentMemorySize ≥ needSize)
    (hloop : Manager.requestLoop cfg env needSize (wordSub cfg.memoryLimit m.currentMemorySize) m.roundRobin cfg.lruCount m 0 =
      .ok (m', freedSpace))
    (hok : ok = true ↔ wordAdd freedSpace (wordSub cfg.memoryLimit m.currentMemorySize) ≥ needSize) :
    m.requestSpace cfg env needSize =
      .ok ({m' with currentMemorySize := wordAdd m'.currentMemorySize (wordSub needSize freedSpace)}, ok) := by
  rw [Manager.requestSpace, if_neg h, hloop]
  simp [← hok]

theorem requestSpace_error {e : PoolFault} (h : ¬ wordSub cfg.memoryLimit m.currentMemorySize ≥ needSize)
    (hloop : Manager.requestLoop cfg env needSize (wordSub cfg.memoryLimit m.currentMemorySize) m.roundRobin cfg.lruCount m 0 =
      .error e) :
    m.requestSpace cfg env needSize = .error e := by
  rw [Manager.requestSpace, if_neg h, hloop]

/-- **`RequestSpace` is a pass**, apart from the memory counter. -/
theorem requestSpace_spec (needSize : Nat) (hs : Shape cfg m) :
    Ends (m.requestSpace cfg env needSize) (fun r => ∃ m₁ freed, Collected cfg env m m₁ freed ∧
      r.1 = {m₁ with currentMemorySize := r.1.currentMemorySize}) (PassCause cfg m) := by
  simp only [Manager.requestSpace]
  split
  · exact ⟨m, 0, .refl hs, rfl⟩
  split
  · rename_i e he
    exact (requestLoop_spec _ _ hs).error he
  · rename_i m₁ freedSpace hloop
    obtain ⟨freed, hc, -⟩ := (requestLoop_spec _ _ hs).ok hloop
    exact ⟨m₁, freed, hc, rfl⟩

/-! ### Objects a pass does not look at -/

theorem free_setObj (hl : env.locked id = true ∨ x ≠ id) (ho : m.objs id = some o) :
    (m.setObj id o').free env x = (m.free env x).map (Option.map (·.setObj id o')) := by
  by_cases hx : x = id
  · subst hx
    have hl := hl.resolve_right (not_not.mpr rfl)
    simp [Manager.free, Manager.setObj, hl, ho, Except.map]
  have hobjs : (m.setObj id o').objs x = m.objs x := by simp [Manager.setObj, hx]
  simp only [Manager.free, hobjs]
  cases hox : m.objs x with
  | none => rfl
  | some p =>
    have hspill : (m.setObj id o').spill env x p.type = (m.spill env x p.type).map fun r => (r.1.setObj id o', r.2) := by
      cases p.type with
      | ephemeral =>
        by_cases hsave : env.allSave x = true <;> by_cases htemp : x ∈ m.tempSet <;>
          simp [Manager.spill, Manager.addTemp, Manager.setObj, Except.map, hsave, htemp]
      | _ => rfl
    simp only [hspill]
    split
    · rfl
    split
    · rfl
    cases m.spill env x p.type with
    | error e => rfl
    | ok r =>
      cases hfree : p.freeInMemory x with
      | error e => simp [Except.map]
      | ok p' => simp [Except.map, Manager.setObj, update_comm hx]

theorem lruLoop_setObj {id k needSpace : Nat} (l : List Nat) (freeSpace : Nat)
    (hl : env.locked id = true ∨ id ∉ l) (ho : m.objs id = some o) :
    Manager.lruLoop env k needSpace (m.setObj id o') freeSpace l =
      (Manager.lruLoop env k needSpace m freeSpace l).map fun r => (r.1.setObj id o', r.2) := by
  induction l generalizing m freeSpace with
  | nil => rfl
  | cons x rest ih =>
    have hx : env.locked id = true ∨ x ≠ id := hl.imp_right fun hout heq => hout (heq ▸ mem_cons_self)
    have hrest : env.locked id = true ∨ id ∉ rest := hl.imp_right fun hout hmem => hout (mem_cons_of_mem _ hmem)
    simp only [Manager.lruLoop, free_setObj hx ho]
    split
    · cases hfree : m.free env x with
      | error e => rfl
      | ok r =>
        obtain ⟨p, hp, ⟨rfl, -⟩ | ⟨m₁, rfl, hone⟩⟩ := free_spec.ok hfree
        · exact ih freeSpace hrest ho
        have hne : x ≠ id := by
          rintro rfl
          simp [hone.unlocked] at hx
        have ho₁ : (m₁.dequeue k x).objs id = some o := by
          obtain ⟨type, -, hobjs⟩ := hone.objs
          simp [Manager.dequeue, hobjs, hne.symm, ho]
        have hsize : ((m₁.setObj id o').objs x).elim 0 BufferObj.size = (m₁.objs x).elim 0 BufferObj.size := by
          simp [Manager.setObj, hne]
        simp only [Except.map, Option.map_some, hsize]
        exact ih _ hrest ho₁
    · rfl

theorem Collected.kept (h : Collected cfg env m m' freed)
    (hl : env.locked id = true ∨ ∀ k, id ∉ m.gcLists k) : Kept cfg m m' id := by
  obtain hl | hout := hl
  · exact h.locked id hl
  · obtain hk | ⟨_, _, _, _, hw, _⟩ := h.fate id
    · exact hk
    · exact absurd hw (hout _)

theorem requestLoop_setObj {id needSize freeSpace start : Nat} (turns freedSpace : Nat)
    (hs : Shape cfg m) (hl : env.locked id = true ∨ ∀ k, id ∉ m.gcLists k) (ho : m.objs id = some o) :
    Manager.requestLoop cfg env needSize freeSpace start turns (m.setObj id o') freedSpace =
      (Manager.requestLoop cfg env needSize freeSpace start turns m freedSpace).map fun r => (r.1.setObj id o', r.2) := by
  induction turns generalizing m freedSpace with
  | zero => rfl
  | succ turns ih =>
    have hlru : Manager.lruLoop env m.roundRobin needSize (m.setObj id o') 0 (m.gcLists m.roundRobin) = _ :=
      lruLoop_setObj _ 0 (hl.imp_right fun hout => hout _) ho
    simp only [Manager.requestLoop]
    rw [show (m.setObj id o').roundRobin = m.roundRobin from rfl, show (m.setObj id o').gcLists = m.gcLists from rfl, hlru]
    cases hloop : Manager.lruLoop env m.roundRobin needSize m 0 (m.gcLists m.roundRobin) with
    | error e => rfl
    | ok r =>
      obtain ⟨n, hc, -⟩ := (lruLoop_turn needSize hs).ok hloop
      simp only [Except.map]
      split
      · refine ih _ hc.shape (hl.imp_right fun hout k hk => hout k (hc.mem_of_mem hk)) ?_
        exact (hc.kept hl).1.trans ho
      · rfl

theorem setObj_current (m : Manager) (id current : Nat) (o : BufferObj) (ok : Bool) :
    (Except.ok ({m.setObj id o with currentMemorySize := current}, ok) : Except PoolFault (Manager × Bool)) =
      (Except.ok ({m with currentMemorySize := current}, ok)).map fun r => (r.1.setObj id o, r.2) := rfl

/-- **A pass does not look at an object that is locked or in no queue.** -/
theorem requestSpace_setObj (hs : Shape cfg m)
    (hl : env.locked id = true ∨ ∀ k, id ∉ m.gcLists k) (ho : m.objs id = some o) :
    (m.setObj id o').requestSpace cfg env needSize =
      (m.requestSpace cfg env needSize).map fun r => (r.1.setObj id o', r.2) := by
  by_cases hfree : wordSub cfg.memoryLimit m.currentMemorySize ≥ needSize
  · rw [requestSpace_free hfree, requestSpace_free (m := m.setObj id o') hfree]
    exact setObj_current _ _ _ _ _
  cases hloop : Manager.requestLoop cfg env needSize (wordSub cfg.memoryLimit m.currentMemorySize) m.roundRobin
      cfg.lruCount m 0 with
  | error e =>
    rw [requestSpace_error hfree hloop, requestSpace_error (m := m.setObj id o') hfree
      ((requestLoop_setObj cfg.lruCount 0 hs hl ho).trans (congrArg (Except.map _) hloop))]
    rfl
  | ok r =>
    have hset : Manager.requestLoop cfg env needSize (wordSub cfg.memoryLimit m.currentMemorySize) m.roundRobin
        cfg.lruCount (m.setObj id o') 0 = .ok (r.1.setObj id o', r.2) :=
      (requestLoop_setObj cfg.lruCount 0 hs hl ho).trans (congrArg (Except.map _) hloop)
    obtain ⟨ok, hok⟩ : ∃ ok, ok = true ↔ wordAdd r.2 (wordSub cfg.memoryLimit m.currentMemorySize) ≥ needSize :=
      ⟨_, decide_eq_true_iff⟩
    have hpass := requestSpace_pass (m := m.setObj id o') hfree hset hok
    rw [requestSpace_pass hfree hloop hok, hpass]
    exact setObj_current _ _ _ _ _

end Infinity.Buffer.Pool
