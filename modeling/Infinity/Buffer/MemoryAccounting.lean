import Infinity.Buffer.Transitions

/-! The memory counter of the buffer manager.

`current_memory_size_` is the memory of the objects that hold data, and it stays within the
limit. `RequestSpace` reserves before the data is there, and a pass returns what it frees.
The one caller that does not heed the answer is `AddBufferSize`: the data it asks space for
is already appended. So the counter is exact as long as there is room for what is appended
beside everything a pass could not free, and a raw file has the size it was expected to have. -/
namespace Infinity.Buffer.Pool

open Lib Function Finset

variable (cfg : Config)

/-- The memory a pass cannot free: that of objects not queued, or locked. -/
def pinned (m : Manager) (env : Env) : Nat :=
  ∑ x ∈ Finset.range m.bufferId, if x ∈ m.gcLists (lruIdx cfg x) ∧ env.locked x = false then 0 else held (m.objs x)

/-- There is room for what is appended, and a raw file is as large as its worker says. -/
def Op.Fits (m : Manager) (id : Nat) (o : BufferObj) : Op → Prop
  | .append env size => pinned cfg m env + size ≤ cfg.memoryLimit
  | .load env | .getMutPointer env => o.worker = .rawFile → env.fileSize id = o.size
  | _ => True

def Fits (m : Manager) : Call → Prop
  | .op id op => ∀ o, m.objs id = some o → op.Fits cfg m id o
  | _ => True

/-- Status, type and queue say whether an object holds data. -/
structure Holds (o : BufferObj) (w : Prop) : Prop where
  present : o.status = .loaded ∨ o.status = .unloaded → (o.data = true ↔ o.type ≠ .mmap)
  absent : o.status = .freed ∨ o.status = .new → o.data = false
  mapped : o.type = .mmap → o.data = false
  idle : o.status = .unloaded ∨ o.status = .freed ∨ o.status = .new → o.rc = 0
  queued : w → o.data = true ∧ (o.status = .unloaded ∨ o.status = .clean) ∧ o.rc = 0
  empty : o.status = .new → o.worker = .varFile → o.size = 0

/-- The counter is the memory in use, within the limit. -/
structure Balanced (m : Manager) : Prop extends Everywhere cfg Holds m where
  exact : m.currentMemorySize = m.inUse
  within : m.currentMemorySize ≤ cfg.memoryLimit

variable {cfg} {env : Env} {m m' m'' : Manager} {id : Nat} {o o' : BufferObj}

theorem Holds.edge {op : Op} {w w' : Prop} (h : Holds o w) (ha : op.Allowed o) (he : Edge o w op o' w') :
    Holds o' w' := by
  obtain ⟨hp, ha', hm, hi, hq, hn⟩ := h
  cases he with
  | append =>
    have hrc : 0 < o.rc := ha.1
    constructor <;> grind
  | getMutMmap size type data =>
    have hrc : 0 < o.rc := ha
    constructor <;> grind
  | _ => constructor <;> simp_all

theorem Holds.survives : SurvivesPass Holds := by
  intro o w type h hst htype
  have hrc := h.idle (.inl hst)
  exact ⟨by simp, by simp, by simp, fun _ => hrc, False.elim, by simp⟩

/-! ### Passes that do not find enough -/

theorem turn_complete {n start d : Nat} (hs : start < n) (hd : d ≤ n) (hpos : 0 < d) (h : (start + d) % n = start) :
    d = n := by
  by_cases hlt : start + d < n
  · rw [Nat.mod_eq_of_lt hlt] at h
    omega
  rw [Nat.mod_eq_sub_mod (by omega), Nat.mod_eq_of_lt (by omega)] at h
  omega

/-- **A pass that does not find enough leaves only locked objects** in the caches that were
still to be asked. -/
theorem requestLoop_exhausted {needSize freeSpace start freedSpace freedSpace' : Nat} (turns : Nat) (hs : Shape cfg m)
    (hstart : start < cfg.lruCount) (hturns : turns ≤ cfg.lruCount)
    (hrr : m.roundRobin = (start + (cfg.lruCount - turns)) % cfg.lruCount)
    (hword : freedSpace + m.inUse + freeSpace < word)
    (h : Manager.requestLoop cfg env needSize freeSpace start turns m freedSpace = .ok (m', freedSpace'))
    (hless : freedSpace' + freeSpace < needSize) :
    ∀ j, cfg.lruCount - turns ≤ j → j < cfg.lruCount → Exhausted env m' ((start + j) % cfg.lruCount) := by
  induction turns generalizing m freedSpace with
  | zero => omega
  | succ turns ih =>
    simp only [Manager.requestLoop] at h
    split at h
    · cases h
    rename_i m₁ freed₁ hlru
    -- the queue of this turn is exhausted, and stays so
    obtain ⟨n, hc₁, hn, hthis⟩ := (lruLoop_turn needSize hs).ok hlru
    dsimp only at hc₁ hn hthis
    obtain rfl := hn (by omega)
    have hin := hc₁.memory
    rw [wordAdd_of_lt (show freedSpace + freed₁ < word by omega)] at h
    have hnext : (m.roundRobin + 1) % cfg.lruCount = (start + (cfg.lruCount - turns)) % cfg.lruCount := by
      rw [hrr, Nat.mod_add_mod]
      congr 1
      omega
    split at h
    · have hrest := ih hc₁.shape (by omega) hnext (by omega) h
      obtain ⟨rest, hc', hsum'⟩ := (requestLoop_spec _ _ hc₁.shape).ok h
      have hfreed' : freedSpace' = freedSpace + freed₁ + rest := hsum' (by omega)
      intro j hj hlt
      obtain hj | hj := Nat.eq_or_lt_of_le hj
      · rw [← hj, ← hrr]
        exact hc'.exhausted (hthis (by omega))
      · exact hrest j (by omega) hlt
    · rename_i hstop
      cases h
      intro j hj hlt
      rw [wordAdd_of_lt (by omega)] at hstop
      have hback : (m.roundRobin + 1) % cfg.lruCount = start := by
        by_contra hne
        exact hstop ⟨hless, hne⟩
      rw [hnext] at hback
      have hfull := turn_complete hstart (by omega) (by omega) hback
      have hj : j = cfg.lruCount - (turns + 1) := by omega
      rw [hj, ← hrr]
      exact hthis (by omega)

theorem held_le_inUse (hs : Shape cfg m) (ho : m.objs id = some o) : held (some o) ≤ m.inUse := by
  have hmem : id ∈ range m.bufferId := mem_range.mpr (hs.known id o ho)
  have hle := single_le_sum (fun x _ => Nat.zero_le (held (m.objs x))) hmem
  rwa [ho] at hle

/-- What is left after a pass that exhausted every queue could not be freed. -/
theorem inUse_le_pinned {freed : Nat} (hc : Collected cfg env m m' freed)
    (hex : ∀ k < cfg.lruCount, Exhausted env m' k) : m'.inUse ≤ pinned cfg m env := by
  unfold Manager.inUse pinned
  rw [hc.bufferId]
  refine sum_le_sum fun x _ => ?_
  obtain ⟨hobjs, hw⟩ | ⟨p, type, _, _, _, _, hobjs, _⟩ := hc.fate x
  · split
    · rename_i hq
      have hlocked := hex _ (Nat.mod_lt _ cfg.lruCount_pos) x (hw.mpr hq.1)
      simp [hq.2] at hlocked
    · rw [hobjs]
  · rw [hobjs]
    simp [held]

/-! ### Requests -/

/-- **`RequestSpace` keeps the counter exact.** When it succeeds, the space is reserved and
the counter is within the limit; when it fails, there is no room beside what is pinned. -/
theorem Balanced.requestSpace {needSize : Nat} {ok : Bool} (h : Balanced cfg m)
    (hok : m.requestSpace cfg env needSize = .ok (m', ok)) :
    ∃ m₁ freed, Collected cfg env m m₁ freed ∧ m' = {m₁ with currentMemorySize := m'.currentMemorySize} ∧
      (ok = true → m'.currentMemorySize = m₁.inUse + needSize ∧ m'.currentMemorySize ≤ cfg.memoryLimit) ∧
      (ok = false → cfg.memoryLimit < pinned cfg m env + needSize) := by
  have hexact := h.exact
  have hwithin := h.within
  have hlimit := cfg.memoryLimit_lt
  have hfree : wordSub cfg.memoryLimit m.currentMemorySize = cfg.memoryLimit - m.currentMemorySize := wordSub_of_le hwithin
  by_cases hroom : wordSub cfg.memoryLimit m.currentMemorySize ≥ needSize
  · rw [requestSpace_free hroom] at hok
    rw [hfree] at hroom
    cases hok
    refine ⟨m, 0, .refl h.shape, rfl, fun _ => ?_, nofun⟩
    have hnew : wordAdd m.currentMemorySize needSize = m.inUse + needSize := by rw [wordAdd_of_lt (by omega), hexact]
    exact ⟨hnew, hnew.trans_le (by omega)⟩
  · cases hloop : Manager.requestLoop cfg env needSize (wordSub cfg.memoryLimit m.currentMemorySize) m.roundRobin
        cfg.lruCount m 0 with
    | error e =>
      rw [requestSpace_error hroom hloop] at hok
      cases hok
    | ok r =>
      obtain ⟨m₁, freedSpace⟩ := r
      obtain ⟨freed, hc, hsum⟩ := (requestLoop_spec _ _ h.shape).ok hloop
      dsimp only at hc hsum
      have hin := hc.memory
      have hfreed : freedSpace = freed := by rw [hsum (by omega), zero_add]
      subst hfreed
      have hadd : wordAdd freedSpace (wordSub cfg.memoryLimit m.currentMemorySize) =
          freedSpace + (cfg.memoryLimit - m.currentMemorySize) := by
        rw [hfree, wordAdd_of_lt (by omega)]
      obtain ⟨enough, henough⟩ :
          ∃ enough, enough = true ↔ wordAdd freedSpace (wordSub cfg.memoryLimit m.currentMemorySize) ≥ needSize :=
        ⟨_, decide_eq_true_iff⟩
      rw [requestSpace_pass hroom hloop henough] at hok
      cases hok
      refine ⟨m₁, freedSpace, hc, rfl, fun htrue => ?_, fun hfalse => ?_⟩
      · have hle := henough.mp htrue
        rw [hadd] at hle
        have hcur : m₁.currentMemorySize = m.currentMemorySize := hc.current
        have hnew : wordAdd m₁.currentMemorySize (wordSub needSize freedSpace) = m₁.inUse + needSize := by
          unfold wordAdd wordSub
          split_ifs <;> omega
        exact ⟨hnew, hnew.trans_le (by omega)⟩
      · have hless : ¬ wordAdd freedSpace (wordSub cfg.memoryLimit m.currentMemorySize) ≥ needSize := by
          rw [← henough, hfalse]
          simp
        rw [hadd] at hless
        rw [hfree] at hloop
        have hex := requestLoop_exhausted cfg.lruCount h.shape h.shape.turn le_rfl
          (by rw [Nat.sub_self, add_zero, Nat.mod_eq_of_lt h.shape.turn]) (by omega) hloop (by omega)
        have hpin : m₁.inUse ≤ pinned cfg m env := by
          refine inUse_le_pinned hc fun k hk => ?_
          -- the cache `k` has its turn some time after the first
          have hfirst := h.shape.turn
          obtain hle | hgt := lt_or_ge k m.roundRobin
          · have hturn := hex (k + cfg.lruCount - m.roundRobin) (by omega) (by omega)
            rwa [show m.roundRobin + (k + cfg.lruCount - m.roundRobin) = k + cfg.lruCount by omega, Nat.add_mod_right,
              Nat.mod_eq_of_lt hk] at hturn
          · have hturn := hex (k - m.roundRobin) (by omega) (by omega)
            rwa [show m.roundRobin + (k - m.roundRobin) = k by omega, Nat.mod_eq_of_lt hk] at hturn
        omega

/-! ### The calls -/

/-- The counter is exact and within the limit. -/
def Exact (cfg : Config) (m : Manager) : Prop := m.currentMemorySize = m.inUse ∧ m.currentMemorySize ≤ cfg.memoryLimit

theorem held_data (h : o.data = true) : held (some o) = o.size := by simp [held, h]

theorem held_empty (h : o.data = false) : held (some o) = 0 := by simp [held, h]

section
variable (h : Balanced cfg m)
include h

section
variable (ho : m.objs id = some o)
include ho

theorem Balanced.same (hobjs : m'.objs = update m.objs id (some o')) (hid : m'.bufferId = m.bufferId)
    (hcur : m'.currentMemorySize = m.currentMemorySize) (hheld : held (some o') = held (some o)) : Exact cfg m' := by
  have hsum := inUse_update (h.shape.known id o ho) hobjs hid
  rw [ho] at hsum
  have hexact := h.exact
  exact ⟨by omega, hcur ▸ h.within⟩

theorem Balanced.release (hobjs : m'.objs = update m.objs id (some o')) (hid : m'.bufferId = m.bufferId)
    (hcur : m'.currentMemorySize = wordSub m.currentMemorySize o.size) (hd : o.data = true) (hd' : o'.data = false) :
    Exact cfg m' := by
  have hsum := inUse_update (h.shape.known id o ho) hobjs hid
  rw [ho, held_data hd, held_empty hd'] at hsum
  have hexact := h.exact
  have hwithin := h.within
  rw [wordSub_of_le (by omega)] at hcur
  exact ⟨by omega, by omega⟩

theorem Balanced.request {ok : Bool} {size : Nat}
    (hl : env.locked id = true ∨ ∀ k, id ∉ m.gcLists k) (hreq : m.requestSpace cfg env size = .ok (m', ok))
    (htrue : ok = true) (hheld : held (some o') = held (some o) + size) : Exact cfg (m'.setObj id o') := by
  obtain ⟨m₁, freed, hc, hm', hsucc, -⟩ := h.requestSpace hreq
  obtain ⟨hcur, hle⟩ := hsucc htrue
  have ho₁ : m₁.objs id = some o := (hc.kept hl).1.trans ho
  have hobjs : (m'.setObj id o').objs = update m₁.objs id (some o') := by
    rw [hm']
    rfl
  have hid : (m'.setObj id o').bufferId = m₁.bufferId := by
    rw [hm']
    rfl
  have hsum := inUse_update (hc.shape.known id o ho₁) hobjs hid
  rw [ho₁] at hsum
  refine ⟨?_, hle⟩
  show m'.currentMemorySize = _
  omega

theorem Balanced.not_queued (hrc : 0 < o.rc) (k : Nat) : id ∉ m.gcLists k := by
  intro hq
  have hk := h.shape.shard k id hq
  subst hk
  have hzero := ((h.each id o ho).queued hq).2.2
  omega

/-- **Every call keeps the counter exact.** -/
theorem Account.exact {op : Op} (ha : op.Allowed o) (hf : op.Fits cfg m id o) (hacc : Account cfg id m o op m' o') :
    Exact cfg m' := by
  cases hacc with
  | same hobjs hid hcur hheld => exact h.same ho hobjs hid hcur hheld
  | release hobjs hid hcur hd hd' => exact h.release ho hobjs hid hcur hd hd'
  | request hread hreq hd hd' hsize =>
    rename_i env m₁
    have hraw : o.worker = .rawFile → env.fileSize id = o.size := by
      rcases hread with rfl | rfl
      · exact hf
      · exact hf
    refine h.request ho (.inl (env.lock_self id)) hreq rfl ?_
    rw [held_empty hd, held_data hd', hsize hraw (h.each id o ho).empty, zero_add]
  | push hheld hpush =>
    rename_i env
    -- within the limit, entering the queue frees nothing
    have hok : (m.setObj id o').pushGCQueue cfg (env.lock id) id = .ok ((m.setObj id o').enqueue (lruIdx cfg id) id) :=
      if_neg (not_lt.mpr h.within)
    rw [hok] at hpush
    cases hpush
    exact h.same ho rfl rfl rfl hheld
  | append hreq =>
    rename_i env size ok
    -- the pass does not look at the object, so that it is as if the data came after the space
    obtain ⟨hrc, -, hd⟩ := ha
    have hout : env.locked id = true ∨ ∀ k, id ∉ m.gcLists k := .inr (h.not_queued ho hrc)
    have hroom : pinned cfg m env + size ≤ cfg.memoryLimit := hf
    rw [requestSpace_setObj h.shape hout ho] at hreq
    cases hspace : m.requestSpace cfg env size with
    | error e =>
      rw [hspace] at hreq
      cases hreq
    | ok r =>
      obtain ⟨m₁, enough⟩ := r
      rw [hspace] at hreq
      cases hreq
      have htrue : enough = true := by
        obtain ⟨_, _, _, _, _, hfail⟩ := h.requestSpace hspace
        cases enough with
        | true => rfl
        | false =>
          have := hfail rfl
          omega
      refine h.request ho hout hspace htrue ?_
      rw [held_data hd, held_data (by exact hd)]

end

end

/-! ### Steps and runs -/

theorem Balanced.init : Balanced cfg Manager.init := ⟨.init, rfl, Nat.zero_le _⟩

section
variable (h : Balanced cfg m)
include h

theorem Balanced.makeBufferObj {isEphemeral : Bool} {worker : FileWorkerType} {size : Nat}
    (hsize : isEphemeral → worker = .varFile → size = 0) : Balanced cfg (m.makeBufferObj isEphemeral worker size) := by
  obtain ⟨p, hobjs, hold, hd⟩ : ∃ p, (m.makeBufferObj isEphemeral worker size).objs = update m.objs m.bufferId (some p) ∧
      Holds p False ∧ p.data = false := by
    cases isEphemeral with
    | true => exact ⟨_, rfl, ⟨by simp, by simp, by simp, by simp, False.elim, fun _ => hsize rfl⟩, rfl⟩
    | false => exact ⟨_, rfl, ⟨by simp, by simp, by simp, by simp, False.elim, by simp⟩, rfl⟩
  refine ⟨h.made hobjs rfl rfl rfl hold, ?_, h.within⟩
  show m.currentMemorySize = ∑ x ∈ range (m.bufferId + 1), held _
  rw [sum_range_succ, hobjs, update_self, held_empty hd, h.exact]
  refine sum_congr rfl fun x hx => ?_
  rw [update_of_ne (mem_range.mp hx).ne]

theorem Balanced.removeClean (hok : m.removeClean = .ok m') : Balanced cfg m' := by
  refine ⟨h.toEverywhere.removeClean hok, ?_, ?_⟩ <;> obtain ⟨hclean, rfl⟩ := removeClean_spec.ok hok
  · refine h.exact.trans (sum_congr rfl fun x _ => ?_)
    by_cases hx : x ∈ m.cleanList
    · obtain ⟨o, ho, -, hd⟩ := hclean x hx
      simp only [hx, ho]
      exact held_empty hd
    · simp [hx]
  · exact h.within

theorem Balanced.step {c : Call} (ha : (pool cfg).enabled m c) (hf : Fits cfg m c)
    (hok : (pool cfg).step m c = .ok m') : Balanced cfg m' := by
  cases c with
  | makeBufferObj isEphemeral worker size =>
    cases hok
    exact h.makeBufferObj ha
  | removeClean => exact h.removeClean hok
  | op id op =>
    obtain ⟨o, ho, hallowed⟩ := ha
    simp only [pool, Pool.step, ho] at hok
    obtain ⟨o', w', hedge, hmoved, hacc⟩ := (Op.ends h.shape ho).ok hok
      (hallowed.steady fun hst => (h.each id o ho).idle (.inl hst))
    obtain ⟨hexact, hwithin⟩ := hacc.exact h ho hallowed (hf o ho)
    exact ⟨h.moved Holds.survives hmoved ((h.each id o ho).edge hallowed hedge), hexact, hwithin⟩

/-- The counter is never smaller than an object that gives its memory back. -/
theorem Balanced.no_underflow {c : Call} {memorySize bufferSize : Nat} :
    (pool cfg).step m c ≠ .error (.memoryUnderflow memorySize bufferSize) := by
  intro hok
  cases c with
  | makeBufferObj isEphemeral worker size => cases hok
  | removeClean => exact removeClean_spec.error hok
  | op id op =>
    simp only [pool, Pool.step] at hok
    split at hok
    · cases hok
    rename_i o ho
    obtain ⟨hd, hlt⟩ := (Op.ends h.shape ho).error hok
    have hle := held_le_inUse h.shape ho
    rw [held_data hd, ← h.exact] at hle
    omega

end

/-- **The memory counter is exact in every state**, as long as there is room for what is
appended. It is the sum of the sizes of the objects that hold data and are not mapped, it
stays within the limit and is never taken below zero, and a request that succeeds stays
within the limit too. -/
theorem memory_counter_exact (calls : List Call)
    (hrun : ((pool cfg).restrict (Fits cfg)).Run Manager.init calls m) :
    (∀ x o, m.objs x = some o → x < m.bufferId) ∧
      m.currentMemorySize = ∑ x ∈ Finset.range m.bufferId,
        (m.objs x).elim 0 (fun o => if o.type ≠ .mmap ∧ o.data = true then o.size else 0) ∧
      m.currentMemorySize ≤ cfg.memoryLimit ∧
      (∀ c memorySize bufferSize, (pool cfg).step m c ≠ .error (.memoryUnderflow memorySize bufferSize)) ∧
      (∀ env needSize m', m.requestSpace cfg env needSize = .ok (m', true) → m'.currentMemorySize ≤ cfg.memoryLimit) := by
  have keeps (s : Manager) (c : Call) (s' : Manager) (h : Balanced cfg s)
      (he : ((pool cfg).restrict (Fits cfg)).enabled s c) (hok : (pool cfg).step s c = .ok s') : Balanced cfg s' :=
    h.step he.1 he.2 hok
  have h : Balanced cfg m := hrun.invariant keeps Balanced.init
  refine ⟨h.shape.known, ?_, h.within, fun c _ _ => h.no_underflow, fun env needSize m' hreq => ?_⟩
  · refine h.exact.trans (sum_congr rfl fun x _ => ?_)
    cases ho : m.objs x with
    | none => rfl
    | some o =>
      have hmapped := (h.each x o ho).mapped
      by_cases hd : o.data = true
      · have htype : o.type ≠ .mmap := fun ht => by simp [hmapped ht] at hd
        simp [held, htype]
      · simp [held, hd]
  · obtain ⟨_, _, _, _, hsucc, -⟩ := h.requestSpace hreq
    exact (hsucc rfl).2

/-! ### Runs -/

def twenty : Config := ⟨20, 1, by decide, by decide⟩

/-- A `VarBuffer` is made, and twenty bytes are appended to it. -/
def appendTwenty : List Call := [.makeBufferObj true .varFile 0, .op 0 (.load calm), .op 0 (.append calm 20)]

/-- With a limit of twenty bytes there is room. -/
theorem memory_counter_exact_append :
    ∃ m, ((pool twenty).restrict (Fits twenty)).Run Manager.init appendTwenty m ∧ m.currentMemorySize = 20 ∧
      m.currentMemorySize ≤ 20 := by
  have hrun : ((pool twenty).restrict (Fits twenty)).Run Manager.init appendTwenty _ :=
    .cons ⟨fun _ _ => rfl, trivial⟩ rfl <| .cons ⟨⟨_, rfl, trivial⟩, fun o ho hraw => by cases ho; cases hraw⟩ rfl <|
      .cons ⟨⟨_, rfl, Nat.succ_pos 0, rfl, rfl⟩, fun o ho => by cases ho; exact Nat.le_refl 20⟩ rfl <| .nil _
  exact ⟨_, hrun, rfl, (memory_counter_exact _ hrun).2.2.1⟩

/-- With a limit of ten bytes there is none. `AddBufferSize` only warns; when the object is
released, the manager asks for the ten bytes it is over the limit, finds nearly all of the
address space free and counts them once more. -/
theorem appended_over_limit :
    ∃ m m', (pool ten).Run Manager.init appendTwenty m ∧
      (∃ m₁, m.requestSpace ten calm 10 = .ok (m₁, true) ∧ m₁.currentMemorySize = 30) ∧
      (pool ten).Run Manager.init (appendTwenty ++ [.op 0 (.unloadInner calm)]) m' ∧
      m'.inUse = 20 ∧ m'.currentMemorySize = 30 := by
  have hrun : (pool ten).Run Manager.init appendTwenty _ :=
    .cons (fun _ _ => rfl) rfl <| .cons ⟨_, rfl, trivial⟩ rfl <| .cons ⟨_, rfl, Nat.succ_pos 0, rfl, rfl⟩ rfl <| .nil _
  have hrun' : (pool ten).Run Manager.init (appendTwenty ++ [.op 0 (.unloadInner calm)]) _ :=
    .cons (fun _ _ => rfl) rfl <| .cons ⟨_, rfl, trivial⟩ rfl <|
      .cons ⟨_, rfl, Nat.succ_pos 0, rfl, rfl⟩ rfl <| .cons ⟨_, rfl, Nat.succ_pos 0⟩ rfl <| .nil _
  exact ⟨_, _, hrun, ⟨_, rfl, rfl⟩, hrun', rfl, rfl⟩

end Infinity.Buffer.Pool
