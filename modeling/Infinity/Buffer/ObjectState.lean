import Infinity.Buffer.Transitions

/-! Status, references and queues of buffer objects.

An object is loaded exactly while there are handles to it, and it is in the queue of its
cache exactly while it is unloaded and not mapped. Then a pass only meets unloaded objects
and never frees one in use. Here passes of other threads run beside the calls and free one
queued object at a time.

`SubObjRc` marks an object clean whatever its status is, and `PickForCleanup` does so for a
mapped object. The invariant needs that the last reference is dropped this way only from an
object that is not in use and not in a queue. -/
namespace Infinity.Buffer.Pool

open Lib

variable (cfg : Config)

/-- A call, or one step of a pass over the queue of the cache `k`. -/
inductive Act where
  | call (c : Call)
  | collect (k id : Nat) (env : Env)

def Manager.collect (m : Manager) (env : Env) (k id : Nat) : Except PoolFault Manager :=
  match m.free env id with
  | .error e => .error e
  | .ok none => .ok m
  | .ok (some m') => .ok (m'.dequeue k id)

/-- Calls and passes interleaved. -/
def shared : Machine Manager Act PoolFault where
  enabled m
    | .call c => Allowed m c
    | .collect k id _ => id ∈ m.gcLists k
  step m
    | .call c => step cfg m c
    | .collect k id env => m.collect env k id

/-- The last reference to the object is dropped when it is not in use and not in a queue. -/
def Op.Orderly (o : BufferObj) : Op → Prop
  | .subObjRc => o.objRc = 1 → o.rc = 0 ∧ (o.status = .unloaded → o.type = .mmap)
  | .pickForCleanup => o.objRc = 1 → o.type = .mmap → o.rc = 0
  | _ => True

def Orderly (m : Manager) : Act → Prop
  | .call (.op id op) => ∀ o, m.objs id = some o → op.Orderly o
  | _ => True

/-- The errors of a pass that meets an object it should not meet, and of a call that misses
its object in the queue. -/
def PoolFault.Stray : PoolFault → Prop
  | .attemptToFree _ _ | .notInGCQueue _ => True
  | _ => False

/-- Status, references and queue agree. -/
structure Fit (o : BufferObj) (w : Prop) : Prop where
  loaded : o.status = .loaded ↔ 0 < o.rc
  queued : w ↔ o.status = .unloaded ∧ o.type ≠ .mmap

/-- Status, references and queues agree of all objects. -/
abbrev Tidy (m : Manager) : Prop := Everywhere cfg Fit m

variable {cfg} {env : Env} {m m' m'' : Manager} {id : Nat} {o o' : BufferObj}

/-! ### Transitions keep the agreement -/

theorem Fit.edge {op : Op} {w w' : Prop} (h : Fit o w) (ha : op.Allowed o) (hg : op.Orderly o)
    (he : Edge o w op o' w') : Fit o' w' := by
  obtain ⟨hl, hq⟩ := h
  cases he with
  | getMutMmap size type data =>
    have hst : o.status = .loaded := hl.mpr ha
    exact ⟨hl, by simp [hq, hst]⟩
  | pickMmap objRc type =>
    have hrc : o.rc = 0 := hg objRc type
    exact ⟨by simp [hrc], by simp [hq, type]⟩
  | subLast objRc =>
    obtain ⟨hrc, hmap⟩ := hg objRc
    refine ⟨by simp [hrc], ?_⟩
    simp only [hq, reduceCtorEq, false_and, iff_false, not_and, not_not]
    exact hmap
  | _ => constructor <;> grind

theorem Fit.survives : SurvivesPass Fit := by
  intro o w type h hst _
  have hrc := h.loaded
  rw [hst] at hrc
  exact ⟨by simpa using hrc, by simp⟩

theorem Tidy.makeBufferObj {isEphemeral : Bool} {worker : FileWorkerType} {size : Nat} (h : Tidy cfg m) :
    Tidy cfg (m.makeBufferObj isEphemeral worker size) := by
  cases isEphemeral with
  | true => exact h.made rfl rfl rfl rfl ⟨by simp, by simp⟩
  | false => exact h.made rfl rfl rfl rfl ⟨by simp, by simp⟩

/-! ### Steps and runs -/

theorem Tidy.status_of_rc (h : Tidy cfg m) (ho : m.objs id = some o) (hrc : 0 < o.rc) : o.status ≠ .unloaded := by
  rw [(h.each id o ho).loaded.mpr hrc]
  simp

theorem Tidy.does {op : Op} (h : Tidy cfg m) (ho : m.objs id = some o) (ha : op.Allowed o)
    (hok : op.apply cfg m id o = .ok m') : Does cfg id m m' o op :=
  (Op.ends h.shape ho).ok hok (ha.steady fun hst => by simpa [hst] using (h.each id o ho).loaded)

/-- One step of a pass frees a queued object or leaves everything as it is. -/
theorem collect_spec {k : Nat} (hs : Shape cfg m) (hq : id ∈ m.gcLists k) (hok : m.collect env k id = .ok m') :
    ∃ freed, Collected cfg env m m' freed := by
  unfold Manager.collect at hok
  split at hok
  · cases hok
  · cases hok
    exact ⟨0, .refl hs⟩
  · rename_i m₁ hfree
    cases hok
    obtain ⟨o, ho, ⟨hr, -⟩ | ⟨_, hr, hone⟩⟩ := free_spec.ok hfree
    · cases hr
    cases hr
    exact ⟨o.size, hone.collected hs ho hq⟩

/-- **Every step keeps status, references and queues in agreement.** -/
theorem Tidy.step {a : Act} (h : Tidy cfg m) (ha : (shared cfg).enabled m a) (hg : Orderly m a)
    (hok : (shared cfg).step m a = .ok m') : Tidy cfg m' := by
  cases a with
  | collect k id env =>
    obtain ⟨freed, hc⟩ := collect_spec h.shape ha hok
    exact h.collected Fit.survives hc
  | call c =>
    cases c with
    | makeBufferObj isEphemeral worker size =>
      cases hok
      exact h.makeBufferObj
    | removeClean => exact h.removeClean hok
    | op id op =>
      obtain ⟨o, ho, hallowed⟩ := ha
      simp only [shared, Pool.step, ho] at hok
      obtain ⟨o', w', hedge, hmoved, -⟩ := h.does ho hallowed hok
      exact h.moved Fit.survives hmoved ((h.each id o ho).edge hallowed (hg o ho) hedge)

theorem Tidy.no_passCause (h : Tidy cfg m) {e : PoolFault} (hc : PassCause cfg m e) : ¬ e.Stray := by
  cases e with
  | attemptToFree x status =>
    obtain ⟨hw, p, hp, rfl, hne⟩ := hc
    exact absurd ((h.each x p hp).queued.mp hw).1 hne
  | notInGCQueue x => exact hc.elim
  | _ => exact nofun

theorem Tidy.no_stray (h : Tidy cfg m) {a : Act} (ha : (shared cfg).enabled m a) {e : PoolFault}
    (he : (shared cfg).step m a = .error e) : ¬ e.Stray := by
  cases a with
  | collect k id env =>
    simp only [shared, Manager.collect] at he
    split at he
    · rename_i e' hfree
      cases he
      exact h.no_passCause (free_cause h.shape ha hfree)
    · cases he
    · cases he
  | call c =>
    cases c with
    | makeBufferObj isEphemeral worker size => cases he
    | removeClean => exact h.no_passCause (removeClean_spec.error he).passCause
    | op id op =>
      obtain ⟨o, ho, -⟩ := ha
      simp only [shared, Pool.step, ho] at he
      have hcause := (Op.ends h.shape ho).error he
      cases e with
      | attemptToFree x status => exact h.no_passCause hcause
      | notInGCQueue x =>
        obtain ⟨hst, htype, hout⟩ := hcause
        exact absurd ((h.each id o ho).queued.mpr ⟨hst, htype⟩) hout
      | _ => exact nofun

/-- The object the step is made on. -/
def Act.On : Act → Nat → Prop
  | .call (.op id _), x => x = id
  | _, _ => False

theorem Fate.kept_of_rc {x : Nat} (h : Tidy cfg m) (hf : Fate cfg m m' x) (ho : m.objs x = some o) (hrc : 0 < o.rc) :
    m'.objs x = some o := by
  obtain hk | ⟨p, _, hp, hst, _⟩ := hf
  · exact hk.1.trans ho
  · rw [ho] at hp
    cases hp
    exact absurd hst (h.status_of_rc ho hrc)

/-- **No step touches another object that is in use.** -/
theorem Tidy.in_use {a : Act} {x : Nat} (h : Tidy cfg m) (ha : (shared cfg).enabled m a)
    (hok : (shared cfg).step m a = .ok m') (ho : m.objs x = some o) (hrc : 0 < o.rc) (hx : ¬ a.On x) :
    m'.objs x = some o := by
  cases a with
  | collect k id env =>
    obtain ⟨freed, hc⟩ := collect_spec h.shape ha hok
    exact (hc.fate x).kept_of_rc h ho hrc
  | call c =>
    cases c with
    | makeBufferObj isEphemeral worker size =>
      cases hok
      have hne : x ≠ m.bufferId := (h.shape.known x o ho).ne
      simpa [Manager.makeBufferObj, Manager.setObj, hne] using ho
    | removeClean =>
      obtain ⟨hclean, rfl⟩ := removeClean_spec.ok hok
      have hnot : x ∉ m.cleanList := by
        intro hmem
        obtain ⟨p, hp, hst, -⟩ := hclean x hmem
        rw [ho] at hp
        cases hp
        have hld := (h.each x o ho).loaded.mpr hrc
        rw [hld] at hst
        cases hst
      simpa [hnot] using ho
    | op id op =>
      obtain ⟨p, hp, hallowed⟩ := ha
      simp only [shared, Pool.step, hp] at hok
      obtain ⟨_, _, _, hmoved, -⟩ := h.does hp hallowed hok
      exact (hmoved.turn.others x hx).kept_of_rc h ho hrc

/-- **Status, references and queues agree in every state, and passes free only what is not
in use**, as long as the last reference to an object is not dropped while it is in use or in
a queue. -/
theorem status_matches_references (acts : List Act)
    (hrun : ((shared cfg).restrict Orderly).Run Manager.init acts m) :
    (∀ x o, m.objs x = some o → (o.status = .loaded ↔ 0 < o.rc)) ∧
      (∀ k x, x ∈ m.gcLists k ↔
        k = lruIdx cfg x ∧ ∃ o, m.objs x = some o ∧ o.status = .unloaded ∧ o.type ≠ .mmap) ∧
      (∀ a e, (shared cfg).enabled m a → (shared cfg).step m a = .error e → ¬ e.Stray) ∧
      (∀ a m' x o, (shared cfg).enabled m a → (shared cfg).step m a = .ok m' → m.objs x = some o → 0 < o.rc →
        ¬ a.On x → m'.objs x = some o) := by
  have keeps (s : Manager) (a : Act) (s' : Manager) (h : Tidy cfg s)
      (he : ((shared cfg).restrict Orderly).enabled s a) (hok : (shared cfg).step s a = .ok s') : Tidy cfg s' :=
    h.step he.1 he.2 hok
  have h : Tidy cfg m := hrun.invariant keeps Everywhere.init
  refine ⟨fun x o ho => (h.each x o ho).loaded, fun k x => ⟨fun hx => ?_, ?_⟩, fun a e ha => h.no_stray ha,
    fun a m' x o ha hok ho hrc hx => h.in_use ha hok ho hrc hx⟩
  · have hk := h.shape.shard k x hx
    subst hk
    refine ⟨rfl, ?_⟩
    cases ho : m.objs x with
    | none => exact absurd hx (h.gone x ho)
    | some o => exact ⟨o, rfl, (h.each x o ho).queued.mp hx⟩
  · rintro ⟨rfl, o, ho, hst⟩
    exact (h.each x o ho).queued.mpr hst

/-! ### Runs -/

/-- Two objects of eight bytes; the first is made, used and released, and the second is new. -/
def twoObjects : List Act :=
  [.call (.makeBufferObj true .dataFile 8), .call (.op 0 .addObjRc), .call (.op 0 (.load calm)),
    .call (.op 0 (.unloadInner calm)), .call (.makeBufferObj true .dataFile 8)]

/-- The first object is spilled when the second is loaded. -/
theorem status_matches_references_two :
    ∃ m, ((shared ten).restrict Orderly).Run Manager.init (twoObjects ++ [.call (.op 1 (.load calm))]) m ∧
      (∀ x o, m.objs x = some o → (o.status = .loaded ↔ 0 < o.rc)) := by
  have hrun : ((shared ten).restrict Orderly).Run Manager.init (twoObjects ++ [.call (.op 1 (.load calm))]) _ :=
    .cons ⟨nofun, trivial⟩ rfl <| .cons ⟨⟨_, rfl, trivial⟩, fun _ _ => trivial⟩ rfl <|
      .cons ⟨⟨_, rfl, trivial⟩, fun _ _ => trivial⟩ rfl <|
      .cons ⟨⟨_, rfl, Nat.succ_pos 0⟩, fun _ _ => trivial⟩ rfl <| .cons ⟨nofun, trivial⟩ rfl <|
      .cons ⟨⟨_, rfl, trivial⟩, fun _ _ => trivial⟩ rfl <| .nil _
  exact ⟨_, hrun, (status_matches_references _ hrun).1⟩

/-- The object's last reference is dropped with `SubObjRc` while it is in the queue: it stays
there as a clean object, and the pass that makes room for the next one stops the engine. -/
theorem dropped_column_met_by_pass :
    ∃ m o, (shared ten).Run Manager.init (twoObjects ++ [.call (.op 0 .subObjRc)]) m ∧
      m.objs 0 = some o ∧ o.status = .clean ∧ 0 ∈ m.gcLists (lruIdx ten 0) ∧
      (shared ten).enabled m (.call (.op 1 (.load calm))) ∧
      (shared ten).step m (.call (.op 1 (.load calm))) = .error (.attemptToFree 0 .clean) := by
  have hrun : (shared ten).Run Manager.init (twoObjects ++ [.call (.op 0 .subObjRc)]) _ :=
    .cons nofun rfl <| .cons ⟨_, rfl, trivial⟩ rfl <| .cons ⟨_, rfl, trivial⟩ rfl <|
      .cons ⟨_, rfl, Nat.succ_pos 0⟩ rfl <| .cons nofun rfl <| .cons ⟨_, rfl, trivial⟩ rfl <| .nil _
  exact ⟨_, _, hrun, rfl, rfl, by decide, ⟨_, rfl, trivial⟩, rfl⟩

end Infinity.Buffer.Pool
