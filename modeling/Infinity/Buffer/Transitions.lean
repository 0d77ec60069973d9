import Infinity.Buffer.Collection

/-! The transitions of a buffer object.

`Edge` lists what a call can do to the object it is made on: which status, type and counts it
takes and leaves, and whether the object is in the queue of its cache before and after. All
other objects keep what they have or are freed by a pass (`Turn`). `Account` says what becomes
of the memory counter, and `Cause` why a call stops: a pass meets a queued object that is not
unloaded, an unloaded object is not in its queue, or an object is larger than the memory in
use. `Op.ends` reads all this off the calls once; the invariants of the manager are proved
from it. -/
namespace Infinity.Buffer.Pool

open Lib Function

/-- What a call does to its object: from `o`, queued or not as `w` says, to `o'` and `w'`. -/
inductive Edge (o : BufferObj) (w : Prop) : Op → BufferObj → Prop → Prop
  | loadMmap {env : Env} (type : o.type = .mmap) (status : o.status ≠ .clean) :
      Edge o w (.load env) {o with status := .loaded, rc := o.rc + 1} w
  | loadLoaded {env : Env} (type : o.type ≠ .mmap) (status : o.status = .loaded) :
      Edge o w (.load env) {o with rc := o.rc + 1} w
  | loadUnloaded {env : Env} (type : o.type ≠ .mmap) (status : o.status = .unloaded) (queued : w) :
      Edge o w (.load env) {o with status := .loaded, rc := o.rc + 1} False
  | loadData {env : Env} (size : Nat) (type : o.type ≠ .mmap) (status : o.status = .freed ∨ o.status = .new)
      (data : o.data = false) :
      Edge o w (.load env) {o with data := true, size := size, status := .loaded, rc := o.rc + 1} w
  | loadInner (status : o.status = .loaded) : Edge o w .loadInner {o with rc := o.rc + 1} w
  | unload {env : Env} (status : o.status = .loaded) (rc : o.rc - 1 ≠ 0) :
      Edge o w (.unloadInner env) {o with rc := o.rc - 1} w
  | unloadToMmap {env : Env} (status : o.status = .loaded) (type : o.type = .toMmap) (data : o.data = true) :
      Edge o w (.unloadInner env) {o with data := false, rc := 0, status := .freed, type := .mmap} w
  | unloadMmap {env : Env} (status : o.status = .loaded) (type : o.type = .mmap) :
      Edge o w (.unloadInner env) {o with rc := 0, status := .unloaded} w
  | unloadLast {env : Env} (status : o.status = .loaded) (type : o.type ≠ .mmap) :
      Edge o w (.unloadInner env) {o with rc := 0, status := .unloaded} True
  | getMut {env : Env} (type : o.type ≠ .mmap) : Edge o w (.getMutPointer env) {o with type := .ephemeral} w
  | getMutMmap {env : Env} (size : Nat) (type : o.type = .mmap) (data : o.data = false) :
      Edge o w (.getMutPointer env) {o with data := true, size := size, type := .ephemeral} w
  | append {env : Env} {size : Nat} : Edge o w (.append env size) {o with size := o.size + size} w
  | save {env : Env} (type : o.type ≠ .mmap) : Edge o w (.save env) {o with type := .persistent} w
  | saveNothing {env : Env} : Edge o w (.save env) o w
  | pickOther (objRc : o.objRc ≠ 1) : Edge o w .pickForCleanup {o with objRc := o.objRc - 1} w
  | pickMmap (objRc : o.objRc = 1) (type : o.type = .mmap) :
      Edge o w .pickForCleanup {o with objRc := 0, status := .clean} w
  | pick (objRc : o.objRc = 1) (type : o.type ≠ .mmap) (status : o.status = .new ∨ o.status = .freed) :
      Edge o w .pickForCleanup {o with objRc := 0, status := .clean} w
  | pickUnloaded (objRc : o.objRc = 1) (type : o.type ≠ .mmap) (status : o.status = .unloaded) (data : o.data = true)
      (queued : w) : Edge o w .pickForCleanup {o with data := false, objRc := 0, status := .clean} False
  | toMmapAlready (type : o.type = .mmap) : Edge o w .toMmap o w
  | toMmapLoaded (type : o.type = .persistent) (status : o.status = .loaded) :
      Edge o w .toMmap {o with type := .toMmap} w
  | toMmapUnloaded (type : o.type = .persistent) (status : o.status = .unloaded) (data : o.data = true) :
      Edge o w .toMmap {o with data := false, status := .freed, type := .mmap} False
  | toMmapFreed (type : o.type = .persistent) (status : o.status = .freed) : Edge o w .toMmap {o with type := .mmap} w
  | addObjRc : Edge o w .addObjRc {o with objRc := o.objRc + 1} w
  | subOther (objRc : o.objRc ≠ 1) : Edge o w .subObjRc {o with objRc := o.objRc - 1} w
  | subLast (objRc : o.objRc = 1) : Edge o w .subObjRc {o with objRc := 0, status := .clean} w

variable (cfg : Config)

/-- What becomes of the memory counter: it stays, the memory of the object is given back, memory is
requested for the data that is read, a pass may follow the object into its queue, or memory is
requested for data that was appended. -/
inductive Account (id : Nat) (m : Manager) (o : BufferObj) : Op → Manager → BufferObj → Prop
  | same {op : Op} {m' : Manager} {o' : BufferObj} (objs : m'.objs = update m.objs id (some o'))
      (bufferId : m'.bufferId = m.bufferId) (current : m'.currentMemorySize = m.currentMemorySize)
      (held : held (some o') = held (some o)) : Account id m o op m' o'
  | release {op : Op} {m' : Manager} {o' : BufferObj} (objs : m'.objs = update m.objs id (some o'))
      (bufferId : m'.bufferId = m.bufferId) (current : m'.currentMemorySize = wordSub m.currentMemorySize o.size)
      (data : o.data = true) (data' : o'.data = false) : Account id m o op m' o'
  | request {env : Env} {op : Op} {m' : Manager} {o' : BufferObj} (isRead : op = .load env ∨ op = .getMutPointer env)
      (request : m.requestSpace cfg (env.lock id) o.size = .ok (m', true)) (data : o.data = false)
      (data' : o'.data = true) (size : (o.worker = .rawFile → env.fileSize id = o.size) →
        (o.status = .new → o.worker = .varFile → o.size = 0) → o'.size = o.size) :
      Account id m o op (m'.setObj id o') o'
  | push {env : Env} {m' : Manager} {o' : BufferObj} (held : held (some o') = held (some o))
      (push : (m.setObj id o').pushGCQueue cfg (env.lock id) id = .ok m') : Account id m o (.unloadInner env) m' o'
  | append {env : Env} {size : Nat} {m' : Manager} {ok : Bool}
      (request : (m.setObj id {o with size := o.size + size}).requestSpace cfg env size = .ok (m', ok)) :
      Account id m o (.append env size) m' {o with size := o.size + size}

/-- Why a call on the object `o` stops. -/
def Cause (m : Manager) (id : Nat) (o : BufferObj) : PoolFault → Prop
  | .attemptToFree x status => PassCause cfg m (.attemptToFree x status)
  | .notInGCQueue _ => o.status = .unloaded ∧ o.type ≠ .mmap ∧ ¬ m.Waiting cfg id
  | .memoryUnderflow _ _ => o.data = true ∧ m.currentMemorySize < o.size
  | _ => True

/-- A call on `id` leaves the other objects alone or frees them. -/
structure Turn (id : Nat) (m m' : Manager) : Prop where
  others : ∀ x, x ≠ id → Fate cfg m m' x
  shape : Shape cfg m'
  bufferId : m'.bufferId = m.bufferId

/-- After a call on `id` the object is `o'`, and in its queue as `w'` says. -/
structure Moved (id : Nat) (m m' : Manager) (o' : BufferObj) (w' : Prop) : Prop where
  turn : Turn cfg id m m'
  objs : m'.objs id = some o'
  waiting : m'.Waiting cfg id ↔ w'

/-- What a call on an object `o` has done. -/
def Does (id : Nat) (m m' : Manager) (o : BufferObj) (op : Op) : Prop :=
  ∃ o' w', Edge o (m.Waiting cfg id) op o' w' ∧ Moved cfg id m m' o' w' ∧ Account cfg id m o op m' o'

variable {cfg} {env : Env} {m m' m'' : Manager} {id : Nat} {o o' : BufferObj}

theorem PassCause.cause {e : PoolFault} (h : PassCause cfg m e) : Cause cfg m id o e := by
  cases e with
  | attemptToFree x status => exact h
  | notInGCQueue x => exact h.elim
  | memoryUnderflow a b => exact h.elim
  | _ => trivial

theorem PoolFault.Plain.cause {e : PoolFault} (h : e.Plain) : Cause cfg m id o e := h.passCause.cause

theorem Moved.of_queue {q : List Nat} {w : Prop} (hs : Shape cfg m) (ho : m.objs id = some o)
    (hobjs : m'.objs = update m.objs id (some o')) (hid : m'.bufferId = m.bufferId)
    (hrr : m'.roundRobin = m.roundRobin) (hgc : m'.gcLists = update m.gcLists (lruIdx cfg id) q)
    (hnd : q.Nodup) (hsub : ∀ x, x ≠ id → (x ∈ q ↔ x ∈ m.gcLists (lruIdx cfg id))) (hw : id ∈ q ↔ w) :
    Moved cfg id m m' o' w where
  turn :=
    { others := by
        intro x hx
        refine .inl ⟨by rw [hobjs, update_of_ne hx], ?_⟩
        simp only [Manager.Waiting, hgc]
        by_cases hi : lruIdx cfg x = lruIdx cfg id
        · rw [hi, update_self]
          exact hsub x hx
        · rw [update_of_ne hi]
      shape :=
        { known := by
            intro x p hp
            rw [hid]
            by_cases hx : x = id
            · exact hx ▸ hs.known id o ho
            · rw [hobjs, update_of_ne hx] at hp
              exact hs.known x p hp
          nodup := by
            intro k
            rw [hgc]
            by_cases hk : k = lruIdx cfg id
            · rwa [hk, update_self]
            · rw [update_of_ne hk]
              exact hs.nodup k
          shard := by
            intro k x hx
            rw [hgc] at hx
            by_cases hk : k = lruIdx cfg id
            · subst hk
              rw [update_self] at hx
              by_cases hxid : x = id
              · rw [hxid]
              · exact hs.shard _ x ((hsub x hxid).mp hx)
            · rw [update_of_ne hk] at hx
              exact hs.shard k x hx
          turn := hrr ▸ hs.turn }
      bufferId := hid }
  objs := by rw [hobjs, update_self]
  waiting := by
    simp only [Manager.Waiting, hgc, update_self]
    exact hw

theorem Moved.set (hs : Shape cfg m) (ho : m.objs id = some o) (hobjs : m'.objs = update m.objs id (some o'))
    (hid : m'.bufferId = m.bufferId) (hrr : m'.roundRobin = m.roundRobin) (hgc : m'.gcLists = m.gcLists) :
    Moved cfg id m m' o' (m.Waiting cfg id) :=
  .of_queue hs ho hobjs hid hrr (by rw [hgc, update_eq_self]) (hs.nodup _) (fun _ _ => Iff.rfl) Iff.rfl

theorem Moved.leave (hs : Shape cfg m) (ho : m.objs id = some o) (hobjs : m'.objs = update m.objs id (some o'))
    (hid : m'.bufferId = m.bufferId) (hrr : m'.roundRobin = m.roundRobin)
    (hgc : m'.gcLists = (m.dequeue (lruIdx cfg id) id).gcLists) : Moved cfg id m m' o' False :=
  .of_queue hs ho hobjs hid hrr hgc ((hs.nodup _).erase id) (fun _ hx => List.mem_erase_of_ne hx)
    (iff_false_intro (hs.nodup _).not_mem_erase)

theorem Moved.enter (hs : Shape cfg m) (ho : m.objs id = some o) (hobjs : m'.objs = update m.objs id (some o'))
    (hid : m'.bufferId = m.bufferId) (hrr : m'.roundRobin = m.roundRobin)
    (hgc : m'.gcLists = (m.enqueue (lruIdx cfg id) id).gcLists) : Moved cfg id m m' o' True := by
  refine .of_queue hs ho hobjs hid hrr hgc ?_ (fun x hx => ?_) (by simp)
  · refine ((hs.nodup _).erase id).append (List.nodup_singleton id) ?_
    exact List.disjoint_singleton.mpr (hs.nodup _).not_mem_erase
  · simp [hx]

theorem Collected.set {freed : Nat} (h : Collected cfg env m m' freed) (hl : env.locked id = true)
    (ho : m.objs id = some o) (hobjs : m''.objs = update m'.objs id (some o'))
    (hid : m''.bufferId = m'.bufferId) (hrr : m''.roundRobin = m'.roundRobin) (hgc : m''.gcLists = m'.gcLists) :
    Moved cfg id m m'' o' (m.Waiting cfg id) := by
  have hm : Moved cfg id m' m'' o' (m'.Waiting cfg id) := .set h.shape ((h.locked id hl).1.trans ho) hobjs hid hrr hgc
  exact ⟨⟨fun x hx => (h.fate x).trans (hm.turn.others x hx), hm.turn.shape, hm.turn.bufferId.trans h.bufferId⟩, hm.objs,
    hm.waiting.trans (h.locked id hl).2⟩

theorem Moved.collected {freed : Nat} {w : Prop} (hm : Moved cfg id m m' o' w) (h : Collected cfg env m' m'' freed)
    (hl : env.locked id = true) : Moved cfg id m m'' o' w :=
  ⟨⟨fun x hx => (hm.turn.others x hx).trans (h.fate x), h.shape, h.bufferId.trans hm.turn.bufferId⟩,
    (h.locked id hl).1.trans hm.objs, (h.locked id hl).2.trans hm.waiting⟩

theorem Env.lock_self (env : Env) (id : Nat) : (env.lock id).locked id = true := by simp [Env.lock]

/-! ### File workers and counters -/

theorem allocateInMemory_spec : Ends (o.allocateInMemory id) (fun o' => o.data = false ∧
    o' = {o with data := true, size := if o.worker = .varFile then 0 else o.size}) PoolFault.Plain := by
  unfold BufferObj.allocateInMemory
  split
  · trivial
  · rename_i hd
    exact ⟨by simpa using hd, rfl⟩

theorem readFromFile_spec {fileSize : Nat} : Ends (o.readFromFile id fileSize) (fun o' => o.data = false ∧
    o' = {o with data := true, size := if o.worker = .rawFile then fileSize else o.size}) PoolFault.Plain := by
  unfold BufferObj.readFromFile
  split
  · trivial
  · rename_i hd
    exact ⟨by simpa using hd, rfl⟩

theorem freeUnloadBuffer_spec (hd : o.data = true) (hcur : m'.currentMemorySize = m.currentMemorySize) :
    Ends (m'.freeUnloadBuffer o.size)
      (fun m'' => m'' = {m' with currentMemorySize := wordSub m'.currentMemorySize o.size}) (Cause cfg m id o) := by
  unfold Manager.freeUnloadBuffer
  split
  · rename_i hlt
    exact ⟨hd, hcur ▸ hlt⟩
  · rfl

theorem removeFromGCQueue_none (h : m.removeFromGCQueue cfg id = none) : ¬ m.Waiting cfg id := by
  simpa [Manager.removeFromGCQueue, Manager.Waiting] using h

theorem removeFromGCQueue_ok (h : m.removeFromGCQueue cfg id = some m') :
    m.Waiting cfg id ∧ m' = m.dequeue (lruIdx cfg id) id := by
  unfold Manager.removeFromGCQueue at h
  split at h
  · rename_i hq
    cases h
    exact ⟨hq, rfl⟩
  · cases h

/-- An object that is not in the queue leaves it as it is. -/
theorem removeFromGCQueue_getD : (m.removeFromGCQueue cfg id).getD m = m.dequeue (lruIdx cfg id) id := by
  unfold Manager.removeFromGCQueue
  split
  · rfl
  · rename_i hq
    simp [Manager.dequeue, List.erase_of_not_mem hq]

theorem removeTemp_spec : Ends (m.removeTemp id)
    (fun m' => m' = {m with tempSet := m.tempSet.erase id, cleanTempSet := id :: m.cleanTempSet}) PoolFault.Plain := by
  unfold Manager.removeTemp
  split
  · trivial
  · split
    · trivial
    · rfl

/-- Dropping the temporary file changes no object, no queue and no memory. -/
theorem removeTemp_ends {temp : Prop} [Decidable temp] {Q : Manager → Prop}
    (hQ : ∀ t c, Q {m' with tempSet := t, cleanTempSet := c}) :
    Ends (if temp then m'.removeTemp id else .ok m') Q (Cause cfg m id o) := by
  split
  · exact removeTemp_spec.imp (fun _ hm => hm ▸ hQ _ _) fun _ he => he.cause
  · exact hQ _ _

theorem moveTemp_spec : Ends (m.moveTemp id) (fun m' => m' = {m with tempSet := m.tempSet.erase id})
    PoolFault.Plain := by
  unfold Manager.moveTemp
  split
  · trivial
  · rfl

/-! ### The calls -/

section
variable (hs : Shape cfg m)
include hs

section
variable (ho : m.objs id = some o)
include ho

/-- Only the object changes, and it takes as much memory as before. -/
theorem Does.set {op : Op} (hedge : Edge o (m.Waiting cfg id) op o' (m.Waiting cfg id))
    (hobjs : m'.objs = update m.objs id (some o')) (hid : m'.bufferId = m.bufferId)
    (hrr : m'.roundRobin = m.roundRobin) (hgc : m'.gcLists = m.gcLists)
    (hcur : m'.currentMemorySize = m.currentMemorySize) (hheld : held (some o') = held (some o)) :
    Does cfg id m m' o op :=
  ⟨o', _, hedge, .set hs ho hobjs hid hrr hgc, .same hobjs hid hcur hheld⟩

theorem Does.keep {op : Op} (hedge : Edge o (m.Waiting cfg id) op o (m.Waiting cfg id)) : Does cfg id m m o op :=
  .set hs ho hedge (by rw [← ho, update_eq_self]) rfl rfl rfl rfl rfl

theorem Does.request {op : Op} (hedge : Edge o (m.Waiting cfg id) op o' (m.Waiting cfg id))
    (hread : op = .load env ∨ op = .getMutPointer env)
    (hreq : m.requestSpace cfg (env.lock id) o.size = .ok (m', true)) (hd : o.data = false) (hd' : o'.data = true)
    (hsize : (o.worker = .rawFile → env.fileSize id = o.size) →
      (o.status = .new → o.worker = .varFile → o.size = 0) → o'.size = o.size) :
    Does cfg id m (m'.setObj id o') o op := by
  obtain ⟨m₁, freed, hc, hm'⟩ := (requestSpace_spec _ hs).ok hreq
  dsimp only at hm'
  refine ⟨o', _, hedge, ?_, .request hread hreq hd hd' hsize⟩
  rw [hm']
  exact hc.set (env.lock_self id) ho rfl rfl rfl rfl

theorem load_ends : Ends (m.load cfg env id o) (Does cfg id m · o (.load env)) (Cause cfg m id o) := by
  unfold Manager.load
  split
  · rename_i htype
    split
    · trivial
    · rename_i hst
      exact .set hs ho (.loadMmap htype hst) rfl rfl rfl rfl rfl rfl
  rename_i htype
  split
  · rename_i hst
    exact .set hs ho (.loadLoaded htype hst) rfl rfl rfl rfl rfl rfl
  · rename_i hst
    split
    · rename_i hrem
      exact ⟨hst, htype, removeFromGCQueue_none hrem⟩
    · rename_i m₁ hrem
      obtain ⟨hq, rfl⟩ := removeFromGCQueue_ok hrem
      exact ⟨_, _, .loadUnloaded htype hst hq, .leave hs ho rfl rfl rfl rfl, .same rfl rfl rfl rfl⟩
  · rename_i hst
    split
    · rename_i e he
      exact ((requestSpace_spec _ hs).error he).cause
    · trivial
    · rename_i m₁ hreq
      split
      · trivial
      split
      · rename_i e he
        exact (readFromFile_spec.error he).cause
      · rename_i p hp
        obtain ⟨hd, rfl⟩ := readFromFile_spec.ok hp
        exact .request hs ho (.loadData _ htype (.inl hst) hd) (.inl rfl) hreq hd rfl fun hraw _ => by simpa using hraw
  · rename_i hst
    split
    · rename_i e he
      exact ((requestSpace_spec _ hs).error he).cause
    · trivial
    · rename_i m₁ hreq
      split
      · rename_i e he
        exact (allocateInMemory_spec.error he).cause
      rename_i p hp
      obtain ⟨hd, rfl⟩ := allocateInMemory_spec.ok hp
      exact .request hs ho (.loadData _ htype (.inr hst) hd) (.inl rfl) hreq hd rfl
        fun _ hempty => by simpa using fun hvar => (hempty hst hvar).symm
  · trivial

/-- Entering the queue and being changed afterwards is entering it changed: a pass does not
look at the object, which is locked. -/
theorem pushGCQueue_setObj : (m.setObj id o').pushGCQueue cfg (env.lock id) id =
      (m.pushGCQueue cfg (env.lock id) id).map (·.setObj id o') := by
  have hpush : Moved cfg id m (m.enqueue (lruIdx cfg id) id) o True :=
    .enter hs ho (by rw [← ho, update_eq_self]; rfl) rfl rfl rfl
  have hset (n : Nat) : ((m.enqueue (lruIdx cfg id) id).setObj id o').requestSpace cfg (env.lock id) n = _ :=
    requestSpace_setObj hpush.turn.shape (.inl (env.lock_self id)) hpush.objs
  unfold Manager.pushGCQueue
  rw [show (m.setObj id o').enqueue (lruIdx cfg id) id = (m.enqueue (lruIdx cfg id) id).setObj id o' from rfl]
  simp only [show ∀ m : Manager, (m.setObj id o').currentMemorySize = m.currentMemorySize from fun _ => rfl, hset]
  split
  · cases (m.enqueue (lruIdx cfg id) id).requestSpace cfg (env.lock id) _ with
    | error e => rfl
    | ok r => rfl
  · rfl

theorem pushGCQueue_ends (hst : o'.status = .unloaded) :
    Ends ((m.setObj id o').pushGCQueue cfg (env.lock id) id) (Moved cfg id m · o' True) (Cause cfg m id o) := by
  have hpush : Moved cfg id m ((m.setObj id o').enqueue (lruIdx cfg id) id) o' True := .enter hs ho rfl rfl rfl rfl
  unfold Manager.pushGCQueue
  simp only
  split
  · split
    · rename_i e he
      have hcause := (requestSpace_spec _ hpush.turn.shape).error he
      cases e with
      | attemptToFree x status =>
        -- the object itself is unloaded, so that it is another one the pass met
        obtain ⟨hw, p, hp, hpst, hne⟩ := hcause
        have hx : x ≠ id := by
          rintro rfl
          rw [hpush.objs] at hp
          cases hp
          exact hne (hpst.symm.trans hst)
        obtain ⟨hobjs, hwait⟩ | ⟨_, _, _, _, _, _, _, hout⟩ := hpush.turn.others x hx
        · exact ⟨hwait.mp hw, p, hobjs ▸ hp, hpst, hne⟩
        · exact absurd hw hout
      | notInGCQueue x => exact hcause.elim
      | memoryUnderflow a b => exact hcause.elim
      | _ => trivial
    · rename_i m₁ ok hreq
      obtain ⟨m₂, freed, hc, hm⟩ := (requestSpace_spec _ hpush.turn.shape).ok hreq
      have hmoved := hpush.collected hc (env.lock_self id)
      dsimp only at hm
      rw [hm]
      exact ⟨⟨hmoved.turn.others, ⟨hc.shape.known, hc.shape.nodup, hc.shape.shard, hc.shape.turn⟩, hmoved.turn.bufferId⟩,
        hmoved.objs, hmoved.waiting⟩
  · exact hpush

/-- Releasing the last handle of an object that is not mapped is entering the queue unloaded. -/
theorem unloadInner_last (hst : o.status = .loaded) (hrc : o.rc - 1 = 0)
    (hmm : o.type ≠ .mmap) (htm : o.type ≠ .toMmap) :
    m.unloadInner cfg env id o =
      (m.setObj id {o with rc := 0, status := .unloaded}).pushGCQueue cfg (env.lock id) id := by
  have h₀ : m.setObj id {o with rc := 0, status := .unloaded} =
      (m.setObj id {o with rc := 0}).setObj id {o with rc := 0, status := .unloaded} := by
    simp [Manager.setObj]
  have hs₀ : Moved cfg id m (m.setObj id {o with rc := 0}) {o with rc := 0} (m.Waiting cfg id) :=
    .set hs ho rfl rfl rfl rfl
  rw [h₀, pushGCQueue_setObj hs₀.turn.shape hs₀.objs]
  unfold Manager.unloadInner
  rw [if_neg (not_not.mpr hst), if_neg (not_not.mpr hrc)]
  split
  · exact absurd ‹o.type = .toMmap› htm
  · exact absurd ‹o.type = .mmap› hmm
  · cases (m.setObj id {o with rc := 0}).pushGCQueue cfg (env.lock id) id with
    | error e => rfl
    | ok r => rfl

theorem unloadInner_ends : Ends (m.unloadInner cfg env id o) (Does cfg id m · o (.unloadInner env)) (Cause cfg m id o) := by
  by_cases hlast : o.status = .loaded ∧ o.rc - 1 = 0 ∧ o.type ≠ .mmap ∧ o.type ≠ .toMmap
  · obtain ⟨hst, hrc, hmm, htm⟩ := hlast
    rw [unloadInner_last hs ho hst hrc hmm htm]
    have hends : Ends ((m.setObj id {o with rc := 0, status := .unloaded}).pushGCQueue cfg (env.lock id) id) _ _ :=
      pushGCQueue_ends hs ho rfl
    cases hpush : (m.setObj id {o with rc := 0, status := .unloaded}).pushGCQueue cfg (env.lock id) id with
    | error e => exact hends.error hpush
    | ok m' => exact ⟨_, _, .unloadLast hst hmm, hends.ok hpush, .push rfl hpush⟩
  · unfold Manager.unloadInner
    split
    · trivial
    rename_i hst
    have hst := not_not.mp hst
    split
    · rename_i hrc
      exact .set hs ho (.unload hst hrc) rfl rfl rfl rfl rfl rfl
    rename_i hrc
    split
    · rename_i htm
      split
      · rename_i e he
        exact (freeInMemory_spec.error he).cause
      rename_i p hp
      obtain ⟨hd, rfl⟩ := freeInMemory_spec.ok hp
      have hspec : Ends (m.freeUnloadBuffer o.size) _ (Cause cfg m id o) := freeUnloadBuffer_spec hd rfl
      split
      · rename_i e he
        exact hspec.error he
      rename_i m₁ hm₁
      obtain rfl := hspec.ok hm₁
      exact ⟨_, _, .unloadToMmap hst htm hd, .set hs ho rfl rfl rfl rfl, .release rfl rfl rfl hd rfl⟩
    · rename_i hmm
      exact .set hs ho (.unloadMmap hst hmm) rfl rfl rfl rfl rfl rfl
    · rename_i htm hmm
      exact absurd ⟨hst, not_not.mp hrc, hmm, htm⟩ hlast

theorem getMutPointer_ends :
    Ends (m.getMutPointer cfg env id o) (Does cfg id m · o (.getMutPointer env)) (Cause cfg m id o) := by
  unfold Manager.getMutPointer
  split
  · rename_i htype
    split
    · rename_i e he
      exact (removeTemp_spec.error he).cause
    · rename_i m₁ hm₁
      obtain rfl := removeTemp_spec.ok hm₁
      exact .set hs ho (.getMut (by simp [htype])) rfl rfl rfl rfl rfl rfl
  · rename_i htype
    split
    · rename_i e he
      exact ((requestSpace_spec _ hs).error he).cause
    · trivial
    · rename_i m₁ hreq
      split
      · rename_i e he
        exact (readFromFile_spec.error he).cause
      · rename_i p hp
        obtain ⟨hd, rfl⟩ := readFromFile_spec.ok hp
        exact .request hs ho (.getMutMmap _ htype hd) (.inr rfl) hreq hd rfl fun hraw _ => by simpa using hraw
  · rename_i hmm
    exact .set hs ho (.getMut hmm) rfl rfl rfl rfl rfl rfl

/-- The object data is appended to is in use, so that the pass leaves it. -/
theorem append_ends {size : Nat} : Ends (m.append cfg env id o size)
    (fun m' => o.status ≠ .unloaded → Does cfg id m m' o (.append env size)) (Cause cfg m id o) := by
  have hset : Moved cfg id m (m.setObj id {o with size := o.size + size}) _ (m.Waiting cfg id) :=
    .set hs ho rfl rfl rfl rfl
  unfold Manager.append
  split
  · trivial
  split
  · rename_i e he
    have hcause := (requestSpace_spec _ hset.turn.shape).error he
    cases e with
    | attemptToFree x status =>
      obtain ⟨hw, p, hp, hst⟩ := hcause
      by_cases hx : x = id
      · subst hx
        rw [hset.objs] at hp
        cases hp
        exact ⟨hw, o, ho, hst⟩
      · exact ⟨hw, p, by simpa [Manager.setObj, hx] using hp, hst⟩
    | notInGCQueue x => exact hcause.elim
    | memoryUnderflow a b => exact hcause.elim
    | _ => trivial
  · rename_i m₁ ok hreq
    intro hst
    obtain ⟨m₂, freed, hc, hm⟩ := (requestSpace_spec _ hset.turn.shape).ok hreq
    dsimp only at hm
    have hkept : Kept cfg (m.setObj id {o with size := o.size + size}) m₂ id := by
      obtain hk | ⟨p, _, hp, hpst, _⟩ := hc.fate id
      · exact hk
      · rw [hset.objs] at hp
        cases hp
        exact absurd hpst hst
    refine ⟨_, _, .append, ⟨⟨fun x hx => ?_, ?_, ?_⟩, ?_, ?_⟩, .append hreq⟩ <;> rw [hm]
    · exact (hset.turn.others x hx).trans (hc.fate x)
    · exact ⟨hc.shape.known, hc.shape.nodup, hc.shape.shard, hc.shape.turn⟩
    · exact hc.bufferId
    · exact hkept.1.trans hset.objs
    · exact hkept.2.trans hset.waiting

theorem save_ends : Ends (m.save env id o) (Does cfg id m · o (.save env)) (Cause cfg m id o) := by
  unfold Manager.save
  split
  · rename_i htype
    have hsaved : Does cfg id m (if env.allSave id then m.setObj id {o with type := .persistent} else m) o (.save env) := by
      split
      · exact .set hs ho (.save (by simp [htype])) rfl rfl rfl rfl rfl rfl
      · exact .keep hs ho .saveNothing
    split
    · exact hsaved
    · exact hsaved
    · exact .keep hs ho .saveNothing
    · trivial
  · rename_i htype
    split
    · rename_i e he
      exact (moveTemp_spec.error he).cause
    · rename_i m₁ hm₁
      obtain rfl := moveTemp_spec.ok hm₁
      exact .set hs ho (.save (by simp [htype])) rfl rfl rfl rfl rfl rfl
  · trivial
  · exact .keep hs ho .saveNothing

theorem pickForCleanup_ends :
    Ends (m.pickForCleanup cfg id o) (Does cfg id m · o .pickForCleanup) (Cause cfg m id o) := by
  unfold Manager.pickForCleanup
  split
  · trivial
  split
  · exact .set hs ho (.pickOther (by omega)) rfl rfl rfl rfl rfl rfl
  have hrc : o.objRc = 1 := by omega
  split
  · rename_i htype
    exact .set hs ho (.pickMmap hrc htype) rfl rfl rfl rfl rfl rfl
  rename_i htype
  unfold Manager.pickForCleanup.pick
  cases hst : o.status with
  | new => exact removeTemp_ends fun _ _ => .set hs ho (.pick hrc htype (.inl hst)) rfl rfl rfl rfl rfl rfl
  | freed => exact removeTemp_ends fun _ _ => .set hs ho (.pick hrc htype (.inr hst)) rfl rfl rfl rfl rfl rfl
  | loaded => trivial
  | clean => trivial
  | unloaded =>
    dsimp only
    cases hp : o.freeInMemory id with
    | error e => exact (freeInMemory_spec.error hp).cause
    | ok p =>
      obtain ⟨hd, rfl⟩ := freeInMemory_spec.ok hp
      unfold Manager.addToCleanListFree
      have hspec : Ends ((m.addToCleanList id).freeUnloadBuffer o.size) _ (Cause cfg m id o) :=
        freeUnloadBuffer_spec hd rfl
      cases hfree : (m.addToCleanList id).freeUnloadBuffer o.size with
      | error e => exact hspec.error hfree
      | ok m₁ =>
        obtain rfl := hspec.ok hfree
        dsimp only
        cases hrem : Manager.removeFromGCQueue cfg _ id with
        | none => exact ⟨hst, htype, fun hq => removeFromGCQueue_none hrem hq⟩
        | some m₂ =>
          obtain ⟨hq, rfl⟩ := removeFromGCQueue_ok hrem
          exact removeTemp_ends fun _ _ =>
            ⟨_, _, .pickUnloaded hrc htype hst hd hq, .leave hs ho rfl rfl rfl rfl, .release rfl rfl rfl hd rfl⟩

theorem toMmap_ends : Ends (m.toMmap cfg id o) (Does cfg id m · o .toMmap) (Cause cfg m id o) := by
  unfold Manager.toMmap
  split
  · rename_i htype
    exact .keep hs ho (.toMmapAlready htype)
  · rename_i htype
    split
    · rename_i hst
      exact .set hs ho (.toMmapLoaded htype hst) rfl rfl rfl rfl rfl rfl
    · rename_i hst
      dsimp only
      rw [removeFromGCQueue_getD]
      cases hp : o.freeInMemory id with
      | error e => exact (freeInMemory_spec.error hp).cause
      | ok p =>
        obtain ⟨hd, rfl⟩ := freeInMemory_spec.ok hp
        have hspec : Ends ((m.dequeue (lruIdx cfg id) id).freeUnloadBuffer o.size) _ (Cause cfg m id o) :=
          freeUnloadBuffer_spec hd rfl
        cases hfree : (m.dequeue (lruIdx cfg id) id).freeUnloadBuffer o.size with
        | error e => exact hspec.error hfree
        | ok m₁ =>
          obtain rfl := hspec.ok hfree
          exact ⟨_, _, .toMmapUnloaded htype hst hd, .leave hs ho rfl rfl rfl rfl, .release rfl rfl rfl hd rfl⟩
    · rename_i hst
      exact .set hs ho (.toMmapFreed htype hst) rfl rfl rfl rfl rfl rfl
    · trivial
  · trivial

/-- Data is appended to an object that is in use. -/
def Op.Steady (o : BufferObj) : Op → Prop
  | .append _ _ => o.status ≠ .unloaded
  | _ => True

/-- **Every call takes one of the transitions**, or its error has a cause in the object, its queue or
the memory counter. -/
theorem Op.ends {op : Op} : Ends (op.apply cfg m id o) (fun m' => op.Steady o → Does cfg id m m' o op)
    (Cause cfg m id o) := by
  cases op with
  | load env => exact (load_ends hs ho).imp (fun _ h _ => h) fun _ h => h
  | loadInner =>
    simp only [Op.apply, Manager.loadInner]
    split
    · trivial
    · rename_i hld
      exact fun _ => .set hs ho (.loadInner (not_not.mp hld)) rfl rfl rfl rfl rfl rfl
  | unloadInner env => exact (unloadInner_ends hs ho).imp (fun _ h _ => h) fun _ h => h
  | getMutPointer env => exact (getMutPointer_ends hs ho).imp (fun _ h _ => h) fun _ h => h
  | append env size => exact append_ends hs ho
  | save env => exact (save_ends hs ho).imp (fun _ h _ => h) fun _ h => h
  | pickForCleanup => exact (pickForCleanup_ends hs ho).imp (fun _ h _ => h) fun _ h => h
  | toMmap => exact (toMmap_ends hs ho).imp (fun _ h _ => h) fun _ h => h
  | addObjRc => exact fun _ => .set hs ho .addObjRc rfl rfl rfl rfl rfl rfl
  | subObjRc =>
    simp only [Op.apply, Manager.subObjRc]
    split
    · trivial
    split
    · exact fun _ => .set hs ho (.subLast (by omega)) rfl rfl rfl rfl rfl rfl
    · exact fun _ => .set hs ho (.subOther (by omega)) rfl rfl rfl rfl rfl rfl

end

end

/-! ### Cleaning up -/

theorem cleanupFiles_spec (l : List Nat) : Ends (m.cleanupFiles l)
    (fun _ => ∀ x ∈ l, ∃ o, m.objs x = some o ∧ o.status = .clean ∧ o.data = false) PoolFault.Plain := by
  induction l with
  | nil => exact List.forall_mem_nil _
  | cons y rest ih =>
    simp only [Manager.cleanupFiles]
    split
    · trivial
    rename_i o ho
    split
    · trivial
    rename_i hst
    split
    · trivial
    rename_i hd
    exact ih.imp (fun _ h => List.forall_mem_cons.mpr ⟨⟨o, ho, not_not.mp hst, by simpa using hd⟩, h⟩) fun _ h => h

theorem eraseObjs_spec (l : List Nat) : Ends (m.eraseObjs l)
    (fun m' => m' = {m with objs := fun x => if x ∈ l then none else m.objs x}) PoolFault.Plain := by
  induction l generalizing m with
  | nil => simp [Manager.eraseObjs, Ends]
  | cons y rest ih =>
    simp only [Manager.eraseObjs]
    split
    · trivial
    refine ih.imp (fun m' hm' => ?_) fun _ h => h
    rw [hm']
    congr 1
    funext x
    by_cases hx : x = y
    · simp [hx]
    · by_cases hr : x ∈ rest <;> simp [hx]

theorem removeClean_spec : Ends m.removeClean (fun m' =>
    (∀ x ∈ m.cleanList, ∃ o, m.objs x = some o ∧ o.status = .clean ∧ o.data = false) ∧
      m' = {m with objs := fun x => if x ∈ m.cleanList then none else m.objs x
                   gcLists := fun k => (m.gcLists k).filter (· ∉ m.cleanList)
                   cleanList := [], cleanTempSet := []}) PoolFault.Plain := by
  unfold Manager.removeClean
  split
  · rename_i e he
    exact (cleanupFiles_spec _).error he
  · rename_i hclean
    exact (eraseObjs_spec _).imp (fun _ h => ⟨(cleanupFiles_spec _).ok hclean, h⟩) fun _ h => h

theorem Shape.fresh (hs : Shape cfg m) : m.objs m.bufferId = none :=
  Option.eq_none_iff_forall_ne_some.mpr fun o ho => absurd (hs.known _ o ho) (lt_irrefl _)

/-! ### Invariants of all objects -/

/-- Every object has `P`, which may depend on whether it is queued, and only objects are queued. -/
structure Everywhere (cfg : Config) (P : BufferObj → Prop → Prop) (m : Manager) : Prop where
  shape : Shape cfg m
  each : ∀ x o, m.objs x = some o → P o (m.Waiting cfg x)
  gone : ∀ x, m.objs x = none → ¬ m.Waiting cfg x

/-- `P` holds of an unloaded object after a pass has freed it. -/
def SurvivesPass (P : BufferObj → Prop → Prop) : Prop :=
  ∀ o w type, P o w → o.status = .unloaded → type ≠ .mmap → P {o with type := type, status := .freed, data := false} False

namespace Everywhere

variable {P : BufferObj → Prop → Prop}

theorem init : Everywhere cfg P Manager.init :=
  ⟨⟨nofun, fun _ => .nil, nofun, cfg.lruCount_pos⟩, nofun, fun _ _ => nofun⟩

section
variable (h : Everywhere cfg P m)
include h

theorem fate {x : Nat} (hP : SurvivesPass P) (hf : Fate cfg m m' x) :
    (∀ o, m'.objs x = some o → P o (m'.Waiting cfg x)) ∧ (m'.objs x = none → ¬ m'.Waiting cfg x) := by
  obtain ⟨hobjs, hw⟩ | ⟨p, type, hp, hst, -, htype, hobjs, hw⟩ := hf
  · rw [hobjs, propext hw]
    exact ⟨h.each x, h.gone x⟩
  rw [hobjs, eq_false hw]
  refine ⟨fun o ho => ?_, nofun⟩
  cases ho
  exact hP p _ type (h.each x p hp) hst htype

theorem collected {freed : Nat} (hP : SurvivesPass P) (hc : Collected cfg env m m' freed) : Everywhere cfg P m' :=
  ⟨hc.shape, fun x => (h.fate hP (hc.fate x)).1, fun x => (h.fate hP (hc.fate x)).2⟩

theorem moved {w : Prop} (hP : SurvivesPass P) (hm : Moved cfg id m m' o' w) (ho' : P o' w) : Everywhere cfg P m' := by
  have hall (x : Nat) : (∀ o, m'.objs x = some o → P o (m'.Waiting cfg x)) ∧ (m'.objs x = none → ¬ m'.Waiting cfg x) := by
    by_cases hx : x = id
    · subst hx
      rw [hm.objs, propext hm.waiting]
      refine ⟨fun o ho => ?_, nofun⟩
      cases ho
      exact ho'
    · exact h.fate hP (hm.turn.others x hx)
  exact ⟨hm.turn.shape, fun x => (hall x).1, fun x => (hall x).2⟩

/-- A new object takes the next number. -/
theorem made (hobjs : m'.objs = update m.objs m.bufferId (some o')) (hid : m'.bufferId = m.bufferId + 1)
    (hgc : m'.gcLists = m.gcLists) (hrr : m'.roundRobin = m.roundRobin) (ho' : P o' False) : Everywhere cfg P m' := by
  have hw (x : Nat) : m'.Waiting cfg x = m.Waiting cfg x := by rw [Manager.Waiting, hgc, Manager.Waiting]
  refine ⟨⟨fun x o ho => ?_, hgc ▸ h.shape.nodup, hgc ▸ h.shape.shard, hrr ▸ h.shape.turn⟩, fun x o ho => ?_, fun x ho => ?_⟩ <;>
    by_cases hx : x = m.bufferId
  · omega
  · rw [hobjs, update_of_ne hx] at ho
    exact hid ▸ Nat.lt_succ_of_lt (h.shape.known x o ho)
  · subst hx
    rw [hobjs, update_self] at ho
    cases ho
    rw [hw, eq_false (h.gone _ h.shape.fresh)]
    exact ho'
  · rw [hobjs, update_of_ne hx] at ho
    exact hw x ▸ h.each x o ho
  · simp [hobjs, hx] at ho
  · rw [hobjs, update_of_ne hx] at ho
    exact hw x ▸ h.gone x ho

theorem removeClean (hok : m.removeClean = .ok m') : Everywhere cfg P m' := by
  obtain ⟨-, rfl⟩ := removeClean_spec.ok hok
  have hobjs (x : Nat) (o : BufferObj) : (if x ∈ m.cleanList then none else m.objs x) = some o ↔
      m.objs x = some o ∧ x ∉ m.cleanList := by
    by_cases hx : x ∈ m.cleanList <;> simp [hx]
  refine ⟨⟨fun x o ho => h.shape.known x o ((hobjs x o).mp ho).1, fun k => (h.shape.nodup k).filter _,
    fun k x hx => h.shape.shard k x (List.mem_of_mem_filter hx), h.shape.turn⟩, fun x o ho => ?_, fun x ho hq => ?_⟩
  · obtain ⟨ho, hx⟩ := (hobjs x o).mp ho
    simpa [Manager.Waiting, hx] using h.each x o ho
  · obtain ⟨hq, hx⟩ : m.Waiting cfg x ∧ x ∉ m.cleanList := by simpa [Manager.Waiting] using hq
    exact h.gone x (by simpa [hx] using ho) hq

end

end Everywhere

/-- A call that is allowed appends to an object in use. -/
theorem Op.Allowed.steady {op : Op} (h : op.Allowed o) (hidle : o.status = .unloaded → o.rc = 0) : op.Steady o := by
  cases op with
  | append env size => exact fun hst => absurd (hidle hst) h.1.ne'
  | _ => trivial

end Infinity.Buffer.Pool
