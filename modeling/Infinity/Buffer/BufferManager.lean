import Infinity.Lib.Machine

/-! The buffer manager and its objects.

A buffer object is loaded while handles to it exist. When the last handle is gone it stays
in memory, unloaded, in the queue of one of the LRU caches, until it is loaded again, freed
to make room, or cleaned up with the catalog entry it belongs to. An object whose data is
mapped into memory takes no space of the manager's and is in no queue.

The manager counts the memory in use. `RequestSpace` reserves space for a buffer, freeing
unloaded objects when there is too little. Objects are numbered as the manager makes them,
and an object belongs to the LRU cache with its number modulo the number of caches. Calls are
atomic: each holds the lock of its object. `Env` has what is decided elsewhere: which objects
other threads have locked, so that they cannot be freed now, whether an object was written to
its file completely, and the size of its file. Sizes are 64-bit words. -/
namespace Infinity.Buffer.Pool

open Lib

inductive BufferStatus where
  | loaded
  | unloaded
  | freed
  | new
  | clean
  deriving DecidableEq, Repr

inductive BufferType where
  | persistent
  | ephemeral
  | temp
  | mmap
  | toMmap
  deriving DecidableEq, Repr

/-- The ways a call stops the engine. -/
inductive PoolFault where
  /-- "Invalid status: {}" -/
  | invalidStatus (id : Nat) (status : BufferStatus)
  /-- "Invalid buffer type: {}" -/
  | invalidType (id : Nat) (type : BufferType)
  /-- "Out of memory." -/
  | outOfMemory
  /-- "attempt to buffer: {} status is UNLOADED, but not in GC queue" -/
  | notInGCQueue (id : Nat)
  /-- "attempt to free {} buffer object" -/
  | attemptToFree (id : Nat) (status : BufferStatus)
  /-- "Spill to file failed: {}" -/
  | spillFailed (id : Nat)
  /-- "Data is already freed." -/
  | alreadyFreed (id : Nat)
  /-- "Data is already allocated." -/
  | alreadyAllocated (id : Nat)
  /-- "SubObjRc: obj_rc_ is 0, buffer: {}" -/
  | objRcZero (id : Nat)
  /-- "memory_size < buffer_size: {} < {}" -/
  | memoryUnderflow (memorySize bufferSize : Nat)
  /-- "Buffer is not freed." -/
  | notFreed (id : Nat)
  /-- "BufferManager::AddTemp: file {} already exists." -/
  | alreadyTemp (id : Nat)
  /-- "BufferManager::RemoveTemp: file {} not found." -/
  | notTemp (id : Nat)
  /-- "BufferManager::RemoveTemp: file {} already exists in clean temp set." -/
  | alreadyCleanTemp (id : Nat)
  /-- "BufferManager::RemoveClean: file {} not found." -/
  | notInBufferMap (id : Nat)
  /-- "Invalid file worker type" -/
  | invalidFileWorker (id : Nat)
  /-- A pointer to an object that is no more. -/
  | noSuchObject (id : Nat)
  deriving DecidableEq, Repr

inductive FileWorkerType where
  | dataFile
  | varFile
  | ivfIndexFile
  | hnswIndexFile
  | rawFile
  | secondaryIndexFile
  | versionDataFile
  | indexFile
  | emvbIndexFile
  | bmpIndexFile
  deriving DecidableEq, Repr

/-- A `BufferObj` with what its file worker says: the type of the worker, the memory cost,
and whether it has data in memory. -/
structure BufferObj where
  status : BufferStatus
  type : BufferType
  rc : Nat
  objRc : Nat
  worker : FileWorkerType
  size : Nat
  data : Bool
  deriving DecidableEq, Repr

/-- The size of a `SizeT`. -/
def word : Nat := 2 ^ 64

/-- The sum of two words, which wraps around. -/
def wordAdd (a b : Nat) : Nat := if a + b < word then a + b else a + b - word

/-- The difference of two words, which wraps around. -/
def wordSub (a b : Nat) : Nat := if b ≤ a then a - b else a + word - b

structure Config where
  memoryLimit : Nat
  lruCount : Nat
  memoryLimit_lt : memoryLimit < word
  lruCount_pos : 0 < lruCount

structure Env where
  locked : Nat → Bool
  allSave : Nat → Bool
  fileSize : Nat → Nat

/-- The caller holds the lock of its own object. -/
def Env.lock (env : Env) (id : Nat) : Env := {env with locked := fun x => x = id || env.locked x}

structure Manager where
  objs : Nat → Option BufferObj
  bufferId : Nat
  gcLists : Nat → List Nat
  roundRobin : Nat
  currentMemorySize : Nat
  cleanList : List Nat
  tempSet : List Nat
  cleanTempSet : List Nat

namespace BufferObj

def freeInMemory (o : BufferObj) (id : Nat) : Except PoolFault BufferObj :=
  if o.data then .ok {o with data := false} else .error (.alreadyFreed id)

/-- `FileWorker::AllocateInMemory`: a new `VarBuffer` is empty. -/
def allocateInMemory (o : BufferObj) (id : Nat) : Except PoolFault BufferObj :=
  if o.data then .error (.alreadyAllocated id)
  else .ok {o with data := true, size := if o.worker = .varFile then 0 else o.size}

/-- `FileWorker::ReadFromFile`: a raw file is read as it is, whatever size was expected. -/
def readFromFile (o : BufferObj) (id fileSize : Nat) : Except PoolFault BufferObj :=
  if o.data then .error (.alreadyAllocated id)
  else .ok {o with data := true, size := if o.worker = .rawFile then fileSize else o.size}

end BufferObj

variable (cfg : Config)

/-- `BufferManager::LRUIdx`; the id of an object is a `u32`. -/
def lruIdx (id : Nat) : Nat := id % 2 ^ 32 % cfg.lruCount

namespace Manager

def setObj (m : Manager) (id : Nat) (o : BufferObj) : Manager := {m with objs := Function.update m.objs id (some o)}

/-! ### Temporary files -/

def addTemp (m : Manager) (id : Nat) : Except PoolFault Manager :=
  if id ∈ m.tempSet then .error (.alreadyTemp id)
  else .ok {m with tempSet := id :: m.tempSet, cleanTempSet := m.cleanTempSet.erase id}

def removeTemp (m : Manager) (id : Nat) : Except PoolFault Manager :=
  if id ∉ m.tempSet then .error (.notTemp id)
  else if id ∈ m.cleanTempSet then .error (.alreadyCleanTemp id)
  else .ok {m with tempSet := m.tempSet.erase id, cleanTempSet := id :: m.cleanTempSet}

def moveTemp (m : Manager) (id : Nat) : Except PoolFault Manager :=
  if id ∉ m.tempSet then .error (.notTemp id) else .ok {m with tempSet := m.tempSet.erase id}

/-! ### Making room -/

/-- The part of `BufferObj::Free` that depends on the type of the object: an ephemeral
object becomes a temporary file. -/
def spill (m : Manager) (env : Env) (id : Nat) (type : BufferType) : Except PoolFault (Manager × BufferType) :=
  match type with
  | .temp => .ok (m, .temp)
  | .persistent => .ok (m, .persistent)
  | .ephemeral =>
    if env.allSave id then
      match m.addTemp id with
      | .error e => .error e
      | .ok m => .ok (m, .temp)
    else .error (.spillFailed id)
  | type => .error (.invalidType id type)

/-- `BufferObj::Free`: nothing happens to an object that another thread has locked. -/
def free (m : Manager) (env : Env) (id : Nat) : Except PoolFault (Option Manager) :=
  match m.objs id with
  | none => .error (.noSuchObject id)
  | some o =>
    if env.locked id then .ok none
    else if o.status ≠ .unloaded then .error (.attemptToFree id o.status)
    else
      match m.spill env id o.type with
      | .error e => .error e
      | .ok (m, type) =>
        match o.freeInMemory id with
        | .error e => .error e
        | .ok o => .ok (some (m.setObj id {o with type := type, status := .freed}))

def dequeue (m : Manager) (k id : Nat) : Manager :=
  {m with gcLists := Function.update m.gcLists k ((m.gcLists k).erase id)}

/-- The loop of `LRUCache::RequestSpace` over the queue of the cache `k`. -/
def lruLoop (env : Env) (k needSpace : Nat) : Manager → Nat → List Nat → Except PoolFault (Manager × Nat)
  | m, freeSpace, [] => .ok (m, freeSpace)
  | m, freeSpace, id :: rest =>
    if freeSpace < needSpace then
      match m.free env id with
      | .error e => .error e
      | .ok none => lruLoop env k needSpace m freeSpace rest
      | .ok (some m') =>
        lruLoop env k needSpace (m'.dequeue k id) (wordAdd freeSpace ((m'.objs id).elim 0 BufferObj.size)) rest
    else .ok (m, freeSpace)

/-- The loop of `BufferManager::RequestSpace`, cache after cache until it is back at the
first. `turns` is the number of caches that have not been asked. -/
def requestLoop (env : Env) (needSize freeSpace start : Nat) : Nat → Manager → Nat → Except PoolFault (Manager × Nat)
  | 0, m, freedSpace => .ok (m, freedSpace)
  | turns + 1, m, freedSpace =>
    match lruLoop env m.roundRobin needSize m 0 (m.gcLists m.roundRobin) with
    | .error e => .error e
    | .ok (m', freed) =>
      let freedSpace := wordAdd freedSpace freed
      let m' := {m' with roundRobin := (m.roundRobin + 1) % cfg.lruCount}
      if wordAdd freedSpace freeSpace < needSize ∧ m'.roundRobin ≠ start then
        requestLoop env needSize freeSpace start turns m' freedSpace
      else .ok (m', freedSpace)

def requestSpace (m : Manager) (env : Env) (needSize : Nat) : Except PoolFault (Manager × Bool) :=
  let freeSpace := wordSub cfg.memoryLimit m.currentMemorySize
  if freeSpace ≥ needSize then .ok ({m with currentMemorySize := wordAdd m.currentMemorySize needSize}, true)
  else
    match requestLoop cfg env needSize freeSpace m.roundRobin cfg.lruCount m 0 with
    | .error e => .error e
    | .ok (m', freedSpace) =>
      .ok ({m' with currentMemorySize := wordAdd m'.currentMemorySize (wordSub needSize freedSpace)},
        wordAdd freedSpace freeSpace ≥ needSize)

/-! ### Queues and memory -/

/-- `LRUCache::PushGCQueue` on the cache `k`. -/
def enqueue (m : Manager) (k id : Nat) : Manager :=
  {m with gcLists := Function.update m.gcLists k ((m.gcLists k).erase id ++ [id])}

def pushGCQueue (m : Manager) (env : Env) (id : Nat) : Except PoolFault Manager :=
  let m := m.enqueue (lruIdx cfg id) id
  if m.currentMemorySize > cfg.memoryLimit then
    match m.requestSpace cfg env (m.currentMemorySize - cfg.memoryLimit) with
    | .error e => .error e
    | .ok (m, _) => .ok m
  else .ok m

def removeFromGCQueue (m : Manager) (id : Nat) : Option Manager :=
  if id ∈ m.gcLists (lruIdx cfg id) then some (m.dequeue (lruIdx cfg id) id) else none

def freeUnloadBuffer (m : Manager) (bufferSize : Nat) : Except PoolFault Manager :=
  if m.currentMemorySize < bufferSize then .error (.memoryUnderflow m.currentMemorySize bufferSize)
  else .ok {m with currentMemorySize := wordSub m.currentMemorySize bufferSize}

def addToCleanList (m : Manager) (id : Nat) : Manager := {m with cleanList := m.cleanList ++ [id]}

/-- `AddToCleanList` with `do_free`. -/
def addToCleanListFree (m : Manager) (id bufferSize : Nat) : Except PoolFault Manager :=
  match (m.addToCleanList id).freeUnloadBuffer bufferSize with
  | .error e => .error e
  | .ok m =>
    match m.removeFromGCQueue cfg id with
    | none => .error (.notInGCQueue id)
    | some m => .ok m

/-! ### The calls -/

def makeBufferObj (m : Manager) (isEphemeral : Bool) (worker : FileWorkerType) (size : Nat) : Manager :=
  let o : BufferObj :=
    if isEphemeral then ⟨.new, .ephemeral, 0, 0, worker, size, false⟩
    else ⟨.freed, .persistent, 0, 0, worker, size, false⟩
  {m.setObj m.bufferId o with bufferId := m.bufferId + 1}

def load (m : Manager) (env : Env) (id : Nat) (o : BufferObj) : Except PoolFault Manager :=
  if o.type = .mmap then
    if o.status = .clean then .error (.invalidStatus id .clean)
    else .ok (m.setObj id {o with status := .loaded, rc := o.rc + 1})
  else
    match o.status with
    | .loaded => .ok (m.setObj id {o with rc := o.rc + 1})
    | .unloaded =>
      match m.removeFromGCQueue cfg id with
      | none => .error (.notInGCQueue id)
      | some m => .ok (m.setObj id {o with status := .loaded, rc := o.rc + 1})
    | .freed =>
      match m.requestSpace cfg (env.lock id) o.size with
      | .error e => .error e
      | .ok (_, false) => .error .outOfMemory
      | .ok (m, true) =>
        if o.type = .ephemeral then .error (.invalidStatus id .freed)
        else
          match o.readFromFile id (env.fileSize id) with
          | .error e => .error e
          | .ok o => .ok (m.setObj id {o with status := .loaded, rc := o.rc + 1})
    | .new =>
      match m.requestSpace cfg (env.lock id) o.size with
      | .error e => .error e
      | .ok (_, false) => .error .outOfMemory
      | .ok (m, true) =>
        match o.allocateInMemory id with
        | .error e => .error e
        | .ok o => .ok (m.setObj id {o with status := .loaded, rc := o.rc + 1})
    | .clean => .error (.invalidStatus id .clean)

def loadInner (m : Manager) (id : Nat) (o : BufferObj) : Except PoolFault Manager :=
  if o.status ≠ .loaded then .error (.invalidStatus id o.status)
  else .ok (m.setObj id {o with rc := o.rc + 1})

/-- `BufferObj::UnloadInner`: the object enters the queue before it is marked unloaded. -/
def unloadInner (m : Manager) (env : Env) (id : Nat) (o : BufferObj) : Except PoolFault Manager :=
  if o.status ≠ .loaded then .error (.invalidStatus id o.status)
  else if o.rc - 1 ≠ 0 then .ok (m.setObj id {o with rc := o.rc - 1})
  else
    match o.type with
    | .toMmap =>
      match o.freeInMemory id with
      | .error e => .error e
      | .ok o' =>
        match m.freeUnloadBuffer o.size with
        | .error e => .error e
        | .ok m => .ok (m.setObj id {o' with rc := 0, status := .freed, type := .mmap})
    | .mmap => .ok (m.setObj id {o with rc := 0, status := .unloaded})
    | _ =>
      match (m.setObj id {o with rc := 0}).pushGCQueue cfg (env.lock id) id with
      | .error e => .error e
      | .ok m => .ok (m.setObj id {o with rc := 0, status := .unloaded})

def getMutPointer (m : Manager) (env : Env) (id : Nat) (o : BufferObj) : Except PoolFault Manager :=
  match o.type with
  | .temp =>
    match m.removeTemp id with
    | .error e => .error e
    | .ok m => .ok (m.setObj id {o with type := .ephemeral})
  | .mmap =>
    match m.requestSpace cfg (env.lock id) o.size with
    | .error e => .error e
    | .ok (_, false) => .error .outOfMemory
    | .ok (m, true) =>
      match o.readFromFile id (env.fileSize id) with
      | .error e => .error e
      | .ok o => .ok (m.setObj id {o with type := .ephemeral})
  | _ => .ok (m.setObj id {o with type := .ephemeral})

/-- `VarBuffer::Append` and the `BufferObj::AddBufferSize` it makes, which only warns when
there is no room for the data that is already there. -/
def append (m : Manager) (env : Env) (id : Nat) (o : BufferObj) (size : Nat) : Except PoolFault Manager :=
  if o.worker ≠ .varFile then .error (.invalidFileWorker id)
  else
    match (m.setObj id {o with size := o.size + size}).requestSpace cfg env size with
    | .error e => .error e
    | .ok (m, _) => .ok m

def save (m : Manager) (env : Env) (id : Nat) (o : BufferObj) : Except PoolFault Manager :=
  match o.type with
  | .ephemeral =>
    match o.status with
    | .loaded | .unloaded => .ok (if env.allSave id then m.setObj id {o with type := .persistent} else m)
    | .freed => .ok m
    | status => .error (.invalidStatus id status)
  | .temp =>
    match m.moveTemp id with
    | .error e => .error e
    | .ok m => .ok (m.setObj id {o with type := .persistent})
  | .mmap => .error (.invalidType id .mmap)
  | _ => .ok m

def pickForCleanup (m : Manager) (id : Nat) (o : BufferObj) : Except PoolFault Manager :=
  if o.objRc = 0 then .error (.objRcZero id)
  else if o.objRc - 1 > 0 then .ok (m.setObj id {o with objRc := o.objRc - 1})
  else if o.type = .mmap then .ok ((m.addToCleanList id).setObj id {o with objRc := 0, status := .clean})
  else
    match pick o with
    | .error e => .error e
    | .ok (m, o) =>
      let m := m.setObj id {o with objRc := 0, status := .clean}
      if o.type = .temp then m.removeTemp id else .ok m
where
  /-- The object goes to the clean list, and its data is freed. -/
  pick (o : BufferObj) : Except PoolFault (Manager × BufferObj) :=
    match o.status with
    | .new | .freed => .ok (m.addToCleanList id, o)
    | .unloaded =>
      match o.freeInMemory id with
      | .error e => .error e
      | .ok o' =>
        match m.addToCleanListFree cfg id o.size with
        | .error e => .error e
        | .ok m => .ok (m, o')
    | status => .error (.invalidStatus id status)

def toMmap (m : Manager) (id : Nat) (o : BufferObj) : Except PoolFault Manager :=
  match o.type with
  | .mmap => .ok m
  | .persistent =>
    match o.status with
    | .loaded => .ok (m.setObj id {o with type := .toMmap})
    | .unloaded =>
      let m := (m.removeFromGCQueue cfg id).getD m
      match o.freeInMemory id with
      | .error e => .error e
      | .ok o' =>
        match m.freeUnloadBuffer o.size with
        | .error e => .error e
        | .ok m => .ok (m.setObj id {o' with status := .freed, type := .mmap})
    | .freed => .ok (m.setObj id {o with type := .mmap})
    | status => .error (.invalidStatus id status)
  | type => .error (.invalidType id type)

def addObjRc (m : Manager) (id : Nat) (o : BufferObj) : Manager := m.setObj id {o with objRc := o.objRc + 1}

/-- `BufferObj::SubObjRc`: the object is marked clean whatever its status is. -/
def subObjRc (m : Manager) (id : Nat) (o : BufferObj) : Except PoolFault Manager :=
  if o.objRc = 0 then .error (.objRcZero id)
  else if o.objRc - 1 = 0 then .ok ((m.addToCleanList id).setObj id {o with objRc := 0, status := .clean})
  else .ok (m.setObj id {o with objRc := o.objRc - 1})

/-- `BufferObj::CleanupFile` for the objects of the clean list. -/
def cleanupFiles (m : Manager) : List Nat → Except PoolFault Unit
  | [] => .ok ()
  | id :: rest =>
    match m.objs id with
    | none => .error (.noSuchObject id)
    | some o =>
      if o.status ≠ .clean then .error (.invalidStatus id o.status)
      else if o.data then .error (.notFreed id)
      else cleanupFiles m rest

/-- The objects leave `buffer_map_`. -/
def eraseObjs : Manager → List Nat → Except PoolFault Manager
  | m, [] => .ok m
  | m, id :: rest =>
    match m.objs id with
    | none => .error (.notInBufferMap id)
    | some _ => eraseObjs {m with objs := Function.update m.objs id none} rest

def removeClean (m : Manager) : Except PoolFault Manager :=
  match m.cleanupFiles m.cleanList with
  | .error e => .error e
  | .ok () =>
    eraseObjs {m with
      gcLists := fun k => (m.gcLists k).filter (· ∉ m.cleanList), cleanList := [], cleanTempSet := []} m.cleanList

/-- The manager as it is made. -/
def init : Manager := ⟨fun _ => none, 0, fun _ => [], 0, 0, [], [], []⟩

end Manager

/-- What is done with an object. -/
inductive Op where
  | load (env : Env)
  | loadInner
  | unloadInner (env : Env)
  | getMutPointer (env : Env)
  | append (env : Env) (size : Nat)
  | save (env : Env)
  | pickForCleanup
  | toMmap
  | addObjRc
  | subObjRc

inductive Call where
  /-- `AllocateBufferObject` with `isEphemeral`, or a `GetBufferObject` that makes the object. -/
  | makeBufferObj (isEphemeral : Bool) (worker : FileWorkerType) (size : Nat)
  | op (id : Nat) (op : Op)
  | removeClean

def Op.apply (m : Manager) (id : Nat) (o : BufferObj) : Op → Except PoolFault Manager
  | .load env => m.load cfg env id o
  | .loadInner => m.loadInner id o
  | .unloadInner env => m.unloadInner cfg env id o
  | .getMutPointer env => m.getMutPointer cfg env id o
  | .append env size => m.append cfg env id o size
  | .save env => m.save env id o
  | .pickForCleanup => m.pickForCleanup cfg id o
  | .toMmap => m.toMmap cfg id o
  | .addObjRc => .ok (m.addObjRc id o)
  | .subObjRc => m.subObjRc id o

def step (m : Manager) : Call → Except PoolFault Manager
  | .makeBufferObj isEphemeral worker size => .ok (m.makeBufferObj isEphemeral worker size)
  | .op id op =>
    match m.objs id with
    | none => .error (.noSuchObject id)
    | some o => op.apply cfg m id o
  | .removeClean => m.removeClean

/-- A handle is copied, released or written through only while it exists, and data is
appended only to a `VarBuffer` that exists. -/
def Op.Allowed (o : BufferObj) : Op → Prop
  | .loadInner | .unloadInner _ | .getMutPointer _ => 0 < o.rc
  | .append _ _ => 0 < o.rc ∧ o.worker = .varFile ∧ o.data
  | _ => True

/-- A `VarBuffer` is new with no data; calls are made on objects that exist. -/
def Allowed (m : Manager) : Call → Prop
  | .makeBufferObj isEphemeral worker size => isEphemeral → worker = .varFile → size = 0
  | .op id op => ∃ o, m.objs id = some o ∧ op.Allowed o
  | .removeClean => True

/-- The buffer manager and the calls made to it. -/
def pool : Machine Manager Call PoolFault where
  enabled := Allowed
  step := step cfg

/-! ### A small pool -/

theorem ten_lt_word : 10 < word := by decide

/-- Ten bytes and one cache. -/
def ten : Config := ⟨10, 1, ten_lt_word, Nat.one_pos⟩

/-- Nothing is locked, and all is written. -/
def calm : Env := ⟨fun _ => false, fun _ => true, fun _ => 0⟩

end Infinity.Buffer.Pool
