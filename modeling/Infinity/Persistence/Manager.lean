import Infinity.Lib.Machine
import Infinity.Lib.RangeSet

/-! The persistence manager: files composed into objects.

`PersistenceManager` turns local files into parts of objects. A large file, or one whose
caller asks for it, becomes an object of its own. A small one is appended to the current
object, at the next multiple of `ObjAlignment`, and the current object is finalized when
the manager finds too little room in it: its statistics go to the object map and a new
key is made. A local path is mapped to its part, an `ObjAddr`.

A part is cleaned up when its path is, or when its path is persisted again. The manager
keeps the cleaned parts of an object as a set of ranges, and when one range is all of the
object, the object is dropped: its key is handed to the caller, which deletes the file in
the background.

The object files are part of the model, since what the manager promises is about their
bytes. Paths and keys are lists of characters. -/
namespace Infinity.Persistence

open Lib

abbrev Path := List Char

abbrev Key := List Char

abbrev Bytes := List UInt8

structure ObjAddr where
  objKey : Key
  partOffset : Nat
  partSize : Nat
  deriving DecidableEq, Repr

/-- `ObjAddr::KeyEmpty`, the object of all empty files. -/
def keyEmpty : Key := ['K', 'E', 'Y', '_', 'E', 'M', 'P', 'T', 'Y']

/-- What is known of a finalized object. The footer is not part of the size. -/
structure ObjStat where
  objSize : Nat
  parts : Nat
  refCount : Nat
  deletedRanges : List Range
  deriving DecidableEq, Repr

/-- The ways a call stops the engine. -/
inductive PersistFault where
  /-- "Failed to find local path of {}" -/
  | noLocalPath (path : Path)
  /-- "PutNew object {} is already in object map" -/
  | alreadyInObjectMap (key : Key)
  /-- "CurrentObjAppendNoLock object {} size {} exceeds limit {}" -/
  | exceedsLimit (key : Key) (size limit : Nat)
  /-- "CleanupNoLock Failed to find object {}" -/
  | objectNotFound (key : Key)
  /-- The assertion that a finalized object is in the object map. -/
  | notFinalized (key : Key)
  /-- "ObjAddr {} range to delete [{}, {}) intersects with prev one [{}, {})" -/
  | intersectsPrev (key : Key) (range prev : Range)
  /-- "ObjAddr {} range to delete [{}, {}) intersects with next one [{}, {})" -/
  | intersectsNext (key : Key) (range next : Range)
  /-- "Failed to delete ObjAddr {} range [{}, {})" -/
  | deleteFailed (key : Key) (range : Range)
  /-- "Failed to find object key" -/
  | noObjectKey
  /-- "CleanupNoLock object {} ref count is {}" -/
  | stillReferenced (key : Key) (refCount : Nat)
  deriving DecidableEq, Repr

structure Config where
  dataDir : Path
  objectSizeLimit : Nat

/-- The constructor sees to it that the directory ends with a slash. -/
def Config.localDataDir (cfg : Config) : Path :=
  if cfg.dataDir.getLast? = some '/' then cfg.dataDir else cfg.dataDir ++ ['/']

/-- `ObjCreate` makes a version 7 UUID: `objCreate n` is the key made by the call number
`n`. That no two are the same is what the keys are used for. -/
structure KeySupply where
  objCreate : Nat → Key
  injective : Function.Injective objCreate
  ne_keyEmpty : ∀ n, objCreate n ≠ keyEmpty
  ne_nil : ∀ n, objCreate n ≠ []

/-- The manager and its workspace directory. `created` counts the keys made so far. -/
structure Manager where
  objects : Key → Option ObjStat
  localPathObj : Path → Option ObjAddr
  currentObjectKey : Key
  currentObjectSize : Nat
  currentObjectParts : Nat
  currentObjectRefCount : Nat
  created : Nat
  files : Key → Option Bytes

/-- What a writing call tells its caller: where the data is, which objects to upload,
which to remove from the local disk and which to remove for good. -/
structure WriteResult where
  objAddr : ObjAddr := ⟨[], 0, 0⟩
  persistKeys : List Key := []
  dropKeys : List Key := []
  dropFromRemoteKeys : List Key := []

variable (cfg : Config) (keys : KeySupply)

/-- The constructor: an empty object map and an empty file for the empty files. -/
def init : Manager where
  objects := fun _ => none
  localPathObj := fun _ => none
  currentObjectKey := keys.objCreate 0
  currentObjectSize := 0
  currentObjectParts := 0
  currentObjectRefCount := 0
  created := 1
  files := Function.update (fun _ => none) keyEmpty (some [])

def removePrefix (path : Path) : Path :=
  if cfg.localDataDir.isPrefixOf path then path.drop cfg.localDataDir.length
  else if !(['/'].isPrefixOf path) then path
  else []

def objAlignment : Nat := 8

/-- `(n + ObjAlignment - 1) & ~(ObjAlignment - 1)` -/
def align (n : Nat) : Nat := (n + objAlignment - 1) / objAlignment * objAlignment

/-- `ObjectStatAccessor_LocalStorage::PutNew` -/
def putNew (objects : Key → Option ObjStat) (key : Key) (stat : ObjStat) : Except PersistFault (Key → Option ObjStat) :=
  match objects key with
  | some _ => .error (.alreadyInObjectMap key)
  | none => .ok (Function.update objects key (some stat))

/-- The footer of a composed object, the 32-bit number one: format version 1. -/
def composeFormat : Bytes := [1, 0, 0, 0]

def Manager.currentObjFinalizeNoLock (m : Manager) (r : WriteResult) : Except PersistFault (Manager × WriteResult) :=
  if m.currentObjectSize > 0 then
    let files :=
      if m.currentObjectParts > 1 then
        Function.update m.files m.currentObjectKey (some ((m.files m.currentObjectKey).getD [] ++ composeFormat))
      else m.files
    match putNew m.objects m.currentObjectKey
        ⟨m.currentObjectSize, m.currentObjectParts, m.currentObjectRefCount, []⟩ with
    | .error e => .error e
    | .ok objects =>
      .ok ({m with
        objects, files
        currentObjectKey := keys.objCreate m.created
        created := m.created + 1
        currentObjectSize := 0
        currentObjectParts := 0
        currentObjectRefCount := 0}, {r with persistKeys := r.persistKeys ++ [m.currentObjectKey]})
  else .ok (m, r)

/-- `int(n)`: the low 32 bits, signed. -/
def toInt (n : Nat) : BitVec 32 := BitVec.ofNat 32 n

/-- `CurrentObjRoomNoLock`, in the arithmetic of `int`. -/
def Manager.currentObjRoomNoLock (m : Manager) : BitVec 32 := toInt cfg.objectSizeLimit - toInt m.currentObjectSize

def bufferSize : Nat := 1024 * 1024

/-- The loop that copies the source file, a buffer at a time; the last read is short. Every
turn reads a full buffer, so the file's length bounds the turns. -/
def copyLoop : Nat → Bytes → Bytes
  | 0, src => src
  | turns + 1, src =>
    if src.length < bufferSize then src else src.take bufferSize ++ copyLoop turns (src.drop bufferSize)

def copyFile (src : Bytes) : Bytes := copyLoop src.length src

theorem copyLoop_eq (turns : Nat) (src : Bytes) : copyLoop turns src = src := by
  induction turns generalizing src with
  | zero => rfl
  | succ turns ih =>
    rw [copyLoop, ih, List.take_append_drop, ite_self]

@[simp] theorem copyFile_eq (src : Bytes) : copyFile src = src := copyLoop_eq _ _

/-- The object file is padded up to the current size before the file is copied. -/
def Manager.currentObjAppendNoLock (m : Manager) (src : Bytes) : Except PersistFault Manager :=
  let old := (m.files m.currentObjectKey).getD []
  let padded := if old.length < m.currentObjectSize then old ++ List.replicate (m.currentObjectSize - old.length) 0
    else old
  let size := m.currentObjectSize + src.length
  if size ≥ cfg.objectSizeLimit then .error (.exceedsLimit m.currentObjectKey size cfg.objectSizeLimit)
  else .ok {m with
    files := Function.update m.files m.currentObjectKey (some (padded ++ copyFile src))
    currentObjectSize := size
    currentObjectParts := m.currentObjectParts + 1}

/-- The bytes a part takes up in its object: up to where the next part may start. -/
def ObjAddr.slot (addr : ObjAddr) : Range := ⟨addr.partOffset, align (addr.partOffset + addr.partSize)⟩

/-- The second half of `CleanupNoLock`, for a part of a finalized object: the part is added
to the deleted ranges, and an object that is one deleted range is dropped. -/
def Manager.deleteRange (m : Manager) (addr : ObjAddr) (stat : ObjStat) (r : WriteResult) (checkRefCount : Bool) :
    Except PersistFault (Manager × WriteResult) :=
  match insertMerging stat.deletedRanges addr.slot with
  | .covered l =>
    .ok ({m with objects := Function.update m.objects addr.objKey (some {stat with deletedRanges := l})}, r)
  | .hitsPrev p => .error (.intersectsPrev addr.objKey addr.slot p)
  | .hitsNext n => .error (.intersectsNext addr.objKey addr.slot n)
  | .duplicate range => .error (.deleteFailed addr.objKey range)
  | .done l range =>
    if range.start = 0 ∧ range.stop = align stat.objSize ∧ addr.objKey ≠ m.currentObjectKey then
      if addr.objKey = [] then .error .noObjectKey
      else if checkRefCount ∧ stat.refCount > 0 then .error (.stillReferenced addr.objKey stat.refCount)
      else .ok ({m with objects := Function.update m.objects addr.objKey none},
        {r with dropFromRemoteKeys := r.dropFromRemoteKeys ++ [addr.objKey]})
    else .ok ({m with objects := Function.update m.objects addr.objKey (some {stat with deletedRanges := l})}, r)

def Manager.cleanupNoLock (m : Manager) (addr : ObjAddr) (r : WriteResult) (checkRefCount : Bool) :
    Except PersistFault (Manager × WriteResult) :=
  match m.objects addr.objKey with
  | some stat => m.deleteRange addr stat r checkRefCount
  | none =>
    if addr.objKey = keyEmpty then .ok (m, r)
    else if addr.objKey = m.currentObjectKey then
      match m.currentObjFinalizeNoLock keys r with
      | .error e => .error e
      | .ok (m, r) =>
        match m.objects addr.objKey with
        | some stat => m.deleteRange addr stat r checkRefCount
        | none => .error (.notFinalized addr.objKey)
    else .error (.objectNotFound addr.objKey)

/-- The first lock of `Persist`: the part that the path is mapped to is cleaned up. -/
def Manager.cleanupOld (m : Manager) (localPath : Path) : Except PersistFault (Manager × WriteResult) :=
  match m.localPathObj localPath with
  | some addr => m.cleanupNoLock keys addr {} false
  | none => .ok (m, {})

def Manager.setPath (m : Manager) (localPath : Path) (addr : ObjAddr) : Manager :=
  {m with localPathObj := Function.update m.localPathObj localPath (some addr)}

/-- The branch of `Persist` for a file that becomes an object of its own. The file is moved,
not copied. -/
def Manager.persistDedicated (m : Manager) (localPath : Path) (src : Bytes) (r : WriteResult) :
    Except PersistFault (Manager × WriteResult) :=
  let objKey := keys.objCreate m.created
  let addr : ObjAddr := ⟨objKey, 0, src.length⟩
  match putNew m.objects objKey ⟨src.length, 1, 0, []⟩ with
  | .error e => .error e
  | .ok objects =>
    .ok ({m with objects, created := m.created + 1, files := Function.update m.files objKey (some src)}.setPath
      localPath addr, {r with persistKeys := r.persistKeys ++ [objKey], objAddr := addr})

/-- The branch of `Persist` for a file that becomes a part of the current object. The room is
looked up before the current size is rounded up. -/
def Manager.persistComposed (m : Manager) (localPath : Path) (src : Bytes) (r : WriteResult) :
    Except PersistFault (Manager × WriteResult) :=
  match if (m.currentObjRoomNoLock cfg).sle (toInt src.length) then m.currentObjFinalizeNoLock keys r else .ok (m, r) with
  | .error e => .error e
  | .ok (m, r) =>
    let m := {m with currentObjectSize := align m.currentObjectSize}
    let addr : ObjAddr := ⟨m.currentObjectKey, m.currentObjectSize, src.length⟩
    match m.currentObjAppendNoLock cfg src with
    | .error e => .error e
    | .ok m => .ok (m.setPath localPath addr, {r with objAddr := addr})

def Manager.persist (m : Manager) (filePath : Path) (src : Bytes) (tryCompose : Bool) :
    Except PersistFault (Manager × WriteResult) :=
  let localPath := removePrefix cfg filePath
  if localPath = [] then .error (.noLocalPath localPath)
  else
    match m.cleanupOld keys localPath with
    | .error e => .error e
    | .ok (m, r) =>
      if src.length = 0 then
        .ok (m.setPath localPath ⟨keyEmpty, 0, 0⟩,
          {r with persistKeys := r.persistKeys ++ [keyEmpty], objAddr := ⟨keyEmpty, 0, 0⟩})
      else if !tryCompose ∨ src.length ≥ cfg.objectSizeLimit then m.persistDedicated keys localPath src r
      else m.persistComposed cfg keys localPath src r

/-- A path without a mapping is only warned about. -/
def Manager.cleanup (m : Manager) (filePath : Path) : Except PersistFault (Manager × WriteResult) :=
  let localPath := removePrefix cfg filePath
  if localPath = [] then .error (.noLocalPath localPath)
  else
    match m.localPathObj localPath with
    | none => .ok (m, {})
    | some addr =>
      match m.cleanupNoLock keys addr {} true with
      | .error e => .error e
      | .ok (m, r) => .ok ({m with localPathObj := Function.update m.localPathObj localPath none}, r)

/-- The bytes of a part, if its object has them. -/
def Manager.readPart (m : Manager) (addr : ObjAddr) : Option Bytes :=
  match m.files addr.objKey with
  | none => none
  | some file =>
    if addr.partOffset + addr.partSize ≤ file.length then some ((file.drop addr.partOffset).take addr.partSize) else none

/-! ### Calls one after another -/

/-- The manager with the files that the callers have been told to remove, and, for the
statements only, the bytes last persisted for each path. -/
structure System where
  pm : Manager
  drops : List Key
  persisted : Path → Option Bytes

/-- The calls. `persist` comes with the content of the temporary file; `deleteFileBG` is
the background thread removing an object file it has been told to. -/
inductive Call where
  | persist (filePath : Path) (src : Bytes) (tryCompose : Bool)
  | currentObjFinalize
  | cleanup (filePath : Path)
  | deleteFileBG (key : Key)

def enabled (s : System) : Call → Prop
  | .deleteFileBG key => key ∈ s.drops
  | _ => True

/-- The calls with what their callers do with the result, `HandleWriteResult`. -/
def step (s : System) : Call → Except PersistFault System
  | .persist filePath src tryCompose =>
    match s.pm.persist cfg keys filePath src tryCompose with
    | .error e => .error e
    | .ok (pm, r) => .ok {
        pm, drops := s.drops ++ r.dropFromRemoteKeys
        persisted := Function.update s.persisted (removePrefix cfg filePath) (some src)}
  | .currentObjFinalize =>
    match s.pm.currentObjFinalizeNoLock keys {} with
    | .error e => .error e
    | .ok (pm, r) => .ok {s with pm, drops := s.drops ++ r.dropFromRemoteKeys}
  | .cleanup filePath =>
    match s.pm.cleanup cfg keys filePath with
    | .error e => .error e
    | .ok (pm, r) => .ok {
        pm, drops := s.drops ++ r.dropFromRemoteKeys
        persisted := Function.update s.persisted (removePrefix cfg filePath) none}
  | .deleteFileBG key =>
    .ok {s with pm := {s.pm with files := Function.update s.pm.files key none}, drops := s.drops.erase key}

def persistMachine : Machine System Call PersistFault := ⟨enabled, step cfg keys⟩

def start : System := ⟨init keys, [], fun _ => none⟩

end Infinity.Persistence
