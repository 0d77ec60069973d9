import Infinity.Block.BlockVersion
import Infinity.Lib.Machine

/-! The buffer object that holds a block version.

A `BufferObj` is in memory or not (`BufferStatus`) and its content is, or is not, on the
disk (`BufferType`). What is changed in memory is *ephemeral*. An ephemeral object that
leaves the memory is spilled to the temporary directory and is *temporary* from then on.
A checkpoint saves the object: an ephemeral one is written to its own path as of the
checkpoint, and is *persistent* if that was all of it; of a temporary one the spill file is
moved to its own path; of a persistent one nothing is done.

The calls of this file are those of the block that owns the object, of the readers of the
block, of the buffer manager and of a checkpoint. A block changes its version under its
own lock and with a handle in hand, so loading, changing and releasing is one call. -/
namespace Infinity.Buffer

open Block Lib

inductive BufferStatus where
  | loaded
  | unloaded
  | freed
  | new
  deriving DecidableEq, Repr

inductive BufferType where
  | persistent
  | ephemeral
  | temp
  deriving DecidableEq, Repr

/-- The ways a call stops the engine. -/
inductive BufferFault where
  /-- "Invalid status: {}" and "Invalid buffer status: {}." -/
  | invalidStatus (status : BufferStatus)
  /-- "attempt to free {} buffer object" -/
  | freeing (status : BufferStatus)
  /-- "Capacity is 0." -/
  | zeroCapacity
  /-- "Data is already allocated." -/
  | alreadyAllocated
  /-- "No data will be written.", "Data is already freed." -/
  | notAllocated
  /-- A file to be read or moved is not there, or too short. -/
  | badFile
  /-- "BufferManager::AddTemp: file {} already exists." and its like. -/
  | tempSet
  | version (fault : VersionFault)
  /-- "BlockEntry::AppendData min_row_ts_ > commit_ts, min_row_ts_: {}, commit_ts: {}" -/
  | appendTooEarly (minRowTs commitTs : Nat)
  /-- "BlockEntry::DeleteData max_row_ts_ > commit_ts, max_row_ts_: {}, commit_ts: {}" -/
  | deleteTooEarly (maxRowTs commitTs : Nat)
  deriving DecidableEq, Repr

/-- The object with its file worker and the two paths it writes to. The two flags say
whether the buffer manager has it among the temporary objects, and among those whose
temporary file is to be removed. -/
structure VersionObj where
  type : BufferType
  status : BufferStatus
  rc : Nat
  capacity : Nat
  data : Option BlockVersion
  spill : Option (List UInt8)
  file : Option (List UInt8)
  inTempSet : Bool
  inCleanTempSet : Bool
  deriving DecidableEq, Repr

namespace VersionObj

/-- `AllocateBufferObject`: an object that has never been in memory. -/
def allocate (capacity : Nat) : VersionObj := ⟨.ephemeral, .new, 0, capacity, none, none, none, false, false⟩

/-- `GetBufferObject`: an object whose file is there. -/
def get (capacity : Nat) (file : List UInt8) : VersionObj :=
  ⟨.persistent, .freed, 0, capacity, none, none, some file, false, false⟩

/-! ### The file worker -/

def allocateInMemory (o : VersionObj) : Except BufferFault VersionObj :=
  if o.data.isSome then .error .alreadyAllocated
  else if o.capacity = 0 then .error .zeroCapacity
  else .ok {o with data := some (BlockVersion.new o.capacity)}

def freeInMemory (o : VersionObj) : Except BufferFault VersionObj :=
  if o.data.isNone then .error .notAllocated else .ok {o with data := none}

/-- `WriteToFile(true)`: all of the version goes to the spill file. -/
def writeSpill (o : VersionObj) : Except BufferFault VersionObj :=
  match o.data with
  | none => .error .notAllocated
  | some v => .ok {o with spill := some v.spillToFile}

/-- `WriteToFile(false, ctx)`. The flag says whether all of the version was written. -/
def writeFile (o : VersionObj) (checkpointTs : Nat) : Except BufferFault (VersionObj × Bool) :=
  match o.data with
  | none => .error .notAllocated
  | some v => .ok ({o with file := some (v.saveToFile checkpointTs)}, decide (v.latestChangeTs ≤ checkpointTs))

def readFromFile (o : VersionObj) (fromSpill : Bool) : Except BufferFault VersionObj :=
  match if fromSpill then o.spill else o.file with
  | none => .error .badFile
  | some bytes =>
    if o.data.isSome then .error .alreadyAllocated
    else
      match BlockVersion.loadFromFile bytes with
      | none => .error .badFile
      | some v => .ok {o with data := some v}

/-- `MoveFile`: the spill file takes the place of the file. -/
def moveFile (o : VersionObj) : Except BufferFault VersionObj :=
  match o.spill with
  | none => .error .badFile
  | some bytes => .ok {o with spill := none, file := some bytes}

/-! ### The temporary objects of the buffer manager -/

def addTemp (o : VersionObj) : Except BufferFault VersionObj :=
  if o.inTempSet then .error .tempSet else .ok {o with inTempSet := true, inCleanTempSet := false}

def removeTemp (o : VersionObj) : Except BufferFault VersionObj :=
  if !o.inTempSet ∨ o.inCleanTempSet then .error .tempSet else .ok {o with inTempSet := false, inCleanTempSet := true}

def moveTemp (o : VersionObj) : Except BufferFault VersionObj :=
  if !o.inTempSet then .error .tempSet else .ok {o with inTempSet := false}

/-! ### The buffer object -/

def load (o : VersionObj) : Except BufferFault VersionObj :=
  match o.status with
  | .loaded | .unloaded => .ok {o with status := .loaded, rc := o.rc + 1}
  | .freed =>
    if o.type = .ephemeral then .error (.invalidStatus .freed)
    else
      match o.readFromFile (decide (o.type ≠ .persistent)) with
      | .error e => .error e
      | .ok o => .ok {o with status := .loaded, rc := o.rc + 1}
  | .new =>
    match o.allocateInMemory with
    | .error e => .error e
    | .ok o => .ok {o with status := .loaded, rc := o.rc + 1}

def unloadInner (o : VersionObj) : Except BufferFault VersionObj :=
  if o.status ≠ .loaded then .error (.invalidStatus o.status)
  else if o.rc - 1 = 0 then .ok {o with rc := 0, status := .unloaded}
  else .ok {o with rc := o.rc - 1}

/-- The first half of `Free`: what is not on the disk is spilled. -/
def spillEphemeral (o : VersionObj) : Except BufferFault VersionObj :=
  match o.type with
  | .temp | .persistent => .ok o
  | .ephemeral =>
    match {o with type := .temp}.writeSpill with
    | .error e => .error e
    | .ok o => o.addTemp

def free (o : VersionObj) : Except BufferFault VersionObj :=
  if o.status ≠ .unloaded then .error (.freeing o.status)
  else
    match o.spillEphemeral with
    | .error e => .error e
    | .ok o =>
      match o.freeInMemory with
      | .error e => .error e
      | .ok o => .ok {o with status := .freed}

def save (o : VersionObj) (checkpointTs : Nat) : Except BufferFault VersionObj :=
  match o.type with
  | .ephemeral =>
    match o.status with
    | .loaded | .unloaded =>
      match o.writeFile checkpointTs with
      | .error e => .error e
      | .ok (o, allSave) => .ok (if allSave then {o with type := .persistent} else o)
    | .freed => o.moveFile
    | .new => .error (.invalidStatus .new)
  | .temp =>
    match o.moveTemp with
    | .error e => .error e
    | .ok o =>
      match o.moveFile with
      | .error e => .error e
      | .ok o => .ok {o with type := .persistent}
  | .persistent => .ok o

def getMutPointer (o : VersionObj) : Except BufferFault VersionObj :=
  match (if o.type = .temp then o.removeTemp else .ok o) with
  | .error e => .error e
  | .ok o => .ok {o with type := .ephemeral}

/-- `CleanupTempFile`, for an object whose temporary file is to be removed. -/
def cleanupTempFile (o : VersionObj) : Except BufferFault VersionObj :=
  if o.type = .temp then .ok {o with inCleanTempSet := false}
  else if o.spill.isNone then .error .badFile
  else .ok {o with inCleanTempSet := false, spill := none}

/-- A handle is taken, the version is changed through `GetDataMut` and the handle released. -/
def withDataMut (o : VersionObj) (change : BlockVersion → Except VersionFault BlockVersion) :
    Except BufferFault VersionObj :=
  match o.load with
  | .error e => .error e
  | .ok o =>
    match o.getMutPointer with
    | .error e => .error e
    | .ok o =>
      match o.data with
      | none => .error .notAllocated
      | some v =>
        match change v with
        | .error e => .error (.version e)
        | .ok v => {o with data := some v}.unloadInner

end VersionObj

/-! ### The block and its calls -/

/-- A block entry, with everything that was ever appended to it and deleted from it, for the
statements only. -/
structure System where
  obj : VersionObj
  blockRowCount : Nat
  rowCapacity : Nat
  minRowTs : Nat
  maxRowTs : Nat
  truth : BlockVersion
  deriving DecidableEq, Repr

inductive Call where
  | appendData (commitTs appendRows : Nat)
  | deleteData (commitTs : Nat) (rows : List Nat)
  | load
  | unload
  | free
  | save (checkpointTs : Nat)
  | cleanupTempFile

/-- What the callers see to: a segment appends rows to a block with room only, a delete is of
some row, timestamps are 64 bits wide, a handle is released by its holder, and the buffer
manager frees what nobody holds. -/
def enabled (s : System) : Call → Prop
  | .appendData commitTs appendRows => 0 < appendRows ∧ s.blockRowCount < s.rowCapacity ∧ commitTs < 2 ^ 64
  | .deleteData commitTs rows => rows ≠ [] ∧ commitTs < 2 ^ 64
  | .load => True
  | .unload => 0 < s.obj.rc
  | .free => s.obj.status = .unloaded
  | .save _ => True
  | .cleanupTempFile => s.obj.inCleanTempSet = true

/-- The rows of the block after an append: of the rows given, as many as fit are copied. -/
def System.rowCountAfter (s : System) (appendRows : Nat) : Nat :=
  s.blockRowCount + if s.blockRowCount + appendRows > s.rowCapacity then s.rowCapacity - s.blockRowCount else appendRows

/-- `BlockEntry::AppendData` -/
def appendData (s : System) (commitTs appendRows : Nat) : Except BufferFault System :=
  match s.obj.withDataMut fun v => .ok (v.append commitTs (s.rowCountAfter appendRows)) with
  | .error e => .error e
  | .ok obj =>
    if s.minRowTs > commitTs ∨ s.maxRowTs > commitTs then .error (.appendTooEarly s.minRowTs commitTs)
    else .ok {s with
      obj, blockRowCount := s.rowCountAfter appendRows, minRowTs := commitTs, maxRowTs := commitTs
      truth := s.truth.append commitTs (s.rowCountAfter appendRows)}

/-- `BlockEntry::DeleteData` -/
def deleteData (s : System) (commitTs : Nat) (rows : List Nat) : Except BufferFault System :=
  match s.obj.withDataMut fun v => v.deleteRows commitTs rows with
  | .error e => .error e
  | .ok obj =>
    if s.maxRowTs > commitTs then .error (.deleteTooEarly s.maxRowTs commitTs)
    else
      let truth := match s.truth.deleteRows commitTs rows with
        | .error _ => s.truth
        | .ok truth => truth
      .ok {s with obj, maxRowTs := commitTs, truth}

def withObj (s : System) : Except BufferFault VersionObj → Except BufferFault System
  | .error e => .error e
  | .ok obj => .ok {s with obj}

def step (s : System) : Call → Except BufferFault System
  | .appendData commitTs appendRows => appendData s commitTs appendRows
  | .deleteData commitTs rows => deleteData s commitTs rows
  | .load => withObj s s.obj.load
  | .unload => withObj s s.obj.unloadInner
  | .free => withObj s s.obj.free
  | .save checkpointTs => withObj s (s.obj.save checkpointTs)
  | .cleanupTempFile => withObj s s.obj.cleanupTempFile

def versionMachine : Machine System Call BufferFault := ⟨enabled, step⟩

/-- A new block: no rows, a version that was never in memory. -/
def newBlock (capacity : Nat) : System := ⟨VersionObj.allocate capacity, 0, capacity, 0, 0, BlockVersion.new capacity⟩

end Infinity.Buffer
