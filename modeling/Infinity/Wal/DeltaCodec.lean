import Infinity.Wal.DefinitionCodec
import Infinity.Wal.DeltaOps
import Infinity.Wal.WalEntryCodec

/-! The format of catalog delta entries.

An operation starts with its type and the fields of every operation: timestamps, the flag, the
encoded name, and with a persistence manager the addresses of its files. The fields of its type
follow. An entry has its operations between a header and a copy of its size, as a log entry has
its commands. A table's record leaves out whether a column has a bloom filter. -/
namespace Infinity.Wal.Codec

open Lib List
open Wal.Delta (MergeFlag CatalogDeltaOpType)

/-! ### Columns of a table -/

inductive ConstraintType where
  | null | notNull | primaryKey | unique | invalid
  deriving DecidableEq, Repr

namespace ConstraintType

def all : List ConstraintType := [.null, .notNull, .primaryKey, .unique, .invalid]

theorem mem_all (c : ConstraintType) : c ∈ all := by
  cases c <;> decide

def write (c : ConstraintType) : Bytes := writeEnum 1 all c

def read : Decode ConstraintType := readEnum 1 all

theorem holds (k : Int) (c : ConstraintType) : Holds k read c.write 1 c := holds_enum k 1 c.mem_all (by decide)

end ConstraintType

/-- `std::set<ConstraintType>`, by its members. -/
abbrev ConstraintSet := ConstraintType → Bool

namespace ConstraintSet

/-- The members in their order. -/
def toList (s : ConstraintSet) : List ConstraintType := ConstraintType.all.filter s

def ofList (l : List ConstraintType) : ConstraintSet := fun c => decide (c ∈ l)

theorem ofList_toList (s : ConstraintSet) : ofList s.toList = s := by
  funext c
  have hmem : c ∈ s.toList ↔ s c = true := by
    rw [toList, mem_filter]
    exact and_iff_right c.mem_all
  simp [ofList, hmem]

theorem holds (k : Int) (s : ConstraintSet) : Holds k (readCounted ConstraintType.read)
      (writeLE 4 s.toList.length ++ s.toList.flatMap ConstraintType.write) (4 + s.toList.length * 1) s.toList :=
  (Holds.list (fun _ => by decide) fun c _ => c.holds k).of_size (by simp)

end ConstraintSet

structure ColumnDef where
  id : BitVec 64
  columnType : DataType
  name : Bytes
  constraints : ConstraintSet
  comment : Bytes
  defaultExpr : ConstantExpr
  buildBloomFilter : Bool

namespace ColumnDef

/-- `operator==` -/
def equal (a b : ColumnDef) : Bool :=
  a.id == b.id && a.name == b.name && a.columnType == b.columnType &&
    a.constraints.toList.length == b.constraints.toList.length && a.buildBloomFilter == b.buildBloomFilter &&
    a.comment == b.comment && a.constraints.toList.all b.constraints

/-- The size of a column in a table's operation. -/
def size (c : ColumnDef) : Nat :=
  8 + c.columnType.getSizeInBytes + (4 + c.name.length) + (4 + c.constraints.toList.length * 1) +
    (4 + c.comment.length) + c.defaultExpr.getSizeInBytes

def write (c : ColumnDef) : Except DeltaFault Bytes := do
  let columnType ← c.columnType.writeAdv
  return List.flatten [writeBits 8 c.id, columnType, writeString c.name,
    writeLE 4 c.constraints.toList.length ++ c.constraints.toList.flatMap ConstraintType.write,
    writeString c.comment, c.defaultExpr.writeAdv]

/-- The fields after the identifier. The end of the default is set by what was left before the type. -/
def readRest (k : Int) (id : BitVec 64) (maxBytes : Int) : Decode ColumnDef :=
  if maxBytes = 0 then failure
  else do
    let columnType ← DataType.readAdv k
    let name ← readString
    let constraints ← readCounted ConstraintType.read
    let comment ← readString
    let defaultExpr ← upTo maxBytes ConstantExpr.readAdv
    return ⟨id, columnType, name, .ofList constraints, comment, defaultExpr, false⟩

def read (k : Int) : Decode ColumnDef := do
  let id ← readBits 8
  withEnd k (readRest k id)

/-- The column as it is read back. -/
def replayed (c : ColumnDef) : ColumnDef := {c with columnType := c.columnType.replayed, buildBloomFilter := false}

/-- All of the column is in the format. -/
def Kept (c : ColumnDef) : Prop := c.columnType.Kept ∧ c.buildBloomFilter = false

theorem size_pos (c : ColumnDef) : 0 < c.size := by
  rw [size]
  omega

theorem writes (k : Int) {c : ColumnDef} (htype : c.columnType.Complete) :
    Writes k c.write (read k) c.size c.replayed := by
  obtain ⟨columnType, hok, hholds⟩ := DataType.writes k htype
  refine ⟨_, by rw [write, hok]; rfl, ?_⟩
  have hrest (maxBytes : Int) (hmax : c.size - 8 ≤ maxBytes) :
      Holds k (readRest k c.id maxBytes) (flatten [columnType, writeString c.name,
        writeLE 4 c.constraints.toList.length ++ c.constraints.toList.flatMap ConstraintType.write,
        writeString c.comment, c.defaultExpr.writeAdv]) (c.size - 8) c.replayed := by
    rw [size] at hmax ⊢
    have hexpr : Holds k (upTo maxBytes ConstantExpr.readAdv) c.defaultExpr.writeAdv c.defaultExpr.getSizeInBytes
        c.defaultExpr := .upTo (fun k => c.defaultExpr.holds k) (by omega)
    have hreplayed : c.replayed =
        ⟨c.id, c.columnType.replayed, c.name, .ofList c.constraints.toList, c.comment, c.defaultExpr, false⟩ := by
      rw [ConstraintSet.ofList_toList]
      rfl
    rw [readRest, if_neg (by omega), hreplayed]
    refine Holds.of_size (hholds.bind <| (holds_string k c.name).bind <|
      (c.constraints.holds k).bind <| (holds_string k c.comment).bind <|
      hexpr.bind <| .pure k
        (ColumnDef.mk c.id c.columnType.replayed c.name (.ofList c.constraints.toList) c.comment c.defaultExpr false)) ?_
    omega
  have hend : Holds k (withEnd k (readRest k c.id)) _ (c.size - 8) c.replayed := .withEnd fun maxBytes hmax =>
    hrest maxBytes (by omega)
  refine ((holds_bits k 8 c.id).bind hend).of_size ?_
  rw [size]
  omega

theorem fills (c : ColumnDef) : Fills c.write c.size c.columnType.Complete := by
  intro bytes hok
  obtain ⟨columnType, htype, hok⟩ := ok_of_bind hok
  cases hok
  obtain ⟨hle, heq⟩ := c.columnType.fills columnType htype
  have hconstraints := (c.constraints.holds 0).length
  have hexpr := (c.defaultExpr.holds 0).length
  simp only [flatten_cons, flatten_nil, length_append, length_nil, writeBits, length_writeLE, writeString, hexpr, size]
  rw [length_append, length_writeLE] at hconstraints
  exact ⟨by omega, fun hall => heq (by omega)⟩

theorem replayed_eq_iff (c : ColumnDef) : c.replayed = c ↔ c.Kept := by
  obtain ⟨id, columnType, name, constraints, comment, defaultExpr, bloom⟩ := c
  simp [replayed, Kept, DataType.replayed_eq_iff, eq_comm (a := false)]

theorem equal_self (c : ColumnDef) : c.equal c = true := by
  have hall : c.constraints.toList.all c.constraints = true := all_eq_true.mpr fun x hx => (mem_filter.mp hx).2
  simp [equal, hall]

end ColumnDef

/-! ### The fields of every operation -/

namespace OpType

def all : List CatalogDeltaOpType :=
  [.addDatabaseEntry, .addTableEntry, .addSegmentEntry, .addBlockEntry, .addColumnEntry, .addTableIndexEntry,
    .addSegmentIndexEntry, .addChunkIndexEntry]

def ofCode (n : Nat) : Decode CatalogDeltaOpType :=
  match all.find? fun type => type.code == n with
  -- "UNIMPLEMENTED ReadAdv for CatalogDeltaOperation type {}"
  | none => failure
  | some type => pure type

def write (type : CatalogDeltaOpType) : Bytes := writeBits 1 (BitVec.ofNat 8 type.code)

def read : Decode CatalogDeltaOpType := do
  let code ← readBits 1
  ofCode code.toNat

theorem holds (k : Int) (type : CatalogDeltaOpType) : Holds k read (write type) 1 type := by
  have hcode : Holds k (ofCode (BitVec.ofNat 8 type.code).toNat) [] 0 type := by cases type <;> exact .pure k _
  exact ((holds_bits k 1 (BitVec.ofNat 8 type.code)).bind (f := fun code => ofCode code.toNat) hcode).of_bytes
    (append_nil _)

end OpType

namespace Flag

def all : List MergeFlag := [.invalid, .delete, .new, .update, .deleteAndNew]

def write (flag : MergeFlag) : Bytes := writeEnum 1 all flag

def read : Decode MergeFlag := readEnum 1 all

theorem holds (k : Int) (flag : MergeFlag) : Holds k read (write flag) 1 flag :=
  holds_enum k 1 (by cases flag <;> decide) (by decide)

end Flag

structure OpBase where
  beginTs : BitVec 64
  mergeFlag : MergeFlag
  txnId : BitVec 64
  commitTs : BitVec 64
  encode : Bytes
  addrSerializer : AddrSerializer
  pmSize : Nat
  deriving DecidableEq

namespace OpBase

variable (pm : Bool)

/-- `CatalogDeltaOperation::operator==` -/
def equal (a b : OpBase) : Bool :=
  a.beginTs == b.beginTs && a.txnId == b.txnId && a.commitTs == b.commitTs && a.mergeFlag == b.mergeFlag &&
    a.encode == b.encode

def getBaseSizeInBytes (b : OpBase) : Nat := 8 + 1 + 8 + 8 + (4 + b.encode.length) + addrsSize pm b.addrSerializer

/-- What `GetBaseSizeInBytes` leaves in `pm_size_`. -/
def measured (b : OpBase) : OpBase := {b with pmSize := if pm then b.addrSerializer.getSizeInBytes else b.pmSize}

def writeAdvBase (b : OpBase) : Except CodecFault Bytes := do
  let addrs ← writeAddrs pm b.addrSerializer b.pmSize
  return List.flatten [writeBits 8 b.beginTs, Flag.write b.mergeFlag, writeBits 8 b.txnId, writeBits 8 b.commitTs,
    writeString b.encode, addrs]

def readAdvBase : Decode OpBase := do
  let beginTs ← readBits 8
  let mergeFlag ← Flag.read
  let txnId ← readBits 8
  let commitTs ← readBits 8
  let encode ← readString
  let addrs ← readAddrs pm
  return ⟨beginTs, mergeFlag, txnId, commitTs, encode, addrs, 0⟩

def replayed (b : OpBase) : OpBase := {b with addrSerializer := replayedAddrs pm b.addrSerializer, pmSize := 0}

variable {pm}

theorem equal_replayed (b : OpBase) : (b.replayed pm).equal b = true := by
  simp [equal, replayed]

theorem writes (k : Int) {b : OpBase} (hvalid : pm = true → b.addrSerializer.Valid) :
    Writes k ((b.measured pm).writeAdvBase pm) (readAdvBase pm) (b.getBaseSizeInBytes pm) (b.replayed pm) := by
  have hpm (hp : pm = true) : (b.measured pm).pmSize = b.addrSerializer.getSizeInBytes := if_pos hp
  obtain ⟨addrs, hok, hholds⟩ := writes_addrs k hvalid hpm
  have hwrite : (b.measured pm).writeAdvBase pm = .ok (flatten [writeBits 8 b.beginTs,
      Flag.write b.mergeFlag, writeBits 8 b.txnId, writeBits 8 b.commitTs, writeString b.encode, addrs]) := by
    show writeAddrs pm b.addrSerializer (b.measured pm).pmSize >>= _ = _
    rw [hok]
    rfl
  refine ⟨_, hwrite, ?_⟩
  refine Holds.of_size ((holds_bits k 8 b.beginTs).bind <| (Flag.holds k b.mergeFlag).bind <|
    (holds_bits k 8 b.txnId).bind <| (holds_bits k 8 b.commitTs).bind <|
    (holds_string k b.encode).bind <| hholds.bind <| .pure k (b.replayed pm)) ?_
  rw [getBaseSizeInBytes]
  omega

theorem fills (b : OpBase) : Fills ((b.measured pm).writeAdvBase pm) (b.getBaseSizeInBytes pm)
    (pm = true → b.addrSerializer.Valid) := by
  intro bytes hok
  obtain ⟨addrs, haddrs, hok⟩ := ok_of_bind hok
  cases hok
  obtain ⟨hle, heq⟩ := fills_addrs pm b.addrSerializer _ addrs haddrs
  have hflag := (Flag.holds 0 b.mergeFlag).length
  simp only [measured, flatten_cons, flatten_nil, length_append, length_nil, writeBits, length_writeLE, writeString,
    hflag, getBaseSizeInBytes]
  exact ⟨by omega, fun hall => heq (by omega)⟩

end OpBase

/-! ### The fields of each type -/

inductive TableEntryType where
  | tableEntry | collectionEntry
  deriving DecidableEq, Repr

/-- The fields that the types of operations add. The directory and the definition of an index are
pointers that may be null. -/
inductive OpFields where
  | dbEntry (dbEntryDir comment : Bytes)
  | tableEntry (entryType : TableEntryType) (tableEntryDir : Bytes) (columnDefs : List ColumnDef)
      (rowCount : BitVec 64) (unsealedId nextSegmentId : BitVec 32) (nextColumnId : BitVec 64)
      (tableComment : Bytes)
  | segmentEntry (status : BitVec 8) (columnCount rowCount actualRowCount rowCapacity : BitVec 64)
      (minRowTs maxRowTs firstDeleteTs deprecateTs : BitVec 64) (filter : Bytes)
  | blockEntry (rowCount rowCapacity : BitVec 16) (minRowTs maxRowTs checkpointTs : BitVec 64)
      (checkpointRowCount : BitVec 16) (filter : Bytes)
  | columnEntry (outlineBufferCount : BitVec 32) (lastChunkOffset : BitVec 64)
  | tableIndexEntry (indexDir : Option Bytes) (indexBase : Option IndexBase)
  | segmentIndexEntry (minTs maxTs : BitVec 64) (nextChunkId : BitVec 32) (deprecateTs : BitVec 64)
  | chunkIndexEntry (baseName : Bytes) (baseRowid : BitVec 64) (rowCount : BitVec 32) (deprecateTs : BitVec 64)

namespace OpFields

def type : OpFields → CatalogDeltaOpType
  | .dbEntry _ _ => .addDatabaseEntry
  | .tableEntry _ _ _ _ _ _ _ _ => .addTableEntry
  | .segmentEntry _ _ _ _ _ _ _ _ _ _ => .addSegmentEntry
  | .blockEntry _ _ _ _ _ _ _ => .addBlockEntry
  | .columnEntry _ _ => .addColumnEntry
  | .tableIndexEntry _ _ => .addTableIndexEntry
  | .segmentIndexEntry _ _ _ _ => .addSegmentIndexEntry
  | .chunkIndexEntry _ _ _ _ => .addChunkIndexEntry

def indexSize : Option Bytes → Option IndexBase → Nat
  | some indexDir, some indexBase => 4 + indexDir.length + indexBase.getSizeInBytes
  | _, _ => 0

def size (flag : MergeFlag) : OpFields → Nat
  | .dbEntry dbEntryDir comment => 4 + dbEntryDir.length + (4 + comment.length)
  | .tableEntry _ tableEntryDir columnDefs _ _ _ _ tableComment =>
    4 + tableEntryDir.length + (4 + (columnDefs.map ColumnDef.size).sum) + 8 + 4 * 2 + 8 + (4 + tableComment.length)
  | .segmentEntry _ _ _ _ _ _ _ _ _ filter => 1 + 8 + 8 + 8 + 8 + 8 * 4 + (4 + filter.length)
  | .blockEntry _ _ _ _ _ _ filter => 2 + 2 + 8 * 2 + 8 + 2 + (4 + filter.length)
  | .columnEntry _ _ => 4 + 8
  | .tableIndexEntry indexDir indexBase => if flag = .delete then 0 else indexSize indexDir indexBase
  | .segmentIndexEntry _ _ _ _ => 8 + 8 + 4 + 8
  | .chunkIndexEntry baseName _ _ _ => 4 + baseName.length + 8 + 4 + 8

def writeIndex : Option Bytes → Option IndexBase → Except DeltaFault Bytes
  | some indexDir, some indexBase => .ok (List.flatten [writeString indexDir, indexBase.writeAdv])
  | _, _ => .error .nullPointer

def write (flag : MergeFlag) : OpFields → Except DeltaFault Bytes
  | .dbEntry dbEntryDir comment => .ok (List.flatten [writeString dbEntryDir, writeString comment])
  | .tableEntry _ tableEntryDir columnDefs rowCount unsealedId nextSegmentId nextColumnId tableComment => do
    let columns ← columnDefs.mapM ColumnDef.write
    return List.flatten [writeString tableEntryDir, writeLE 4 columnDefs.length ++ columns.flatten,
      writeBits 8 rowCount, writeBits 4 unsealedId, writeBits 4 nextSegmentId, writeBits 8 nextColumnId,
      writeString tableComment]
  | .segmentEntry status columnCount rowCount actualRowCount rowCapacity minRowTs maxRowTs firstDeleteTs
      deprecateTs filter =>
    .ok (List.flatten [writeBits 1 status, writeBits 8 columnCount, writeBits 8 rowCount, writeBits 8 actualRowCount,
      writeBits 8 rowCapacity, writeBits 8 minRowTs, writeBits 8 maxRowTs, writeBits 8 firstDeleteTs,
      writeBits 8 deprecateTs, writeString filter])
  | .blockEntry rowCount rowCapacity minRowTs maxRowTs checkpointTs checkpointRowCount filter =>
    .ok (List.flatten [writeBits 2 rowCount, writeBits 2 rowCapacity, writeBits 8 minRowTs, writeBits 8 maxRowTs,
      writeBits 8 checkpointTs, writeBits 2 checkpointRowCount, writeString filter])
  | .columnEntry outlineBufferCount lastChunkOffset =>
    .ok (List.flatten [writeBits 4 outlineBufferCount, writeBits 8 lastChunkOffset])
  | .tableIndexEntry indexDir indexBase => if flag = .delete then .ok [] else writeIndex indexDir indexBase
  | .segmentIndexEntry minTs maxTs nextChunkId deprecateTs =>
    .ok (List.flatten [writeBits 8 minTs, writeBits 8 maxTs, writeBits 4 nextChunkId, writeBits 8 deprecateTs])
  | .chunkIndexEntry baseName baseRowid rowCount deprecateTs =>
    .ok (List.flatten [writeString baseName, writeBits 8 baseRowid, writeBits 4 rowCount, writeBits 8 deprecateTs])

def readTable (k : Int) : Decode OpFields := do
  let tableEntryDir ← readString
  let columnDefs ← readCounted (ColumnDef.read k)
  let rowCount ← readBits 8
  let unsealedId ← readBits 4
  let nextSegmentId ← readBits 4
  let nextColumnId ← readBits 8
  let tableComment ← readString
  return .tableEntry .tableEntry tableEntryDir columnDefs rowCount unsealedId nextSegmentId nextColumnId tableComment

def readSegment : Decode OpFields := do
  let status ← readBits 1
  let columnCount ← readBits 8
  let rowCount ← readBits 8
  let actualRowCount ← readBits 8
  let rowCapacity ← readBits 8
  let minRowTs ← readBits 8
  let maxRowTs ← readBits 8
  let firstDeleteTs ← readBits 8
  let deprecateTs ← readBits 8
  let filter ← readString
  return .segmentEntry status columnCount rowCount actualRowCount rowCapacity minRowTs maxRowTs firstDeleteTs
    deprecateTs filter

def readBlock : Decode OpFields := do
  let rowCount ← readBits 2
  let rowCapacity ← readBits 2
  let minRowTs ← readBits 8
  let maxRowTs ← readBits 8
  let checkpointTs ← readBits 8
  let checkpointRowCount ← readBits 2
  let filter ← readString
  return .blockEntry rowCount rowCapacity minRowTs maxRowTs checkpointTs checkpointRowCount filter

def readIndex (k : Int) (flag : MergeFlag) : Decode OpFields :=
  if flag = .delete then return .tableIndexEntry none none
  else do
    let indexDir ← readString
    let indexBase ← IndexBase.readAdv k
    return .tableIndexEntry (some indexDir) (some indexBase)

def read (k : Int) (flag : MergeFlag) : CatalogDeltaOpType → Decode OpFields
  | .addDatabaseEntry => do
    let dbEntryDir ← readString
    let comment ← readString
    return .dbEntry dbEntryDir comment
  | .addTableEntry => readTable k
  | .addSegmentEntry => readSegment
  | .addBlockEntry => readBlock
  | .addColumnEntry => do
    let outlineBufferCount ← readBits 4
    let lastChunkOffset ← readBits 8
    return .columnEntry outlineBufferCount lastChunkOffset
  | .addTableIndexEntry => readIndex k flag
  | .addSegmentIndexEntry => do
    let minTs ← readBits 8
    let maxTs ← readBits 8
    let nextChunkId ← readBits 4
    let deprecateTs ← readBits 8
    return .segmentIndexEntry minTs maxTs nextChunkId deprecateTs
  | .addChunkIndexEntry => do
    let baseName ← readString
    let baseRowid ← readBits 8
    let rowCount ← readBits 4
    let deprecateTs ← readBits 8
    return .chunkIndexEntry baseName baseRowid rowCount deprecateTs

def equalIndex : Option Bytes → Option IndexBase → Option Bytes → Option IndexBase → Option Bool
  | some indexDir, some indexBase, some indexDir', some indexBase' =>
    some (indexDir == indexDir' && indexBase.equal indexBase')
  | _, _, _, _ => none

/-- The fields that `operator==` compares; none where it follows a null pointer. -/
def equal : OpFields → OpFields → Option Bool
  | .dbEntry dir comment, .dbEntry dir' comment' => some (dir == dir' && comment == comment')
  | .tableEntry type dir columns rowCount unsealed segment column comment,
      .tableEntry type' dir' columns' rowCount' unsealed' segment' column' comment' =>
    some (dir == dir' && type == type' && rowCount == rowCount' && unsealed == unsealed' && segment == segment' &&
      column == column' && comment == comment' && WalSegmentInfo.equalInfos ColumnDef.equal columns columns')
  | .segmentEntry status columns rows actual capacity minTs maxTs deleteTs deprecateTs _,
      .segmentEntry status' columns' rows' actual' capacity' minTs' maxTs' deleteTs' deprecateTs' _ =>
    some (status == status' && columns == columns' && rows == rows' && actual == actual' && capacity == capacity' &&
      minTs == minTs' && maxTs == maxTs' && deleteTs == deleteTs' && deprecateTs == deprecateTs')
  | .blockEntry rows capacity minTs maxTs ckpTs ckpRows _, .blockEntry rows' capacity' minTs' maxTs' ckpTs' ckpRows' _ =>
    some (rows == rows' && capacity == capacity' && minTs == minTs' && maxTs == maxTs' && ckpTs == ckpTs' &&
      ckpRows == ckpRows')
  | .columnEntry count offset, .columnEntry count' offset' => some (count == count' && offset == offset')
  | .tableIndexEntry indexDir indexBase, .tableIndexEntry indexDir' indexBase' =>
    equalIndex indexDir indexBase indexDir' indexBase'
  | .segmentIndexEntry minTs maxTs nextChunkId deprecateTs, .segmentIndexEntry minTs' maxTs' nextChunkId' deprecateTs' =>
    some (minTs == minTs' && maxTs == maxTs' && nextChunkId == nextChunkId' && deprecateTs == deprecateTs')
  | .chunkIndexEntry name rowid rows _, .chunkIndexEntry name' rowid' rows' _ =>
    some (name == name' && rowid == rowid' && rows == rows')
  | _, _ => some false

/-- The fields as they are read back. -/
def replayed (flag : MergeFlag) : OpFields → OpFields
  | .tableEntry _ dir columns rowCount unsealed segment column comment =>
    .tableEntry .tableEntry dir (columns.map ColumnDef.replayed) rowCount unsealed segment column comment
  | .tableIndexEntry indexDir indexBase =>
    if flag = .delete then .tableIndexEntry none none else .tableIndexEntry indexDir indexBase
  | fields => fields

/-- Nothing stops the writer: the types of the columns have their parameters, and an index that is
not dropped has its directory and its definition. -/
def Complete (flag : MergeFlag) : OpFields → Prop
  | .tableEntry _ _ columns _ _ _ _ _ => ∀ c ∈ columns, c.columnType.Complete
  | .tableIndexEntry indexDir indexBase =>
    flag ≠ .delete → indexDir.isSome = true ∧ indexBase.isSome = true
  | _ => True

/-- All the fields are in the format. -/
def Kept (flag : MergeFlag) : OpFields → Prop
  | .tableEntry type _ columns _ _ _ _ _ => type = .tableEntry ∧ ∀ c ∈ columns, c.Kept
  | .tableIndexEntry indexDir indexBase => flag = .delete → indexDir = none ∧ indexBase = none
  | _ => True

variable {flag : MergeFlag}

variable {fields : OpFields}

theorem writes_table (k : Int) {type dir columns rowCount unsealed segment column comment}
    (he : fields = tableEntry type dir columns rowCount unsealed segment column comment)
    (hcolumns : ∀ c ∈ columns, c.columnType.Complete) :
    Writes k (fields.write flag) (readTable k) (fields.size flag) (fields.replayed flag) := by
  subst he
  obtain ⟨parts, hok, hholds⟩ : ∃ parts, columns.mapM ColumnDef.write = .ok parts ∧
      Holds k (readCounted (ColumnDef.read k)) (writeLE 4 columns.length ++ parts.flatten)
        (4 + (columns.map ColumnDef.size).sum) (columns.map ColumnDef.replayed) :=
    Writes.counted ColumnDef.size_pos fun c hc => ColumnDef.writes k (hcolumns c hc)
  refine ⟨_, by rw [write, hok]; rfl, ?_⟩
  refine Holds.of_size ((holds_string k dir).bind <| hholds.bind <| (holds_bits k 8 rowCount).bind <|
    (holds_bits k 4 unsealed).bind <| (holds_bits k 4 segment).bind <| (holds_bits k 8 column).bind <|
    (holds_string k comment).bind <|
    .pure k (tableEntry .tableEntry dir (columns.map ColumnDef.replayed) rowCount unsealed segment column comment)) ?_
  rw [size]
  omega

theorem writes_index (k : Int) {indexDir indexBase} (he : fields = tableIndexEntry indexDir indexBase)
    (hset : fields.Complete flag) :
    Writes k (fields.write flag) (readIndex k flag) (fields.size flag) (fields.replayed flag) := by
  subst he
  by_cases hflag : flag = .delete
  · rw [write, readIndex, size, replayed, if_pos hflag, if_pos hflag, if_pos hflag, if_pos hflag]
    exact ⟨[], rfl, .pure k _⟩
  obtain ⟨hdir, hbase⟩ := hset hflag
  obtain ⟨dir, rfl⟩ := Option.isSome_iff_exists.mp hdir
  obtain ⟨base, rfl⟩ := Option.isSome_iff_exists.mp hbase
  rw [write, readIndex, size, replayed, if_neg hflag, if_neg hflag, if_neg hflag, if_neg hflag]
  refine ⟨_, rfl, ?_⟩
  refine Holds.of_size ((holds_string k dir).bind <| (base.holds k).bind <|
    .pure k (tableIndexEntry (some dir) (some base))) ?_
  rw [indexSize]
  omega

theorem writes (k : Int) (hcomplete : fields.Complete flag) :
    Writes k (fields.write flag) (read k flag fields.type) (fields.size flag) (fields.replayed flag) := by
  cases fields with
  | dbEntry dir comment =>
    exact ⟨_, rfl, ((holds_string k dir).bind <| (holds_string k comment).bind <|
      .pure k (dbEntry dir comment)).of_size (by rw [size]; omega)⟩
  | tableEntry type dir columns rowCount unsealed segment column comment => exact writes_table k rfl hcomplete
  | segmentEntry status columns rows actual capacity minTs maxTs deleteTs deprecateTs filter =>
    exact ⟨_, rfl, ((holds_bits k 1 status).bind <| (holds_bits k 8 columns).bind <| (holds_bits k 8 rows).bind <|
      (holds_bits k 8 actual).bind <| (holds_bits k 8 capacity).bind <| (holds_bits k 8 minTs).bind <|
      (holds_bits k 8 maxTs).bind <| (holds_bits k 8 deleteTs).bind <| (holds_bits k 8 deprecateTs).bind <|
      (holds_string k filter).bind <|
      .pure k (segmentEntry status columns rows actual capacity minTs maxTs deleteTs deprecateTs filter)).of_size
        (by rw [size]; omega)⟩
  | blockEntry rows capacity minTs maxTs ckpTs ckpRows filter =>
    exact ⟨_, rfl, ((holds_bits k 2 rows).bind <| (holds_bits k 2 capacity).bind <| (holds_bits k 8 minTs).bind <|
      (holds_bits k 8 maxTs).bind <| (holds_bits k 8 ckpTs).bind <| (holds_bits k 2 ckpRows).bind <|
      (holds_string k filter).bind <|
      .pure k (blockEntry rows capacity minTs maxTs ckpTs ckpRows filter)).of_size (by rw [size]; omega)⟩
  | columnEntry count offset =>
    exact ⟨_, rfl, ((holds_bits k 4 count).bind <| (holds_bits k 8 offset).bind <|
      .pure k (columnEntry count offset)).of_size (by rw [size])⟩
  | tableIndexEntry indexDir indexBase => exact writes_index k rfl hcomplete
  | segmentIndexEntry minTs maxTs nextChunkId deprecateTs =>
    exact ⟨_, rfl, ((holds_bits k 8 minTs).bind <| (holds_bits k 8 maxTs).bind <| (holds_bits k 4 nextChunkId).bind <|
      (holds_bits k 8 deprecateTs).bind <|
      .pure k (segmentIndexEntry minTs maxTs nextChunkId deprecateTs)).of_size (by rw [size])⟩
  | chunkIndexEntry name rowid rows deprecateTs =>
    exact ⟨_, rfl, ((holds_string k name).bind <| (holds_bits k 8 rowid).bind <| (holds_bits k 4 rows).bind <|
      (holds_bits k 8 deprecateTs).bind <|
      .pure k (chunkIndexEntry name rowid rows deprecateTs)).of_size (by rw [size])⟩

theorem fills_table {type dir columns rowCount unsealed segment column comment}
    (he : fields = tableEntry type dir columns rowCount unsealed segment column comment) :
    Fills (fields.write flag) (fields.size flag) (fields.Complete flag) := by
  subst he
  intro bytes hok
  obtain ⟨parts, hparts, hok⟩ := ok_of_bind hok
  cases hok
  obtain ⟨hle, heq⟩ := Fills.mapM (fun c (_ : c ∈ columns) => c.fills) hparts
  simp only [flatten_cons, flatten_nil, length_append, length_nil, writeBits, length_writeLE, writeString, size]
  exact ⟨by omega, fun hall => heq (by omega)⟩

theorem fills (flag : MergeFlag) (fields : OpFields) :
    Fills (fields.write flag) (fields.size flag) (fields.Complete flag) := by
  cases fields with
  | tableEntry type dir columns rowCount unsealed segment column comment => exact fills_table rfl
  | tableIndexEntry indexDir indexBase =>
    refine .of_writes (fun bytes hok hflag => ?_) (writes 0)
    rw [write, if_neg hflag] at hok
    cases indexDir with
    | none => cases hok
    | some dir =>
      cases indexBase with
      | none => cases hok
      | some base => exact ⟨rfl, rfl⟩
  | _ => exact .of_writes (fun _ _ => trivial) (writes 0)

theorem replayed_eq_iff : fields.replayed flag = fields ↔ fields.Kept flag := by
  cases fields with
  | tableEntry type dir columns rowCount unsealed segment column comment =>
    have hcolumns : columns.map ColumnDef.replayed = columns ↔ ∀ c ∈ columns, c.Kept := by
      conv_lhs => rhs; rw [← map_id columns]
      rw [map_inj_left]
      exact forall₂_congr fun c _ => c.replayed_eq_iff
    simp [replayed, Kept, hcolumns, eq_comm (b := type)]
  | tableIndexEntry indexDir indexBase =>
    by_cases hflag : flag = .delete
    · simp [replayed, Kept, hflag, eq_comm]
    · simp [replayed, Kept, hflag]
  | _ => simp [replayed, Kept]

/-- The operation drops an index; the pointers it compares may be null. -/
def DropsIndex (flag : MergeFlag) (fields : OpFields) : Prop := flag = .delete ∧ fields.type = .addTableIndexEntry

theorem equal_self (hcomplete : fields.Complete flag)
    (hno : ¬ fields.DropsIndex flag) : fields.equal fields = some true := by
  cases fields with
  | tableEntry type dir columns rowCount unsealed segment column comment =>
    have hcolumns : WalSegmentInfo.equalInfos ColumnDef.equal (columns.map id) columns = true :=
      WalSegmentInfo.equalInfos_map fun c _ => c.equal_self
    rw [map_id] at hcolumns
    simp [equal, hcolumns]
  | tableIndexEntry indexDir indexBase =>
    obtain ⟨hdir, hbase⟩ := hcomplete fun hflag => hno ⟨hflag, rfl⟩
    obtain ⟨dir, rfl⟩ := Option.isSome_iff_exists.mp hdir
    obtain ⟨base, rfl⟩ := Option.isSome_iff_exists.mp hbase
    simp [equal, equalIndex, IndexBase.equal]
  | _ => simp [equal]

end OpFields

/-! ### Operations -/

structure CatalogDeltaOperation where
  base : OpBase
  fields : OpFields

namespace CatalogDeltaOperation

variable (pm : Bool)

/-- `operator==`; none where it follows a null pointer. -/
def equal (a b : CatalogDeltaOperation) : Option Bool :=
  if a.base.equal b.base && a.fields.type == b.fields.type then a.fields.equal b.fields else some false

def getSizeInBytes (op : CatalogDeltaOperation) : Nat :=
  1 + op.base.getBaseSizeInBytes pm + op.fields.size op.base.mergeFlag

def measured (op : CatalogDeltaOperation) : CatalogDeltaOperation := {op with base := op.base.measured pm}

def writeAdv (op : CatalogDeltaOperation) : Except DeltaFault Bytes := do
  let base ← (op.base.writeAdvBase pm).mapError DeltaFault.codec
  let fields ← op.fields.write op.base.mergeFlag
  return List.flatten [OpType.write op.fields.type, base, fields]

/-- `CatalogDeltaOperation::ReadAdv` -/
def readAdv (k : Int) : Decode CatalogDeltaOperation := do
  let type ← OpType.read
  let base ← OpBase.readAdvBase pm
  let fields ← OpFields.read k base.mergeFlag type
  checkEnd k
  return ⟨base, fields⟩

/-- The operation as it is read back. -/
def replayed (op : CatalogDeltaOperation) : CatalogDeltaOperation :=
  ⟨op.base.replayed pm, op.fields.replayed op.base.mergeFlag⟩

/-- The addresses of the files are set and no pointer that is followed is null. -/
structure Complete (op : CatalogDeltaOperation) : Prop where
  addresses : pm = true → op.base.addrSerializer.Valid
  fields : op.fields.Complete op.base.mergeFlag

def Kept (op : CatalogDeltaOperation) : Prop := op.fields.Kept op.base.mergeFlag

variable {pm} {op : CatalogDeltaOperation}

theorem size_pos (op : CatalogDeltaOperation) (pm : Bool) : 0 < op.getSizeInBytes pm := by
  rw [getSizeInBytes]
  omega

theorem writes (k : Int) (hcomplete : op.Complete pm) :
    Writes k ((op.measured pm).writeAdv pm) (readAdv pm k) (op.getSizeInBytes pm) (op.replayed pm) := by
  obtain ⟨base, hbase, hreadBase⟩ := OpBase.writes k (b := op.base) hcomplete.addresses
  obtain ⟨fields, hfields, hreadFields⟩ := OpFields.writes k hcomplete.fields
  have hwrite : (op.measured pm).writeAdv pm = .ok (flatten [OpType.write op.fields.type, base, fields]) := by
    show ((op.base.measured pm).writeAdvBase pm).mapError DeltaFault.codec >>= (fun base => do
      let fields ← op.fields.write op.base.mergeFlag
      return flatten [OpType.write op.fields.type, base, fields]) = _
    rw [hbase, hfields]
    rfl
  refine ⟨_, hwrite, ?_⟩
  refine Holds.of_size ((OpType.holds k op.fields.type).bind <| hreadBase.bind <| hreadFields.bind <|
    (holds_checkEnd k).bind <| .pure k (op.replayed pm)) ?_
  rw [getSizeInBytes]
  omega

theorem fills (op : CatalogDeltaOperation) :
    Fills ((op.measured pm).writeAdv pm) (op.getSizeInBytes pm) (op.Complete pm) := by
  intro bytes hok
  obtain ⟨base, hbase, hok⟩ := ok_of_bind hok
  obtain ⟨fields, hfields, hok⟩ := ok_of_bind hok
  cases hok
  have hbase' : (op.base.measured pm).writeAdvBase pm = .ok base := by
    cases hwrite : (op.base.measured pm).writeAdvBase pm with
    | error e =>
      rw [measured, hwrite] at hbase
      cases hbase
    | ok base' =>
      rw [measured, hwrite] at hbase
      cases hbase
      rfl
  obtain ⟨hleBase, heqBase⟩ := op.base.fills base hbase'
  obtain ⟨hleFields, heqFields⟩ := op.fields.fills op.base.mergeFlag fields hfields
  have htype := (OpType.holds 0 op.fields.type).length
  simp only [measured, flatten_cons, flatten_nil, length_append, length_nil, htype, getSizeInBytes]
  exact ⟨by omega, fun hall => ⟨heqBase (by omega), heqFields (by omega)⟩⟩

/-- An operation comes back with its fields if they are all in the format, and equal unless the
comparison follows a null pointer. -/
theorem replayed_eq_iff : op.replayed pm = {op with base := op.base.replayed pm} ↔ op.Kept := by
  rw [Kept, ← OpFields.replayed_eq_iff, replayed, mk.injEq]
  exact and_iff_right rfl

theorem equal_replayed (hcomplete : op.Complete pm) (h : op.Kept) (hno : ¬ op.fields.DropsIndex op.base.mergeFlag) :
    (op.replayed pm).equal op = some true := by
  have hfields := OpFields.equal_self hcomplete.fields hno
  rw [replayed_eq_iff.mpr h]
  simp [equal, hfields, OpBase.equal_replayed]

end CatalogDeltaOperation

/-! ### Entries -/

structure CatalogDeltaEntry where
  maxCommitTs : BitVec 64
  operations : List CatalogDeltaOperation

namespace CatalogDeltaEntry

variable (crc : Bytes → BitVec 32) (pm : Bool)

/-- The number of bytes that `WriteAdv` writes. -/
def sizeInBytes (e : CatalogDeltaEntry) : Nat :=
  8 + 8 + 4 + (e.operations.map (CatalogDeltaOperation.getSizeInBytes pm)).sum + 4

/-- `GetSizeInBytes`, a signed number of 32 bits. -/
def getSizeInBytes (e : CatalogDeltaEntry) : Int := (BitVec.ofNat 32 (e.sizeInBytes pm)).toInt

/-- An operation whose size is checked after it is written. -/
def writeOp (op : CatalogDeltaOperation) : Except DeltaFault Bytes := do
  let expSize := op.getSizeInBytes pm
  let bytes ← (op.measured pm).writeAdv pm
  if BitVec.ofNat 32 expSize ≠ BitVec.ofNat 32 bytes.length then .error (.opSize expSize bytes.length) else .ok bytes

def writeBody (e : CatalogDeltaEntry) (ops : List Bytes) : Bytes :=
  List.flatten [writeBits 8 e.maxCommitTs, writeLE 4 e.operations.length ++ ops.flatten]

def writeAdv (e : CatalogDeltaEntry) : Except DeltaFault Bytes := do
  let ops ← e.operations.mapM (writeOp pm)
  return WalEntry.frame (crc (WalEntry.frame 0 (e.writeBody ops))) (e.writeBody ops)

def readHeader : Decode (BitVec 32 × BitVec 32) := do
  let size ← readBits 4
  let checksum ← readBits 4
  return (size, checksum)

def readOp (k : Int) : Decode CatalogDeltaOperation := do
  checkMore k
  CatalogDeltaOperation.readAdv pm k

/-- What follows the header, up to the copy of the size. -/
def readBody (k : Int) : Decode CatalogDeltaEntry := do
  let maxCommitTs ← readBits 8
  let operations ← readCounted (readOp pm k)
  let _ ← readBits 4
  checkEnd k
  return ⟨maxCommitTs, operations⟩

/-- `CatalogDeltaEntry::ReadAdv`. It fails where a byte outside the buffer would be read or the
engine stops; a `nullptr` is no entry. -/
def readAdv (maxBytes : Int) (bytes : Bytes) : Option (Option CatalogDeltaEntry × Bytes) :=
  if maxBytes ≤ 0 then none
  else
    match readHeader.run bytes with
    | none => none
    | some ((size, checksum), payload) =>
      match WalEntry.readAt bytes (size.toInt - 4) with
      | none => none
      | some size2 =>
        if size ≠ size2 then some (none, payload)
        else if checksum ≠ crc (WalEntry.zeroChecksum bytes size.toInt.toNat) then none
        else
          match (readBody pm (bytes.length - maxBytes)).run payload with
          | none => none
          | some (e, rest) => some (some e, rest)

def replayed (e : CatalogDeltaEntry) : CatalogDeltaEntry :=
  ⟨e.maxCommitTs, e.operations.map (CatalogDeltaOperation.replayed pm)⟩

variable {crc} {pm} {e : CatalogDeltaEntry}

theorem holds_header (k : Int) (n : Nat) (checksum : BitVec 32) :
    Holds k readHeader (flatten [writeLE 4 n, writeBits 4 checksum]) 8 (BitVec.ofNat 32 n, checksum) :=
  ((holds_count k n).bind <| (holds_bits k 4 checksum).bind <| .pure k (BitVec.ofNat 32 n, checksum)).of_size
    (by omega)

theorem readAdv_frame {body : Bytes} {checksum : BitVec 32} {maxBytes : Int} {rest : Bytes} {e' : CatalogDeltaEntry}
    {n : Nat} (hbody : 8 + body.length + 4 = n) (hn : n < 2 ^ 31) (hmax : n ≤ maxBytes)
    (hchecksum : checksum = crc (WalEntry.frame 0 body))
    (hread : ∀ k, Holds k (readBody pm k) (body ++ writeLE 4 n) (n - 8) e') :
    readAdv crc pm maxBytes (WalEntry.frame checksum body ++ rest) = some (some e', rest) := by
  have hlength : (WalEntry.frame checksum body ++ rest).length = n + rest.length := by
    rw [length_append, WalEntry.length_frame, hbody]
  have hsplit : WalEntry.frame checksum body ++ rest =
      flatten [writeLE 4 n, writeBits 4 checksum] ++ (body ++ writeLE 4 n ++ rest) := by
    rw [WalEntry.frame_append, hbody]
    simp
  have hheader := (holds_header 0 n checksum).reads (by decide) (body ++ writeLE 4 n ++ rest) (Int.natCast_nonneg _)
  rw [← hsplit] at hheader
  have hpad : WalEntry.readAt (WalEntry.frame checksum body ++ rest) ((BitVec.ofNat 32 n).toInt - 4) =
      some (BitVec.ofNat 32 n) := by
    have h := WalEntry.readAt_frame checksum body rest
    rwa [hbody, ← WalEntry.toInt_size hn] at h
  have hzero : WalEntry.zeroChecksum (WalEntry.frame checksum body ++ rest) (BitVec.ofNat 32 n).toInt.toNat =
      WalEntry.frame 0 body := by
    rw [WalEntry.toInt_size hn, Int.toNat_natCast, ← hbody, WalEntry.zeroChecksum_frame]
  have hrun := (hread ((WalEntry.frame checksum body ++ rest).length - maxBytes)).reads (by omega) rest (by omega)
  rw [readAdv, if_neg (by omega)]
  simp only [hheader, hpad, hzero, ← hchecksum, ne_eq, not_true_eq_false, if_false, hrun]

end CatalogDeltaEntry

end Infinity.Wal.Codec
