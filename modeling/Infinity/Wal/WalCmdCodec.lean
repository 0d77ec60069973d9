import Infinity.Wal.WalInfos

/-! The commands of the log.

A command is written as its type and its fields. The size of a command is computed without
writing it, and the reader, which knows where the entry ends, rebuilds the command from
the type. Table definitions, indexes, data blocks and column definitions have codecs of
their own, of which only the round trip is assumed. -/
namespace Infinity.Wal.Codec

open Lib

/-- The codec of a nested value. `readAdv` is told the number of bytes up to the end. -/
structure NestedCodec (α : Type) where
  getSizeInBytes : α → Nat
  writeAdv : α → Bytes
  readAdv : Int → Decode α
  /-- `operator==` -/
  equal : α → α → Bool
  size_pos : ∀ a, 0 < getSizeInBytes a
  equal_self : ∀ a, equal a a = true
  holds : ∀ a (maxBytes : Int), getSizeInBytes a ≤ maxBytes →
    Holds 0 (readAdv maxBytes) (writeAdv a) (getSizeInBytes a) a

/-- The values in commands that are modelled by their codecs only. -/
structure Nested where
  TableDef : Type
  IndexBase : Type
  DataBlock : Type
  ColumnDef : Type
  tableDef : NestedCodec TableDef
  indexBase : NestedCodec IndexBase
  dataBlock : NestedCodec DataBlock
  columnDef : NestedCodec ColumnDef

inductive WalCommandType where
  | createDatabase
  | dropDatabase
  | createTable
  | dropTable
  | createIndex
  | dropIndex
  | importData
  | append
  | delete
  | setSegmentStatusSealed
  | updateSegmentBloomFilterData
  | renameTable
  | addColumns
  | dropColumns
  | checkpoint
  | compact
  | optimize
  | dumpIndex
  deriving DecidableEq, Repr

namespace WalCommandType

def code : WalCommandType → BitVec 8
  | createDatabase => 1
  | dropDatabase => 2
  | createTable => 3
  | dropTable => 4
  | createIndex => 6
  | dropIndex => 7
  | importData => 20
  | append => 21
  | delete => 22
  | setSegmentStatusSealed => 31
  | updateSegmentBloomFilterData => 32
  | renameTable => 40
  | addColumns => 41
  | dropColumns => 42
  | checkpoint => 99
  | compact => 100
  | optimize => 101
  | dumpIndex => 102

def all : List WalCommandType :=
  [createDatabase, dropDatabase, createTable, dropTable, createIndex, dropIndex, importData, append, delete,
    setSegmentStatusSealed, updateSegmentBloomFilterData, renameTable, addColumns, dropColumns, checkpoint, compact,
    optimize, dumpIndex]

/-- The type with a code; other codes stop the reader. -/
def ofCode (c : BitVec 8) : Option WalCommandType := all.find? fun t => t.code == c

theorem ofCode_code (t : WalCommandType) : ofCode t.code = some t := by
  cases t <;> rfl

def write (t : WalCommandType) : Bytes := writeBits 1 t.code

def read : Decode WalCommandType := do
  let c ← readBits 1
  match ofCode c with
  | some t => return t
  | none => failure

theorem holds (k : Int) (t : WalCommandType) : Holds k read t.write 1 t := by
  refine Holds.of_size (Holds.of_bytes (Holds.bind (holds_bits k 1 t.code) ?_) (List.append_nil _)) (add_zero 1)
  rw [ofCode_code]
  exact .pure k t

end WalCommandType

inductive WalCmd (N : Nested) where
  | createDatabase (dbName dbDirTail dbComment : Bytes)
  | dropDatabase (dbName : Bytes)
  | createTable (dbName tableDirTail : Bytes) (tableDef : N.TableDef)
  | dropTable (dbName tableName : Bytes)
  | createIndex (dbName tableName indexDirTail : Bytes) (indexBase : N.IndexBase)
  | dropIndex (dbName tableName indexName : Bytes)
  | importData (dbName tableName : Bytes) (segmentInfo : WalSegmentInfo)
  | append (dbName tableName : Bytes) (block : N.DataBlock)
  | delete (dbName tableName : Bytes) (rowIds : List (BitVec 64))
  | setSegmentStatusSealed (dbName tableName : Bytes) (segmentId : BitVec 32) (segmentFilter : Bytes)
    (blockFilters : List (BitVec 16 × Bytes))
  | updateSegmentBloomFilterData (dbName tableName : Bytes) (segmentId : BitVec 32) (segmentFilter : Bytes)
    (blockFilters : List (BitVec 16 × Bytes))
  | renameTable (dbName tableName newTableName : Bytes)
  | addColumns (dbName tableName : Bytes) (columnDefs : List N.ColumnDef)
  | dropColumns (dbName tableName : Bytes) (columnNames : List Bytes)
  | checkpoint (maxCommitTs : BitVec 64) (isFullCheckpoint : Bool) (catalogPath catalogName : Bytes)
  | compact (dbName tableName : Bytes) (newSegmentInfos : List WalSegmentInfo)
    (deprecatedSegmentIds : List (BitVec 32))
  | optimize (dbName tableName indexName : Bytes) (params : List (Bytes × Bytes))
  | dumpIndex (dbName tableName indexName : Bytes) (segmentId : BitVec 32) (chunkInfos : List WalChunkIndexInfo)
    (deprecateIds : List (BitVec 32))

/-! ### Filters of blocks and parameters of indexes -/

def writeBlockFilter (f : BitVec 16 × Bytes) : Bytes := List.flatten [writeBits 2 f.1, writeString f.2]

def readBlockFilter : Decode (BitVec 16 × Bytes) := do
  let blockId ← readBits 2
  let data ← readString
  return (blockId, data)

/-- `InitParameter` -/
def writeParam (p : Bytes × Bytes) : Bytes := List.flatten [writeString p.1, writeString p.2]

def readParam : Decode (Bytes × Bytes) := do
  let name ← readString
  let value ← readString
  return (name, value)

theorem holds_blockFilter (k : Int) (f : BitVec 16 × Bytes) :
    Holds k readBlockFilter (writeBlockFilter f) (2 + (4 + f.2.length)) f :=
  ((holds_bits k 2 f.1).bind <| (holds_string k f.2).bind <| .pure k f).of_size (by omega)

theorem holds_param (k : Int) (p : Bytes × Bytes) :
    Holds k readParam (writeParam p) (4 + p.1.length + 4 + p.2.length) p :=
  ((holds_string k p.1).bind <| (holds_string k p.2).bind <| .pure k p).of_size (by omega)

namespace WalCmd

variable {N : Nested} (pm : Bool)

/-! ### Sizes -/

/-- The sum of `GetSizeInBytes` before it is cut to 32 bits. -/
def getSizeInBytes : WalCmd N → Nat
  | .createDatabase dbName dbDirTail dbComment => 1 + 4 + dbName.length + 4 + dbDirTail.length + 4 + dbComment.length
  | .dropDatabase dbName => 1 + 4 + dbName.length
  | .createTable dbName tableDirTail tableDef =>
    1 + 4 + dbName.length + 4 + tableDirTail.length + N.tableDef.getSizeInBytes tableDef
  | .dropTable dbName tableName => 1 + 4 + dbName.length + 4 + tableName.length
  | .createIndex dbName tableName indexDirTail indexBase =>
    1 + 4 + dbName.length + 4 + tableName.length + 4 + indexDirTail.length + N.indexBase.getSizeInBytes indexBase
  | .dropIndex dbName tableName indexName => 1 + 4 + dbName.length + 4 + tableName.length + 4 + indexName.length
  | .importData dbName tableName segmentInfo =>
    1 + 4 + dbName.length + 4 + tableName.length + segmentInfo.getSizeInBytes pm
  | .append dbName tableName block => 1 + 4 + dbName.length + 4 + tableName.length + N.dataBlock.getSizeInBytes block
  | .delete dbName tableName rowIds => 1 + 4 + dbName.length + 4 + tableName.length + 4 + rowIds.length * 8
  | .setSegmentStatusSealed dbName tableName _ segmentFilter blockFilters =>
    1 + (4 + dbName.length) + (4 + tableName.length) + 4 + (4 + segmentFilter.length) + 4 +
      (blockFilters.map fun f => 2 + (4 + f.2.length)).sum
  | .updateSegmentBloomFilterData dbName tableName _ segmentFilter blockFilters =>
    1 + (4 + dbName.length) + (4 + tableName.length) + 4 + (4 + segmentFilter.length) + 4 +
      (blockFilters.map fun f => 2 + (4 + f.2.length)).sum
  | .renameTable dbName tableName newTableName => 1 + 4 + dbName.length + 4 + tableName.length + 4 + newTableName.length
  | .addColumns dbName tableName columnDefs =>
    1 + 4 + dbName.length + 4 + tableName.length + 4 + (columnDefs.map N.columnDef.getSizeInBytes).sum
  | .dropColumns dbName tableName columnNames =>
    1 + 4 + dbName.length + 4 + tableName.length + 4 + (columnNames.map fun name => 4 + name.length).sum
  | .checkpoint _ _ catalogPath catalogName => 1 + 8 + 1 + 4 + 4 + catalogPath.length + catalogName.length
  | .compact dbName tableName newSegmentInfos deprecatedSegmentIds =>
    1 + 4 + dbName.length + 4 + tableName.length + 4 +
      (newSegmentInfos.map (WalSegmentInfo.getSizeInBytes pm)).sum + 4 + deprecatedSegmentIds.length * 4
  | .optimize dbName tableName indexName params =>
    1 + 4 + dbName.length + 4 + tableName.length + 4 + indexName.length + 4 +
      (params.map fun p => 4 + p.1.length + 4 + p.2.length).sum
  | .dumpIndex dbName tableName indexName _ chunkInfos deprecateIds =>
    1 + 4 + dbName.length + 4 + tableName.length + 4 + indexName.length + 4 + 4 +
      (chunkInfos.map (WalChunkIndexInfo.getSizeInBytes pm)).sum + (4 + 4 * deprecateIds.length)

/-- What `GetSizeInBytes` leaves in the command. -/
def measured : WalCmd N → WalCmd N
  | .importData dbName tableName segmentInfo => .importData dbName tableName (segmentInfo.measured pm)
  | .compact dbName tableName newSegmentInfos deprecatedSegmentIds =>
    .compact dbName tableName (newSegmentInfos.map (WalSegmentInfo.measured pm)) deprecatedSegmentIds
  | .dumpIndex dbName tableName indexName segmentId chunkInfos deprecateIds =>
    .dumpIndex dbName tableName indexName segmentId (chunkInfos.map (WalChunkIndexInfo.measured pm)) deprecateIds
  | cmd => cmd

/-! ### Writing -/

/-- `WalCmdSetSegmentStatusSealed::WriteAdv` and `WalCmdUpdateSegmentBloomFilterData::WriteAdv` -/
def writeFilters (t : WalCommandType) (dbName tableName : Bytes) (segmentId : BitVec 32) (segmentFilter : Bytes)
    (blockFilters : List (BitVec 16 × Bytes)) : Bytes :=
  List.flatten [t.write, writeString dbName, writeString tableName, writeBits 4 segmentId, writeString segmentFilter,
    writeLE 4 blockFilters.length ++ blockFilters.flatMap writeBlockFilter]

def writeAdv : WalCmd N → Except CodecFault Bytes
  | .createDatabase dbName dbDirTail dbComment => .ok <| List.flatten
    [WalCommandType.createDatabase.write, writeString dbName, writeString dbDirTail, writeString dbComment]
  | .dropDatabase dbName => .ok <| List.flatten [WalCommandType.dropDatabase.write, writeString dbName]
  | .createTable dbName tableDirTail tableDef => .ok <| List.flatten
    [WalCommandType.createTable.write, writeString dbName, writeString tableDirTail, N.tableDef.writeAdv tableDef]
  | .dropTable dbName tableName => .ok <| List.flatten
    [WalCommandType.dropTable.write, writeString dbName, writeString tableName]
  | .createIndex dbName tableName indexDirTail indexBase => .ok <| List.flatten
    [WalCommandType.createIndex.write, writeString dbName, writeString tableName, writeString indexDirTail,
      N.indexBase.writeAdv indexBase]
  | .dropIndex dbName tableName indexName => .ok <| List.flatten
    [WalCommandType.dropIndex.write, writeString dbName, writeString tableName, writeString indexName]
  | .importData dbName tableName segmentInfo => do
    let segment ← segmentInfo.writeBufferAdv pm
    return List.flatten [WalCommandType.importData.write, writeString dbName, writeString tableName, segment]
  | .append dbName tableName block => .ok <| List.flatten
    [WalCommandType.append.write, writeString dbName, writeString tableName, N.dataBlock.writeAdv block]
  | .delete dbName tableName rowIds => .ok <| List.flatten
    [WalCommandType.delete.write, writeString dbName, writeString tableName,
      writeLE 4 rowIds.length ++ rowIds.flatMap (writeBits 8)]
  | .setSegmentStatusSealed dbName tableName segmentId segmentFilter blockFilters =>
    .ok (writeFilters .setSegmentStatusSealed dbName tableName segmentId segmentFilter blockFilters)
  | .updateSegmentBloomFilterData dbName tableName segmentId segmentFilter blockFilters =>
    .ok (writeFilters .updateSegmentBloomFilterData dbName tableName segmentId segmentFilter blockFilters)
  | .renameTable dbName tableName newTableName => .ok <| List.flatten
    [WalCommandType.renameTable.write, writeString dbName, writeString tableName, writeString newTableName]
  | .addColumns dbName tableName columnDefs => .ok <| List.flatten
    [WalCommandType.addColumns.write, writeString dbName, writeString tableName,
      writeLE 4 columnDefs.length ++ columnDefs.flatMap N.columnDef.writeAdv]
  | .dropColumns dbName tableName columnNames => .ok <| List.flatten
    [WalCommandType.dropColumns.write, writeString dbName, writeString tableName,
      writeLE 4 columnNames.length ++ columnNames.flatMap writeString]
  | .checkpoint maxCommitTs isFullCheckpoint catalogPath catalogName => .ok <| List.flatten
    [WalCommandType.checkpoint.write, writeBits 8 maxCommitTs, writeBits 1 (if isFullCheckpoint then 1 else 0),
      writeString catalogPath, writeString catalogName]
  | .compact dbName tableName newSegmentInfos deprecatedSegmentIds => do
    let segments ← newSegmentInfos.mapM (WalSegmentInfo.writeBufferAdv pm)
    return List.flatten [WalCommandType.compact.write, writeString dbName, writeString tableName,
      writeLE 4 newSegmentInfos.length ++ segments.flatten,
      writeLE 4 deprecatedSegmentIds.length ++ deprecatedSegmentIds.flatMap (writeBits 4)]
  | .optimize dbName tableName indexName params => .ok <| List.flatten
    [WalCommandType.optimize.write, writeString dbName, writeString tableName, writeString indexName,
      writeLE 4 params.length ++ params.flatMap writeParam]
  | .dumpIndex dbName tableName indexName segmentId chunkInfos deprecateIds => do
    let chunks ← chunkInfos.mapM (WalChunkIndexInfo.writeBufferAdv pm)
    return List.flatten [WalCommandType.dumpIndex.write, writeString dbName, writeString tableName,
      writeString indexName, writeBits 4 segmentId, writeLE 4 chunkInfos.length ++ chunks.flatten,
      writeLE 4 deprecateIds.length ++ deprecateIds.flatMap (writeBits 4)]

/-! ### Reading -/

def readFilters (make : Bytes → Bytes → BitVec 32 → Bytes → List (BitVec 16 × Bytes) → WalCmd N) :
    Decode (WalCmd N) := do
  let dbName ← readString
  let tableName ← readString
  let segmentId ← readBits 4
  let segmentFilter ← readString
  let blockFilters ← readCounted readBlockFilter
  return make dbName tableName segmentId segmentFilter blockFilters

/-- The branches of `WalCmd::ReadAdv`. The bytes end before the last `k`; `maxBytes` is the number
of bytes up to there from the start of the command. -/
def readFields (k maxBytes : Int) : WalCommandType → Decode (WalCmd N)
  | .createDatabase => do
    let dbName ← readString
    let dbDirTail ← readString
    let dbComment ← readString
    return .createDatabase dbName dbDirTail dbComment
  | .dropDatabase => do
    let dbName ← readString
    return .dropDatabase dbName
  | .createTable => do
    let dbName ← readString
    let tableDirTail ← readString
    let tableDef ← withEnd k N.tableDef.readAdv
    return .createTable dbName tableDirTail tableDef
  | .dropTable => do
    let dbName ← readString
    let tableName ← readString
    return .dropTable dbName tableName
  | .createIndex => do
    let dbName ← readString
    let tableName ← readString
    let indexDirTail ← readString
    let indexBase ← withEnd k N.indexBase.readAdv
    return .createIndex dbName tableName indexDirTail indexBase
  | .dropIndex => do
    let dbName ← readString
    let tableName ← readString
    let indexName ← readString
    return .dropIndex dbName tableName indexName
  | .importData => do
    let dbName ← readString
    let tableName ← readString
    let segmentInfo ← WalSegmentInfo.readBufferAdv pm
    return .importData dbName tableName segmentInfo
  | .append => do
    let dbName ← readString
    let tableName ← readString
    let block ← withEnd k N.dataBlock.readAdv
    return .append dbName tableName block
  | .delete => do
    let dbName ← readString
    let tableName ← readString
    let rowIds ← readCounted (readBits 8)
    return .delete dbName tableName rowIds
  | .setSegmentStatusSealed => readFilters .setSegmentStatusSealed
  | .updateSegmentBloomFilterData => readFilters .updateSegmentBloomFilterData
  | .renameTable => do
    let dbName ← readString
    let tableName ← readString
    let newTableName ← readString
    return .renameTable dbName tableName newTableName
  | .addColumns => do
    let dbName ← readString
    let tableName ← readString
    -- the columns are told the bytes of the whole command
    let columnDefs ← readCounted (N.columnDef.readAdv maxBytes)
    return .addColumns dbName tableName columnDefs
  | .dropColumns => do
    let dbName ← readString
    let tableName ← readString
    let columnNames ← readCounted readString
    return .dropColumns dbName tableName columnNames
  | .checkpoint => do
    let maxCommitTs ← readBits 8
    let isFullCheckpoint ← readBits 1
    let catalogPath ← readString
    let catalogName ← readString
    return .checkpoint maxCommitTs (isFullCheckpoint != 0) catalogPath catalogName
  | .compact => do
    let dbName ← readString
    let tableName ← readString
    let newSegmentInfos ← readCounted (WalSegmentInfo.readBufferAdv pm)
    let deprecatedSegmentIds ← readCounted (readBits 4)
    return .compact dbName tableName newSegmentInfos deprecatedSegmentIds
  | .optimize => do
    let dbName ← readString
    let tableName ← readString
    let indexName ← readString
    let params ← readCounted readParam
    return .optimize dbName tableName indexName params
  | .dumpIndex => do
    let dbName ← readString
    let tableName ← readString
    let indexName ← readString
    let segmentId ← readBits 4
    let chunkInfos ← readCounted (WalChunkIndexInfo.readBufferAdv pm)
    let deprecateIds ← readCounted (readBits 4)
    return .dumpIndex dbName tableName indexName segmentId chunkInfos deprecateIds

def readAdv (k maxBytes : Int) : Decode (WalCmd N) := do
  let t ← WalCommandType.read
  let cmd ← readFields pm k maxBytes t
  checkEnd k
  return cmd

/-! ### What is read back -/

def replayed : WalCmd N → WalCmd N
  | .importData dbName tableName segmentInfo => .importData dbName tableName (segmentInfo.replayed pm)
  | .compact dbName tableName newSegmentInfos deprecatedSegmentIds =>
    .compact dbName tableName (newSegmentInfos.map (WalSegmentInfo.replayed pm)) deprecatedSegmentIds
  | .dumpIndex dbName tableName indexName segmentId chunkInfos deprecateIds =>
    .dumpIndex dbName tableName indexName segmentId (chunkInfos.map (WalChunkIndexInfo.replayed pm)) deprecateIds
  | cmd => cmd

/-- `operator==` of the commands. -/
def equal : WalCmd N → WalCmd N → Bool
  | .createDatabase db dir _, .createDatabase db' dir' _ => db == db' && dir == dir'
  | .dropDatabase db, .dropDatabase db' => db == db'
  | .createTable db dir d, .createTable db' dir' d' => db == db' && dir == dir' && N.tableDef.equal d d'
  | .dropTable db t, .dropTable db' t' => db == db' && t == t'
  | .createIndex db t dir i, .createIndex db' t' dir' i' =>
    db == db' && t == t' && dir == dir' && N.indexBase.equal i i'
  | .dropIndex db t i, .dropIndex db' t' i' => db == db' && t == t' && i == i'
  | .importData db t s, .importData db' t' s' => db == db' && t == t' && s.equal s'
  | .append db t _, .append db' t' _ => db == db' && t == t'
  | .delete db t rows, .delete db' t' rows' => db == db' && t == t' && rows == rows'
  | .setSegmentStatusSealed db t s f fs, .setSegmentStatusSealed db' t' s' f' fs' =>
    db == db' && t == t' && s == s' && f == f' && fs == fs'
  | .updateSegmentBloomFilterData db t s f fs, .updateSegmentBloomFilterData db' t' s' f' fs' =>
    db == db' && t == t' && s == s' && f == f' && fs == fs'
  | .renameTable db t n, .renameTable db' t' n' => db == db' && t == t' && n == n'
  | .addColumns db t cs, .addColumns db' t' cs' =>
    db == db' && t == t' && WalSegmentInfo.equalInfos N.columnDef.equal cs cs'
  | .dropColumns db t ns, .dropColumns db' t' ns' => db == db' && t == t' && ns == ns'
  | .checkpoint ts full _ _, .checkpoint ts' full' _ _ => ts == ts' && full == full'
  | .compact db t _ ids, .compact db' t' _ ids' => db == db' && t == t' && ids == ids'
  | .optimize db t i _, .optimize db' t' i' _ => db == db' && t == t' && i == i'
  | .dumpIndex db t i s cs ids, .dumpIndex db' t' i' s' cs' ids' =>
    db == db' && t == t' && i == i' && s == s' && WalSegmentInfo.equalInfos WalChunkIndexInfo.equal cs cs' &&
      ids == ids'
  | _, _ => false

/-- Every object address that is written is set. -/
def AddressesValid : WalCmd N → Prop
  | .importData _ _ segmentInfo => segmentInfo.AddressesValid pm
  | .compact _ _ newSegmentInfos _ => ∀ s ∈ newSegmentInfos, s.AddressesValid pm
  | .dumpIndex _ _ _ _ chunkInfos _ => ∀ c ∈ chunkInfos, c.AddressesValid pm
  | _ => True

variable {pm}

theorem size_pos (pm : Bool) (c : WalCmd N) : 0 < c.getSizeInBytes pm := by
  cases c <;> simp only [getSizeInBytes] <;> omega

theorem equal_replayed (c : WalCmd N) : (c.replayed pm).equal c = true := by
  have hcolumns (cs : List N.ColumnDef) : WalSegmentInfo.equalInfos N.columnDef.equal cs cs = true := by
    have h := WalSegmentInfo.equalInfos_map (f := id) fun c (_ : c ∈ cs) => N.columnDef.equal_self c
    rwa [List.map_id] at h
  cases c with
  | importData db t s => simp [replayed, equal, WalSegmentInfo.equal_replayed]
  | dumpIndex db t i s cs ids =>
    have hchunks : WalSegmentInfo.equalInfos WalChunkIndexInfo.equal (cs.map (WalChunkIndexInfo.replayed pm)) cs = true :=
      WalSegmentInfo.equalInfos_map fun _ _ => WalChunkIndexInfo.equal_replayed
    simp [replayed, equal, hchunks]
  | createTable db dir d => simp [replayed, equal, N.tableDef.equal_self]
  | createIndex db t dir i => simp [replayed, equal, N.indexBase.equal_self]
  | addColumns db t cs => simp [replayed, equal, hcolumns]
  | _ => simp [replayed, equal]

/-! ### The round trip -/

section RoundTrip

variable {k maxBytes : Int}

theorem holds_of_fields {t : WalCommandType} {bytes : Bytes} {n : Nat} {c : WalCmd N}
    (h : Holds k (readFields pm k maxBytes t) bytes n c) :
    Holds k (readAdv pm k maxBytes) (t.write ++ bytes) (1 + n) c := by
  refine (t.holds k).bind (Holds.of_size (Holds.of_bytes (Holds.bind h ?_) (List.append_nil _)) (add_zero n))
  exact (holds_checkEnd k).bind (f := fun _ => pure c) (.pure k c)

theorem nested_holds {α : Type} (C : NestedCodec α) (a : α) :
    Holds k (withEnd k C.readAdv) (C.writeAdv a) (C.getSizeInBytes a) a :=
  .withEnd fun maxBytes hmax => (C.holds a maxBytes hmax).any k

theorem holds_ids (w : Nat) (hw : 0 < w) (ids : List (BitVec (8 * w))) :
    Holds k (readCounted (readBits w)) (writeLE 4 ids.length ++ ids.flatMap (writeBits w)) (4 + ids.length * w) ids :=
  (Holds.list (fun _ => hw) fun x _ => holds_bits k w x).of_size (by simp)

theorem holds_filters {make : Bytes → Bytes → BitVec 32 → Bytes → List (BitVec 16 × Bytes) → WalCmd N}
    {db t f : Bytes} {s : BitVec 32} {fs : List (BitVec 16 × Bytes)} :
    Holds k (readFilters make) (List.flatten [writeString db, writeString t, writeBits 4 s, writeString f,
        writeLE 4 fs.length ++ fs.flatMap writeBlockFilter])
      (4 + db.length + (4 + t.length) + 4 + (4 + f.length) + 4 + (fs.map fun f => 2 + (4 + f.2.length)).sum)
      (make db t s f fs) := by
  have hfs : Holds k (readCounted readBlockFilter) (writeLE 4 fs.length ++ fs.flatMap writeBlockFilter)
      (4 + (fs.map fun f => 2 + (4 + f.2.length)).sum) fs :=
    Holds.list (fun _ => by omega) fun f _ => holds_blockFilter k f
  exact ((holds_string k db).bind <| (holds_string k t).bind <| (holds_bits k 4 s).bind <|
    (holds_string k f).bind <| hfs.bind <| .pure k (make db t s f fs)).of_size (by omega)

theorem holds_names {α : Type} {f : Bytes → Bytes → Decode α} {db t bytes : Bytes} {n : Nat} {a : α}
    (h : Holds k (f db t) bytes n a) :
    Holds k (do let db ← readString; let t ← readString; f db t) (writeString db ++ (writeString t ++ bytes))
      (4 + db.length + (4 + t.length + n)) a :=
  (holds_string k db).bind <| (holds_string k t).bind h

theorem writes_of_fields {c c' : WalCmd N} {t : WalCommandType} {bytes : Bytes} {n m : Nat}
    (hwrite : c.writeAdv pm = .ok (t.write ++ bytes)) (h : Holds k (readFields pm k maxBytes t) bytes n c')
    (hsize : 1 + n = m) : Writes k (c.writeAdv pm) (readAdv pm k maxBytes) m c' :=
  ⟨_, hwrite, (holds_of_fields h).of_size hsize⟩

theorem writes_infos {α : Type} {r : Decode α} {l : List α} {measured replayed : α → α}
    {write : α → Except CodecFault Bytes} {size : α → Nat} (hpos : ∀ a, 0 < size a)
    (h : ∀ a ∈ l, Writes k (write (measured a)) r (size a) (replayed a)) :
    ∃ parts, (l.map measured).mapM write = .ok parts ∧
      Holds k (readCounted r) (writeLE 4 (l.map measured).length ++ parts.flatten) (4 + (l.map size).sum)
        (l.map replayed) := by
  rw [List.mapM_map, List.length_map]
  exact Writes.counted hpos h

/-- A command is read back from what is written for it, and has the size that was computed. -/
theorem writes (c : WalCmd N) (hvalid : c.AddressesValid pm) (hmax : c.getSizeInBytes pm ≤ maxBytes) :
    Writes k ((c.measured pm).writeAdv pm) (readAdv pm k maxBytes) (c.getSizeInBytes pm) (c.replayed pm) := by
  cases c with rw [getSizeInBytes]
  | createDatabase db dir comment =>
    exact writes_of_fields rfl (holds_names <| (holds_string k comment).bind <| .pure k _)
      (by omega)
  | dropDatabase db =>
    exact writes_of_fields rfl ((holds_string k db).bind <| .pure k _) (by omega)
  | createTable db dir d =>
    exact writes_of_fields rfl (holds_names <| (nested_holds N.tableDef d).bind <| .pure k _) (by omega)
  | dropTable db t =>
    exact writes_of_fields rfl (holds_names <| .pure k _) (by omega)
  | createIndex db t dir i =>
    exact writes_of_fields rfl (holds_names <| (holds_string k dir).bind <|
      (nested_holds N.indexBase i).bind <| .pure k _) (by omega)
  | append db t b =>
    exact writes_of_fields rfl (holds_names <| (nested_holds N.dataBlock b).bind <| .pure k _) (by omega)
  | delete db t rows =>
    exact writes_of_fields rfl (holds_names <| (holds_ids 8 (by decide) rows).bind <| .pure k _) (by omega)
  | dropIndex db t name | renameTable db t name =>
    exact writes_of_fields rfl (holds_names <| (holds_string k name).bind <| .pure k _) (by omega)
  | addColumns db t cs =>
    rw [getSizeInBytes] at hmax
    have hcolumns : Holds k (readCounted (N.columnDef.readAdv maxBytes))
        (writeLE 4 cs.length ++ cs.flatMap N.columnDef.writeAdv) (4 + (cs.map N.columnDef.getSizeInBytes).sum)
        cs := by
      refine .list N.columnDef.size_pos fun c hc => (N.columnDef.holds c maxBytes ?_).any k
      have := le_sum_map N.columnDef.getSizeInBytes hc
      omega
    exact writes_of_fields rfl (holds_names <| hcolumns.bind <| .pure k _) (by omega)
  | dropColumns db t ns =>
    have hnames : Holds k (readCounted readString) (writeLE 4 ns.length ++ ns.flatMap writeString)
        (4 + (ns.map fun name => 4 + name.length).sum) ns :=
      Holds.list (fun _ => by omega) fun name _ => holds_string k name
    exact writes_of_fields rfl (holds_names <| hnames.bind <| .pure k _) (by omega)
  | optimize db t i ps =>
    have hparams : Holds k (readCounted readParam) (writeLE 4 ps.length ++ ps.flatMap writeParam)
        (4 + (ps.map fun p => 4 + p.1.length + 4 + p.2.length).sum) ps :=
      Holds.list (fun _ => by omega) fun p _ => holds_param k p
    exact writes_of_fields rfl (holds_names <| (holds_string k i).bind <| hparams.bind <|
      .pure k _) (by omega)
  | setSegmentStatusSealed db t s f fs | updateSegmentBloomFilterData db t s f fs =>
    exact writes_of_fields rfl holds_filters (by omega)
  | checkpoint ts full path name =>
    have hfull : ((if full then 1 else 0 : BitVec (8 * 1)) != 0) = full := by cases full <;> rfl
    have hfields : Holds k (readFields pm k maxBytes .checkpoint)
        (List.flatten [writeBits 8 ts, writeBits 1 (if full then 1 else 0), writeString path, writeString name])
        (8 + (1 + (4 + path.length + (4 + name.length + 0))))
        (checkpoint ts ((if full then 1 else 0 : BitVec (8 * 1)) != 0) path name : WalCmd N) :=
      (holds_bits k 8 ts).bind <| (holds_bits k 1 (if full then 1 else 0)).bind <| holds_names <| .pure k _
    rw [hfull] at hfields
    exact writes_of_fields rfl hfields (by omega)
  | importData db t s =>
    obtain ⟨segment, hok, hsegment⟩ := WalSegmentInfo.writes k hvalid
    refine writes_of_fields (t := .importData) ?_ (holds_names <| hsegment.bind <| .pure k _) (by omega)
    show (s.measured pm).writeBufferAdv pm >>= _ = _
    rw [hok]
    rfl
  | compact db t ss ids =>
    obtain ⟨segments, hok, hsegments⟩ := writes_infos (WalSegmentInfo.size_pos pm) fun s hs =>
      WalSegmentInfo.writes k (hvalid s hs)
    refine writes_of_fields (t := .compact) ?_ (holds_names <| hsegments.bind <|
      (holds_ids 4 (by decide) ids).bind <| .pure k _) (by omega)
    show (ss.map (WalSegmentInfo.measured pm)).mapM (WalSegmentInfo.writeBufferAdv pm) >>= _ = _
    rw [hok]
    rfl
  | dumpIndex db t i s cs ids =>
    obtain ⟨chunks, hok, hchunks⟩ := writes_infos (WalChunkIndexInfo.size_pos pm) fun c hc =>
      WalChunkIndexInfo.writes k (hvalid c hc)
    refine writes_of_fields (t := .dumpIndex) ?_ (holds_names <| (holds_string k i).bind <|
      (holds_bits k 4 s).bind <| hchunks.bind <| (holds_ids 4 (by decide) ids).bind <| .pure k _) (by omega)
    show (cs.map (WalChunkIndexInfo.measured pm)).mapM (WalChunkIndexInfo.writeBufferAdv pm) >>= _ = _
    rw [hok]
    rfl

end RoundTrip

end WalCmd

end Infinity.Wal.Codec
