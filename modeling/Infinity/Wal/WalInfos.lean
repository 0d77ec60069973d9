import Infinity.Wal.AddrSerializer

/-! The descriptions of blocks, segments and index chunks that log commands carry.

Each has code of its own for its size, for writing it and for reading it back. What is read is
what was written up to what the log does not keep: the paths, unless a persistence
manager has them, and the counts of users of its objects. -/
namespace Infinity.Wal.Codec

open Lib List

structure WalBlockInfo where
  blockId : BitVec 16
  rowCount : BitVec 16
  rowCapacity : BitVec 16
  outlineInfos : List (BitVec 32 × BitVec 64)
  paths : List Bytes
  addrSerializer : AddrSerializer
  pmSize : Nat
  deriving DecidableEq

namespace WalBlockInfo

variable (pm : Bool)

/-- `operator==` -/
def equal (a b : WalBlockInfo) : Bool :=
  a.blockId == b.blockId && a.rowCount == b.rowCount && a.rowCapacity == b.rowCapacity &&
    a.outlineInfos == b.outlineInfos

def getSizeInBytes (b : WalBlockInfo) : Nat :=
  2 + 2 + 2 + (4 + b.outlineInfos.length * (4 + 8)) + addrsSize pm b.addrSerializer

/-- What `GetSizeInBytes` leaves in `pm_size_`. -/
def measured (b : WalBlockInfo) : WalBlockInfo :=
  {b with pmSize := if pm then b.addrSerializer.getSizeInBytes else b.pmSize}

def writeOutlineInfo (p : BitVec 32 × BitVec 64) : Bytes := List.flatten [writeBits 4 p.1, writeBits 8 p.2]

def readOutlineInfo : Decode (BitVec 32 × BitVec 64) := do
  let bufferCnt ← readBits 4
  let lastChunkOffset ← readBits 8
  return (bufferCnt, lastChunkOffset)

def writeBufferAdv (b : WalBlockInfo) : Except CodecFault Bytes := do
  let addrs ← writeAddrs pm b.addrSerializer b.pmSize
  return List.flatten [writeBits 2 b.blockId, writeBits 2 b.rowCount, writeBits 2 b.rowCapacity,
    writeLE 4 b.outlineInfos.length ++ b.outlineInfos.flatMap writeOutlineInfo, addrs]

def readBufferAdv : Decode WalBlockInfo := do
  let blockId ← readBits 2
  let rowCount ← readBits 2
  let rowCapacity ← readBits 2
  let outlineInfos ← readCounted readOutlineInfo
  let addrs ← readAddrs pm
  return ⟨blockId, rowCount, rowCapacity, outlineInfos, addrs.map AddrEntry.path, addrs, 0⟩

/-- The description as it is read back. -/
def replayed (b : WalBlockInfo) : WalBlockInfo :=
  {b with
    paths := (replayedAddrs pm b.addrSerializer).map AddrEntry.path
    addrSerializer := replayedAddrs pm b.addrSerializer
    pmSize := 0}

def AddressesValid (b : WalBlockInfo) : Prop := pm = true → b.addrSerializer.Valid

variable {pm} {b : WalBlockInfo}

theorem equal_replayed : (b.replayed pm).equal b = true := by
  simp [equal, replayed]

theorem size_pos (pm : Bool) (b : WalBlockInfo) : 0 < b.getSizeInBytes pm := by
  rw [getSizeInBytes]
  omega

theorem writes (k : Int) (hvalid : b.AddressesValid pm) :
    Writes k ((b.measured pm).writeBufferAdv pm) (readBufferAdv pm) (b.getSizeInBytes pm) (b.replayed pm) := by
  have houtline (p : BitVec 32 × BitVec 64) : Holds k readOutlineInfo (writeOutlineInfo p) 12 p :=
    ((holds_bits k 4 p.1).bind <| (holds_bits k 8 p.2).bind <| .pure k p).of_size rfl
  have hinfos : Holds k (readCounted readOutlineInfo)
      (writeLE 4 b.outlineInfos.length ++ b.outlineInfos.flatMap writeOutlineInfo)
      (4 + b.outlineInfos.length * (4 + 8)) b.outlineInfos :=
    (Holds.list (fun _ => by decide) fun p _ => houtline p).of_size (by simp)
  obtain ⟨addrs, hok, haddrs⟩ : Writes k (writeAddrs pm b.addrSerializer (b.measured pm).pmSize) (readAddrs pm)
      (addrsSize pm b.addrSerializer) (replayedAddrs pm b.addrSerializer) :=
    writes_addrs k hvalid fun hpm => if_pos hpm
  refine ⟨_, ?_, ((holds_bits k 2 b.blockId).bind <| (holds_bits k 2 b.rowCount).bind <|
    (holds_bits k 2 b.rowCapacity).bind <| hinfos.bind <| haddrs.bind <| .pure k (b.replayed pm)).of_size ?_⟩
  · show writeAddrs pm b.addrSerializer (b.measured pm).pmSize >>= _ = _
    rw [hok]
    rfl
  · rw [getSizeInBytes]
    omega

end WalBlockInfo

structure WalSegmentInfo where
  segmentId : BitVec 32
  columnCount : BitVec 64
  rowCount : BitVec 64
  actualRowCount : BitVec 64
  rowCapacity : BitVec 64
  blockInfos : List WalBlockInfo
  deriving DecidableEq

namespace WalSegmentInfo

variable (pm : Bool)

/-- `operator==` of two vectors. -/
def equalInfos {α : Type} (equal : α → α → Bool) (a b : List α) : Bool :=
  a.length == b.length && (a.zip b).all fun p => equal p.1 p.2

/-- `operator==` -/
def equal (a b : WalSegmentInfo) : Bool :=
  a.segmentId == b.segmentId && a.columnCount == b.columnCount && a.rowCount == b.rowCount &&
    a.actualRowCount == b.actualRowCount && a.rowCapacity == b.rowCapacity &&
    equalInfos WalBlockInfo.equal a.blockInfos b.blockInfos

def getSizeInBytes (s : WalSegmentInfo) : Nat :=
  4 + 8 + 8 + 8 + 8 + 4 + (s.blockInfos.map (WalBlockInfo.getSizeInBytes pm)).sum

def measured (s : WalSegmentInfo) : WalSegmentInfo := {s with blockInfos := s.blockInfos.map (WalBlockInfo.measured pm)}

def writeBufferAdv (s : WalSegmentInfo) : Except CodecFault Bytes := do
  let blocks ← s.blockInfos.mapM (WalBlockInfo.writeBufferAdv pm)
  return List.flatten [writeBits 4 s.segmentId, writeBits 8 s.columnCount, writeBits 8 s.rowCount,
    writeBits 8 s.actualRowCount, writeBits 8 s.rowCapacity, writeLE 4 s.blockInfos.length ++ blocks.flatten]

def readBufferAdv : Decode WalSegmentInfo := do
  let segmentId ← readBits 4
  let columnCount ← readBits 8
  let rowCount ← readBits 8
  let actualRowCount ← readBits 8
  let rowCapacity ← readBits 8
  let blockInfos ← readCounted (WalBlockInfo.readBufferAdv pm)
  return ⟨segmentId, columnCount, rowCount, actualRowCount, rowCapacity, blockInfos⟩

def replayed (s : WalSegmentInfo) : WalSegmentInfo := {s with blockInfos := s.blockInfos.map (WalBlockInfo.replayed pm)}

def AddressesValid (s : WalSegmentInfo) : Prop := ∀ b ∈ s.blockInfos, b.AddressesValid pm

variable {pm} {s : WalSegmentInfo}

theorem equalInfos_map {α : Type} {equal : α → α → Bool} {f : α → α} {l : List α} (h : ∀ a ∈ l, equal (f a) a = true) :
    equalInfos equal (l.map f) l = true := by
  induction l with
  | nil => rfl
  | cons a l ih =>
    have hl := ih fun b hb => h b (mem_cons_of_mem _ hb)
    simp only [equalInfos, Bool.and_eq_true, beq_iff_eq] at hl
    simp only [equalInfos, map_cons, length_cons, zip_cons_cons, all_cons, Bool.and_eq_true, beq_iff_eq]
    exact ⟨by omega, h a mem_cons_self, hl.2⟩

theorem equal_replayed : (s.replayed pm).equal s = true := by
  have hblocks : equalInfos WalBlockInfo.equal (s.blockInfos.map (WalBlockInfo.replayed pm)) s.blockInfos = true :=
    equalInfos_map fun _ _ => WalBlockInfo.equal_replayed
  simp [equal, replayed, hblocks]

theorem size_pos (pm : Bool) (s : WalSegmentInfo) : 0 < s.getSizeInBytes pm := by
  rw [getSizeInBytes]
  omega

theorem writes (k : Int) (hvalid : s.AddressesValid pm) :
    Writes k ((s.measured pm).writeBufferAdv pm) (readBufferAdv pm) (s.getSizeInBytes pm) (s.replayed pm) := by
  obtain ⟨blocks, hok, hblocks⟩ : ∃ parts, s.blockInfos.mapM (fun b => (b.measured pm).writeBufferAdv pm) = .ok parts ∧
      Holds k (readCounted (WalBlockInfo.readBufferAdv pm)) (writeLE 4 s.blockInfos.length ++ parts.flatten)
        (4 + (s.blockInfos.map (WalBlockInfo.getSizeInBytes pm)).sum) (s.blockInfos.map (WalBlockInfo.replayed pm)) :=
    Writes.counted (WalBlockInfo.size_pos pm) fun b hb => WalBlockInfo.writes k (hvalid b hb)
  refine ⟨_, ?_, ((holds_bits k 4 s.segmentId).bind <| (holds_bits k 8 s.columnCount).bind <|
    (holds_bits k 8 s.rowCount).bind <| (holds_bits k 8 s.actualRowCount).bind <|
    (holds_bits k 8 s.rowCapacity).bind <| hblocks.bind <| .pure k (s.replayed pm)).of_size ?_⟩
  · show (s.blockInfos.map (WalBlockInfo.measured pm)).mapM (WalBlockInfo.writeBufferAdv pm) >>= _ = _
    rw [mapM_map]
    show s.blockInfos.mapM (fun b => (b.measured pm).writeBufferAdv pm) >>= _ = _
    rw [hok]
    simp only [measured, length_map]
    rfl
  · rw [getSizeInBytes]
    omega

end WalSegmentInfo

structure WalChunkIndexInfo where
  chunkId : BitVec 32
  baseName : Bytes
  paths : List Bytes
  addrSerializer : AddrSerializer
  pmSize : Nat
  baseRowid : BitVec 64
  rowCount : BitVec 32
  deprecateTs : BitVec 64
  deriving DecidableEq

namespace WalChunkIndexInfo

variable (pm : Bool)

/-- `operator==` -/
def equal (a b : WalChunkIndexInfo) : Bool :=
  a.chunkId == b.chunkId && a.baseName == b.baseName && a.baseRowid == b.baseRowid && a.rowCount == b.rowCount &&
    a.deprecateTs == b.deprecateTs

def getSizeInBytes (c : WalChunkIndexInfo) : Nat :=
  addrsSize pm c.addrSerializer + 4 + 4 + c.baseName.length + 8 + 4 + 8

def measured (c : WalChunkIndexInfo) : WalChunkIndexInfo :=
  {c with pmSize := if pm then c.addrSerializer.getSizeInBytes else c.pmSize}

def writeBufferAdv (c : WalChunkIndexInfo) : Except CodecFault Bytes := do
  let addrs ← writeAddrs pm c.addrSerializer c.pmSize
  return List.flatten [writeBits 4 c.chunkId, writeString c.baseName, writeBits 8 c.baseRowid,
    writeBits 4 c.rowCount, writeBits 8 c.deprecateTs, addrs]

def readBufferAdv : Decode WalChunkIndexInfo := do
  let chunkId ← readBits 4
  let baseName ← readString
  let baseRowid ← readBits 8
  let rowCount ← readBits 4
  let deprecateTs ← readBits 8
  let addrs ← readAddrs pm
  return ⟨chunkId, baseName, addrs.map AddrEntry.path, addrs, 0, baseRowid, rowCount, deprecateTs⟩

def replayed (c : WalChunkIndexInfo) : WalChunkIndexInfo :=
  {c with
    paths := (replayedAddrs pm c.addrSerializer).map AddrEntry.path
    addrSerializer := replayedAddrs pm c.addrSerializer
    pmSize := 0}

def AddressesValid (c : WalChunkIndexInfo) : Prop := pm = true → c.addrSerializer.Valid

variable {pm} {c : WalChunkIndexInfo}

theorem equal_replayed : (c.replayed pm).equal c = true := by
  simp [equal, replayed]

theorem size_pos (pm : Bool) (c : WalChunkIndexInfo) : 0 < c.getSizeInBytes pm := by
  rw [getSizeInBytes]
  omega

theorem writes (k : Int) (hvalid : c.AddressesValid pm) :
    Writes k ((c.measured pm).writeBufferAdv pm) (readBufferAdv pm) (c.getSizeInBytes pm) (c.replayed pm) := by
  obtain ⟨addrs, hok, haddrs⟩ : Writes k (writeAddrs pm c.addrSerializer (c.measured pm).pmSize) (readAddrs pm)
      (addrsSize pm c.addrSerializer) (replayedAddrs pm c.addrSerializer) :=
    writes_addrs k hvalid fun hpm => if_pos hpm
  refine ⟨_, ?_, ((holds_bits k 4 c.chunkId).bind <| (holds_string k c.baseName).bind <|
    (holds_bits k 8 c.baseRowid).bind <| (holds_bits k 4 c.rowCount).bind <| (holds_bits k 8 c.deprecateTs).bind <|
    haddrs.bind <| .pure k (c.replayed pm)).of_size ?_⟩
  · show writeAddrs pm c.addrSerializer (c.measured pm).pmSize >>= _ = _
    rw [hok]
    rfl
  · rw [getSizeInBytes]
    omega

end WalChunkIndexInfo

end Infinity.Wal.Codec
