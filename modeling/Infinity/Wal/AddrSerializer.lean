import Infinity.Lib.Decode

/-! Object addresses in log and catalog records.

With a persistence manager, a record of a file says where its bytes are: the object, the part
of it, and the state of the object. `AddrSerializer` writes these for a list of paths. An
address that is not set yet stops the writer. -/
namespace Infinity.Wal.Codec

open Lib List

abbrev Bytes := List UInt8

inductive CodecFault where
  /-- "Invalid object address for path {}" -/
  | invalidAddress (path : Bytes)
  /-- "WriteBufferAdv size mismatch: expected {}, actual {}" and "Mismatched pm_size: {} != {}" -/
  | sizeMismatch (expected actual : Nat)
  deriving DecidableEq, Repr

structure ObjAddr where
  objKey : Bytes
  partOffset : BitVec 64
  partSize : BitVec 64
  deriving DecidableEq, Repr

namespace ObjAddr

def valid (a : ObjAddr) : Bool := !a.objKey.isEmpty

def getSizeInBytes (a : ObjAddr) : Nat := 4 + a.objKey.length + 8 + 8

def writeBufAdv (a : ObjAddr) : Bytes :=
  List.flatten [writeString a.objKey, writeBits 8 a.partOffset, writeBits 8 a.partSize]

def readBufAdv : Decode ObjAddr := do
  let objKey ← readString
  let partOffset ← readBits 8
  let partSize ← readBits 8
  return ⟨objKey, partOffset, partSize⟩

theorem holds (k : Int) (a : ObjAddr) : Holds k readBufAdv a.writeBufAdv a.getSizeInBytes a :=
  ((holds_string k a.objKey).bind <| (holds_bits k 8 a.partOffset).bind <| (holds_bits k 8 a.partSize).bind <|
    .pure k a).of_size rfl

end ObjAddr

structure Range where
  start : BitVec 64
  stop : BitVec 64
  deriving DecidableEq, Repr

/-- `emplace` of a set that is ordered by the starts. -/
def emplace : List Range → Range → List Range
  | [], r => [r]
  | a :: l, r => if r.start < a.start then r :: a :: l else if a.start < r.start then a :: emplace l r else a :: l

theorem mem_emplace {l : List Range} {r x : Range} (h : x ∈ emplace l r) : x = r ∨ x ∈ l := by
  induction l with
  | nil => exact .inl (mem_singleton.mp h)
  | cons a l ih =>
    rw [emplace] at h
    split at h
    · exact mem_cons.mp h
    split at h
    · rcases mem_cons.mp h with rfl | h
      · exact .inr mem_cons_self
      · exact (ih h).imp id (mem_cons_of_mem _)
    · exact .inr h

theorem emplace_sorted {l : List Range} (r : Range) (h : l.Pairwise fun a b => a.start < b.start) :
    (emplace l r).Pairwise fun a b => a.start < b.start := by
  induction l with
  | nil => exact pairwise_singleton _ _
  | cons a l ih =>
    obtain ⟨ha, hl⟩ := pairwise_cons.mp h
    rw [emplace]
    split
    · rename_i hlt
      refine pairwise_cons.mpr ⟨fun x hx => ?_, h⟩
      rcases mem_cons.mp hx with rfl | hx
      · exact hlt
      · exact BitVec.lt_trans hlt (ha x hx)
    · split
      · rename_i hlt
        refine pairwise_cons.mpr ⟨fun x hx => ?_, ih hl⟩
        rcases mem_emplace hx with rfl | hx
        · exact hlt
        · exact ha x hx
      · exact h

theorem emplace_last {l : List Range} {r : Range} (h : ∀ a ∈ l, a.start < r.start) : emplace l r = l ++ [r] := by
  induction l with
  | nil => rfl
  | cons a l ih =>
    have ha := h a mem_cons_self
    have hno : ¬ r.start < a.start := BitVec.not_lt.mpr (BitVec.le_of_lt ha)
    rw [emplace, if_neg hno, if_pos ha, ih fun b hb => h b (mem_cons_of_mem _ hb)]
    rfl

/-- `Set<Range>` -/
structure RangeSet where
  ranges : List Range
  sorted : ranges.Pairwise fun a b => a.start < b.start
  deriving DecidableEq

namespace RangeSet

def empty : RangeSet := ⟨[], .nil⟩

def emplace (s : RangeSet) (r : Range) : RangeSet := ⟨Codec.emplace s.ranges r, emplace_sorted r s.sorted⟩

def ofList (l : List Range) : RangeSet := l.foldl emplace empty

theorem foldl_emplace (s : RangeSet) (l : List Range)
    (h : (s.ranges ++ l).Pairwise fun a b => a.start < b.start) : (l.foldl emplace s).ranges = s.ranges ++ l := by
  induction l generalizing s with
  | nil => exact (append_nil _).symm
  | cons r l ih =>
    have hlast : (s.emplace r).ranges = s.ranges ++ [r] :=
      emplace_last fun a ha => (pairwise_append.mp h).2.2 a ha r mem_cons_self
    rw [foldl_cons, ih _ (by rwa [hlast, append_assoc]), hlast, append_assoc]
    rfl

theorem ofList_ranges (s : RangeSet) : ofList s.ranges = s := by
  obtain ⟨l, h⟩ := s
  have hranges : (ofList l).ranges = l := foldl_emplace empty l h
  generalize ofList l = t at hranges ⊢
  subst hranges
  rfl

end RangeSet

/-- The state of an object. Its count of users is not written. -/
structure ObjStat where
  objSize : BitVec 64
  parts : BitVec 64
  refCount : BitVec 64
  deletedRanges : RangeSet
  deriving DecidableEq

namespace ObjStat

def getSizeInBytes (s : ObjStat) : Nat := 8 + 8 + 8 + (8 + 8) * s.deletedRanges.ranges.length

def writeRange (r : Range) : Bytes := List.flatten [writeBits 8 r.start, writeBits 8 r.stop]

def readRange : Decode Range := do
  let start ← readBits 8
  let stop ← readBits 8
  return ⟨start, stop⟩

def writeBufAdv (s : ObjStat) : Bytes :=
  List.flatten [writeBits 8 s.objSize, writeBits 8 s.parts,
    writeBits 8 (BitVec.ofNat 64 s.deletedRanges.ranges.length) ++ s.deletedRanges.ranges.flatMap writeRange]

def readBufAdv : Decode ObjStat := do
  let objSize ← readBits 8
  let parts ← readBits 8
  let ranges ← readLongCounted readRange
  return ⟨objSize, parts, 0, .ofList ranges⟩

def replayed (s : ObjStat) : ObjStat := {s with refCount := 0}

theorem holds (k : Int) (s : ObjStat) : Holds k readBufAdv s.writeBufAdv s.getSizeInBytes s.replayed := by
  have hrange (r : Range) : Holds k readRange (writeRange r) 16 r :=
    ((holds_bits k 8 r.start).bind <| (holds_bits k 8 r.stop).bind <| .pure k r).of_size rfl
  have hranges := (Holds.many (l := s.deletedRanges.ranges) fun r _ => hrange r).longCounted
    (length_le_sum_map fun _ _ => by decide)
  have hreplayed : s.replayed = ⟨s.objSize, s.parts, 0, .ofList s.deletedRanges.ranges⟩ := by
    rw [RangeSet.ofList_ranges]
    rfl
  rw [hreplayed]
  refine ((holds_bits k 8 s.objSize).bind <| (holds_bits k 8 s.parts).bind <|
    hranges.bind (f := fun ranges => pure (ObjStat.mk s.objSize s.parts 0 (.ofList ranges))) <|
    .pure k _).of_size ?_
  simp only [getSizeInBytes, map_const', sum_replicate, smul_eq_mul]
  omega

end ObjStat

/-- A path with its address and the state of its object. -/
structure AddrEntry where
  path : Bytes
  addr : ObjAddr
  stat : ObjStat
  deriving DecidableEq

namespace AddrEntry

def getSizeInBytes (e : AddrEntry) : Nat := 4 + e.path.length + e.addr.getSizeInBytes + e.stat.getSizeInBytes

def writeBufAdv (e : AddrEntry) : Except CodecFault Bytes :=
  if !e.addr.valid then .error (.invalidAddress e.path)
  else .ok (List.flatten [writeString e.path, e.addr.writeBufAdv, e.stat.writeBufAdv])

def readBufAdv : Decode AddrEntry := do
  let path ← readString
  let addr ← ObjAddr.readBufAdv
  let stat ← ObjStat.readBufAdv
  return ⟨path, addr, stat⟩

def replayed (e : AddrEntry) : AddrEntry := {e with stat := e.stat.replayed}

theorem size_pos (e : AddrEntry) : 0 < e.getSizeInBytes := by
  rw [getSizeInBytes]
  omega

theorem writes (k : Int) {e : AddrEntry} (hvalid : e.addr.valid = true) :
    Writes k e.writeBufAdv readBufAdv e.getSizeInBytes e.replayed := by
  refine ⟨_, if_neg (by simp [hvalid]), ?_⟩
  exact ((holds_string k e.path).bind <| (e.addr.holds k).bind <| (e.stat.holds k).bind <|
    .pure k e.replayed).of_size (by rw [getSizeInBytes]; omega)

theorem fills (e : AddrEntry) : Fills e.writeBufAdv e.getSizeInBytes (e.addr.valid = true) := by
  refine .of_writes (fun bytes hok => ?_) (writes 0)
  by_contra hno
  rw [writeBufAdv, if_pos (by simpa using hno)] at hok
  cases hok

end AddrEntry

/-- `AddrSerializer`; the three vectors are filled together. -/
abbrev AddrSerializer := List AddrEntry

namespace AddrSerializer

def getSizeInBytes (s : AddrSerializer) : Nat := 8 + (s.map AddrEntry.getSizeInBytes).sum

def writeBufAdv (s : AddrSerializer) : Except CodecFault Bytes := do
  let parts ← s.mapM AddrEntry.writeBufAdv
  return writeBits 8 (BitVec.ofNat 64 s.length) ++ parts.flatten

def readBufAdv : Decode AddrSerializer := readLongCounted AddrEntry.readBufAdv

def replayed (s : AddrSerializer) : AddrSerializer := s.map AddrEntry.replayed

/-- Every address is set. -/
def Valid (s : AddrSerializer) : Prop := ∀ e ∈ s, e.addr.valid = true

theorem writes (k : Int) {s : AddrSerializer} (hvalid : s.Valid) :
    Writes k s.writeBufAdv readBufAdv s.getSizeInBytes s.replayed := by
  obtain ⟨parts, hparts, hholds⟩ := Writes.mapM fun e he => AddrEntry.writes k (hvalid e he)
  exact ⟨_, by rw [writeBufAdv, hparts]; rfl, hholds.longCounted (length_le_sum_map fun e _ => e.size_pos)⟩

theorem fills (s : AddrSerializer) : Fills s.writeBufAdv s.getSizeInBytes s.Valid := by
  intro bytes hok
  obtain ⟨parts, hparts, hok⟩ := ok_of_bind hok
  cases hok
  obtain ⟨hle, heq⟩ := Fills.mapM (fun e (_ : e ∈ s) => e.fills) hparts
  rw [length_append, writeBits, length_writeLE, getSizeInBytes]
  exact ⟨by omega, fun hall => heq (by omega)⟩

end AddrSerializer

/-! ### The addresses of a record

Records have them only with a persistence manager. Their size is taken when the size of the
record is, and checked again when they are written. -/

def addrsSize (useObjectCache : Bool) (s : AddrSerializer) : Nat := if useObjectCache then s.getSizeInBytes else 0

def writeAddrs (useObjectCache : Bool) (s : AddrSerializer) (pmSize : Nat) : Except CodecFault Bytes :=
  if useObjectCache then do
    let bytes ← s.writeBufAdv
    if bytes.length ≠ pmSize then .error (.sizeMismatch pmSize bytes.length) else .ok bytes
  else .ok []

def readAddrs (useObjectCache : Bool) : Decode AddrSerializer :=
  if useObjectCache then AddrSerializer.readBufAdv else pure []

def replayedAddrs (useObjectCache : Bool) (s : AddrSerializer) : AddrSerializer :=
  if useObjectCache then s.replayed else []

theorem writes_addrs (k : Int) {useObjectCache : Bool} {s : AddrSerializer} {pmSize : Nat}
    (hvalid : useObjectCache = true → s.Valid) (hpm : useObjectCache = true → pmSize = s.getSizeInBytes) :
    Writes k (writeAddrs useObjectCache s pmSize) (readAddrs useObjectCache) (addrsSize useObjectCache s)
      (replayedAddrs useObjectCache s) := by
  cases useObjectCache with
  | false => exact ⟨[], rfl, .pure k []⟩
  | true =>
    obtain ⟨bytes, hok, hholds⟩ := AddrSerializer.writes k (hvalid rfl)
    refine ⟨bytes, ?_, hholds⟩
    have hno : ¬ bytes.length ≠ pmSize := not_not.mpr (hholds.length.trans (hpm rfl).symm)
    show (s.writeBufAdv >>= fun bytes =>
      if bytes.length ≠ pmSize then .error (.sizeMismatch pmSize bytes.length) else .ok bytes) = _
    rw [hok]
    exact if_neg hno

theorem fills_addrs (useObjectCache : Bool) (s : AddrSerializer) (pmSize : Nat) :
    Fills (writeAddrs useObjectCache s pmSize) (addrsSize useObjectCache s) (useObjectCache = true → s.Valid) := by
  intro bytes hok
  cases useObjectCache with
  | false => exact ⟨Nat.zero_le _, fun _ h => absurd h Bool.false_ne_true⟩
  | true =>
    obtain ⟨bytes', hwrite, hok⟩ := ok_of_bind hok
    split at hok
    · cases hok
    · cases hok
      exact (s.fills bytes hwrite).imp_right fun h hsize _ => h hsize

end Infinity.Wal.Codec
