import Infinity.Lib.Decode
import Infinity.Wal.AddrSerializer

/-! Definitions in catalog records.

The record of a table has the definition of each column: its type, whose parameters depend on
the kind of type, and the constant it defaults to, which may be an array of constants. The
record of an index has its definition, whose last fields depend on the method. Each has the
three functions of the catalog's format: its size, its bytes, and the reader that gets it back. -/
namespace Infinity.Wal.Codec

open Lib List

inductive DeltaFault where
  | codec (fault : CodecFault)
  /-- A pointer that is null where the writer follows it. -/
  | nullPointer
  /-- "catalog delta operation write failed, exp_size: {}, act_size: {}" -/
  | opSize (expSize actSize : Nat)
  deriving DecidableEq, Repr

/-! ### Types -/

inductive LogicalType where
  | boolean | tinyInt | smallInt | integer | bigInt | hugeInt | decimal | float | double | varchar
  | date | time | dateTime | timestamp | interval | array | tuple | point | line | lineSeg | box | circle
  | uuid | embedding | rowID | mixed | null | missing | tensor | tensorArray | sparse | emptyArray
  | float16 | bFloat16 | multiVector | invalid
  deriving DecidableEq, Repr

namespace LogicalType

/-- In the order of the enumeration. -/
def all : List LogicalType :=
  [.boolean, .tinyInt, .smallInt, .integer, .bigInt, .hugeInt, .decimal, .float, .double, .varchar,
    .date, .time, .dateTime, .timestamp, .interval, .array, .tuple, .point, .line, .lineSeg, .box, .circle,
    .uuid, .embedding, .rowID, .mixed, .null, .missing, .tensor, .tensorArray, .sparse, .emptyArray,
    .float16, .bFloat16, .multiVector, .invalid]

def write (type : LogicalType) : Bytes := writeEnum 1 all type

def read : Decode LogicalType := readEnum 1 all

theorem holds (k : Int) (type : LogicalType) : Holds k read type.write 1 type :=
  holds_enum k 1 (by cases type <;> decide) (by decide)

end LogicalType

/-- The types with the parameters of an embedding. -/
inductive EmbeddingKind where
  | tensor | tensorArray | multiVector | embedding
  deriving DecidableEq, Repr

def EmbeddingKind.type : EmbeddingKind → LogicalType
  | .tensor => .tensor
  | .tensorArray => .tensorArray
  | .multiVector => .multiVector
  | .embedding => .embedding

/-- The parameters that belong to a type. -/
inductive InfoKind where
  | none | array | decimal | embedding (kind : EmbeddingKind) | sparse
  deriving DecidableEq, Repr

def LogicalType.info : LogicalType → InfoKind
  | .array => .array
  | .decimal => .decimal
  | .tensor => .embedding .tensor
  | .tensorArray => .embedding .tensorArray
  | .multiVector => .embedding .multiVector
  | .embedding => .embedding .embedding
  | .sparse => .sparse
  | _ => .none

/-- A type with its parameters; `plain` has no `type_info_`. -/
inductive DataType where
  | plain (type : LogicalType)
  | array (element : DataType)
  | decimal (precision scale : BitVec 64)
  | embedding (kind : EmbeddingKind) (elementType : BitVec 8) (dimension : BitVec 64)
  | sparse (dataType indexType : BitVec 8) (dimension : BitVec 64) (storeType : BitVec 8)
  deriving DecidableEq, Repr

namespace DataType

def getSizeInBytes : DataType → Nat
  | .plain _ => 1
  | .array element => 1 + element.getSizeInBytes
  | .decimal _ _ => 1 + 8 * 2
  | .embedding _ _ _ => 1 + 1 + 4
  | .sparse _ _ _ _ => 1 + 1 * 2 + 8 + 1

/-- The bytes of a type without parameters. A decimal gets two zeros all the same. -/
def writePlain (type : LogicalType) : Except DeltaFault Bytes :=
  match type.info with
  | .none => .ok type.write
  | .decimal => .ok (List.flatten [type.write, writeBits 8 0, writeBits 8 0])
  | _ => .error .nullPointer

def writeAdv : DataType → Except DeltaFault Bytes
  | .plain type => writePlain type
  | .array element => do
    let bytes ← element.writeAdv
    return List.flatten [LogicalType.array.write, bytes]
  | .decimal precision scale =>
    return List.flatten [LogicalType.decimal.write, writeBits 8 precision, writeBits 8 scale]
  | .embedding kind elementType dimension =>
    return List.flatten [kind.type.write, writeBits 1 elementType, writeBits 4 (dimension.setWidth 32)]
  | .sparse dataType indexType dimension storeType =>
    return List.flatten [LogicalType.sparse.write, writeBits 1 dataType, writeBits 1 indexType,
      writeBits 8 dimension, writeBits 1 storeType]

/-- The parameters of a type. `element` reads the type of an array's elements. -/
def readInfo (k : Int) (element : Decode DataType) (type : LogicalType) : Decode DataType :=
  match type.info with
  | .none => return .plain type
  | .array => do
    checkMore k
    let element ← element
    return .array element
  | .decimal => do
    let precision ← readBits 8
    let scale ← readBits 8
    return .decimal precision scale
  | .embedding kind => do
    let elementType ← readBits 1
    let dimension ← readBits 4
    return .embedding kind elementType (BitVec.signExtend 64 dimension)
  | .sparse => do
    let dataType ← readBits 1
    let indexType ← readBits 1
    let dimension ← readBits 8
    let storeType ← readBits 1
    return .sparse dataType indexType dimension storeType

def readNested (k : Int) : Nat → Decode DataType
  | 0 => failure
  | fuel + 1 => do
    let type ← LogicalType.read
    let result ← readInfo k (readNested k fuel) type
    checkEnd k
    return result

/-- `DataType::ReadAdv` -/
def readAdv (k : Int) : Decode DataType := withFuel (readNested k)

/-- The type as it is read back: a dimension is written as a number of 32 bits. -/
def replayed : DataType → DataType
  | .array element => .array element.replayed
  | .embedding kind elementType dimension => .embedding kind elementType (BitVec.signExtend 64 (dimension.setWidth 32))
  | t => t

/-- The type has the parameters that belong to it. -/
def Complete : DataType → Prop
  | .plain type => type.info = .none
  | .array element => element.Complete
  | _ => True

/-- A dimension is a signed number of 32 bits. -/
def Kept : DataType → Prop
  | .array element => element.Kept
  | .embedding _ _ dimension => BitVec.signExtend 64 (dimension.setWidth 32) = dimension
  | _ => True

theorem replayed_eq_iff (t : DataType) : t.replayed = t ↔ t.Kept := by
  induction t with
  | array element ih => simp [replayed, Kept, ih]
  | embedding kind elementType dimension => simp [replayed, Kept]
  | _ => simp [replayed, Kept]

theorem size_pos (t : DataType) : 0 < t.getSizeInBytes := by
  cases t <;> simp only [getSizeInBytes] <;> omega

theorem holds_nested (k : Int) {fuel : Nat} {type : LogicalType} {bytes : Bytes} {n : Nat} {t : DataType}
    (hfuel : 0 < fuel) (h : Holds k (readInfo k (readNested k (fuel - 1)) type) bytes n t) :
    Holds k (readNested k fuel) (flatten [type.write, bytes]) (1 + n) t := by
  obtain ⟨fuel, rfl⟩ := Nat.exists_eq_succ_of_ne_zero hfuel.ne'
  exact ((LogicalType.holds k type).bind <| h.bind <| (holds_checkEnd k).bind <| .pure k t).of_size (by omega)

theorem readInfo_embedding (k : Int) (r : Decode DataType) (kind : EmbeddingKind) : readInfo k r kind.type = (do
      let elementType ← readBits 1
      let dimension ← readBits 4
      return .embedding kind elementType (BitVec.signExtend 64 dimension)) := by
  cases kind <;> rfl

theorem writes_nested (k : Int) {t : DataType} (h : t.Complete) : ∃ bytes, t.writeAdv = .ok bytes ∧
      ∀ fuel, t.getSizeInBytes ≤ fuel → Holds k (readNested k fuel) bytes t.getSizeInBytes t.replayed := by
  induction t with
  | plain type =>
    have hinfo : type.info = .none := h
    refine ⟨type.write, by rw [writeAdv, writePlain, hinfo], fun fuel hfuel => ?_⟩
    have hplain : Holds k (readInfo k (readNested k (fuel - 1)) type) [] 0 (.plain type) := by
      rw [readInfo, hinfo]
      exact .pure k _
    exact (holds_nested k hfuel hplain).of_bytes (append_nil _)
  | array element ih =>
    obtain ⟨bytes, hok, hread⟩ := ih h
    refine ⟨_, by rw [writeAdv, hok]; rfl, fun fuel hfuel => ?_⟩
    rw [getSizeInBytes] at hfuel
    have helement : Holds k (readInfo k (readNested k (fuel - 1)) .array) bytes element.getSizeInBytes
        (.array element.replayed) :=
      (hread (fuel - 1) (by omega)).last.checkMore element.size_pos
    exact holds_nested k (by omega) helement
  | decimal precision scale =>
    refine ⟨_, rfl, fun fuel hfuel => ?_⟩
    have hinfo : Holds k (readInfo k (readNested k (fuel - 1)) .decimal)
        (flatten [writeBits 8 precision, writeBits 8 scale]) (8 * 2) (.decimal precision scale) :=
      ((holds_bits k 8 precision).bind <| (holds_bits k 8 scale).bind <|
        .pure k (decimal precision scale)).of_size (by omega)
    exact holds_nested k (by rw [getSizeInBytes] at hfuel; omega) hinfo
  | embedding kind elementType dimension =>
    refine ⟨_, rfl, fun fuel hfuel => ?_⟩
    have hinfo : Holds k (readInfo k (readNested k (fuel - 1)) kind.type)
        (flatten [writeBits 1 elementType, writeBits 4 (dimension.setWidth 32)]) (1 + 4)
        (.embedding kind elementType (BitVec.signExtend 64 (dimension.setWidth 32))) := by
      rw [readInfo_embedding]
      exact ((holds_bits k 1 elementType).bind <| (holds_bits k 4 (dimension.setWidth 32)).bind <|
        .pure k (embedding kind elementType _)).of_size (by omega)
    exact holds_nested k (by rw [getSizeInBytes] at hfuel; omega) hinfo
  | sparse dataType indexType dimension storeType =>
    refine ⟨_, rfl, fun fuel hfuel => ?_⟩
    have hinfo : Holds k (readInfo k (readNested k (fuel - 1)) .sparse)
        (flatten [writeBits 1 dataType, writeBits 1 indexType, writeBits 8 dimension, writeBits 1 storeType])
        (1 * 2 + 8 + 1) (.sparse dataType indexType dimension storeType) :=
      ((holds_bits k 1 dataType).bind <| (holds_bits k 1 indexType).bind <| (holds_bits k 8 dimension).bind <|
        (holds_bits k 1 storeType).bind <| .pure k (sparse dataType indexType dimension storeType)).of_size (by omega)
    exact holds_nested k (by rw [getSizeInBytes] at hfuel; omega) hinfo

theorem writes (k : Int) {t : DataType} (h : t.Complete) :
    Writes k t.writeAdv (readAdv k) t.getSizeInBytes t.replayed := by
  obtain ⟨bytes, hok, hread⟩ := writes_nested k h
  exact ⟨bytes, hok, .withFuel hread⟩

theorem fills (t : DataType) : Fills t.writeAdv t.getSizeInBytes t.Complete := by
  induction t with
  | plain type =>
    intro bytes hok
    rw [writeAdv, writePlain] at hok
    split at hok
    · rename_i hinfo
      cases hok
      exact ⟨(LogicalType.holds 0 type).length.ge, fun _ => hinfo⟩
    · -- the two zeros are not in the size
      cases hok
      have hlength := (LogicalType.holds 0 type).length
      simp [writeBits, length_writeLE, hlength, getSizeInBytes]
    · cases hok
  | array element ih =>
    intro bytes hok
    obtain ⟨inner, hinner, hok⟩ := ok_of_bind hok
    cases hok
    obtain ⟨hle, heq⟩ := ih inner hinner
    have hlength := (LogicalType.holds 0 .array).length
    simp only [flatten_cons, flatten_nil, append_nil, length_append, hlength, getSizeInBytes]
    exact ⟨by omega, fun hall => heq (by omega)⟩
  | _ => exact .of_writes (fun _ _ => trivial) (writes 0)

end DataType

/-! ### Constants -/

/-- A string up to its terminating zero. -/
structure CString where
  bytes : Bytes
  noNul : 0 ∉ bytes
  deriving DecidableEq

/-- The bytes before the first zero. -/
def CString.ofBytes (bytes : Bytes) : CString :=
  ⟨bytes.takeWhile (· ≠ 0), fun h => by simpa using List.mem_takeWhile_imp h⟩

theorem CString.ofBytes_bytes (s : CString) : ofBytes s.bytes = s := by
  obtain ⟨bytes, h⟩ := s
  have htake : bytes.takeWhile (· ≠ 0) = bytes := by
    refine takeWhile_eq_self_iff.mpr fun b hb => decide_eq_true ?_
    rintro rfl
    exact h hb
  simp only [ofBytes, htake]

inductive LiteralType where
  | boolean | double | string | integer | null | date | time | dateTime | timestamp | integerArray
  | doubleArray | subArrayArray | interval | longSparseArray | doubleSparseArray | emptyArray
  | curlyBracketsArray
  deriving DecidableEq, Repr

namespace LiteralType

def all : List LiteralType :=
  [.boolean, .double, .string, .integer, .null, .date, .time, .dateTime, .timestamp, .integerArray,
    .doubleArray, .subArrayArray, .interval, .longSparseArray, .doubleSparseArray, .emptyArray,
    .curlyBracketsArray]

def write (type : LiteralType) : Bytes := writeEnum 4 all type

def read : Decode LiteralType := readEnum 4 all

theorem holds (k : Int) (type : LiteralType) : Holds k read type.write 4 type :=
  holds_enum k 4 (by cases type <;> decide) (by decide)

end LiteralType

inductive ConstantExpr where
  | boolean (value : Bool)
  | double (value : BitVec 64)
  | string (value : CString)
  | integer (value : BitVec 64)
  | null
  | date (value : CString)
  | time (value : CString)
  | dateTime (value : CString)
  | timestamp (value : CString)
  | integerArray (values : List (BitVec 64))
  | doubleArray (values : List (BitVec 64))
  | subArrayArray (values : List ConstantExpr)
  | interval (unit : BitVec 32) (value : BitVec 64)
  | longSparseArray (indices values : List (BitVec 64))
  | doubleSparseArray (indices values : List (BitVec 64))
  | emptyArray
  | curlyBracketsArray (values : List ConstantExpr)

namespace ConstantExpr

def literalType : ConstantExpr → LiteralType
  | .boolean _ => .boolean
  | .double _ => .double
  | .string _ => .string
  | .integer _ => .integer
  | .null => .null
  | .date _ => .date
  | .time _ => .time
  | .dateTime _ => .dateTime
  | .timestamp _ => .timestamp
  | .integerArray _ => .integerArray
  | .doubleArray _ => .doubleArray
  | .subArrayArray _ => .subArrayArray
  | .interval _ _ => .interval
  | .longSparseArray _ _ => .longSparseArray
  | .doubleSparseArray _ _ => .doubleSparseArray
  | .emptyArray => .emptyArray
  | .curlyBracketsArray _ => .curlyBracketsArray

mutual

def valueSize : ConstantExpr → Nat
  | .boolean _ => 1
  | .double _ | .integer _ => 8
  | .null | .emptyArray => 0
  | .string value | .date value | .time value | .dateTime value | .timestamp value => 4 + value.bytes.length
  | .integerArray values | .doubleArray values => 8 + 8 * values.length
  | .interval _ _ => 4 + 8
  | .longSparseArray indices values | .doubleSparseArray indices values =>
    8 + 8 * indices.length + (8 + 8 * values.length)
  | .subArrayArray values | .curlyBracketsArray values => 8 + sizes values

def sizes : List ConstantExpr → Nat
  | [] => 0
  | e :: values => 4 + e.valueSize + sizes values

end

def getSizeInBytes (e : ConstantExpr) : Nat := 4 + e.valueSize

def writeLongs (values : List (BitVec 64)) : Bytes :=
  writeBits 8 (BitVec.ofNat 64 values.length) ++ values.flatMap (writeBits 8)

mutual

def writeValue : ConstantExpr → Bytes
  | .boolean value => writeBits 1 (if value then 1 else 0)
  | .double value | .integer value => writeBits 8 value
  | .null | .emptyArray => []
  | .string value | .date value | .time value | .dateTime value | .timestamp value => writeString value.bytes
  | .integerArray values | .doubleArray values => writeLongs values
  | .interval unit value => List.flatten [writeBits 4 unit, writeBits 8 value]
  | .longSparseArray indices values | .doubleSparseArray indices values =>
    List.flatten [writeLongs indices, writeLongs values]
  | .subArrayArray values | .curlyBracketsArray values =>
    writeBits 8 (BitVec.ofNat 64 values.length) ++ writeAll values

def writeAll : List ConstantExpr → Bytes
  | [] => []
  | e :: values => List.flatten [e.literalType.write, e.writeValue] ++ writeAll values

end

def writeAdv (e : ConstantExpr) : Bytes := List.flatten [e.literalType.write, e.writeValue]

def readText (make : CString → ConstantExpr) : Decode ConstantExpr := do
  let value ← readString
  return make (.ofBytes value)

def readLongs : Decode (List (BitVec 64)) := readLongCounted (readBits 8)

/-- The value after its type. `element` reads the constants of an array. -/
def readValue (element : Decode ConstantExpr) : LiteralType → Decode ConstantExpr
  | .boolean => do
    let value ← readBits 1
    return .boolean (value != 0)
  | .double => do
    let value ← readBits 8
    return .double value
  | .string => readText .string
  | .integer => do
    let value ← readBits 8
    return .integer value
  | .null => return .null
  | .emptyArray => return .emptyArray
  | .date => readText .date
  | .time => readText .time
  | .dateTime => readText .dateTime
  | .timestamp => readText .timestamp
  | .integerArray => do
    let values ← readLongs
    return .integerArray values
  | .doubleArray => do
    let values ← readLongs
    return .doubleArray values
  | .subArrayArray => do
    let values ← readLongCounted element
    return .subArrayArray values
  | .interval => do
    let unit ← readBits 4
    let value ← readBits 8
    return .interval unit value
  | .longSparseArray => do
    let indices ← readLongs
    let values ← readLongs
    return .longSparseArray indices values
  | .doubleSparseArray => do
    let indices ← readLongs
    let values ← readLongs
    return .doubleSparseArray indices values
  | .curlyBracketsArray => do
    let values ← readLongCounted element
    return .curlyBracketsArray values

def readNested (k : Int) : Nat → Decode ConstantExpr
  | 0 => failure
  | fuel + 1 => do
    let type ← LiteralType.read
    let e ← readValue (readNested k fuel) type
    checkEnd k
    return e

/-- `ConstantExpr::ReadAdv` -/
def readAdv (k : Int) : Decode ConstantExpr := withFuel (readNested k)

theorem sizes_eq (values : List ConstantExpr) : sizes values = (values.map getSizeInBytes).sum := by
  induction values with
  | nil => rfl
  | cons e values ih => rw [sizes, ih, map_cons, sum_cons, getSizeInBytes]

theorem writeAll_eq (values : List ConstantExpr) : writeAll values = values.flatMap writeAdv := by
  induction values with
  | nil => rfl
  | cons e values ih => rw [writeAll, ih, flatMap_cons, writeAdv]

theorem size_pos (e : ConstantExpr) : 0 < e.getSizeInBytes := by
  rw [getSizeInBytes]
  omega

theorem holds_longs (k : Int) (values : List (BitVec 64)) :
    Holds k readLongs (writeLongs values) (8 + 8 * values.length) values :=
  ((Holds.many fun x _ => holds_bits k 8 x).longCounted (length_le_sum_map fun _ _ => by decide)).of_size
    (by simp [mul_comm])

theorem holds_text (k : Int) (make : CString → ConstantExpr) (value : CString) :
    Holds k (readText make) (writeString value.bytes) (4 + value.bytes.length) (make value) := by
  have hread := (holds_string k value.bytes).last (f := fun bytes => make (.ofBytes bytes))
  rwa [CString.ofBytes_bytes] at hread

theorem holds_elements (k : Int) {r : Decode ConstantExpr} {values : List ConstantExpr}
    (hr : ∀ e, e.getSizeInBytes ≤ sizes values → Holds k r e.writeAdv e.getSizeInBytes e) :
    Holds k (readLongCounted r) (writeBits 8 (BitVec.ofNat 64 values.length) ++ writeAll values)
      (8 + sizes values) values := by
  rw [sizes_eq] at hr ⊢
  rw [writeAll_eq]
  exact (Holds.many fun e he => hr e (le_sum_map getSizeInBytes he)).longCounted
    (length_le_sum_map fun e _ => e.size_pos)

theorem holds_value (k : Int) {r : Decode ConstantExpr} {e : ConstantExpr}
    (hr : ∀ e', e'.getSizeInBytes ≤ e.valueSize → Holds k r e'.writeAdv e'.getSizeInBytes e') :
    Holds k (readValue r e.literalType) e.writeValue e.valueSize e := by
  cases e with
  | boolean value =>
    have hbool := (holds_bits k 1 (if value then 1 else 0)).last (f := fun x => boolean (x != 0))
    cases value <;> exact hbool
  | double value => exact (holds_bits k 8 value).last
  | integer value => exact (holds_bits k 8 value).last
  | null => exact .pure k _
  | emptyArray => exact .pure k _
  | string value | date value | time value | dateTime value | timestamp value => exact holds_text k _ value
  | integerArray values | doubleArray values => exact (holds_longs k values).last
  | interval unit value =>
    exact ((holds_bits k 4 unit).bind <| (holds_bits k 8 value).bind <|
      .pure k (interval unit value)).of_size (by rw [valueSize])
  | longSparseArray indices values =>
    exact ((holds_longs k indices).bind <| (holds_longs k values).bind <|
      .pure k (longSparseArray indices values)).of_size (by rw [valueSize]; omega)
  | doubleSparseArray indices values =>
    exact ((holds_longs k indices).bind <| (holds_longs k values).bind <|
      .pure k (doubleSparseArray indices values)).of_size (by rw [valueSize]; omega)
  | subArrayArray values | curlyBracketsArray values =>
    rw [valueSize] at hr
    exact (holds_elements k fun e' he' => hr e' (by omega)).last

theorem holds_nested (k : Int) {e : ConstantExpr} {fuel : Nat} (hfuel : e.getSizeInBytes ≤ fuel) :
    Holds k (readNested k fuel) e.writeAdv e.getSizeInBytes e := by
  -- by induction on the levels: a constant in an array is smaller than the array
  induction fuel generalizing e with
  | zero =>
    have hpos := e.size_pos
    omega
  | succ fuel ih =>
    rw [getSizeInBytes] at hfuel
    have hvalue : Holds k (readValue (readNested k fuel) e.literalType) e.writeValue e.valueSize e :=
      holds_value k fun e' he' => ih (by omega)
    exact ((LiteralType.holds k e.literalType).bind <| hvalue.bind <| (holds_checkEnd k).bind <|
      .pure k e).of_size (by rw [getSizeInBytes]; omega)

theorem holds (k : Int) (e : ConstantExpr) : Holds k (readAdv k) e.writeAdv e.getSizeInBytes e :=
  .withFuel fun _ hfuel => holds_nested k hfuel

end ConstantExpr

/-! ### Indexes -/

inductive IndexType where
  | ivf | hnsw | bmp | fullText | secondary | emvb | invalid | diskAnn
  deriving DecidableEq, Repr

namespace IndexType

def all : List IndexType := [.ivf, .hnsw, .bmp, .fullText, .secondary, .emvb, .invalid, .diskAnn]

def write (type : IndexType) : Bytes := writeEnum 4 all type

def read : Decode IndexType := readEnum 4 all

theorem holds (k : Int) (type : IndexType) : Holds k read type.write 4 type :=
  holds_enum k 4 (by cases type <;> decide) (by decide)

end IndexType

structure LSGConfig where
  sampleRatio : BitVec 32
  lsK : BitVec 64
  alpha : BitVec 32
  deriving DecidableEq, Repr

namespace LSGConfig

def getSizeInBytes (_ : LSGConfig) : Nat := 4 + 8 + 4

def writeAdv (c : LSGConfig) : Bytes := List.flatten [writeBits 4 c.sampleRatio, writeBits 8 c.lsK, writeBits 4 c.alpha]

def readAdv : Decode LSGConfig := do
  let sampleRatio ← readBits 4
  let lsK ← readBits 8
  let alpha ← readBits 4
  return ⟨sampleRatio, lsK, alpha⟩

theorem holds (k : Int) (c : LSGConfig) : Holds k readAdv c.writeAdv c.getSizeInBytes c :=
  ((holds_bits k 4 c.sampleRatio).bind <| (holds_bits k 8 c.lsK).bind <| (holds_bits k 4 c.alpha).bind <|
    .pure k c).of_size rfl

/-- An optional configuration, after a byte that says whether there is one. -/
def writeOptional : Option LSGConfig → Bytes
  | none => writeBits 1 0
  | some c => List.flatten [writeBits 1 1, c.writeAdv]

def readPresent (has : BitVec 8) : Decode (Option LSGConfig) :=
  if has = 0 then return none
  else do
    let c ← readAdv
    return some c

def readOptional : Decode (Option LSGConfig) := do
  let has ← readBits 1
  readPresent has

def optionalSize : Option LSGConfig → Nat
  | none => 1
  | some c => 1 + c.getSizeInBytes

theorem holds_optional (k : Int) (c : Option LSGConfig) :
    Holds k readOptional (writeOptional c) (optionalSize c) c := by
  cases c with
  | none =>
    have habsent : Holds k (readPresent 0) [] 0 none := .pure k none
    exact ((holds_bits k 1 0).bind (f := readPresent) habsent).of_bytes (append_nil _)
  | some c =>
    have hpresent : Holds k (readPresent 1) (c.writeAdv ++ []) c.getSizeInBytes (some c) := by
      exact (c.holds k).bind (f := fun c => pure (some c)) (.pure k (some c))
    exact (holds_bits k 1 1).bind (f := readPresent) hpresent

end LSGConfig

/-- What the definition of an index adds for its method. The options of an IVF index are one block
of memory. -/
inductive IndexMethod where
  | ivf (option : BitVec (8 * 36))
  | hnsw (metric encode build : BitVec 32) (m efConstruction blockSize : BitVec 64) (lsg : Option LSGConfig)
  | bmp (blockSize : BitVec 64) (compressType : BitVec 8)
  | fullText (analyzer : Bytes) (flag : BitVec 8)
  | secondary
  | emvb (residualPqSubspaceNum residualPqSubspaceBits : BitVec 32)
  | diskAnn (metric encode : BitVec 32) (r l numPqChunks numParts : BitVec 64)
  deriving DecidableEq, Repr

namespace IndexMethod

def type : IndexMethod → IndexType
  | .ivf _ => .ivf
  | .hnsw _ _ _ _ _ _ _ => .hnsw
  | .bmp _ _ => .bmp
  | .fullText _ _ => .fullText
  | .secondary => .secondary
  | .emvb _ _ => .emvb
  | .diskAnn _ _ _ _ _ _ => .diskAnn

def size : IndexMethod → Nat
  | .ivf _ => 36
  | .hnsw _ _ _ _ _ _ lsg => 4 + 4 + 4 + 8 + 8 + 8 + LSGConfig.optionalSize lsg
  | .bmp _ _ => 8 + 1
  | .fullText analyzer _ => 4 + analyzer.length + 1
  | .secondary => 0
  | .emvb _ _ => 4 + 4
  | .diskAnn _ _ _ _ _ _ => 4 + 4 + 8 + 8 + 8 + 8

def write : IndexMethod → Bytes
  | .ivf option => writeBits 36 option
  | .hnsw metric encode build m efConstruction blockSize lsg =>
    List.flatten [writeBits 4 metric, writeBits 4 encode, writeBits 4 build, writeBits 8 m,
      writeBits 8 efConstruction, writeBits 8 blockSize, LSGConfig.writeOptional lsg]
  | .bmp blockSize compressType => List.flatten [writeBits 8 blockSize, writeBits 1 compressType]
  | .fullText analyzer flag => List.flatten [writeString analyzer, writeBits 1 flag]
  | .secondary => []
  | .emvb num bits => List.flatten [writeBits 4 num, writeBits 4 bits]
  | .diskAnn metric encode r l numPqChunks numParts =>
    List.flatten [writeBits 4 metric, writeBits 4 encode, writeBits 8 r, writeBits 8 l,
      writeBits 8 numPqChunks, writeBits 8 numParts]

def read : IndexType → Decode IndexMethod
  | .ivf => do
    let option ← readBits 36
    return .ivf option
  | .hnsw => do
    let metric ← readBits 4
    let encode ← readBits 4
    let build ← readBits 4
    let m ← readBits 8
    let efConstruction ← readBits 8
    let blockSize ← readBits 8
    let lsg ← LSGConfig.readOptional
    return .hnsw metric encode build m efConstruction blockSize lsg
  | .bmp => do
    let blockSize ← readBits 8
    let compressType ← readBits 1
    return .bmp blockSize compressType
  | .fullText => do
    let analyzer ← readString
    let flag ← readBits 1
    return .fullText analyzer flag
  | .secondary => return .secondary
  | .emvb => do
    let num ← readBits 4
    let bits ← readBits 4
    return .emvb num bits
  -- "Error index method while reading"
  | .invalid => failure
  | .diskAnn => do
    let metric ← readBits 4
    let encode ← readBits 4
    let r ← readBits 8
    let l ← readBits 8
    let numPqChunks ← readBits 8
    let numParts ← readBits 8
    return .diskAnn metric encode r l numPqChunks numParts

theorem holds (k : Int) (method : IndexMethod) :
    Holds k (read method.type) method.write method.size method := by
  cases method with
  | ivf option => exact (holds_bits k 36 option).last
  | hnsw metric encode build m efConstruction blockSize lsg =>
    exact ((holds_bits k 4 metric).bind <| (holds_bits k 4 encode).bind <| (holds_bits k 4 build).bind <|
      (holds_bits k 8 m).bind <| (holds_bits k 8 efConstruction).bind <| (holds_bits k 8 blockSize).bind <|
      (LSGConfig.holds_optional k lsg).bind <|
      .pure k (hnsw metric encode build m efConstruction blockSize lsg)).of_size (by rw [size]; omega)
  | bmp blockSize compressType =>
    exact ((holds_bits k 8 blockSize).bind <| (holds_bits k 1 compressType).bind <|
      .pure k (bmp blockSize compressType)).of_size (by rw [size])
  | fullText analyzer flag =>
    exact ((holds_string k analyzer).bind <| (holds_bits k 1 flag).bind <|
      .pure k (fullText analyzer flag)).of_size (by rw [size])
  | secondary => exact .pure k _
  | emvb num bits =>
    exact ((holds_bits k 4 num).bind <| (holds_bits k 4 bits).bind <| .pure k (emvb num bits)).of_size (by rw [size])
  | diskAnn metric encode r l numPqChunks numParts =>
    exact ((holds_bits k 4 metric).bind <| (holds_bits k 4 encode).bind <| (holds_bits k 8 r).bind <|
      (holds_bits k 8 l).bind <| (holds_bits k 8 numPqChunks).bind <| (holds_bits k 8 numParts).bind <|
      .pure k (diskAnn metric encode r l numPqChunks numParts)).of_size rfl

end IndexMethod

structure IndexBase where
  indexName : Bytes
  indexComment : Bytes
  fileName : Bytes
  columnNames : List Bytes
  method : IndexMethod
  deriving DecidableEq, Repr

namespace IndexBase

def nameSize (name : Bytes) : Nat := 4 + name.length

def getSizeInBytes (b : IndexBase) : Nat :=
  4 + (4 + b.indexName.length) + (4 + b.indexComment.length) + (4 + b.fileName.length) +
    (4 + (b.columnNames.map nameSize).sum) + b.method.size

def writeAdv (b : IndexBase) : Bytes :=
  List.flatten [b.method.type.write, writeString b.indexName, writeString b.indexComment, writeString b.fileName,
    writeLE 4 b.columnNames.length ++ b.columnNames.flatMap writeString, b.method.write]

/-- `IndexBase::ReadAdv` -/
def readAdv (k : Int) : Decode IndexBase := do
  checkMore k
  let type ← IndexType.read
  let indexName ← readString
  let indexComment ← readString
  let fileName ← readString
  let columnNames ← readCounted readString
  let method ← IndexMethod.read type
  checkEnd k
  return ⟨indexName, indexComment, fileName, columnNames, method⟩

/-- `operator==` -/
def equal (a b : IndexBase) : Bool := a.method.type == b.method.type && a.columnNames == b.columnNames

theorem holds_names (k : Int) (names : List Bytes) :
    Holds k (readCounted readString) (writeLE 4 names.length ++ names.flatMap writeString)
      (4 + (names.map nameSize).sum) names :=
  .list (fun _ => by rw [nameSize]; omega) fun name _ => holds_string k name

theorem holds (k : Int) (b : IndexBase) : Holds k (readAdv k) b.writeAdv b.getSizeInBytes b := by
  rw [getSizeInBytes]
  refine Holds.checkMore (Holds.of_size ((IndexType.holds k b.method.type).bind <|
    (holds_string k b.indexName).bind <| (holds_string k b.indexComment).bind <|
    (holds_string k b.fileName).bind <| (holds_names k b.columnNames).bind <|
    (b.method.holds k).bind <| (holds_checkEnd k).bind <| .pure k b) ?_) ?_
  · omega
  · omega

end IndexBase
end Infinity.Wal.Codec
