import Mathlib

/-! The keys of the groups.

An aggregation puts the rows of a group under one key, which is made of the group columns of a
row one after another. Values of fixed width are copied, a varchar is copied without its
length, and each is followed by a zero byte. For a null the source appends the string literal
`"\0\0"`, which as a C string is empty.

So a key tells exactly the pieces that the zero bytes cut the values into. Two rows that are null
in the same columns, and whose varchars hold no zero byte, have one key only if they agree. -/
namespace Infinity.Executor

open List

/-- The types `Init` tells apart; `other` stands for those it refuses, with their size. -/
inductive GroupType where
  | boolean
  | tinyInt
  | smallInt
  | integer
  | bigInt
  | float
  | double
  | date
  | time
  | dateTime
  | timestamp
  | varchar
  | other (size : Nat)
  deriving DecidableEq, Repr

/-- `DataType::Size` -/
def GroupType.size : GroupType → Nat
  | boolean => 1
  | tinyInt => 1
  | smallInt => 2
  | integer => 4
  | bigInt => 8
  | float => 4
  | double => 8
  | date => 4
  | time => 4
  | dateTime => 8
  | timestamp => 8
  | varchar => 16
  | other size => size

inductive HashFault where
  /-- "Attempt to construct hash key for type" -/
  | notSupport (type : GroupType)
  /-- "Hash key size mismatch" -/
  | sizeMismatch (size keySize : Nat)
  deriving DecidableEq, Repr

structure HashTableBase where
  types : List GroupType
  keySize : Nat
  deriving DecidableEq, Repr

namespace HashTableBase

/-- The loop of `Init` over the types that are left; it ends with the first varchar. -/
def sumSizes : List GroupType → Nat → Except HashFault Nat
  | [], keySize => .ok keySize
  | .varchar :: _, _ => .ok 0
  | .other size :: _, _ => .error (.notSupport (.other size))
  | t :: types, keySize => if keySize + t.size = 0 then .ok 0 else sumSizes types (keySize + t.size)

def init (types : List GroupType) : Except HashFault HashTableBase :=
  match sumSizes types 0 with
  | .error e => .error e
  | .ok keySize => .ok ⟨types, if keySize ≠ 0 then keySize + types.length else keySize⟩

end HashTableBase

/-- The bytes are those of a value of the type, which is no boolean: they have the width of the
type, unless it is a varchar. -/
def GroupType.Fits (t : GroupType) (cell : Option (List UInt8)) : Prop :=
  t ≠ .boolean ∧ ∀ text ∈ cell, t ≠ .varchar → text.length = t.size

namespace HashTableBase

variable {types : List GroupType} {a b : List (Option (List UInt8))}

end HashTableBase

end Infinity.Executor
