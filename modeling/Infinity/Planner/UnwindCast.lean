import Infinity.Lib.Double

/-! Comparisons of a column with a constant, brought to a non-strict form.

A filter compares a column, possibly under casts to a wider integer type or to `DOUBLE`, with a
constant. To look the constant up in an index or a filter the planner replaces `<` and `>` by `<=`
and `>=` with the neighbouring constant, and moves the constant through the casts to the type of
the column. Numbers, dates and times have neighbours; the neighbour of a string is made from the
lowest and the largest `char`, which is signed. -/
namespace Infinity.Planner

open Lib

/-! ### Values -/

/-- The types whose values are one signed number. A double that is not NaN is the number of its
place among the doubles. -/
inductive NumberType where
  | tinyInt
  | smallInt
  | integer
  | bigInt
  | double
  | date
  | time
  deriving DecidableEq, Repr

def NumberType.bits : NumberType → Nat
  | .tinyInt => 8
  | .smallInt => 16
  | .integer => 32
  | .bigInt => 64
  | .double => 64
  | .date => 32
  | .time => 32

def NumberType.lowest (t : NumberType) : Int := if t = .double then -Double.maxFinite else -2 ^ (t.bits - 1)

def NumberType.max (t : NumberType) : Int := if t = .double then Double.maxFinite else 2 ^ (t.bits - 1) - 1

def NumberType.Has (t : NumberType) (v : Int) : Prop := t.lowest ≤ v ∧ v ≤ t.max

/-- The types whose values are a day and a second of it. -/
inductive MomentType where
  | dateTime
  | timestamp
  deriving DecidableEq, Repr

inductive LogicalType where
  | boolean
  | number (t : NumberType)
  | hugeInt
  | moment (t : MomentType)
  | varchar
  deriving DecidableEq, Repr

inductive Value where
  | boolean (b : Bool)
  | number (t : NumberType) (v : Int)
  | hugeInt (upper lower : Int)
  | moment (t : MomentType) (date time : Int)
  | varchar (s : List UInt8)
  deriving DecidableEq, Repr

namespace Value

def type : Value → LogicalType
  | .boolean _ => .boolean
  | .number t _ => .number t
  | .hugeInt _ _ => .hugeInt
  | .moment t _ _ => .moment t
  | .varchar _ => .varchar

/-- Values of one type are compared part by part: strings as unsigned bytes. -/
def key : Value → List Int
  | .boolean b => [if b then 1 else 0]
  | .number _ v => [v]
  | .hugeInt upper lower => [upper, lower]
  | .moment _ date time => [date, time]
  | .varchar s => s.map fun b => (b.toNat : Int)

/-- A value that its type can hold; days are those of the calendar, within the range of their `i32`. -/
def WellFormed : Value → Prop
  | .number t v => t.Has v
  | .moment _ date time => -2 ^ 31 < date ∧ date < 2 ^ 31 - 1 ∧ 0 ≤ time ∧ time < 86400
  | _ => True

end Value

/-- The functions `=`, `<`, `<=`, `>`, `>=`. -/
inductive CompareFunction where
  | equal
  | less
  | lessEqual
  | greater
  | greaterEqual
  deriving DecidableEq, Repr

def CompareFunction.eval (f : CompareFunction) (l r : Value) : Bool :=
  match f with
  | .equal => l.key == r.key
  | .less => l.key < r.key
  | .lessEqual => l.key ≤ r.key
  | .greater => r.key < l.key
  | .greaterEqual => r.key ≤ l.key

/-- The same comparison with its sides exchanged. -/
def CompareFunction.reverse : CompareFunction → CompareFunction
  | .equal => .equal
  | .less => .greater
  | .lessEqual => .greaterEqual
  | .greater => .less
  | .greaterEqual => .lessEqual

inductive FilterCompareType where
  | equal
  | less
  | lessEqual
  | greater
  | greaterEqual
  | alwaysFalse
  | alwaysTrue
  | invalid
  deriving DecidableEq, Repr

def CompareFunction.compareType : CompareFunction → FilterCompareType
  | .equal => .equal
  | .less => .less
  | .lessEqual => .lessEqual
  | .greater => .greater
  | .greaterEqual => .greaterEqual

inductive PushDownFault where
  /-- "RewriteCompareT(): compare type error." -/
  | rewriteType
  /-- "FindPrev(): type error: {}." -/
  | findPrev (type : LogicalType)
  /-- "SimplifyCompareTypeAndValue(): compare type error." -/
  | simplify
  /-- "IntegralContinueUnwind(): compare type error." -/
  | integralUnwind
  /-- "UnwindCast(): type mismatch: {} vs {}." -/
  | typeMismatch (target value : LogicalType)
  /-- "UnwindCast(): expression type error: {}." -/
  | expressionType
  /-- "Wrong compare type!" -/
  | compareType
  /-- "InnerMinMaxDataFilterDerived::MayInRange(): Unexpected compare type!" -/
  | mayInRange
  /-- "No InnerMinMaxDataFilter for column_id: {}" -/
  | noMinMax (column : Nat)
  deriving DecidableEq, Repr

/-! ### Strict comparisons -/

def charMax : UInt8 := 0x7F

/-- Rows: the value of each column. -/
abbrev Row := Nat → Value

/-- Expressions of a filter. `value` also stands for a function of constants, `other` for every
expression that the planner does not look into. -/
inductive Expr where
  | value (v : Value)
  | column (id : Nat) (type : LogicalType)
  | cast (target : LogicalType) (arg : Expr)
  | compare (f : CompareFunction) (l r : Expr)
  | and (l r : Expr)
  | or (l r : Expr)
  | other (type : LogicalType) (eval : Row → Value)

namespace Expr

def type : Expr → LogicalType
  | .value v => v.type
  | .column _ t => t
  | .cast target _ => target
  | .compare _ _ _ => .boolean
  | .and _ _ => .boolean
  | .or _ _ => .boolean
  | .other t _ => t

end Expr

/-- The casts of these types that `CommonCheckCast` accepts: from a smaller integer to `BIGINT` and
from an integer to `DOUBLE`. -/
def widens : LogicalType → LogicalType → Bool
  | .number .tinyInt, .number .bigInt => true
  | .number .smallInt, .number .bigInt => true
  | .number .integer, .number .bigInt => true
  | .number .tinyInt, .number .double => true
  | .number .smallInt, .number .double => true
  | .number .integer, .number .double => true
  | .number .bigInt, .number .double => true
  | _, _ => false

/-- What is left of a comparison: a column, the constant it is compared with and how. The column
and the constant mean nothing when the comparison is decided. -/
structure Unwound where
  column : Nat
  value : Value
  compareType : FilterCompareType
  deriving DecidableEq, Repr

def Unwound.decided (ct : FilterCompareType) : Unwound := ⟨0, .boolean false, ct⟩

end Infinity.Planner
