import Infinity.Planner.UnwindCast

/-! Rough filters: the least and the largest value of each column of a block, and a probabilistic
set of its values.

`BuildFastRoughFilterTask` reads all rows of a segment and keeps the bounds of every block and
of the segment, strings cut to 16 bytes. A filter expression becomes a tree of tests on these
bounds; where the tests say no, the block is skipped. A row that satisfies the expression is
never skipped as long as strict comparisons with strings keep to constants longer than the
bounds, with `HUGEINT` do not occur, and casts to `DOUBLE` round no integer past the constant. -/
namespace Infinity.Planner

open Lib

/-! ### Building the filters -/

/-- `SupportMinMaxFilter` -/
def LogicalType.supportMinMax : LogicalType → Bool
  | .boolean => false
  | _ => true

/-- `INNER_STORED_LENGTH` -/
def storedLength : Nat := 16

/-- `SetToTruncate` -/
def Value.truncate : Value → Value
  | .varchar s => .varchar (s.take storedLength)
  | v => v

/-- `std::numeric_limits<...>::max()` of the type that the bounds are kept in. -/
def LogicalType.largest : LogicalType → Value
  | .boolean => .boolean true
  | .number t => .number t t.max
  | .hugeInt => .hugeInt (2 ^ 63 - 1) (2 ^ 63 - 1)
  | .moment t => .moment t (2 ^ 31 - 1) (2 ^ 31 - 1)
  | .varchar => .varchar (List.replicate storedLength charMax)

/-- `std::numeric_limits<...>::lowest()` -/
def LogicalType.least : LogicalType → Value
  | .boolean => .boolean false
  | .number t => .number t t.lowest
  | .hugeInt => .hugeInt (-2 ^ 63) (-2 ^ 63)
  | .moment t => .moment t (-2 ^ 31) (-2 ^ 31)
  | .varchar => .varchar []

structure MinMax where
  min : Value
  max : Value
  deriving DecidableEq, Repr

namespace MinMax

/-- `UpdateMin` and `UpdateMax` with a value. -/
def update (m : MinMax) (v : Value) : MinMax where
  min := if v.key < m.min.key then v.truncate else m.min
  max := if m.max.key < v.key then v.truncate else m.max

/-- `UpdateMin` and `UpdateMax` of the segment with the bounds of a block. -/
def merge (m b : MinMax) : MinMax where
  min := if b.min.key < m.min.key then b.min else m.min
  max := if m.max.key < b.max.key then b.max else m.max

def start (t : LogicalType) : MinMax := ⟨t.largest, t.least⟩

end MinMax

/-- `mayContain` is the probabilistic filter, asked for the number of a value. -/
structure FastRoughFilter where
  minMax : Nat → Option MinMax
  mayContain : Nat → Nat → Bool

/-- `MayInRange` -/
def FastRoughFilter.mayInRange (F : FastRoughFilter) (c : Nat) (v : Value) (ct : FilterCompareType) :
    Except PushDownFault Bool :=
  match F.minMax c with
  | none => .error (.noMinMax c)
  | some m =>
    match ct with
    | .lessEqual => .ok (m.min.key ≤ v.truncate.key)
    | .greaterEqual => .ok (v.truncate.key ≤ m.max.key)
    | _ => .error .mayInRange

/-! ### Expressions -/

section Expressions

-- What the casts do that the planner does not look into.
variable (casts : LogicalType → Value → Value)

/-- An integer as a number of a type. -/
def NumberType.cast (t : NumberType) (n : Int) : Int := if t = .double then Double.ofInt n else n

def castValue (target : LogicalType) (v : Value) : Value :=
  match v, target with
  | .number s n, .number t =>
    if widens (.number s) (.number t) then .number t (t.cast n) else casts (.number t) (.number s n)
  | v, target => casts target v

def Value.isTrue (v : Value) : Bool := v == .boolean true

def Expr.eval : Expr → Row → Value
  | .value v, _ => v
  | .column id _, r => r id
  | .cast target arg, r => castValue casts target (arg.eval r)
  | .compare f l r, row => .boolean (f.eval (l.eval row) (r.eval row))
  | .and l r, row => .boolean ((l.eval row).isTrue && (r.eval row).isTrue)
  | .or l r, row => .boolean ((l.eval row).isTrue || (r.eval row).isTrue)
  | .other _ f, row => f row

end Expressions

/-- `ExpressionFastRoughFilterInfo` -/
inductive Info where
  | unknown
  | value
  | column
  | columnValue
  | valueColumn
  | and
  | or
  deriving DecidableEq, Repr

/-- The information about a logical function from that about its arguments. -/
def Info.logical (result l r : Info) : Info :=
  if l = .value ∧ r = .value then .value
  else if (l = .column ∨ l = .unknown) ∧ (r = .column ∨ r = .unknown) then .unknown
  else result

/-- `BuildTree` -/
def Expr.info : Expr → Info
  | .value _ => .value
  | .column _ t => if t.supportMinMax then .column else .unknown
  | .cast target arg => if widens arg.type target then arg.info else .unknown
  | .compare _ l r =>
    if l.info = .value ∧ r.info = .value then .value
    else if l.info = .column ∧ r.info = .value then .columnValue
    else if l.info = .value ∧ r.info = .column then .valueColumn
    else .unknown
  | .and l r => Info.logical .and l.info r.info
  | .or l r => Info.logical .or l.info r.info
  | .other _ _ => .unknown

/-- `FastRoughFilterEvaluator` -/
inductive Evaluator where
  | alwaysTrue
  | alwaysFalse
  | combineAnd (left right : Evaluator)
  | combineOr (left right : Evaluator)
  | probabilistic (column : Nat) (value : Value)
  | minMax (column : Nat) (value : Value) (ct : FilterCompareType)
  deriving DecidableEq, Repr

/-- `EvaluateInner`; `convertValueToU64` numbers the values. -/
def Evaluator.evaluate (convertValueToU64 : Value → Nat) (F : FastRoughFilter) : Evaluator → Except PushDownFault Bool
  | .alwaysTrue => .ok true
  | .alwaysFalse => .ok false
  | .combineAnd left right => do
    if ← left.evaluate convertValueToU64 F then right.evaluate convertValueToU64 F else return false
  | .combineOr left right => do
    if ← left.evaluate convertValueToU64 F then return true else right.evaluate convertValueToU64 F
  | .probabilistic c v => .ok (F.mayContain c (convertValueToU64 v))
  | .minMax c v ct => F.mayInRange c v ct

end Infinity.Planner
