import Mathlib

/-! What every part of the storage engine shares: timestamps and the ways a call fails.

Timestamps are natural numbers. The engine's are 64 bits wide and grow by two with
every write transaction, so a wrap-around is outside the life of any instance.
`UNCOMMIT_TS`, the largest 64-bit value, marks what has no commit timestamp yet; the
model says `none` there. -/
namespace Infinity

/-- How a call ends when it does not return: the engine stops (`UnrecoverableError`),
the statement fails (`RecoverableError`), or the standard library throws. -/
inductive Fault where
  | unrecoverable (message : String)
  | recoverable (message : String)
  | outOfRange
  deriving DecidableEq, Repr

/-- `DEFAULT_BLOCK_CAPACITY` -/
def defaultBlockCapacity : Nat := 8192

theorem defaultBlockCapacity_pos : 0 < defaultBlockCapacity := by decide

end Infinity
