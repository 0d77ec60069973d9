import Mathlib

/-! Doubles by their place in their order.

The bits of a double that is not negative, read as a number, are its place among them, and a
negative one has the opposite place. So the next double is at the next place. The two zeros have
one place and NaN has none. An integer is cast to the nearest double, and of two that are as near
to the one whose last bit is zero. -/
namespace Infinity.Lib.Double

/-- The place of the largest finite double. -/
def maxFinite : Int := 2047 * 2 ^ 52 - 1

/-- A quotient, rounded to the nearest number, and of two to the even one. -/
def roundDiv (n d : Nat) : Nat :=
  if d < 2 * (n % d) ∨ d = 2 * (n % d) ∧ n / d % 2 = 1 then n / d + 1 else n / d

/-- The double nearest to a number: its exponent, and 53 bits from the highest one on. -/
def ofNat (n : Nat) : Nat := if n = 0 then 0 else (n.log2 + 1022) * 2 ^ 52 + roundDiv (n * 2 ^ 52) (2 ^ n.log2)

def ofInt (n : Int) : Int := n.sign * ofNat n.natAbs

/-- So many units make one. -/
def unit : Int := 2 ^ 1075

/-- The double at a place that is not negative, in units of half the least positive one. -/
def unitsNat (k : Nat) : Nat := if k < 2 ^ 52 then 2 * k else (2 ^ 52 + k % 2 ^ 52) * 2 ^ (k / 2 ^ 52)

def units (k : Int) : Int := k.sign * unitsNat k.natAbs

def floor (k : Int) : Int := units k / unit

variable {k m : Int}

theorem roundDiv_le (n d : Nat) : roundDiv n d ≤ n / d + 1 := by
  rw [roundDiv]
  split <;> omega

theorem ofNat_le {n : Nat} (h : n ≤ 2 ^ 63) : ofNat n ≤ 2047 * 2 ^ 52 - 1 := by
  by_cases hn : n = 0
  · subst hn
    decide
  have hlog : n.log2 ≤ 63 := by
    have hlt := (Nat.log2_lt hn (k := 64)).mpr (by omega)
    omega
  have hbits : n * 2 ^ 52 / 2 ^ n.log2 < 2 ^ 53 := by
    rw [Nat.div_lt_iff_lt_mul (Nat.two_pow_pos _)]
    have hself := Nat.lt_log2_self (n := n)
    rw [pow_succ] at hself
    omega
  have hround := roundDiv_le (n * 2 ^ 52) (2 ^ n.log2)
  rw [ofNat, if_neg hn]
  omega

theorem ofInt_finite (hlow : -2 ^ 63 ≤ m) (hhigh : m ≤ 2 ^ 63) : -maxFinite ≤ ofInt m ∧ ofInt m ≤ maxFinite := by
  have hle := ofNat_le (n := m.natAbs) (by omega)
  have hsign : (ofInt m).natAbs ≤ ofNat m.natAbs := by
    rw [ofInt, Int.natAbs_mul, Int.natAbs_natCast]
    refine (Nat.mul_le_mul_right _ ?_).trans_eq (one_mul _)
    rcases m.sign_trichotomy with h | h | h <;> rw [h] <;> decide
  rw [maxFinite]
  omega

end Infinity.Lib.Double
