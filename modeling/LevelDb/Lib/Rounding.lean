import Mathlib.Algebra.Order.Floor.Ring
import Mathlib.Data.Int.Log
import Mathlib.Tactic.Linarith
import Mathlib.Tactic.Positivity
import Mathlib.Tactic.Ring

/-!
# Binary floating point

Numbers of `p` bits, with exponents without bound: `nearest p x` is the one nearest to `x`, of two
the one whose last bit is 0. A result is off by one part in `2 ^ p` at most (`abs_nearest_sub_le`).
-/

namespace Rounding

variable {K : Type*} [Field K] [LinearOrder K] [IsStrictOrderedRing K] [FloorRing K]

/-- The nearest integer, of two the even one. -/
def toEven (x : K) : ℤ :=
  if Int.fract x < 1 / 2 then ⌊x⌋
  else if 1 / 2 < Int.fract x then ⌊x⌋ + 1
  else if ⌊x⌋ % 2 = 0 then ⌊x⌋ else ⌊x⌋ + 1

/-- The last bit of the numbers of `p` bits in the binade of `x`. -/
def lastPlace (p : ℕ) (x : K) : K := 2 ^ (Int.log 2 |x| + 1 - p)

def nearest (p : ℕ) (x : K) : K := toEven (x / lastPlace p x) * lastPlace p x

theorem abs_toEven_sub_le (x : K) : |(toEven x : K) - x| ≤ 1 / 2 := by
  have hsplit := Int.floor_add_fract x
  have h0 := Int.fract_nonneg x
  have h1 := (Int.fract_lt_one x).le
  rw [abs_le]
  unfold toEven
  split
  · constructor <;> linarith
  · rename_i hlow
    rw [not_lt] at hlow
    split
    · push_cast
      constructor <;> linarith
    · rename_i hhigh
      rw [not_lt] at hhigh
      split
      · constructor <;> linarith
      · push_cast
        constructor <;> linarith

theorem lastPlace_pos (p : ℕ) (x : K) : 0 < lastPlace p x := zpow_pos (by norm_num) _

theorem lastPlace_le (p : ℕ) {x : K} (hx : x ≠ 0) : lastPlace p x ≤ 2 * |x| / 2 ^ p := by
  have hlog : (2 : K) ^ Int.log 2 |x| ≤ |x| := by
    have h := Int.zpow_log_le_self (b := 2) (by decide) (abs_pos.2 hx)
    exact_mod_cast h
  have htwo : (2 : K) ≠ 0 := two_ne_zero
  unfold lastPlace
  rw [zpow_sub₀ htwo, zpow_add_one₀ htwo, zpow_natCast, mul_comm]
  gcongr

/-- **Rounding is off by one part in `2 ^ p`** at most. -/
theorem abs_nearest_sub_le (p : ℕ) (x : K) : |nearest p x - x| ≤ |x| / 2 ^ p := by
  by_cases hx : x = 0
  · subst hx
    simp [nearest, toEven]
  have hpos := lastPlace_pos p x
  calc |nearest p x - x|
      = |(toEven (x / lastPlace p x) : K) - x / lastPlace p x| * lastPlace p x := by
        rw [nearest, ← abs_of_pos hpos, ← abs_mul, abs_of_pos hpos, sub_mul,
          div_mul_cancel₀ _ hpos.ne']
    _ ≤ 1 / 2 * (2 * |x| / 2 ^ p) :=
        mul_le_mul (abs_toEven_sub_le _) (lastPlace_le p hx) hpos.le (by norm_num)
    _ = |x| / 2 ^ p := by ring

end Rounding
