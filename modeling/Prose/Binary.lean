import Mathlib.Data.Int.Log
import Mathlib.Data.Rat.Floor
import Mathlib.Algebra.Order.Round
/-!
# Binary — rounding to so many binary digits

`roundEven` is the nearest integer, the even one of two; `rounded` is the nearest number of so many binary digits.
-/
namespace Binary

/-! ## Integers -/

def roundEven (q : ℚ) : ℤ := if Int.fract q = 1 / 2 ∧ ⌊q⌋ % 2 = 0 then ⌊q⌋ else round q

/-! ## Digits -/

def ulp (p : ℕ) (q : ℚ) : ℚ := 2 ^ (Int.log 2 |q| + 1 - p)

/-- The nearest number of so many binary digits; of two, the one whose last digit is even. -/
def rounded (p : ℕ) (q : ℚ) : ℚ := if q = 0 then 0 else roundEven (q / ulp p q) * ulp p q

end Binary
