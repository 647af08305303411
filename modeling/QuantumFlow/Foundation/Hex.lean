import Mathlib.Data.List.Basic

/-! # Fixed-width upper-case hexadecimal -/

namespace QuantumFlow

def hexDigit (n : ℕ) : Char :=
  if n < 10 then Char.ofNat ('0'.toNat + n) else Char.ofNat ('A'.toNat + (n - 10))

/-- The last `w` hexadecimal digits of `n`, most significant first. -/
def hexUpper : ℕ → ℕ → List Char
  | 0, _ => []
  | w + 1, n => hexUpper w (n / 16) ++ [hexDigit (n % 16)]

example : hexUpper 8 0x46554747 = "46554747".toList := by decide

end QuantumFlow
