/-
# C integers

The usual arithmetic conversions, for a type of `w` bits: a value reaches an
unsigned type modulo `2 ^ w`, and a signed one in two's complement. C's
mixed arithmetic converts both operands to the unsigned type first, so an
expression such as `*off + count` is `(toU w off + count) % 2 ^ w`.
-/
import Mathlib.Tactic.Linarith
import Mathlib.Data.Nat.Cast.Order.Ring

namespace Pb173
namespace CInt

/-- Conversion to the unsigned type of `w` bits. -/
def toU (w : ℕ) (x : ℤ) : ℕ := (x % 2 ^ w).toNat

/-- Conversion to the signed type of `w` bits. -/
def toS (w : ℕ) (x : ℤ) : ℤ :=
  if x % 2 ^ w < 2 ^ (w - 1) then x % 2 ^ w else x % 2 ^ w - 2 ^ w

theorem toU_natCast {w n : ℕ} (h : n < 2 ^ w) : toU w (n : ℤ) = n := by
  have h' : (n : ℤ) < 2 ^ w := by exact_mod_cast h
  unfold toU
  rw [Int.emod_eq_of_lt (Int.natCast_nonneg n) h', Int.toNat_natCast]

theorem toU_of_nonneg {w : ℕ} {x : ℤ} (h0 : 0 ≤ x) (h : x < 2 ^ w) : toU w x = x.toNat := by
  unfold toU
  rw [Int.emod_eq_of_lt h0 h]

theorem toS_of_nonneg {w : ℕ} {x : ℤ} (h0 : 0 ≤ x) (h : x < 2 ^ (w - 1)) : toS w x = x := by
  have hw : (2 : ℤ) ^ (w - 1) ≤ 2 ^ w := pow_le_pow_right₀ (by norm_num) (Nat.sub_le w 1)
  unfold toS
  rw [Int.emod_eq_of_lt h0 (h.trans_le hw), if_pos h]

/-- A signed value survives the trip through the unsigned type. -/
theorem toS_toU {x : ℤ} (h0 : -2 ^ 63 ≤ x) (h : x < 2 ^ 63) : toS 64 (toU 64 x) = x := by
  unfold toS toU
  split <;> omega

end CInt
end Pb173
