/-
# Hexadecimal numbers in text

`hex k n` are the lower-case hexadecimal digits of `n`, with zeros in front of
them up to `k` digits. They are all digits (`isHex_of_mem_hex`), their number is
`n` again (`unhex_hex`), and how many they are is known from a bound of `n`
(`length_hex_le`).
-/
import Mathlib.Data.Nat.Digits.Lemmas

namespace Pb173

def hexDigit (d : ℕ) : UInt8 := UInt8.ofNat (if d < 10 then 48 + d else 87 + d)

def hexValue (c : UInt8) : ℕ := if c ≤ 57 then c.toNat - 48 else c.toNat - 87

def isHex (c : UInt8) : Bool := (48 ≤ c && c ≤ 57) || (97 ≤ c && c ≤ 102)

/-- At least `k` digits of `n`. -/
def hex (k n : ℕ) : List UInt8 :=
  (Nat.digits 16 n ++ List.replicate (k - (Nat.digits 16 n).length) 0).reverse.map hexDigit

/-- The number that hexadecimal digits stand for. -/
def unhex (s : List UInt8) : ℕ := Nat.ofDigits 16 (s.reverse.map hexValue)

theorem hexValue_hexDigit : ∀ d < 16, hexValue (hexDigit d) = d := by decide

theorem isHex_hexDigit : ∀ d < 16, isHex (hexDigit d) = true := by decide

theorem lt_of_mem_digits {k n d : ℕ}
    (h : d ∈ Nat.digits 16 n ++ List.replicate (k - (Nat.digits 16 n).length) 0) : d < 16 := by
  rcases List.mem_append.mp h with h | h
  · exact Nat.digits_lt_base (by decide) h
  · rw [List.eq_of_mem_replicate h]
    decide

theorem isHex_of_mem_hex {k n : ℕ} {c : UInt8} (h : c ∈ hex k n) : isHex c = true := by
  obtain ⟨d, hd, rfl⟩ := List.mem_map.mp h
  exact isHex_hexDigit d (lt_of_mem_digits (List.mem_reverse.mp hd))

/-- **Printed and read again.** -/
theorem unhex_hex (k n : ℕ) : unhex (hex k n) = n := by
  unfold unhex hex
  set ds := Nat.digits 16 n ++ List.replicate (k - (Nat.digits 16 n).length) 0 with hds
  have hmap : ds.map (hexValue ∘ hexDigit) = ds := by
    conv_rhs => rw [← List.map_id ds]
    exact List.map_congr_left fun d hd => hexValue_hexDigit d (lt_of_mem_digits hd)
  rw [← List.map_reverse, List.reverse_reverse, List.map_map, hmap, hds,
    Nat.ofDigits_append_replicate_zero, Nat.ofDigits_digits]

theorem length_hex (k n : ℕ) : (hex k n).length = max k (Nat.digits 16 n).length := by
  unfold hex
  rw [List.length_map, List.length_reverse, List.length_append, List.length_replicate]
  omega

theorem length_hex_le {k m n : ℕ} (hk : k ≤ m) (hn : n < 16 ^ m) : (hex k n).length ≤ m := by
  have hlen : (Nat.digits 16 n).length ≤ m := (Nat.digits_length_le_iff (by decide) n).mpr hn
  rw [length_hex]
  exact max_le hk hlen

end Pb173
