/-
# The checksum of an internet header

The 16-bit words of a header are added in one's complement: a carry out of the
16 bits is added in again below. A header that carries its own checksum
verifies if the sum is all ones (`Verifies`).

The sum is the sum of the words modulo `65535` (`oneSum_mod`), so a change of a
single byte is always detected (`verifies_set_iff`).
-/
import Mathlib.Algebra.BigOperators.Group.List.Basic
import Mathlib.Tactic.Ring

namespace Pb173
namespace Checksum

/-- The words of a header, in network byte order; an odd byte is filled up. -/
def words : List UInt8 → List ℕ
  | [] => []
  | [hi] => [256 * hi.toNat]
  | hi :: lo :: l => (256 * hi.toNat + lo.toNat) :: words l

/-- One's complement addition. -/
def add (a b : ℕ) : ℕ := (a + b) % 65536 + (a + b) / 65536

def oneSum (l : List ℕ) : ℕ := l.foldl add 0

/-- The checksum in the header is right. -/
def Verifies (l : List UInt8) : Prop := oneSum (words l) = 65535

instance (l : List UInt8) : Decidable (Verifies l) := inferInstanceAs (Decidable (_ = _))

/-! ### The sum -/

theorem add_mod (a b : ℕ) : add a b % 65535 = (a + b) % 65535 := by
  unfold add
  omega

theorem add_le {a b : ℕ} (ha : a ≤ 65535) (hb : b ≤ 65535) : add a b ≤ 65535 := by
  unfold add
  omega

theorem add_eq_zero_iff {a b : ℕ} : add a b = 0 ↔ a = 0 ∧ b = 0 := by
  unfold add
  omega

theorem words_le : ∀ (l : List UInt8), ∀ w ∈ words l, w ≤ 65535
  | [] => nofun
  | [hi] => fun w hw => by
    obtain rfl := List.mem_singleton.mp hw
    have := hi.toNat_lt
    omega
  | hi :: lo :: l => fun w hw => by
    rcases List.mem_cons.mp hw with rfl | hw
    · have hhi := hi.toNat_lt
      have hlo := lo.toNat_lt
      omega
    · exact words_le l w hw

theorem foldl_add_mod (l : List ℕ) (a : ℕ) : l.foldl add a % 65535 = (a + l.sum) % 65535 := by
  induction l generalizing a with
  | nil => rfl
  | cons w l ih =>
    rw [List.foldl_cons, ih, Nat.add_mod, add_mod, ← Nat.add_mod, List.sum_cons, Nat.add_assoc]

theorem foldl_add_le {l : List ℕ} (hl : ∀ w ∈ l, w ≤ 65535) {a : ℕ} (ha : a ≤ 65535) :
    l.foldl add a ≤ 65535 := by
  induction l generalizing a with
  | nil => exact ha
  | cons w l ih =>
    exact ih (fun v hv => hl v (List.mem_cons_of_mem _ hv)) (add_le ha (hl w List.mem_cons_self))

theorem foldl_add_eq_zero_iff (l : List ℕ) (a : ℕ) : l.foldl add a = 0 ↔ a = 0 ∧ l.sum = 0 := by
  induction l generalizing a with
  | nil => simp
  | cons w l ih =>
    rw [List.foldl_cons, ih, add_eq_zero_iff, List.sum_cons]
    omega

theorem oneSum_mod (l : List ℕ) : oneSum l % 65535 = l.sum % 65535 := by
  rw [oneSum, foldl_add_mod, Nat.zero_add]

theorem verifies_iff (l : List UInt8) :
    Verifies l ↔ (words l).sum % 65535 = 0 ∧ (words l).sum ≠ 0 := by
  have hmod := oneSum_mod (words l)
  have hle : oneSum (words l) ≤ 65535 := foldl_add_le (words_le l) (Nat.zero_le _)
  have hzero : oneSum (words l) = 0 ↔ (words l).sum = 0 := by
    rw [oneSum, foldl_add_eq_zero_iff]
    exact and_iff_right rfl
  unfold Verifies
  omega

/-! ### A change of one byte -/

/-- The weight of the byte `i` in the sum. -/
def weight (i : ℕ) : ℕ := if i % 2 = 0 then 256 else 1

theorem weight_add_two (i : ℕ) : weight (i + 2) = weight i := by
  unfold weight
  rw [Nat.add_mod_right]

theorem sum_words_set (v : UInt8) : ∀ (l : List UInt8) (i : ℕ) (b : UInt8), l[i]? = some b →
    (words (l.set i v)).sum + weight i * b.toNat = (words l).sum + weight i * v.toNat
  | [hi], 0, b, h => by
    obtain rfl := Option.some.inj h
    exact Nat.add_comm _ _
  | hi :: lo :: l, 0, b, h => by
    obtain rfl := Option.some.inj h
    show 256 * v.toNat + lo.toNat + (words l).sum + 256 * hi.toNat =
      256 * hi.toNat + lo.toNat + (words l).sum + 256 * v.toNat
    ring
  | hi :: lo :: l, 1, b, h => by
    obtain rfl := Option.some.inj h
    show 256 * hi.toNat + v.toNat + (words l).sum + 1 * lo.toNat =
      256 * hi.toNat + lo.toNat + (words l).sum + 1 * v.toNat
    ring
  | hi :: lo :: l, i + 2, b, h => by
    have ih := sum_words_set v l i b h
    rw [weight_add_two]
    show 256 * hi.toNat + lo.toNat + (words (l.set i v)).sum + weight i * b.toNat =
      256 * hi.toNat + lo.toNat + (words l).sum + weight i * v.toNat
    rw [Nat.add_assoc, ih, ← Nat.add_assoc]

/-- **One wrong byte is detected.** -/
theorem verifies_set_iff {l : List UInt8} (h : Verifies l) {i : ℕ} {b : UInt8}
    (hb : l[i]? = some b) (v : UInt8) : Verifies (l.set i v) ↔ v = b := by
  constructor
  · intro hv
    have hsum := sum_words_set v l i b hb
    have hl := ((verifies_iff l).mp h).1
    have hl' := ((verifies_iff _).mp hv).1
    have hvlt := v.toNat_lt
    have hblt := b.toNat_lt
    have hw : weight i = 256 ∨ weight i = 1 := by
      unfold weight
      split_ifs
      · exact .inl rfl
      · exact .inr rfl
    -- the two sums differ by less than 65535
    apply UInt8.toNat_inj.mp
    rcases hw with hw | hw <;> rw [hw] at hsum <;> omega
  · rintro rfl
    have hset : l.set i v = l := by
      obtain ⟨hlt, rfl⟩ := List.getElem?_eq_some_iff.mp hb
      exact List.set_getElem_self hlt
    rw [hset]
    exact h

end Checksum
end Pb173
