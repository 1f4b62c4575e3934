/-
# What the drivers call

The user copies of the kernel, and the error numbers. A user buffer is the
list of the bytes that can be read from its start; `copy_from_user` reports
how many bytes it could not move, as the kernel's does, and the driver
decides what that means. `simple_read_from_buffer` is a function of the
kernel that the drivers only rely on: it stays a parameter, and
`CopiesSlice` is what is documented of it.
-/
import Pb173.CInt

namespace Pb173

def EIO : ℤ := 5
def ENOMEM : ℤ := 12
def EFAULT : ℤ := 14
def EBUSY : ℤ := 16
def EINVAL : ℤ := 22
def ENOTTY : ℤ := 25
def ERESTARTSYS : ℤ := 512

/-- What an interrupt handler returns. -/
inductive irqreturn_t
  | IRQ_NONE | IRQ_HANDLED
deriving DecidableEq

/-- The largest count the VFS passes to a driver. -/
def SSIZE_MAX : ℕ := 2 ^ 63 - 1

theorem toS_count {n : ℕ} (h : n ≤ SSIZE_MAX) : CInt.toS 64 n = n := by
  unfold SSIZE_MAX at h
  apply CInt.toS_of_nonneg
  · exact Int.natCast_nonneg n
  · omega

/-- `copy_from_user` of `n` bytes from a user buffer of which the bytes `u`
can be read: the bytes moved, and the number of bytes not moved. -/
def copy_from_user (u : List UInt8) (n : ℕ) : List UInt8 × ℕ :=
  (u.take n, n - u.length)

/-- The bytes at the addresses of a user process. -/
abbrev UserMem := ℕ → UInt8

/-- The memory with the bytes `d` from address `a` on. -/
def UserMem.poke (mem : UserMem) (a : ℕ) (d : List UInt8) : UserMem := fun k =>
  if a ≤ k then (d[k - a]?).getD (mem k) else mem k

/-- `copy_to_user` of the bytes `d` to the address `dst`, at which `room` bytes
can be written: the memory, and the number of bytes not moved. -/
def copy_to_user (mem : UserMem) (room dst : ℕ) (d : List UInt8) : UserMem × ℕ :=
  (mem.poke dst (d.take room), d.length - room)

section Poke

variable (mem : UserMem) (a : ℕ) (d : List UInt8)

theorem poke_of_mem {k : ℕ} (hk : k < d.length) : mem.poke a d (a + k) = d[k] := by
  simp [UserMem.poke, hk]

theorem poke_of_not_mem {k : ℕ} (h : k < a ∨ a + d.length ≤ k) : mem.poke a d k = mem k := by
  unfold UserMem.poke
  split_ifs with hle
  · rw [List.getElem?_eq_none (by omega), Option.getD_none]
  · rfl

theorem poke_nil : mem.poke a [] = mem :=
  funext fun _ => poke_of_not_mem mem a [] (by simp; omega)

theorem poke_cons (c : UInt8) : (mem.poke a [c]).poke (a + 1) d = mem.poke a (c :: d) := by
  funext k
  unfold UserMem.poke
  rcases Nat.lt_trichotomy k a with h | rfl | h
  · rw [if_neg (by omega), if_neg (by omega), if_neg (by omega)]
  · simp
  · obtain ⟨j, rfl⟩ := Nat.exists_eq_add_of_lt h
    rw [if_pos (by omega), if_pos (by omega), if_pos (by omega),
      show a + j + 1 - a = j + 1 by omega, show a + j + 1 - (a + 1) = j by omega]
    simp

end Poke

/-- What a read call does: its return value, the offset it leaves, and the
bytes that reached the user. -/
structure ReadOut where
  ret : ℤ
  off : ℤ
  out : List UInt8
deriving DecidableEq, Repr

/-- `simple_read_from_buffer(to, count, ppos, from, available)`: `room` bytes
can be written at `to`, and `src` are the `available` bytes at `from`. -/
abbrev SimpleReadFromBuffer := (room count : ℕ) → (ppos : ℤ) → (src : List UInt8) → ReadOut

/-- What is documented of `simple_read_from_buffer`. -/
structure CopiesSlice (srfb : SimpleReadFromBuffer) : Prop where
  /-- It returns an `ssize_t`. -/
  range : ∀ room count pos src, src.length < 2 ^ 63 →
    -2 ^ 63 ≤ (srfb room count pos src).ret ∧ (srfb room count pos src).ret < 2 ^ 63
  /-- On success it returns the number of bytes read, which are those at the
  position, and advances the position by it. -/
  slice : ∀ room count pos src, 0 ≤ pos → 0 ≤ (srfb room count pos src).ret →
    (srfb room count pos src).out =
        (src.drop pos.toNat).take (srfb room count pos src).ret.toNat ∧
      (srfb room count pos src).off = pos + (srfb room count pos src).ret
  /-- It reads up to `count` bytes of those from the position on, all of them
  if the user's memory can be written. -/
  full : ∀ room count pos src, 0 ≤ pos → pos ≤ src.length → src.length < 2 ^ 63 → count ≤ room →
    (srfb room count pos src).ret = min (count : ℤ) (src.length - pos)

/-- What it returns on success is the number of bytes that reached the user. -/
def CountsBytes (srfb : SimpleReadFromBuffer) : Prop :=
  ∀ room count pos src, 0 ≤ pos → 0 ≤ (srfb room count pos src).ret →
    ((srfb room count pos src).out.length : ℤ) = (srfb room count pos src).ret

/-- A function that does what is documented: it moves what fits, and reports
a fault when nothing did. -/
def readSlice : SimpleReadFromBuffer := fun room count pos src =>
  if pos < 0 then ⟨-EINVAL, pos, []⟩
  else
    let n := min count (src.length - pos.toNat)
    let moved := min n room
    if n ≠ 0 ∧ moved = 0 then ⟨-EFAULT, pos, []⟩
    else ⟨moved, pos + moved, (src.drop pos.toNat).take moved⟩

theorem readSlice_copies : CopiesSlice readSlice where
  range room count pos src hs := by
    unfold readSlice EINVAL EFAULT
    simp only
    split_ifs <;> constructor <;> simp only <;> omega
  slice room count pos src hp hr := by
    unfold readSlice EFAULT at *
    simp only [if_neg (show ¬ pos < 0 by omega)] at *
    split_ifs at * with h
    · simp at hr
    · exact ⟨by simp only [Int.toNat_natCast], rfl⟩
  full room count pos src hp hl _ hc := by
    unfold readSlice EFAULT
    simp only [if_neg (show ¬ pos < 0 by omega)]
    split_ifs with h <;> simp only <;> omega

theorem readSlice_counts : CountsBytes readSlice := by
  intro room count pos src hp hr
  unfold readSlice EFAULT at *
  simp only [if_neg (show ¬ pos < 0 by omega)] at *
  split_ifs at * with h
  · simp at hr
  · simp only [List.length_take, List.length_drop]
    omega

end Pb173
