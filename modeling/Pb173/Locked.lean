/-
# The ioctls under char_lock (03, 04, 06)

The handler of 03 was rewritten twice with `char_lock` around each access of
`char_count`. 06 is the same function as 03 (`my_unlocked_ioctl_06_eq`), and
leaves the lock free on every path. 04 lost the last line, `return 0`: it sets
and gets as 03 does, and what it returns then is not defined. So a history of
ioctls has the trace of 03 if and only if each of them fails
(`same_trace_iff`).
-/
import Pb173.MyDevice

namespace Pb173
namespace Locked

open CInt MyDevice

/-! ### The versions -/

/-- `char_count`, and whether `char_lock` is held. -/
structure State where
  char_count : ℤ
  char_lock : Bool

/-- It does not return while the lock is held. -/
def spin_lock_irq (s : State) : Option State :=
  if s.char_lock then none else some { s with char_lock := true }

def spin_unlock_irq (s : State) : State := { s with char_lock := false }

/-- What a call does. `ret` is `none` where the function ends without a
`return`. -/
structure Out where
  ret : Option ℤ
  state : State
  mem : UserMem

/-- `char_count = arg`, under the lock. -/
def set_char_count (arg : BitVec 64) (s : State) : Option State :=
  (spin_lock_irq s).bind fun s =>
    some (spin_unlock_irq { s with char_count := toS 32 arg.toNat })

/-- `char_count_cpy = char_count`, under the lock. -/
def get_char_count (s : State) : Option (ℤ × State) :=
  (spin_lock_irq s).bind fun s =>
    let char_count_cpy := s.char_count
    some (char_count_cpy, spin_unlock_irq s)

/-- `my_unlocked_ioctl` with the lock; `last` is what its last line returns.
A call that never returns is `none`. -/
def locked (last : Option ℤ) (s : State) (e : Ioctl) : Option Out :=
  if _IOC_TYPE e.cmd ≠ MY_IOC_MAGIC then some ⟨some (-ENOTTY), s, e.mem⟩
  else if _IOC_NR e.cmd ≠ 16 ∧ _IOC_NR e.cmd ≠ 17 then some ⟨some (-ENOTTY), s, e.mem⟩
  else if e.cmd = MY_WRITE ∧ (e.arg.toNat < 1 ∨ e.arg.toNat > 4) then
    some ⟨some (-EINVAL), s, e.mem⟩
  else
    (if e.cmd = MY_WRITE then set_char_count e.arg s else some s).bind fun s =>
    if e.cmd = MY_READ then
      (get_char_count s).bind fun (char_count_cpy, s) =>
      let (mem, left) := copy_to_user e.mem e.room e.arg.toNat (int_bytes char_count_cpy)
      if left ≠ 0 then some ⟨some (-EFAULT), s, mem⟩ else some ⟨last, s, mem⟩
    else some ⟨last, s, e.mem⟩

/-- 03 has no lock. -/
def my_unlocked_ioctl_03 (s : State) (e : Ioctl) : Option Out :=
  let o := my_unlocked_ioctl e.cmd e.arg e.room e.mem s.char_count
  some ⟨some o.ret, { s with char_count := o.char_count }, o.mem⟩

/-- 04 ends after the `if`. -/
def my_unlocked_ioctl_04 : State → Ioctl → Option Out := locked none

/-- 06 ends with `return 0`. -/
def my_unlocked_ioctl_06 : State → Ioctl → Option Out := locked (some 0)

/-! ### One call -/

/-- The call returns an error: its command is not one of the device, the value
to set is out of range, or the user's memory cannot be written. -/
def Fails (e : Ioctl) : Prop :=
  _IOC_TYPE e.cmd ≠ MY_IOC_MAGIC ∨ (_IOC_NR e.cmd ≠ 16 ∧ _IOC_NR e.cmd ≠ 17) ∨
    (e.cmd = MY_WRITE ∧ (e.arg.toNat < 1 ∨ e.arg.toNat > 4)) ∨ (e.cmd = MY_READ ∧ e.room < 4)

instance (e : Ioctl) : Decidable (Fails e) := inferInstanceAs (Decidable (_ ∨ _))

section Call

variable (last : Option ℤ)

theorem set_char_count_eq (arg : BitVec 64) (c : ℤ) :
    set_char_count arg ⟨c, false⟩ = some ⟨toS 32 arg.toNat, false⟩ := by
  simp [set_char_count, spin_lock_irq, spin_unlock_irq]

theorem get_char_count_eq (c : ℤ) : get_char_count ⟨c, false⟩ = some (c, ⟨c, false⟩) := by
  simp [get_char_count, spin_lock_irq, spin_unlock_irq]

/-- **The locked handler** does what 03 does, and returns what 03 returns when
it fails. -/
theorem locked_eq (c : ℤ) (e : Ioctl) : locked last ⟨c, false⟩ e =
    some ⟨if Fails e then some (e.out c).ret else last, ⟨(e.out c).char_count, false⟩,
      (e.out c).mem⟩ := by
  unfold locked Ioctl.out my_unlocked_ioctl
  by_cases htype : _IOC_TYPE e.cmd ≠ MY_IOC_MAGIC
  · have hfails : Fails e := Or.inl htype
    rw [if_pos htype, if_pos htype, if_pos hfails]
  by_cases hnr : _IOC_NR e.cmd ≠ 16 ∧ _IOC_NR e.cmd ≠ 17
  · have hfails : Fails e := Or.inr (Or.inl hnr)
    rw [if_neg htype, if_neg htype, if_pos hnr, if_pos hnr, if_pos hfails]
  by_cases hset : e.cmd = MY_WRITE ∧ (e.arg.toNat < 1 ∨ e.arg.toNat > 4)
  · have hfails : Fails e := Or.inr (Or.inr (Or.inl hset))
    rw [if_neg htype, if_neg htype, if_neg hnr, if_neg hnr, if_pos hset, if_pos hset,
      if_pos hfails]
  rw [if_neg htype, if_neg htype, if_neg hnr, if_neg hnr, if_neg hset, if_neg hset]
  have hfails : Fails e ↔ e.cmd = MY_READ ∧ e.room < 4 := by
    constructor
    · rintro (h | h | h | h)
      exacts [absurd h htype, absurd h hnr, absurd h hset, h]
    · exact fun h => Or.inr (Or.inr (Or.inr h))
  by_cases hr : e.cmd = MY_READ
  · have hw : ¬ e.cmd = MY_WRITE := by
      rw [hr]
      exact read_ne_write
    have hlen : (int_bytes c).length = 4 := rfl
    simp only [if_neg hw, if_pos hr, Option.bind_some, get_char_count_eq, copy_to_user, hlen]
    by_cases hroom : e.room < 4
    · rw [if_pos (by omega), if_pos (hfails.mpr ⟨hr, hroom⟩), if_pos (by omega)]
    · rw [if_neg (by omega), if_neg fun h => hroom (hfails.mp h).2, if_neg (by omega)]
  · rw [if_neg fun h => hr (hfails.mp h).1]
    by_cases hw : e.cmd = MY_WRITE
    · simp only [if_pos hw, if_neg hr, set_char_count_eq, Option.bind_some]
    · simp only [if_neg hw, if_neg hr, Option.bind_some]

theorem out_ret_eq_zero_iff (c : ℤ) (e : Ioctl) : (e.out c).ret = 0 ↔ ¬ Fails e := by
  obtain ⟨cmd, arg, room, mem⟩ := e
  unfold Ioctl.out Fails
  by_cases hr : cmd = MY_READ
  · rw [hr, my_unlocked_ioctl_read]
    by_cases hroom : room < 4
    · rw [if_pos hroom]
      exact ⟨fun h => absurd h EFAULT_ne,
        fun h => absurd (Or.inr (Or.inr (Or.inr ⟨rfl, hroom⟩))) h⟩
    · simp [type_read, nr_read, read_ne_write, hroom]
  by_cases hw : cmd = MY_WRITE
  · rw [hw] at hr ⊢
    rw [my_unlocked_ioctl_write]
    by_cases ha : 1 ≤ arg.toNat ∧ arg.toNat ≤ 4
    · have hvalid : ¬ (arg.toNat < 1 ∨ arg.toNat > 4) := by omega
      simp only [if_pos ha, type_write, nr_write, hr, hvalid]
      simp
    · have hinvalid : arg.toNat < 1 ∨ arg.toNat > 4 := by omega
      simp only [if_neg ha, hinvalid, EINVAL_ne, and_self, true_or, or_true, not_true]
  · rw [my_unlocked_ioctl_other arg room mem c hr hw]
    by_cases h : _IOC_TYPE cmd ≠ MY_IOC_MAGIC ∨ (_IOC_NR cmd ≠ 16 ∧ _IOC_NR cmd ≠ 17)
    · simp only [h, if_true, ENOTTY_ne, hr, hw, false_and, or_false, not_true]
    · simp only [h, if_false, hr, hw, false_and, or_false, not_false_iff]

end Call

/-- **06** is the same as 03. -/
theorem my_unlocked_ioctl_06_eq (c : ℤ) (e : Ioctl) :
    my_unlocked_ioctl_06 ⟨c, false⟩ e = my_unlocked_ioctl_03 ⟨c, false⟩ e := by
  have hlocked : my_unlocked_ioctl_06 ⟨c, false⟩ e = _ := locked_eq (some 0) c e
  rw [hlocked]
  by_cases hf : Fails e
  · rw [if_pos hf]
    rfl
  · rw [if_neg hf, ← (out_ret_eq_zero_iff c e).mpr hf]
    rfl

theorem my_unlocked_ioctl_04_eq_iff (c : ℤ) (e : Ioctl) :
    my_unlocked_ioctl_04 ⟨c, false⟩ e = my_unlocked_ioctl_03 ⟨c, false⟩ e ↔ Fails e := by
  have hlocked : my_unlocked_ioctl_04 ⟨c, false⟩ e = _ := locked_eq none c e
  rw [hlocked]
  by_cases hf : Fails e
  · rw [if_pos hf]
    exact ⟨fun _ => hf, fun _ => rfl⟩
  · rw [if_neg hf]
    refine ⟨fun h => ?_, fun h => absurd h hf⟩
    have hret := congrArg Out.ret (Option.some.inj h)
    cases hret

theorem my_unlocked_ioctl_04_effect (c : ℤ) (e : Ioctl) :
    ∃ o o', my_unlocked_ioctl_04 ⟨c, false⟩ e = some o ∧
      my_unlocked_ioctl_03 ⟨c, false⟩ e = some o' ∧ o.state = o'.state ∧ o.mem = o'.mem :=
  ⟨_, _, locked_eq none c e, rfl, rfl, rfl⟩

/-! ### Histories -/

/-- **The three versions**: 06 keeps the meaning of 03, in every call and in
every history. 04 keeps what a call does to `char_count` and to the user's
memory; it keeps the values returned too if and only if every call fails. -/
theorem same_trace_iff (c : ℤ) (es : List Ioctl) :
    (∀ e, my_unlocked_ioctl_06 ⟨c, false⟩ e = my_unlocked_ioctl_03 ⟨c, false⟩ e) ∧
    (∀ e, my_unlocked_ioctl_04 ⟨c, false⟩ e = my_unlocked_ioctl_03 ⟨c, false⟩ e ↔ Fails e) ∧
    (∀ e, ∃ o o', my_unlocked_ioctl_04 ⟨c, false⟩ e = some o ∧
      my_unlocked_ioctl_03 ⟨c, false⟩ e = some o' ∧ o.state = o'.state ∧ o.mem = o'.mem) ∧
    Machine.trace my_unlocked_ioctl_06 Out.state ⟨c, false⟩ es =
      Machine.trace my_unlocked_ioctl_03 Out.state ⟨c, false⟩ es ∧
    (Machine.trace my_unlocked_ioctl_04 Out.state ⟨c, false⟩ es =
      Machine.trace my_unlocked_ioctl_03 Out.state ⟨c, false⟩ es ↔ ∀ e ∈ es, Fails e) := by
  -- the lock is free between the calls
  have hfree : ∀ s e, s.char_lock = false →
      ∃ o, my_unlocked_ioctl_03 s e = some o ∧ o.state.char_lock = false :=
    fun s e hs => ⟨_, rfl, hs⟩
  refine ⟨my_unlocked_ioctl_06_eq c, my_unlocked_ioctl_04_eq_iff c, my_unlocked_ioctl_04_effect c,
    ?_, ?_⟩
  · have h06 : ∀ s e, s.char_lock = false →
        (my_unlocked_ioctl_06 s e = my_unlocked_ioctl_03 s e ↔ True) := by
      rintro ⟨c, lock⟩ e hs
      obtain rfl : lock = false := hs
      exact iff_true_intro (my_unlocked_ioctl_06_eq c e)
    exact (Machine.trace_eq_iff hfree h06 es _ rfl).mpr fun _ _ => trivial
  · have h04 : ∀ s e, s.char_lock = false →
        (my_unlocked_ioctl_04 s e = my_unlocked_ioctl_03 s e ↔ Fails e) := by
      rintro ⟨c, lock⟩ e hs
      obtain rfl : lock = false := hs
      exact my_unlocked_ioctl_04_eq_iff c e
    exact Machine.trace_eq_iff hfree h04 es _ rfl

/-- Two sets that are refused have the same trace in 04. -/
theorem same_trace_two :
    Machine.trace my_unlocked_ioctl_04 Out.state ⟨4, false⟩
      [⟨MY_WRITE, 0, 0, fun _ => 0⟩, ⟨MY_WRITE, 5, 0, fun _ => 0⟩] =
    Machine.trace my_unlocked_ioctl_03 Out.state ⟨4, false⟩
      [⟨MY_WRITE, 0, 0, fun _ => 0⟩, ⟨MY_WRITE, 5, 0, fun _ => 0⟩] :=
  (same_trace_iff 4 _).2.2.2.2.mpr (by decide)

/-- A set to 2 returns 0 in 03, and no value in 04. -/
theorem no_return :
    (my_unlocked_ioctl_03 ⟨4, false⟩ ⟨MY_WRITE, 2, 0, fun _ => 0⟩).map Out.ret = some (some 0) ∧
    (my_unlocked_ioctl_04 ⟨4, false⟩ ⟨MY_WRITE, 2, 0, fun _ => 0⟩).map Out.ret = some none ∧
    ¬ my_unlocked_ioctl_04 ⟨4, false⟩ ⟨MY_WRITE, 2, 0, fun _ => 0⟩ =
      my_unlocked_ioctl_03 ⟨4, false⟩ ⟨MY_WRITE, 2, 0, fun _ => 0⟩ := by
  have h03 : (my_unlocked_ioctl_03 ⟨4, false⟩ ⟨MY_WRITE, 2, 0, fun _ => 0⟩).map Out.ret =
      some (some 0) := by decide
  have h04 : (my_unlocked_ioctl_04 ⟨4, false⟩ ⟨MY_WRITE, 2, 0, fun _ => 0⟩).map Out.ret =
      some none := by decide
  refine ⟨h03, h04, fun h => ?_⟩
  rw [h, h03] at h04
  cases h04

end Locked
end Pb173
