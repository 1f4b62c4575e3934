/-
# The string of my_device (02, 03, 04, 06, 10/homework)

`my_unlocked_ioctl` sets and gets `char_count`, and never lets it leave
`1..4`. `my_read` fills its local `str` by it, copies all of `str` to the
user whatever `count` is, and returns `char_count`; what `strcpy` does not
write is what was on the stack. So the read contract is met if and only if
at most `count` of the five bytes reach the user (`read_contract_iff`), and
two stacks are told apart if and only if more than the string and its NUL do
(`untold_iff`). A command that has the magic and one of the two numbers, but
is neither `MY_READ` nor `MY_WRITE`, returns 0; every other is validated
(`validated_iff`).
-/
import Pb173.Kernel
import Pb173.Machine
import Pb173.Overwrite

namespace Pb173
namespace MyDevice

open CInt

/-! ### The commands -/

/-- `_IOC(dir, type, nr, size)`. -/
def _IOC (dir type nr size : BitVec 32) : BitVec 32 :=
  dir <<< 30 ||| type <<< 8 ||| nr ||| size <<< 16

def _IOC_TYPE (cmd : BitVec 32) : BitVec 32 := (cmd >>> 8) &&& 0xff

def _IOC_NR (cmd : BitVec 32) : BitVec 32 := cmd &&& 0xff

/-- `'$'`. -/
def MY_IOC_MAGIC : BitVec 32 := 0x24

/-- `_IOR(MY_IOC_MAGIC, 16, int)`. -/
def MY_READ : BitVec 32 := _IOC 2 MY_IOC_MAGIC 16 4

/-- `_IOW(MY_IOC_MAGIC, 17, int)`. -/
def MY_WRITE : BitVec 32 := _IOC 1 MY_IOC_MAGIC 17 4

/-- The bytes of an `int`. -/
def int_bytes (x : ℤ) : List UInt8 :=
  (List.range 4).map fun k => UInt8.ofNat (toU 32 x / 256 ^ k)

theorem type_read : _IOC_TYPE MY_READ = MY_IOC_MAGIC := by decide
theorem type_write : _IOC_TYPE MY_WRITE = MY_IOC_MAGIC := by decide
theorem nr_read : _IOC_NR MY_READ = 16 := by decide
theorem nr_write : _IOC_NR MY_WRITE = 17 := by decide
theorem read_ne_write : MY_READ ≠ MY_WRITE := by decide

/-- What an ioctl does: its return value, `char_count` and the user's memory
after it. -/
structure IoctlOut where
  ret : ℤ
  char_count : ℤ
  mem : UserMem

/-- `my_unlocked_ioctl`; `room` bytes can be written at the address `arg`. -/
def my_unlocked_ioctl (cmd : BitVec 32) (arg : BitVec 64) (room : ℕ) (mem : UserMem)
    (char_count : ℤ) : IoctlOut :=
  if _IOC_TYPE cmd ≠ MY_IOC_MAGIC then ⟨-ENOTTY, char_count, mem⟩
  else if _IOC_NR cmd ≠ 16 ∧ _IOC_NR cmd ≠ 17 then ⟨-ENOTTY, char_count, mem⟩
  else if cmd = MY_WRITE ∧ (arg.toNat < 1 ∨ arg.toNat > 4) then ⟨-EINVAL, char_count, mem⟩
  else
    let char_count := if cmd = MY_WRITE then toS 32 arg.toNat else char_count
    if cmd = MY_READ then
      let (mem, left) := copy_to_user mem room arg.toNat (int_bytes char_count)
      if left ≠ 0 then ⟨-EFAULT, char_count, mem⟩ else ⟨0, char_count, mem⟩
    else ⟨0, char_count, mem⟩

/-! ### Reading -/

/-- A string without its NUL. -/
def chars (s : String) : List UInt8 := s.toList.map fun c => UInt8.ofNat c.toNat

def strcpy {n : ℕ} (dst : Vector UInt8 n) (src : List UInt8) : Vector UInt8 n :=
  overwrite dst 0 (src ++ [0])

/-- The `switch` of `my_read`, which fills `str`. -/
def switch (chars_to_ret : ℤ) (str : Vector UInt8 5) : Vector UInt8 5 :=
  match chars_to_ret with
  | 1 => strcpy str (chars "A")
  | 2 => strcpy str (chars "Ah")
  | 3 => strcpy str (chars "Aho")
  | _ => strcpy str (chars "Ahoj")

/-- `my_read`; `str` is what its local holds at first, and `room` bytes can be
written at `buf`. -/
def my_read (str : Vector UInt8 5) (buf room _count : ℕ) (mem : UserMem) (char_count : ℤ) :
    ℤ × UserMem :=
  let chars_to_ret := char_count
  let str := switch chars_to_ret str
  let (mem, left) := copy_to_user mem room buf str.toList
  if left ≠ 0 then (-EFAULT, mem) else (chars_to_ret, mem)

/-! ### The ioctls -/

/-- An ioctl, with the memory of its caller. -/
structure Ioctl where
  cmd : BitVec 32
  arg : BitVec 64
  room : ℕ
  mem : UserMem

/-- The state is `char_count`. -/
def step (char_count : ℤ) (e : Ioctl) : Option ℤ :=
  some (my_unlocked_ioctl e.cmd e.arg e.room e.mem char_count).char_count

def start : ℤ := 4

section Calls

variable (arg : BitVec 64) (room : ℕ) (mem : UserMem) (c : ℤ)

theorem my_unlocked_ioctl_write : my_unlocked_ioctl MY_WRITE arg room mem c =
    if 1 ≤ arg.toNat ∧ arg.toNat ≤ 4 then ⟨0, arg.toNat, mem⟩ else ⟨-EINVAL, c, mem⟩ := by
  have hnr : ¬ (_IOC_NR MY_WRITE ≠ 16 ∧ _IOC_NR MY_WRITE ≠ 17) := fun h => h.2 nr_write
  have hread : ¬ MY_WRITE = MY_READ := read_ne_write.symm
  unfold my_unlocked_ioctl
  rw [if_neg (not_not.mpr type_write), if_neg hnr]
  by_cases ha : 1 ≤ arg.toNat ∧ arg.toNat ≤ 4
  · have hvalid : ¬ (arg.toNat < 1 ∨ arg.toNat > 4) := by omega
    have hint : toS 32 arg.toNat = arg.toNat := by
      apply toS_of_nonneg
      · omega
      · norm_num
        omega
    simp only [hvalid, hread, ha, hint, and_self, and_false, if_true, if_false]
  · have hinvalid : arg.toNat < 1 ∨ arg.toNat > 4 := by omega
    rw [if_pos ⟨rfl, hinvalid⟩, if_neg ha]

theorem my_unlocked_ioctl_read : my_unlocked_ioctl MY_READ arg room mem c =
    ⟨if room < 4 then -EFAULT else 0, c, mem.poke arg.toNat ((int_bytes c).take room)⟩ := by
  have htype : ¬ _IOC_TYPE MY_READ ≠ MY_IOC_MAGIC := not_not.mpr type_read
  have hnr : ¬ (_IOC_NR MY_READ ≠ 16 ∧ _IOC_NR MY_READ ≠ 17) := fun h => h.1 nr_read
  have hlen : (int_bytes c).length = 4 := rfl
  unfold my_unlocked_ioctl copy_to_user
  simp only [htype, hnr, read_ne_write, hlen, false_and, if_true, if_false]
  by_cases hroom : room < 4
  · rw [if_pos (by omega), if_pos hroom]
  · rw [if_neg (by omega), if_neg hroom]

theorem my_unlocked_ioctl_other {cmd : BitVec 32} (hr : cmd ≠ MY_READ) (hw : cmd ≠ MY_WRITE) :
    my_unlocked_ioctl cmd arg room mem c =
      ⟨if _IOC_TYPE cmd ≠ MY_IOC_MAGIC ∨ (_IOC_NR cmd ≠ 16 ∧ _IOC_NR cmd ≠ 17) then -ENOTTY else 0,
        c, mem⟩ := by
  unfold my_unlocked_ioctl
  simp only [hr, hw, false_and, if_false]
  by_cases htype : _IOC_TYPE cmd ≠ MY_IOC_MAGIC
  · rw [if_pos htype, if_pos (Or.inl htype)]
  · rw [if_neg htype]
    by_cases hnr : _IOC_NR cmd ≠ 16 ∧ _IOC_NR cmd ≠ 17
    · rw [if_pos hnr, if_pos (Or.inr hnr)]
    · rw [if_neg hnr, if_neg (not_or.mpr ⟨htype, hnr⟩)]

theorem my_unlocked_ioctl_char_count (cmd : BitVec 32) :
    (my_unlocked_ioctl cmd arg room mem c).char_count =
      if cmd = MY_WRITE ∧ 1 ≤ arg.toNat ∧ arg.toNat ≤ 4 then (arg.toNat : ℤ) else c := by
  by_cases hw : cmd = MY_WRITE
  · subst hw
    rw [my_unlocked_ioctl_write]
    by_cases ha : 1 ≤ arg.toNat ∧ arg.toNat ≤ 4
    · rw [if_pos ha, if_pos ⟨rfl, ha⟩]
    · rw [if_neg ha, if_neg fun h => ha h.2]
  · rw [if_neg fun h => hw h.1]
    by_cases hr : cmd = MY_READ
    · rw [hr, my_unlocked_ioctl_read]
    · rw [my_unlocked_ioctl_other arg room mem c hr hw]

end Calls

/-- **An ioctl** keeps `char_count` in its range. -/
theorem step_range {c d : ℤ} {e : Ioctl} (hc : 1 ≤ c ∧ c ≤ 4) (h : step c e = some d) :
    1 ≤ d ∧ d ≤ 4 := by
  obtain rfl := Option.some.inj h
  rw [my_unlocked_ioctl_char_count]
  split_ifs <;> omega

theorem run_range {es : List Ioctl} {c : ℤ} (h : Machine.run step start es = some c) :
    1 ≤ c ∧ c ≤ 4 :=
  Machine.run_inv step (fun c => 1 ≤ c ∧ c ≤ 4) (by decide) (fun _ _ _ => step_range) h

/-! ### The read contract -/

/-- A read of `count` bytes fails with `-EFAULT`, or returns how many it has
given of the string, and it touches nothing else. -/
structure ReadOk (mem : UserMem) (buf count : ℕ) (char_count : ℤ) (r : ℤ × UserMem) : Prop where
  result : r.1 = -EFAULT ∨ (0 ≤ r.1 ∧ r.1 ≤ count ∧ r.1 ≤ char_count ∧
    ∀ i : ℕ, (i : ℤ) < r.1 → some (r.2 (buf + i)) = (chars "Ahoj")[i]?)
  frame : ∀ a, a < buf ∨ buf + count ≤ a → r.2 a = mem a

/-- The cases of the `switch` are the prefixes of the string. -/
theorem switch_eq {c : ℤ} (hc : 1 ≤ c ∧ c ≤ 4) (str : Vector UInt8 5) :
    switch c str = strcpy str ((chars "Ahoj").take c.toNat) := by
  obtain rfl | rfl | rfl | rfl : c = 1 ∨ c = 2 ∨ c = 3 ∨ c = 4 := by omega
  all_goals rfl

theorem getElem_switch {c : ℤ} (hc : 1 ≤ c ∧ c ≤ 4) (str : Vector UInt8 5) {i : ℕ}
    (hi : (i : ℤ) < c) (h5 : i < 5) : some (switch c str)[i] = (chars "Ahoj")[i]? := by
  have hlen : (chars "Ahoj").length = 4 := by decide
  have hget : (overwrite str 0 ((chars "Ahoj").take c.toNat ++ [0]))[0 + i] = _ :=
    getElem_overwrite_of_mem str 0 _ (by simp; omega) (by omega)
  simp only [Nat.zero_add] at hget
  rw [switch_eq hc]
  unfold strcpy
  rw [hget, List.getElem_append_left (by rw [List.length_take]; omega), List.getElem_take,
    List.getElem?_eq_getElem (by omega)]

theorem getElem_switch_le {c : ℤ} (hc : 1 ≤ c ∧ c ≤ 4) (str str' : Vector UInt8 5) {i : ℕ}
    (hi : (i : ℤ) ≤ c) (h5 : i < 5) : (switch c str)[i] = (switch c str')[i] := by
  have hlen : (chars "Ahoj").length = 4 := by decide
  have hin : 0 ≤ i ∧ i - 0 < ((chars "Ahoj").take c.toNat ++ [0]).length := by
    simp only [List.length_append, List.length_take, List.length_singleton]
    omega
  rw [switch_eq hc, switch_eq hc]
  unfold strcpy
  rw [getElem_overwrite, getElem_overwrite, dif_pos hin, dif_pos hin]

theorem getElem_switch_gt {c : ℤ} (hc : 1 ≤ c ∧ c ≤ 4) (str : Vector UInt8 5) {i : ℕ}
    (hi : c < (i : ℤ)) (h5 : i < 5) : (switch c str)[i] = str[i] := by
  rw [switch_eq hc]
  apply getElem_overwrite_of_not_mem
  simp only [List.length_append, List.length_take, List.length_singleton]
  omega

theorem my_read_eq (str : Vector UInt8 5) (buf room count : ℕ) (mem : UserMem) (c : ℤ) :
    my_read str buf room count mem c =
      (if room < 5 then -EFAULT else c, mem.poke buf ((switch c str).toList.take room)) := by
  unfold my_read copy_to_user
  simp only [Vector.length_toList]
  by_cases hroom : room < 5
  · rw [if_pos (by omega), if_pos hroom]
  · rw [if_neg (by omega), if_neg hroom]

theorem my_read_moved (str : Vector UInt8 5) (buf room count : ℕ) (mem : UserMem) (c : ℤ) {i : ℕ}
    (h5 : i < 5) (hi : i < room) :
    (my_read str buf room count mem c).2 (buf + i) = (switch c str)[i] := by
  rw [my_read_eq]
  simp only
  rw [poke_of_mem mem buf _ (by simp; omega)]
  simp

theorem my_read_frame (str : Vector UInt8 5) (buf room count : ℕ) (mem : UserMem) (c : ℤ) {a : ℕ}
    (h : a < buf ∨ buf + min room 5 ≤ a) : (my_read str buf room count mem c).2 a = mem a := by
  rw [my_read_eq]
  exact poke_of_not_mem mem buf _ (by simp; omega)

/-- **One read.** -/
theorem readOk_iff {c : ℤ} (hc : 1 ≤ c ∧ c ≤ 4) (str : Vector UInt8 5) (buf room count : ℕ)
    (mem : UserMem) : ReadOk mem buf count c (my_read str buf room count mem c) ↔
      (5 ≤ room → c ≤ count) ∧
        ∀ i (h5 : i < 5), count ≤ i → i < room → mem (buf + i) = (switch c str)[i] := by
  have hret := congrArg Prod.fst (my_read_eq str buf room count mem c)
  simp only at hret
  constructor
  · intro h
    refine ⟨fun hroom => ?_, fun i h5 hi hr => ?_⟩
    · rw [if_neg (by omega)] at hret
      rcases h.result with hf | ⟨-, hcount, -⟩
      · unfold EFAULT at hf
        omega
      · rw [hret] at hcount
        exact hcount
    · rw [← h.frame (buf + i) (by omega)]
      exact my_read_moved str buf room count mem c h5 hr
  · rintro ⟨hcount, hsame⟩
    constructor
    · by_cases hroom : room < 5
      · rw [if_pos hroom] at hret
        exact Or.inl hret
      · rw [if_neg hroom] at hret
        rw [hret]
        refine Or.inr ⟨by omega, hcount (by omega), le_rfl, fun i hi => ?_⟩
        rw [my_read_moved str buf room count mem c (by omega) (by omega)]
        exact getElem_switch hc str hi (by omega)
    · intro a ha
      by_cases hin : a < buf ∨ buf + min room 5 ≤ a
      · exact my_read_frame str buf room count mem c hin
      · obtain ⟨i, rfl⟩ := Nat.exists_eq_add_of_le (show buf ≤ a by omega)
        rw [my_read_moved str buf room count mem c (by omega) (by omega)]
        exact (hsame i (by omega) (by omega) (by omega)).symm

/-- **The read contract** after every history of ioctls: with the memory it
finds, a read meets it if and only if `char_count` fits where it succeeds, and
the bytes that are written past `count` were there before. It meets it whatever
the memory holds if and only if no bytes are written past `count`. -/
theorem read_contract_iff {es : List Ioctl} {c : ℤ} (h : Machine.run step start es = some c)
    (str : Vector UInt8 5) (buf room count : ℕ) :
    (∀ mem, ReadOk mem buf count c (my_read str buf room count mem c) ↔
      (5 ≤ room → c ≤ count) ∧
        ∀ i (h5 : i < 5), count ≤ i → i < room → mem (buf + i) = (switch c str)[i]) ∧
    ((∀ mem, ReadOk mem buf count c (my_read str buf room count mem c)) ↔
      min room 5 ≤ count) := by
  have hc := run_range h
  refine ⟨readOk_iff hc str buf room count, fun hall => ?_, fun hle mem => ?_⟩
  · by_contra hlt
    have h5 : count < 5 := by omega
    have hother := (readOk_iff hc str buf room count _).mp
      (hall fun _ => if (switch c str)[count] = 0 then 1 else 0)
    have hsame := hother.2 count h5 le_rfl (by omega)
    split_ifs at hsame with h0
    · rw [h0] at hsame
      exact absurd hsame (by decide)
    · exact h0 hsame.symm
  · exact (readOk_iff hc str buf room count mem).mpr
      ⟨fun _ => by omega, fun i h5 hi hr => absurd hle (by omega)⟩

/-- After a successful set to 3, five bytes are read. -/
theorem read_contract_five :
    ReadOk (fun _ => 7) 100 5 3 (my_read (Vector.replicate 5 0) 100 5 5 (fun _ => 7) 3) := by
  have hrun : Machine.run step start [⟨MY_WRITE, 3, 0, fun _ => 0⟩] = some 3 := by decide
  exact (read_contract_iff hrun (Vector.replicate 5 0) 100 5 5).2.mpr (by decide) _

/-- At first a read of one byte returns 4, and writes over the byte behind it. -/
theorem read_one : Machine.run step start [] = some 4 ∧
    (my_read (Vector.replicate 5 0) 100 5 1 (fun _ => 0) 4).1 = 4 ∧
    (my_read (Vector.replicate 5 0) 100 5 1 (fun _ => 0) 4).2 101 = 104 ∧
    ¬ ReadOk (fun _ => 0) 100 1 4 (my_read (Vector.replicate 5 0) 100 5 1 (fun _ => 0) 4) := by
  refine ⟨rfl, by decide, by decide, fun h => ?_⟩
  have hframe := h.frame 101 (by decide)
  exact absurd hframe (by decide)

/-! ### What is read of the stack -/

theorem my_read_same_iff {c : ℤ} (hc : 1 ≤ c ∧ c ≤ 4) (str str' : Vector UInt8 5)
    (buf room count : ℕ) (mem : UserMem) :
    (my_read str buf room count mem c).2 = (my_read str' buf room count mem c).2 ↔
      ∀ (i : ℕ) (h5 : i < 5), c < i → i < room → str[i] = str'[i] := by
  constructor
  · intro h i h5 hi hr
    have hat := congrFun h (buf + i)
    rw [my_read_moved str buf room count mem c h5 hr,
      my_read_moved str' buf room count mem c h5 hr] at hat
    rwa [getElem_switch_gt hc str hi h5, getElem_switch_gt hc str' hi h5] at hat
  · intro h
    funext a
    by_cases hin : a < buf ∨ buf + min room 5 ≤ a
    · rw [my_read_frame str buf room count mem c hin, my_read_frame str' buf room count mem c hin]
    · obtain ⟨i, rfl⟩ := Nat.exists_eq_add_of_le (show buf ≤ a by omega)
      have h5 : i < 5 := by omega
      have hr : i < room := by omega
      rw [my_read_moved str buf room count mem c h5 hr,
        my_read_moved str' buf room count mem c h5 hr]
      rcases le_or_gt (i : ℤ) c with hi | hi
      · exact getElem_switch_le hc str str' hi h5
      · rw [getElem_switch_gt hc str hi h5, getElem_switch_gt hc str' hi h5]
        exact h i h5 hi hr

/-- **What a read tells of the stack**, after every history of ioctls: two
stacks are told apart if and only if they differ behind the NUL, in a byte that
reaches the user. No two are if and only if the string fills `str`, or the
user's memory ends with the NUL. -/
theorem untold_iff {es : List Ioctl} {c : ℤ} (h : Machine.run step start es = some c)
    (buf room count : ℕ) (mem : UserMem) :
    (∀ str str' : Vector UInt8 5,
      (my_read str buf room count mem c).2 = (my_read str' buf room count mem c).2 ↔
        ∀ (i : ℕ) (h5 : i < 5), c < i → i < room → str[i] = str'[i]) ∧
    ((∀ str str' : Vector UInt8 5,
      (my_read str buf room count mem c).2 = (my_read str' buf room count mem c).2) ↔
        c = 4 ∨ (room : ℤ) ≤ c + 1) := by
  have hc := run_range h
  have hsame := fun str str' => my_read_same_iff hc str str' buf room count mem
  refine ⟨hsame, fun hall => ?_, fun hfit str str' => ?_⟩
  · by_contra hnot
    obtain ⟨i, rfl⟩ := Int.eq_ofNat_of_zero_le (show 0 ≤ c by omega)
    have hbyte := (hsame (Vector.replicate 5 0) (Vector.replicate 5 1)).mp (hall _ _) (i + 1)
      (by omega) (by omega) (by omega)
    simp only [Vector.getElem_replicate] at hbyte
    exact absurd hbyte (by decide)
  · exact (hsame str str').mpr fun i h5 hi hr => absurd hfit (by omega)

/-- After a set to 4 nothing of the stack is read. -/
theorem untold_four : (my_read (Vector.replicate 5 1) 100 5 5 (fun _ => 0) 4).2 =
    (my_read (Vector.replicate 5 2) 100 5 5 (fun _ => 0) 4).2 := by
  have hrun : Machine.run step start [⟨MY_WRITE, 4, 0, fun _ => 0⟩] = some 4 := by decide
  exact (untold_iff hrun 100 5 5 (fun _ => 0)).2.mpr (by decide) _ _

/-- After a set to 1 a read of five bytes gives the user three of the stack. -/
theorem stack_read : Machine.run step start [⟨MY_WRITE, 1, 0, fun _ => 0⟩] = some 1 ∧
    (my_read (Vector.replicate 5 1) 100 5 5 (fun _ => 0) 1).2 ≠
      (my_read (Vector.replicate 5 2) 100 5 5 (fun _ => 0) 1).2 := by
  refine ⟨by decide, fun h => ?_⟩
  have hat := congrFun h 102
  exact absurd hat (by decide)

/-! ### Validation -/

def Ioctl.out (e : Ioctl) (char_count : ℤ) : IoctlOut :=
  my_unlocked_ioctl e.cmd e.arg e.room e.mem char_count

/-- What an ioctl that returns 0 has done: a set of a value in the range, or a
get that gave the user all of `char_count`. -/
def Served (char_count : ℤ) (e : Ioctl) (o : IoctlOut) : Prop :=
  (e.cmd = MY_WRITE ∧ 1 ≤ e.arg.toNat ∧ e.arg.toNat ≤ 4 ∧ o.char_count = e.arg.toNat) ∨
    (e.cmd = MY_READ ∧ 4 ≤ e.room ∧ o.mem = e.mem.poke e.arg.toNat (int_bytes char_count) ∧
      o.char_count = char_count)

structure Validated (char_count : ℤ) (e : Ioctl) (o : IoctlOut) : Prop where
  zero : o.ret = 0 → Served char_count e o
  other : e.cmd ≠ MY_READ → e.cmd ≠ MY_WRITE → o.ret = -ENOTTY
  error : o.ret ≠ 0 → o.char_count = char_count

/-- The command is one of the two, or differs from them in magic or number. -/
def Known (e : Ioctl) : Prop :=
  e.cmd = MY_READ ∨ e.cmd = MY_WRITE ∨
    _IOC_TYPE e.cmd ≠ MY_IOC_MAGIC ∨ (_IOC_NR e.cmd ≠ 16 ∧ _IOC_NR e.cmd ≠ 17)

instance (e : Ioctl) : Decidable (Known e) := inferInstanceAs (Decidable (_ ∨ _))

/-- `v`, or the value of the last set that has returned 0 in a run. -/
def lastSet : (v char_count : ℤ) → List Ioctl → ℤ
  | v, _, [] => v
  | v, c, e :: es =>
    lastSet (if e.cmd = MY_WRITE ∧ (e.out c).ret = 0 then e.arg.toNat else v)
      (e.out c).char_count es

theorem EINVAL_ne : ¬ -EINVAL = 0 := by decide
theorem EFAULT_ne : ¬ -EFAULT = 0 := by decide
theorem ENOTTY_ne : ¬ -ENOTTY = 0 := by decide

theorem validated_write {e : Ioctl} (hw : e.cmd = MY_WRITE) (c : ℤ) :
    Validated c e (e.out c) := by
  obtain ⟨cmd, arg, room, mem⟩ := e
  obtain rfl : cmd = MY_WRITE := hw
  unfold Ioctl.out
  simp only [my_unlocked_ioctl_write]
  by_cases ha : 1 ≤ arg.toNat ∧ arg.toNat ≤ 4
  · rw [if_pos ha]
    exact ⟨fun _ => Or.inl ⟨rfl, ha.1, ha.2, rfl⟩, fun _ h => absurd rfl h, fun h => absurd rfl h⟩
  · rw [if_neg ha]
    exact ⟨fun h => absurd h EINVAL_ne, fun _ h => absurd rfl h, fun _ => rfl⟩

theorem validated_read {e : Ioctl} (hr : e.cmd = MY_READ) (c : ℤ) :
    Validated c e (e.out c) := by
  obtain ⟨cmd, arg, room, mem⟩ := e
  obtain rfl : cmd = MY_READ := hr
  have hlen : (int_bytes c).length = 4 := rfl
  unfold Ioctl.out
  simp only [my_unlocked_ioctl_read]
  refine ⟨fun h0 => Or.inr ?_, fun h => absurd rfl h, fun _ => rfl⟩
  by_cases hroom : room < 4
  · rw [if_pos hroom] at h0
    exact absurd h0 EFAULT_ne
  · refine ⟨rfl, Nat.le_of_not_lt hroom, ?_, rfl⟩
    rw [List.take_of_length_le (by omega)]

/-- **One ioctl** is validated if and only if its command is known. -/
theorem validated_iff_known (c : ℤ) (e : Ioctl) : Validated c e (e.out c) ↔ Known e := by
  by_cases hr : e.cmd = MY_READ
  · exact ⟨fun _ => Or.inl hr, fun _ => validated_read hr c⟩
  by_cases hw : e.cmd = MY_WRITE
  · exact ⟨fun _ => Or.inr (Or.inl hw), fun _ => validated_write hw c⟩
  have hout : e.out c = _ := my_unlocked_ioctl_other e.arg e.room e.mem c hr hw
  rw [hout]
  constructor
  · intro h
    refine Or.inr (Or.inr ?_)
    by_contra hnot
    have hret := h.other hr hw
    rw [if_neg hnot] at hret
    exact absurd hret.symm ENOTTY_ne
  · rintro (h | h | h)
    · exact absurd h hr
    · exact absurd h hw
    · rw [if_pos h]
      exact ⟨fun h0 => absurd h0 ENOTTY_ne, fun _ _ => rfl, fun _ => rfl⟩

theorem out_char_count (e : Ioctl) (c : ℤ) : (e.out c).char_count =
    if e.cmd = MY_WRITE ∧ (e.out c).ret = 0 then (e.arg.toNat : ℤ) else c := by
  have hcount : (e.out c).char_count = _ := my_unlocked_ioctl_char_count e.arg e.room e.mem c e.cmd
  rw [hcount]
  by_cases hw : e.cmd = MY_WRITE
  · have hout : e.out c = my_unlocked_ioctl e.cmd e.arg e.room e.mem c := rfl
    rw [hw, my_unlocked_ioctl_write] at hout
    rw [hout]
    by_cases ha : 1 ≤ e.arg.toNat ∧ e.arg.toNat ≤ 4
    · rw [if_pos ⟨hw, ha⟩, if_pos ha, if_pos ⟨hw, rfl⟩]
    · rw [if_neg fun h => ha h.2, if_neg ha, if_neg fun h => absurd h.2 EINVAL_ne]
  · rw [if_neg fun h => hw h.1, if_neg fun h => hw h.1]

/-- **The value** is that of the last set. -/
theorem run_lastSet : ∀ (es : List Ioctl) (c d : ℤ), Machine.run step c es = some d →
    d = lastSet c c es
  | [], _, _, h => (Option.some.inj h).symm
  | e :: es, c, d, h => by
    have hrun : Machine.run step (e.out c).char_count es = some d := h
    have ih := run_lastSet es _ d hrun
    unfold lastSet
    rw [← out_char_count]
    exact ih

/-- **The ioctls of a history are validated** if and only if their commands are
known. After every history `char_count` is in its range, and what the last set
has made it. -/
theorem validated_iff (es : List Ioctl) :
    (Machine.Always step (fun c e => Validated c e (e.out c)) start es ↔
      Machine.Always step (fun _ e => Known e) start es) ∧
    ∀ c, Machine.run step start es = some c → (1 ≤ c ∧ c ≤ 4) ∧ c = lastSet start start es := by
  constructor
  · exact Machine.always_congr (I := fun _ => True) trivial (fun _ _ _ _ _ => trivial)
      (fun c e _ => validated_iff_known c e) es
  · exact fun c h => ⟨run_range h, run_lastSet es start c h⟩

/-- A set to 2, and a get of another device's command. -/
theorem validated_two :
    Machine.Always step (fun c e => Validated c e (e.out c)) start
      [⟨MY_WRITE, 2, 0, fun _ => 0⟩, ⟨0x5401, 0, 4, fun _ => 0⟩] ∧
    (2 : ℤ) = lastSet start start [⟨MY_WRITE, 2, 0, fun _ => 0⟩, ⟨0x5401, 0, 4, fun _ => 0⟩] := by
  have h := validated_iff [⟨MY_WRITE, 2, 0, fun _ => 0⟩, ⟨0x5401, 0, 4, fun _ => 0⟩]
  exact ⟨h.1.mpr (by decide), (h.2 2 (by decide)).2⟩

/-- `_IO('$', 16)` is neither command, and returns 0. -/
theorem unknown_served :
    ((⟨0x2410, 0, 0, fun _ => 0⟩ : Ioctl).out start).ret = 0 ∧
    ¬ Machine.Always step (fun c e => Validated c e (e.out c)) start
      [⟨0x2410, 0, 0, fun _ => 0⟩] := by
  refine ⟨by decide, fun h => ?_⟩
  have hret := (h [] _ (List.prefix_refl _) start rfl).other (by decide) (by decide)
  exact absurd hret (by decide)

end MyDevice
end Pb173
