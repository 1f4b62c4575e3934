/-
# The calls of my_device together (06)

`my_read` and `my_unlocked_ioctl` of 06 access `char_count` under `char_lock`
only, once a call: a read copies it before the `switch`, a set stores it and a
get copies it. Any number of calls go on at the same time, each lock, access,
unlock and return a step of its own (`Lock.step code`).

Every run is one of whole calls, `MyDevice.my_read` and
`MyDevice.my_unlocked_ioctl`, one after the other: each returns what it returns
there, and a call that has returned comes before one that starts later
(`linear`).
-/
import Pb173.Lock
import Pb173.MyDevice

namespace Pb173
namespace Linear

open CInt MyDevice

/-- A call, with what its process passes. -/
inductive Call
  | my_read (str : Vector UInt8 5) (buf room count : ℕ) (mem : UserMem)
  | my_unlocked_ioctl (e : Ioctl)

/-- What a call returns, and the memory of its process. -/
structure Out where
  ret : ℤ
  mem : UserMem

/-- A call at its critical section. -/
inductive Local
  | read (str : Vector UInt8 5) (buf room : ℕ) (mem : UserMem)
  | set (e : Ioctl)
  | get (e : Ioctl)

/-- A call behind it, with the copy it has made. -/
inductive Left
  | read (str : Vector UInt8 5) (buf room : ℕ) (mem : UserMem) (chars_to_ret : ℤ)
  | set (e : Ioctl)
  | get (e : Ioctl) (char_count_cpy : ℤ)

variable {ι : Type*} (calls : ι → Call)

/-- The statements of the two functions around and under the lock. -/
def code : Lock.Code ι ℤ Local Left Out where
  enter i :=
    match calls i with
    | .my_read str buf room _ mem => .inl (.read str buf room mem)
    | .my_unlocked_ioctl e =>
      if _IOC_TYPE e.cmd ≠ MY_IOC_MAGIC then .inr ⟨-ENOTTY, e.mem⟩
      else if _IOC_NR e.cmd ≠ 16 ∧ _IOC_NR e.cmd ≠ 17 then .inr ⟨-ENOTTY, e.mem⟩
      else if e.cmd = MY_WRITE then
        if e.arg.toNat < 1 ∨ e.arg.toNat > 4 then .inr ⟨-EINVAL, e.mem⟩ else .inl (.set e)
      else if e.cmd = MY_READ then .inl (.get e)
      else .inr ⟨0, e.mem⟩
  body l char_count :=
    match l with
    | .read str buf room mem => (char_count, .inr (.read str buf room mem char_count))
    | .set e => (toS 32 e.arg.toNat, .inr (.set e))
    | .get e => (char_count, .inr (.get e char_count))
  exit
    | .read str buf room mem chars_to_ret =>
      let str := switch chars_to_ret str
      let (mem, left) := copy_to_user mem room buf str.toList
      if left ≠ 0 then ⟨-EFAULT, mem⟩ else ⟨chars_to_ret, mem⟩
    | .set e => ⟨0, e.mem⟩
    | .get e char_count_cpy =>
      let (mem, left) := copy_to_user e.mem e.room e.arg.toNat (int_bytes char_count_cpy)
      if left ≠ 0 then ⟨-EFAULT, mem⟩ else ⟨0, mem⟩

/-- The critical section, run alone. -/
def exec : Local → ℤ → ℤ × Left
  | .read str buf room mem, char_count => (char_count, .read str buf room mem char_count)
  | .set e, _ => (toS 32 e.arg.toNat, .set e)
  | .get e, char_count => (char_count, .get e char_count)

theorem solves : Lock.Solves (code calls) exec := by
  rintro (⟨str, buf, room, mem⟩ | e | e) c <;> rfl

/-! ### The calls, whole -/

/-- A call executed at once. -/
def atomic : Call → ℤ → ℤ × Out
  | .my_read str buf room count mem, char_count =>
    (char_count, ⟨(my_read str buf room count mem char_count).1,
      (my_read str buf room count mem char_count).2⟩)
  | .my_unlocked_ioctl e, char_count =>
    ((e.out char_count).char_count, ⟨(e.out char_count).ret, (e.out char_count).mem⟩)

/-- The calls executed one after the other. -/
def serial (is : List ι) : ℤ := is.foldl (fun c i => (atomic (calls i) c).1) start

/-- A section run alone between its lock and unlock is the whole call. -/
theorem call_eq (i : ι) (c : ℤ) : Lock.call (code calls) exec i c = atomic (calls i) c := by
  rcases hc : calls i with ⟨str, buf, room, count, mem⟩ | e
  · simp only [Lock.call, code, hc, exec, atomic, my_read]
    split_ifs <;> rfl
  · simp only [Lock.call, code, hc, atomic, Ioctl.out]
    by_cases htype : _IOC_TYPE e.cmd ≠ MY_IOC_MAGIC
    · simp only [my_unlocked_ioctl, if_pos htype]
    by_cases hnr : _IOC_NR e.cmd ≠ 16 ∧ _IOC_NR e.cmd ≠ 17
    · simp only [my_unlocked_ioctl, if_neg htype, if_pos hnr]
    rw [if_neg htype, if_neg hnr]
    by_cases hw : e.cmd = MY_WRITE
    · rw [if_pos hw, hw, my_unlocked_ioctl_write]
      by_cases ha : 1 ≤ e.arg.toNat ∧ e.arg.toNat ≤ 4
      · have hint : toS 32 e.arg.toNat = e.arg.toNat := by
          apply toS_of_nonneg
          · omega
          · norm_num
            omega
        rw [if_pos ha, if_neg (by omega)]
        simp only [exec, hint]
      · rw [if_neg ha, if_pos (by omega)]
    rw [if_neg hw]
    by_cases hr : e.cmd = MY_READ
    · rw [if_pos hr, hr, my_unlocked_ioctl_read]
      have hlen : (int_bytes c).length = 4 := rfl
      simp only [exec, copy_to_user, hlen]
      by_cases hroom : e.room < 4
      · rw [if_pos (by omega), if_pos hroom]
      · rw [if_neg (by omega), if_neg hroom]
    · rw [if_neg hr, my_unlocked_ioctl_other _ _ _ _ hr hw, if_neg (not_or.mpr ⟨htype, hnr⟩)]

theorem serial_eq (is : List ι) : Lock.serial (code calls) exec is start = serial calls is := by
  unfold Lock.serial serial
  congr 1
  funext c i
  rw [call_eq]

theorem serial_range (is : List ι) : 1 ≤ serial calls is ∧ serial calls is ≤ 4 := by
  induction is using List.reverseRecOn with
  | nil =>
    show 1 ≤ start ∧ start ≤ 4
    decide
  | append_singleton is i ih =>
    have hserial : serial calls (is ++ [i]) = (atomic (calls i) (serial calls is)).1 := by
      simp [serial]
    rw [hserial]
    rcases calls i with ⟨str, buf, room, count, mem⟩ | e
    · exact ih
    · exact step_range ih rfl

/-! ### Every interleaving -/

variable [DecidableEq ι]

/-- **The calls are linear.** In every run there is an order of the calls that have taken
effect such that `char_count`, while the lock is free, is what the calls leave in that order,
each call that has returned has returned what it returns there, on a `char_count` from 1 to 4,
and a call that has returned comes before one that starts later. -/
theorem linear {es : List (Lock.Ev ι)} {s : Lock.State ι ℤ Local Left Out}
    (h : Machine.run (Lock.step (code calls)) (Lock.start start) es = some s) :
    ∃ order : List ι, order.Nodup ∧
      (s.lock = none → s.shared = serial calls order) ∧
      (∀ i r, s.pc i = .done r → ∃ pre post, order = pre ++ i :: post ∧
        (1 ≤ serial calls pre ∧ serial calls pre ≤ 4) ∧
        r = (atomic (calls i) (serial calls pre)).2) ∧
      (∀ fs gs u i j r, es = fs ++ gs →
        Machine.run (Lock.step (code calls)) (Lock.start start) fs = some u →
        u.pc i = .done r → u.pc j = .idle →
        ∃ pre post, order = pre ++ post ∧ i ∈ pre ∧ j ∉ pre) := by
  have hh := Lock.hist_run (solves calls) h
  refine ⟨Lock.commits (code calls) es, hh.nodup, fun hl => ?_, fun i r hd => ?_,
    fun fs gs u i j r hes hu hi hj => ?_⟩
  · rw [hh.free hl, serial_eq]
  · obtain ⟨pre, post, hpp, hr⟩ := hh.of_done hd
    rw [serial_eq, call_eq] at hr
    exact ⟨pre, post, hpp, serial_range calls pre, hr⟩
  · rw [hes]
    exact (Lock.hist_run (solves calls) hu).before hi hj gs

/-- A set to 2, and a read. -/
def setAndRead : Bool → Call
  | false => .my_unlocked_ioctl ⟨MY_WRITE, 2, 0, fun _ => 0⟩
  | true => .my_read (Vector.replicate 5 0) 100 5 5 fun _ => 0

/-- The read starts first, and takes the lock after the set. -/
def overtaken : List (Lock.Ev Bool) :=
  [.enter true, .enter false, .lock false, .body false, .unlock false, .lock true, .body true,
    .exit false, .unlock true, .exit true]

/-- The read has returned 2, so that in the order it comes behind the set. -/
theorem linear_overtaken : ∃ s r,
    Machine.run (Lock.step (code setAndRead)) (Lock.start start) overtaken = some s ∧
    s.shared = serial setAndRead [false, true] ∧ s.pc true = .done r ∧ r.ret = 2 ∧
    r = (atomic (setAndRead true) (serial setAndRead [false])).2 := by
  have hret : ∀ c : ℤ, (atomic (setAndRead true) c).2.ret = c := by
    intro c
    simp [atomic, setAndRead, my_read_eq]
  obtain ⟨s, r, c, hs, hl, ht, hr, hc⟩ : ∃ s r c,
      Machine.run (Lock.step (code setAndRead)) (Lock.start start) overtaken = some s ∧
        s.lock = none ∧ s.pc true = .done r ∧ r = (code setAndRead).exit
          (.read (Vector.replicate 5 0) 100 5 (fun _ => 0) c) ∧ c = 2 :=
    ⟨_, _, _, rfl, rfl, rfl, rfl, by decide⟩
  have hread : r.ret = 2 := by
    rw [hr, hc]
    exact hret 2
  obtain ⟨order, hnd, hfree, hdone, -⟩ := linear setAndRead hs
  obtain ⟨pre, post, rfl, -, hat⟩ := hdone true r ht
  have hpre : pre = [false] := by
    rcases pre with _ | ⟨_ | _, pre⟩
    · -- it would have found the first value
      rw [hat, hret] at hread
      exact absurd hread (by decide)
    · rcases pre with _ | ⟨_ | _, pre⟩
      · rfl
      all_goals simp at hnd
    · simp at hnd
  subst hpre
  have hpost : post = [] := by
    rcases post with _ | ⟨_ | _, post⟩
    · rfl
    all_goals simp at hnd
  subst hpost
  exact ⟨s, r, hs, hfree hl, ht, hread, hat⟩

end Linear
end Pb173
