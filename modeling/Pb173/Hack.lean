/-
# The write that reaches a function pointer (11/hack)

`my_write` of the module stores `my_fun` in `my_s.fun`, copies `count` bytes of
the user to the ten bytes of `my_s.str`, and calls through `my_s.fun`. Nothing
bounds `count`, and there is no lock: what is called is what the pointer holds
when the call comes to it, whoever stored it.

Every store of a byte is a step, and any number of calls go on at once. Only
`my_fun` is ever called, in every interleaving, if and only if no call that can
be made stores a byte over the pointer that is not a byte of `my_fun`, or every
call faults (`only_my_fun_iff`). The user's program makes use of it: it gets its
shell if and only if its arguments are there, the device opens, and it is root
already or was told to write its own function (`main_shell_iff`).
-/
import Pb173.Events
import Pb173.Machine
import Mathlib.Logic.Function.Basic

namespace Pb173
namespace Hack

open Events (stored)

/-! ### The structure -/

/-- The size and the alignment of a pointer. -/
structure Abi where
  w : ℕ
  align : ℕ
  align_pos : 0 < align

/-- `n` rounded up to the alignment. -/
def Abi.round (A : Abi) (n : ℕ) : ℕ := (n + (A.align - 1)) / A.align * A.align

/-- `offsetof(struct my_struct, fun)`, behind `char str[10]`. -/
def Abi.off (A : Abi) : ℕ := A.round 10

/-- `sizeof(struct my_struct)`. -/
def Abi.size (A : Abi) : ℕ := A.round (A.off + A.w)

/-- A pointer is its bytes, in the order of the memory. -/
abbrev Ptr (A : Abi) := Vector UInt8 A.w

/-- The bytes of the module from `&my_s` on; those behind `my_s` are others'. -/
abbrev Mem := UserMem

variable {A : Abi}

/-- `my_s.fun`. -/
def Mem.fun (A : Abi) (mem : Mem) : Ptr A := Vector.ofFn fun k => mem (A.off + k)

theorem Abi.le_round (A : Abi) (n : ℕ) : n ≤ A.round n := by
  have hpos := A.align_pos
  have hdiv := Nat.div_add_mod (n + (A.align - 1)) A.align
  have hmod := Nat.mod_lt (n + (A.align - 1)) hpos
  have hmul := Nat.mul_comm ((n + (A.align - 1)) / A.align) A.align
  unfold Abi.round
  omega

theorem Abi.ten_le_off (A : Abi) : 10 ≤ A.off := A.le_round 10

theorem Abi.off_add_le (A : Abi) : A.off + A.w ≤ A.size := A.le_round _

/-! ### The calls of my_write -/

/-- A call: `buf` are the bytes that can be read at the user's buffer, and
`pad` says that the rest of what is copied is filled with zeros. -/
structure Call where
  buf : List UInt8
  count : ℕ
  pad : Bool

/-- What the copy of a call stores, from `&my_s.str` on. -/
def Call.data (c : Call) : List UInt8 := stored c.buf c.count c.pad

/-- `copy_from_user` returns 0. -/
def Call.whole (c : Call) : Bool := (copy_from_user c.buf c.count).2 = 0

/-- Where a call is. -/
inductive Pc (A : Abi)
  | idle
  /-- The bytes below `k` of its data are stored. -/
  | copying (k : ℕ)
  /-- It returned `-EFAULT`. -/
  | failed
  /-- It called the function. -/
  | called (f : Ptr A)

structure State (ι : Type*) (A : Abi) where
  mem : Mem
  pc : ι → Pc A

/-- The store to `my_s.fun`, the store of one byte, and the end of the copy. -/
inductive Act
  | set | copy | finish
deriving DecidableEq

/-- Where a call is after its copy, `f` being what the pointer holds. -/
def Call.after (c : Call) (f : Ptr A) : Pc A := if c.whole then .called f else .failed

section Machine

variable {ι : Type*} [DecidableEq ι] (my_fun : Ptr A) (calls : ι → Call)

/-- A step of call `i`. -/
def step (s : State ι A) : Act × ι → Option (State ι A)
  | (.set, i) =>
    match s.pc i with
    | .idle => some ⟨s.mem.poke A.off my_fun.toList, Function.update s.pc i (.copying 0)⟩
    | _ => none
  | (.copy, i) =>
    match s.pc i with
    | .copying k =>
      (calls i).data[k]?.map fun c =>
        ⟨s.mem.poke k [c], Function.update s.pc i (.copying (k + 1))⟩
    | _ => none
  | (.finish, i) =>
    match s.pc i with
    | .copying k =>
      if k = (calls i).data.length then
        some { s with pc := Function.update s.pc i ((calls i).after (s.mem.fun A)) }
      else none
    | _ => none

def start (mem : Mem) : State ι A := ⟨mem, fun _ => .idle⟩

/-- What a step can do. -/
inductive Step (s : State ι A) : Act × ι → State ι A → Prop
  | set {i : ι} (hp : s.pc i = .idle) :
    Step s (.set, i) ⟨s.mem.poke A.off my_fun.toList, Function.update s.pc i (.copying 0)⟩
  | copy {i : ι} {k : ℕ} {c : UInt8} (hp : s.pc i = .copying k) (hc : (calls i).data[k]? = some c) :
    Step s (.copy, i) ⟨s.mem.poke k [c], Function.update s.pc i (.copying (k + 1))⟩
  | finish {i : ι} (hp : s.pc i = .copying (calls i).data.length) :
    Step s (.finish, i) { s with pc := Function.update s.pc i ((calls i).after (s.mem.fun A)) }

variable {my_fun calls} {s t : State ι A}

theorem Step.of_step {e : Act × ι} (h : step my_fun calls s e = some t) :
    Step my_fun calls s e t := by
  obtain ⟨a, i⟩ := e
  cases a with
  | set =>
    simp only [step] at h
    split at h
    · rename_i hp
      obtain rfl := Option.some.inj h
      exact .set hp
    · cases h
  | copy =>
    simp only [step] at h
    split at h
    · rename_i k hp
      obtain ⟨c, hc, rfl⟩ := Option.map_eq_some_iff.mp h
      exact .copy hp hc
    · cases h
  | finish =>
    simp only [step] at h
    split at h
    · rename_i k hp
      split_ifs at h with hk
      subst hk
      obtain rfl := Option.some.inj h
      exact .finish hp
    · cases h

/-! ### The pointer -/

/-- What `d` stores over the pointer are bytes of `my_fun`. -/
def Agrees (my_fun : Ptr A) (d : List UInt8) : Prop :=
  ∀ k (hk : k < A.w), ∀ c, d[A.off + k]? = some c → c = my_fun[k]

theorem agrees_of_length_le {d : List UInt8} (h : d.length ≤ A.off) : Agrees my_fun d := by
  intro k hk c hc
  rw [List.getElem?_eq_none (by omega)] at hc
  cases hc

theorem fun_eq_iff (mem : Mem) :
    mem.fun A = my_fun ↔ ∀ k (hk : k < A.w), mem (A.off + k) = my_fun[k] := by
  rw [Vector.ext_iff]
  simp [Mem.fun]

theorem fun_set (mem : Mem) : Mem.fun A (mem.poke A.off my_fun.toList) = my_fun := by
  rw [fun_eq_iff]
  intro k hk
  rw [poke_of_mem mem A.off my_fun.toList (by simpa using hk)]
  simp

theorem fun_copy {mem : Mem} {d : List UInt8} {k : ℕ} {c : UInt8} (hd : Agrees my_fun d)
    (hc : d[k]? = some c) (hf : mem.fun A = my_fun) : Mem.fun A (mem.poke k [c]) = my_fun := by
  rw [fun_eq_iff] at hf ⊢
  intro j hj
  by_cases hjk : A.off + j = k
  · subst hjk
    have hpoke := poke_of_mem mem (A.off + j) [c] (k := 0) (by simp)
    rw [Nat.add_zero] at hpoke
    rw [hpoke]
    exact hd j hj c hc
  · rw [poke_of_not_mem mem k [c] (by simp; omega)]
    exact hf j hj

/-- Once a call has started, the pointer is `my_fun`, and so is what was called. -/
structure Inv (my_fun : Ptr A) (s : State ι A) : Prop where
  pointer : ∀ i k, s.pc i = .copying k → s.mem.fun A = my_fun
  called : ∀ i f, s.pc i = .called f → f = my_fun

omit [DecidableEq ι] in
theorem inv_start {mem : Mem} : Inv my_fun (start mem : State ι A) :=
  ⟨fun _ _ h => (by cases h), fun _ _ h => (by cases h)⟩

theorem Inv.move (h : Inv my_fun s) {i : ι} {p : Pc A} {mem : Mem}
    (hmem : s.mem.fun A = my_fun → mem.fun A = my_fun)
    (hp : ∀ k, p = .copying k → mem.fun A = my_fun) (hf : ∀ f, p = .called f → f = my_fun) :
    Inv my_fun ⟨mem, Function.update s.pc i p⟩ := by
  constructor
  · intro j k hj
    by_cases hji : j = i
    · subst hji
      exact hp k (by simpa using hj)
    · exact hmem (h.pointer j k (by simpa [hji] using hj))
  · intro j f hj
    by_cases hji : j = i
    · subst hji
      exact hf f (by simpa using hj)
    · exact h.called j f (by simpa [hji] using hj)

/-- **A step** of calls whose data agree keeps the pointer. -/
theorem step_inv (hd : ∀ i, Agrees my_fun (calls i).data) (h : Inv my_fun s) {e : Act × ι}
    (he : step my_fun calls s e = some t) : Inv my_fun t := by
  cases Step.of_step he with
  | set hp => exact h.move (fun _ => fun_set s.mem) (fun _ _ => fun_set s.mem) nofun
  | @copy i k c hp hc =>
    have hf := h.pointer i k hp
    exact h.move (fun_copy (hd i) hc) (fun _ _ => fun_copy (hd i) hc hf) nofun
  | @finish i hp =>
    have hf := h.pointer i _ hp
    refine h.move id (fun _ _ => hf) fun f hpf => ?_
    unfold Call.after at hpf
    split_ifs at hpf
    cases hpf
    exact hf

/-! ### Every interleaving -/

/-- Only `my_fun` is called, in any interleaving from `mem`. -/
def OnlyMyFun (my_fun : Ptr A) (calls : ι → Call) (mem : Mem) : Prop :=
  ∀ es s, Machine.run (step my_fun calls) (start mem) es = some s →
    ∀ i f, s.pc i = .called f → f = my_fun

/-- A call stores its whole data. -/
def copyAll (calls : ι → Call) (i : ι) : List (Act × ι) :=
  (.set, i) :: List.replicate (calls i).data.length (.copy, i)

theorem run_copy {i : ι} : ∀ (d : List UInt8) (k : ℕ) (s : State ι A), s.pc i = .copying k →
    (calls i).data.drop k = d →
    Machine.run (step my_fun calls) s (List.replicate d.length (.copy, i)) =
      some ⟨s.mem.poke k d, Function.update s.pc i (.copying (k + d.length))⟩
  | [], k, s, hp, _ => by
    have hpc : Function.update s.pc i (.copying k) = s.pc := by rw [← hp, Function.update_eq_self]
    simp [poke_nil, hpc]
  | c :: d, k, s, hp, hd => by
    have hc : (calls i).data[k]? = some c := by
      rw [← List.head?_drop, hd]
      rfl
    have hdrop : (calls i).data.drop (k + 1) = d := by
      rw [← List.tail_drop, hd]
      rfl
    have hstep : step my_fun calls s (.copy, i) =
        some ⟨s.mem.poke k [c], Function.update s.pc i (.copying (k + 1))⟩ := by
      simp only [step, hp, hc, Option.map_some]
    rw [List.length_cons, List.replicate_succ, Machine.run_cons, hstep, Option.bind_some,
      run_copy d (k + 1) _ (Function.update_self ..) hdrop, Function.update_idem, poke_cons,
      show k + 1 + d.length = k + (d.length + 1) by omega]

theorem run_copyAll {i : ι} (hp : s.pc i = .idle) :
    Machine.run (step my_fun calls) s (copyAll calls i) =
      some ⟨(s.mem.poke A.off my_fun.toList).poke 0 (calls i).data,
        Function.update s.pc i (.copying (calls i).data.length)⟩ := by
  have hset : step my_fun calls s (.set, i) =
      some ⟨s.mem.poke A.off my_fun.toList, Function.update s.pc i (.copying 0)⟩ := by
    simp only [step, hp]
  rw [copyAll, Machine.run_cons, hset, Option.bind_some,
    run_copy _ 0 _ (Function.update_self ..) List.drop_zero, Function.update_idem, Nat.zero_add]

theorem agrees_of_fun {mem : Mem} {d : List UInt8}
    (h : Mem.fun A (mem.poke 0 d) = my_fun) : Agrees my_fun d := by
  intro k hk c hc
  obtain ⟨hlt, rfl⟩ := List.getElem?_eq_some_iff.mp hc
  rw [← (fun_eq_iff _).mp h k hk]
  have hpoke := poke_of_mem mem 0 d hlt
  rw [Nat.zero_add] at hpoke
  exact hpoke.symm

theorem step_whole (h : ∀ i f, s.pc i = .called f → (calls i).whole = true) {e : Act × ι}
    (he : step my_fun calls s e = some t) : ∀ i f, t.pc i = .called f → (calls i).whole = true := by
  have hmove : ∀ (i : ι) (p : Pc A), (∀ f, p = .called f → (calls i).whole = true) →
      ∀ j f, Function.update s.pc i p j = .called f → (calls j).whole = true := by
    intro i p hp j f hj
    by_cases hji : j = i
    · subst hji
      exact hp f (by simpa using hj)
    · exact h j f (by simpa [hji] using hj)
  cases Step.of_step he with
  | set _ | copy _ _ => exact hmove _ _ nofun
  | @finish i hp =>
    refine hmove _ _ fun f hf => ?_
    unfold Call.after at hf
    split_ifs at hf with hw
    exact hw

/-- A run after which call `j` is about to call, and the last data stored are
those of call `i`. -/
theorem run_over (mem : Mem) (i j : ι) : ∃ (es : List (Act × ι)) (m : Mem) (pc : ι → Pc A),
    Machine.run (step my_fun calls) (start mem) es =
      some ⟨m.poke 0 (calls i).data, pc⟩ ∧ pc j = .copying (calls j).data.length := by
  have hfirst : Machine.run (step my_fun calls) (start mem) (copyAll calls j) = _ := run_copyAll rfl
  by_cases hij : i = j
  · subst hij
    exact ⟨_, _, _, hfirst, Function.update_self ..⟩
  · have hsecond : Machine.run (step my_fun calls)
        ⟨((start mem : State ι A).mem.poke A.off my_fun.toList).poke 0 (calls j).data,
          Function.update (start mem).pc j (.copying (calls j).data.length)⟩ (copyAll calls i) = _ :=
      run_copyAll (Function.update_of_ne hij ..)
    refine ⟨copyAll calls j ++ copyAll calls i, _, _,
      (Machine.run_append ..).trans (by rw [hfirst, Option.bind_some, hsecond]), ?_⟩
    rw [Function.update_of_ne (Ne.symm hij)]
    exact Function.update_self ..

/-- **Control flow.** Only `my_fun` is called, in every interleaving, if and only
if the data of all calls agree with it, or every call faults. -/
theorem only_my_fun_iff (my_fun : Ptr A) (calls : ι → Call) (mem : Mem) :
    OnlyMyFun my_fun calls mem ↔
      ((∃ j, (calls j).whole = true) → ∀ i, Agrees my_fun (calls i).data) := by
  constructor
  · rintro hall ⟨j, hj⟩ i
    obtain ⟨es, m, pc, hrun, hpc⟩ := @run_over _ _ _ my_fun calls mem i j
    have hlast : Machine.run (step my_fun calls) (start mem) (es ++ [(.finish, j)]) =
        some ⟨m.poke 0 (calls i).data,
          Function.update pc j (.called (Mem.fun A (m.poke 0 (calls i).data)))⟩ := by
      rw [Machine.run_concat, hrun, Option.bind_some]
      simp only [step, hpc, if_true, Call.after, hj]
    exact agrees_of_fun (hall _ _ hlast j _ (Function.update_self ..))
  · intro hd es s hrun i f hf
    have hwhole := Machine.run_inv _
      (fun s : State ι A => ∀ i f, s.pc i = .called f → (calls i).whole = true)
      (fun _ _ h => by cases h) (fun _ _ _ h he => step_whole h he) hrun i f hf
    have hinv := Machine.run_inv _ (Inv my_fun) inv_start
      (fun _ _ _ h he => step_inv (hd ⟨i, hwhole⟩) h he) hrun
    exact hinv.called i f hf

end Machine

/-! ### The program of the user -/

/-- The credential of the process, and the globals of the program. -/
structure Process where
  uid : BitVec 32
  been_here : Bool
  old_uid : BitVec 32
deriving DecidableEq

/-- `user_fun`, called with the address of the credential. -/
def user_fun (p : Process) : Process := ⟨0, true, p.uid⟩

/-- A call of what is at `f`, in the kernel: `my_fun` prints its name, and the
function of the process is at `u`. There is nothing at other addresses. -/
def exec (my_fun u f : Ptr A) (p : Process) : Option Process :=
  if f = my_fun then some p else if f = u then some (user_fun p) else none

/-- `my_write`, with no other call beside it; `none` if it jumps to where there
is nothing. -/
def my_write (my_fun u : Ptr A) (c : Call) (mem : Mem) (p : Process) :
    Option (ℤ × Mem × Process) :=
  let mem := (mem.poke A.off my_fun.toList).poke 0 c.data
  if c.whole then (exec my_fun u (Mem.fun A mem) p).map fun p => (CInt.toS 64 c.count, mem, p)
  else some (-EFAULT, mem, p)

/-- A call of the machine that has no other beside it is `my_write`: what it leaves
in the memory, and what it calls. -/
theorem my_write_alone {ι : Type*} [DecidableEq ι] (my_fun u : Ptr A) (calls : ι → Call) (i : ι)
    (mem : Mem) (p : Process) : ∃ m : Mem,
    Machine.run (step my_fun calls) (start mem) (copyAll calls i ++ [(.finish, i)]) =
      some ⟨m, Function.update (start mem).pc i ((calls i).after (m.fun A))⟩ ∧
    my_write my_fun u (calls i) mem p =
      if (calls i).whole then
        (exec my_fun u (m.fun A) p).map fun p => (CInt.toS 64 (calls i).count, m, p)
      else some (-EFAULT, m, p) := by
  have hcopy : Machine.run (step my_fun calls) (start mem) (copyAll calls i) = _ := run_copyAll rfl
  refine ⟨_, ?_, rfl⟩
  rw [Machine.run_concat, hcopy, Option.bind_some]
  simp only [step, Function.update_self, if_true, Function.update_idem]
  rfl

/-- How the program ends. -/
inductive Outcome
  | exit (status : ℕ)
  | killed
  | run_shell
  | failed
deriving DecidableEq

/-- The bytes that the program does not set: between the members of `his`, and
behind what it writes. -/
structure Unset (A : Abi) where
  pad : Vector UInt8 (A.off - 10)
  tail : Vector UInt8 (A.size - (A.off + A.w))
  more : List UInt8

/-- `struct his_struct his = { .fun = user_fun }`. -/
def his (u : Ptr A) (x : Unset A) : List UInt8 :=
  List.replicate 10 0 ++ x.pad.toList ++ u.toList ++ x.tail.toList

/-- `"normal run"`. -/
def normal_run : List UInt8 := [110, 111, 114, 109, 97, 108, 32, 114, 117, 110]

/-- `*argv[1] == '1'`. -/
def asked (argv : List String) : Bool := (argv.getD 1 "").toList.head? = some '1'

/-- What `main` writes: `ptr` and `size`. -/
def payload (u : Ptr A) (x : Unset A) (argv : List String) : List UInt8 × ℕ :=
  if asked argv then (his u x, A.size) else (normal_run, 10)

/-- `main`, `fd` being what `open` returns. -/
def main (my_fun u : Ptr A) (x : Unset A) (argv : List String) (fd : ℤ) (mem : Mem)
    (p : Process) : Outcome × Mem × Process :=
  if argv.length < 3 then (.exit 2, mem, p)
  else if fd < 0 then (.exit 3, mem, p)
  else
    let (ptr, size) := payload u x argv
    match my_write my_fun u ⟨ptr ++ x.more, size, false⟩ mem p with
    | none => (.killed, mem, p)
    | some (ret, mem, p) =>
      if ret ≠ size then (.exit 4, mem, p)
      else if p.uid = 0 then (.run_shell, mem, p) else (.failed, mem, p)

section User

variable {my_fun u : Ptr A}

theorem length_his (u : Ptr A) (x : Unset A) : (his u x).length = A.size := by
  have hoff := A.ten_le_off
  have hsize := A.off_add_le
  simp only [his, List.length_append, List.length_replicate, Vector.length_toList]
  omega

theorem length_payload (u : Ptr A) (x : Unset A) (argv : List String) :
    (payload u x argv).1.length = (payload u x argv).2 := by
  unfold payload
  split_ifs
  · exact length_his u x
  · rfl

theorem my_write_eq {d : List UInt8} (hd : d.length ≤ SSIZE_MAX) (more : List UInt8) (mem : Mem)
    (p : Process) : my_write my_fun u ⟨d ++ more, d.length, false⟩ mem p =
      (exec my_fun u (Mem.fun A ((mem.poke A.off my_fun.toList).poke 0 d)) p).map fun p =>
        ((d.length : ℤ), (mem.poke A.off my_fun.toList).poke 0 d, p) := by
  have hleft : d.length - (d ++ more).length = 0 := by
    rw [List.length_append]
    omega
  have hdata : stored (d ++ more) d.length false = d := by
    unfold stored copy_from_user
    simp
  unfold my_write Call.whole Call.data copy_from_user
  simp only [hleft, hdata, decide_true, if_true, toS_count hd]

theorem fun_his (u : Ptr A) (x : Unset A) (mem : Mem) :
    Mem.fun A (mem.poke 0 (his u x)) = u := by
  have hoff := A.ten_le_off
  have hlen : (List.replicate 10 0 ++ x.pad.toList).length = A.off := by
    simp only [List.length_append, List.length_replicate, Vector.length_toList]
    omega
  rw [fun_eq_iff]
  intro k hk
  have hlt : A.off + k < (his u x).length := by
    have hsize := A.off_add_le
    rw [length_his]
    omega
  have hpoke := poke_of_mem mem 0 (his u x) hlt
  rw [Nat.zero_add] at hpoke
  have hget : (his u x)[A.off + k]? = some u[k] := by
    rw [his, List.append_assoc, List.getElem?_append_right (by omega), hlen, Nat.add_sub_cancel_left,
      List.getElem?_append_left (by simpa using hk), Vector.getElem?_toList,
      Vector.getElem?_eq_getElem hk]
  rw [hpoke]
  exact Option.some.inj ((List.getElem?_eq_getElem hlt).symm.trans hget)

theorem fun_poke {mem : Mem} {d : List UInt8} (hd : Agrees my_fun d) (hf : mem.fun A = my_fun) :
    Mem.fun A (mem.poke 0 d) = my_fun := by
  rw [fun_eq_iff] at hf ⊢
  intro k hk
  by_cases hlt : A.off + k < d.length
  · have hpoke := poke_of_mem mem 0 d hlt
    rw [Nat.zero_add] at hpoke
    rw [hpoke]
    exact hd k hk _ (List.getElem?_eq_getElem hlt)
  · rw [poke_of_not_mem mem 0 d (by omega)]
    exact hf k hk

/-- What the write of the program does: the whole call, and nothing behind `my_s`
changes. -/
theorem my_write_payload (hne : my_fun ≠ u) (hs : A.size ≤ SSIZE_MAX) (x : Unset A)
    (argv : List String) (mem : Mem) (p : Process) :
    ∃ mem' : Mem, my_write my_fun u ⟨(payload u x argv).1 ++ x.more, (payload u x argv).2, false⟩
        mem p =
      some (((payload u x argv).2 : ℤ), mem', if asked argv then user_fun p else p) ∧
      ∀ a, A.size ≤ a → mem' a = mem a := by
  have hsize := A.off_add_le
  have hoff := A.ten_le_off
  have hlen := length_payload u x argv
  have hle : (payload u x argv).1.length ≤ A.size := by
    rw [hlen]
    unfold payload
    split_ifs
    · exact le_rfl
    · exact hoff.trans (by omega)
  refine ⟨(mem.poke A.off my_fun.toList).poke 0 (payload u x argv).1, ?_, fun a ha => ?_⟩
  · rw [← hlen, my_write_eq (by omega)]
    unfold payload
    by_cases h1 : asked argv = true
    · rw [if_pos h1, if_pos h1]
      simp only [fun_his, exec, if_neg (Ne.symm hne), if_true, Option.map_some]
    · have hfun : Mem.fun A ((mem.poke A.off my_fun.toList).poke 0 normal_run) = my_fun :=
        fun_poke (agrees_of_length_le hoff) (fun_set mem)
      rw [if_neg h1, if_neg h1]
      simp only [hfun, exec, if_true, Option.map_some]
  · rw [poke_of_not_mem _ 0 _ (by omega), poke_of_not_mem mem A.off _ (by simp; omega)]

/-- **The program** gets its shell if and only if its arguments are there, the
device opens, and it is root or asked for its own function; only the last one
changes the credential, which is then root's; and no byte behind `my_s` is
touched. -/
theorem main_shell_iff (hne : my_fun ≠ u) (hs : A.size ≤ SSIZE_MAX) (x : Unset A)
    (argv : List String) (fd : ℤ) (mem : Mem) (uid : BitVec 32) :
    let r := main my_fun u x argv fd mem ⟨uid, false, 0⟩
    (r.1 = .run_shell ↔ 3 ≤ argv.length ∧ 0 ≤ fd ∧ (uid = 0 ∨ asked argv = true)) ∧
    r.2.2 = (if 3 ≤ argv.length ∧ 0 ≤ fd ∧ asked argv = true then ⟨0, true, uid⟩
      else ⟨uid, false, 0⟩) ∧
    ∀ a, A.size ≤ a → r.2.1 a = mem a := by
  obtain ⟨mem', hwrite, hframe⟩ := my_write_payload hne hs x argv mem ⟨uid, false, 0⟩
  intro r
  by_cases hargs : argv.length < 3
  · have hr : r = (.exit 2, mem, ⟨uid, false, 0⟩) := if_pos hargs
    rw [hr]
    refine ⟨iff_of_false nofun fun h => ?_, ?_, fun _ _ => rfl⟩
    · omega
    · rw [if_neg fun h => by omega]
  by_cases hfd : fd < 0
  · have hr : r = (.exit 3, mem, ⟨uid, false, 0⟩) := (if_neg hargs).trans (if_pos hfd)
    rw [hr]
    refine ⟨iff_of_false nofun fun h => ?_, ?_, fun _ _ => rfl⟩
    · omega
    · rw [if_neg fun h => by omega]
  set q : Process := if asked argv then user_fun ⟨uid, false, 0⟩ else ⟨uid, false, 0⟩ with hq
  have hr : r = if q.uid = 0 then (.run_shell, mem', q) else (.failed, mem', q) := by
    show main my_fun u x argv fd mem ⟨uid, false, 0⟩ = _
    unfold main
    rw [if_neg hargs, if_neg hfd]
    simp only [hwrite, ne_eq, not_true, if_false]
  have huid : q.uid = 0 ↔ uid = 0 ∨ asked argv = true := by
    by_cases h1 : asked argv = true
    · rw [hq, if_pos h1]
      exact iff_of_true rfl (.inr h1)
    · rw [hq, if_neg h1]
      simp [h1]
  have hproc : r.2 = (mem', q) := by
    rw [hr]
    split_ifs <;> rfl
  refine ⟨?_, ?_, ?_⟩
  · rw [hr, ← huid]
    by_cases h0 : q.uid = 0
    · rw [if_pos h0]
      exact iff_of_true rfl ⟨by omega, by omega, h0⟩
    · rw [if_neg h0]
      exact iff_of_false nofun fun h => h0 h.2.2
  · rw [hproc, hq]
    by_cases h1 : asked argv = true
    · rw [if_pos h1, if_pos ⟨by omega, by omega, h1⟩]
      rfl
    · rw [if_neg h1, if_neg fun h => h1 h.2.2]
  · rw [hproc]
    exact hframe

/-- Eight bytes, as on a machine of 64 bits. -/
def amd64 : Abi := ⟨8, 8, by decide⟩

def filled (c : UInt8) : Ptr amd64 := Vector.replicate 8 c

/-- User 1000 asks for it. -/
theorem main_shell_1000 :
    (main (filled 255) (filled 1) ⟨Vector.replicate 6 7, Vector.replicate 0 7, []⟩
      ["pb173", "1", "/dev/my_name"] 3 (fun _ => 0) ⟨1000, false, 0⟩).1 = .run_shell :=
  (main_shell_iff (by decide) (by decide) _ _ _ _ _).1.mpr (by decide)

end User

end Hack
end Pb173
