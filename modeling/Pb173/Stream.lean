/-
# The FIFO device (07)

`my_write` and `my_read` move bytes between the user and a queue of 8192 of
them, and return how many those were. How many it is when the user's memory
faults on the way is up to the copy. That there was a fault the calls do not
look at, so one that has moved nothing returns 0, as if the queue had been
full, or empty. In every other respect the stream is in order, and the only
runs with a call that returns what it should not are those with such a fault
(`stream_iff`).
-/
import Pb173.Fifo
import Pb173.Kernel
import Pb173.Machine

namespace Pb173
namespace Stream

open CInt

/-- `DECLARE_KFIFO(my_fifo, char, 8192)`. -/
abbrev Queue := Fifo UInt8 8192

/-- How a copy goes: the number of bytes moved, and whether the user's memory
faults. -/
structure Copy where
  moved : ℕ
  fault : Bool

/-- A copy of up to `n` bytes, of all of them if there is no fault. -/
def Copy.Of (c : Copy) (n : ℕ) : Prop := c.moved ≤ n ∧ (c.fault = false → c.moved = n)

instance (c : Copy) (n : ℕ) : Decidable (c.Of n) := inferInstanceAs (Decidable (_ ∧ _))

/-- What `kfifo_from_user` and `kfifo_to_user` return. -/
def Copy.err (c : Copy) : ℤ := if c.fault then -EFAULT else 0

/-- `kfifo_from_user(&my_fifo, buf, count, &copied)`: what it returns, `copied`,
and the queue; `none` if the copy cannot go like this. -/
def kfifo_from_user (my_fifo : Queue) (buf : List UInt8) (count : ℕ) (c : Copy) :
    Option (ℤ × ℕ × Queue) :=
  if c.Of (min count my_fifo.avail) ∧ c.moved ≤ buf.length then
    some (c.err, c.moved, (my_fifo.put (buf.take c.moved)).2)
  else none

/-- `kfifo_to_user(&my_fifo, buf, count, &copied)`, with the bytes that reach the
user. -/
def kfifo_to_user (my_fifo : Queue) (count : ℕ) (c : Copy) : Option (ℤ × ℕ × List UInt8 × Queue) :=
  if c.Of (min count my_fifo.items.length) then some (c.err, c.moved, my_fifo.get c.moved)
  else none

def my_write (my_fifo : Queue) (buf : List UInt8) (count : ℕ) (c : Copy) : Option (ℤ × Queue) :=
  (kfifo_from_user my_fifo buf count c).map fun (_, nbytes, my_fifo) => (toS 32 nbytes, my_fifo)

def my_read (my_fifo : Queue) (count : ℕ) (c : Copy) : Option (ℤ × List UInt8 × Queue) :=
  (kfifo_to_user my_fifo count c).map fun (_, nbytes, r) => (toS 32 nbytes, r)

/-! ### Runs -/

/-- A call that has returned: the count, what there was room for or what there
was, the bytes moved, whether the copy faulted, and the value returned. -/
structure Call where
  count : ℕ
  room : ℕ
  moved : List UInt8
  fault : Bool
  ret : ℤ

/-- The queue, the bytes accepted and delivered so far, and the calls. -/
structure State where
  my_fifo : Queue
  accepted : List UInt8
  delivered : List UInt8
  calls : List Call

def start : State := ⟨Fifo.empty, [], [], []⟩

inductive Ev
  | write (buf : List UInt8) (count : ℕ) (c : Copy)
  | read (count : ℕ) (c : Copy)

def Ev.copy : Ev → Copy
  | .write _ _ c | .read _ c => c

def step (s : State) : Ev → Option State
  | .write buf count c => (my_write s.my_fifo buf count c).map fun (ret, my_fifo) =>
    let moved := buf.take c.moved
    ⟨my_fifo, s.accepted ++ moved, s.delivered,
      s.calls ++ [⟨count, s.my_fifo.avail, moved, c.fault, ret⟩]⟩
  | .read count c => (my_read s.my_fifo count c).map fun (ret, out, my_fifo) =>
    ⟨my_fifo, s.accepted, s.delivered ++ out,
      s.calls ++ [⟨count, s.my_fifo.items.length, out, c.fault, ret⟩]⟩

/-- What a call may return. -/
structure Call.Good (k : Call) : Prop where
  exact : 0 ≤ k.ret → k.ret = k.moved.length
  zero : 0 < k.count → k.ret = 0 → k.room = 0
  fault : k.fault = true → k.moved = [] → k.ret < 0

/-- The stream is in order, and the calls have returned what they may. -/
structure Good (s : State) : Prop where
  stream : s.delivered ++ s.my_fifo.items = s.accepted
  bound : s.my_fifo.items.length ≤ 8192
  calls : ∀ k ∈ s.calls, k.Good

/-- The call, if it can be made, moves a byte before it faults. -/
def Moves (s : State) (e : Ev) : Prop :=
  (step s e).isSome = true → e.copy.fault = true → e.copy.moved ≠ 0

instance (s : State) (e : Ev) : Decidable (Moves s e) := inferInstanceAs (Decidable (_ → _))

/-! ### One call -/

section Steps

variable {s t : State} {e : Ev} {c : Copy} {count : ℕ} {buf : List UInt8}

theorem nbytes_eq {n : ℕ} (h : n ≤ 8192) : toS 32 (n : ℤ) = n := by
  apply toS_of_nonneg
  · exact Int.natCast_nonneg n
  · norm_num
    omega

theorem my_write_eq {ret : ℤ} {q : Queue} (h : my_write s.my_fifo buf count c = some (ret, q)) :
    c.Of (min count s.my_fifo.avail) ∧ c.moved ≤ buf.length ∧ ret = c.moved ∧
      q.items = s.my_fifo.items ++ buf.take c.moved := by
  obtain ⟨⟨e, n, q'⟩, hk, heq⟩ := Option.map_eq_some_iff.mp h
  obtain ⟨hret, rfl⟩ := Prod.mk.inj heq
  unfold kfifo_from_user at hk
  split at hk
  swap
  · cases hk
  rename_i hc
  obtain ⟨-, hn⟩ := Prod.mk.inj (Option.some.inj hk)
  obtain ⟨rfl, rfl⟩ := Prod.mk.inj hn
  have hle := hc.1.1
  unfold Fifo.avail at hle
  refine ⟨hc.1, hc.2, ?_, Fifo.put_items_of_le _ ?_⟩
  · rw [← hret, nbytes_eq (by omega)]
  · rw [List.length_take]
    unfold Fifo.avail
    omega

theorem my_read_eq {ret : ℤ} {out : List UInt8} {q : Queue}
    (h : my_read s.my_fifo count c = some (ret, out, q)) :
    c.Of (min count s.my_fifo.items.length) ∧ ret = c.moved ∧
      out = s.my_fifo.items.take c.moved ∧ out ++ q.items = s.my_fifo.items := by
  obtain ⟨⟨e, n, r⟩, hk, heq⟩ := Option.map_eq_some_iff.mp h
  obtain ⟨hret, rfl⟩ := Prod.mk.inj heq
  unfold kfifo_to_user at hk
  split at hk
  swap
  · cases hk
  rename_i hc
  obtain ⟨-, hn⟩ := Prod.mk.inj (Option.some.inj hk)
  obtain ⟨rfl, hr⟩ := Prod.mk.inj hn
  obtain ⟨rfl, rfl⟩ := Prod.mk.inj hr
  have hle := hc.1
  have hbound := s.my_fifo.length_le
  refine ⟨hc, ?_, rfl, s.my_fifo.get_append c.moved⟩
  rw [← hret, nbytes_eq (by omega)]

/-- A call returns what it may, unless it faults before it has moved a byte. -/
theorem call_iff {room : ℕ} {moved : List UInt8} (hc : c.Of (min count room))
    (hm : moved.length = c.moved) : (⟨count, room, moved, c.fault, c.moved⟩ : Call).Good ↔
      (c.fault = true → c.moved ≠ 0) := by
  constructor
  · intro hg hf h0
    have hneg : (c.moved : ℤ) < 0 := hg.fault hf (List.eq_nil_of_length_eq_zero (hm.trans h0))
    omega
  · intro hf
    refine ⟨fun _ => ?_, fun hpos hz => ?_, fun hfault hnil => ?_⟩
    · show (c.moved : ℤ) = moved.length
      rw [hm]
    · have hz' : (c.moved : ℤ) = 0 := hz
      have h0 : c.moved = 0 := by omega
      rcases hfault : c.fault
      · have hall := hc.2 hfault
        have hpos' : 0 < count := hpos
        show room = 0
        omega
      · exact absurd h0 (hf hfault)
    · have hnil' : moved = [] := hnil
      rw [hnil'] at hm
      exact absurd hm.symm (hf hfault)

theorem Good.concat_iff (hg : Good s) {q : Queue} {accepted delivered : List UInt8} {k : Call}
    (hs : delivered ++ q.items = accepted) :
    Good ⟨q, accepted, delivered, s.calls ++ [k]⟩ ↔ k.Good := by
  constructor
  · intro h
    exact h.calls k (List.mem_append_right _ (List.mem_singleton_self k))
  · intro hk
    refine ⟨hs, q.length_le, fun k' hk' => ?_⟩
    rcases List.mem_append.mp hk' with hold | hnew
    · exact hg.calls k' hold
    · rw [List.mem_singleton.mp hnew]
      exact hk

theorem Good.step_iff (hg : Good s) (he : step s e = some t) : Good t ↔ Moves s e := by
  have hmoves : Moves s e ↔ (e.copy.fault = true → e.copy.moved ≠ 0) := by
    unfold Moves
    rw [he]
    exact ⟨fun h => h rfl, fun h _ => h⟩
  rw [hmoves]
  cases e with
  | write buf count c =>
    obtain ⟨⟨ret, q⟩, hw, rfl⟩ := Option.map_eq_some_iff.mp he
    obtain ⟨hc, hlen, rfl, hq⟩ := my_write_eq hw
    have hmoved : (buf.take c.moved).length = c.moved := by
      rw [List.length_take]
      omega
    have hstream : s.delivered ++ q.items = s.accepted ++ buf.take c.moved := by
      rw [hq, ← List.append_assoc, hg.stream]
    exact (hg.concat_iff hstream).trans (call_iff hc hmoved)
  | read count c =>
    obtain ⟨⟨ret, out, q⟩, hr, rfl⟩ := Option.map_eq_some_iff.mp he
    obtain ⟨hc, rfl, rfl, hq⟩ := my_read_eq hr
    have hle := hc.1
    have hmoved : (s.my_fifo.items.take c.moved).length = c.moved := by
      rw [List.length_take]
      omega
    have hstream : s.delivered ++ s.my_fifo.items.take c.moved ++ q.items = s.accepted := by
      rw [List.append_assoc, hq, hg.stream]
    exact (hg.concat_iff hstream).trans (call_iff hc hmoved)

end Steps

/-! ### Whole runs -/

/-- **The stream**: on every run it is in order, and the calls return what they
may if and only if none of them faults before it has moved a byte. -/
theorem stream_iff (es : List Ev) :
    Machine.Visits step Good start es ↔ Machine.Always step Moves start es := by
  refine Machine.visits_iff_always (I := fun _ => True) (fun _ _ _ _ _ => trivial)
    (fun _ _ _ _ hg he => hg.step_iff he) (fun s e _ he hsome => ?_) es start trivial ?_
  · rw [he] at hsome
    cases hsome
  · exact ⟨rfl, Nat.zero_le _, fun k hk => (by cases hk)⟩

/-- A byte written from memory that cannot be read: 0 is returned, and the queue
is not full. -/
theorem unreadable_zero :
    ¬ Machine.Visits step Good start [.write [] 1 ⟨0, true⟩] := by
  rw [stream_iff]
  decide

end Stream
end Pb173
