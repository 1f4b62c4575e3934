/-
# The captured packets of 12

`my_start_xmit` puts what is sent on the interface into a queue of 8192
bytes, and `my_read` takes bytes from it. A packet for which there is not
enough room goes in as far as there is any: what `kfifo_in` returns is not
looked at. So long as a packet is sent only when it fits, or when there is
no room at all, the stream that has been read is a prefix of packets sent,
each taken whole (`captured`).
-/
import Pb173.Fifo
import Pb173.Kernel
import Pb173.Machine
import Mathlib.Data.List.Flatten

namespace Pb173
namespace Capture

/-- `DECLARE_KFIFO(queue, char, 8192)`. -/
abbrev Queue := Fifo UInt8 8192

def NETDEV_TX_OK : ℤ := 0

/-- `kfifo_to_user` of `count` bytes, when `room` bytes can be written: the
bytes that reach the user, and the queue. -/
def kfifo_to_user (room count : ℕ) (queue : Queue) : List UInt8 × Queue := queue.get (min count room)

/-- `my_start_xmit`, for the bytes of the packet. -/
def my_start_xmit (skb : List UInt8) (queue : Queue) : ℤ × Queue := (NETDEV_TX_OK, (queue.put skb).2)

/-- `my_read`: what it returns, the bytes that reach the user, and the queue. -/
def my_read (room count : ℕ) (queue : Queue) : ℤ × List UInt8 × Queue :=
  let r := kfifo_to_user room count queue
  (r.1.length, r)

/-- The queue, the packets transmitted, and what has been read. -/
structure State where
  queue : Queue
  sent : List (List UInt8)
  delivered : List UInt8

def start : State := ⟨Fifo.empty, [], []⟩

inductive Ev
  | xmit (skb : List UInt8)
  | read (room count : ℕ)

def step (s : State) : Ev → Option State
  | .xmit skb => some ⟨(my_start_xmit skb s.queue).2, s.sent ++ [skb], s.delivered⟩
  | .read room count =>
    let r := my_read room count s.queue
    some ⟨r.2.2, s.sent, s.delivered ++ r.2.1⟩

/-- What has been read is the beginning of packets sent, each of them whole. -/
def Captured (s : State) : Prop :=
  ∃ packets : List (List UInt8), packets.Sublist s.sent ∧ s.delivered <+: packets.flatten

/-- A packet that is sent fits into the queue, or the queue is full. -/
def Fits (s : State) : Ev → Prop
  | .xmit skb => skb.length ≤ s.queue.avail ∨ s.queue.avail = 0
  | .read _ _ => True

instance (s : State) : ∀ e : Ev, Decidable (Fits s e)
  | .xmit _ => inferInstanceAs (Decidable (_ ∨ _))
  | .read _ _ => inferInstanceAs (Decidable True)

/-- What has been read and what is in the queue is packets sent. -/
def Whole (s : State) : Prop :=
  ∃ packets : List (List UInt8), packets.Sublist s.sent ∧
    s.delivered ++ s.queue.items = packets.flatten

theorem Whole.delivers {s : State} (h : Whole s) : Captured s := by
  obtain ⟨packets, hsub, heq⟩ := h
  exact ⟨packets, hsub, s.queue.items, heq⟩

/-- **A step** that fits. -/
theorem Whole.step {s t : State} {e : Ev} (h : Whole s) (hf : Fits s e) (he : step s e = some t) :
    Whole t := by
  obtain ⟨packets, hsub, heq⟩ := h
  cases e with
  | xmit skb =>
    obtain rfl := Option.some.inj he
    rcases hf with hfit | hfull
    · -- the packet is taken
      refine ⟨packets ++ [skb], hsub.append_right [skb], ?_⟩
      calc s.delivered ++ (s.queue.put skb).2.items
          = s.delivered ++ (s.queue.items ++ skb) := by rw [Fifo.put_items_of_le _ hfit]
        _ = packets.flatten ++ skb := by rw [← List.append_assoc, heq]
        _ = (packets ++ [skb]).flatten := by simp
    · -- the packet is dropped
      refine ⟨packets, hsub.trans (List.sublist_append_left _ _), ?_⟩
      calc s.delivered ++ (s.queue.put skb).2.items
          = s.delivered ++ s.queue.items := by rw [Fifo.put_items_of_full _ hfull]
        _ = packets.flatten := heq
  | read room count =>
    obtain rfl := Option.some.inj he
    refine ⟨packets, hsub, ?_⟩
    show s.delivered ++ (s.queue.get _).1 ++ (s.queue.get _).2.items = packets.flatten
    rw [List.append_assoc, Fifo.get_append]
    exact heq

/-- **The captured stream**, on the runs on which every packet fits or finds
the queue full. -/
theorem captured {es : List Ev} (hf : Machine.Always step Fits start es) :
    Machine.Visits step Captured start es := by
  intro pre hp s hs
  refine (Machine.run_hist_of Fits (fun _ => Whole) ⟨[], List.Sublist.refl _, rfl⟩ ?_ hs
    (hf.mono hp)).delivers
  intro _ s e t _ hw hc he
  exact hw.step hc he

/-- Two packets are sent and read in three pieces. -/
theorem captured_two : Machine.Visits step Captured start
    [.xmit [1, 2, 3], .read 9 2, .xmit [4], .read 1 9, .read 9 9] := captured (by decide)

theorem run_xmit : ∀ (packets : List (List UInt8)) (s : State),
    packets.flatten.length ≤ s.queue.avail → ∃ t, Machine.run step s (packets.map .xmit) = some t ∧
      t.sent = s.sent ++ packets ∧ t.delivered = s.delivered ∧
      t.queue.items = s.queue.items ++ packets.flatten
  | [], s, _ => ⟨s, rfl, by simp, rfl, by simp⟩
  | skb :: packets, s, h => by
    rw [List.flatten_cons, List.length_append] at h
    have hitems : (s.queue.put skb).2.items = s.queue.items ++ skb :=
      Fifo.put_items_of_le _ (by omega)
    have havail : (s.queue.put skb).2.avail = s.queue.avail - skb.length := by
      unfold Fifo.avail
      rw [hitems, List.length_append]
      omega
    obtain ⟨t, ht, hsent, hdel, hq⟩ :=
      run_xmit packets ⟨(s.queue.put skb).2, s.sent ++ [skb], s.delivered⟩ (by
        show _ ≤ (s.queue.put skb).2.avail
        omega)
    refine ⟨t, ht, ?_, hdel, ?_⟩
    · rw [hsent, List.append_assoc]
      rfl
    · rw [hq, hitems, List.flatten_cons, List.append_assoc]

/-- Five packets of 1514 bytes leave 622 bytes for the sixth; once they have
been read, another packet follows what is there of it. -/
def overflow : List Ev :=
  (List.replicate 5 (List.replicate 1514 0)).map .xmit ++
    [.xmit (List.replicate 1514 1), .read 8192 8192, .xmit (List.replicate 60 2), .read 60 60]

theorem run_overflow : ∃ s, Machine.run step start overflow = some s ∧
    s.sent = List.replicate 5 (List.replicate 1514 0) ++
      [List.replicate 1514 1, List.replicate 60 2] ∧
    s.delivered = List.replicate 7570 0 ++ (List.replicate 622 1 ++ List.replicate 60 2) := by
  obtain ⟨s, hs, hsent, hdel, hq⟩ := run_xmit (List.replicate 5 (List.replicate 1514 0)) start
    (by simp [start, Fifo.avail, -List.reduceReplicate])
  rw [List.flatten_replicate_replicate] at hq
  unfold overflow
  rw [Machine.run_append, hs, Option.bind_some]
  refine ⟨_, rfl, by simp [hsent, start, -List.reduceReplicate], ?_⟩
  simp [my_start_xmit, my_read, kfifo_to_user, Fifo.put, Fifo.get, hq, hdel, start,
    Fifo.avail, List.take_append, List.drop_append, List.take_replicate, -List.reduceReplicate]

/-- The sixth packet has been read without its end. -/
theorem overflow_truncated : ¬ Machine.Visits step Captured start overflow := by
  intro h
  obtain ⟨s, hs, hsent, hdel⟩ := run_overflow
  obtain ⟨packets, hsub, hpre⟩ := h overflow (List.prefix_refl _) s hs
  rw [hsent] at hsub
  rw [hdel] at hpre
  obtain ⟨zeros, l, rfl, hzeros, hl⟩ := List.sublist_append_iff.mp hsub
  obtain ⟨j, hj, rfl⟩ := List.sublist_replicate_iff.mp hzeros
  have hlen := hpre.length_le
  simp only [List.flatten_append, List.length_append, List.length_replicate,
    List.flatten_replicate_replicate, -List.reduceReplicate] at hlen
  have hlast : ∀ {r : List (List UInt8)}, r.Sublist [List.replicate 60 2] → r.flatten.length ≤ 60 :=
    fun hr => (hr.flatten.length_le).trans (by simp [-List.reduceReplicate])
  rcases List.sublist_cons_iff.mp hl with hl | ⟨r, rfl, hr⟩
  · -- without the sixth packet there are not enough bytes
    have := hlast hl
    omega
  · -- with it, byte 8192 is one of its
    have := hlast hr
    rw [List.flatten_cons, List.length_append, List.length_replicate] at hlen
    obtain rfl : j = 5 := by omega
    have h8192 := List.prefix_iff_getElem?.mp hpre 8192 (by simp [-List.reduceReplicate])
    simp only [List.flatten_append, List.flatten_cons, List.length_replicate, List.getElem?_append,
      List.flatten_replicate_replicate, List.getElem_append, List.getElem_replicate,
      List.getElem?_replicate, -List.reduceReplicate] at h8192
    simp at h8192

end Capture
end Pb173
