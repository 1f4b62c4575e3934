/-
# The IP header of the packets of the timer (12)

The stack drops a packet whose IP header does not verify. `my_packet` carries
the right checksum for the byte 23 that it starts with, and `timer_fn` counts
that byte on without touching the checksum. So the stack accepts a packet of the
timer if and only if it comes to it after a multiple of 256 increments,
whatever was queued (`accepted_iff`); of the packets as they were queued it
would accept every 256th (`queued_verifies_iff`).
-/
import Pb173.Checksum
import Pb173.Packets

namespace Pb173
namespace Header

open SkBuff (my_packet)
open Packets (State Ev fill timed step start)

/-- The IP header of a frame: its length, in words of four bytes, is in its first
byte. -/
def header (f : List UInt8) : List UInt8 :=
  (f.drop 14).take (4 * ((f.getD 14 0).toNat % 16))

/-- The stack accepts the frame. -/
def Accepts (f : List UInt8) : Prop := Checksum.Verifies (header f)

/-- The stack accepts every packet of the timer that it has seen. -/
def Accepted (s : State) : Prop := ∀ f ∈ s.seen, Accepts f

/-- If the stack takes a packet of the timer, then byte 23 has come round. -/
def Round (s : State) : Ev → Prop
  | .deliver => ∀ skb, s.net.backlog.head? = some skb → timed skb = true → 256 ∣ s.increments
  | _ => True

/-! ### What `my_packet` holds -/

theorem my_packet_accepted : Accepts my_packet := by
  unfold Accepts
  decide +kernel

theorem header_fill (k : ℕ) :
    header (fill k) = (header my_packet).set 9 (my_packet.getD 23 0 + UInt8.ofNat k) := by
  have hlen : (fill k).getD 14 0 = my_packet.getD 14 0 := by
    unfold fill
    rw [List.getD_eq_getElem?_getD, List.getElem?_set_ne (by decide), ← List.getD_eq_getElem?_getD]
  unfold header
  rw [hlen]
  unfold fill
  rw [List.drop_set, if_neg (by decide), List.take_set]

theorem fill_accepted_iff (k : ℕ) : Accepts (fill k) ↔ 256 ∣ k := by
  have hbyte : (header my_packet)[9]? = some (my_packet.getD 23 0) := by decide +kernel
  have hsame : my_packet.getD 23 0 + UInt8.ofNat k = my_packet.getD 23 0 ↔ UInt8.ofNat k = 0 := by
    conv_lhs => rhs; rw [← UInt8.add_zero (my_packet.getD 23 0)]
    exact UInt8.add_right_inj _
  unfold Accepts
  rw [header_fill, Checksum.verifies_set_iff my_packet_accepted hbyte, hsame, ← UInt8.toNat_inj]
  show k % 256 = 0 ↔ 256 ∣ k
  exact Nat.dvd_iff_mod_eq_zero.symm

/-! ### Whole runs -/

/-- A step keeps that everything seen is accepted if and only if it is round. -/
theorem step_iff {s t : State} {e : Ev} (hi : Packets.Inv s) (hs : Accepted s)
    (he : step s e = some t) : Accepted t ↔ Round s e := by
  cases Packets.Moves.of_step he with
  | @deliver skb l hb =>
    have hround : Round s .deliver ↔ (timed skb = true → 256 ∣ s.increments) := by
      unfold Round
      rw [hb]
      exact ⟨fun h => h skb rfl, fun h x hx => Option.some.inj hx ▸ h⟩
    rw [hround]
    by_cases ht : timed skb = true
    · have hframe := (hi.next hb ht).1
      rw [← fill_accepted_iff, ← hframe]
      show (∀ f ∈ if timed skb = true then s.seen ++ [_] else s.seen, Accepts f) ↔ _
      rw [if_pos ht]
      constructor
      · intro h _
        exact h _ (List.mem_append_right _ List.mem_cons_self)
      · intro h f hf
        rcases List.mem_append.mp hf with hf | hf
        · exact hs f hf
        · rw [List.mem_singleton.mp hf]
          exact h ht
    · refine iff_of_true ?_ fun h => absurd h ht
      show ∀ f ∈ if timed skb = true then s.seen ++ [_] else s.seen, Accepts f
      rw [if_neg ht]
      exact hs
  | _ =>
    refine iff_of_true (fun f hf => hs f ?_) trivial
    rwa [(hi.others (by simp) he).2] at hf

/-- **The stack accepts the packets of the timer** on a run if and only if it comes
to each of them when byte 23 has come round. -/
theorem accepted_iff (junk : ℕ → ℕ → UInt8) (es : List Ev) :
    Machine.Visits step Accepted (start junk) es ↔ Machine.Always step Round (start junk) es := by
  refine Machine.visits_iff_always (I := Packets.Inv) (fun s e t hi he => hi.step he)
    (fun s e t hi hs he => step_iff hi hs he) (fun s e hi he => ?_) es _ (Packets.inv_start junk)
    (fun f hf => nomatch hf)
  cases e with
  | deliver =>
    intro skb hskb
    simp only [step] at he
    split at he
    · rename_i hb
      rw [hb] at hskb
      cases hskb
    · cases he
  | _ => trivial

/-- **Every 256th packet** is one that the stack would accept as it was queued. -/
theorem queued_verifies_iff (junk : ℕ → ℕ → UInt8) {es : List Ev} {s : State}
    (h : Machine.run step (start junk) es = some s) {k : ℕ} {f : List UInt8}
    (hf : s.queued[k]? = some f) : Accepts f ↔ 256 ∣ k := by
  have hi : Packets.Inv s :=
    Machine.run_inv _ Packets.Inv (Packets.inv_start junk) (fun _ _ _ hi he => hi.step he) h
  obtain ⟨hlt, -⟩ := List.getElem?_eq_some_iff.mp hf
  rw [hi.queued, List.getElem?_map, List.getElem?_range hlt] at hf
  rw [← Option.some.inj hf]
  exact fill_accepted_iff k

/-- The timer expires twice. -/
def twice : List Ev :=
  [.ndo_open, .expire] ++ List.replicate 8 (.timer (some ⟨0, 0⟩)) ++
    .expire :: List.replicate 5 (.timer (some ⟨0, 0⟩))

/-- The second packet is not accepted. -/
theorem second_dropped : ∃ s f, Machine.run step (start fun _ _ => 0) twice = some s ∧
    s.queued[1]? = some f ∧ ¬ Accepts f := by
  obtain ⟨s, hs, hlen⟩ : ∃ s, Machine.run step (start fun _ _ => 0) twice = some s ∧
      s.queued.length = 2 := ⟨_, rfl, rfl⟩
  have hf : s.queued[1]? = some s.queued[1] := List.getElem?_eq_getElem (by omega)
  exact ⟨s, _, hs, hf, fun h => absurd ((queued_verifies_iff _ hs hf).mp h) (by decide)⟩

end Header
end Pb173
