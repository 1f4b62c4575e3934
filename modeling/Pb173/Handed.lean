/-
# What is handed to the stack (12)

A packet is well formed when its four addresses lie in one buffer in the
order `head ≤ data`, `data + len = tail`, `tail ≤ end`, and what lies between
`data` and `tail` is what the sender meant, without its Ethernet header.
`eth_type_trans` makes a well-formed packet of a buffer that holds all of it
(`Holds.pull`), but neither producer fills such a buffer: `my_write` sets
`len` and leaves `tail` where it was, and `timer_fn` moves `data` out of the
buffer. Neither looks at what `netdev_alloc_skb` returned. So all is well
along a run if and only if nothing is handed over in it and nothing NULL is
used (`handed_iff`).
-/
import Pb173.Packets

namespace Pb173
namespace Handed

open SkBuff CInt

/-- Two addresses in one buffer, in this order. -/
def Before (a b : Addr) : Prop := a.base = b.base ∧ a.off ≤ b.off

/-- The data of a buffer are the bytes `d`. -/
structure Holds (d : List UInt8) (m : Mem) (skb : sk_buff) : Prop where
  head : Before skb.head skb.data
  tail : skb.data.add skb.len = skb.tail
  end_ : Before skb.tail skb.end_
  len : skb.len = d.length
  bytes : m.read skb.data skb.len = d

/-- What the stack expects of a `packet`: its header has been removed, and the
buffer holds the rest. -/
structure WellFormed (packet : List UInt8) (m : Mem) (skb : sk_buff) : Prop where
  header : ETH_HLEN ≤ packet.length
  rest : Holds (packet.drop ETH_HLEN) m skb

/-- **Removing the header** of a packet that a buffer holds. -/
theorem Holds.pull {packet : List UInt8} {m : Mem} {skb : sk_buff} (h : Holds packet m skb)
    (hl : ETH_HLEN ≤ packet.length) : WellFormed packet m (eth_type_trans skb) := by
  refine ⟨hl, ?_⟩
  have hlen := h.len
  have htail := h.tail
  unfold eth_type_trans
  rw [if_pos (by omega)]
  constructor
  · obtain ⟨hbase, hoff⟩ := h.head
    exact ⟨hbase, hoff.trans (Nat.le_add_right _ _)⟩
  · rw [← htail]
    unfold Addr.add
    simp only [Addr.mk.injEq, true_and]
    omega
  · exact h.end_
  · simp only [List.length_drop, hlen]
  · rw [Mem.read_add, h.bytes]

/-! ### `my_write` -/

/-- The `sk_buff` that `my_write` fills, and the memory with the copied bytes. -/
def filled (r : Room) (count : ℕ) (m : Mem) : sk_buff :=
  { head := ⟨.buf m.next, 0⟩
    data := ⟨.buf m.next, r.headroom⟩
    tail := ⟨.buf m.next, r.headroom⟩
    end_ := ⟨.buf m.next, r.headroom + count % 2 ^ 32 + r.slack⟩
    len := count % 2 ^ 32
    mac_header := ⟨.buf m.next, 0⟩ }

def copied (r : Room) (buf : List UInt8) (count : ℕ) (m : Mem) : Mem :=
  { m with next := m.next + 1 }.write ⟨.buf m.next, r.headroom⟩ (buf.take count)

section Write

variable {r : Room} {buf : List UInt8} {count : ℕ}

theorem my_write_fault (h : buf.length < count) (n : Net) :
    my_write (some r) buf count n =
      some (-EFAULT, { n with mem := copied r buf count n.mem }) := by
  have hleft : (copy_from_user buf count).2 ≠ 0 := by
    show count - buf.length ≠ 0
    omega
  unfold my_write netdev_alloc_skb
  simp only [if_pos hleft]
  simp [copied, copy_from_user, Addr.add]

theorem my_write_ok (h : count ≤ buf.length) (n : Net) :
    my_write (some r) buf count n = some (toS 64 count,
      { n with
        mem := copied r buf count n.mem
        backlog := n.backlog ++ [eth_type_trans (filled r count n.mem)] }) := by
  have hleft : ¬ (copy_from_user buf count).2 ≠ 0 := by
    show ¬ count - buf.length ≠ 0
    omega
  unfold my_write netdev_alloc_skb
  simp only [if_neg hleft]
  simp [copied, filled, copy_from_user, Addr.add, Net.netif_rx]

/-- `tail` is where the data start, also behind the header: at most an empty
packet would lie between them, and that has no header. -/
theorem not_wellFormed_filled {packet : List UInt8} (hlen : packet.length = count) (m m' : Mem) :
    ¬ WellFormed packet m' (eth_type_trans (filled r count m)) := by
  rintro ⟨hheader, hrest⟩
  have htail := congrArg Addr.off hrest.tail
  have hl := hrest.len
  rw [List.length_drop, hlen] at hl
  unfold eth_type_trans at htail hl
  unfold ETH_HLEN at htail hl hheader
  split_ifs at htail hl with hif
  · simp only [filled, Addr.add] at htail hl hif
    omega
  · simp only [filled, Addr.add] at htail hl hif
    omega

theorem wellFormed_put (h14 : ETH_HLEN ≤ count) (h32 : count < 2 ^ 32) (h : count ≤ buf.length)
    (m : Mem) : WellFormed (buf.take count) (copied r buf count m) (eth_type_trans
      { filled r count m with tail := (filled r count m).data.add (filled r count m).len }) := by
  have hmod : count % 2 ^ 32 = count := Nat.mod_eq_of_lt h32
  have hlen : (buf.take count).length = count := by
    rw [List.length_take]
    omega
  apply Holds.pull _ (by omega)
  constructor
  · exact ⟨rfl, Nat.zero_le _⟩
  · rfl
  · refine ⟨rfl, ?_⟩
    simp only [filled, Addr.add]
    omega
  · exact hmod.trans hlen.symm
  · have hread := Mem.read_write_self (m := { m with next := m.next + 1 })
      ⟨.buf m.next, r.headroom⟩ (buf.take count)
    rw [hlen] at hread
    show (copied r buf count m).read ⟨.buf m.next, r.headroom⟩ (count % 2 ^ 32) = _
    rw [hmod]
    exact hread

end Write

/-! ### `timer_fn` -/

/-- The statements of `timer_fn` that use `pack`. -/
def needing : List Tick := [.set_data, .set_len, .eth_type_trans, .netif_rx]

section Timer

variable {room : Option Room} {pack : Option sk_buff} {st : Tick} {n n' : Net}
  {pack' : Option sk_buff}

theorem exec_isSome_iff : (st.exec room pack n).isSome ↔ (st ∈ needing → pack.isSome) := by
  cases st <;> simp [Tick.exec, needing]

theorem exec_backlog (h : st.exec room pack n = some (pack', n')) (hne : st ≠ .netif_rx) :
    n'.backlog = n.backlog := by
  cases st with
  | netif_rx => exact absurd rfl hne
  | set_data | set_len | eth_type_trans =>
    obtain ⟨skb, -, hskb⟩ := Option.map_eq_some_iff.mp h
    obtain ⟨-, rfl⟩ := Prod.mk.inj hskb
    rfl
  | netdev_alloc_skb | increment | mod_timer =>
    obtain ⟨-, rfl⟩ := Prod.mk.inj (Option.some.inj h)
    rfl

/-- The end of the data lies in a buffer of its own. -/
def Foreign (pack : Option sk_buff) : Prop := ∀ skb, pack = some skb → skb.tail.base ≠ .my_packet

theorem exec_foreign (h : st.exec room pack n = some (pack', n')) (hf : Foreign pack) :
    Foreign pack' := by
  cases st with
  | netdev_alloc_skb =>
    obtain ⟨rfl, -⟩ := Prod.mk.inj (Option.some.inj h)
    intro skb hskb
    rcases room with _ | r
    · cases hskb
    · obtain rfl := Option.some.inj hskb
      simp [Addr.add]
  | set_data | set_len | netif_rx =>
    obtain ⟨skb, rfl, hskb⟩ := Option.map_eq_some_iff.mp h
    obtain ⟨rfl, -⟩ := Prod.mk.inj hskb
    intro skb' h'
    obtain rfl := Option.some.inj h'
    exact hf skb rfl
  | eth_type_trans =>
    obtain ⟨skb, rfl, hskb⟩ := Option.map_eq_some_iff.mp h
    obtain ⟨rfl, -⟩ := Prod.mk.inj hskb
    intro skb' h'
    obtain rfl := Option.some.inj h'
    unfold SkBuff.eth_type_trans
    split_ifs <;> exact hf skb rfl
  | increment | mod_timer =>
    obtain ⟨rfl, -⟩ := Prod.mk.inj (Option.some.inj h)
    exact hf

end Timer

/-! ### Runs -/

/-- What has been added to the backlog. -/
def handed (n n' : Net) : List sk_buff := n'.backlog.drop n.backlog.length

/-- A step uses no NULL pointer, and what it hands over is well formed. -/
def HandsWell (s : Packets.State) : Packets.Ev → Prop
  | .write room buf count => ∃ ret n', my_write room buf count s.net = some (ret, n') ∧
      ∀ skb ∈ handed s.net n', WellFormed (buf.take count) n'.mem skb
  | .timer room => ∀ pack st rest, s.timer = some (pack, st :: rest) →
      ∃ pack' n', st.exec room pack s.net = some (pack', n') ∧
        ∀ skb ∈ handed s.net n', WellFormed (Packets.held s.net) n'.mem skb
  | _ => True

/-- The allocation of `my_write` succeeds and its copy does not; `timer_fn` has
not come to use NULL, nor to `netif_rx`. -/
def Withholds (s : Packets.State) : Packets.Ev → Prop
  | .write room buf count => room.isSome ∧ buf.length < count
  | .timer _ => ∀ pack st rest, s.timer = some (pack, st :: rest) →
      (st ∈ needing → pack.isSome) ∧ st ≠ .netif_rx
  | _ => True

/-- The packet of `timer_fn`. -/
structure Inv (s : Packets.State) : Prop where
  packets : Packets.Inv s
  foreign : ∀ pack rest, s.timer = some (pack, rest) → Foreign pack

section Steps

variable {s t : Packets.State}

theorem handed_self (n n' : Net) (h : n'.backlog = n.backlog) : handed n n' = [] := by
  unfold handed
  rw [h, List.drop_length]

theorem Inv.step (hi : Inv s) {e : Packets.Ev} (he : Packets.step s e = some t) : Inv t := by
  refine ⟨hi.packets.step he, fun pack rest ht => ?_⟩
  cases Packets.Moves.of_step he with
  | ndo_open | ndo_stop | write | deliver => exact hi.foreign pack rest ht
  | expire =>
    obtain ⟨rfl, -⟩ := Prod.mk.inj (Option.some.inj ht)
    intro skb hskb
    cases hskb
  | timer h =>
    unfold Packets.timerStep at h
    rcases htimer : s.timer with _ | ⟨pack₀, _ | ⟨st, rest₀⟩⟩ <;> rw [htimer] at h
    · cases h
    · obtain rfl := Option.some.inj h
      cases ht
    · obtain ⟨⟨pack', n⟩, hex, rfl⟩ := Option.map_eq_some_iff.mp h
      obtain ⟨rfl, -⟩ := Prod.mk.inj (Option.some.inj ht)
      exact exec_foreign hex (hi.foreign _ _ htimer)

/-- **A call of `my_write`.** -/
theorem write_iff (s : Packets.State) (room : Option Room) (buf : List UInt8) (count : ℕ) :
    HandsWell s (.write room buf count) ↔ Withholds s (.write room buf count) := by
  rcases room with _ | r
  · refine iff_of_false ?_ (by simp [Withholds])
    rintro ⟨ret, n', h, -⟩
    cases h
  by_cases hb : buf.length < count
  · refine iff_of_true ⟨_, _, my_write_fault hb s.net, fun skb hskb => ?_⟩ ⟨rfl, hb⟩
    rw [handed_self _ _ (by rfl)] at hskb
    cases hskb
  · refine iff_of_false ?_ fun h => hb h.2
    rintro ⟨ret, n', h, hall⟩
    rw [my_write_ok (by omega)] at h
    obtain ⟨-, rfl⟩ := Prod.mk.inj (Option.some.inj h)
    have hlen : (buf.take count).length = count := by
      rw [List.length_take]
      omega
    have hwf := hall (eth_type_trans (filled r count s.net.mem)) (by simp [handed])
    exact not_wellFormed_filled hlen s.net.mem _ hwf

/-- **A statement of `timer_fn`.** Its packet has the data in `my_packet` and
their end elsewhere. -/
theorem Inv.timer_iff (hi : Inv s) (room : Option Room) :
    HandsWell s (.timer room) ↔ Withholds s (.timer room) := by
  refine forall_congr' fun pack => forall_congr' fun st => forall_congr' fun rest =>
    forall_congr' fun ht => ?_
  have hsome : (st.exec room pack s.net).isSome ↔ _ := exec_isSome_iff
  constructor
  · rintro ⟨pack', n', hex, hall⟩
    refine ⟨hsome.mp (by rw [hex]; rfl), ?_⟩
    rintro rfl
    obtain ⟨skb, rfl, hskb⟩ := Option.map_eq_some_iff.mp hex
    obtain ⟨-, rfl⟩ := Prod.mk.inj hskb
    have hcode := (hi.packets.timer _ _ ht).1
    obtain rfl : rest = Machine.follow timer_fn .netif_rx := Machine.eq_follow (by decide) hcode
    have hwhole := ((hi.packets.timer _ _ ht).2.2 skb rfl).whole (by decide)
    have hwf := hall skb (by simp [handed, Net.netif_rx])
    have hbase := congrArg Addr.base hwf.rest.tail
    rw [hwhole.data] at hbase
    exact hi.foreign _ _ ht skb rfl hbase.symm
  · rintro ⟨huse, hne⟩
    obtain ⟨⟨pack', n'⟩, hex⟩ := Option.isSome_iff_exists.mp (hsome.mpr huse)
    refine ⟨pack', n', hex, fun skb hskb => ?_⟩
    rw [handed_self _ _ (exec_backlog hex hne)] at hskb
    cases hskb

end Steps

theorem inv_start (junk : ℕ → ℕ → UInt8) : Inv (Packets.start junk) where
  packets := Packets.inv_start junk
  foreign _ _ h := by cases h

/-- **What is handed to the stack** is well formed, and nothing NULL is used, all
along a run if and only if no packet is handed over and no allocation that
fails is used in it. -/
theorem handed_iff (junk : ℕ → ℕ → UInt8) (es : List Packets.Ev) :
    Machine.Always Packets.step HandsWell (Packets.start junk) es ↔
      Machine.Always Packets.step Withholds (Packets.start junk) es := by
  refine Machine.always_congr (inv_start junk) (fun s e t hi he => hi.step he)
    (fun s e hi => ?_) es
  cases e with
  | write room buf count => exact write_iff s room buf count
  | timer room => exact hi.timer_iff room
  | ndo_open | ndo_stop | expire | deliver => exact Iff.rfl

/-- A header and one byte are written; the timer expires without memory. -/
theorem handed_short :
    ¬ Machine.Always Packets.step HandsWell (Packets.start fun _ _ => 0)
      [.write (some ⟨32, 16⟩) (List.replicate 15 1) 15] ∧
    ¬ Machine.Always Packets.step HandsWell (Packets.start fun _ _ => 0)
      [.ndo_open, .expire, .timer none, .timer none] := by
  constructor
  · intro h
    have hw := h [] _ (List.prefix_refl _) _ rfl
    rw [write_iff] at hw
    exact absurd hw.2 (by decide)
  · intro h
    have hw := h [.ndo_open, .expire, .timer none] _ (List.prefix_refl _) _ rfl
    obtain ⟨pack', n', hex, -⟩ := hw _ _ _ rfl
    cases hex

end Handed
end Pb173
