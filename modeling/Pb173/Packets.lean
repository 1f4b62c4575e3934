/-
# The packets of the timer in flight (12)

Runs of `timer_fn`, statement by statement, with packets of `my_write` among
its own, the network stack taking packets from the backlog at any time. A
packet of the timer is queued by a reference to `my_packet`, so the stack
sees the bytes that are there when it comes to it: byte 23 has been counted
on by every run of the timer since. What it sees is what was queued if and
only if, whenever it takes a packet of the timer, the number of increments
since that packet was queued is a multiple of 256 (`in_flight_iff`).
-/
import Pb173.Machine
import Pb173.SkBuff

namespace Pb173
namespace Packets

open SkBuff

/-- The state of the module, where `timer_fn` is, how often it has counted on,
what `my_packet` held when each of its packets was queued, and what the stack
has seen of them. -/
structure State where
  net : Net
  timer : Option (Option sk_buff × List Tick)
  increments : ℕ
  queued : List (List UInt8)
  seen : List (List UInt8)

def start (junk : ℕ → ℕ → UInt8) : State := ⟨Net.start junk, none, 0, [], []⟩

/-- The interface goes up or down, the timer expires or its function goes on, a
packet is written, the stack takes a packet. -/
inductive Ev
  | ndo_open
  | ndo_stop
  | expire
  | timer (room : Option Room)
  | write (room : Option Room) (buf : List UInt8) (count : ℕ)
  | deliver

/-- What `my_packet` holds. -/
def held (n : Net) : List UInt8 := n.mem.read ⟨.my_packet, 0⟩ my_packet_size

/-- A packet of the timer. -/
def timed (skb : sk_buff) : Bool := skb.data.base = .my_packet

/-- A step of `timer_fn`. -/
def timerStep (s : State) (room : Option Room) : Option State :=
  match s.timer with
  | none => none
  | some (_, []) => some { s with timer := none }
  | some (pack, st :: rest) =>
    (st.exec room pack s.net).map fun r =>
      { s with
        net := r.2
        timer := some (r.1, rest)
        increments := if st = .increment then s.increments + 1 else s.increments
        queued := if st = .netif_rx then s.queued ++ [held s.net] else s.queued }

/-- `my_ndev_stop` waits for `timer_fn` to return. -/
def step (s : State) : Ev → Option State
  | .ndo_open => some { s with net := { s.net with armed := true } }
  | .ndo_stop =>
    match s.timer with
    | none => some { s with net := { s.net with armed := false } }
    | some _ => none
  | .expire =>
    match s.timer with
    | none =>
      if s.net.armed then
        some { s with net := { s.net with armed := false }, timer := some (none, timer_fn) }
      else none
    | some _ => none
  | .timer room => timerStep s room
  | .write room buf count => (my_write room buf count s.net).map fun r => { s with net := r.2 }
  | .deliver =>
    match s.net.backlog with
    | [] => none
    | skb :: rest => some { s with
        net := { s.net with backlog := rest }
        seen := if timed skb then s.seen ++ [skb.frame s.net.mem] else s.seen }

/-- What a step can do. -/
inductive Moves (s : State) : Ev → State → Prop
  | ndo_open : Moves s .ndo_open { s with net := { s.net with armed := true } }
  | ndo_stop (ht : s.timer = none) : Moves s .ndo_stop { s with net := { s.net with armed := false } }
  | expire (ht : s.timer = none) :
    Moves s .expire { s with net := { s.net with armed := false }, timer := some (none, timer_fn) }
  | timer {room : Option Room} {t : State} (h : timerStep s room = some t) : Moves s (.timer room) t
  | write {room : Option Room} {buf : List UInt8} {count : ℕ} {r : ℤ} {n : Net}
    (h : my_write room buf count s.net = some (r, n)) :
    Moves s (.write room buf count) { s with net := n }
  | deliver {skb : sk_buff} {l : List sk_buff} (hb : s.net.backlog = skb :: l) :
    Moves s .deliver { s with
      net := { s.net with backlog := l }
      seen := if timed skb then s.seen ++ [skb.frame s.net.mem] else s.seen }

theorem Moves.of_step {s t : State} {e : Ev} (h : step s e = some t) : Moves s e t := by
  cases e with
  | ndo_open =>
    obtain rfl := Option.some.inj h
    exact .ndo_open
  | ndo_stop =>
    simp only [step] at h
    split at h
    · rename_i ht
      obtain rfl := Option.some.inj h
      exact .ndo_stop ht
    · cases h
  | expire =>
    simp only [step] at h
    split at h
    · rename_i ht
      split_ifs at h
      obtain rfl := Option.some.inj h
      exact .expire ht
    · cases h
  | timer room => exact .timer h
  | write room buf count =>
    obtain ⟨⟨r, n⟩, hw, rfl⟩ := Option.map_eq_some_iff.mp h
    exact .write hw
  | deliver =>
    simp only [step] at h
    split at h
    · cases h
    · rename_i hb
      obtain rfl := Option.some.inj h
      exact .deliver hb

/-- The stack has seen the packets of the timer as they were queued, and byte
23 of the `k`-th is its first value plus `k`. -/
structure InFlight (s : State) : Prop where
  content : s.seen <+: s.queued
  byte : ∀ k f, s.seen[k]? = some f → f[23]? = some (my_packet.getD 23 0 + UInt8.ofNat k)

/-- If the stack takes a packet of the timer, then `my_packet` has been counted
on a multiple of 256 times since the packet was queued: it is the packet with
the number `s.seen.length`, and was queued after as many increments. -/
def Punctual (s : State) : Ev → Prop
  | .deliver => ∀ skb, s.net.backlog.head? = some skb → timed skb = true →
      s.increments % 256 = s.seen.length % 256
  | _ => True

/-! ### What is queued -/

/-- What `my_packet` holds after `k` increments. -/
def fill (k : ℕ) : List UInt8 := my_packet.set 23 (my_packet.getD 23 0 + UInt8.ofNat k)

theorem getElem_fill (k : ℕ) : (fill k)[23]? = some (my_packet.getD 23 0 + UInt8.ofNat k) :=
  List.getElem?_set_self (by
    have := my_packet_size_eq
    unfold my_packet_size at this
    omega)

/-- Contents that differ in nothing but a multiple of 256 increments. -/
theorem fill_eq_fill {j k : ℕ} : fill j = fill k ↔ j % 256 = k % 256 := by
  constructor
  · intro h
    have h23 := congrArg (fun l => l[23]?) h
    simp only [getElem_fill] at h23
    have hn := congrArg UInt8.toNat ((UInt8.add_right_inj _).mp (Option.some.inj h23))
    simpa using hn
  · intro h
    have hn : UInt8.ofNat j = UInt8.ofNat k := by
      apply UInt8.toNat_inj.mp
      simpa using h
    unfold fill
    rw [hn]

/-- A packet of the timer once its header has been noted and passed. -/
structure Whole (skb : sk_buff) : Prop where
  mac_header : skb.mac_header = ⟨.my_packet, 0⟩
  data : skb.data = ⟨.my_packet, 14⟩
  len : skb.len = my_packet_size - 14

theorem Whole.frame_eq {skb : sk_buff} (h : Whole skb) (n : Net) :
    skb.frame n.mem = held n := by
  unfold sk_buff.frame held
  have hsize := my_packet_size_eq
  have hlen : 14 + (my_packet_size - 14) - 0 = my_packet_size := by omega
  rw [h.mac_header, h.data, h.len, hlen]

/-- All of `my_packet` is whole once `eth_type_trans` has seen it. -/
theorem Whole.of_eth_type_trans {skb : sk_buff} (hdata : skb.data = ⟨.my_packet, 0⟩)
    (hlen : skb.len = my_packet_size) : Whole (SkBuff.eth_type_trans skb) := by
  have hle : ETH_HLEN ≤ skb.len := by
    rw [hlen, my_packet_size_eq]
    decide
  unfold SkBuff.eth_type_trans
  rw [if_pos hle]
  refine ⟨hdata, ?_, ?_⟩
  · show skb.data.add ETH_HLEN = _
    rw [hdata]
    rfl
  · show skb.len - 14 = my_packet_size - 14
    rw [hlen]

/-- The packet of `timer_fn`, with `rest` to be executed. -/
structure Building (rest : List Tick) (skb : sk_buff) : Prop where
  data : .set_data ∉ rest → .eth_type_trans ∈ rest → skb.data = ⟨.my_packet, 0⟩
  len : .set_len ∉ rest → .eth_type_trans ∈ rest → skb.len = my_packet_size
  whole : .eth_type_trans ∉ rest → Whole skb

/-- How many more packets have been queued than counted on. -/
def ahead (rest : List Tick) : ℕ := if .netif_rx ∉ rest ∧ .increment ∈ rest then 1 else 0

/-- The invariant: `increments` is the number of packets queued, but between
the two statements, and the packets in flight are the last ones queued. -/
structure Inv (s : State) : Prop where
  bytes : held s.net = fill s.increments
  queued : s.queued = (List.range s.queued.length).map fill
  backlog : ∀ skb ∈ s.net.backlog, timed skb = true → Whole skb
  count : s.seen.length + s.net.backlog.countP timed = s.queued.length
  idle : s.timer = none → s.queued.length = s.increments
  timer : ∀ pack rest, s.timer = some (pack, rest) → rest <:+ timer_fn ∧
    s.queued.length = s.increments + ahead rest ∧ ∀ skb, pack = some skb → Building rest skb

/-! ### The steps of `timer_fn` -/

section Steps

variable {s t : State} {pack : Option sk_buff} {rest : List Tick}

theorem Inv.quiet (hi : Inv s) {n : Net} (hm : held n = held s.net)
    (hb : n.backlog = s.net.backlog) (hr : rest <:+ timer_fn)
    (ha : s.queued.length = s.increments + ahead rest)
    (hs : ∀ skb, pack = some skb → Building rest skb) :
    Inv { s with net := n, timer := some (pack, rest) } where
  bytes := hm.trans hi.bytes
  queued := hi.queued
  backlog skb hskb := hi.backlog skb (hb ▸ hskb)
  count := by
    rw [hb]
    exact hi.count
  idle h := by cases h
  timer pack' rest' h := by
    obtain ⟨rfl, rfl⟩ := Prod.mk.inj (Option.some.inj h)
    exact ⟨hr, ha, hs⟩

theorem Inv.bytes_increment (hi : Inv s) :
    (s.net.mem.write ⟨.my_packet, 23⟩ [s.net.mem.bytes .my_packet 23 + 1]).read ⟨.my_packet, 0⟩
      my_packet_size = fill (s.increments + 1) := by
  have h23 : (held s.net)[23]? = some (s.net.mem.bytes .my_packet 23) := by
    apply Mem.getElem?_read
    rw [my_packet_size_eq]
    decide
  rw [hi.bytes, getElem_fill] at h23
  rw [Mem.read_write_one, show s.net.mem.read ⟨.my_packet, 0⟩ my_packet_size = _ from hi.bytes,
    ← Option.some.inj h23]
  unfold fill
  rw [List.set_set, UInt8.ofNat_add, UInt8.add_assoc]
  rfl

theorem Inv.netif_rx (hi : Inv s) {skb : sk_buff} (hw : Whole skb)
    (hq : s.queued.length = s.increments) (hr : Machine.follow timer_fn .netif_rx <:+ timer_fn) :
    Inv { s with
      net := s.net.netif_rx skb
      timer := some (some skb, Machine.follow timer_fn .netif_rx)
      queued := s.queued ++ [held s.net] } := by
  have htimed : timed skb = true := by
    unfold timed
    rw [hw.data]
    rfl
  refine ⟨hi.bytes, ?_, fun skb' h => ?_, ?_, nofun, fun pack rest h => ?_⟩
  · show s.queued ++ [held s.net] = (List.range (s.queued ++ [held s.net]).length).map fill
    rw [List.length_append, List.length_singleton, List.range_succ, List.map_append, ← hi.queued,
      hi.bytes, hq]
    rfl
  · rcases List.mem_append.mp h with h | h
    · exact hi.backlog skb' h
    · obtain rfl := List.mem_singleton.mp h
      exact fun _ => hw
  · show s.seen.length + (s.net.backlog ++ [skb]).countP timed = (s.queued ++ [_]).length
    have hc := hi.count
    rw [List.countP_append, List.countP_singleton, if_pos htimed, List.length_append,
      List.length_singleton]
    omega
  · obtain ⟨rfl, rfl⟩ := Prod.mk.inj (Option.some.inj h)
    refine ⟨hr, ?_, fun skb' h => ?_⟩
    · show (s.queued ++ [_]).length = s.increments + 1
      rw [List.length_append, hq]
      rfl
    · obtain rfl := Option.some.inj h
      exact ⟨fun _ h => absurd h (by decide), fun _ h => absurd h (by decide), fun _ => hw⟩

/-- **A statement of `timer_fn`** keeps the invariant, and what has been queued
stays. -/
theorem Inv.timerStep (hi : Inv s) {room : Option Room} (he : timerStep s room = some t) :
    Inv t ∧ s.queued <+: t.queued ∧ t.seen = s.seen := by
  unfold Packets.timerStep at he
  rcases htimer : s.timer with _ | ⟨pack, _ | ⟨st, rest⟩⟩ <;> rw [htimer] at he
  · cases he
  · obtain rfl := Option.some.inj he
    refine ⟨⟨hi.bytes, hi.queued, hi.backlog, hi.count, fun _ => ?_, nofun⟩,
      List.prefix_refl _, rfl⟩
    exact (hi.timer _ _ htimer).2.1
  obtain ⟨hcode, hahead, hpack⟩ := hi.timer _ _ htimer
  obtain rfl : rest = Machine.follow timer_fn st := Machine.eq_follow (by decide) hcode
  have hr : Machine.follow timer_fn st <:+ timer_fn := (List.suffix_cons st _).trans hcode
  obtain ⟨⟨pack', n⟩, hex, rfl⟩ := Option.map_eq_some_iff.mp he
  cases st with
  | netdev_alloc_skb =>
    obtain ⟨rfl, rfl⟩ := Prod.mk.inj (Option.some.inj hex)
    refine ⟨hi.quiet ?_ rfl hr hahead fun skb _ => ?_, List.prefix_refl _, rfl⟩
    · rcases room with _ | r <;> rfl
    · exact ⟨fun h => absurd (by decide) h, fun h => absurd (by decide) h,
        fun h => absurd (by decide) h⟩
  | set_data =>
    obtain ⟨skb, rfl, hskb⟩ := Option.map_eq_some_iff.mp hex
    obtain ⟨rfl, rfl⟩ := Prod.mk.inj hskb
    refine ⟨hi.quiet rfl rfl hr hahead fun skb' h => ?_, List.prefix_refl _, rfl⟩
    obtain rfl := Option.some.inj h
    exact ⟨fun _ _ => rfl, fun h => absurd (by decide) h, fun h => absurd (by decide) h⟩
  | set_len =>
    obtain ⟨skb, rfl, hskb⟩ := Option.map_eq_some_iff.mp hex
    obtain ⟨rfl, rfl⟩ := Prod.mk.inj hskb
    refine ⟨hi.quiet rfl rfl hr hahead fun skb' h => ?_, List.prefix_refl _, rfl⟩
    obtain rfl := Option.some.inj h
    exact ⟨fun _ _ => (hpack skb rfl).data (by decide) (by decide), fun _ _ => rfl,
      fun h => absurd (by decide) h⟩
  | eth_type_trans =>
    obtain ⟨skb, rfl, hskb⟩ := Option.map_eq_some_iff.mp hex
    obtain ⟨rfl, rfl⟩ := Prod.mk.inj hskb
    have hdata := (hpack skb rfl).data (by decide) (by decide)
    have hlen := (hpack skb rfl).len (by decide) (by decide)
    refine ⟨hi.quiet rfl rfl hr hahead fun skb' h => ?_, List.prefix_refl _, rfl⟩
    obtain rfl := Option.some.inj h
    exact ⟨fun _ h => absurd h (by decide), fun _ h => absurd h (by decide),
      fun _ => .of_eth_type_trans hdata hlen⟩
  | netif_rx =>
    obtain ⟨skb, rfl, hskb⟩ := Option.map_eq_some_iff.mp hex
    obtain ⟨rfl, rfl⟩ := Prod.mk.inj hskb
    have hw := (hpack skb rfl).whole (by decide)
    exact ⟨hi.netif_rx hw hahead hr, List.prefix_append _ _, rfl⟩
  | increment =>
    obtain ⟨rfl, rfl⟩ := Prod.mk.inj (Option.some.inj hex)
    have hq : s.queued.length = s.increments + 1 := hahead
    refine ⟨⟨?_, hi.queued, hi.backlog, hi.count, nofun, fun pack'' rest'' h => ?_⟩,
      List.prefix_refl _, rfl⟩
    · exact hi.bytes_increment
    · obtain ⟨rfl, rfl⟩ := Prod.mk.inj (Option.some.inj h)
      refine ⟨hr, hq, fun skb' h => ?_⟩
      exact ⟨fun _ h => absurd h (by decide), fun _ h => absurd h (by decide),
        fun _ => (hpack skb' h).whole (by decide)⟩
  | mod_timer =>
    obtain ⟨rfl, rfl⟩ := Prod.mk.inj (Option.some.inj hex)
    refine ⟨hi.quiet rfl rfl hr hahead fun skb' h => ?_, List.prefix_refl _, rfl⟩
    exact ⟨fun _ h => absurd h (by decide), fun _ h => absurd h (by decide),
      fun _ => (hpack skb' h).whole (by decide)⟩

/-! ### The other steps -/

/-- A step that leaves `timer_fn` alone and queues nothing of the timer. -/
theorem Inv.beside (hi : Inv s) {n : Net} (hm : held n = held s.net) {l : List sk_buff}
    (hb : n.backlog = s.net.backlog ++ l) (hl : ∀ skb ∈ l, timed skb = false) :
    Inv { s with net := n } where
  bytes := hm.trans hi.bytes
  queued := hi.queued
  backlog skb hskb ht := by
    rcases List.mem_append.mp (hb ▸ hskb) with h | h
    · exact hi.backlog skb h ht
    · rw [hl skb h] at ht
      cases ht
  count := by
    have h0 : l.countP timed = 0 := List.countP_eq_zero.mpr fun skb h => by simp [hl skb h]
    show s.seen.length + n.backlog.countP timed = s.queued.length
    rw [hb, List.countP_append, h0]
    exact hi.count
  idle := hi.idle
  timer := hi.timer

theorem my_write_spec {room : Option Room} {buf : List UInt8} {count : ℕ} {n n' : Net} {r : ℤ}
    (h : my_write room buf count n = some (r, n')) :
    held n' = held n ∧ ∃ l, n'.backlog = n.backlog ++ l ∧ ∀ skb ∈ l, timed skb = false := by
  rcases room with _ | room
  · cases h
  have hheld : ∀ (o : ℕ) (d : List UInt8) (m : Mem),
      (m.write ⟨.buf n.mem.next, o⟩ d).read ⟨.my_packet, 0⟩ my_packet_size =
        m.read ⟨.my_packet, 0⟩ my_packet_size :=
    fun o d m => Mem.read_write_of_ne d _ (by simp)
  simp only [my_write, SkBuff.netdev_alloc_skb] at h
  split_ifs at h
  · obtain ⟨-, rfl⟩ := Prod.mk.inj (Option.some.inj h)
    exact ⟨hheld .., [], by simp, by simp⟩
  · obtain ⟨-, rfl⟩ := Prod.mk.inj (Option.some.inj h)
    refine ⟨hheld .., [_], rfl, fun skb hskb => ?_⟩
    rw [List.mem_singleton.mp hskb]
    unfold timed SkBuff.eth_type_trans
    split_ifs <;> simp [Addr.add]

/-- A packet of the timer that the stack takes is the next one queued, and
what it sees is what `my_packet` holds. -/
theorem Inv.next (hi : Inv s) {skb : sk_buff} {l : List sk_buff} (hb : s.net.backlog = skb :: l)
    (ht : timed skb = true) : skb.frame s.net.mem = fill s.increments ∧
      s.queued[s.seen.length]? = some (fill s.seen.length) := by
  have hc := hi.count
  rw [hb, List.countP_cons_of_pos ht] at hc
  refine ⟨((hi.backlog skb (by simp [hb]) ht).frame_eq s.net).trans hi.bytes, ?_⟩
  rw [hi.queued, List.getElem?_map, List.getElem?_range (by omega), Option.map_some]

theorem Inv.step (hi : Inv s) {e : Ev} (he : step s e = some t) : Inv t := by
  cases Moves.of_step he with
  | ndo_open | ndo_stop => exact hi.beside (l := []) rfl (List.append_nil _).symm (by simp)
  | expire ht =>
    refine ⟨hi.bytes, hi.queued, hi.backlog, hi.count, nofun, fun pack rest h => ?_⟩
    obtain ⟨rfl, rfl⟩ := Prod.mk.inj (Option.some.inj h)
    exact ⟨List.suffix_refl _, hi.idle ht, fun skb h => (by cases h)⟩
  | timer h => exact (hi.timerStep h).1
  | write hw =>
    obtain ⟨hm, l, hb, hl⟩ := my_write_spec hw
    exact hi.beside hm hb hl
  | @deliver skb l hb =>
    refine ⟨hi.bytes, hi.queued, fun x hx => hi.backlog x (by simp [hb, hx]), ?_, hi.idle, hi.timer⟩
    have hc := hi.count
    rw [hb] at hc
    by_cases ht : timed skb = true
    · rw [List.countP_cons_of_pos ht] at hc
      show (if timed skb = true then s.seen ++ [_] else s.seen).length + l.countP timed =
        s.queued.length
      rw [if_pos ht, List.length_append, List.length_singleton]
      omega
    · rw [List.countP_cons_of_neg ht] at hc
      show (if timed skb = true then s.seen ++ [_] else s.seen).length + l.countP timed = _
      rw [if_neg ht]
      exact hc

theorem Inv.others (hi : Inv s) {e : Ev} (hne : e ≠ .deliver) (he : Packets.step s e = some t) :
    s.queued <+: t.queued ∧ t.seen = s.seen := by
  cases Moves.of_step he with
  | deliver => exact absurd rfl hne
  | timer h => exact (hi.timerStep h).2
  | ndo_open | ndo_stop | expire | write => exact ⟨List.prefix_refl _, rfl⟩

/-- What has been seen has the right contents if it is the first that was queued. -/
theorem Inv.inFlight_iff (hi : Inv s) : InFlight s ↔ s.seen <+: s.queued := by
  refine ⟨InFlight.content, fun h => ⟨h, fun k f hf => ?_⟩⟩
  obtain ⟨hlt, rfl⟩ := List.getElem?_eq_some_iff.mp hf
  have hk := List.prefix_iff_getElem?.mp h k hlt
  have hlt' : k < s.queued.length := hlt.trans_le h.length_le
  rw [hi.queued, List.getElem?_map, List.getElem?_range hlt', Option.map_some, Option.some_inj] at hk
  rw [← hk]
  exact getElem_fill k

/-- **A step** keeps what has been seen as it was queued if and only if it is
punctual. -/
theorem Inv.step_iff (hi : Inv s) (hs : InFlight s) {e : Ev} (he : Packets.step s e = some t) :
    InFlight t ↔ Punctual s e := by
  have hpre := hs.content
  rw [(hi.step he).inFlight_iff]
  cases Moves.of_step he with
  | @deliver skb l hb =>
    by_cases ht : timed skb = true
    · obtain ⟨hframe, hnext⟩ := hi.next hb ht
      have hp : Punctual s .deliver ↔ s.increments % 256 = s.seen.length % 256 := by
        unfold Punctual
        rw [hb]
        exact ⟨fun h => h skb rfl ht, fun h _ _ _ => h⟩
      show (if timed skb = true then s.seen ++ [_] else s.seen) <+: s.queued ↔ _
      rw [if_pos ht, hframe, hp, ← fill_eq_fill]
      obtain ⟨post, hpost⟩ := hpre
      rw [← hpost, List.getElem?_append_right le_rfl, Nat.sub_self] at hnext
      rw [← hpost, List.prefix_append_right_inj, List.singleton_prefix_iff_head?_eq_some,
        List.head?_eq_getElem?, hnext, Option.some_inj]
      exact eq_comm
    · refine iff_of_true ?_ fun x hx hx' => ?_
      · show (if timed skb = true then s.seen ++ [_] else s.seen) <+: s.queued
        rw [if_neg ht]
        exact hpre
      · rw [hb] at hx
        obtain rfl := Option.some.inj hx
        exact absurd hx' ht
  | _ =>
    obtain ⟨hq, hseen⟩ := hi.others (by simp) he
    refine iff_of_true ?_ trivial
    rw [hseen]
    exact hpre.trans hq

end Steps

/-! ### Whole runs -/

theorem inv_start (junk : ℕ → ℕ → UInt8) : Inv (start junk) where
  bytes := by
    show (List.range my_packet_size).map (fun k => my_packet.getD (0 + k) 0) = fill 0
    decide +kernel
  queued := rfl
  backlog skb h := by cases h
  count := rfl
  idle _ := rfl
  timer _ _ h := by cases h

/-- **The packets of the timer in flight**: on every run the stack sees them as
they were queued if and only if it is punctual. -/
theorem in_flight_iff (junk : ℕ → ℕ → UInt8) (es : List Ev) :
    Machine.Visits step InFlight (start junk) es ↔ Machine.Always step Punctual (start junk) es := by
  refine Machine.visits_iff_always (I := Inv) (fun s e t hi he => hi.step he)
    (fun s e t hi hs he => hi.step_iff hs he) (fun s e hi he => ?_) es _ (inv_start junk) ?_
  · cases e with
    | deliver =>
      intro skb hskb
      simp only [step] at he
      split at he
      · rename_i hb
        rw [hb] at hskb
        cases hskb
      · cases he
    | _ => trivial
  · exact (inv_start junk).inFlight_iff.mpr (List.nil_prefix)

/-- The stack takes a packet after the statement that counts on. -/
def late : List Ev :=
  [.ndo_open, .expire] ++ List.replicate 6 (.timer (some ⟨0, 0⟩)) ++ [.deliver]

/-- It sees 2 at byte 23, and not 1. -/
theorem late_counted : ¬ Machine.Visits step InFlight (start fun _ _ => 0) late := by
  intro h
  obtain ⟨s, hs⟩ : ∃ s, Machine.run step (start fun _ _ => 0) late = some s := ⟨_, rfl⟩
  have hseen : (s.seen.map fun f => f[23]?) = [some 2] := by
    obtain rfl := Option.some.inj hs
    decide +kernel
  have hbyte := (h late (List.prefix_refl _) s hs).byte
  rcases hl : s.seen with _ | ⟨f, l⟩ <;> rw [hl] at hseen hbyte
  · cases hseen
  · have hf : f[23]? = some 2 := (List.cons.inj hseen).1
    rw [hbyte 0 f rfl] at hf
    exact absurd hf (by decide)

end Packets
end Pb173
