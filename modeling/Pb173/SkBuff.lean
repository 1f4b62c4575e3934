/-
# The packets of 12

A `sk_buff` is where its bytes lie: `netdev_alloc_skb` gives it a buffer of
its own, and `eth_type_trans` notes where its header starts and moves `data`
past it. `my_write` fills the buffer from the user; `timer_fn` lets `data`
point to the global `my_packet` and counts one of its bytes on after the
packet has been queued. Each statement of `timer_fn` is a step of its own,
and NULL where a pointer is used ends the run.

The receive backlog is a list: `netif_rx` appends to it, and the network
stack takes the first packet from it, whose bytes it sees from the header to
the end of the data.
-/
import Pb173.Kernel
import Mathlib.Data.List.Range

namespace Pb173
namespace SkBuff

open CInt

/-! ### Memory -/

/-- The global array, or the buffer of the `i`-th `sk_buff` allocated. -/
inductive Base
  | my_packet
  | buf (i : ℕ)
deriving DecidableEq

structure Addr where
  base : Base
  off : ℕ
deriving DecidableEq

def Addr.add (a : Addr) (n : ℕ) : Addr := { a with off := a.off + n }

/-- The bytes in memory, and the number of buffers allocated. -/
structure Mem where
  bytes : Base → ℕ → UInt8
  next : ℕ

namespace Mem

variable (m : Mem)

def read (a : Addr) (n : ℕ) : List UInt8 := (List.range n).map fun k => m.bytes a.base (a.off + k)

def write (a : Addr) (d : List UInt8) : Mem :=
  { m with bytes := fun b k =>
      if b = a.base ∧ a.off ≤ k then (d[k - a.off]?).getD (m.bytes b k) else m.bytes b k }

variable {m}

theorem getElem?_read {a : Addr} {n k : ℕ} (hk : k < n) :
    (m.read a n)[k]? = some (m.bytes a.base (a.off + k)) := by
  unfold read
  rw [List.getElem?_map, List.getElem?_range hk, Option.map_some]

theorem read_write_self (a : Addr) (d : List UInt8) : (m.write a d).read a d.length = d := by
  apply List.ext_getElem
  · simp [read]
  intro k _ hk
  simp [read, write, hk]

theorem read_add (a : Addr) (n k : ℕ) : m.read (a.add k) (n - k) = (m.read a n).drop k := by
  apply List.ext_getElem
  · simp [read]
  intro i hi _
  simp [read, Addr.add, Nat.add_assoc]

theorem read_write_of_ne {a b : Addr} (d : List UInt8) (n : ℕ) (h : b.base ≠ a.base) :
    (m.write a d).read b n = m.read b n := by
  unfold read write
  simp [h]

theorem read_write_one (b : Base) (o : ℕ) (v : UInt8) (n : ℕ) :
    (m.write ⟨b, o⟩ [v]).read ⟨b, 0⟩ n = (m.read ⟨b, 0⟩ n).set o v := by
  apply List.ext_getElem
  · simp [read]
  intro k hk _
  simp only [read, write, List.getElem_map, List.getElem_range, List.getElem_set, Nat.zero_add]
  by_cases ho : o = k
  · subst ho
    simp
  · rw [if_neg ho]
    by_cases hle : o ≤ k
    · have hne : k - o ≠ 0 := by omega
      simp [hle, hne]
    · simp [hle]

end Mem

/-! ### `sk_buff` -/

structure sk_buff where
  head : Addr
  data : Addr
  tail : Addr
  end_ : Addr
  len : ℕ
  mac_header : Addr
deriving DecidableEq

/-- The room that an allocation leaves before the data and past what was asked
for. -/
structure Room where
  headroom : ℕ
  slack : ℕ

/-- `netdev_alloc_skb(dev, n)`; NULL if there is no `room`. -/
def netdev_alloc_skb (room : Option Room) (n : ℕ) (m : Mem) : Option sk_buff × Mem :=
  match room with
  | none => (none, m)
  | some r =>
    let head : Addr := ⟨.buf m.next, 0⟩
    (some ⟨head, head.add r.headroom, head.add r.headroom, head.add (r.headroom + n + r.slack), 0,
      head⟩, { m with next := m.next + 1 })

def ETH_HLEN : ℕ := 14

/-- `eth_type_trans(skb, dev)`, which pulls the header if it is there. -/
def eth_type_trans (skb : sk_buff) : sk_buff :=
  if ETH_HLEN ≤ skb.len then
    { skb with mac_header := skb.data, data := skb.data.add ETH_HLEN, len := skb.len - ETH_HLEN }
  else { skb with mac_header := skb.data }

/-- The bytes that the stack sees: from the header to the end of the data. -/
def sk_buff.frame (skb : sk_buff) (m : Mem) : List UInt8 :=
  m.read skb.mac_header (skb.data.off + skb.len - skb.mac_header.off)

/-! ### The module -/

/-- packet.c. -/
def my_packet : List UInt8 := [
  0x00, 0x00, 0x00, 0x00, 0x00, 0x00, 0x00, 0x00, 0x00, 0x00, 0x00, 0x00, 0x08, 0x00, 0x45, 0x00,
  0x00, 0xe4, 0x00, 0x00, 0x40, 0x00, 0x40, 0x01, 0x3c, 0x17, 0x7f, 0x00, 0x00, 0x01, 0x7f, 0x00,
  0x00, 0x01, 0x08, 0x00, 0x5c, 0x67, 0x73, 0x95, 0x00, 0x01, 0x77, 0x2c, 0x06, 0x4d, 0x00, 0x00,
  0x00, 0x00, 0x01, 0x92, 0x0e, 0x00, 0x00, 0x00, 0x00, 0x00, 0x10, 0x11, 0x12, 0x13, 0x14, 0x15,
  0x16, 0x17, 0x18, 0x19, 0x1a, 0x1b, 0x1c, 0x1d, 0x1e, 0x1f, 0x20, 0x21, 0x22, 0x23, 0x24, 0x25,
  0x26, 0x27, 0x28, 0x29, 0x2a, 0x2b, 0x2c, 0x2d, 0x2e, 0x2f, 0x30, 0x31, 0x32, 0x33, 0x34, 0x35,
  0x36, 0x37, 0x38, 0x39, 0x3a, 0x3b, 0x3c, 0x3d, 0x3e, 0x3f, 0x40, 0x41, 0x42, 0x43, 0x44, 0x45,
  0x46, 0x47, 0x48, 0x49, 0x4a, 0x4b, 0x4c, 0x4d, 0x4e, 0x4f, 0x50, 0x51, 0x52, 0x53, 0x54, 0x55,
  0x56, 0x57, 0x58, 0x59, 0x5a, 0x5b, 0x5c, 0x5d, 0x5e, 0x5f, 0x60, 0x61, 0x62, 0x63, 0x64, 0x65,
  0x66, 0x67, 0x68, 0x69, 0x6a, 0x6b, 0x6c, 0x6d, 0x6e, 0x6f, 0x70, 0x71, 0x72, 0x73, 0x74, 0x75,
  0x76, 0x77, 0x78, 0x79, 0x7a, 0x7b, 0x7c, 0x7d, 0x7e, 0x7f, 0x80, 0x81, 0x82, 0x83, 0x84, 0x85,
  0x86, 0x87, 0x88, 0x89, 0x8a, 0x8b, 0x8c, 0x8d, 0x8e, 0x8f, 0x90, 0x91, 0x92, 0x93, 0x94, 0x95,
  0x96, 0x97, 0x98, 0x99, 0x9a, 0x9b, 0x9c, 0x9d, 0x9e, 0x9f, 0xa0, 0xa1, 0xa2, 0xa3, 0xa4, 0xa5,
  0xa6, 0xa7, 0xa8, 0xa9, 0xaa, 0xab, 0xac, 0xad, 0xae, 0xaf, 0xb0, 0xb1, 0xb2, 0xb3, 0xb4, 0xb5,
  0xb6, 0xb7, 0xb8, 0xb9, 0xba, 0xbb, 0xbc, 0xbd, 0xbe, 0xbf, 0xc0, 0xc1, 0xc2, 0xc3, 0xc4, 0xc5,
  0xc6, 0xc7]

def my_packet_size : ℕ := my_packet.length

theorem my_packet_size_eq : my_packet_size = 242 := by decide +kernel

/-- What the module and the network stack share: memory, the packets in
flight, and whether `my_timer` is set. -/
structure Net where
  mem : Mem
  backlog : List sk_buff
  armed : Bool

def Net.netif_rx (n : Net) (skb : sk_buff) : Net := { n with backlog := n.backlog ++ [skb] }

/-- When the module is loaded; nothing is known of the buffers to come. -/
def Net.start (junk : ℕ → ℕ → UInt8) : Net :=
  ⟨⟨fun b k => match b with | .my_packet => my_packet.getD k 0 | .buf i => junk i k, 0⟩, [], false⟩

/-- The statements of `timer_fn`. -/
inductive Tick
  | netdev_alloc_skb
  | set_data
  | set_len
  | eth_type_trans
  | netif_rx
  | increment
  | mod_timer
deriving DecidableEq

def timer_fn : List Tick :=
  [.netdev_alloc_skb, .set_data, .set_len, .eth_type_trans, .netif_rx, .increment, .mod_timer]

/-- A statement of `timer_fn`, `pack` being its local; `none` if it uses NULL. -/
def Tick.exec (room : Option Room) (pack : Option sk_buff) (n : Net) :
    Tick → Option (Option sk_buff × Net)
  | .netdev_alloc_skb =>
    let r := SkBuff.netdev_alloc_skb room my_packet_size n.mem
    some (r.1, { n with mem := r.2 })
  | .set_data => pack.map fun skb => (some { skb with data := ⟨.my_packet, 0⟩ }, n)
  | .set_len => pack.map fun skb => (some { skb with len := my_packet_size }, n)
  | .eth_type_trans => pack.map fun skb => (some (SkBuff.eth_type_trans skb), n)
  | .netif_rx => pack.map fun skb => (some skb, n.netif_rx skb)
  | .increment =>
    some (pack, { n with
      mem := n.mem.write ⟨.my_packet, 23⟩ [n.mem.bytes .my_packet 23 + 1] })
  | .mod_timer => some (pack, { n with armed := true })

/-- `my_write` of `count` bytes from `buf`: what it returns, and the state;
`none` if it uses NULL. The length of a `sk_buff` is an `unsigned int`. -/
def my_write (room : Option Room) (buf : List UInt8) (count : ℕ) (n : Net) : Option (ℤ × Net) :=
  match netdev_alloc_skb room (count % 2 ^ 32) n.mem with
  | (none, _) => none
  | (some pack, mem) =>
    let pack := { pack with len := count % 2 ^ 32 }
    let (moved, left) := copy_from_user buf count
    let n := { n with mem := mem.write pack.data moved }
    if left ≠ 0 then some (-EFAULT, n)
    else some (toS 64 count, n.netif_rx (eth_type_trans pack))

end SkBuff
end Pb173
