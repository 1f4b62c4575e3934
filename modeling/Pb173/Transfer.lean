/-
# The transfers of the card (11/homework)

`my_probe` writes a text to the DMA page, has the card copy it to its own memory
and back behind the first copy, and starts a third transfer, whose end raises an
interrupt. The card copies a byte at a time, with `my_probe`, the interrupt
handlers, the tasklet and, when the device is removed, `my_remove` going on
beside it.

The card is the one the driver is written for: `CMD` starts a transfer of `COUNT`
bytes when bit 0 is written, from the memory of bits 1 to 3 to that of bits 4 to
6 (2 is the bus, 4 its own), bit 0 is cleared at its end, which raises `0x100`
unless bit 7 is set. It is idle when the driver is bound, with no completion left
over.
-/
import Pb173.Calls
import Pb173.CString
import Pb173.Outline

namespace Pb173
namespace Transfer

open Dma

/-- `"Hello,man!"` -/
def hello : List UInt8 := [72, 101, 108, 108, 111, 44, 109, 97, 110, 33]

/-- Byte `k` of copies of it one after the other. -/
def text (k : ℕ) : UInt8 := hello.getD (k % 10) 0

abbrev Mem := BitVec 32 → UInt8

/-- The byte `k` behind an address. -/
abbrev behind (a : BitVec 32) (k : ℕ) : BitVec 32 := a + BitVec.ofNat 32 k

def bytes (f : Mem) (a : BitVec 32) (n : ℕ) : List UInt8 := (List.range n).map fun k => f (behind a k)

/-! ### The machine -/

/-- The registers of the card and how far its transfer is, the memory on the bus
and the memory of the card. The DMA page may be freed; `stale` is a store of the
card to it after that. -/
structure Engine where
  src : BitVec 32
  dst : BitVec 32
  count : BitVec 32
  cmd : BitVec 32
  sent : ℕ
  bus : Mem
  ram : Mem
  freed : Bool
  stale : Bool

namespace Engine

variable (x : Engine)

/-- A transfer goes on. -/
def busy : Bool := x.cmd.getLsbD 0

/-- A write to `CMD`. -/
def command (v : BitVec 32) : Engine :=
  if v.getLsbD 0 then { x with cmd := v, sent := 0 } else { x with cmd := v }

def fetch (code a : BitVec 32) : UInt8 :=
  if code = 2 then x.bus a else if code = 4 then x.ram a else 0

/-- A store; `phys` is the address of the DMA page on the bus. -/
def store (phys code a : BitVec 32) (v : UInt8) : Engine :=
  if code = 2 then
    { x with
      bus := Function.update x.bus a v
      stale := x.stale || (x.freed && decide ((a - phys).toNat < 4096)) }
  else if code = 4 then { x with ram := Function.update x.ram a v }
  else x

/-- One byte of the transfer. -/
def byte (phys : BitVec 32) : Engine :=
  { x.store phys ((x.cmd >>> 4) &&& 7) (behind x.dst x.sent)
      (x.fetch ((x.cmd >>> 1) &&& 7) (behind x.src x.sent)) with
    sent := x.sent + 1 }

end Engine

/-- The engine and the register `RAISED`; the handlers that run, the tasklets
that wait, and what was printed (`none` is a text that does not end on the
page). -/
structure World where
  eng : Engine
  raised : BitVec 32
  irq : Bool
  invs : List Handler
  queued : ℕ
  shown : List (Option (List UInt8))
  printed : List (Option (List UInt8))

namespace World

variable (x : World)

def writel (v : BitVec 32) : Reg → World
  | .RAISED | .ENABLE => x
  | .RAISE => { x with raised := x.raised ||| v }
  | .ACK => { x with raised := x.raised &&& ~~~v }
  | .SRC => { x with eng := { x.eng with src := v } }
  | .DST => { x with eng := { x.eng with dst := v } }
  | .COUNT => { x with eng := { x.eng with count := v } }
  | .CMD => { x with eng := x.eng.command v }

/-- The DMA page is freed. -/
def free : World := { x with eng := { x.eng with freed := true } }

/-- What a handler reads. -/
def reading : Act → BitVec 32
  | .readl .RAISED => x.raised
  | .readl .CMD => x.eng.cmd
  | _ => 0

/-- What a handler does. -/
def perform : Act → World
  | .writel v r => x.writel v r
  | .tasklet_schedule => { x with queued := x.queued + 1 }
  | .load | .readl _ | .tasklet_init | .ret _ => x

end World

/-- What goes on beside the driver's statements. -/
inductive Beside
  | byte
  | complete
  | tick
  | irq
  | handler (i : ℕ)
  | tasklet
deriving DecidableEq

/-- A step of the card, of the timer, of a handler, or of the tasklet. What the
tasklet finds on a page that was freed is not said. -/
def env (phys : BitVec 32) (x : World) : Beside → Option World
  | .byte =>
    if x.eng.busy = true ∧ x.eng.sent < x.eng.count.toNat then
      some { x with eng := x.eng.byte phys }
    else none
  | .complete =>
    if x.eng.busy = true ∧ x.eng.sent = x.eng.count.toNat then
      some { x with
        eng := { x.eng with cmd := x.eng.cmd &&& ~~~1 }
        raised := if x.eng.cmd.getLsbD 7 then x.raised else x.raised ||| 0x100 }
    else none
  | .tick => some (x.writel 0x1000 .RAISE)
  | .irq => if x.irq then some { x with invs := x.invs ++ [.virt] } else none
  | .handler i =>
    match x.invs[i]? with
    | none => none
    | some pc =>
      match pc.next (x.reading pc.act) with
      | some pc' => some { x.perform pc.act with invs := x.invs.set i pc' }
      | none => some { x.perform pc.act with invs := x.invs.eraseIdx i }
  | .tasklet =>
    if x.queued = 0 then none
    else some { x with
      queued := x.queued - 1
      printed := if x.eng.freed then x.printed
        else x.printed ++ [string (bytes x.eng.bus (behind phys 0x14) (4096 - 0x14))] }

/-- `strcpy(dma_virt_addr, "Hello,man!")`. -/
def strcpy (phys : BitVec 32) : List UInt8 → ℕ → Mem → Mem
  | [], k, f => Function.update f (behind phys k) 0
  | c :: cs, k, f => strcpy phys cs (k + 1) (Function.update f (behind phys k) c)

/-- The driver's statements: `my_probe` and, if it succeeds, `my_remove`. -/
abbrev Stmt := Probe ⊕ Remove

def program : List Stmt := probe_code.map .inl ++ remove_code.map .inr

/-- A statement of `my_probe`, as far as the card can tell. -/
def probe (phys : BitVec 32) (x : World) : Probe → World × Then
  | .strcpy => ({ x with eng := { x.eng with bus := strcpy phys hello 0 x.eng.bus } }, .next)
  | .writel w r => (x.writel (w.val ⟨NULL, NULL, phys⟩) r, .next)
  | .wait => (x, if x.eng.cmd.getLsbD 0 then .again else .next)
  | .show_page => ({ x with shown := x.shown ++ [string (bytes x.eng.bus phys 4096)] }, .next)
  | .request_irq => ({ x with irq := true }, .next)
  | _ => (x, .next)

/-- A statement; `err` is what a call that may fail returns. `tasklet_kill` and
`free_irq` wait for what they stop. -/
def exec (phys : BitVec 32) : Stmt → ℤ → World → Option (World × Then)
  | .inl st, err, x => if st.fallible = true ∧ err ≠ 0 then some (x, .stop) else some (probe phys x st)
  | .inr .tasklet_kill, _, x => if x.queued = 0 then some (x, .next) else none
  | .inr .free_irq, _, x => if x.invs = [] then some ({ x with irq := false }, .next) else none
  | .inr .dma_free_coherent, _, x => some (x.free, .next)
  | .inr _, _, x => some (x, .next)

/-- The device is bound. -/
def start (src dst count cmd raised : BitVec 32) (bus ram : Mem) : World :=
  ⟨⟨src, dst, count, cmd, 0, bus, ram, false, false⟩, raised, false, [], 0, [], []⟩

/-! ### The text -/

theorem behind_ne {a : BitVec 32} {j k : ℕ} (hj : j < 2 ^ 32) (hk : k < 2 ^ 32) (h : j ≠ k) :
    behind a j ≠ behind a k := by
  intro heq
  have := congrArg BitVec.toNat ((BitVec.add_right_inj a).mp heq)
  rw [BitVec.toNat_ofNat, BitVec.toNat_ofNat, Nat.mod_eq_of_lt hj, Nat.mod_eq_of_lt hk] at this
  exact h this

theorem behind_behind (a : BitVec 32) (j k : ℕ) : behind (behind a j) k = behind a (j + k) := by
  unfold behind
  rw [BitVec.add_assoc, BitVec.ofNat_add]

theorem strcpy_miss (phys : BitVec 32) : ∀ (cs : List UInt8) (j : ℕ) (f : Mem) {a : BitVec 32},
    (∀ k ≤ cs.length, a ≠ behind phys (j + k)) → strcpy phys cs j f a = f a
  | [], j, f, a, h => Function.update_of_ne (h 0 le_rfl) ..
  | c :: cs, j, f, a, h => by
    rw [strcpy, strcpy_miss phys cs (j + 1) _ fun k hk => ?_]
    · exact Function.update_of_ne (h 0 (Nat.zero_le _)) ..
    · have := h (k + 1) (by simpa using hk)
      rwa [show j + (k + 1) = j + 1 + k by omega] at this

theorem strcpy_hit (phys : BitVec 32) : ∀ (cs : List UInt8) (j : ℕ) (f : Mem) (k : ℕ)
    (hk : k < cs.length), j + cs.length < 2 ^ 32 → strcpy phys cs j f (behind phys (j + k)) = cs[k]
  | c :: cs, j, f, 0, _, hlt => by
    simp only [List.length_cons] at hlt
    rw [strcpy, strcpy_miss phys cs (j + 1) _ fun k hk => ?_]
    · exact Function.update_self ..
    · exact behind_ne (by omega) (by omega) (by omega)
  | c :: cs, j, f, k + 1, hk, hlt => by
    simp only [List.length_cons] at hk hlt
    rw [strcpy, show j + (k + 1) = j + 1 + k by omega,
      strcpy_hit phys cs (j + 1) _ k (by omega) (by omega)]
    rfl

theorem bytes_add (f : Mem) (a : BitVec 32) (m n : ℕ) :
    bytes f a (m + n) = bytes f a m ++ bytes f (behind a m) n := by
  unfold bytes
  rw [List.range_add, List.map_append, List.map_map]
  congr 1
  exact List.map_congr_left fun k _ => by simp only [Function.comp, behind_behind]

theorem bytes_congr {f g : Mem} {a : BitVec 32} {n : ℕ}
    (h : ∀ k < n, f (behind a k) = g (behind a k)) : bytes f a n = bytes g a n :=
  List.map_congr_left fun k hk => h k (List.mem_range.mp hk)

theorem bytes_text {f : Mem} {a : BitVec 32} {j : ℕ}
    (h : ∀ k < 10, f (behind a (10 * j + k)) = text (10 * j + k)) :
    bytes f (behind a (10 * j)) 10 = hello := by
  have hk : ∀ k < 10, f (behind (behind a (10 * j)) k) = hello.getD k 0 := by
    intro k hk
    rw [behind_behind, h k hk, text, Nat.mul_add_mod, Nat.mod_eq_of_lt hk]
  unfold bytes
  rw [List.map_congr_left fun k hk' => hk k (List.mem_range.mp hk')]
  rfl

/-! ### What is right in the memories -/

section Memories

/-- The first `n` bytes of the page and the first `m` of the card's copy are the
text, and `strcpy` and the transfers have left the rest alone. -/
structure Good (phys : BitVec 32) (bus ram : Mem) (n m : ℕ) (x : Engine) : Prop where
  page : ∀ k < n, x.bus (behind phys k) = text k
  rest : ∀ a, (∀ k < max n 11, a ≠ behind phys k) → x.bus a = bus a
  copy : ∀ k < m, x.ram (behind 0x40000 k) = text k
  around : ∀ a, (∀ k < 10, a ≠ behind 0x40000 k) → x.ram a = ram a

variable {phys : BitVec 32} {bus ram : Mem} {n m : ℕ} {x : Engine}

theorem Good.congr {y : Engine} (h : Good phys bus ram n m x) (hb : y.bus = x.bus)
    (hr : y.ram = x.ram) : Good phys bus ram n m y :=
  ⟨hb ▸ h.page, hb ▸ h.rest, hr ▸ h.copy, hr ▸ h.around⟩

theorem Good.store_page (h : Good phys bus ram n m x) (hn : 11 ≤ n + 1) (hlt : n < 2 ^ 32 - 1) :
    Good phys bus ram (n + 1) m { x with bus := Function.update x.bus (behind phys n) (text n) } := by
  refine ⟨fun k hk => ?_, fun a ha => ?_, h.copy, h.around⟩
  · by_cases hkn : k = n
    · subst hkn
      exact Function.update_self ..
    · exact (Function.update_of_ne (behind_ne (by omega) (by omega) hkn) ..).trans
        (h.page k (by omega))
  · refine (Function.update_of_ne (ha n (by omega)) ..).trans (h.rest a fun k hk => ha k ?_)
    omega

theorem Good.store_copy (h : Good phys bus ram n m x) (hm : m < 10) :
    Good phys bus ram n (m + 1)
      { x with ram := Function.update x.ram (behind 0x40000 m) (text m) } := by
  refine ⟨h.page, h.rest, fun k hk => ?_, fun a ha => ?_⟩
  · by_cases hkm : k = m
    · subst hkm
      exact Function.update_self ..
    · exact (Function.update_of_ne (behind_ne (by omega) (by omega) hkm) ..).trans
        (h.copy k (by omega))
  · exact (Function.update_of_ne (ha m hm) ..).trans (h.around a ha)

theorem Good.shown (h : Good phys bus ram 20 m x) :
    string (bytes x.bus phys 4096) =
      (string (bytes bus (behind phys 20) (4096 - 20))).map (hello ++ hello ++ ·) := by
  have h0 : bytes x.bus (behind phys 0) 10 = hello :=
    @bytes_text x.bus phys 0 fun k hk => h.page _ (by omega)
  have h1 : bytes x.bus (behind phys 10) 10 = hello :=
    @bytes_text x.bus phys 1 fun k hk => h.page _ (by omega)
  have h2 : bytes x.bus (behind phys 20) (4096 - 20) = bytes bus (behind phys 20) (4096 - 20) := by
    refine bytes_congr fun k hk => h.rest _ fun j hj => ?_
    rw [behind_behind]
    exact behind_ne (by omega) (by omega) (by omega)
  have hsplit : bytes x.bus phys 4096 = hello ++ hello ++ bytes bus (behind phys 20) (4096 - 20) :=
    calc bytes x.bus phys 4096
      _ = bytes x.bus (behind phys 0) (10 + 10 + (4096 - 20)) := by
        rw [show behind phys 0 = phys from BitVec.add_zero phys]
      _ = hello ++ hello ++ bytes bus (behind phys 20) (4096 - 20) := by
        rw [bytes_add, bytes_add, behind_behind, behind_behind, h0, h1, h2]
  rw [hsplit, string_append_of_not_mem (by decide)]

theorem Good.printed (h : Good phys bus ram 30 m x) :
    string (bytes x.bus (behind phys 20) (4096 - 20)) =
      (string (bytes bus (behind phys 30) (4096 - 30))).map (hello ++ ·) := by
  have h0 : bytes x.bus (behind phys 20) 10 = hello :=
    @bytes_text x.bus phys 2 fun k hk => h.page _ (by omega)
  have h1 : bytes x.bus (behind phys 30) (4096 - 30) = bytes bus (behind phys 30) (4096 - 30) := by
    refine bytes_congr fun k hk => h.rest _ fun j hj => ?_
    rw [behind_behind]
    exact behind_ne (by omega) (by omega) (by omega)
  have hsplit : bytes x.bus (behind phys 20) (4096 - 20) =
      hello ++ bytes bus (behind phys 30) (4096 - 30) :=
    calc bytes x.bus (behind phys 20) (4096 - 20)
      _ = bytes x.bus (behind phys 20) (10 + (4096 - 30)) := rfl
      _ = hello ++ bytes bus (behind phys 30) (4096 - 30) := by
        rw [bytes_add, behind_behind, h0, h1]
  rw [hsplit, string_append_of_not_mem (by decide)]

theorem Good.strcpy (h : Good phys bus ram 0 0 x) :
    Good phys bus ram 10 0 { x with bus := Transfer.strcpy phys hello 0 x.bus } := by
  refine ⟨fun k hk => ?_, fun a ha => ?_, h.copy, h.around⟩
  · have hhit := strcpy_hit phys hello 0 x.bus k hk (by decide)
    rw [Nat.zero_add] at hhit
    refine hhit.trans ?_
    rw [text, Nat.mod_eq_of_lt hk, List.getD_eq_getElem?_getD, List.getElem?_eq_getElem hk]
    rfl
  · refine (strcpy_miss phys hello 0 x.bus fun k hk => ?_).trans (h.rest a ha)
    rw [Nat.zero_add]
    exact ha k (Nat.lt_succ_of_le hk)

/-- The page and its copy are right, and the page is not freed. -/
def Right (phys : BitVec 32) (bus ram : Mem) (n m : ℕ) (x : Engine) : Prop :=
  Good phys bus ram n m x ∧ x.freed = false ∧ x.stale = false

/-- The commands of the three transfers. -/
def toCard : BitVec 32 := 1 ||| 2 <<< 1 ||| 4 <<< 4 ||| 1 <<< 7

def toPage : BitVec 32 := 1 ||| 4 <<< 1 ||| 2 <<< 4 ||| 1 <<< 7

def toPageIntr : BitVec 32 := 1 ||| 4 <<< 1 ||| 2 <<< 4

theorem byte_toCard (hc : x.cmd = toCard) :
    x.byte phys = { x with
      ram := Function.update x.ram (behind x.dst x.sent) (x.bus (behind x.src x.sent))
      sent := x.sent + 1 } := by
  have hfrom : (toCard >>> 1) &&& 7 = 2 := by decide
  have hto : (toCard >>> 4) &&& 7 = 4 := by decide
  unfold Engine.byte Engine.fetch Engine.store
  rw [hc, hfrom, hto, if_pos rfl, if_neg (by decide), if_pos rfl]

theorem byte_toPage (hc : x.cmd = toPage ∨ x.cmd = toPageIntr) :
    x.byte phys = { x with
      bus := Function.update x.bus (behind x.dst x.sent) (x.ram (behind x.src x.sent))
      stale := x.stale || (x.freed && decide ((behind x.dst x.sent - phys).toNat < 4096))
      sent := x.sent + 1 } := by
  have hfrom : (x.cmd >>> 1) &&& 7 = 4 := by rcases hc with hc | hc <;> rw [hc] <;> decide
  have hto : (x.cmd >>> 4) &&& 7 = 2 := by rcases hc with hc | hc <;> rw [hc] <;> decide
  unfold Engine.byte Engine.fetch Engine.store
  rw [hfrom, hto, if_pos (rfl : (2 : BitVec 32) = 2), if_neg (by decide : ¬ (4 : BitVec 32) = 2),
    if_pos (rfl : (4 : BitVec 32) = 4)]

theorem Good.byte_toCard (h : Good phys bus ram 10 x.sent x) (hs : x.sent < 10)
    (hc : x.cmd = toCard) (hsrc : x.src = phys) (hdst : x.dst = 0x40000) :
    Good phys bus ram 10 (x.sent + 1) (x.byte phys) := by
  rw [Transfer.byte_toCard hc, hsrc, hdst, h.page _ hs]
  exact (h.store_copy hs).congr rfl rfl

/-- A byte comes back to the page, behind the first `10 * j` of it. -/
theorem Good.byte_toPage {j : ℕ} (hj : 0 < j) (hj' : j < 3)
    (h : Good phys bus ram (10 * j + x.sent) 10 x) (hs : x.sent < 10)
    (hc : x.cmd = toPage ∨ x.cmd = toPageIntr) (hsrc : x.src = 0x40000)
    (hdst : x.dst = behind phys (10 * j)) :
    Good phys bus ram (10 * j + (x.sent + 1)) 10 (x.byte phys) := by
  have htext : text x.sent = text (10 * j + x.sent) := by
    unfold text
    rw [Nat.mul_add_mod]
  rw [Transfer.byte_toPage hc, hsrc, hdst, behind_behind, h.copy _ hs, htext]
  exact (h.store_page (by omega) (by omega)).congr rfl rfl

end Memories

/-! ### Assertions -/

section Assertions

variable (phys : BitVec 32) (bus ram : Mem)

/-- Nothing on the way to `ACKINT`. -/
def calm : Handler → Bool
  | .virt | .raised | .ret _ => true
  | .ack v => !v.getLsbD 8
  | _ => false

/-- What was shown before the third transfer. -/
def Shown (x : World) : Prop := ∀ o ∈ x.shown,
  o = (string (bytes bus (behind phys 20) (4096 - 20))).map (hello ++ hello ++ ·)

def Printed (x : World) : Prop := ∀ o ∈ x.printed,
  o = (string (bytes bus (behind phys 30) (4096 - 30))).map (hello ++ ·)

/-- No completion was raised. -/
structure Quiet (x : World) : Prop where
  raised : x.raised.getLsbD 8 = false
  invs : ∀ pc ∈ x.invs, calm pc = true
  queued : x.queued = 0
  printed : x.printed = []
  shown : Shown phys bus x

/-- The card is idle, and `E` holds of it. -/
structure Idle (E : Engine → Prop) (x : World) : Prop where
  eng : E x.eng
  idle : x.eng.busy = false
  quiet : Quiet phys bus x

/-- The registers of a transfer. -/
structure Regs (src dst : BitVec 32) (x : Engine) : Prop where
  src : x.src = src
  dst : x.dst = dst
  count : x.count = 10

/-- A transfer without an interrupt goes on, `E k` holding after `k` bytes, or
it is over. -/
structure Going (c src dst : BitVec 32) (E : ℕ → Engine → Prop) (x : World) : Prop where
  regs : Regs src dst x.eng
  quiet : Quiet phys bus x
  sent : (x.eng.cmd = c ∧ x.eng.sent ≤ 10 ∧ E x.eng.sent x.eng) ∨ (x.eng.busy = false ∧ E 10 x.eng)

/-- The third transfer is over. -/
structure Done (x : World) : Prop where
  idle : x.eng.busy = false
  good : Good phys bus ram 30 10 x.eng
  acks : ∀ c, .ackint c ∈ x.invs → c.getLsbD 0 = false
  shown : Shown phys bus x
  printed : Printed phys bus x

/-- Not freed, if `live`. -/
def Live (live : Bool) (x : Engine) : Prop := live = true → x.freed = false ∧ x.stale = false

/-- The third transfer goes on, or is over. -/
def Last (live : Bool) (x : World) : Prop :=
  Live live x.eng ∧
    ((Regs 0x40000 (behind phys 20) x.eng ∧ Quiet phys bus x ∧ x.eng.cmd = toPageIntr ∧
        x.eng.sent ≤ 10 ∧ Good phys bus ram (20 + x.eng.sent) 10 x.eng) ∨
      Done phys bus ram x)

variable {phys bus ram} {x y : World}

/-! ### What the environment keeps -/

theorem calm_next (h : Quiet phys bus x) {pc pc' : Handler} (hc : calm pc = true)
    (hn : pc.next (x.reading pc.act) = some pc') : calm pc' = true := by
  cases pc with
  | virt =>
    obtain rfl := Option.some.inj hn
    rfl
  | raised =>
    obtain rfl := Option.some.inj hn
    have hr : x.reading Handler.raised.act = x.raised := rfl
    rw [hr]
    split_ifs
    · rfl
    · simpa [calm] using h.raised
  | ack v =>
    obtain rfl := Option.some.inj hn
    have hv : v ≠ 0x100 := by
      rintro rfl
      simp [calm] at hc
    rw [if_neg hv]
    rfl
  | ret r => cases hn
  | cmd | ackint _ | init | schedule => cases hc

theorem calm_perform (h : Quiet phys bus x) {pc : Handler} (hc : calm pc = true) :
    (x.perform pc.act).eng = x.eng ∧ Quiet phys bus (x.perform pc.act) ∧
      (x.perform pc.act).invs = x.invs := by
  cases pc with
  | virt | raised | ret _ => exact ⟨rfl, h, rfl⟩
  | ack v =>
    refine ⟨rfl, ⟨?_, h.invs, h.queued, h.printed, h.shown⟩, rfl⟩
    exact (BitVec.getLsbD_and ..).trans (by rw [h.raised, Bool.false_and])
  | cmd | ackint _ | init | schedule => cases hc

/-- Besides the card nothing changes while no completion was raised. -/
theorem Quiet.env (h : Quiet phys bus x) {e : Beside} (hb : e ≠ .byte) (hc : e ≠ .complete)
    (he : Transfer.env phys x e = some y) : y.eng = x.eng ∧ Quiet phys bus y := by
  cases e with
  | byte => exact absurd rfl hb
  | complete => exact absurd rfl hc
  | tick =>
    obtain rfl := Option.some.inj he
    refine ⟨rfl, ?_, h.invs, h.queued, h.printed, h.shown⟩
    exact (BitVec.getLsbD_or ..).trans (by rw [h.raised]; rfl)
  | irq =>
    simp only [Transfer.env] at he
    split_ifs at he
    obtain rfl := Option.some.inj he
    refine ⟨rfl, h.raised, fun pc hpc => ?_, h.queued, h.printed, h.shown⟩
    rcases List.mem_append.mp hpc with hpc | hpc
    · exact h.invs pc hpc
    · rw [List.mem_singleton.mp hpc]
      rfl
  | handler i =>
    simp only [Transfer.env] at he
    split at he
    · cases he
    rename_i pc hi
    have hpc := h.invs pc (List.mem_of_getElem? hi)
    obtain ⟨heng, hq, hinvs⟩ := calm_perform h hpc
    split at he
    · rename_i pc' hn
      obtain rfl := Option.some.inj he
      refine ⟨heng, hq.raised, fun u hu => ?_, hq.queued, hq.printed, hq.shown⟩
      rcases List.mem_or_eq_of_mem_set hu with hu | rfl
      · exact h.invs u hu
      · exact calm_next h hpc hn
    · obtain rfl := Option.some.inj he
      exact ⟨heng, hq.raised, fun u hu => h.invs u (List.mem_of_mem_eraseIdx hu), hq.queued,
        hq.printed, hq.shown⟩
  | tasklet =>
    simp only [Transfer.env] at he
    rw [if_pos h.queued] at he
    cases he

theorem env_idle (h : x.eng.busy = false) {e : Beside} (he : env phys x e = some y) :
    e ≠ .byte ∧ e ≠ .complete := by
  constructor
  · rintro rfl
    simp [env, h] at he
  · rintro rfl
    simp [env, h] at he

theorem stable_idle (E : Engine → Prop) : Stable (env phys) (Idle phys bus E) := by
  intro x e y h he
  obtain ⟨hb, hc⟩ := env_idle h.idle he
  obtain ⟨heng, hq⟩ := h.quiet.env hb hc he
  exact ⟨heng ▸ h.eng, heng ▸ h.idle, hq⟩

/-- A byte of a transfer changes neither the registers nor who owns the page. -/
theorem byte_keeps (z : Engine) : (z.byte phys).cmd = z.cmd ∧ (z.byte phys).sent = z.sent + 1 ∧
    (z.byte phys).freed = z.freed ∧
    ∀ src dst, Regs src dst z → Regs src dst (z.byte phys) := by
  unfold Engine.byte Engine.store
  split_ifs
  · exact ⟨rfl, rfl, rfl, fun _ _ h => ⟨h.src, h.dst, h.count⟩⟩
  · exact ⟨rfl, rfl, rfl, fun _ _ h => ⟨h.src, h.dst, h.count⟩⟩
  · exact ⟨rfl, rfl, rfl, fun _ _ h => ⟨h.src, h.dst, h.count⟩⟩

theorem byte_live {z : Engine} {live : Bool} (h : Live live z) : Live live (z.byte phys) := by
  intro hl
  obtain ⟨hf, hs⟩ := h hl
  refine ⟨(byte_keeps z).2.2.1.trans hf, ?_⟩
  unfold Engine.byte Engine.store
  split_ifs
  · simp [hf, hs]
  · exact hs
  · exact hs

theorem idle_after (c : BitVec 32) : (c &&& ~~~1).getLsbD 0 = false := by
  rw [BitVec.getLsbD_and]
  simp

theorem stable_going {c src dst : BitVec 32} {E : ℕ → Engine → Prop} (h7 : c.getLsbD 7 = true)
    (hbyte : ∀ z : Engine, Regs src dst z → z.cmd = c → z.sent < 10 → E z.sent z →
      E (z.sent + 1) (z.byte phys))
    (hcmd : ∀ (z : Engine) (v : BitVec 32), E 10 z → E 10 { z with cmd := v }) :
    Stable (env phys) (Going phys bus c src dst E) := by
  intro x e y h he
  have hcount : x.eng.count.toNat = 10 := by
    rw [h.regs.count]
    rfl
  by_cases hb : e = .byte
  · subst hb
    simp only [env] at he
    split_ifs at he with hgo
    obtain rfl := Option.some.inj he
    rcases h.sent with ⟨hc, -, hE⟩ | ⟨hidle, -⟩
    · obtain ⟨h1, h2, -, h3⟩ := @byte_keeps phys x.eng
      refine ⟨h3 _ _ h.regs, ⟨h.quiet.raised, h.quiet.invs, h.quiet.queued, h.quiet.printed,
        h.quiet.shown⟩, .inl ⟨h1.trans hc, ?_, ?_⟩⟩
      · rw [h2]
        omega
      · rw [h2]
        exact hbyte _ h.regs hc (by omega) hE
    · rw [hgo.1] at hidle
      cases hidle
  by_cases hc : e = .complete
  · subst hc
    simp only [env] at he
    split_ifs at he with hgo h7'
    all_goals obtain rfl := Option.some.inj he
    all_goals rcases h.sent with ⟨hc, -, hE⟩ | ⟨hidle, -⟩
    · refine ⟨⟨h.regs.src, h.regs.dst, h.regs.count⟩, ⟨h.quiet.raised, h.quiet.invs,
        h.quiet.queued, h.quiet.printed, h.quiet.shown⟩, .inr ⟨idle_after _, ?_⟩⟩
      rw [hgo.2, hcount] at hE
      exact hcmd _ _ hE
    · rw [hgo.1] at hidle
      cases hidle
    · rw [hc] at h7'
      exact absurd h7 h7'
    · rw [hgo.1] at hidle
      cases hidle
  obtain ⟨heng, hq⟩ := h.quiet.env hb hc he
  exact ⟨heng ▸ h.regs, hq, heng ▸ h.sent⟩

theorem Done.perform (h : Done phys bus ram x) {pc : Handler} (hpc : pc ∈ x.invs) :
    Done phys bus ram (x.perform pc.act) ∧ (x.perform pc.act).invs = x.invs ∧
      ∀ live, Live live x.eng → Live live (x.perform pc.act).eng := by
  cases pc with
  | virt | raised | cmd | init | ret _ => exact ⟨h, rfl, fun _ hl => hl⟩
  | ack v => exact ⟨⟨h.idle, h.good, h.acks, h.shown, h.printed⟩, rfl, fun _ hl => hl⟩
  | schedule => exact ⟨⟨h.idle, h.good, h.acks, h.shown, h.printed⟩, rfl, fun _ hl => hl⟩
  | ackint c =>
    -- bit 0 was clear when `CMD` was read, so this starts nothing
    have h0 : (c ||| 1 <<< 31).getLsbD 0 = false := by
      rw [BitVec.getLsbD_or, h.acks c hpc]
      rfl
    have heng : (x.perform (Handler.ackint c).act).eng = { x.eng with cmd := c ||| 1 <<< 31 } := by
      show x.eng.command (c ||| 1 <<< 31) = _
      rw [Engine.command, if_neg (by rw [h0]; nofun)]
    refine ⟨⟨?_, ?_, h.acks, h.shown, h.printed⟩, rfl, fun live hl => ?_⟩
    · rw [heng]
      exact h0
    · rw [heng]
      exact h.good.congr rfl rfl
    · rw [heng]
      exact hl

theorem Done.env (h : Done phys bus ram x) {e : Beside} (he : Transfer.env phys x e = some y) :
    Done phys bus ram y ∧ ∀ live, Live live x.eng → Live live y.eng := by
  obtain ⟨hb, hc⟩ := env_idle h.idle he
  cases e with
  | byte => exact absurd rfl hb
  | complete => exact absurd rfl hc
  | tick =>
    obtain rfl := Option.some.inj he
    exact ⟨⟨h.idle, h.good, h.acks, h.shown, h.printed⟩, fun _ hl => hl⟩
  | irq =>
    simp only [Transfer.env] at he
    split_ifs at he
    obtain rfl := Option.some.inj he
    refine ⟨⟨h.idle, h.good, fun c hcm => h.acks c ?_, h.shown, h.printed⟩, fun _ hl => hl⟩
    rcases List.mem_append.mp hcm with hcm | hcm
    · exact hcm
    · cases List.mem_singleton.mp hcm
  | handler i =>
    simp only [Transfer.env] at he
    split at he
    · cases he
    rename_i pc hi
    obtain ⟨hd, hinvs, hlive⟩ := h.perform (List.mem_of_getElem? hi)
    split at he
    · rename_i pc' hn
      obtain rfl := Option.some.inj he
      refine ⟨⟨hd.idle, hd.good, fun c hcm => ?_, hd.shown, hd.printed⟩, hlive⟩
      rcases List.mem_or_eq_of_mem_set hcm with hcm | heq
      · exact h.acks c hcm
      · -- `CMD` was read now
        subst heq
        cases pc with
        | cmd =>
          obtain rfl := Handler.ackint.inj (Option.some.inj hn)
          exact h.idle
        | virt | ackint _ | init | schedule => cases Option.some.inj hn
        | raised =>
          have := Option.some.inj hn
          split_ifs at this
        | ack v =>
          have := Option.some.inj hn
          split_ifs at this
        | ret _ => cases hn
    · obtain rfl := Option.some.inj he
      exact ⟨⟨hd.idle, hd.good, fun c hcm => h.acks c (List.mem_of_mem_eraseIdx hcm), hd.shown,
        hd.printed⟩, hlive⟩
  | tasklet =>
    simp only [Transfer.env] at he
    split_ifs at he with h0 hf
    · obtain rfl := Option.some.inj he
      exact ⟨⟨h.idle, h.good, h.acks, h.shown, h.printed⟩, fun _ hl => hl⟩
    · obtain rfl := Option.some.inj he
      refine ⟨⟨h.idle, h.good, h.acks, h.shown, fun o ho => ?_⟩, fun _ hl => hl⟩
      rcases List.mem_append.mp ho with ho | ho
      · exact h.printed o ho
      · rw [List.mem_singleton.mp ho]
        exact h.good.printed

theorem stable_last (live : Bool) : Stable (env phys) (Last phys bus ram live) := by
  rintro x e y ⟨hl, ⟨hr, hq, hc, hs, hg⟩ | hd⟩ he
  · have hcount : x.eng.count.toNat = 10 := by
      rw [hr.count]
      rfl
    by_cases hb : e = .byte
    · subst hb
      simp only [env] at he
      split_ifs at he with hgo
      obtain rfl := Option.some.inj he
      obtain ⟨h1, h2, -, h3⟩ := @byte_keeps phys x.eng
      refine ⟨byte_live hl, .inl ⟨h3 _ _ hr, ⟨hq.raised, hq.invs, hq.queued, hq.printed, hq.shown⟩,
        h1.trans hc, ?_, ?_⟩⟩
      · simp only [h2]
        omega
      · simp only [h2]
        exact Good.byte_toPage (by decide : 0 < 2) (by decide) hg (by omega) (.inr hc) hr.src hr.dst
    by_cases hcm : e = .complete
    · subst hcm
      simp only [env] at he
      split_ifs at he with hgo h7
      all_goals obtain rfl := Option.some.inj he
      · rw [hc] at h7
        cases h7
      · refine ⟨hl, .inr ⟨idle_after _, ?_, fun c hcm => ?_, hq.shown, ?_⟩⟩
        · rw [hgo.2, hcount] at hg
          exact hg.congr rfl rfl
        · have := hq.invs _ hcm
          cases this
        · intro o ho
          rw [hq.printed] at ho
          cases ho
    obtain ⟨heng, hq'⟩ := hq.env hb hcm he
    refine ⟨heng ▸ hl, .inl ⟨heng ▸ hr, hq', heng ▸ hc, heng ▸ hs, heng ▸ hg⟩⟩
  · obtain ⟨hd', hl'⟩ := hd.env he
    exact ⟨hl' live hl, .inr hd'⟩

end Assertions

/-! ### The outline of the driver -/

section Program

variable (phys : BitVec 32) (bus ram : Mem)

/-- Only the first 30 bytes of the page and 10 bytes of the card are stored to. -/
def Framed (z : Engine) : Prop :=
  (∀ a, (∀ k < 30, a ≠ behind phys k) → z.bus a = bus a) ∧
    ∀ a, (∀ k < 10, a ≠ behind 0x40000 k) → z.ram a = ram a

/-- What holds all along. -/
structure Throughout (x : World) : Prop where
  framed : Framed phys bus ram x.eng
  acks : ∀ c, .ackint c ∈ x.invs → x.eng.busy = false ∧ c.getLsbD 0 = false
  shown : Shown phys bus x
  printed : Printed phys bus x

/-- The registers that make a transfer. -/
def ofTransfer : Reg → Bool
  | .SRC | .DST | .COUNT | .CMD => true
  | _ => false

/-- What holds before a statement. -/
def Before : Stmt → World → Prop
  | .inl (.writel _ r), x => ofTransfer r = true → x.eng.busy = false
  | _, _ => True

/-- The probe has failed. -/
abbrev Failed : World → Prop := Idle phys bus (Framed phys bus ram)

/-- An outline for a part of the driver. -/
abbrev Outlined : (World → Prop) → List Stmt → (World → Prop) → Prop :=
  Outline (exec phys) (env phys) (Throughout phys bus ram) Before
    (Failed phys bus ram)

variable {phys bus ram} {x : World}

theorem Good.framed {n m : ℕ} {z : Engine} (h : Good phys bus ram n m z) (hn : n ≤ 30) :
    Framed phys bus ram z :=
  ⟨fun a ha => h.rest a fun k hk => ha k (by omega), h.around⟩

theorem Quiet.throughout (h : Quiet phys bus x) (hf : Framed phys bus ram x.eng) :
    Throughout phys bus ram x where
  framed := hf
  acks c hc := by
    have := h.invs _ hc
    cases this
  shown := h.shown
  printed o ho := by
    rw [h.printed] at ho
    cases ho

theorem Last.throughout {live : Bool} (h : Last phys bus ram live x) : Throughout phys bus ram x := by
  rcases h with ⟨-, ⟨-, hq, -, hs, hg⟩ | hd⟩
  · exact hq.throughout (hg.framed (by omega))
  · exact ⟨hd.good.framed le_rfl, fun c hc => ⟨hd.idle, hd.acks c hc⟩, hd.shown, hd.printed⟩

theorem Idle.failed {E : Engine → Prop} (hE : ∀ z, E z → Framed phys bus ram z)
    (h : Idle phys bus E x) : Failed phys bus ram x :=
  ⟨hE _ h.eng, h.idle, h.quiet⟩

theorem Idle.throughout {E : Engine → Prop} (hE : ∀ z, E z → Framed phys bus ram z)
    (h : Idle phys bus E x) : Throughout phys bus ram x :=
  h.quiet.throughout (hE _ h.eng)

theorem leads_plain {st : Probe} {P F : World → Prop} (hst : ∀ x, probe phys x st = (x, .next))
    (hF : st.fallible = true → ∀ x, P x → F x) : Leads (exec phys) (.inl st) P P F := by
  intro x a y k hP hy
  simp only [exec, hst] at hy
  split_ifs at hy with hf
  · obtain ⟨rfl, rfl⟩ := Prod.mk.inj (Option.some.inj hy)
    exact hF hf.1 x hP
  · obtain ⟨rfl, rfl⟩ := Prod.mk.inj (Option.some.inj hy)
    exact hP

theorem leads_writel {w : Word} {r : Reg} {P Q F : World → Prop}
    (h : ∀ x, P x → Q (x.writel (w.val ⟨NULL, NULL, phys⟩) r)) :
    Leads (exec phys) (.inl (.writel w r)) P Q F := by
  intro x a y k hP hy
  obtain ⟨rfl, rfl⟩ := Prod.mk.inj (Option.some.inj hy)
  exact h x hP

theorem outlined_plain {E : Engine → Prop} (hE : ∀ z, E z → Framed phys bus ram z)
    {p : List Probe} (hp : ∀ st ∈ p, (∀ x, probe phys x st = (x, .next)) ∧
      ∀ w r, st = .writel w r → ofTransfer r = false) :
    Outlined phys bus ram (Idle phys bus E) (p.map .inl) (Idle phys bus E) := by
  refine Outline.same (stable_idle E) (fun x hx => hx.throughout hE) (fun st hst x hx => ?_)
    fun st hst => ?_
  · obtain ⟨st, hmem, rfl⟩ := List.mem_map.mp hst
    cases st with
    | writel w r =>
      intro ht
      rw [(hp _ hmem).2 w r rfl] at ht
      cases ht
    | _ => trivial
  · obtain ⟨st, hmem, rfl⟩ := List.mem_map.mp hst
    exact leads_plain (hp _ hmem).1 fun _ x hx => hx.failed hE

/-- What is said of an engine is about its memories and the page. -/
def Blind (E : Engine → Prop) : Prop :=
  ∀ z z' : Engine, z'.bus = z.bus → z'.ram = z.ram → z'.freed = z.freed → z'.stale = z.stale →
    E z → E z'

theorem blind_right (n m : ℕ) : Blind (Right phys bus ram n m) :=
  fun _ _ hb hr hf hs h => ⟨h.1.congr hb hr, hf.trans h.2.1, hs.trans h.2.2⟩

/-- A register of a transfer is written while the card is idle. -/
theorem outlined_reg {E G : Engine → Prop} (hE : ∀ z, E z → Framed phys bus ram z)
    (hG : ∀ z, G z → Framed phys bus ram z) {w : Word} {r : Reg}
    (h : ∀ x, Idle phys bus E x → Idle phys bus G (x.writel (w.val ⟨NULL, NULL, phys⟩) r)) :
    Outlined phys bus ram (Idle phys bus E) [.inl (.writel w r)] (Idle phys bus G) :=
  .one (stable_idle E) (stable_idle G) (fun _ hx => hx.throughout hE)
    (fun _ hx => hx.throughout hG) (fun _ hx _ => hx.idle) (leads_writel h)

theorem outlined_regs {E : Engine → Prop} (hB : Blind E) (hE : ∀ z, E z → Framed phys bus ram z)
    (src dst : Word) :
    Outlined phys bus ram (Idle phys bus E)
      ([.writel src .SRC, .writel dst .DST, .writel (.const 10) .COUNT].map .inl)
      (Idle phys bus fun z =>
        E z ∧ Regs (src.val ⟨NULL, NULL, phys⟩) (dst.val ⟨NULL, NULL, phys⟩) z) := by
  have h1 : Outlined phys bus ram (Idle phys bus E) [.inl (.writel src .SRC)]
      (Idle phys bus fun z => E z ∧ z.src = src.val ⟨NULL, NULL, phys⟩) :=
    outlined_reg hE (fun z hz => hE z hz.1) fun x hx =>
      ⟨⟨hB x.eng _ rfl rfl rfl rfl hx.eng, rfl⟩, hx.idle, hx.quiet.raised, hx.quiet.invs,
        hx.quiet.queued, hx.quiet.printed, hx.quiet.shown⟩
  have h2 : Outlined phys bus ram (Idle phys bus fun z => E z ∧ z.src = src.val ⟨NULL, NULL, phys⟩)
      [.inl (.writel dst .DST)] (Idle phys bus fun z => E z ∧
        z.src = src.val ⟨NULL, NULL, phys⟩ ∧ z.dst = dst.val ⟨NULL, NULL, phys⟩) :=
    outlined_reg (fun z hz => hE z hz.1) (fun z hz => hE z hz.1) fun x hx =>
      ⟨⟨hB x.eng _ rfl rfl rfl rfl hx.eng.1, hx.eng.2, rfl⟩, hx.idle, hx.quiet.raised,
        hx.quiet.invs, hx.quiet.queued, hx.quiet.printed, hx.quiet.shown⟩
  have h3 : Outlined phys bus ram (Idle phys bus fun z => E z ∧
        z.src = src.val ⟨NULL, NULL, phys⟩ ∧ z.dst = dst.val ⟨NULL, NULL, phys⟩)
      [.inl (.writel (.const 10) .COUNT)] (Idle phys bus fun z =>
        E z ∧ Regs (src.val ⟨NULL, NULL, phys⟩) (dst.val ⟨NULL, NULL, phys⟩) z) :=
    outlined_reg (fun z hz => hE z hz.1) (fun z hz => hE z hz.1) fun x hx =>
      ⟨⟨hB x.eng _ rfl rfl rfl rfl hx.eng.1, hx.eng.2.1, hx.eng.2.2, rfl⟩, hx.idle,
        hx.quiet.raised, hx.quiet.invs, hx.quiet.queued, hx.quiet.printed, hx.quiet.shown⟩
  exact h1.append (h2.append h3)

/-- **A transfer** without an interrupt, and the wait for its end. -/
theorem outlined_transfer {E : ℕ → Engine → Prop} (hB : ∀ n, Blind (E n))
    (hE : ∀ n ≤ 10, ∀ z, E n z → Framed phys bus ram z) {src dst : Word} {c : BitVec 32}
    (h0 : c.getLsbD 0 = true) (h7 : c.getLsbD 7 = true)
    (hbyte : ∀ z : Engine, Regs (src.val ⟨NULL, NULL, phys⟩) (dst.val ⟨NULL, NULL, phys⟩) z →
      z.cmd = c → z.sent < 10 → E z.sent z → E (z.sent + 1) (z.byte phys)) :
    Outlined phys bus ram (Idle phys bus (E 0)) ((transfer src dst c ++ [Probe.wait]).map .inl)
      (Idle phys bus (E 10)) := by
  have hgo : Stable (env phys) (Going phys bus c (src.val ⟨NULL, NULL, phys⟩)
      (dst.val ⟨NULL, NULL, phys⟩) E) :=
    stable_going h7 hbyte fun z v hz => hB 10 z _ rfl rfl rfl rfl hz
  have hthr : ∀ x, Going phys bus c (src.val ⟨NULL, NULL, phys⟩) (dst.val ⟨NULL, NULL, phys⟩) E x →
      Throughout phys bus ram x := by
    intro x hx
    refine hx.quiet.throughout ?_
    rcases hx.sent with ⟨-, hle, hz⟩ | ⟨-, hz⟩
    · exact hE _ hle _ hz
    · exact hE 10 le_rfl _ hz
  have h1 := outlined_regs (hB 0) (hE 0 (Nat.zero_le _)) src dst
  have h2 : Outlined phys bus ram (Idle phys bus fun z => E 0 z ∧
        Regs (src.val ⟨NULL, NULL, phys⟩) (dst.val ⟨NULL, NULL, phys⟩) z)
      [.inl (.writel (.const c) .CMD)]
      (Going phys bus c (src.val ⟨NULL, NULL, phys⟩) (dst.val ⟨NULL, NULL, phys⟩) E) := by
    refine .one (stable_idle _) hgo
      (fun x hx => hx.throughout fun z hz => hE 0 (Nat.zero_le _) z hz.1) hthr
      (fun x hx _ => hx.idle) (leads_writel fun x hx => ?_)
    have heng : (x.writel c .CMD).eng = { x.eng with cmd := c, sent := 0 } := by
      show x.eng.command c = _
      rw [Engine.command, if_pos h0]
    refine ⟨?_, ⟨hx.quiet.raised, hx.quiet.invs, hx.quiet.queued, hx.quiet.printed,
      hx.quiet.shown⟩, .inl ?_⟩
    · exact heng ▸ ⟨hx.eng.2.src, hx.eng.2.dst, hx.eng.2.count⟩
    · exact heng ▸ ⟨rfl, Nat.zero_le _, hB 0 x.eng _ rfl rfl rfl rfl hx.eng.1⟩
  have h3 : Outlined phys bus ram
      (Going phys bus c (src.val ⟨NULL, NULL, phys⟩) (dst.val ⟨NULL, NULL, phys⟩) E) [.inl .wait]
      (Idle phys bus (E 10)) := by
    refine .one hgo (stable_idle _) hthr (fun x hx => hx.throughout (hE 10 le_rfl))
      (fun _ _ => trivial) fun x a y k hx hy => ?_
    obtain ⟨rfl, rfl⟩ := Prod.mk.inj (Option.some.inj hy)
    rcases hx.sent with ⟨hc, -, -⟩ | ⟨hidle, hz⟩
    · rw [hc, h0]
      exact hx
    · rw [show x.eng.cmd.getLsbD 0 = false from hidle]
      exact ⟨hz, hidle, hx.quiet⟩
  exact h1.append (h2.append h3)

theorem outlined_last : Outlined phys bus ram (Idle phys bus (Right phys bus ram 20 10))
    ((transfer (.const 0x40000) (.phys 0x14) toPageIntr).map .inl) (Last phys bus ram true) := by
  have hE : ∀ z, Right phys bus ram 20 10 z → Framed phys bus ram z :=
    fun z hz => hz.1.framed (by decide)
  have h1 := outlined_regs (blind_right 20 10) hE (.const 0x40000) (.phys 0x14)
  refine h1.append (.one (stable_idle _) (stable_last true)
    (fun x hx => hx.throughout fun z hz => hE z hz.1) (fun x hx => hx.throughout)
    (fun x hx _ => hx.idle) (leads_writel fun x hx => ?_))
  have heng : (x.writel toPageIntr .CMD).eng = { x.eng with cmd := toPageIntr, sent := 0 } := by
    show x.eng.command toPageIntr = _
    rw [Engine.command, if_pos (by decide)]
  have hregs : Regs 0x40000 (behind phys 20) (x.writel toPageIntr .CMD).eng := by
    rw [heng]
    exact ⟨hx.eng.2.src, hx.eng.2.dst, hx.eng.2.count⟩
  have hgood : Good phys bus ram (20 + (x.writel toPageIntr .CMD).eng.sent) 10
      (x.writel toPageIntr .CMD).eng := by
    rw [heng]
    exact hx.eng.1.1.congr rfl rfl
  have hlive : Live true (x.writel toPageIntr .CMD).eng := by
    rw [heng]
    exact fun _ => hx.eng.1.2
  exact ⟨hlive, .inl ⟨hregs, ⟨hx.quiet.raised, hx.quiet.invs, hx.quiet.queued, hx.quiet.printed,
    hx.quiet.shown⟩, congrArg Engine.cmd heng, (congrArg Engine.sent heng).trans_le (Nat.zero_le _),
    hgood⟩⟩

/-- The statements after the third transfer that leave the page alone. -/
def unnoticed : Stmt → Bool
  | .inl .mod_timer => true
  | .inl _ => false
  | .inr st => st ≠ .dma_free_coherent

theorem exec_unnoticed {st : Stmt} (h : unnoticed st = true) {a : ℤ} {y : World} {k : Then}
    (hy : exec phys st a x = some (y, k)) : k = .next ∧ (y = x ∨ y = { x with irq := false }) := by
  rcases st with st | st
  · cases st <;> cases h
    obtain ⟨rfl, rfl⟩ := Prod.mk.inj (Option.some.inj hy)
    exact ⟨rfl, .inl rfl⟩
  · cases st with
    | tasklet_kill =>
      simp only [exec] at hy
      split_ifs at hy
      obtain ⟨rfl, rfl⟩ := Prod.mk.inj (Option.some.inj hy)
      exact ⟨rfl, .inl rfl⟩
    | free_irq =>
      simp only [exec] at hy
      split_ifs at hy
      obtain ⟨rfl, rfl⟩ := Prod.mk.inj (Option.some.inj hy)
      exact ⟨rfl, .inr rfl⟩
    | dma_free_coherent => cases h
    | _ =>
      obtain ⟨rfl, rfl⟩ := Prod.mk.inj (Option.some.inj hy)
      exact ⟨rfl, .inl rfl⟩

theorem Last.irq {live : Bool} (h : Last phys bus ram live x) (b : Bool) :
    Last phys bus ram live { x with irq := b } := by
  rcases h with ⟨hl, ⟨hr, hq, hc, hs, hg⟩ | hd⟩
  · exact ⟨hl, .inl ⟨hr, ⟨hq.raised, hq.invs, hq.queued, hq.printed, hq.shown⟩, hc, hs, hg⟩⟩
  · exact ⟨hl, .inr ⟨hd.idle, hd.good, hd.acks, hd.shown, hd.printed⟩⟩

/-- Such statements, while the third transfer goes on. -/
theorem outlined_after {live : Bool} {p : List Stmt} (hp : ∀ st ∈ p, unnoticed st = true) :
    Outlined phys bus ram (Last phys bus ram live) p (Last phys bus ram live) := by
  refine Outline.same (stable_last live) (fun x hx => hx.throughout) (fun st hst x hx => ?_)
    fun st hst x a y k hx hy => ?_
  · have hu := hp st hst
    rcases st with st | st
    · cases st <;> trivial
    · cases st <;> trivial
  · obtain ⟨rfl, rfl | rfl⟩ := exec_unnoticed (hp st hst) hy
    · exact hx
    · exact hx.irq false

/-- **The outline of `my_probe` and `my_remove`.** -/
theorem outlined : Outlined phys bus ram (Idle phys bus (Right phys bus ram 0 0)) program
    (Last phys bus ram false) := by
  have hR : ∀ n m, n ≤ 30 → ∀ z, Right phys bus ram n m z → Framed phys bus ram z :=
    fun n m hn z hz => hz.1.framed hn
  have h1 : Outlined phys bus ram (Idle phys bus (Right phys bus ram 0 0))
      ([Probe.printk, .kmalloc_task, .pci_enable_device, .pci_set_dma_mask, .pci_set_master,
        .pci_request_region, .pci_ioremap_bar, .kmalloc_p, .dma_alloc_coherent].map .inl)
      (Idle phys bus (Right phys bus ram 0 0)) := by
    refine outlined_plain (hR 0 0 (by decide)) ?_
    simp [probe]
  have h2 : Outlined phys bus ram (Idle phys bus (Right phys bus ram 0 0)) [.inl .strcpy]
      (Idle phys bus (Right phys bus ram 10 0)) := by
    refine .one (stable_idle _) (stable_idle _) (fun x hx => hx.throughout (hR 0 0 (by decide)))
      (fun x hx => hx.throughout (hR 10 0 (by decide))) (fun _ _ => trivial) fun x a y k hx hy => ?_
    obtain ⟨rfl, rfl⟩ := Prod.mk.inj (Option.some.inj hy)
    exact ⟨⟨hx.eng.1.strcpy, hx.eng.2⟩, hx.idle, hx.quiet.raised, hx.quiet.invs, hx.quiet.queued,
      hx.quiet.printed, hx.quiet.shown⟩
  have h3 : Outlined phys bus ram (Idle phys bus (Right phys bus ram 10 0))
      ((transfer (.phys 0) (.const 0x40000) toCard ++ [Probe.wait]).map .inl)
      (Idle phys bus (Right phys bus ram 10 10)) := by
    refine outlined_transfer (fun n => blind_right 10 n) (fun n _ => hR 10 n (by decide))
      (by decide) (by decide) fun z hr hc hs hz => ?_
    have hsrc : z.src = phys := hr.src.trans (BitVec.add_zero phys)
    exact ⟨hz.1.byte_toCard hs hc hsrc hr.dst, byte_live (fun _ => hz.2) rfl⟩
  have h4 : Outlined phys bus ram (Idle phys bus (Right phys bus ram 10 10))
      ((transfer (.const 0x40000) (.phys 0xa) toPage ++ [Probe.wait]).map .inl)
      (Idle phys bus (Right phys bus ram 20 10)) := by
    refine @outlined_transfer phys bus ram (fun n => Right phys bus ram (10 + n) 10)
      (fun n => blind_right _ _) (fun n hn => hR _ 10 (by omega)) _ _ _ (by decide) (by decide)
      fun z hr hc hs hz => ?_
    exact ⟨Good.byte_toPage (by decide : 0 < 1) (by decide) hz.1 hs (.inl hc) hr.src hr.dst,
      byte_live (fun _ => hz.2) rfl⟩
  have h5 : Outlined phys bus ram (Idle phys bus (Right phys bus ram 20 10)) [.inl .show_page]
      (Idle phys bus (Right phys bus ram 20 10)) := by
    refine .one (stable_idle _) (stable_idle _) (fun x hx => hx.throughout (hR 20 10 (by decide)))
      (fun x hx => hx.throughout (hR 20 10 (by decide))) (fun _ _ => trivial)
      fun x a y k hx hy => ?_
    obtain ⟨rfl, rfl⟩ := Prod.mk.inj (Option.some.inj hy)
    refine ⟨hx.eng, hx.idle, hx.quiet.raised, hx.quiet.invs, hx.quiet.queued, hx.quiet.printed,
      fun o ho => ?_⟩
    rcases List.mem_append.mp ho with ho | ho
    · exact hx.quiet.shown o ho
    · rw [List.mem_singleton.mp ho]
      exact hx.eng.1.shown
  have h6 : Outlined phys bus ram (Idle phys bus (Right phys bus ram 20 10))
      ([Probe.setup_timer, .set_virt, .set_dma_virt, .set_dma_phys, .pci_set_drvdata].map .inl)
      (Idle phys bus (Right phys bus ram 20 10)) := by
    refine outlined_plain (hR 20 10 (by decide)) ?_
    simp [probe]
  have h7 : Outlined phys bus ram (Idle phys bus (Right phys bus ram 20 10)) [.inl .request_irq]
      (Idle phys bus (Right phys bus ram 20 10)) := by
    refine .one (stable_idle _) (stable_idle _) (fun x hx => hx.throughout (hR 20 10 (by decide)))
      (fun x hx => hx.throughout (hR 20 10 (by decide))) (fun _ _ => trivial)
      fun x a y k hx hy => ?_
    simp only [exec] at hy
    split_ifs at hy
    · obtain ⟨rfl, rfl⟩ := Prod.mk.inj (Option.some.inj hy)
      exact hx.failed (hR 20 10 (by decide))
    · obtain ⟨rfl, rfl⟩ := Prod.mk.inj (Option.some.inj hy)
      exact ⟨hx.eng, hx.idle, hx.quiet.raised, hx.quiet.invs, hx.quiet.queued, hx.quiet.printed,
        hx.quiet.shown⟩
  have h8 : Outlined phys bus ram (Idle phys bus (Right phys bus ram 20 10))
      ([Probe.writel (.const 0x1000) .ENABLE, .writel (.const 0x100) .ENABLE].map .inl)
      (Idle phys bus (Right phys bus ram 20 10)) := by
    refine outlined_plain (hR 20 10 (by decide)) ?_
    simp [probe, World.writel, ofTransfer]
  have h9 : Outlined phys bus ram (Last phys bus ram true)
      [.inl .mod_timer, .inr .printk, .inr .if_task, .inr .tasklet_kill, .inr .kfree_task,
        .inr .clear_task, .inr .pci_get_drvdata, .inr .del_timer_sync, .inr .free_irq]
      (Last phys bus ram true) := outlined_after (by decide)
  have h10 : Outlined phys bus ram (Last phys bus ram true) [.inr .dma_free_coherent]
      (Last phys bus ram false) := by
    refine .one (stable_last true) (stable_last false) (fun x hx => hx.throughout)
      (fun x hx => hx.throughout) (fun _ _ => trivial) fun x a y k hx hy => ?_
    obtain ⟨rfl, rfl⟩ := Prod.mk.inj (Option.some.inj hy)
    refine ⟨nofun, ?_⟩
    rcases hx.2 with ⟨hr, hq, hc, hs, hg⟩ | hd
    · exact .inl ⟨⟨hr.src, hr.dst, hr.count⟩, ⟨hq.raised, hq.invs, hq.queued, hq.printed, hq.shown⟩,
        hc, hs, hg.congr rfl rfl⟩
    · exact .inr ⟨hd.idle, hd.good.congr rfl rfl, hd.acks, hd.shown, hd.printed⟩
  have h11 : Outlined phys bus ram (Last phys bus ram false)
      [.inr .iounmap, .inr .pci_release_region, .inr .pci_disable_device, .inr .kfree_p]
      (Last phys bus ram false) := outlined_after (by decide)
  exact h1.append (h2.append (h3.append (h4.append (h5.append (h6.append (h7.append (h8.append
    (outlined_last.append (h9.append (h10.append h11))))))))))

theorem start_idle {src dst count cmd raised : BitVec 32} (hc : cmd.getLsbD 0 = false)
    (hr : raised.getLsbD 8 = false) :
    Idle phys bus (Right phys bus ram 0 0) (start src dst count cmd raised bus ram) :=
  ⟨⟨⟨nofun, fun _ _ => rfl, nofun, fun _ _ => rfl⟩, rfl, rfl⟩, hc,
    ⟨hr, fun _ h => (by cases h), rfl, rfl, fun _ h => (by cases h)⟩⟩

/-- The device is bound, and the handler and the tasklet run once. -/
def bound : List (ℤ ⊕ Beside) :=
  List.flatten
    [List.replicate 14 (.inl 0), List.replicate 10 (.inr .byte), [.inr .complete],
      List.replicate 5 (.inl 0), List.replicate 10 (.inr .byte), [.inr .complete],
      List.replicate 15 (.inl 0), List.replicate 10 (.inr .byte), [.inr .complete, .inr .irq],
      List.replicate 8 (.inr (.handler 0)), [.inr .tasklet]]

end Program

end Transfer
end Pb173
