/-
# The files of the phantom driver (10/example)

`phantom_open`, `phantom_write` and `phantom_release`, each as a whole call.
An open file keeps the address of its device in `private_data`, and nothing
tells it that the device is gone: what a call reaches for and does not find
is recorded in `stale`. `memcpy` from memory of the user that cannot be read
has no way to fail, so such a call does not return.
-/
import Pb173.Phantom

namespace Pb173
namespace Files

open Phantom

/-- What a file operation reaches for: a device, or its registers through a
mapping. -/
inductive Access
  | dev (p : Ptr)
  | io (a : Ptr)
deriving DecidableEq

/-- The driver, and the accesses to what was not there. -/
structure Host (D : Type*) where
  mod : Driver D
  stale : List Access

/-- A mapping at `a`. -/
def maps {D : Type*} (a : Ptr) : Res D → Bool
  | .iomap _ b => b == a
  | _ => false

/-- The device is allocated, the mapping is there. -/
def Reaches {D : Type*} (m : Driver D) : Access → Prop
  | .dev p => (m.heap.get p).isSome = true
  | .io a => ∃ r ∈ m.led.held, maps a r = true

instance {D : Type*} (m : Driver D) : ∀ a, Decidable (Reaches m a)
  | .dev p => inferInstanceAs (Decidable ((m.heap.get p).isSome = true))
  | .io _ => Multiset.decidableExistsMultiset

namespace Host

variable {D : Type*} (h : Host D)

/-- Reach for something. -/
def touch (a : Access) : Host D := if Reaches h.mod a then h else { h with stale := h.stale ++ [a] }

variable {h}

theorem touch_eq {a : Access} (ha : Reaches h.mod a) : h.touch a = h := if_pos ha

theorem touch_stale {a : Access} (ha : ¬ Reaches h.mod a) : (h.touch a).stale = h.stale ++ [a] := by
  unfold touch
  rw [if_neg ha]

@[simp] theorem mod_touch (a : Access) : (h.touch a).mod = h.mod := by
  unfold touch
  split <;> rfl

theorem stale_touch (a : Access) : h.stale <+: (h.touch a).stale := by
  unfold touch
  split
  · exact List.prefix_refl _
  · exact List.prefix_append _ _

end Host

/-! ### The calls -/

/-- `struct phm_reg`. -/
structure phm_reg where
  reg : BitVec 32
  value : BitVec 32
deriving DecidableEq

def sizeof_phm_reg : ℕ := 8

/-- Four bytes in memory, the lowest first. -/
def le32 (l : List UInt8) : BitVec 32 := l.foldr (fun b v => v <<< 8 ||| b.toBitVec.zeroExtend 32) 0

/-- The structure that the first bytes of `buf` are. -/
def phm_reg.of (buf : List UInt8) : phm_reg := ⟨le32 (buf.take 4), le32 ((buf.drop 4).take 4)⟩

section Calls

variable {D : Type*}

/-- `phantom_write`, `buf` being what can be read from the user's buffer on:
what it returns, if it does. -/
def phantom_write (dev : Ptr) (buf : List UInt8) (count : ℕ) (h : Host D) : Option ℤ × Host D :=
  if count ≠ sizeof_phm_reg then (some (-EINVAL), h)
  else if buf.length < sizeof_phm_reg then (none, h)
  else
    let r := phm_reg.of buf
    let h := h.touch (.dev dev)
    let iaddr := (h.mod.deref dev).iaddr
    let h := h.touch (.io iaddr)
    let h := { h with mod := h.mod.iowrite32 r.value iaddr (4 * r.reg.toNat) }
    let h := h.touch (.dev dev)
    let h := h.touch (.io (h.mod.deref dev).iaddr)
    (some count, h)

/-- `phantom_open` of the device at `dev`: an error, or `private_data`. The
lock lies in the device. -/
def phantom_open (dev : Ptr) (interrupted : Bool) (h : Host D) : Except ℤ Ptr × Host D :=
  let h := h.touch (.dev dev)
  if interrupted then (.error (-ERESTARTSYS), h)
  else if (h.mod.deref dev).opened ≠ 0 then (.error (-EBUSY), h)
  else (.ok dev,
    { h with mod := h.mod.modify dev fun x => { x with opened := (x.opened + 1) % 2 ^ 32 } })

def phantom_release (dev : Ptr) (h : Host D) : Host D :=
  let h := h.touch (.dev dev)
  { h with mod := h.mod.modify dev fun x => { x with opened := 0 } }

end Calls

/-! ### What the calls change -/

/-- What the file operations leave alone: all but `opened` of the devices, and
the writes to the registers. -/
structure Aside {D : Type*} (t m : Driver D) : Prop where
  led : t.led = m.led
  phantom_devices : t.phantom_devices = m.phantom_devices
  drvdata : t.drvdata = m.drvdata
  phantom_class : t.phantom_class = m.phantom_class
  phantom_major : t.phantom_major = m.phantom_major
  get : ∀ p, (t.heap.get p).map (fun x => { x with opened := 0 }) =
    (m.heap.get p).map fun x => { x with opened := 0 }

section Aside

variable {D : Type*} {t m : Driver D}

theorem Aside.refl (m : Driver D) : Aside m m := ⟨rfl, rfl, rfl, rfl, rfl, fun _ => rfl⟩

theorem Aside.of_get (h : Aside t m) {p : Ptr} {x : phantom_device} (hx : m.heap.get p = some x) :
    ∃ y, t.heap.get p = some y ∧ y.caddr = x.caddr ∧ y.iaddr = x.iaddr ∧ y.dev = x.dev := by
  have hp := h.get p
  rw [hx, Option.map_some, Option.map_eq_some_iff] at hp
  obtain ⟨y, hy, he⟩ := hp
  have hf := phantom_device.mk.inj he
  exact ⟨y, hy, hf.2.1, hf.2.2.1, hf.2.2.2⟩

theorem Aside.get_isSome (h : Aside t m) (p : Ptr) :
    (t.heap.get p).isSome = (m.heap.get p).isSome := by
  have hp := congrArg Option.isSome (h.get p)
  rwa [Option.isSome_map, Option.isSome_map] at hp

theorem aside_modify {f : phantom_device → phantom_device} (p : Ptr)
    (hf : ∀ x, ({ f x with opened := 0 } : phantom_device) = { x with opened := 0 }) :
    Aside (m.modify p f) m := by
  refine ⟨rfl, rfl, rfl, rfl, rfl, fun q => ?_⟩
  by_cases hq : q = p
  · subst hq
    rcases hx : m.heap.get q with _ | x
    · show ((m.heap.set q _).get q).map _ = _
      simp [Heap.set, hx]
    · rw [m.get_modify_self hx, Option.map_some, Option.map_some, hf]
  · rw [m.get_modify_of_ne hq]

theorem phantom_write_aside (dev : Ptr) (buf : List UInt8) (count : ℕ) (h : Host D) :
    Aside (phantom_write dev buf count h).2.mod h.mod := by
  unfold phantom_write
  split
  · exact .refl _
  split
  · exact .refl _
  · simp only [Host.mod_touch]
    exact ⟨rfl, rfl, rfl, rfl, rfl, fun _ => rfl⟩

theorem phantom_open_aside (dev : Ptr) (interrupted : Bool) (h : Host D) :
    Aside (phantom_open dev interrupted h).2.mod h.mod := by
  unfold phantom_open
  simp only
  split
  · rw [Host.mod_touch]
    exact .refl _
  split
  · rw [Host.mod_touch]
    exact .refl _
  · simp only [Host.mod_touch]
    exact aside_modify dev fun _ => rfl

theorem phantom_release_aside (dev : Ptr) (h : Host D) :
    Aside (phantom_release dev h).mod h.mod := by
  unfold phantom_release
  simp only [Host.mod_touch]
  exact aside_modify dev fun _ => rfl

end Aside

/-! ### What the calls reach for -/

section Reach

variable {D : Type*} {h : Host D} {dev : Ptr} {x : phantom_device}

theorem reaches_dev (hx : h.mod.heap.get dev = some x) : Reaches h.mod (.dev dev) := by
  show (h.mod.heap.get dev).isSome = true
  rw [hx]
  rfl

theorem not_reaches_dev (hx : h.mod.heap.get dev = none) : ¬ Reaches h.mod (.dev dev) := by
  show ¬ (h.mod.heap.get dev).isSome = true
  rw [hx]
  exact Bool.false_ne_true

/-- A write to a device that is there: one register of it is written. -/
theorem phantom_write_eq {buf : List UInt8} (hb : sizeof_phm_reg ≤ buf.length)
    (hx : h.mod.heap.get dev = some x) (hio : Reaches h.mod (.io x.iaddr)) :
    phantom_write dev buf sizeof_phm_reg h = (some (sizeof_phm_reg : ℤ),
      ⟨h.mod.iowrite32 (phm_reg.of buf).value x.iaddr (4 * (phm_reg.of buf).reg.toNat), h.stale⟩) := by
  have hd : Reaches h.mod (.dev dev) := reaches_dev hx
  unfold phantom_write
  rw [if_neg (by simp), if_neg (by omega)]
  simp only [Host.touch_eq hd, h.mod.deref_of hx, Host.touch_eq hio]
  set t : Host D :=
    ⟨h.mod.iowrite32 (phm_reg.of buf).value x.iaddr (4 * (phm_reg.of buf).reg.toNat), h.stale⟩ with ht
  have hd' : Reaches t.mod (.dev dev) := hd
  have hio' : Reaches t.mod (.io x.iaddr) := hio
  have hx' : t.mod.deref dev = x := t.mod.deref_of hx
  rw [Host.touch_eq hd', hx', Host.touch_eq hio']

/-- A write of the right size to a device that is gone reaches for it. -/
theorem phantom_write_stale {buf : List UInt8} (hb : sizeof_phm_reg ≤ buf.length)
    (hx : h.mod.heap.get dev = none) :
    (phantom_write dev buf sizeof_phm_reg h).2.stale ≠ [] := by
  unfold phantom_write
  rw [if_neg (by simp), if_neg (by omega)]
  -- what is recorded first stays recorded
  have hmem : Access.dev dev ∈ (h.touch (.dev dev)).stale := by
    rw [Host.touch_stale (not_reaches_dev hx)]
    exact List.mem_append_right _ (List.mem_singleton_self _)
  apply List.ne_nil_of_mem
  apply (Host.stale_touch _).subset
  apply (Host.stale_touch _).subset
  apply (Host.stale_touch _).subset
  exact hmem

theorem phantom_open_stale (interrupted : Bool) (hx : h.mod.heap.get dev = some x) :
    (phantom_open dev interrupted h).2.stale = h.stale := by
  unfold phantom_open
  simp only [Host.touch_eq (reaches_dev hx)]
  split
  · rfl
  split <;> rfl

/-- An open that succeeds leaves the address of the device in `private_data`. -/
theorem phantom_open_ok {interrupted : Bool} {p : Ptr}
    (ho : (phantom_open dev interrupted h).1 = .ok p) : p = dev := by
  unfold phantom_open at ho
  simp only at ho
  split at ho
  · cases ho
  split at ho
  · cases ho
  · exact (Except.ok.inj ho).symm

theorem phantom_release_stale (hs : h.stale = []) :
    (phantom_release dev h).stale = [] ↔ Reaches h.mod (.dev dev) := by
  constructor
  · intro ht
    by_contra hd
    have hc : (h.touch (.dev dev)).stale = [] := ht
    rw [Host.touch_stale hd] at hc
    exact absurd hc (by simp)
  · intro hd
    show (h.touch (.dev dev)).stale = []
    rw [Host.touch_eq hd, hs]

end Reach

end Files
end Pb173
