/-
# The phantom driver (10/example)

`phantom_probe` with its ladder of labels, `phantom_remove`, `phantom_init`
and `phantom_exit`, each as a whole call. What they hold is kept in a
ledger: a release of what is not held is recorded there. A call that fails
ends with the resources and the memory it started with
(`phantom_probe_error`, `phantom_init_error`); what a successful probe has
made is `owned`, and `phantom_remove` releases exactly that
(`phantom_probe_ok`, `phantom_remove_eq`).
-/
import Pb173.Heap
import Pb173.Kernel
import Pb173.Ladder
import Mathlib.Data.Nat.Bitwise
import Mathlib.Data.Vector.Basic
import Mathlib.Logic.Function.Basic

namespace Pb173
namespace Phantom

/-- A negative error number, as the kernel's functions return. -/
abbrev Err := { e : ℤ // e < 0 }

def PHANTOM_MAX_MINORS : ℕ := 8

def PHN_IRQCTL : ℕ := 0x4c

/-! ### Device numbers -/

def MINORBITS : ℕ := 20

def MKDEV (ma mi : ℕ) : ℕ := (ma <<< MINORBITS) ||| mi

def MAJOR (dev : ℕ) : ℕ := dev >>> MINORBITS

def MINOR (dev : ℕ) : ℕ := dev &&& (2 ^ MINORBITS - 1)

theorem MKDEV_eq {ma mi : ℕ} (h : mi < 2 ^ MINORBITS) : MKDEV ma mi = ma * 2 ^ MINORBITS + mi := by
  unfold MKDEV
  rw [← Nat.shiftLeft_add_eq_or_of_lt h, Nat.shiftLeft_eq]

theorem MINOR_MKDEV {ma mi : ℕ} (h : mi < 2 ^ MINORBITS) : MINOR (MKDEV ma mi) = mi := by
  unfold MINOR
  rw [MKDEV_eq h, Nat.and_two_pow_sub_one_eq_mod, Nat.mul_add_mod', Nat.mod_eq_of_lt h]

theorem MAJOR_MKDEV (ma : ℕ) : MAJOR (MKDEV ma 0) = ma := by
  unfold MAJOR
  rw [MKDEV_eq (Nat.two_pow_pos _), Nat.shiftRight_eq_div_pow, Nat.add_zero,
    Nat.mul_div_cancel _ (Nat.two_pow_pos _)]

/-! ### The state -/

/-- `struct phantom_device`; `dev` is `cdev.dev`. -/
structure phantom_device where
  opened : ℕ
  caddr : Ptr
  iaddr : Ptr
  dev : ℕ
deriving DecidableEq

/-- What the driver can hold. -/
inductive Res (D : Type*)
  | enabled (pdev : D)
  | minor (minor : ℕ)
  | regions (pdev : D)
  | pht (p : Ptr)
  | iomap (pdev : D) (a : Ptr)
  | irq (pdev : D) (p : Ptr)
  | cdev (p : Ptr) (dev : ℕ)
  | device (dev : ℕ)
  | cls (p : Ptr)
  | chrdev (dev : ℕ)
  | driver
deriving DecidableEq

/-- What `phantom_probe` reports. -/
inductive Msg
  | pci_enable_device | too_many | regions | alloc | conf | input | isr | chardev | device
deriving DecidableEq

def Msg.text : Msg → String
  | .pci_enable_device => "pci_enable_device failed!\n"
  | .too_many => "too many devices found!\n"
  | .regions => "pci_request_regions failed!\n"
  | .alloc => "unable to allocate device\n"
  | .conf => "can't remap conf space\n"
  | .input => "can't remap input space\n"
  | .isr => "can't establish ISR\n"
  | .chardev => "chardev registration failed\n"
  | .device => "can't create device\n"

/-- No two messages have one text: the log tells what has been printed. -/
theorem Msg.text_injective : Function.Injective Msg.text := by
  intro a b h
  cases a <;> cases b <;> first
    | rfl
    | exact absurd h (by decide)

/-- The globals of the driver, its memory and what the kernel keeps for it; the
log of `dev_err`, and that of the writes to the devices. -/
structure Driver (D : Type*) where
  phantom_class : Ptr
  phantom_major : ℕ
  phantom_devices : Vector UInt8 PHANTOM_MAX_MINORS
  heap : Heap phantom_device
  drvdata : D → Ptr
  led : Ledger (Res D)
  log : List (D × Msg)
  io : List (Ptr × ℕ × BitVec 32)

namespace Driver

variable {D : Type*} [DecidableEq D] (m : Driver D)

def acquire (r : Res D) : Driver D := { m with led := m.led.acquire r }

def release (r : Res D) : Driver D := { m with led := m.led.release r }

def dev_err (pdev : D) (msg : Msg) : Driver D := { m with log := m.log ++ [(pdev, msg)] }

def iowrite32 (v : BitVec 32) (a : Ptr) (off : ℕ) : Driver D := { m with io := m.io ++ [(a, off, v)] }

/-- `phantom_devices[minor] = 1`. -/
def mark (minor : ℕ) : Driver D :=
  { m with
    phantom_devices := m.phantom_devices.setIfInBounds minor 1
    led := m.led.acquire (.minor minor) }

/-- `phantom_devices[minor] = 0`. -/
def clear (minor : ℕ) : Driver D :=
  { m with
    phantom_devices := m.phantom_devices.setIfInBounds minor 0
    led := m.led.release (.minor minor) }

/-- `kzalloc` of a `phantom_device`, at `m.heap.next`. -/
def kzalloc : Driver D :=
  { m with heap := m.heap.alloc ⟨0, NULL, NULL, 0⟩, led := m.led.acquire (.pht m.heap.next) }

def kfree (p : Ptr) : Driver D := { m with heap := m.heap.free p, led := m.led.release (.pht p) }

/-- What is at `p`. -/
def deref (p : Ptr) : phantom_device := (m.heap.get p).getD ⟨0, NULL, NULL, 0⟩

/-- A write to what is at `p`. -/
def modify (p : Ptr) (f : phantom_device → phantom_device) : Driver D :=
  { m with heap := m.heap.set p (f (m.deref p)) }

omit [DecidableEq D] in
@[simp] theorem phantom_major_acquire (r : Res D) : (m.acquire r).phantom_major = m.phantom_major := rfl

omit [DecidableEq D] in
@[simp] theorem phantom_major_modify (p : Ptr) (f : phantom_device → phantom_device) :
    (m.modify p f).phantom_major = m.phantom_major := rfl

omit [DecidableEq D] in
@[simp] theorem log_dev_err (pdev : D) (msg : Msg) : (m.dev_err pdev msg).log = m.log ++ [(pdev, msg)] := rfl

omit [DecidableEq D] in
@[simp] theorem log_acquire (r : Res D) : (m.acquire r).log = m.log := rfl

@[simp] theorem log_release (r : Res D) : (m.release r).log = m.log := rfl

omit [DecidableEq D] in
@[simp] theorem log_iowrite32 (v : BitVec 32) (a : Ptr) (off : ℕ) : (m.iowrite32 v a off).log = m.log := rfl

omit [DecidableEq D] in
@[simp] theorem log_mark (minor : ℕ) : (m.mark minor).log = m.log := rfl

@[simp] theorem log_clear (minor : ℕ) : (m.clear minor).log = m.log := rfl

omit [DecidableEq D] in
@[simp] theorem log_kzalloc : m.kzalloc.log = m.log := rfl

@[simp] theorem log_kfree (p : Ptr) : (m.kfree p).log = m.log := rfl

omit [DecidableEq D] in
@[simp] theorem log_modify (p : Ptr) (f : phantom_device → phantom_device) :
    (m.modify p f).log = m.log := rfl

omit [DecidableEq D] in
theorem deref_of {p : Ptr} {x : phantom_device} (h : m.heap.get p = some x) : m.deref p = x := by
  unfold deref
  rw [h, Option.getD_some]

omit [DecidableEq D] in
theorem get_modify_self {p : Ptr} {x : phantom_device} {f : phantom_device → phantom_device}
    (h : m.heap.get p = some x) : (m.modify p f).heap.get p = some (f x) := by
  unfold modify
  rw [m.deref_of h]
  exact Heap.get_set_self h

omit [DecidableEq D] in
theorem get_modify_of_ne {p q : Ptr} {f : phantom_device → phantom_device} (h : q ≠ p) :
    (m.modify p f).heap.get q = m.heap.get q :=
  Heap.get_set_of_ne _ h

end Driver

/-! ### The calls -/

/-- The first slot that is 0, or `PHANTOM_MAX_MINORS`. -/
def phantom_get_free (phantom_devices : Vector UInt8 PHANTOM_MAX_MINORS) : ℕ :=
  phantom_devices.toList.findIdx fun c => c == 0

theorem phantom_get_free_le (v : Vector UInt8 PHANTOM_MAX_MINORS) :
    phantom_get_free v ≤ PHANTOM_MAX_MINORS := by
  unfold phantom_get_free
  apply List.findIdx_le_length.trans
  rw [Vector.length_toList]

theorem phantom_get_free_zero {v : Vector UInt8 PHANTOM_MAX_MINORS}
    (h : phantom_get_free v < PHANTOM_MAX_MINORS) : v[phantom_get_free v] = 0 := by
  have hl : (v.toList.findIdx fun c => c == 0) < v.toList.length := by
    rw [Vector.length_toList]
    exact h
  have := List.findIdx_getElem (w := hl)
  rw [beq_iff_eq, Vector.getElem_toList] at this
  exact this

theorem phantom_get_free_least {v : Vector UInt8 PHANTOM_MAX_MINORS} {i : ℕ}
    (hi : i < PHANTOM_MAX_MINORS) (h : i < phantom_get_free v) : v[i] ≠ 0 := by
  have := List.not_of_lt_findIdx h
  rw [Vector.getElem_toList] at this
  simpa using this

/-- A slot that was 0 is as it was when it has been marked and cleared. -/
theorem clear_mark {v : Vector UInt8 PHANTOM_MAX_MINORS} {i : ℕ} {hi : i < PHANTOM_MAX_MINORS}
    (h : v[i] = 0) : (v.setIfInBounds i 1).setIfInBounds i 0 = v := by
  ext j hj
  by_cases hij : i = j
  · subst hij
    rw [Vector.getElem_setIfInBounds_self, h]
  · rw [Vector.getElem_setIfInBounds_ne _ hij, Vector.getElem_setIfInBounds_ne _ hij]

/-- What the kernel answers to `phantom_probe`: an error, or an address. -/
structure Answers where
  pci_enable_device : Option Err
  pci_request_regions : Option Err
  kzalloc : Bool
  caddr : Ptr
  iaddr : Ptr
  request_irq : Option Err
  cdev_add : Option Err
  device_create : Bool

/-- The kernel grants all that a probe cannot do without; the node is not needed. -/
structure Answers.Granted (a : Answers) : Prop where
  pci_enable_device : a.pci_enable_device = none
  pci_request_regions : a.pci_request_regions = none
  kzalloc : a.kzalloc = true
  caddr : a.caddr ≠ NULL
  iaddr : a.iaddr ≠ NULL
  request_irq : a.request_irq = none
  cdev_add : a.cdev_add = none

section Probe

variable {D : Type*} [DecidableEq D]

/-! The labels of `phantom_probe`, from the lowest. -/

@[simp] def err_dis (pdev : D) (m : Driver D) : Driver D := m.release (.enabled pdev)

@[simp] def err_null (pdev : D) (minor : ℕ) (m : Driver D) : Driver D := err_dis pdev (m.clear minor)

@[simp] def err_reg (pdev : D) (minor : ℕ) (m : Driver D) : Driver D :=
  err_null pdev minor (m.release (.regions pdev))

@[simp] def err_fr (pdev : D) (minor : ℕ) (pht : Ptr) (m : Driver D) : Driver D :=
  err_reg pdev minor (m.kfree pht)

@[simp] def err_unmc (pdev : D) (minor : ℕ) (pht : Ptr) (m : Driver D) : Driver D :=
  err_fr pdev minor pht (m.release (.iomap pdev (m.deref pht).caddr))

@[simp] def err_unmi (pdev : D) (minor : ℕ) (pht : Ptr) (m : Driver D) : Driver D :=
  err_unmc pdev minor pht (m.release (.iomap pdev (m.deref pht).iaddr))

@[simp] def err_irq (pdev : D) (minor : ℕ) (pht : Ptr) (m : Driver D) : Driver D :=
  err_unmi pdev minor pht (m.release (.irq pdev pht))

/-- `phantom_probe`: what it returns, and the state. The locks and the
operations that `mutex_init` and `cdev_init` set are not looked at here. -/
def phantom_probe (pdev : D) (a : Answers) (m : Driver D) : ℤ × Driver D :=
  match a.pci_enable_device with
  | some e => (e, m.dev_err pdev .pci_enable_device)
  | none =>
  let m := m.acquire (.enabled pdev)
  let minor := phantom_get_free m.phantom_devices
  if minor = PHANTOM_MAX_MINORS then (- EIO, err_dis pdev (m.dev_err pdev .too_many))
  else
  let m := m.mark minor
  match a.pci_request_regions with
  | some e => (e, err_null pdev minor (m.dev_err pdev .regions))
  | none =>
  let m := m.acquire (.regions pdev)
  if a.kzalloc = false then (-ENOMEM, err_reg pdev minor (m.dev_err pdev .alloc))
  else
  let pht := m.heap.next
  let m := m.kzalloc
  if a.caddr = NULL then (-ENOMEM, err_fr pdev minor pht (m.dev_err pdev .conf))
  else
  let m := (m.acquire (.iomap pdev a.caddr)).modify pht fun x => { x with caddr := a.caddr }
  if a.iaddr = NULL then (-ENOMEM, err_unmc pdev minor pht (m.dev_err pdev .input))
  else
  let m := (m.acquire (.iomap pdev a.iaddr)).modify pht fun x => { x with iaddr := a.iaddr }
  let m := m.iowrite32 0 (m.deref pht).caddr PHN_IRQCTL
  match a.request_irq with
  | some e => (e, err_unmi pdev minor pht (m.dev_err pdev .isr))
  | none =>
  let m := m.acquire (.irq pdev pht)
  match a.cdev_add with
  | some e => (e, err_irq pdev minor pht (m.dev_err pdev .chardev))
  | none =>
  let dev := MKDEV m.phantom_major minor
  let m := (m.acquire (.cdev pht dev)).modify pht fun x => { x with dev := dev }
  let m := if a.device_create then m.acquire (.device dev) else m.dev_err pdev .device
  (0, { m with drvdata := Function.update m.drvdata pdev pht })

/-- `device_destroy`: a device that does not exist is not missed. -/
def device_destroy (dev : ℕ) (m : Driver D) : Driver D :=
  if .device dev ∈ m.led.held then m.release (.device dev) else m

def phantom_remove (pdev : D) (m : Driver D) : Driver D :=
  let pht := m.drvdata pdev
  let minor := MINOR (m.deref pht).dev
  let m := device_destroy (MKDEV m.phantom_major minor) m
  let m := m.release (.cdev pht (m.deref pht).dev)
  let m := m.iowrite32 0 (m.deref pht).caddr PHN_IRQCTL
  let m := m.release (.irq pdev pht)
  let m := m.release (.iomap pdev (m.deref pht).iaddr)
  let m := m.release (.iomap pdev (m.deref pht).caddr)
  let m := m.kfree pht
  let m := m.release (.regions pdev)
  let m := m.clear minor
  m.release (.enabled pdev)

end Probe

/-- What the kernel answers to `phantom_init`: an error, or the class and the
major number. -/
structure InitAnswers where
  class_create : Except Err Ptr
  alloc_chrdev_region : Except Err ℕ
  pci_register_driver : Option Err

/-! ### A failed call -/

section Ladder

variable {D : Type*} [DecidableEq D]

/-- The locals of `phantom_probe`. -/
structure Locals where
  minor : ℕ
  pht : Ptr

/-- An acquisition that a kernel's function may refuse with an error. -/
def refuse (pdev : D) (msg : Msg) (l : Locals) (m t : Driver D) : Option Err → Except ℤ Locals × Driver D
  | some e => (.error e, m.dev_err pdev msg)
  | none => (.ok l, t)

/-- `phantom_probe` up to `cdev_add`, rung by rung. -/
def rungs (pdev : D) (a : Answers) : List (Rung Locals (Driver D) ℤ) :=
  [⟨fun l m => refuse pdev .pci_enable_device l m (m.acquire (.enabled pdev)) a.pci_enable_device,
      fun _ m => m.release (.enabled pdev)⟩,
    ⟨fun l m =>
        let minor := phantom_get_free m.phantom_devices
        if minor = PHANTOM_MAX_MINORS then (.error (- EIO), m.dev_err pdev .too_many)
        else (.ok { l with minor := minor }, m.mark minor),
      fun l m => m.clear l.minor⟩,
    ⟨fun l m => refuse pdev .regions l m (m.acquire (.regions pdev)) a.pci_request_regions,
      fun _ m => m.release (.regions pdev)⟩,
    ⟨fun l m =>
        if a.kzalloc = false then (.error (-ENOMEM), m.dev_err pdev .alloc)
        else (.ok { l with pht := m.heap.next }, m.kzalloc),
      fun l m => m.kfree l.pht⟩,
    ⟨fun l m =>
        if a.caddr = NULL then (.error (-ENOMEM), m.dev_err pdev .conf)
        else (.ok l,
          (m.acquire (.iomap pdev a.caddr)).modify l.pht fun x => { x with caddr := a.caddr }),
      fun l m => m.release (.iomap pdev (m.deref l.pht).caddr)⟩,
    ⟨fun l m =>
        if a.iaddr = NULL then (.error (-ENOMEM), m.dev_err pdev .input)
        else (.ok l,
          (m.acquire (.iomap pdev a.iaddr)).modify l.pht fun x => { x with iaddr := a.iaddr }),
      fun l m => m.release (.iomap pdev (m.deref l.pht).iaddr)⟩,
    ⟨fun l m =>
        let m := m.iowrite32 0 (m.deref l.pht).caddr PHN_IRQCTL
        refuse pdev .isr l m (m.acquire (.irq pdev l.pht)) a.request_irq,
      fun l m => m.release (.irq pdev l.pht)⟩,
    ⟨fun l m => refuse pdev .chardev l m
        ((m.acquire (.cdev l.pht (MKDEV m.phantom_major l.minor))).modify l.pht
          fun x => { x with dev := MKDEV m.phantom_major l.minor }) a.cdev_add,
      fun _ m => m⟩]

/-- What `phantom_probe` does when it has come to the top. -/
def finish (pdev : D) (a : Answers) (l : Locals) (m : Driver D) : Driver D :=
  let dev := MKDEV m.phantom_major l.minor
  let m := if a.device_create then m.acquire (.device dev) else m.dev_err pdev .device
  { m with drvdata := Function.update m.drvdata pdev l.pht }

/-- **`phantom_probe` is a ladder**: each label falls through to the next rung
below. -/
theorem phantom_probe_eq (pdev : D) (a : Answers) (m : Driver D) :
    phantom_probe pdev a m = match climb (rungs pdev a) ⟨0, NULL⟩ m with
      | (.error e, t) => (e, t)
      | (.ok l, t) => (0, finish pdev a l t) := by
  rcases h1 : a.pci_enable_device with _ | e
  swap
  · simp [phantom_probe, rungs, climb, refuse, h1]
  by_cases h2 : phantom_get_free (m.acquire (.enabled pdev)).phantom_devices = PHANTOM_MAX_MINORS
  · simp [phantom_probe, rungs, climb, refuse, h1, h2]
  rcases h3 : a.pci_request_regions with _ | e
  swap
  · simp [phantom_probe, rungs, climb, refuse, h1, h2, h3]
  rcases h4 : a.kzalloc
  · simp [phantom_probe, rungs, climb, refuse, h1, h2, h3, h4]
  by_cases h5 : a.caddr = NULL
  · simp [phantom_probe, rungs, climb, refuse, h1, h2, h3, h4, h5]
  by_cases h6 : a.iaddr = NULL
  · simp [phantom_probe, rungs, climb, refuse, h1, h2, h3, h4, h5, h6]
  rcases h7 : a.request_irq with _ | e
  swap
  · simp [phantom_probe, rungs, climb, refuse, h1, h2, h3, h4, h5, h6, h7]
  rcases h8 : a.cdev_add with _ | e
  · rcases h9 : a.device_create
    · simp [phantom_probe, rungs, climb, refuse, h1, h2, h3, h4, h5, h6, h7, h8, finish, h9]
    · simp [phantom_probe, rungs, climb, refuse, h1, h2, h3, h4, h5, h6, h7, h8, finish, h9]
  · simp [phantom_probe, rungs, climb, refuse, h1, h2, h3, h4, h5, h6, h7, h8]

/-- What a failed call restores: everything but the logs, and where the next
allocation goes. -/
structure Restored (u s : Driver D) : Prop where
  led : u.led = s.led
  phantom_devices : u.phantom_devices = s.phantom_devices
  drvdata : u.drvdata = s.drvdata
  phantom_class : u.phantom_class = s.phantom_class
  phantom_major : u.phantom_major = s.phantom_major
  get : u.heap.get = s.heap.get

/-- The same, but for what has been written to the device of the call beside
`f` of it. -/
structure Agree {α : Type*} (f : phantom_device → α) (l : Locals) (u s : Driver D) : Prop where
  led : u.led = s.led
  phantom_devices : u.phantom_devices = s.phantom_devices
  drvdata : u.drvdata = s.drvdata
  phantom_class : u.phantom_class = s.phantom_class
  phantom_major : u.phantom_major = s.phantom_major
  get : ∀ p, p ≠ l.pht → u.heap.get p = s.heap.get p
  pht : (u.heap.get l.pht).map f = (s.heap.get l.pht).map f

/-- The device of the call is allocated. -/
def Live (l : Locals) (m : Driver D) : Prop := (m.heap.get l.pht).isSome = true

omit [DecidableEq D] in
theorem Restored.refl (m : Driver D) : Restored m m := ⟨rfl, rfl, rfl, rfl, rfl, rfl⟩

theorem Restored.release {u s : Driver D} {r : Res D} (h : Restored u (s.acquire r)) :
    Restored (u.release r) s :=
  ⟨Ledger.release_of_eq h.led, h.phantom_devices, h.drvdata, h.phantom_class, h.phantom_major, h.get⟩

theorem undo_refuse (pdev : D) (msg : Msg) (r : Res D) (answer : Option Err) :
    Rung.Undo (⟨fun l m => refuse pdev msg l m (m.acquire r) answer, fun _ m => m.release r⟩ :
      Rung Locals (Driver D) ℤ) (fun _ _ => True) (fun _ _ => True) (fun _ => Restored)
      (fun _ => Restored) where
  error l s e t _ h := by
    rcases answer with _ | err
    · cases h
    · obtain ⟨-, rfl⟩ := Prod.mk.inj h
      exact ⟨rfl, rfl, rfl, rfl, rfl, rfl⟩
  ok l s l' t _ h := by
    rcases answer with _ | err
    · obtain ⟨-, rfl⟩ := Prod.mk.inj h
      exact ⟨trivial, fun u hu => hu.release⟩
    · cases h

theorem undo_minor (pdev : D) :
    Rung.Undo (⟨fun l m =>
        let minor := phantom_get_free m.phantom_devices
        if minor = PHANTOM_MAX_MINORS then (.error (- EIO), m.dev_err pdev .too_many)
        else (.ok { l with minor := minor }, m.mark minor),
      fun l m => m.clear l.minor⟩ : Rung Locals (Driver D) ℤ)
      (fun _ _ => True) (fun _ _ => True) (fun _ => Restored) (fun _ => Restored) where
  error l s e t _ h := by
    simp only at h
    split at h
    · obtain ⟨-, rfl⟩ := Prod.mk.inj h
      exact ⟨rfl, rfl, rfl, rfl, rfl, rfl⟩
    · cases h
  ok l s l' t _ h := by
    simp only at h
    split at h
    · cases h
    next hmax =>
      obtain ⟨hl, rfl⟩ := Prod.mk.inj h
      cases hl
      have hz := phantom_get_free_zero (lt_of_le_of_ne (phantom_get_free_le _) hmax)
      refine ⟨trivial, fun u hu => ⟨Ledger.release_of_eq hu.led, ?_, hu.drvdata, hu.phantom_class,
        hu.phantom_major, hu.get⟩⟩
      show u.phantom_devices.setIfInBounds _ 0 = s.phantom_devices
      rw [hu.phantom_devices]
      exact clear_mark hz

theorem undo_kzalloc (pdev : D) (answer : Bool) :
    Rung.Undo (⟨fun l m =>
        if answer = false then (.error (-ENOMEM), m.dev_err pdev .alloc)
        else (.ok { l with pht := m.heap.next }, m.kzalloc),
      fun l m => m.kfree l.pht⟩ : Rung Locals (Driver D) ℤ)
      (fun _ _ => True) Live (fun _ => Restored) (Agree fun _ => ()) where
  error l s e t _ h := by
    simp only at h
    split at h
    · obtain ⟨-, rfl⟩ := Prod.mk.inj h
      exact ⟨rfl, rfl, rfl, rfl, rfl, rfl⟩
    · cases h
  ok l s l' t _ h := by
    simp only at h
    split at h
    · cases h
    obtain ⟨hl, rfl⟩ := Prod.mk.inj h
    cases hl
    constructor
    · show ((s.heap.alloc _).get s.heap.next).isSome = true
      rw [Heap.get_alloc_self]
      rfl
    · intro u hu
      refine ⟨Ledger.release_of_eq hu.led, hu.phantom_devices, hu.drvdata, hu.phantom_class,
        hu.phantom_major, ?_⟩
      funext p
      show (u.heap.free s.heap.next).get p = s.heap.get p
      by_cases hp : p = s.heap.next
      · rw [hp, Heap.get_free_self, s.heap.fresh _ le_rfl]
      · rw [Heap.get_free_of_ne _ hp, hu.get p hp]
        exact Heap.get_alloc_of_ne _ hp

/-- A mapping: what is kept beside `f` of the device is kept beside `g`, which
tells where the mapping is. -/
theorem undo_iomap {α β : Type*} {f : phantom_device → α} {g : phantom_device → β} (pdev : D)
    (msg : Msg) (e : ℤ) (a : Ptr) (put : phantom_device → phantom_device)
    (ptr : phantom_device → Ptr) (hput : ∀ x, ptr (put x) = a) (hf : ∀ x, f (put x) = f x)
    (hg : ∃ k : β → α × Ptr, ∀ x, k (g x) = (f x, ptr x)) :
    Rung.Undo (⟨fun l m =>
        if a = NULL then (.error e, m.dev_err pdev msg)
        else (.ok l, (m.acquire (.iomap pdev a)).modify l.pht put),
      fun l m => m.release (.iomap pdev (ptr (m.deref l.pht)))⟩ : Rung Locals (Driver D) ℤ)
      Live Live (Agree f) (Agree g) where
  error l s e' t _ h := by
    simp only at h
    split at h
    · obtain ⟨-, rfl⟩ := Prod.mk.inj h
      exact ⟨rfl, rfl, rfl, rfl, rfl, fun _ _ => rfl, rfl⟩
    · cases h
  ok l s l' t hl h := by
    simp only at h
    split at h
    · cases h
    obtain ⟨hll, rfl⟩ := Prod.mk.inj h
    cases hll
    obtain ⟨x, hx⟩ := Option.isSome_iff_exists.mp hl
    have ht : ((s.acquire (.iomap pdev a)).modify l.pht put).heap.get l.pht = some (put x) :=
      Driver.get_modify_self _ hx
    refine ⟨by rw [Live, ht]; rfl, fun u hu => ?_⟩
    obtain ⟨k, hk⟩ := hg
    obtain ⟨y, hy, hgy⟩ : ∃ y, u.heap.get l.pht = some y ∧ g y = g (put x) := by
      have h := hu.pht
      rw [ht, Option.map_some, Option.map_eq_some_iff] at h
      exact h
    obtain ⟨hfy, hay⟩ := Prod.mk.inj ((hk y).symm.trans ((congrArg k hgy).trans (hk (put x))))
    have hda : ptr (u.deref l.pht) = a := by
      rw [u.deref_of hy, hay, hput]
    refine ⟨?_, hu.phantom_devices, hu.drvdata, hu.phantom_class, hu.phantom_major, ?_, ?_⟩
    · show u.led.release (.iomap pdev (ptr (u.deref l.pht))) = s.led
      rw [hda, hu.led]
      exact Ledger.release_acquire _ _
    · exact fun p hp => (hu.get p hp).trans (Heap.get_set_of_ne _ hp)
    · show (u.heap.get l.pht).map f = (s.heap.get l.pht).map f
      rw [hy, hx, Option.map_some, Option.map_some, hfy, hf]

omit [DecidableEq D] in
theorem Agree.of_eq {α : Type*} {f : phantom_device → α} {l : Locals} {u s : Driver D}
    (hl : u.led = s.led) (hv : u.phantom_devices = s.phantom_devices) (hd : u.drvdata = s.drvdata)
    (hc : u.phantom_class = s.phantom_class) (hm : u.phantom_major = s.phantom_major)
    (hh : u.heap = s.heap) : Agree f l u s :=
  ⟨hl, hv, hd, hc, hm, fun _ _ => by rw [hh], by rw [hh]⟩

theorem undo_irq {α : Type*} {f : phantom_device → α} (pdev : D) (answer : Option Err) :
    Rung.Undo (⟨fun l m =>
        let m := m.iowrite32 0 (m.deref l.pht).caddr PHN_IRQCTL
        refuse pdev .isr l m (m.acquire (.irq pdev l.pht)) answer,
      fun l m => m.release (.irq pdev l.pht)⟩ : Rung Locals (Driver D) ℤ)
      Live (fun _ _ => True) (Agree f) (Agree f) where
  error l s e t _ h := by
    rcases answer with _ | err
    · cases h
    · obtain ⟨-, rfl⟩ := Prod.mk.inj h
      exact .of_eq rfl rfl rfl rfl rfl rfl
  ok l s l' t _ h := by
    rcases answer with _ | err
    · obtain ⟨hl, rfl⟩ := Prod.mk.inj h
      cases hl
      exact ⟨trivial, fun u hu => ⟨Ledger.release_of_eq hu.led, hu.phantom_devices, hu.drvdata,
        hu.phantom_class, hu.phantom_major, hu.get, hu.pht⟩⟩
    · cases h

/-- Each rung of `phantom_probe` undoes what it has done; nothing comes down
from above `cdev_add`. -/
theorem undoes (pdev : D) (a : Answers) :
    Undoes (fun _ _ => True) (fun _ => Restored) (rungs pdev a) := by
  have conf := undo_iomap (f := fun _ => ()) pdev .conf (-ENOMEM) a.caddr
    (fun x => { x with caddr := a.caddr }) (·.caddr) (fun _ => rfl) (fun _ => rfl)
    ⟨fun c => ((), c), fun _ => rfl⟩
  have input := undo_iomap (f := (·.caddr)) pdev .input (-ENOMEM) a.iaddr
    (fun x => { x with iaddr := a.iaddr }) (·.iaddr) (fun _ => rfl) (fun _ => rfl)
    ⟨fun p : Ptr × Ptr => p, fun _ => rfl⟩
  refine .cons (undo_refuse _ _ _ _) (.cons (undo_minor _) (.cons (undo_refuse _ _ _ _)
    (.cons (undo_kzalloc _ _) (.cons conf (.cons input (.cons (undo_irq _ _) (.cons ?_
      (.nil (fun _ _ => True) fun _ _ _ => False))))))))
  constructor
  · intro l s e t _ h
    rcases ha : a.cdev_add with _ | err <;> rw [ha] at h
    · cases h
    · obtain ⟨-, rfl⟩ := Prod.mk.inj h
      exact .of_eq rfl rfl rfl rfl rfl rfl
  · exact fun _ _ _ _ _ _ => ⟨trivial, fun _ h => h.elim⟩

omit [DecidableEq D] in
theorem refuse_neg {pdev : D} {msg : Msg} {l : Locals} {m t u : Driver D} {answer : Option Err}
    {e : ℤ} (h : refuse pdev msg l m t answer = (.error e, u)) : e < 0 := by
  rcases answer with _ | err
  · cases h
  · obtain ⟨he, -⟩ := Prod.mk.inj h
    cases he
    exact err.2

omit [DecidableEq D] in
theorem refuse_ok {pdev : D} {msg : Msg} {l l' : Locals} {m t u : Driver D} {answer : Option Err}
    (h : refuse pdev msg l m t answer = (.ok l', u)) : l' = l ∧ u = t := by
  rcases answer with _ | err
  · obtain ⟨hl, rfl⟩ := Prod.mk.inj h
    cases hl
    exact ⟨rfl, rfl⟩
  · cases h

omit [DecidableEq D] in
theorem ite_ok {p : Prop} [Decidable p] {l l' : Locals} {m t u : Driver D} {e : ℤ}
    (h : (if p then (Except.error e, m) else (Except.ok l, t)) = (.ok l', u)) :
    ¬ p ∧ l' = l ∧ u = t := by
  split at h
  next => cases h
  next hp =>
    obtain ⟨hl, rfl⟩ := Prod.mk.inj h
    cases hl
    exact ⟨hp, rfl, rfl⟩

omit [DecidableEq D] in
/-- An error that is returned where `p`, and success elsewhere. -/
theorem ite_neg {p : Prop} [Decidable p] {l : Locals} {m t u : Driver D} {e e' : ℤ} (he : e < 0)
    (h : (if p then (Except.error e, m) else (Except.ok l, t)) = (.error e', u)) : e' < 0 := by
  split at h
  · obtain ⟨he', -⟩ := Prod.mk.inj h
    cases he'
    exact he
  · cases h

theorem rungs_neg {pdev : D} {a : Answers} {r : Rung Locals (Driver D) ℤ} (hr : r ∈ rungs pdev a)
    {l : Locals} {m t : Driver D} {e : ℤ} (h : r.acquire l m = (.error e, t)) : e < 0 := by
  have hio : - EIO < 0 := by decide
  have hmem : -ENOMEM < 0 := by decide
  simp only [rungs, List.mem_cons, List.not_mem_nil, or_false] at hr
  rcases hr with rfl | rfl | rfl | rfl | rfl | rfl | rfl | rfl
  · exact refuse_neg h
  · exact ite_neg hio h
  · exact refuse_neg h
  · exact ite_neg hmem h
  · exact ite_neg hmem h
  · exact ite_neg hmem h
  · exact refuse_neg h
  · exact refuse_neg h

/-- **A probe that fails** returns a negative error and leaves everything as
it was, the logs apart. -/
theorem phantom_probe_error {pdev : D} {a : Answers} {m t : Driver D} {e : ℤ}
    (h : phantom_probe pdev a m = (e, t)) (he : e ≠ 0) : e < 0 ∧ Restored t m := by
  rw [phantom_probe_eq] at h
  rcases hc : climb (rungs pdev a) ⟨0, NULL⟩ m with ⟨e' | l, u⟩ <;> rw [hc] at h
  · obtain ⟨rfl, rfl⟩ := Prod.mk.inj h
    obtain ⟨r, hr, l, s, u, hru⟩ := climb_error_mem hc
    exact ⟨rungs_neg hr hru, climb_error (undoes pdev a) trivial hc⟩
  · obtain ⟨rfl, -⟩ := Prod.mk.inj h
    exact absurd rfl he

/-- What a probe has reported, if there is a free slot: nothing about a lack of
minors. -/
theorem phantom_probe_log {pdev : D} {a : Answers} {m : Driver D}
    (hmax : phantom_get_free m.phantom_devices ≠ PHANTOM_MAX_MINORS) :
    ∃ msgs, (pdev, .too_many) ∉ msgs ∧ (phantom_probe pdev a m).2.log = m.log ++ msgs := by
  have h2 : phantom_get_free (m.acquire (.enabled pdev)).phantom_devices ≠ PHANTOM_MAX_MINORS := hmax
  rcases h1 : a.pci_enable_device with _ | e
  swap
  · exact ⟨[(pdev, .pci_enable_device)], by simp, by simp [phantom_probe, h1]⟩
  rcases h3 : a.pci_request_regions with _ | e
  swap
  · exact ⟨[(pdev, .regions)], by simp, by simp [phantom_probe, h1, h2, h3]⟩
  rcases h4 : a.kzalloc
  · exact ⟨[(pdev, .alloc)], by simp, by simp [phantom_probe, h1, h2, h3, h4]⟩
  by_cases h5 : a.caddr = NULL
  · exact ⟨[(pdev, .conf)], by simp, by simp [phantom_probe, h1, h2, h3, h4, h5]⟩
  by_cases h6 : a.iaddr = NULL
  · exact ⟨[(pdev, .input)], by simp, by simp [phantom_probe, h1, h2, h3, h4, h5, h6]⟩
  rcases h7 : a.request_irq with _ | e
  swap
  · exact ⟨[(pdev, .isr)], by simp, by simp [phantom_probe, h1, h2, h3, h4, h5, h6, h7]⟩
  rcases h8 : a.cdev_add with _ | e
  swap
  · exact ⟨[(pdev, .chardev)], by simp, by simp [phantom_probe, h1, h2, h3, h4, h5, h6, h7, h8]⟩
  rcases h9 : a.device_create
  · exact ⟨[(pdev, .device)], by simp, by simp [phantom_probe, h1, h2, h3, h4, h5, h6, h7, h8, h9]⟩
  · exact ⟨[], by simp, by simp [phantom_probe, h1, h2, h3, h4, h5, h6, h7, h8, h9]⟩

/-- **A probe reports too many devices** only if there is no free slot, and
returns `-EIO` then. -/
theorem phantom_probe_too_many {pdev : D} {a : Answers} {m t : Driver D} {e : ℤ}
    (h : phantom_probe pdev a m = (e, t)) (hlog : t.log = m.log ++ [(pdev, .too_many)]) :
    phantom_get_free m.phantom_devices = PHANTOM_MAX_MINORS ∧ e = - EIO := by
  by_cases hmax : phantom_get_free m.phantom_devices = PHANTOM_MAX_MINORS
  · have h2 : phantom_get_free (m.acquire (.enabled pdev)).phantom_devices = PHANTOM_MAX_MINORS := hmax
    rcases h1 : a.pci_enable_device with _ | err
    · simp only [phantom_probe, h1, if_pos h2] at h
      exact ⟨hmax, (Prod.mk.inj h).1.symm⟩
    · simp only [phantom_probe, h1] at h
      obtain ⟨-, rfl⟩ := Prod.mk.inj h
      simp at hlog
  · obtain ⟨msgs, hmsgs, hl⟩ := @phantom_probe_log D _ pdev a m hmax
    rw [h, hlog] at hl
    obtain rfl := List.append_cancel_left hl
    exact absurd List.mem_cons_self hmsgs

/-- **A probe that is granted all** finds a free slot and returns 0. -/
theorem phantom_probe_granted {pdev : D} {a : Answers} {m : Driver D} (ha : a.Granted)
    (hlt : phantom_get_free m.phantom_devices < PHANTOM_MAX_MINORS) :
    ∃ t, phantom_probe pdev a m = (0, t) := by
  have hmax : phantom_get_free (m.acquire (.enabled pdev)).phantom_devices ≠ PHANTOM_MAX_MINORS :=
    hlt.ne
  simp [phantom_probe, hmax, ha.pci_enable_device, ha.pci_request_regions, ha.kzalloc, ha.caddr,
    ha.iaddr, ha.request_irq, ha.cdev_add]

theorem phantom_probe_full {pdev : D} {a : Answers} {m : Driver D}
    (ha : a.pci_enable_device = none)
    (hmax : phantom_get_free m.phantom_devices = PHANTOM_MAX_MINORS) :
    ∃ t, phantom_probe pdev a m = (- EIO, t) ∧ t.log = m.log ++ [(pdev, .too_many)] := by
  have h2 : phantom_get_free (m.acquire (.enabled pdev)).phantom_devices = PHANTOM_MAX_MINORS := hmax
  simp [phantom_probe, h2, ha]

end Ladder

/-! ### A device that is bound -/

section Bound

variable {D : Type*} [DecidableEq D]

/-- What is held for a device that is bound, in the order in which it is
released; it may do without a node. -/
def owned (pdev : D) (pht : Ptr) (x : phantom_device) (node : Bool) : List (Res D) :=
  (if node then [.device x.dev] else []) ++
    [.cdev pht x.dev, .irq pdev pht, .iomap pdev x.iaddr, .iomap pdev x.caddr, .pht pht,
      .regions pdev, .minor (MINOR x.dev), .enabled pdev]

omit [DecidableEq D] in
theorem owned_node (pdev : D) (pht : Ptr) (x : phantom_device) (k : Multiset (Res D)) :
    (↑(owned pdev pht x true) : Multiset (Res D)) + k =
      .device x.dev ::ₘ ((↑(owned pdev pht x false) : Multiset (Res D)) + k) := by
  rw [← Multiset.cons_add]
  rfl

/-- What is made of `m` for a device: `x`, at the next address, under the first
free minor. -/
structure Built (pdev : D) (x : phantom_device) (node : Bool) (t m : Driver D) : Prop where
  minor_lt : phantom_get_free m.phantom_devices < PHANTOM_MAX_MINORS
  dev : x.dev = MKDEV m.phantom_major (phantom_get_free m.phantom_devices)
  held : t.led.held = ↑(owned pdev m.heap.next x node) + m.led.held
  bad : t.led.bad = m.led.bad
  phantom_devices : t.phantom_devices =
    m.phantom_devices.setIfInBounds (phantom_get_free m.phantom_devices) 1
  phantom_class : t.phantom_class = m.phantom_class
  phantom_major : t.phantom_major = m.phantom_major
  new : t.heap.get m.heap.next = some x
  get : ∀ p, p ≠ m.heap.next → t.heap.get p = m.heap.get p

theorem small {minor : ℕ} (h : minor < PHANTOM_MAX_MINORS) : minor < 2 ^ MINORBITS :=
  h.trans (by decide)

omit [DecidableEq D] in
theorem Built.minor {pdev : D} {x : phantom_device} {node : Bool} {t m : Driver D}
    (h : Built pdev x node t m) : MINOR x.dev = phantom_get_free m.phantom_devices := by
  rw [h.dev, MINOR_MKDEV (small h.minor_lt)]

/-- A climb to the top has built a device, without a node. -/
theorem climb_rungs_ok {pdev : D} {a : Answers} {l : Locals} {m u : Driver D}
    (hc : climb (rungs pdev a) ⟨0, NULL⟩ m = (.ok l, u)) :
    l = ⟨phantom_get_free m.phantom_devices, m.heap.next⟩ ∧ u.drvdata = m.drvdata ∧
      ∃ x, Built pdev x false u m := by
  obtain ⟨l₁, u₁, h₁, hc⟩ := climb_cons_ok hc
  obtain ⟨rfl, rfl⟩ := refuse_ok h₁
  obtain ⟨l₂, u₂, h₂, hc⟩ := climb_cons_ok hc
  obtain ⟨hmax, rfl, rfl⟩ := ite_ok h₂
  obtain ⟨l₃, u₃, h₃, hc⟩ := climb_cons_ok hc
  obtain ⟨rfl, hu₃⟩ := refuse_ok h₃
  obtain ⟨l₄, u₄, h₄, hc⟩ := climb_cons_ok hc
  obtain ⟨-, rfl, hu₄⟩ := ite_ok h₄
  obtain ⟨l₅, u₅, h₅, hc⟩ := climb_cons_ok hc
  obtain ⟨-, rfl, hu₅⟩ := ite_ok h₅
  obtain ⟨l₆, u₆, h₆, hc⟩ := climb_cons_ok hc
  obtain ⟨-, rfl, hu₆⟩ := ite_ok h₆
  obtain ⟨l₇, u₇, h₇, hc⟩ := climb_cons_ok hc
  obtain ⟨rfl, hu₇⟩ := refuse_ok h₇
  obtain ⟨l₈, u₈, h₈, hc⟩ := climb_cons_ok hc
  obtain ⟨rfl, hu₈⟩ := refuse_ok h₈
  cases hc
  have hlt := lt_of_le_of_ne (phantom_get_free_le m.phantom_devices) hmax
  have hp : u₃.heap = m.heap := by rw [hu₃]; rfl
  -- the device, as it is filled in
  have g₄ : u₄.heap.get u₃.heap.next = some ⟨0, NULL, NULL, 0⟩ := by
    rw [hu₄]
    exact Heap.get_alloc_self _
  have g₅ : u₅.heap.get u₃.heap.next = some ⟨0, a.caddr, NULL, 0⟩ := by
    rw [hu₅]
    exact Driver.get_modify_self (u₄.acquire _) g₄
  have g₆ : u₆.heap.get u₃.heap.next = some ⟨0, a.caddr, a.iaddr, 0⟩ := by
    rw [hu₆]
    exact Driver.get_modify_self (u₅.acquire _) g₅
  have g₇ : u₇.heap.get u₃.heap.next = some ⟨0, a.caddr, a.iaddr, 0⟩ := by
    rw [hu₇]
    exact g₆
  have g₈ : u.heap.get u₃.heap.next = some ⟨0, a.caddr, a.iaddr,
      MKDEV u₇.phantom_major (phantom_get_free m.phantom_devices)⟩ := by
    rw [hu₈]
    exact Driver.get_modify_self (u₇.acquire _) g₇
  have hget : ∀ p, p ≠ u₃.heap.next → u.heap.get p = u₃.heap.get p := by
    intro p hp
    calc u.heap.get p = u₇.heap.get p := by
          rw [hu₈]
          exact Driver.get_modify_of_ne (u₇.acquire _) hp
      _ = u₆.heap.get p := by rw [hu₇]; rfl
      _ = u₅.heap.get p := by
          rw [hu₆]
          exact Driver.get_modify_of_ne (u₅.acquire _) hp
      _ = u₄.heap.get p := by
          rw [hu₅]
          exact Driver.get_modify_of_ne (u₄.acquire _) hp
      _ = u₃.heap.get p := by
          rw [hu₄]
          exact Heap.get_alloc_of_ne _ hp
  rw [hp] at g₈ hget
  have hf : u.drvdata = m.drvdata ∧ u.phantom_class = m.phantom_class ∧
      u.phantom_major = m.phantom_major ∧ u₇.phantom_major = m.phantom_major := by
    simp only [hu₈, hu₇, hu₆, hu₅, hu₄, hu₃, Driver.acquire, Driver.iowrite32, Driver.modify,
      Driver.kzalloc, Driver.mark, and_self]
  obtain ⟨hd, hclass, hmajor, hma⟩ := hf
  rw [hma] at g₈
  refine ⟨by rw [hp]; rfl, hd, _, hlt, rfl, ?_, ?_, ?_, hclass, hmajor, g₈, hget⟩
  · have hminor : MINOR (MKDEV m.phantom_major (phantom_get_free m.phantom_devices)) =
        phantom_get_free m.phantom_devices := MINOR_MKDEV (small hlt)
    simp only [hu₈, hu₇, hu₆, hu₅, hu₄, hu₃, Driver.acquire, Driver.iowrite32, Driver.modify,
      Driver.kzalloc, Driver.mark, owned, hminor, Bool.false_eq_true, if_false, List.nil_append,
      ← Multiset.cons_coe, Multiset.cons_add, Multiset.coe_nil, zero_add, Ledger.acquire]
  · simp only [hu₈, hu₇, hu₆, hu₅, hu₄, hu₃, Driver.acquire, Driver.iowrite32, Driver.modify,
      Driver.kzalloc, Driver.mark, Ledger.acquire]
  · simp only [hu₈, hu₇, hu₆, hu₅, hu₄, hu₃, Driver.acquire, Driver.iowrite32, Driver.modify,
      Driver.kzalloc, Driver.mark]

/-- **A probe that succeeds** has built a device. -/
theorem phantom_probe_ok {pdev : D} {a : Answers} {m t : Driver D}
    (h : phantom_probe pdev a m = (0, t)) :
    t.drvdata = Function.update m.drvdata pdev m.heap.next ∧
      ∃ x, Built pdev x a.device_create t m := by
  rw [phantom_probe_eq] at h
  rcases hc : climb (rungs pdev a) ⟨0, NULL⟩ m with ⟨e | l, u⟩ <;> rw [hc] at h
  · obtain ⟨rfl, -⟩ := Prod.mk.inj h
    obtain ⟨r, hr, l, s, u, hru⟩ := climb_error_mem hc
    exact absurd (rungs_neg hr hru) (by decide)
  obtain ⟨rfl, hd, x, hx⟩ := climb_rungs_ok hc
  obtain ⟨-, rfl⟩ := Prod.mk.inj h
  simp only [finish]
  rcases a.device_create
  · refine ⟨?_, x, hx.minor_lt, hx.dev, hx.held, hx.bad, hx.phantom_devices, hx.phantom_class,
      hx.phantom_major, hx.new, hx.get⟩
    show Function.update u.drvdata pdev _ = _
    rw [hd]
  · refine ⟨?_, x, hx.minor_lt, hx.dev, ?_, hx.bad, hx.phantom_devices, hx.phantom_class,
      hx.phantom_major, hx.new, hx.get⟩
    · show Function.update u.drvdata pdev _ = _
      rw [hd]
    · show Res.device _ ::ₘ u.led.held = _
      rw [hx.held, hx.phantom_major, ← hx.dev, owned_node]

/-- What `phantom_remove` makes of `m`, in which `k` is held beside what the
device holds. -/
structure Removed (pdev : D) (minor : ℕ) (k : Multiset (Res D)) (t m : Driver D) : Prop where
  led : t.led = ⟨k, m.led.bad⟩
  phantom_devices : t.phantom_devices = m.phantom_devices.setIfInBounds minor 0
  drvdata : t.drvdata = m.drvdata
  phantom_class : t.phantom_class = m.phantom_class
  phantom_major : t.phantom_major = m.phantom_major
  heap : t.heap = m.heap.free (m.drvdata pdev)

theorem device_destroy_eq {pdev : D} {m : Driver D} {x : phantom_device} {pht : Ptr} {node : Bool}
    {k : Multiset (Res D)} (hk : .device x.dev ∉ k)
    (hheld : m.led.held = ↑(owned pdev pht x node) + k) :
    device_destroy x.dev m = { m with led := ⟨↑(owned pdev pht x false) + k, m.led.bad⟩ } := by
  unfold device_destroy
  rcases node
  · have hmem : Res.device x.dev ∉ m.led.held := by
      rw [hheld, Multiset.mem_add]
      simp [owned, hk]
    rw [if_neg hmem, ← hheld]
  · rw [owned_node] at hheld
    rw [if_pos (by rw [hheld]; exact Multiset.mem_cons_self _ _), Driver.release,
      Ledger.release_of_held hheld]

/-- **`phantom_remove` releases what is held for the device**, and nothing
else: the number of its node comes from the character device. -/
theorem phantom_remove_eq {pdev : D} {m : Driver D} {x : phantom_device} {minor : ℕ} {node : Bool}
    {k : Multiset (Res D)} (hx : m.heap.get (m.drvdata pdev) = some x)
    (hdev : x.dev = MKDEV m.phantom_major minor) (hlt : minor < PHANTOM_MAX_MINORS)
    (hk : .device x.dev ∉ k) (hheld : m.led.held = ↑(owned pdev (m.drvdata pdev) x node) + k) :
    Removed pdev minor k (phantom_remove pdev m) m := by
  have hmin : MINOR x.dev = minor := by rw [hdev, MINOR_MKDEV (small hlt)]
  unfold phantom_remove
  simp only [m.deref_of hx, hmin, ← hdev, device_destroy_eq hk hheld]
  simp only [Driver.release, Driver.iowrite32, Driver.kfree, Driver.clear, Driver.deref, hx,
    Option.getD_some]
  refine ⟨?_, rfl, rfl, rfl, rfl, rfl⟩
  have hall := Ledger.foldl_release (owned pdev (m.drvdata pdev) x false)
    ⟨↑(owned pdev (m.drvdata pdev) x false) + k, m.led.bad⟩ k rfl
  simp only [owned, hmin, Bool.false_eq_true, if_false, List.nil_append, List.foldl_cons,
    List.foldl_nil] at hall ⊢
  exact hall

/-- **A probe and its removal** leave everything as it was, the logs and the
`drvdata` of the device apart. -/
theorem phantom_remove_probe {pdev : D} {a : Answers} {m t : Driver D}
    (hnode : .device (MKDEV m.phantom_major (phantom_get_free m.phantom_devices)) ∉ m.led.held)
    (h : phantom_probe pdev a m = (0, t)) :
    Restored { phantom_remove pdev t with drvdata := m.drvdata } m ∧
      ∀ d, d ≠ pdev → (phantom_remove pdev t).drvdata d = m.drvdata d := by
  obtain ⟨hd, x, hx⟩ := phantom_probe_ok h
  have hpd : t.drvdata pdev = m.heap.next := by rw [hd, Function.update_self]
  have hr : Removed pdev (phantom_get_free m.phantom_devices) m.led.held (phantom_remove pdev t) t := by
    have hheld := hx.held
    have hnew := hx.new
    rw [← hpd] at hheld hnew
    refine phantom_remove_eq hnew ?_ hx.minor_lt ?_ hheld
    · rw [hx.dev, hx.phantom_major]
    · rw [hx.dev]
      exact hnode
  generalize phantom_remove pdev t = u at hr ⊢
  refine ⟨⟨?_, ?_, rfl, hr.phantom_class.trans hx.phantom_class,
    hr.phantom_major.trans hx.phantom_major, ?_⟩, fun d hne => ?_⟩
  · show u.led = m.led
    rw [hr.led, hx.bad]
  · show u.phantom_devices = m.phantom_devices
    rw [hr.phantom_devices, hx.phantom_devices]
    exact clear_mark (phantom_get_free_zero hx.minor_lt)
  · show u.heap.get = m.heap.get
    rw [hr.heap, hpd]
    funext p
    by_cases hp : p = m.heap.next
    · rw [hp, Heap.get_free_self, m.heap.fresh _ le_rfl]
    · rw [Heap.get_free_of_ne _ hp, hx.get p hp]
  · rw [hr.drvdata, hd, Function.update_of_ne hne]

end Bound

section Init

variable {D : Type*} [DecidableEq D]

def err_class (m : Driver D) : Driver D := m.release (.cls m.phantom_class)

def err_unchr (dev : ℕ) (m : Driver D) : Driver D := err_class (m.release (.chrdev dev))

/-- `phantom_init`; a failed `class_create` leaves an error pointer in
`phantom_class`, which is written down as NULL. -/
def phantom_init (a : InitAnswers) (m : Driver D) : ℤ × Driver D :=
  match a.class_create with
  | .error e => (e, { m with phantom_class := NULL })
  | .ok p =>
  let m := { m with phantom_class := p }.acquire (.cls p)
  match a.alloc_chrdev_region with
  | .error e => (e, err_class m)
  | .ok major =>
  let dev := MKDEV major 0
  let m := { m with phantom_major := MAJOR dev }.acquire (.chrdev dev)
  match a.pci_register_driver with
  | some e => (e, err_unchr dev m)
  | none => (0, m.acquire .driver)

/-- `phantom_exit`: `pci_unregister_driver` removes the devices that are bound,
in some order. -/
def phantom_exit (bound : List D) (m : Driver D) : Driver D :=
  let m := bound.foldl (fun m pdev => phantom_remove pdev m) m
  let m := m.release .driver
  let m := m.release (.chrdev (MKDEV m.phantom_major 0))
  m.release (.cls m.phantom_class)

/-! ### The loaded driver -/

/-- What a loaded driver holds itself, in the order in which `phantom_exit`
releases it. -/
def base (m : Driver D) : List (Res D) :=
  [.driver, .chrdev (MKDEV m.phantom_major 0), .cls m.phantom_class]

/-- `phantom_init` only sets its two globals and the ledger. -/
structure Kept (t m : Driver D) : Prop where
  bad : t.led.bad = m.led.bad
  phantom_devices : t.phantom_devices = m.phantom_devices
  drvdata : t.drvdata = m.drvdata
  heap : t.heap = m.heap

theorem phantom_init_cases {a : InitAnswers} {m t : Driver D} {e : ℤ}
    (h : phantom_init a m = (e, t)) : Kept t m ∧
      (e < 0 ∧ t.led.held = m.led.held ∨ e = 0 ∧ t.led.held = ↑(base t) + m.led.held) := by
  unfold phantom_init at h
  rcases h1 : a.class_create with err | p <;> simp only [h1] at h
  · obtain ⟨rfl, rfl⟩ := Prod.mk.inj h
    exact ⟨⟨rfl, rfl, rfl, rfl⟩, .inl ⟨err.2, rfl⟩⟩
  rcases h2 : a.alloc_chrdev_region with err | major <;>
    simp only [h2, err_class, err_unchr, Driver.acquire, Driver.release, Ledger.release_acquire] at h
  · obtain ⟨rfl, rfl⟩ := Prod.mk.inj h
    exact ⟨⟨rfl, rfl, rfl, rfl⟩, .inl ⟨err.2, rfl⟩⟩
  rcases h3 : a.pci_register_driver with _ | err <;> simp only [h3] at h
  · obtain ⟨rfl, rfl⟩ := Prod.mk.inj h
    refine ⟨⟨rfl, rfl, rfl, rfl⟩, .inr ⟨rfl, ?_⟩⟩
    simp only [base, MAJOR_MKDEV, Ledger.acquire, ← Multiset.cons_coe, Multiset.cons_add,
      Multiset.coe_nil, zero_add]
  · obtain ⟨rfl, rfl⟩ := Prod.mk.inj h
    exact ⟨⟨rfl, rfl, rfl, rfl⟩, .inl ⟨err.2, rfl⟩⟩

/-- **An initialisation that fails** returns a negative error and holds
nothing of its own. -/
theorem phantom_init_error {a : InitAnswers} {m t : Driver D} {e : ℤ}
    (h : phantom_init a m = (e, t)) (he : e ≠ 0) : e < 0 ∧ t.led = m.led := by
  obtain ⟨hk, ⟨hneg, hheld⟩ | ⟨h0, -⟩⟩ := phantom_init_cases h
  · exact ⟨hneg, Ledger.ext_of hheld hk.bad⟩
  · exact absurd h0 he

end Init

end Phantom
end Pb173
