/-
# The phantom driver statement by statement (10/example)

`phantom_probe` and `phantom_remove`, their statements and labels each a step, on
any number of devices at the same time, and `phantom_isr`, which may come in
between as long as its interrupt is requested. `free_irq` waits for a handler that
runs. Left alone, the calls are those of `Phantom` (`probe_alone`,
`remove_alone`).

In every run a handler finds its structure allocated and the registers mapped
that it reads and writes; so do the calls; and no mapping or interrupt is
released twice (`isr_safe`).
-/
import Pb173.Machine
import Pb173.Phantom

namespace Pb173
namespace Isr

open Phantom

/-! ### The calls -/

/-- The statements of `phantom_probe`; `phantom_get_free` looks at one slot after the other. -/
inductive Probe
  | pci_enable_device
  | phantom_get_free (i : ℕ)
  | mark
  | pci_request_regions
  | kzalloc
  | caddr
  | iaddr
  | irqctl
  | request_irq
  | cdev_add
  | device_create
  | pci_set_drvdata
deriving DecidableEq

/-- Its labels. -/
inductive Label
  | err_irq | err_unmi | err_unmc | err_fr | err_reg | err_null | err_dis
deriving DecidableEq

/-- The statements of `phantom_remove`. -/
inductive Remove
  | pci_get_drvdata
  | device_destroy
  | cdev_del
  | irqctl
  | free_irq
  | iaddr
  | caddr
  | kfree
  | pci_release_regions
  | clear
  | pci_disable_device
deriving DecidableEq

/-- Where the core is with a device. -/
inductive Pc
  | unbound
  | probing (st : Probe) (a : Answers) (l : Locals)
  | failing (st : Label) (retval : Err) (l : Locals)
  /-- `phantom_probe` has returned; the device is bound if it returned 0. -/
  | returned (retval : ℤ)
  | removing (st : Remove) (l : Locals)

def EIO_err : Err := ⟨- EIO, by decide⟩

def ENOMEM_err : Err := ⟨-ENOMEM, by decide⟩

section Exec

variable {D : Type*} [DecidableEq D] (pdev : D)

def Probe.exec (a : Answers) (l : Locals) (m : Driver D) : Probe → Pc × Driver D
  | .pci_enable_device =>
    match a.pci_enable_device with
    | some e => (.returned e, m.dev_err pdev .pci_enable_device)
    | none => (.probing (.phantom_get_free 0) a l, m.acquire (.enabled pdev))
  | .phantom_get_free i =>
    if h : i < PHANTOM_MAX_MINORS then
      if m.phantom_devices[i] = 0 then (.probing .mark a { l with minor := i }, m)
      else (.probing (.phantom_get_free (i + 1)) a l, m)
    else (.failing .err_dis EIO_err l, m.dev_err pdev .too_many)
  | .mark => (.probing .pci_request_regions a l, m.mark l.minor)
  | .pci_request_regions =>
    match a.pci_request_regions with
    | some e => (.failing .err_null e l, m.dev_err pdev .regions)
    | none => (.probing .kzalloc a l, m.acquire (.regions pdev))
  | .kzalloc =>
    if a.kzalloc = false then (.failing .err_reg ENOMEM_err l, m.dev_err pdev .alloc)
    else (.probing .caddr a { l with pht := m.heap.next }, m.kzalloc)
  | .caddr =>
    if a.caddr = NULL then (.failing .err_fr ENOMEM_err l, m.dev_err pdev .conf)
    else (.probing .iaddr a l,
      (m.acquire (.iomap pdev a.caddr)).modify l.pht fun x => { x with caddr := a.caddr })
  | .iaddr =>
    if a.iaddr = NULL then (.failing .err_unmc ENOMEM_err l, m.dev_err pdev .input)
    else (.probing .irqctl a l,
      (m.acquire (.iomap pdev a.iaddr)).modify l.pht fun x => { x with iaddr := a.iaddr })
  | .irqctl => (.probing .request_irq a l, m.iowrite32 0 (m.deref l.pht).caddr PHN_IRQCTL)
  | .request_irq =>
    match a.request_irq with
    | some e => (.failing .err_unmi e l, m.dev_err pdev .isr)
    | none => (.probing .cdev_add a l, m.acquire (.irq pdev l.pht))
  | .cdev_add =>
    match a.cdev_add with
    | some e => (.failing .err_irq e l, m.dev_err pdev .chardev)
    | none => (.probing .device_create a l,
      (m.acquire (.cdev l.pht (MKDEV m.phantom_major l.minor))).modify l.pht
        fun x => { x with dev := MKDEV m.phantom_major l.minor })
  | .device_create => (.probing .pci_set_drvdata a l,
      if a.device_create then m.acquire (.device (MKDEV m.phantom_major l.minor))
      else m.dev_err pdev .device)
  | .pci_set_drvdata => (.returned 0, { m with drvdata := Function.update m.drvdata pdev l.pht })

def Label.exec (retval : Err) (l : Locals) (m : Driver D) : Label → Pc × Driver D
  | .err_irq => (.failing .err_unmi retval l, m.release (.irq pdev l.pht))
  | .err_unmi => (.failing .err_unmc retval l, m.release (.iomap pdev (m.deref l.pht).iaddr))
  | .err_unmc => (.failing .err_fr retval l, m.release (.iomap pdev (m.deref l.pht).caddr))
  | .err_fr => (.failing .err_reg retval l, m.kfree l.pht)
  | .err_reg => (.failing .err_null retval l, m.release (.regions pdev))
  | .err_null => (.failing .err_dis retval l, m.clear l.minor)
  | .err_dis => (.returned retval, m.release (.enabled pdev))

def Remove.exec (l : Locals) (m : Driver D) : Remove → Pc × Driver D
  | .pci_get_drvdata =>
    let pht := m.drvdata pdev
    (.removing .device_destroy ⟨MINOR (m.deref pht).dev, pht⟩, m)
  | .device_destroy =>
    (.removing .cdev_del l, Phantom.device_destroy (MKDEV m.phantom_major l.minor) m)
  | .cdev_del => (.removing .irqctl l, m.release (.cdev l.pht (m.deref l.pht).dev))
  | .irqctl => (.removing .free_irq l, m.iowrite32 0 (m.deref l.pht).caddr PHN_IRQCTL)
  | .free_irq => (.removing .iaddr l, m.release (.irq pdev l.pht))
  | .iaddr => (.removing .caddr l, m.release (.iomap pdev (m.deref l.pht).iaddr))
  | .caddr => (.removing .kfree l, m.release (.iomap pdev (m.deref l.pht).caddr))
  | .kfree => (.removing .pci_release_regions l, m.kfree l.pht)
  | .pci_release_regions => (.removing .clear l, m.release (.regions pdev))
  | .clear => (.removing .pci_disable_device l, m.clear l.minor)
  | .pci_disable_device => (.unbound, m.release (.enabled pdev))

/-- The statement that the core executes next. -/
def Pc.exec (m : Driver D) : Pc → Option (Pc × Driver D)
  | .probing st a l => some (st.exec pdev a l m)
  | .failing st retval l => some (st.exec pdev retval l m)
  | .removing st l => some (st.exec pdev l m)
  | .unbound | .returned _ => none

end Exec

/-- The next statement is `free_irq`. -/
def Pc.frees : Pc → Bool
  | .failing .err_irq _ _ | .removing .free_irq _ => true
  | _ => false

/-! ### The handler -/

def PHN_CONT : ℕ := 16

def PHN_CTL_IRQ : BitVec 32 := 0x10

/-- The statements of `phantom_isr`. -/
inductive Stmt
  | control | wrong | clear | post
deriving DecidableEq

/-- The handler of a device: what it has returned, or where it is. -/
inductive Handler
  | idle (last : Option irqreturn_t)
  | running (dev : Ptr) (st : Stmt)
deriving DecidableEq

def Handler.busy : Handler → Bool
  | .idle _ => false
  | .running _ _ => true

/-- A statement of `phantom_isr`, where it comes to, and whether it prints; `v` is what is
read of the device, and `ratelimit` what `printk_ratelimit` answers. -/
def phantom_isr {D : Type*} (dev : Ptr) (v : BitVec 32) (ratelimit : Bool) (m : Driver D) :
    Stmt → Handler × Driver D × Bool
  | .control =>
    if v &&& PHN_CTL_IRQ = 0 then (.idle (some .IRQ_NONE), m, false)
    else (.running dev .wrong, m, false)
  | .wrong => (.running dev .clear, m, decide (v <<< PHN_CONT ≠ 0) && ratelimit)
  | .clear => (.running dev .post, m.iowrite32 0 (m.deref dev).iaddr 0, false)
  | .post => (.idle (some .IRQ_HANDLED), m, false)

theorem phantom_isr_dev {D : Type*} {dev p : Ptr} {v : BitVec 32} {ratelimit : Bool} {m : Driver D}
    {st st' : Stmt} (h : (phantom_isr dev v ratelimit m st).1 = .running p st') : p = dev := by
  cases st with
  | control =>
    simp only [phantom_isr] at h
    split_ifs at h
    exact (Handler.running.inj h).1.symm
  | wrong => exact (Handler.running.inj h).1.symm
  | clear => exact (Handler.running.inj h).1.symm
  | post => cases h

/-! ### Runs -/

/-- `printed` are the devices of the lines "phantom: wrong interrupt". -/
structure State (D : Type*) where
  mod : Driver D
  pc : D → Pc
  isr : D → Handler
  printed : List D

inductive Ev (D : Type*)
  | probe (pdev : D) (a : Answers)
  | remove (pdev : D)
  | exec (pdev : D)
  | irq (pdev : D) (dev : Ptr)
  | isr (pdev : D) (v : BitVec 32) (ratelimit : Bool)

section Step

variable {D : Type*} [DecidableEq D]

def step (s : State D) : Ev D → Option (State D)
  | .probe pdev a =>
    match s.pc pdev with
    | .unbound => some
        { s with pc := Function.update s.pc pdev (.probing .pci_enable_device a ⟨0, NULL⟩) }
    | .returned e =>
      if e = 0 then none
      else some
        { s with pc := Function.update s.pc pdev (.probing .pci_enable_device a ⟨0, NULL⟩) }
    | _ => none
  | .remove pdev =>
    match s.pc pdev with
    | .returned e =>
      if e = 0 then some
        { s with pc := Function.update s.pc pdev (.removing .pci_get_drvdata ⟨0, NULL⟩) }
      else none
    | _ => none
  | .exec pdev =>
    if (s.pc pdev).frees && (s.isr pdev).busy then none
    else ((s.pc pdev).exec pdev s.mod).map fun r =>
      { s with mod := r.2, pc := Function.update s.pc pdev r.1 }
  | .irq pdev dev =>
    match s.isr pdev with
    | .idle _ =>
      if .irq pdev dev ∈ s.mod.led.held then some
        { s with isr := Function.update s.isr pdev (.running dev .control) }
      else none
    | .running _ _ => none
  | .isr pdev v ratelimit =>
    match s.isr pdev with
    | .running dev st =>
      let r := phantom_isr dev v ratelimit s.mod st
      some
        { s with
          mod := r.2.1
          isr := Function.update s.isr pdev r.1
          printed := if r.2.2 then s.printed ++ [pdev] else s.printed }
    | .idle _ => none

/-- `phantom_init` has succeeded. -/
def start (phantom_class : Ptr) (major : ℕ) : State D where
  mod := (phantom_init ⟨.ok phantom_class, .ok major, none⟩
    ⟨NULL, 0, Vector.replicate PHANTOM_MAX_MINORS 0, Heap.empty, fun _ => NULL, ⟨0, 0⟩, [], []⟩).2
  pc _ := .unbound
  isr _ := .idle none
  printed := []

end Step

/-! ### Calls that are left alone -/

section Alone

variable {D : Type*} [DecidableEq D]

/-- A call that executes some statements. -/
inductive Runs (pdev : D) : Pc → Driver D → Pc → Driver D → Prop
  | refl (pc : Pc) (m : Driver D) : Runs pdev pc m pc m
  | next {pc u pc' : Pc} {m v m' : Driver D} (he : pc.exec pdev m = some (u, v))
    (h : Runs pdev u v pc' m') : Runs pdev pc m pc' m'

variable {pdev : D} {m : Driver D} {a : Answers} {l : Locals}

/-- No handler runs meanwhile, and nothing else happens. -/
theorem Runs.run {pc pc' : Pc} {m' : Driver D} (h : Runs pdev pc m pc' m') :
    ∀ {s : State D}, s.pc pdev = pc → s.mod = m → (s.isr pdev).busy = false →
      ∃ n, Machine.run step s (List.replicate n (Ev.exec pdev)) =
        some { s with mod := m', pc := Function.update s.pc pdev pc' } := by
  induction h with
  | refl pc m =>
    intro s hpc hm _
    refine ⟨0, ?_⟩
    rw [← hpc, ← hm, Function.update_eq_self]
    rfl
  | @next pc u pc' m v m' he _ ih =>
    intro s hpc hm hi
    have hstep : step s (.exec pdev) =
        some { s with mod := v, pc := Function.update s.pc pdev u } := by
      simp only [step, hi, Bool.and_false, Bool.false_eq_true, if_false, hpc, hm, he,
        Option.map_some]
    obtain ⟨n, hn⟩ := ih (s := { s with mod := v, pc := Function.update s.pc pdev u })
      (Function.update_self ..) rfl hi
    refine ⟨n + 1, ?_⟩
    rw [List.replicate_succ, Machine.run_cons, hstep, Option.bind_some, hn, Function.update_idem]

/-- The search, from a slot below which none is free. -/
theorem search_runs {pc' : Pc} {m' : Driver D} {i : ℕ} (hi : i ≤ phantom_get_free m.phantom_devices)
    (h : Runs pdev (.probing (.phantom_get_free (phantom_get_free m.phantom_devices)) a l) m pc' m') :
    Runs pdev (.probing (.phantom_get_free i) a l) m pc' m' := by
  induction hn : phantom_get_free m.phantom_devices - i generalizing i with
  | zero =>
    have heq : i = phantom_get_free m.phantom_devices := by omega
    rw [heq]
    exact h
  | succ n ih =>
    have hlt : i < PHANTOM_MAX_MINORS :=
      Nat.lt_of_lt_of_le (by omega) (phantom_get_free_le m.phantom_devices)
    refine .next ?_ (ih (i := i + 1) (by omega) (by omega))
    have hne := phantom_get_free_least hlt (show i < phantom_get_free m.phantom_devices by omega)
    simp only [Pc.exec, Probe.exec, dif_pos hlt, if_neg hne]

/-! From a label the call returns. -/

theorem err_dis_runs (l : Locals) (e : Err) :
    Runs pdev (.failing .err_dis e l) m (.returned e) (err_dis pdev m) :=
  .next rfl (.refl _ _)

theorem err_null_runs (l : Locals) (e : Err) :
    Runs pdev (.failing .err_null e l) m (.returned e) (err_null pdev l.minor m) :=
  .next rfl (err_dis_runs l e)

theorem err_reg_runs (l : Locals) (e : Err) :
    Runs pdev (.failing .err_reg e l) m (.returned e) (err_reg pdev l.minor m) :=
  .next rfl (err_null_runs l e)

theorem err_fr_runs (l : Locals) (e : Err) :
    Runs pdev (.failing .err_fr e l) m (.returned e) (err_fr pdev l.minor l.pht m) :=
  .next rfl (err_reg_runs l e)

theorem err_unmc_runs (l : Locals) (e : Err) :
    Runs pdev (.failing .err_unmc e l) m (.returned e) (err_unmc pdev l.minor l.pht m) :=
  .next rfl (err_fr_runs l e)

theorem err_unmi_runs (l : Locals) (e : Err) :
    Runs pdev (.failing .err_unmi e l) m (.returned e) (err_unmi pdev l.minor l.pht m) :=
  .next rfl (err_unmc_runs l e)

theorem err_irq_runs (l : Locals) (e : Err) :
    Runs pdev (.failing .err_irq e l) m (.returned e) (err_irq pdev l.minor l.pht m) :=
  .next rfl (err_unmi_runs l e)

theorem probe_runs : Runs pdev (.probing .pci_enable_device a ⟨0, NULL⟩) m
    (.returned (phantom_probe pdev a m).1) (phantom_probe pdev a m).2 := by
  unfold phantom_probe
  rcases h1 : a.pci_enable_device with _ | e
  swap
  · refine .next ?_ (.refl _ _)
    simp only [Pc.exec, Probe.exec, h1]
  refine .next (u := .probing (.phantom_get_free 0) a ⟨0, NULL⟩) (v := m.acquire (.enabled pdev)) ?_
    (search_runs (Nat.zero_le _) ?_)
  · simp only [Pc.exec, Probe.exec, h1]
  by_cases h2 : phantom_get_free (m.acquire (.enabled pdev)).phantom_devices = PHANTOM_MAX_MINORS
  · simp only [if_pos h2]
    refine .next ?_ (err_dis_runs ⟨0, NULL⟩ EIO_err)
    simp only [Pc.exec, Probe.exec, h2, lt_irrefl, dif_neg, not_false_eq_true]
  simp only [if_neg h2]
  have hlt := lt_of_le_of_ne (phantom_get_free_le (m.acquire (.enabled pdev)).phantom_devices) h2
  have hzero := phantom_get_free_zero hlt
  refine .next (u := .probing .mark a ⟨phantom_get_free (m.acquire (.enabled pdev)).phantom_devices,
    NULL⟩) (v := m.acquire (.enabled pdev)) ?_ ?_
  · simp only [Pc.exec, Probe.exec, dif_pos hlt, hzero, if_true]
  generalize phantom_get_free (m.acquire (.enabled pdev)).phantom_devices = minor
  refine .next rfl ?_
  rcases h3 : a.pci_request_regions with _ | e
  swap
  · refine .next ?_ (err_null_runs ⟨minor, NULL⟩ e)
    simp only [Pc.exec, Probe.exec, h3]
  refine .next (u := .probing .kzalloc a ⟨minor, NULL⟩)
    (v := ((m.acquire (.enabled pdev)).mark minor).acquire (.regions pdev)) ?_ ?_
  · simp only [Pc.exec, Probe.exec, h3]
  generalize ((m.acquire (.enabled pdev)).mark minor).acquire (.regions pdev) = m₃
  by_cases h4 : a.kzalloc = false
  · simp only [if_pos h4]
    refine .next ?_ (err_reg_runs ⟨minor, NULL⟩ ENOMEM_err)
    simp only [Pc.exec, Probe.exec, if_pos h4]
  simp only [if_neg h4]
  refine .next (u := .probing .caddr a ⟨minor, m₃.heap.next⟩) (v := m₃.kzalloc) ?_ ?_
  · simp only [Pc.exec, Probe.exec, if_neg h4]
  generalize m₃.heap.next = pht, m₃.kzalloc = m₄
  by_cases h5 : a.caddr = NULL
  · simp only [if_pos h5]
    refine .next ?_ (err_fr_runs ⟨minor, pht⟩ ENOMEM_err)
    simp only [Pc.exec, Probe.exec, if_pos h5]
  simp only [if_neg h5]
  refine .next (u := .probing .iaddr a ⟨minor, pht⟩)
    (v := (m₄.acquire (.iomap pdev a.caddr)).modify pht fun x => { x with caddr := a.caddr }) ?_ ?_
  · simp only [Pc.exec, Probe.exec, if_neg h5]
  generalize (m₄.acquire (.iomap pdev a.caddr)).modify pht
    (fun x => { x with caddr := a.caddr }) = m₅
  by_cases h6 : a.iaddr = NULL
  · simp only [if_pos h6]
    refine .next ?_ (err_unmc_runs ⟨minor, pht⟩ ENOMEM_err)
    simp only [Pc.exec, Probe.exec, if_pos h6]
  simp only [if_neg h6]
  refine .next (u := .probing .irqctl a ⟨minor, pht⟩)
    (v := (m₅.acquire (.iomap pdev a.iaddr)).modify pht fun x => { x with iaddr := a.iaddr }) ?_ ?_
  · simp only [Pc.exec, Probe.exec, if_neg h6]
  generalize (m₅.acquire (.iomap pdev a.iaddr)).modify pht
    (fun x => { x with iaddr := a.iaddr }) = m₆
  refine .next rfl ?_
  rcases h7 : a.request_irq with _ | e
  swap
  · refine .next ?_ (err_unmi_runs ⟨minor, pht⟩ e)
    simp only [Pc.exec, Probe.exec, h7]
  refine .next (u := .probing .cdev_add a ⟨minor, pht⟩)
    (v := (m₆.iowrite32 0 (m₆.deref pht).caddr PHN_IRQCTL).acquire (.irq pdev pht)) ?_ ?_
  · simp only [Pc.exec, Probe.exec, h7]
  rcases h8 : a.cdev_add with _ | e
  swap
  · refine .next ?_ (err_irq_runs ⟨minor, pht⟩ e)
    simp only [Pc.exec, Probe.exec, h8]
  refine .next (u := .probing .device_create a ⟨minor, pht⟩) ?_ (.next rfl (.next rfl (.refl _ _)))
  simp only [Pc.exec, Probe.exec, h8]

/-- **A probe that is left alone** is `phantom_probe`. -/
theorem probe_alone {s : State D} (hpc : s.pc pdev = .unbound) (hi : (s.isr pdev).busy = false)
    (a : Answers) : ∃ n, Machine.run step s (.probe pdev a :: List.replicate n (Ev.exec pdev)) =
      some { s with
        mod := (phantom_probe pdev a s.mod).2
        pc := Function.update s.pc pdev (.returned (phantom_probe pdev a s.mod).1) } := by
  have hstep : step s (.probe pdev a) = some
      { s with pc := Function.update s.pc pdev (.probing .pci_enable_device a ⟨0, NULL⟩) } := by
    simp only [step, hpc]
  obtain ⟨n, hn⟩ := (probe_runs (a := a)).run (s := { s with
      pc := Function.update s.pc pdev (.probing .pci_enable_device a ⟨0, NULL⟩) })
    (Function.update_self ..) rfl hi
  refine ⟨n, ?_⟩
  rw [Machine.run_cons, hstep, Option.bind_some, hn, Function.update_idem]

/-- **A removal that is left alone** is `phantom_remove`. -/
theorem remove_alone {s : State D} (hpc : s.pc pdev = .returned 0)
    (hi : (s.isr pdev).busy = false) :
    ∃ n, Machine.run step s (.remove pdev :: List.replicate n (Ev.exec pdev)) =
      some { s with
        mod := phantom_remove pdev s.mod
        pc := Function.update s.pc pdev .unbound } := by
  have hstep : step s (.remove pdev) = some
      { s with pc := Function.update s.pc pdev (.removing .pci_get_drvdata ⟨0, NULL⟩) } := by
    simp only [step, hpc, if_true]
  have hruns : Runs pdev (.removing .pci_get_drvdata ⟨0, NULL⟩) s.mod .unbound
      (phantom_remove pdev s.mod) :=
    .next rfl (.next rfl (.next rfl (.next rfl (.next rfl (.next rfl (.next rfl (.next rfl
      (.next rfl (.next rfl (.next rfl (.refl _ _)))))))))))
  obtain ⟨n, hn⟩ := hruns.run (s := { s with
      pc := Function.update s.pc pdev (.removing .pci_get_drvdata ⟨0, NULL⟩) })
    (Function.update_self ..) rfl hi
  refine ⟨n, ?_⟩
  rw [Machine.run_cons, hstep, Option.bind_some, hn, Function.update_idem]

end Alone

/-! ### What a device holds at each point -/

/-- How much there is of a device: nothing, its memory, its two mappings, its interrupt. -/
def Pc.level : Pc → ℕ
  | .probing .caddr _ _ | .failing .err_fr _ _ | .removing .kfree _ => 1
  | .probing .iaddr _ _ | .failing .err_unmc _ _ | .removing .caddr _ => 2
  | .probing .irqctl _ _ | .probing .request_irq _ _ | .failing .err_unmi _ _
  | .removing .iaddr _ => 3
  | .probing .cdev_add _ _ | .probing .device_create _ _ | .probing .pci_set_drvdata _ _
  | .failing .err_irq _ _ | .removing .pci_get_drvdata _ | .removing .device_destroy _
  | .removing .cdev_del _ | .removing .irqctl _ | .removing .free_irq _ => 4
  | .returned e => if e = 0 then 4 else 0
  | _ => 0

/-- Where its structure is. -/
def Pc.pht (drvdata : Ptr) : Pc → Ptr
  | .probing _ _ l | .failing _ _ l => l.pht
  | .removing .pci_get_drvdata _ | .returned _ | .unbound => drvdata
  | .removing _ l => l.pht

section Hold

variable {D : Type*} [DecidableEq D]

/-- How many mappings of the device are at `a`. -/
def maps (x : phantom_device) (lv : ℕ) (a : Ptr) : ℕ :=
  (if 2 ≤ lv ∧ a = x.caddr then 1 else 0) + if 3 ≤ lv ∧ a = x.iaddr then 1 else 0

theorem maps_four (x : phantom_device) (a : Ptr) : maps x 4 a = maps x 3 a := by
  simp [maps]

/-- What is held for the device `pdev`, whose structure is `x`, at `p`. -/
structure Has (m : Driver D) (pdev : D) (p : Ptr) (lv : ℕ) (x : phantom_device) : Prop where
  live : 1 ≤ lv → m.heap.get p = some x
  iomap : ∀ a, m.led.held.count (.iomap pdev a) = maps x lv a
  irq : ∀ q, m.led.held.count (.irq pdev q) = if lv = 4 ∧ q = p then 1 else 0

/-- The resources that are not looked at. -/
def plain : Res D → Bool
  | .iomap _ _ | .irq _ _ => false
  | _ => true

/-- Nothing that is looked at changes. -/
structure Still (m t : Driver D) : Prop where
  heap : t.heap = m.heap
  drvdata : t.drvdata = m.drvdata
  held : ∀ r, plain r = false → t.led.held.count r = m.led.held.count r
  bad : ∀ r, plain r = false → t.led.bad.count r = m.led.bad.count r

variable {m t : Driver D} {pdev : D} {r : Res D}

omit [DecidableEq D] in
theorem ne_of_plain {r q : Res D} (hr : plain r = true) (hq : plain q = false) : q ≠ r := by
  rintro rfl
  exact absurd (hr.symm.trans hq) (by decide)

theorem still_refl (m : Driver D) : Still m m := ⟨rfl, rfl, fun _ _ => rfl, fun _ _ => rfl⟩

theorem still_acquire (m : Driver D) (hr : plain r = true) : Still m (m.acquire r) where
  heap := rfl
  drvdata := rfl
  held q hq := by
    show (m.led.acquire r).held.count q = _
    rw [Ledger.count_acquire, if_neg (ne_of_plain hr hq), Nat.add_zero]
  bad _ _ := rfl

theorem still_release (m : Driver D) (hr : plain r = true) : Still m (m.release r) where
  heap := rfl
  drvdata := rfl
  held q hq := by
    show (m.led.release r).held.count q = _
    rw [Ledger.count_release, if_neg (ne_of_plain hr hq), Nat.sub_zero]
  bad q hq := Ledger.count_bad_release _ (ne_of_plain hr hq)

theorem still_mark (m : Driver D) (i : ℕ) : Still m (m.mark i) :=
  have h := still_acquire (r := .minor i) m rfl
  ⟨rfl, rfl, h.held, h.bad⟩

theorem still_clear (m : Driver D) (i : ℕ) : Still m (m.clear i) :=
  have h := still_release (r := .minor i) m rfl
  ⟨rfl, rfl, h.held, h.bad⟩

theorem still_device_destroy (m : Driver D) (dev : ℕ) : Still m (device_destroy dev m) := by
  unfold device_destroy
  split_ifs
  · exact still_release m rfl
  · exact still_refl m

/-- What a statement of the call for `pdev` does: nothing to what is held for the others, and
what it should to its own. -/
structure Goes (pdev : D) (lv : ℕ) (p : Ptr) (m : Driver D) (lv' : ℕ) (p' : Ptr) (t : Driver D) :
    Prop where
  drvdata : ∀ d, d ≠ pdev → t.drvdata d = m.drvdata d
  iomap : ∀ d a, d ≠ pdev → t.led.held.count (.iomap d a) = m.led.held.count (.iomap d a)
  irq : ∀ d q, d ≠ pdev → t.led.held.count (.irq d q) = m.led.held.count (.irq d q)
  get : ∀ q x, (1 ≤ lv → q ≠ p) → m.heap.get q = some x → t.heap.get q = some x
  place : 1 ≤ lv' → (1 ≤ lv ∧ p' = p) ∨ m.heap.get p' = none
  has : ∃ x, Has t pdev p' lv' x
  bad : ∀ r, plain r = false → t.led.bad.count r = m.led.bad.count r

variable {p p' : Ptr} {lv : ℕ} {x : phantom_device} {u : Driver D}

theorem goes_still (h : Has m pdev p lv x) (hs : Still m t) (hp : 1 ≤ lv → p' = p) :
    Goes pdev lv p m lv p' t where
  drvdata d _ := by rw [hs.drvdata]
  iomap d a _ := hs.held _ rfl
  irq d q _ := hs.held _ rfl
  get q y _ hq := by rwa [hs.heap]
  place hlv := .inl ⟨hlv, hp hlv⟩
  has := by
    refine ⟨x, fun hlv => ?_, fun a => ?_, fun q => ?_⟩
    · rw [hs.heap, hp hlv]
      exact h.live hlv
    · rw [hs.held _ rfl]
      exact h.iomap a
    · rw [hs.held _ rfl, h.irq q]
      by_cases h4 : lv = 4
      · rw [hp (by omega)]
      · rw [if_neg fun hc => h4 hc.1, if_neg fun hc => h4 hc.1]
  bad := hs.bad

theorem goes_kzalloc (h : Has m pdev p 0 x) : Goes pdev 0 p m 1 m.heap.next m.kzalloc where
  drvdata _ _ := rfl
  iomap _ _ _ := (still_acquire (r := .pht m.heap.next) m rfl).held _ rfl
  irq _ _ _ := (still_acquire (r := .pht m.heap.next) m rfl).held _ rfl
  get _ _ _ hq := Heap.get_alloc hq
  place _ := .inr (m.heap.fresh _ le_rfl)
  has := by
    have hs := still_acquire (r := .pht m.heap.next) m rfl
    refine ⟨⟨0, NULL, NULL, 0⟩, fun _ => Heap.get_alloc_self _, fun a => ?_, fun q => ?_⟩
    · exact (hs.held (.iomap pdev a) rfl).trans (h.iomap a)
    · exact (hs.held (.irq pdev q) rfl).trans (h.irq q)
  bad _ _ := rfl

/-- A write to the structure, which may note a mapping that has just been made. -/
theorem goes_modify {lv' : ℕ} {put : phantom_device → phantom_device} (h : Has m pdev p lv x)
    (h1 : 1 ≤ lv) (hu : u.heap = m.heap) (hd : u.drvdata = m.drvdata)
    (hb : u.led.bad = m.led.bad)
    (ho : ∀ r, plain r = false → (∀ a, r ≠ .iomap pdev a) →
      u.led.held.count r = m.led.held.count r)
    (hm : ∀ a, u.led.held.count (.iomap pdev a) = maps (put x) lv' a) (h4 : lv = 4 ↔ lv' = 4) :
    Goes pdev lv p m lv' p (u.modify p put) where
  drvdata d _ := congrFun hd d
  iomap d a hne := ho _ rfl fun b hb => hne (Res.iomap.inj hb).1
  irq d q _ := ho _ rfl fun b hb => by cases hb
  get q y hq hy := by
    rw [Driver.get_modify_of_ne u (hq h1), hu]
    exact hy
  place _ := .inl ⟨h1, rfl⟩
  has := by
    refine ⟨put x, fun _ => ?_, hm, fun q => ?_⟩
    · apply Driver.get_modify_self
      rw [hu]
      exact h.live h1
    · have hirq := ho (.irq pdev q) rfl fun b hb => by cases hb
      simp only [← h4]
      exact hirq.trans (h.irq q)
  bad r _ := congrArg (Multiset.count r) hb

theorem goes_map {a : Ptr} {put : phantom_device → phantom_device} (h : Has m pdev p lv x)
    (h1 : 1 ≤ lv) (h3 : lv < 3)
    (hm : ∀ b, maps (put x) (lv + 1) b = maps x lv b + if b = a then 1 else 0) :
    Goes pdev lv p m (lv + 1) p ((m.acquire (.iomap pdev a)).modify p put) := by
  have hcount : ∀ r, (m.acquire (.iomap pdev a)).led.held.count r =
      m.led.held.count r + if r = .iomap pdev a then 1 else 0 := m.led.count_acquire _
  refine goes_modify h h1 rfl rfl rfl (fun r _ hr => ?_) (fun b => ?_) (by omega)
  · rw [hcount, if_neg (hr a), Nat.add_zero]
  · rw [hcount, h.iomap b, hm b]
    simp only [Res.iomap.injEq, true_and]

theorem goes_unmap {a : Ptr} (h : Has m pdev p (lv + 1) x) (h1 : 1 ≤ lv) (h3 : lv < 3)
    (hm : ∀ b, maps x (lv + 1) b = maps x lv b + if b = a then 1 else 0) :
    Goes pdev (lv + 1) p m lv p (m.release (.iomap pdev a)) where
  drvdata _ _ := rfl
  iomap d b hne := by
    show (m.led.release _).held.count _ = _
    rw [Ledger.count_release, if_neg fun hb => hne (Res.iomap.inj hb).1, Nat.sub_zero]
  irq d q _ := by
    show (m.led.release _).held.count _ = _
    rw [Ledger.count_release, if_neg nofun, Nat.sub_zero]
  get _ _ _ hy := hy
  place _ := .inl ⟨by omega, rfl⟩
  has := by
    refine ⟨x, fun _ => h.live (by omega), fun b => ?_, fun q => ?_⟩
    · show (m.led.release _).held.count _ = _
      rw [Ledger.count_release, h.iomap b, hm b]
      simp only [Res.iomap.injEq, true_and, Nat.add_sub_cancel]
    · show (m.led.release _).held.count _ = _
      rw [Ledger.count_release, if_neg nofun, Nat.sub_zero, h.irq q,
        if_neg fun hc => by omega, if_neg fun hc => by omega]
  bad r _ := by
    have hheld : 0 < m.led.held.count (.iomap pdev a) := by
      rw [h.iomap a, hm a, if_pos rfl]
      omega
    exact congrArg (Multiset.count r) (Ledger.bad_release hheld)

theorem goes_request_irq (h : Has m pdev p 3 x) :
    Goes pdev 3 p m 4 p (m.acquire (.irq pdev p)) where
  drvdata _ _ := rfl
  iomap d a _ := by
    show (m.led.acquire _).held.count _ = _
    rw [Ledger.count_acquire, if_neg nofun, Nat.add_zero]
  irq d q hne := by
    show (m.led.acquire _).held.count _ = _
    rw [Ledger.count_acquire, if_neg fun hq => hne (Res.irq.inj hq).1, Nat.add_zero]
  get _ _ _ hy := hy
  place _ := .inl ⟨by decide, rfl⟩
  has := by
    refine ⟨x, fun _ => h.live (by decide), fun a => ?_, fun q => ?_⟩
    · show (m.led.acquire _).held.count _ = _
      rw [Ledger.count_acquire, if_neg nofun, Nat.add_zero, h.iomap a, maps_four]
    · show (m.led.acquire _).held.count _ = _
      rw [Ledger.count_acquire, h.irq q]
      simp
  bad _ _ := rfl

theorem goes_free_irq (h : Has m pdev p 4 x) :
    Goes pdev 4 p m 3 p (m.release (.irq pdev p)) where
  drvdata _ _ := rfl
  iomap d a _ := by
    show (m.led.release _).held.count _ = _
    rw [Ledger.count_release, if_neg nofun, Nat.sub_zero]
  irq d q hne := by
    show (m.led.release _).held.count _ = _
    rw [Ledger.count_release, if_neg fun hq => hne (Res.irq.inj hq).1, Nat.sub_zero]
  get _ _ _ hy := hy
  place _ := .inl ⟨by decide, rfl⟩
  has := by
    refine ⟨x, fun _ => h.live (by decide), fun a => ?_, fun q => ?_⟩
    · show (m.led.release _).held.count _ = _
      rw [Ledger.count_release, if_neg nofun, Nat.sub_zero, h.iomap a, maps_four]
    · show (m.led.release _).held.count _ = _
      rw [Ledger.count_release, h.irq q]
      simp
  bad r _ := by
    have hheld : 0 < m.led.held.count (.irq pdev p) := by
      rw [h.irq p, if_pos ⟨rfl, rfl⟩]
      exact Nat.one_pos
    exact congrArg (Multiset.count r) (Ledger.bad_release hheld)

theorem goes_kfree (h : Has m pdev p 1 x) : Goes pdev 1 p m 0 p' (m.kfree p) where
  drvdata _ _ := rfl
  iomap _ _ _ := (still_release (r := .pht p) m rfl).held _ rfl
  irq _ _ _ := (still_release (r := .pht p) m rfl).held _ rfl
  get q _ hq hy := Heap.get_free_eq_some.mpr ⟨hq le_rfl, hy⟩
  place h0 := absurd h0 (by decide)
  has := by
    have hs := still_release (r := .pht p) m rfl
    refine ⟨x, fun h0 => absurd h0 (by decide), fun a => ?_, fun q => ?_⟩
    · exact (hs.held (.iomap pdev a) rfl).trans (h.iomap a)
    · exact (hs.held (.irq pdev q) rfl).trans (h.irq q)
  bad := (still_release (r := .pht p) m rfl).bad

theorem goes_drvdata (h : Has m pdev p 4 x) :
    Goes pdev 4 p m 4 p { m with drvdata := Function.update m.drvdata pdev p } where
  drvdata _ hd := Function.update_of_ne hd ..
  iomap _ _ _ := rfl
  irq _ _ _ := rfl
  get _ _ _ hy := hy
  place _ := .inl ⟨by decide, rfl⟩
  has := ⟨x, h.live, h.iomap, h.irq⟩
  bad _ _ := rfl

theorem goes_map_caddr {a : Ptr} (h : Has m pdev p 1 x) : Goes pdev 1 p m 2 p
    ((m.acquire (.iomap pdev a)).modify p fun y => { y with caddr := a }) :=
  goes_map h le_rfl (by decide) fun b => by simp [maps]

theorem goes_map_iaddr {a : Ptr} (h : Has m pdev p 2 x) : Goes pdev 2 p m 3 p
    ((m.acquire (.iomap pdev a)).modify p fun y => { y with iaddr := a }) :=
  goes_map h (by decide) (by decide) fun b => by simp [maps]

theorem goes_unmap_iaddr (h : Has m pdev p 3 x) :
    Goes pdev 3 p m 2 p (m.release (.iomap pdev (m.deref p).iaddr)) := by
  rw [m.deref_of (h.live (by decide))]
  exact goes_unmap h (by decide) (by decide) fun b => by simp [maps]

theorem goes_unmap_caddr (h : Has m pdev p 2 x) :
    Goes pdev 2 p m 1 p (m.release (.iomap pdev (m.deref p).caddr)) := by
  rw [m.deref_of (h.live (by decide))]
  exact goes_unmap h le_rfl (by decide) fun b => by simp [maps]

theorem goes_cdev_add {dev : ℕ} (h : Has m pdev p 4 x) : Goes pdev 4 p m 4 p
    ((m.acquire (.cdev p dev)).modify p fun y => { y with dev := dev }) := by
  have hs := still_acquire (r := .cdev p dev) m rfl
  refine goes_modify h (by decide) rfl rfl rfl (fun r hr _ => hs.held r hr) (fun b => ?_) Iff.rfl
  rw [hs.held _ rfl, h.iomap b]
  rfl

/-- **A statement of `phantom_probe`.** -/
theorem probe_goes (st : Probe) (a : Answers) (l : Locals)
    (h : Has m pdev l.pht (Pc.probing st a l).level x) :
    Goes pdev (Pc.probing st a l).level l.pht m (st.exec pdev a l m).1.level
      ((st.exec pdev a l m).1.pht ((st.exec pdev a l m).2.drvdata pdev)) (st.exec pdev a l m).2 := by
  cases st with
  | pci_enable_device =>
    simp only [Probe.exec]
    rcases a.pci_enable_device with _ | e
    · exact goes_still h (still_acquire m rfl) nofun
    · have he : ¬ e.1 = 0 := by have := e.2; omega
      simp only [Pc.level, if_neg he]
      exact goes_still h ⟨rfl, rfl, fun _ _ => rfl, fun _ _ => rfl⟩ nofun
  | phantom_get_free i =>
    simp only [Probe.exec]
    split_ifs
    · exact goes_still h (still_refl m) nofun
    · exact goes_still h (still_refl m) nofun
    · exact goes_still h ⟨rfl, rfl, fun _ _ => rfl, fun _ _ => rfl⟩ nofun
  | mark => exact goes_still h (still_mark m l.minor) nofun
  | pci_request_regions =>
    simp only [Probe.exec]
    rcases a.pci_request_regions with _ | e
    · exact goes_still h (still_acquire m rfl) nofun
    · exact goes_still h ⟨rfl, rfl, fun _ _ => rfl, fun _ _ => rfl⟩ nofun
  | kzalloc =>
    simp only [Probe.exec]
    split_ifs
    · exact goes_still h ⟨rfl, rfl, fun _ _ => rfl, fun _ _ => rfl⟩ nofun
    · exact goes_kzalloc h
  | caddr =>
    simp only [Probe.exec]
    split_ifs
    · exact goes_still h ⟨rfl, rfl, fun _ _ => rfl, fun _ _ => rfl⟩ fun _ => rfl
    · exact goes_map_caddr h
  | iaddr =>
    simp only [Probe.exec]
    split_ifs
    · exact goes_still h ⟨rfl, rfl, fun _ _ => rfl, fun _ _ => rfl⟩ fun _ => rfl
    · exact goes_map_iaddr h
  | irqctl => exact goes_still h ⟨rfl, rfl, fun _ _ => rfl, fun _ _ => rfl⟩ fun _ => rfl
  | request_irq =>
    simp only [Probe.exec]
    rcases a.request_irq with _ | e
    · exact goes_request_irq h
    · exact goes_still h ⟨rfl, rfl, fun _ _ => rfl, fun _ _ => rfl⟩ fun _ => rfl
  | cdev_add =>
    simp only [Probe.exec]
    rcases a.cdev_add with _ | e
    · exact goes_cdev_add h
    · exact goes_still h ⟨rfl, rfl, fun _ _ => rfl, fun _ _ => rfl⟩ fun _ => rfl
  | device_create =>
    simp only [Probe.exec]
    split_ifs
    · exact goes_still h (still_acquire m rfl) fun _ => rfl
    · exact goes_still h ⟨rfl, rfl, fun _ _ => rfl, fun _ _ => rfl⟩ fun _ => rfl
  | pci_set_drvdata =>
    have hg := goes_drvdata h
    simp only [Probe.exec, Pc.pht, Function.update_self]
    exact hg

/-- **A label.** -/
theorem label_goes (st : Label) (e : Err) (l : Locals)
    (h : Has m pdev l.pht (Pc.failing st e l).level x) :
    Goes pdev (Pc.failing st e l).level l.pht m (st.exec pdev e l m).1.level
      ((st.exec pdev e l m).1.pht ((st.exec pdev e l m).2.drvdata pdev)) (st.exec pdev e l m).2 := by
  cases st with
  | err_irq => exact goes_free_irq h
  | err_unmi => exact goes_unmap_iaddr h
  | err_unmc => exact goes_unmap_caddr h
  | err_fr => exact goes_kfree h
  | err_reg => exact goes_still h (still_release m rfl) nofun
  | err_null => exact goes_still h (still_clear m l.minor) nofun
  | err_dis =>
    have he : ¬ e.1 = 0 := by have := e.2; omega
    simp only [Label.exec, Pc.level, if_neg he]
    exact goes_still h (still_release m rfl) nofun

/-- **A statement of `phantom_remove`.** -/
theorem remove_goes (st : Remove) (l : Locals)
    (h : Has m pdev ((Pc.removing st l).pht (m.drvdata pdev)) (Pc.removing st l).level x) :
    Goes pdev (Pc.removing st l).level ((Pc.removing st l).pht (m.drvdata pdev)) m
      (st.exec pdev l m).1.level ((st.exec pdev l m).1.pht ((st.exec pdev l m).2.drvdata pdev))
      (st.exec pdev l m).2 := by
  cases st with
  | pci_get_drvdata => exact goes_still h (still_refl m) fun _ => rfl
  | device_destroy => exact goes_still h (still_device_destroy m _) fun _ => rfl
  | cdev_del => exact goes_still h (still_release m rfl) fun _ => rfl
  | irqctl => exact goes_still h ⟨rfl, rfl, fun _ _ => rfl, fun _ _ => rfl⟩ fun _ => rfl
  | free_irq => exact goes_free_irq h
  | iaddr => exact goes_unmap_iaddr h
  | caddr => exact goes_unmap_caddr h
  | kfree => exact goes_kfree h
  | pci_release_regions => exact goes_still h (still_release m rfl) nofun
  | clear => exact goes_still h (still_clear m l.minor) nofun
  | pci_disable_device => exact goes_still h (still_release m rfl) nofun

/-- **A statement of a call.** -/
theorem pc_goes {pc : Pc} {r : Pc × Driver D} (h : Has m pdev (pc.pht (m.drvdata pdev)) pc.level x)
    (he : pc.exec pdev m = some r) :
    Goes pdev pc.level (pc.pht (m.drvdata pdev)) m r.1.level (r.1.pht (r.2.drvdata pdev)) r.2 := by
  cases pc with
  | unbound => cases he
  | probing st a l =>
    obtain rfl := Option.some.inj he
    exact probe_goes st a l h
  | failing st e l =>
    obtain rfl := Option.some.inj he
    exact label_goes st e l h
  | returned e => cases he
  | removing st l =>
    obtain rfl := Option.some.inj he
    exact remove_goes st l h

end Hold

/-! ### Every interleaving -/

/-- The next statement reads, writes or frees the structure. -/
def Pc.uses : Pc → Bool
  | .probing .caddr _ _ | .probing .iaddr _ _ | .probing .irqctl _ _ | .probing .cdev_add _ _
  | .failing .err_unmi _ _ | .failing .err_unmc _ _ | .failing .err_fr _ _
  | .removing .pci_get_drvdata _ | .removing .cdev_del _ | .removing .irqctl _
  | .removing .iaddr _ | .removing .caddr _ | .removing .kfree _ => true
  | _ => false

/-- It writes to the register `PHN_IRQCTL`. -/
def Pc.writes : Pc → Bool
  | .probing .irqctl _ _ | .removing .irqctl _ => true
  | _ => false

section Run

variable {D : Type*}

def State.level (s : State D) (d : D) : ℕ := (s.pc d).level

def State.pht (s : State D) (d : D) : Ptr := (s.pc d).pht (s.mod.drvdata d)

variable [DecidableEq D]

/-- The interrupt of `pdev`, requested with whatever structure. -/
def isIrq (pdev : D) : Res D → Bool
  | .irq d _ => d = pdev
  | _ => false

/-- What is accessed is there, and nothing is released twice. -/
structure Safe (s : State D) (d : D) : Prop where
  /-- A handler that runs, at whatever statement. -/
  isr : ∀ p st, s.isr d = .running p st →
    ∃ x, s.mod.heap.get p = some x ∧ .iomap d x.iaddr ∈ s.mod.led.held
  /-- One that may start. -/
  irq : ∀ p, .irq d p ∈ s.mod.led.held →
    ∃ x, s.mod.heap.get p = some x ∧ .iomap d x.iaddr ∈ s.mod.led.held
  once : s.mod.led.held.countP (fun r => isIrq d r) ≤ 1
  call : (s.pc d).uses = true → ∃ x, s.mod.heap.get (s.pht d) = some x ∧
    ((s.pc d).writes = true → .iomap d x.caddr ∈ s.mod.led.held)
  bad : ∀ r, plain r = false → r ∉ s.mod.led.bad

structure Inv (s : State D) : Prop where
  has : ∀ d, ∃ x, Has s.mod d (s.pht d) (s.level d) x
  apart : ∀ d d', 1 ≤ s.level d → 1 ≤ s.level d' → s.pht d = s.pht d' → d = d'
  isr : ∀ d p st, s.isr d = .running p st → s.level d = 4 ∧ p = s.pht d
  bad : ∀ r, plain r = false → s.mod.led.bad.count r = 0

variable {s t : State D} {pdev : D}

theorem inv_start (cls : Ptr) (major : ℕ) : Inv (start cls major : State D) where
  has d := by
    refine ⟨⟨0, NULL, NULL, 0⟩, fun h0 => absurd h0 (Nat.not_succ_le_zero 0), fun a => ?_,
      fun q => ?_⟩
    · refine Multiset.count_eq_zero.mpr fun hm => ?_
      simp [start, phantom_init, Driver.acquire, Ledger.acquire] at hm
    · refine Multiset.count_eq_zero.mpr fun hm => ?_
      simp [start, phantom_init, Driver.acquire, Ledger.acquire] at hm
  apart d d' h0 := absurd h0 (Nat.not_succ_le_zero 0)
  isr := nofun
  bad r _ := Multiset.count_zero r

theorem Pc.one_le_level {pc : Pc} (h : pc.uses = true) : 1 ≤ pc.level := by
  unfold Pc.uses at h
  split at h
  case h_14 => cases h
  all_goals exact Nat.le_of_ble_eq_true rfl

theorem Pc.two_le_level {pc : Pc} (h : pc.writes = true) : 2 ≤ pc.level := by
  unfold Pc.writes at h
  split at h
  case h_3 => cases h
  all_goals exact Nat.le_of_ble_eq_true rfl

/-- The interrupt stays requested where the next statement is not `free_irq`. -/
theorem Pc.keeps_irq {pc : Pc} {m : Driver D} {r : Pc × Driver D} (h4 : pc.level = 4)
    (hf : pc.frees = false) (he : pc.exec pdev m = some r) :
    r.1.level = 4 ∧ r.1.pht (r.2.drvdata pdev) = pc.pht (m.drvdata pdev) := by
  cases pc with
  | unbound => cases he
  | returned e => cases he
  | probing st a l =>
    obtain rfl := Option.some.inj he
    cases st <;> cases h4
    · simp only [Probe.exec]
      rcases a.cdev_add with _ | e <;> exact ⟨rfl, rfl⟩
    · exact ⟨rfl, rfl⟩
    · exact ⟨rfl, Function.update_self ..⟩
  | failing st e l =>
    cases st <;> cases h4
    cases hf
  | removing st l =>
    obtain rfl := Option.some.inj he
    cases st <;> cases h4 <;> cases hf <;> exact ⟨rfl, rfl⟩

theorem Inv.core (h : Inv s) {pc : Pc} {m : Driver D}
    (hg : Goes pdev (s.level pdev) (s.pht pdev) s.mod pc.level (pc.pht (m.drvdata pdev)) m)
    (hr : ∀ p st, s.isr pdev = .running p st →
      pc.level = 4 ∧ pc.pht (m.drvdata pdev) = s.pht pdev)
    (hm : t.mod = m) (hp : t.pc = Function.update s.pc pdev pc) (hi : t.isr = s.isr) : Inv t := by
  have hown : t.level pdev = pc.level ∧ t.pht pdev = pc.pht (m.drvdata pdev) := by
    unfold State.level State.pht
    rw [hp, hm, Function.update_self]
    exact ⟨rfl, rfl⟩
  have hother : ∀ d, d ≠ pdev → t.level d = s.level d ∧ t.pht d = s.pht d := by
    intro d hd
    unfold State.level State.pht
    rw [hp, hm, Function.update_of_ne hd, hg.drvdata d hd]
    exact ⟨rfl, rfl⟩
  -- the structures of the others are not those of the device
  have hne : ∀ d, d ≠ pdev → 1 ≤ s.level d → 1 ≤ s.level pdev → s.pht d ≠ s.pht pdev :=
    fun d hd h1 h1' he => hd (h.apart d pdev h1 h1' he)
  have hplace : ∀ d, d ≠ pdev → 1 ≤ s.level d → 1 ≤ pc.level →
      s.pht d ≠ pc.pht (m.drvdata pdev) := by
    intro d hd h1 h1' he
    rcases hg.place h1' with ⟨hlv, hpe⟩ | hnone
    · exact hne d hd h1 hlv (he.trans hpe)
    · obtain ⟨x, hx⟩ := h.has d
      rw [← he, hx.live h1] at hnone
      cases hnone
  refine ⟨fun d => ?_, fun d d' h1 h1' he => ?_, fun d p st hrun => ?_, fun r hr => ?_⟩
  · by_cases hd : d = pdev
    · subst hd
      rw [hown.1, hown.2, hm]
      exact hg.has
    · obtain ⟨x, hx⟩ := h.has d
      rw [(hother d hd).1, (hother d hd).2, hm]
      refine ⟨x, fun h1 => hg.get _ _ (hne d hd h1) (hx.live h1), fun a => ?_, fun q => ?_⟩
      · rw [hg.iomap d a hd, hx.iomap a]
      · rw [hg.irq d q hd, hx.irq q]
  · by_cases hd : d = pdev
    · by_cases hd' : d' = pdev
      · rw [hd, hd']
      · rw [hd, hown.2, (hother d' hd').2] at he
        rw [hd, hown.1] at h1
        rw [(hother d' hd').1] at h1'
        exact absurd he.symm (hplace d' hd' h1' h1)
    · rw [(hother d hd).1] at h1
      rw [(hother d hd).2] at he
      by_cases hd' : d' = pdev
      · rw [hd', hown.2] at he
        rw [hd', hown.1] at h1'
        exact absurd he (hplace d hd h1 h1')
      · rw [(hother d' hd').1] at h1'
        rw [(hother d' hd').2] at he
        exact h.apart d d' h1 h1' he
  · rw [hi] at hrun
    by_cases hd : d = pdev
    · subst hd
      obtain ⟨h4, hpe⟩ := hr p st hrun
      rw [hown.1, hown.2]
      exact ⟨h4, (h.isr d p st hrun).2.trans hpe.symm⟩
    · rw [(hother d hd).1, (hother d hd).2]
      exact h.isr d p st hrun
  · rw [hm, hg.bad r hr]
    exact h.bad r hr

theorem Inv.handler (h : Inv s) (hm : Still s.mod t.mod) (hp : t.pc = s.pc)
    (hr : ∀ d p st, t.isr d = .running p st → s.level d = 4 ∧ p = s.pht d) : Inv t := by
  have hlv : ∀ d, t.level d = s.level d := fun d => by unfold State.level; rw [hp]
  have hpht : ∀ d, t.pht d = s.pht d := fun d => by unfold State.pht; rw [hp, hm.drvdata]
  refine ⟨fun d => ?_, fun d d' => ?_, fun d p st hrun => ?_, fun r hr => ?_⟩
  · obtain ⟨x, hx⟩ := h.has d
    rw [hlv, hpht]
    refine ⟨x, fun h1 => ?_, fun a => ?_, fun q => ?_⟩
    · rw [hm.heap]
      exact hx.live h1
    · rw [hm.held _ rfl, hx.iomap a]
    · rw [hm.held _ rfl, hx.irq q]
  · rw [hlv, hlv, hpht, hpht]
    exact h.apart d d'
  · rw [hlv, hpht]
    exact hr d p st hrun
  · rw [hm.bad r hr]
    exact h.bad r hr

theorem Inv.call (h : Inv s) {pc : Pc} (hl : pc.level = s.level pdev)
    (hp : pc.pht (s.mod.drvdata pdev) = s.pht pdev ∨ s.level pdev = 0) :
    Inv { s with pc := Function.update s.pc pdev pc } := by
  obtain ⟨x, hx⟩ := h.has pdev
  have hg : Goes pdev (s.level pdev) (s.pht pdev) s.mod pc.level (pc.pht (s.mod.drvdata pdev))
      s.mod := by
    rw [hl]
    exact goes_still hx (still_refl s.mod) fun h1 => hp.resolve_right (by omega)
  refine h.core hg (fun p st hrun => ?_) rfl rfl rfl
  have h4 := (h.isr pdev p st hrun).1
  exact ⟨hl.trans h4, hp.resolve_right (by omega)⟩

/-- **A step.** -/
theorem Inv.step (h : Inv s) {e : Ev D} (he : step s e = some t) : Inv t := by
  cases e with
  | probe pdev a =>
    simp only [Isr.step] at he
    split at he
    · rename_i hpc
      have hl : s.level pdev = 0 := by rw [State.level, hpc]; rfl
      obtain rfl := Option.some.inj he
      exact h.call hl.symm (.inr hl)
    · rename_i e hpc
      split_ifs at he with h0
      have hl : s.level pdev = 0 := by
        rw [State.level, hpc]
        exact if_neg h0
      obtain rfl := Option.some.inj he
      exact h.call hl.symm (.inr hl)
    · cases he
  | remove pdev =>
    simp only [Isr.step] at he
    split at he
    · rename_i e hpc
      split_ifs at he with h0
      have hl : s.level pdev = 4 := by
        rw [State.level, hpc]
        exact if_pos h0
      have hp : s.pht pdev = s.mod.drvdata pdev := by rw [State.pht, hpc]; rfl
      obtain rfl := Option.some.inj he
      exact h.call hl.symm (.inl hp.symm)
    · cases he
  | exec pdev =>
    simp only [Isr.step] at he
    split_ifs at he with hwait
    obtain ⟨r, hr, rfl⟩ := Option.map_eq_some_iff.mp he
    obtain ⟨x, hx⟩ := h.has pdev
    refine h.core (pc_goes hx hr) (fun p st hrun => ?_) rfl rfl rfl
    have hf : (s.pc pdev).frees = false := by
      rw [hrun] at hwait
      simpa [Handler.busy] using hwait
    exact Pc.keeps_irq (h.isr pdev p st hrun).1 hf hr
  | irq pdev dev =>
    simp only [Isr.step] at he
    split at he
    · split_ifs at he with hheld
      obtain rfl := Option.some.inj he
      refine h.handler (still_refl _) rfl ?_
      refine (Function.forall_update_iff s.isr fun d f => ∀ p st, f = .running p st →
        s.level d = 4 ∧ p = s.pht d).mpr ⟨fun p st hrun => ?_, fun d _ => h.isr d⟩
      obtain ⟨rfl, -⟩ := Handler.running.inj hrun
      obtain ⟨x, hx⟩ := h.has pdev
      by_contra hno
      have hcount := hx.irq dev
      rw [if_neg hno] at hcount
      exact Multiset.count_eq_zero.mp hcount hheld
    · cases he
  | isr pdev v ratelimit =>
    simp only [Isr.step] at he
    split at he
    · rename_i dev st hrun
      obtain rfl := Option.some.inj he
      obtain ⟨h4, hp⟩ := h.isr pdev dev st hrun
      refine h.handler ?_ rfl ?_
      · cases st with
        | control =>
          simp only [phantom_isr]
          split_ifs <;> exact still_refl _
        | _ => exact ⟨rfl, rfl, fun _ _ => rfl, fun _ _ => rfl⟩
      · refine (Function.forall_update_iff s.isr fun d f => ∀ p st, f = .running p st →
          s.level d = 4 ∧ p = s.pht d).mpr ⟨fun p st' hnext => ?_, fun d _ => h.isr d⟩
        have hsame : p = dev := phantom_isr_dev hnext
        rw [hsame]
        exact ⟨h4, hp⟩
    · cases he

theorem Has.mapped {m : Driver D} {p : Ptr} {lv : ℕ} {x : phantom_device} (h : Has m pdev p lv x) :
    (2 ≤ lv → .iomap pdev x.caddr ∈ m.led.held) ∧ (3 ≤ lv → .iomap pdev x.iaddr ∈ m.led.held) := by
  refine ⟨fun h2 => ?_, fun h3 => ?_⟩
  · have hcount := h.iomap x.caddr
    rw [maps, if_pos ⟨h2, rfl⟩] at hcount
    exact Multiset.count_pos.mp (by omega)
  · have hcount := h.iomap x.iaddr
    rw [maps, if_pos (show 3 ≤ lv ∧ x.iaddr = x.iaddr from ⟨h3, rfl⟩)] at hcount
    exact Multiset.count_pos.mp (by omega)

theorem Has.once {m : Driver D} {p : Ptr} {lv : ℕ} {x : phantom_device} (h : Has m pdev p lv x) :
    m.led.held.countP (fun r => isIrq pdev r) ≤ 1 := by
  have hone : m.led.held.countP (fun r => isIrq pdev r) = m.led.held.count (.irq pdev p) := by
    refine Multiset.countP_congr rfl fun r hr => propext ⟨fun hirq => ?_, ?_⟩
    · cases r with
      | irq d q =>
        obtain rfl : d = pdev := by simpa [isIrq] using hirq
        have hcount := h.irq q
        have hpos := Multiset.count_pos.mpr hr
        split_ifs at hcount with hq
        · rw [hq.2]
        · omega
      | _ => cases hirq
    · rintro rfl
      exact decide_eq_true rfl
  rw [hone, h.irq p]
  split_ifs
  · exact le_rfl
  · exact Nat.zero_le 1

theorem Inv.safe (h : Inv s) (d : D) : Safe s d := by
  obtain ⟨x, hx⟩ := h.has d
  have hserved : s.level d = 4 → s.mod.heap.get (s.pht d) = some x ∧
      .iomap d x.iaddr ∈ s.mod.led.held :=
    fun h4 => ⟨hx.live (by omega), hx.mapped.2 (by omega)⟩
  refine ⟨fun p st hrun => ?_, fun p hheld => ?_, hx.once, fun hu => ?_, fun r hr hbad => ?_⟩
  · obtain ⟨h4, rfl⟩ := h.isr d p st hrun
    exact ⟨x, hserved h4⟩
  · have hcount := hx.irq p
    by_cases hp : s.level d = 4 ∧ p = s.pht d
    · obtain ⟨h4, rfl⟩ := hp
      exact ⟨x, hserved h4⟩
    · rw [if_neg hp] at hcount
      exact absurd hheld (Multiset.count_eq_zero.mp hcount)
  · exact ⟨x, hx.live (Pc.one_le_level hu), fun hw => hx.mapped.1 (Pc.two_le_level hw)⟩
  · exact Multiset.count_eq_zero.mp (h.bad r hr) hbad

/-- **The handler is safe.** In every run, with any number of probes and removals and their
handlers going on at the same time, what a handler or a call accesses next is allocated and
mapped, the interrupt of each device is requested at most once, and no interrupt or mapping is
released twice. -/
theorem isr_safe {cls : Ptr} {major : ℕ} {es : List (Ev D)}
    (h : Machine.run step (start cls major) es = some s) (d : D) : Safe s d :=
  (Machine.run_inv step Inv (inv_start cls major) (fun _ _ _ hi he => hi.step he) h).safe d

end Run

/-- Nothing is refused. -/
def granted : Answers := ⟨none, none, true, 0x1000, 0x2000, none, none, true⟩

/-- The interrupt comes before `cdev_add`. -/
def early : List (Ev Unit) :=
  .probe () granted :: List.replicate 9 (.exec ()) ++
    [.irq () 1, .isr () 0x10 true, .exec (), .isr () 0 true]

theorem isr_safe_early : ∃ s, Machine.run step (start 7 254) early = some s ∧
    s.isr () = .running 1 .clear ∧
    ∃ x, s.mod.heap.get 1 = some x ∧ .iomap () x.iaddr ∈ s.mod.led.held := by
  obtain ⟨s, hs, hrun⟩ : ∃ s, Machine.run step (start 7 254) early = some s ∧
      s.isr () = .running 1 .clear := ⟨_, rfl, rfl⟩
  exact ⟨s, hs, hrun, (isr_safe hs ()).isr 1 .clear hrun⟩

end Isr
end Pb173
