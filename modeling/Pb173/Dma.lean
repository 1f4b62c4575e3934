/-
# The DMA driver (11/homework)

`my_probe` and `my_remove` are lists of statements, so that a machine may
stop between any two of them; `my_probe` leaves its list early on an error,
and waits in it for the card. `my_handler` and `raise_intr` are automata:
what they do next, and where they go from there. All of them act on one
state, the module's globals with what the kernel keeps for it.

An access through a pointer that is null or was freed is recorded in
`faults` and has no other effect. What is allocated keeps the device it was
allocated for, and `log` the order of the allocations and frees.
-/
import Pb173.Heap
import Pb173.Kernel
import Mathlib.Logic.Function.Basic

namespace Pb173
namespace Dma

/-- The registers in BAR 0. -/
inductive Reg
  | RAISED | ENABLE | RAISE | ACK | SRC | DST | COUNT | CMD
deriving DecidableEq

/-! ### The interrupt handler -/

/-- What `my_handler` does in one step. -/
inductive Act
  | load
  | readl (r : Reg)
  | writel (v : BitVec 32) (r : Reg)
  | tasklet_init
  | tasklet_schedule
  | ret (r : irqreturn_t)
deriving DecidableEq

/-- Where an invocation of `my_handler` is, with the local it needs next. -/
inductive Handler
  | virt
  | raised
  | ack (interrupt : BitVec 32)
  | cmd
  | ackint (cmd : BitVec 32)
  | init
  | schedule
  | ret (r : irqreturn_t)
deriving DecidableEq

def Handler.act : Handler → Act
  | .virt => .load
  | .raised => .readl .RAISED
  | .ack interrupt => .writel interrupt .ACK
  | .cmd => .readl .CMD
  | .ackint c => .writel (c ||| 1 <<< 31) .CMD
  | .init => .tasklet_init
  | .schedule => .tasklet_schedule
  | .ret r => .ret r

/-- Where it goes, `v` being what it read. -/
def Handler.next : Handler → BitVec 32 → Option Handler
  | .virt, _ => some .raised
  | .raised, v => some (if v = 0 then .ret .IRQ_NONE else .ack v)
  | .ack interrupt, _ => some (if interrupt = 0x100 then .cmd else .ret .IRQ_HANDLED)
  | .cmd, v => some (.ackint v)
  | .ackint _, _ => some .init
  | .init, _ => some .schedule
  | .schedule, _ => some (.ret .IRQ_HANDLED)
  | .ret _, _ => none

/-- Where an invocation of `raise_intr` is. -/
inductive Tick
  | virt | raise | mod_timer
deriving DecidableEq

/-! ### The state -/

/-- `struct pdev_help_struct`; of its timer, the argument of the function. -/
structure Help where
  virt : Ptr
  dma_virt : Ptr
  dma_phys : BitVec 32
  timer : Ptr
deriving DecidableEq

/-- What is allocated: a `tasklet_struct`, with the page and the offset that
its argument points to, a mapping of BAR 0, a help structure, a DMA page. -/
inductive Obj
  | tasklet (data : Ptr × ℕ)
  | bar
  | help (h : Help)
  | page
deriving DecidableEq

inductive Kind
  | tasklet | bar | help | page
deriving DecidableEq

def Obj.kind : Obj → Kind
  | .tasklet _ => .tasklet
  | .bar => .bar
  | .help _ => .help
  | .page => .page

inductive Entry (D : Type*)
  | probe (pdev : D)
  | remove (pdev : D)
  | alloc (pdev : D) (k : Kind) (a : Ptr)
  | free (pdev : D) (a : Ptr)
deriving DecidableEq

/-- An access to something that is not there: by `tasklet_init`, by
`tasklet_schedule`, or to a thing of some kind. -/
inductive Fault
  | tasklet_init | tasklet_schedule
  | dead (k : Kind)
deriving DecidableEq

/-- The globals `task` and `dma_virt_addr`, and what the kernel keeps: the
allocations, the driver data, how often a device is enabled and whether its
region is taken, the handlers, the timers set, the tasklets scheduled, and
the writes to the cards. -/
structure Driver (D : Type*) where
  heap : Heap (D × Obj)
  log : List (Entry D)
  task : Ptr
  dma_virt_addr : Ptr
  drvdata : D → Ptr
  enabled : D → ℕ
  region : D → Bool
  irq : List (D × Ptr)
  armed : List Ptr
  queue : List Ptr
  io : List (Ptr × Reg × BitVec 32)
  faults : List Fault

/-- The module as it is loaded. -/
def loaded {D : Type*} : Driver D :=
  ⟨Heap.empty, [], NULL, NULL, fun _ => NULL, fun _ => 0, fun _ => false, [], [], [], [], []⟩

namespace Driver

variable {D : Type*} (m : Driver D)

/-- There is a thing of kind `k` at `a`. -/
def Is (k : Kind) (a : Ptr) : Prop := (m.heap.get a).map (fun c => c.2.kind) = some k

instance (k : Kind) (a : Ptr) : Decidable (m.Is k a) := inferInstanceAs (Decidable (_ = _))

def fault (f : Fault) : Driver D := { m with faults := m.faults ++ [f] }

def note (e : Entry D) : Driver D := { m with log := m.log ++ [e] }

/-- An access to a thing of kind `k` that leaves it as it is. -/
def use (k : Kind) (a : Ptr) : Driver D := if m.Is k a then m else m.fault (.dead k)

def help? (p : Ptr) : Option Help :=
  match m.heap.get p with
  | some (_, .help h) => some h
  | _ => none

/-- Write to the help structure at `p`. -/
def setHelp (p : Ptr) (f : Help → Help) : Driver D :=
  match m.heap.get p with
  | some (d, .help h) => { m with heap := m.heap.set p (d, .help (f h)) }
  | _ => m.fault (.dead .help)

/-- An allocation for the device `pdev`; its address is `m.heap.next`. -/
def alloc (pdev : D) (x : Obj) : Driver D :=
  { m with heap := m.heap.alloc (pdev, x), log := m.log ++ [.alloc pdev x.kind m.heap.next] }

/-- `kfree`, `iounmap`, `dma_free_coherent` of a thing of kind `k`. -/
def release (pdev : D) (k : Kind) (a : Ptr) : Driver D :=
  if m.Is k a then { m with heap := m.heap.free a, log := m.log ++ [.free pdev a] }
  else m.fault (.dead k)

def writel (v : BitVec 32) (r : Reg) (virt : Ptr) : Driver D :=
  if m.Is .bar virt then { m with io := m.io ++ [(virt, r, v)] } else m.fault (.dead .bar)

def tasklet_init (t : Ptr) (data : Ptr × ℕ) : Driver D :=
  match m.heap.get t with
  | some (d, .tasklet _) => { m with heap := m.heap.set t (d, .tasklet data) }
  | _ => m.fault .tasklet_init

/-- The tasklet is not scheduled: `tasklet_init` has just cleared its state. -/
def tasklet_schedule (t : Ptr) : Driver D :=
  if m.Is .tasklet t then { m with queue := m.queue ++ [t] } else m.fault .tasklet_schedule

def tasklet_kill (t : Ptr) : Driver D :=
  { m.use .tasklet t with queue := (m.use .tasklet t).queue.filter fun u => u ≠ t }

def mod_timer (p : Ptr) : Driver D :=
  { m.use .help p with armed := (m.use .help p).armed.insert p }

def del_timer_sync (p : Ptr) : Driver D :=
  { m.use .help p with armed := (m.use .help p).armed.filter fun q => q ≠ p }

/-- One step of `my_handler` for the cookie `p`: its local `virt` after it,
and the state. -/
def handler (p virt : Ptr) : Act → Ptr × Driver D
  | .load =>
    match m.help? p with
    | some h => (h.virt, m)
    | none => (NULL, m.fault (.dead .help))
  | .readl _ => (virt, m.use .bar virt)
  | .writel v r => (virt, m.writel v r virt)
  | .tasklet_init =>
    match m.help? p with
    | some h => (virt, m.tasklet_init m.task (h.dma_virt, 0x14))
    | none => (virt, m.fault (.dead .help))
  | .tasklet_schedule => (virt, m.tasklet_schedule m.task)
  | .ret _ => (virt, m)

/-- One step of `raise_intr`. -/
def raise_intr (p virt : Ptr) : Tick → (Ptr × Driver D) × Option Tick
  | .virt =>
    match m.help? p with
    | some h => ((h.virt, m), some .raise)
    | none => ((NULL, m.fault (.dead .help)), some .raise)
  | .raise => ((virt, m.writel 0x1000 .RAISE virt), some .mod_timer)
  | .mod_timer => ((virt, m.mod_timer p), none)

/-- `tasklet_fn` prints what it finds on its page. -/
def tasklet_fn (data : Ptr × ℕ) : Driver D := m.use .page data.1

end Driver

/-! ### `my_probe` -/

/-- A value written to a register, of the locals. -/
inductive Word
  | const (v : BitVec 32)
  | phys (off : BitVec 32)
deriving DecidableEq

/-- The statements of `my_probe`. -/
inductive Probe
  | printk
  | kmalloc_task
  | pci_enable_device
  | pci_set_dma_mask
  | pci_set_master
  | pci_request_region
  | pci_ioremap_bar
  | kmalloc_p
  | dma_alloc_coherent
  | strcpy
  | writel (w : Word) (r : Reg)
  | wait
  | show_page
  | setup_timer
  | set_virt
  | set_dma_virt
  | set_dma_phys
  | pci_set_drvdata
  | request_irq
  | mod_timer
deriving DecidableEq

/-- A transfer: `SRC`, `DST`, `COUNT` and `CMD`. -/
def transfer (src dst : Word) (cmd : BitVec 32) : List Probe :=
  [.writel src .SRC, .writel dst .DST, .writel (.const 10) .COUNT, .writel (.const cmd) .CMD]

/-- `my_probe`, which ends with `return 0`. -/
def probe_code : List Probe :=
  [.printk, .kmalloc_task, .pci_enable_device, .pci_set_dma_mask, .pci_set_master,
    .pci_request_region, .pci_ioremap_bar, .kmalloc_p, .dma_alloc_coherent, .strcpy] ++
  transfer (.phys 0) (.const 0x40000) (1 ||| 2 <<< 1 ||| 4 <<< 4 ||| 1 <<< 7) ++ [.wait] ++
  transfer (.const 0x40000) (.phys 0xa) (1 ||| 4 <<< 1 ||| 2 <<< 4 ||| 1 <<< 7) ++ [.wait] ++
  [.show_page, .setup_timer, .set_virt, .set_dma_virt, .set_dma_phys, .pci_set_drvdata,
    .request_irq, .writel (.const 0x1000) .ENABLE, .writel (.const 0x100) .ENABLE] ++
  transfer (.const 0x40000) (.phys 0x14) (1 ||| 4 <<< 1 ||| 2 <<< 4) ++ [.mod_timer]

/-- The locals of `my_probe`. -/
structure Locals where
  virt : Ptr
  p : Ptr
  dma_phys : BitVec 32

def Word.val (l : Locals) : Word → BitVec 32
  | .const v => v
  | .phys off => l.dma_phys + off

/-- What the kernel or the card answers: an error number, 0 on success, and
a register or the address of the DMA page on the bus. -/
structure Answer where
  err : ℤ
  reg : BitVec 32

/-- After a statement: go on, do it again, or return. -/
inductive Flow
  | next | again
  | ret (err : ℤ)
deriving DecidableEq

section Calls

variable {D : Type*} [DecidableEq D]

/-- A statement of `my_probe(pdev)`. -/
def Probe.exec (pdev : D) (a : Answer) (l : Locals) (m : Driver D) : Probe → Flow × Locals × Driver D
  | .printk => (.next, l, m.note (.probe pdev))
  | .kmalloc_task =>
    if a.err ≠ 0 then (.ret (-ENOMEM), l, { m with task := NULL })
    else (.next, l, { m.alloc pdev (.tasklet (NULL, 0)) with task := m.heap.next })
  | .pci_enable_device =>
    if a.err ≠ 0 then (.ret (- EIO), l, m)
    else (.next, l, { m with enabled := Function.update m.enabled pdev (m.enabled pdev + 1) })
  | .pci_set_dma_mask => if a.err ≠ 0 then (.ret (- EIO), l, m) else (.next, l, m)
  | .pci_set_master => (.next, l, m)
  | .pci_request_region =>
    if a.err ≠ 0 then (.ret (-EBUSY), l, m)
    else (.next, l, { m with region := Function.update m.region pdev true })
  | .pci_ioremap_bar =>
    if a.err ≠ 0 then (.ret (-ENOMEM), { l with virt := NULL }, m)
    else (.next, { l with virt := m.heap.next }, m.alloc pdev .bar)
  | .kmalloc_p =>
    if a.err ≠ 0 then (.ret (-ENOMEM), { l with p := NULL }, m)
    else (.next, { l with p := m.heap.next }, m.alloc pdev (.help ⟨NULL, NULL, 0, NULL⟩))
  | .dma_alloc_coherent =>
    if a.err ≠ 0 then (.ret (-ENOMEM), l, { m with dma_virt_addr := NULL })
    else (.next, { l with dma_phys := a.reg },
      { m.alloc pdev .page with dma_virt_addr := m.heap.next })
  | .strcpy => (.next, l, m.use .page m.dma_virt_addr)
  | .writel w r => (.next, l, m.writel (w.val l) r l.virt)
  | .wait => (if a.reg.getLsbD 0 then .again else .next, l, m.use .bar l.virt)
  | .show_page => (.next, l, m.use .page m.dma_virt_addr)
  | .setup_timer => (.next, l, m.setHelp l.p fun h => { h with timer := l.p })
  | .set_virt => (.next, l, m.setHelp l.p fun h => { h with virt := l.virt })
  | .set_dma_virt => (.next, l, m.setHelp l.p fun h => { h with dma_virt := m.dma_virt_addr })
  | .set_dma_phys => (.next, l, m.setHelp l.p fun h => { h with dma_phys := l.dma_phys })
  | .pci_set_drvdata => (.next, l, { m with drvdata := Function.update m.drvdata pdev l.p })
  | .request_irq =>
    if a.err ≠ 0 then (.ret a.err, l, m)
    else (.next, l, { m with irq := m.irq ++ [(pdev, l.p)] })
  | .mod_timer => (.next, l, m.mod_timer l.p)

/-- The call from some statement on, answered in turn: what it returns, and
the state; `none` if it has not returned when the answers end, or before. -/
def runProbe (pdev : D) : List Answer → List Probe → Locals → Driver D → Option (ℤ × Driver D)
  | [], [], _, m => some (0, m)
  | _ :: _, [], _, _ => none
  | [], _ :: _, _, _ => none
  | a :: as, st :: rest, l, m =>
    match st.exec pdev a l m with
    | (.next, l, m) => runProbe pdev as rest l m
    | (.again, l, m) => runProbe pdev as (st :: rest) l m
    | (.ret err, _, m) => if as = [] then some (err, m) else none

/-- `my_probe(pdev)`. -/
def my_probe (pdev : D) (as : List Answer) (m : Driver D) : Option (ℤ × Driver D) :=
  runProbe pdev as probe_code ⟨NULL, NULL, 0⟩ m

/-! ### `my_remove` -/

/-- The statements of `my_remove`. -/
inductive Remove
  | printk
  | if_task
  | tasklet_kill
  | kfree_task
  | clear_task
  | pci_get_drvdata
  | del_timer_sync
  | free_irq
  | dma_free_coherent
  | iounmap
  | pci_release_region
  | pci_disable_device
  | kfree_p
deriving DecidableEq

def remove_code : List Remove :=
  [.printk, .if_task, .tasklet_kill, .kfree_task, .clear_task, .pci_get_drvdata, .del_timer_sync,
    .free_irq, .dma_free_coherent, .iounmap, .pci_release_region, .pci_disable_device, .kfree_p]

/-- The locals of `my_remove`: `p`, and whether the block under `if (task)`
is executed. -/
structure Held where
  block : Bool
  p : Ptr

/-- A statement of `my_remove(pdev)`. -/
def Remove.exec (pdev : D) (l : Held) (m : Driver D) : Remove → Held × Driver D
  | .printk => (l, m.note (.remove pdev))
  | .if_task => ({ l with block := decide (m.task ≠ NULL) }, m)
  | .tasklet_kill => (l, if l.block then m.tasklet_kill m.task else m)
  | .kfree_task => (l, if l.block then m.release pdev .tasklet m.task else m)
  | .clear_task => (l, if l.block then { m with task := NULL } else m)
  | .pci_get_drvdata => ({ l with p := m.drvdata pdev }, m)
  | .del_timer_sync => (l, m.del_timer_sync l.p)
  | .free_irq => (l, { m with irq := m.irq.filter fun x => x ≠ (pdev, l.p) })
  | .dma_free_coherent =>
    match m.help? l.p with
    | some h => (l, m.release pdev .page h.dma_virt)
    | none => (l, m.fault (.dead .help))
  | .iounmap =>
    match m.help? l.p with
    | some h => (l, m.release pdev .bar h.virt)
    | none => (l, m.fault (.dead .help))
  | .pci_release_region => (l, { m with region := Function.update m.region pdev false })
  | .pci_disable_device =>
    (l, { m with enabled := Function.update m.enabled pdev (m.enabled pdev - 1) })
  | .kfree_p => (l, m.release pdev .help l.p)

/-- The call from some statement on. -/
def runRemove (pdev : D) : List Remove → Held → Driver D → Driver D
  | [], _, m => m
  | st :: rest, l, m => runRemove pdev rest (st.exec pdev l m).1 (st.exec pdev l m).2

/-- `my_remove(pdev)`. -/
def my_remove (pdev : D) (m : Driver D) : Driver D := runRemove pdev remove_code ⟨false, NULL⟩ m

/-- An invocation of `my_handler` from some place on, for at most `k` steps;
`read` is what the registers hold. -/
def runHandler (p : Ptr) (read : Reg → BitVec 32) : ℕ → Handler → Ptr → Driver D → Driver D
  | 0, _, _, m => m
  | k + 1, pc, virt, m =>
    let v := match pc.act with
      | .readl r => read r
      | _ => 0
    match pc.next v with
    | none => (m.handler p virt pc.act).2
    | some pc' => runHandler p read k pc' (m.handler p virt pc.act).1 (m.handler p virt pc.act).2

/-- `my_handler(irq, p)`: no path takes more than eight steps. -/
def my_handler (p : Ptr) (read : Reg → BitVec 32) (m : Driver D) : Driver D :=
  runHandler p read 8 .virt NULL m

end Calls

end Dma
end Pb173
