/-
# The timer of 09

Any number of cards, and every statement of `my_probe` and `my_remove` is a
step of its own, of any card at any time. In between run the callbacks:
`my_handler` of a card while it is registered, and `raise_intr` when its
timer is set, which sets it again. `del_timer_sync` and `free_irq` wait for
the callback, and take back what is pending.

An access to what is not there is recorded in `faults`. `irqOn` and `timerOn`
say by the statements that are left when the handler and the timer of a card
may run, and `Inv` that only such a card has one registered, set or running:
no run faults, and nothing runs for a card that is in no call and not bound
(`teardown`).
-/
import Pb173.Heap
import Pb173.Kernel
import Pb173.Machine
import Mathlib.Logic.Function.Basic

namespace Pb173
namespace Rearm

/-- The registers in BAR 0. -/
inductive Reg
  | RAISED | ENABLE | RAISE | ACK
deriving DecidableEq

/-- What is allocated: a timer, with the argument of its function, a mapping
of BAR 0, a `pdev_help_struct`. -/
inductive Obj
  | timer (data : Ptr)
  | bar
  | help (virt timer : Ptr)
deriving DecidableEq

inductive Kind
  | timer | bar | help
deriving DecidableEq

def Obj.kind : Obj → Kind
  | .timer _ => .timer
  | .bar => .bar
  | .help _ _ => .help

/-- What the kernel keeps for the module; `faults` are the accesses to things
of some kind that were not there. -/
structure Driver (D : Type*) where
  heap : Heap (D × Obj)
  drvdata : D → Ptr
  enabled : D → ℕ
  region : D → Bool
  irq : List (D × Ptr)
  armed : List Ptr
  io : List (Ptr × Reg × BitVec 32)
  faults : List Kind

namespace Driver

variable {D : Type*} (m : Driver D)

def Is (k : Kind) (a : Ptr) : Prop := (m.heap.get a).map (fun c => c.2.kind) = some k

instance (k : Kind) (a : Ptr) : Decidable (m.Is k a) := inferInstanceAs (Decidable (_ = _))

def fault (k : Kind) : Driver D := { m with faults := m.faults ++ [k] }

def use (k : Kind) (a : Ptr) : Driver D := if m.Is k a then m else m.fault k

/-- The help structure at `p`: the mapping and the timer. -/
def help? (p : Ptr) : Option (Ptr × Ptr) :=
  match m.heap.get p with
  | some (_, .help virt timer) => some (virt, timer)
  | _ => none

def setHelp (p : Ptr) (f : Ptr × Ptr → Ptr × Ptr) : Driver D :=
  match m.heap.get p with
  | some (d, .help virt timer) =>
    { m with heap := m.heap.set p (d, .help (f (virt, timer)).1 (f (virt, timer)).2) }
  | _ => m.fault .help

def setup_timer (t data : Ptr) : Driver D :=
  match m.heap.get t with
  | some (d, .timer _) => { m with heap := m.heap.set t (d, .timer data) }
  | _ => m.fault .timer

def alloc (pdev : D) (x : Obj) : Driver D := { m with heap := m.heap.alloc (pdev, x) }

def release (k : Kind) (a : Ptr) : Driver D :=
  if m.Is k a then { m with heap := m.heap.free a } else m.fault k

def writel (v : BitVec 32) (r : Reg) (virt : Ptr) : Driver D :=
  if m.Is .bar virt then { m with io := m.io ++ [(virt, r, v)] } else m.fault .bar

def mod_timer (t : Ptr) : Driver D :=
  if m.Is .timer t then { m with armed := m.armed.insert t } else m.fault .timer

def del_timer_sync (t : Ptr) : Driver D :=
  { m.use .timer t with armed := (m.use .timer t).armed.filter fun q => q ≠ t }

end Driver

/-! ### The callbacks -/

/-- Where an invocation of `my_handler` is. -/
inductive Handler
  | virt | raised | ack
  | ret (r : irqreturn_t)
deriving DecidableEq

/-- Where an invocation of `raise_intr` is. -/
inductive Tick
  | virt | raise | mod_timer
deriving DecidableEq

section Callbacks

variable {D : Type*} (m : Driver D)

/-- A step of `my_handler` for the cookie `p`, `v` being what it reads: its
local `virt` after it, the state, and where it goes. -/
def my_handler (p virt : Ptr) (v : BitVec 32) : Handler → (Ptr × Driver D) × Option Handler
  | .virt =>
    match m.help? p with
    | some h => ((h.1, m), some .raised)
    | none => ((NULL, m.fault .help), some .raised)
  | .raised => ((virt, m.use .bar virt), some (if v = 0 then .ret .IRQ_NONE else .ack))
  | .ack => ((virt, m.writel 0x1000 .ACK virt), some (.ret .IRQ_HANDLED))
  | .ret _ => ((virt, m), none)

/-- A step of `raise_intr`. -/
def raise_intr (p virt : Ptr) : Tick → (Ptr × Driver D) × Option Tick
  | .virt =>
    match m.help? p with
    | some h => ((h.1, m), some .raise)
    | none => ((NULL, m.fault .help), some .raise)
  | .raise => ((virt, m.writel 0x1000 .RAISE virt), some .mod_timer)
  | .mod_timer =>
    match m.help? p with
    | some h => ((virt, m.mod_timer h.2), none)
    | none => ((virt, m.fault .help), none)

end Callbacks

/-! ### `my_probe` and `my_remove` -/

/-- The statements of `my_probe`; the arguments of `kmalloc` for the timer are
the wrong way round, which asks for enough memory all the same. -/
inductive Probe
  | printk
  | pci_enable_device
  | pci_request_region
  | pci_ioremap_bar
  | kmalloc_my_timer
  | kmalloc_p
  | setup_timer
  | set_virt
  | set_timer
  | pci_set_drvdata
  | request_irq
  | writel
  | mod_timer
deriving DecidableEq

def probe_code : List Probe :=
  [.printk, .pci_enable_device, .pci_request_region, .pci_ioremap_bar, .kmalloc_my_timer, .kmalloc_p,
    .setup_timer, .set_virt, .set_timer, .pci_set_drvdata, .request_irq, .writel, .mod_timer]

/-- The locals of `my_probe`. -/
structure Locals where
  virt : Ptr
  my_timer : Ptr
  p : Ptr

/-- The statements of `my_remove`. -/
inductive Remove
  | printk
  | pci_get_drvdata
  | del_timer_sync
  | kfree_timer
  | free_irq
  | iounmap
  | pci_release_region
  | pci_disable_device
  | kfree_p
deriving DecidableEq

def remove_code : List Remove :=
  [.printk, .pci_get_drvdata, .del_timer_sync, .kfree_timer, .free_irq, .iounmap,
    .pci_release_region, .pci_disable_device, .kfree_p]

section Calls

variable {D : Type*} [DecidableEq D]

/-- A statement of `my_probe(pdev)`, `err` being what the kernel answers: the
error returned, if it leaves, the locals and the state. -/
def Probe.exec (pdev : D) (err : ℤ) (l : Locals) (m : Driver D) :
    Probe → Option ℤ × Locals × Driver D
  | .printk => (none, l, m)
  | .pci_enable_device =>
    if err ≠ 0 then (some (- EIO), l, m)
    else (none, l, { m with enabled := Function.update m.enabled pdev (m.enabled pdev + 1) })
  | .pci_request_region =>
    if err ≠ 0 then (some (-EBUSY), l, m)
    else (none, l, { m with region := Function.update m.region pdev true })
  | .pci_ioremap_bar =>
    if err ≠ 0 then (some (-ENOMEM), { l with virt := NULL }, m)
    else (none, { l with virt := m.heap.next }, m.alloc pdev .bar)
  | .kmalloc_my_timer =>
    if err ≠ 0 then (some (-ENOMEM), { l with my_timer := NULL }, m)
    else (none, { l with my_timer := m.heap.next }, m.alloc pdev (.timer NULL))
  | .kmalloc_p =>
    if err ≠ 0 then (some (-ENOMEM), { l with p := NULL }, m)
    else (none, { l with p := m.heap.next }, m.alloc pdev (.help NULL NULL))
  | .setup_timer => (none, l, m.setup_timer l.my_timer l.p)
  | .set_virt => (none, l, m.setHelp l.p fun h => (l.virt, h.2))
  | .set_timer => (none, l, m.setHelp l.p fun h => (h.1, l.my_timer))
  | .pci_set_drvdata => (none, l, { m with drvdata := Function.update m.drvdata pdev l.p })
  | .request_irq =>
    if err ≠ 0 then (some err, l, m) else (none, l, { m with irq := m.irq ++ [(pdev, l.p)] })
  | .writel => (none, l, m.writel 0x1000 .ENABLE l.virt)
  | .mod_timer => (none, l, m.mod_timer l.my_timer)

/-- A statement of `my_remove(pdev)`; its local is `p`. -/
def Remove.exec (pdev : D) (p : Ptr) (m : Driver D) : Remove → Ptr × Driver D
  | .printk => (p, m)
  | .pci_get_drvdata => (m.drvdata pdev, m)
  | .del_timer_sync =>
    match m.help? p with
    | some h => (p, m.del_timer_sync h.2)
    | none => (p, m.fault .help)
  | .kfree_timer =>
    match m.help? p with
    | some h => (p, if h.2 ≠ NULL then m.release .timer h.2 else m)
    | none => (p, m.fault .help)
  | .free_irq => (p, { m with irq := m.irq.filter fun x => x ≠ (pdev, p) })
  | .iounmap =>
    match m.help? p with
    | some h => (p, m.release .bar h.1)
    | none => (p, m.fault .help)
  | .pci_release_region => (p, { m with region := Function.update m.region pdev false })
  | .pci_disable_device =>
    (p, { m with enabled := Function.update m.enabled pdev (m.enabled pdev - 1) })
  | .kfree_p => (p, m.release .help p)

end Calls

/-! ### The machine -/

/-- What the driver core is doing with a card. -/
inductive Thread
  | idle
  | probing (l : Locals) (rest : List Probe)
  | bound
  | removing (p : Ptr) (rest : List Remove)

/-- A callback that has been entered. -/
inductive Callback
  | my_handler (p virt : Ptr) (pc : Handler)
  | raise_intr (timer p virt : Ptr) (pc : Tick)
deriving DecidableEq

structure State (D : Type*) where
  mod : Driver D
  thread : D → Thread
  running : List Callback

def start {D : Type*} : State D :=
  ⟨⟨Heap.empty, fun _ => NULL, fun _ => 0, fun _ => false, [], [], [], []⟩, fun _ => .idle, []⟩

/-- The core starts a call for a card, or goes on with it, a callback is
entered, or one goes on; `v` is what it reads if it reads a register. -/
inductive Ev (D : Type*)
  | probe (pdev : D)
  | remove (pdev : D)
  | main (pdev : D) (err : ℤ)
  | irq (i : ℕ)
  | tick (i : ℕ)
  | callback (i : ℕ) (v : BitVec 32)

/-- An invocation of `my_handler` for the cookie `p`. -/
def Callback.handles (p : Ptr) : Callback → Bool
  | .my_handler q _ _ => q = p
  | _ => false

/-- A run of the timer `t`. -/
def Callback.runs (t : Ptr) : Callback → Bool
  | .raise_intr u _ _ _ => u = t
  | _ => false

/-- A statement waits for a callback to return. -/
def waits {D : Type*} (s : State D) (p : Ptr) : Remove → Bool
  | .del_timer_sync => (s.mod.help? p).any fun h => s.running.any (Callback.runs h.2)
  | .free_irq => s.running.any (Callback.handles p)
  | _ => false

section Step

variable {D : Type*} [DecidableEq D]

/-- A step of the call for `pdev`. -/
def mainStep (s : State D) (pdev : D) (err : ℤ) : Option (State D) :=
  match s.thread pdev with
  | .probing _ [] => some { s with thread := Function.update s.thread pdev .bound }
  | .probing l (st :: rest) =>
    some { s with
      mod := (st.exec pdev err l s.mod).2.2
      thread := Function.update s.thread pdev <| match (st.exec pdev err l s.mod).1 with
        | none => .probing (st.exec pdev err l s.mod).2.1 rest
        | some _ => .idle }
  | .removing _ [] => some { s with thread := Function.update s.thread pdev .idle }
  | .removing p (st :: rest) =>
    if waits s p st then none
    else some { s with
      mod := (st.exec pdev p s.mod).2
      thread := Function.update s.thread pdev (.removing (st.exec pdev p s.mod).1 rest) }
  | _ => none

omit [DecidableEq D] in
/-- A step of the `i`-th callback. -/
def callbackStep (s : State D) (i : ℕ) (v : BitVec 32) : Option (State D) :=
  match s.running[i]? with
  | none => none
  | some (.my_handler p virt pc) =>
    let r := my_handler s.mod p virt v pc
    some { s with mod := r.1.2, running := match r.2 with
      | some pc' => s.running.set i (.my_handler p r.1.1 pc')
      | none => s.running.eraseIdx i }
  | some (.raise_intr timer p virt pc) =>
    let r := raise_intr s.mod p virt pc
    some { s with mod := r.1.2, running := match r.2 with
      | some pc' => s.running.set i (.raise_intr timer p r.1.1 pc')
      | none => s.running.eraseIdx i }

/-- A timer is entered with the argument that is found where it lies. -/
def step (s : State D) : Ev D → Option (State D)
  | .probe pdev =>
    match s.thread pdev with
    | .idle => some { s with
        thread := Function.update s.thread pdev (.probing ⟨NULL, NULL, NULL⟩ probe_code) }
    | _ => none
  | .remove pdev =>
    match s.thread pdev with
    | .bound => some { s with thread := Function.update s.thread pdev (.removing NULL remove_code) }
    | _ => none
  | .main pdev err => mainStep s pdev err
  | .irq i =>
    match s.mod.irq[i]? with
    | none => none
    | some (_, p) => some { s with running := s.running ++ [.my_handler p NULL .virt] }
  | .tick i =>
    match s.mod.armed[i]? with
    | none => none
    | some t =>
      let m := { s.mod with armed := s.mod.armed.eraseIdx i }
      match m.heap.get t with
      | some (_, .timer data) =>
        some { s with mod := m, running := s.running ++ [.raise_intr t data NULL .virt] }
      | _ => some { s with mod := m.fault .timer }
  | .callback i v => callbackStep s i v

end Step

/-! ### The invariant -/

/-- The handler is registered. -/
def irqOn : Thread → Prop
  | .idle => False
  | .probing _ rest => .request_irq ∉ rest
  | .bound => True
  | .removing _ rest => .free_irq ∈ rest

/-- The timer may be set. -/
def timerOn : Thread → Prop
  | .idle => False
  | .probing _ rest => .mod_timer ∉ rest
  | .bound => True
  | .removing _ rest => .del_timer_sync ∈ rest

section Invariant

variable {D : Type*}

/-- What `my_probe` has made, with `rest` to be executed. -/
structure Probing (m : Driver D) (d : D) (l : Locals) (rest : List Probe) : Prop where
  code : rest <:+ probe_code
  bar : .pci_ioremap_bar ∉ rest → m.heap.get l.virt = some (d, .bar)
  timer : .kmalloc_my_timer ∉ rest → ∃ a, m.heap.get l.my_timer = some (d, .timer a) ∧
    (.setup_timer ∉ rest → a = l.p)
  help : .kmalloc_p ∉ rest → ∃ v t, m.heap.get l.p = some (d, .help v t) ∧
    (.set_virt ∉ rest → v = l.virt) ∧ (.set_timer ∉ rest → t = l.my_timer)
  drvdata : .pci_set_drvdata ∉ rest → m.drvdata d = l.p

/-- What `my_remove` has left, with `rest` to be executed. -/
structure Removing (m : Driver D) (d : D) (p v t : Ptr) (rest : List Remove) : Prop where
  code : rest <:+ remove_code
  p : .pci_get_drvdata ∉ rest → p = m.drvdata d
  bar : .iounmap ∈ rest → m.heap.get v = some (d, .bar)
  timer : .kfree_timer ∈ rest → m.heap.get t = some (d, .timer (m.drvdata d))
  help : .kfree_p ∈ rest → m.heap.get (m.drvdata d) = some (d, .help v t)

/-- What there is for a card. -/
def Phase (m : Driver D) (d : D) : Thread → Prop
  | .idle => True
  | .probing l rest => Probing m d l rest
  | .bound => ∃ v t, Removing m d (m.drvdata d) v t remove_code
  | .removing p rest => ∃ v t, Removing m d p v t rest

/-- A callback that has been entered belongs to `d`. -/
def Good (m : Driver D) (th : D → Thread) (d : D) : Callback → Prop
  | .my_handler p virt pc => irqOn (th d) ∧ p = m.drvdata d ∧
    (pc ≠ .virt → ∃ t, m.heap.get p = some (d, .help virt t))
  | .raise_intr t p virt pc => timerOn (th d) ∧ p = m.drvdata d ∧
    ∃ v, m.heap.get p = some (d, .help v t) ∧ (pc ≠ .virt → virt = v)

/-- The handler may run with the cookie `p`. -/
def Irq (m : Driver D) (th : D → Thread) (d : D) (p : Ptr) : Prop := irqOn (th d) ∧ p = m.drvdata d

/-- The timer `t` may run. -/
def Timer (m : Driver D) (th : D → Thread) (d : D) (t : Ptr) : Prop :=
  timerOn (th d) ∧ ∃ v, m.heap.get (m.drvdata d) = some (d, .help v t)

/-- The invariant: what is registered, set or running belongs to a card for
which it may be. -/
structure Inv (s : State D) : Prop where
  phase : ∀ d, Phase s.mod d (s.thread d)
  irq : ∀ x ∈ s.mod.irq, Irq s.mod s.thread x.1 x.2
  armed : ∀ t ∈ s.mod.armed, ∃ d, Timer s.mod s.thread d t
  running : ∀ c ∈ s.running, ∃ d, Good s.mod s.thread d c
  faults : s.mod.faults = []

end Invariant

/-! ### What is there in each phase -/

section Phases

variable {D : Type*} {m n : Driver D} {d : D} {th : Thread} {c : Callback}

/-- What belongs to `d` is the same in both states. -/
structure Spares (m n : Driver D) (d : D) : Prop where
  cells : ∀ a x, m.heap.get a = some (d, x) → n.heap.get a = some (d, x)
  drvdata : n.drvdata d = m.drvdata d

theorem Probing.keep {l : Locals} {rest : List Probe} (hp : Probing m d l rest)
    (hs : Spares m n d) : Probing n d l rest where
  code := hp.code
  bar h := hs.cells _ _ (hp.bar h)
  timer h := by
    obtain ⟨a, ha, hd⟩ := hp.timer h
    exact ⟨a, hs.cells _ _ ha, hd⟩
  help h := by
    obtain ⟨v, t, hh, hvt⟩ := hp.help h
    exact ⟨v, t, hs.cells _ _ hh, hvt⟩
  drvdata h := hs.drvdata.trans (hp.drvdata h)

theorem Removing.keep {p v t : Ptr} {rest : List Remove} (hp : Removing m d p v t rest)
    (hs : Spares m n d) : Removing n d p v t rest where
  code := hp.code
  p h := (hp.p h).trans hs.drvdata.symm
  bar h := hs.cells _ _ (hp.bar h)
  timer h := by
    rw [hs.drvdata]
    exact hs.cells _ _ (hp.timer h)
  help h := by
    rw [hs.drvdata]
    exact hs.cells _ _ (hp.help h)

theorem Phase.keep (hp : Phase m d th) (hs : Spares m n d) : Phase n d th := by
  rcases th with _ | ⟨l, rest⟩ | _ | ⟨p, rest⟩
  · trivial
  · exact Probing.keep hp hs
  · obtain ⟨v, t, hp⟩ := hp
    refine ⟨v, t, ?_⟩
    rw [hs.drvdata]
    exact hp.keep hs
  · obtain ⟨v, t, hp⟩ := hp
    exact ⟨v, t, hp.keep hs⟩

theorem Good.keep {th th' : D → Thread} (hg : Good m th d c) (hs : Spares m n d)
    (ht : th' d = th d) : Good n th' d c := by
  rcases c with ⟨p, virt, pc⟩ | ⟨t, p, virt, pc⟩
  · obtain ⟨h1, rfl, h3⟩ := hg
    refine ⟨ht ▸ h1, hs.drvdata.symm, fun hpc => ?_⟩
    obtain ⟨t, h⟩ := h3 hpc
    exact ⟨t, hs.cells _ _ h⟩
  · obtain ⟨h1, rfl, v, h, h3⟩ := hg
    exact ⟨ht ▸ h1, hs.drvdata.symm, v, hs.cells _ _ h, h3⟩

theorem Timer.keep {th th' : D → Thread} {t : Ptr} (h : Timer m th d t) (hs : Spares m n d)
    (ht : th' d = th d) : Timer n th' d t := by
  obtain ⟨h1, v, h2⟩ := h
  refine ⟨ht ▸ h1, v, ?_⟩
  rw [hs.drvdata]
  exact hs.cells _ _ h2

/-- By the time of `request_irq` and of `mod_timer`, what is used has been
made. -/
theorem probe_order : ∀ l ∈ probe_code.tails,
    (.request_irq ∉ l → .kmalloc_p ∉ l ∧ .pci_ioremap_bar ∉ l ∧ .set_virt ∉ l ∧
      .pci_set_drvdata ∉ l ∧ .kmalloc_my_timer ∉ l ∧ .setup_timer ∉ l ∧ .set_timer ∉ l) ∧
    (.mod_timer ∉ l → .request_irq ∉ l) := by decide

/-- What is used until `free_irq` and until `del_timer_sync` is given up after. -/
theorem remove_order : ∀ l ∈ remove_code.tails, (.free_irq ∈ l → .iounmap ∈ l ∧ .kfree_p ∈ l) ∧
    (.del_timer_sync ∈ l → .free_irq ∈ l ∧ .kfree_timer ∈ l) := by decide

/-- While the handler is registered, its structure and the mapping are there. -/
theorem Phase.served (hp : Phase m d th) (hon : irqOn th) :
    ∃ v t, m.heap.get (m.drvdata d) = some (d, .help v t) ∧ m.heap.get v = some (d, .bar) := by
  rcases th with _ | ⟨l, rest⟩ | _ | ⟨p, rest⟩
  · exact hon.elim
  · obtain ⟨h1, h2, h3, h4, -⟩ := (probe_order rest ((List.mem_tails _ _).mpr hp.code)).1 hon
    obtain ⟨v, t, hh, hv, -⟩ := hp.help h1
    refine ⟨v, t, ?_, ?_⟩
    · rw [hp.drvdata h4]
      exact hh
    · rw [hv h3]
      exact hp.bar h2
  · obtain ⟨v, t, hp⟩ := hp
    exact ⟨v, t, hp.help (by decide), hp.bar (by decide)⟩
  · obtain ⟨v, t, hp⟩ := hp
    obtain ⟨hbar, hk⟩ := (remove_order rest ((List.mem_tails _ _).mpr hp.code)).1 hon
    exact ⟨v, t, hp.help hk, hp.bar hbar⟩

/-- While the timer may be set the handler is registered, and the timer is
there. -/
theorem Phase.ticks (hp : Phase m d th) (hon : timerOn th) : irqOn th ∧
    ∀ v t, m.heap.get (m.drvdata d) = some (d, .help v t) →
      m.heap.get t = some (d, .timer (m.drvdata d)) := by
  rcases th with _ | ⟨l, rest⟩ | _ | ⟨p, rest⟩
  · exact hon.elim
  · obtain ⟨ho, hirq⟩ := probe_order rest ((List.mem_tails _ _).mpr hp.code)
    have h8 := hirq hon
    obtain ⟨h1, -, -, h4, h5, h6, h7⟩ := ho h8
    refine ⟨h8, fun v t h => ?_⟩
    obtain ⟨v', t', hh, -, ht⟩ := hp.help h1
    obtain ⟨a, ha, had⟩ := hp.timer h5
    rw [hp.drvdata h4] at h ⊢
    cases hh.symm.trans h
    rw [ht h7, ha, had h6]
  · obtain ⟨v, t, hp⟩ := hp
    refine ⟨trivial, fun v' t' h => ?_⟩
    cases (hp.help (by decide)).symm.trans h
    exact hp.timer (by decide)
  · obtain ⟨v, t, hp⟩ := hp
    obtain ⟨ho, hdel⟩ := remove_order rest ((List.mem_tails _ _).mpr hp.code)
    obtain ⟨hirq, hkt⟩ := hdel hon
    have hk := (ho hirq).2
    refine ⟨hirq, fun v' t' h => ?_⟩
    cases (hp.help hk).symm.trans h
    exact hp.timer hkt

end Phases

/-! ### The callbacks keep the invariant -/

section Access

variable {D : Type*} {m : Driver D} {d : D} {a v t : Ptr} {x : Obj}

theorem Driver.is_of_get (hx : m.heap.get a = some (d, x)) : m.Is x.kind a := by
  unfold Driver.Is
  rw [hx]
  rfl

theorem Driver.use_eq {k : Kind} (hk : m.Is k a) : m.use k a = m := if_pos hk

theorem Driver.help?_eq (h : m.heap.get a = some (d, .help v t)) : m.help? a = some (v, t) := by
  unfold Driver.help?
  rw [h]

theorem Driver.writel_eq (h : m.heap.get a = some (d, .bar)) (w : BitVec 32) (r : Reg) :
    m.writel w r a = { m with io := m.io ++ [(a, r, w)] } := if_pos (is_of_get h)

theorem Driver.mod_timer_eq {b : Ptr} (h : m.heap.get a = some (d, .timer b)) :
    m.mod_timer a = { m with armed := m.armed.insert a } := if_pos (is_of_get h)

theorem Driver.release_eq (h : m.heap.get a = some (d, x)) :
    m.release x.kind a = { m with heap := m.heap.free a } := if_pos (is_of_get h)

end Access

section Invariant

variable {D : Type*} {s t : State D} {d : D}

/-- A step of a callback may write to registers and set its own timer. -/
theorem Inv.callback (hi : Inv s) {armed : List Ptr} {w : List (Ptr × Reg × BitVec 32)}
    {running : List Callback}
    (ha : ∀ t ∈ armed, t ∈ s.mod.armed ∨ ∃ d, Timer s.mod s.thread d t)
    (hr : ∀ c ∈ running, c ∈ s.running ∨ ∃ d, Good s.mod s.thread d c) :
    Inv { s with mod := { s.mod with armed := armed, io := w }, running := running } where
  phase d := (hi.phase d).keep ⟨fun _ _ => id, rfl⟩
  irq x hx := hi.irq x hx
  armed q hq := (ha q hq).elim (hi.armed q) id
  running c hc := by
    obtain ⟨d, hg⟩ := (hr c hc).elim (hi.running c) id
    exact ⟨d, hg.keep ⟨fun _ _ => id, rfl⟩ rfl⟩
  faults := hi.faults

theorem Inv.handler (hi : Inv s) {p virt : Ptr} {pc : Handler}
    (hg : Good s.mod s.thread d (.my_handler p virt pc)) (v : BitVec 32) :
    ∃ io, (my_handler s.mod p virt v pc).1.2 = { s.mod with io := io } ∧
      ∀ pc', Good s.mod s.thread d (.my_handler p (my_handler s.mod p virt v pc).1.1 pc') := by
  obtain ⟨hon, rfl, hvirt⟩ := hg
  obtain ⟨b, q, hh, hb⟩ := (hi.phase d).served hon
  by_cases hpc : pc = .virt
  · subst hpc
    simp only [my_handler, Driver.help?_eq hh]
    exact ⟨_, rfl, fun _ => ⟨hon, rfl, fun _ => ⟨q, hh⟩⟩⟩
  obtain ⟨q', hq'⟩ := hvirt hpc
  cases hh.symm.trans hq'
  cases pc with
  | virt => exact absurd rfl hpc
  | raised =>
    have hu : s.mod.use .bar virt = s.mod := Driver.use_eq (Driver.is_of_get hb)
    simp only [my_handler, hu]
    exact ⟨_, rfl, fun _ => ⟨hon, rfl, fun _ => ⟨q, hh⟩⟩⟩
  | ack =>
    simp only [my_handler, Driver.writel_eq hb]
    exact ⟨_, rfl, fun _ => ⟨hon, rfl, fun _ => ⟨q, hh⟩⟩⟩
  | ret r => exact ⟨_, rfl, fun _ => ⟨hon, rfl, fun _ => ⟨q, hh⟩⟩⟩

/-- A step of `raise_intr`, which may set its timer again. -/
theorem Inv.raise_intr (hi : Inv s) {q p virt : Ptr} {pc : Tick}
    (hg : Good s.mod s.thread d (.raise_intr q p virt pc)) :
    ∃ armed io, (raise_intr s.mod p virt pc).1.2 = { s.mod with armed := armed, io := io } ∧
      (∀ t ∈ armed, t ∈ s.mod.armed ∨ Timer s.mod s.thread d t) ∧
      ∀ pc', Good s.mod s.thread d (.raise_intr q p (raise_intr s.mod p virt pc).1.1 pc') := by
  obtain ⟨hon, rfl, b, hh, hvirt⟩ := hg
  obtain ⟨hirq, ht⟩ := (hi.phase d).ticks hon
  have hq := ht b q hh
  obtain ⟨b', q', hh', hb⟩ := (hi.phase d).served hirq
  cases hh.symm.trans hh'
  cases pc with
  | virt =>
    simp only [Rearm.raise_intr, Driver.help?_eq hh]
    exact ⟨_, _, rfl, fun t => .inl, fun _ => ⟨hon, rfl, b, hh, fun _ => rfl⟩⟩
  | raise =>
    obtain rfl := hvirt (by simp)
    simp only [Rearm.raise_intr, Driver.writel_eq hb]
    exact ⟨_, _, rfl, fun t => .inl, fun _ => ⟨hon, rfl, virt, hh, fun _ => rfl⟩⟩
  | mod_timer =>
    obtain rfl := hvirt (by simp)
    simp only [Rearm.raise_intr, Driver.help?_eq hh, Driver.mod_timer_eq hq]
    refine ⟨_, _, rfl, fun t ht => ?_, fun _ => ⟨hon, rfl, virt, hh, fun _ => rfl⟩⟩
    rcases List.mem_insert_iff.mp ht with rfl | ht
    · exact .inr ⟨hon, virt, hh⟩
    · exact .inl ht

/-- An event of a callback. -/
def Ev.async : Ev D → Bool
  | .irq _ | .tick _ | .callback _ _ => true
  | _ => false

theorem Inv.async [DecidableEq D] (hi : Inv s) {e : Ev D} (ha : e.async = true)
    (he : step s e = some t) : Inv t := by
  cases e with
  | probe | remove | main => cases ha
  | irq i =>
    simp only [step] at he
    rcases hx : s.mod.irq[i]? with _ | ⟨d, p⟩ <;> rw [hx] at he
    · cases he
    obtain rfl := Option.some.inj he
    obtain ⟨hon, hp⟩ := hi.irq _ (List.mem_of_getElem? hx)
    refine hi.callback (fun t => .inl) fun c hc => ?_
    rcases List.mem_append.mp hc with hc | hc
    · exact .inl hc
    · rw [List.mem_singleton.mp hc]
      exact .inr ⟨d, hon, hp, fun h => absurd rfl h⟩
  | tick i =>
    simp only [step] at he
    rcases hx : s.mod.armed[i]? with _ | q <;> rw [hx] at he
    · cases he
    obtain ⟨d, hon, b, hh⟩ := hi.armed _ (List.mem_of_getElem? hx)
    have hq := ((hi.phase d).ticks hon).2 b q hh
    simp only [hq] at he
    obtain rfl := Option.some.inj he
    refine hi.callback (w := s.mod.io) (fun t ht => .inl (List.mem_of_mem_eraseIdx ht))
      fun c hc => ?_
    rcases List.mem_append.mp hc with hc | hc
    · exact .inl hc
    · rw [List.mem_singleton.mp hc]
      exact .inr ⟨d, hon, rfl, b, hh, fun h => absurd rfl h⟩
  | callback i v =>
    simp only [step, callbackStep] at he
    rcases hx : s.running[i]? with _ | c <;> rw [hx] at he
    · cases he
    obtain ⟨d, hg⟩ := hi.running c (List.mem_of_getElem? hx)
    rcases c with ⟨p, virt, pc⟩ | ⟨q, p, virt, pc⟩
    · obtain ⟨io, hm, hg'⟩ := hi.handler hg v
      obtain rfl := Option.some.inj he
      rw [hm]
      refine hi.callback (fun t => .inl) fun c hc => ?_
      rcases hn : (my_handler s.mod p virt v pc).2 with _ | pc' <;> rw [hn] at hc
      · exact .inl (List.mem_of_mem_eraseIdx hc)
      rcases List.mem_or_eq_of_mem_set hc with hc | rfl
      · exact .inl hc
      · exact .inr ⟨d, hg' pc'⟩
    · obtain ⟨armed, io, hm, ha, hg'⟩ := hi.raise_intr hg
      obtain rfl := Option.some.inj he
      rw [hm]
      refine hi.callback (fun t ht => (ha t ht).imp id fun h => ⟨d, h⟩) fun c hc => ?_
      rcases hn : (Rearm.raise_intr s.mod p virt pc).2 with _ | pc' <;> rw [hn] at hc
      · exact .inl (List.mem_of_mem_eraseIdx hc)
      rcases List.mem_or_eq_of_mem_set hc with hc | rfl
      · exact .inl hc
      · exact .inr ⟨d, hg' pc'⟩

/-! ### The calls keep the invariant -/

variable [DecidableEq D] {m : Driver D} {u : Thread}

/-- Where a step of a call for `d` leads. -/
def State.go (s : State D) (d : D) (m : Driver D) (u : Thread) : State D :=
  { s with mod := m, thread := Function.update s.thread d u }

theorem State.go_self : (s.go d m u).thread d = u := Function.update_self ..

theorem State.go_of_ne {e : D} (h : e ≠ d) : (s.go d m u).thread e = s.thread e :=
  Function.update_of_ne h ..

/-- **A step of a call for `d`** leaves the other cards alone, and accounts for
what is registered, set or running for `d`. -/
theorem Inv.go (hi : Inv s) (hs : ∀ e, e ≠ d → Spares s.mod m e) (hp : Phase m d u)
    (hirq : ∀ x ∈ m.irq, x.1 ≠ d ∧ x ∈ s.mod.irq ∨ x.1 = d ∧ Irq m (s.go d m u).thread d x.2)
    (harmed : ∀ t ∈ m.armed, t ∈ s.mod.armed ∧ ¬ Timer s.mod s.thread d t ∨
      Timer m (s.go d m u).thread d t)
    (hrun : ∀ c ∈ s.running, Good s.mod s.thread d c → Good m (s.go d m u).thread d c)
    (hf : m.faults = []) : Inv (s.go d m u) where
  phase e := by
    by_cases he : e = d
    · subst he
      rw [State.go_self]
      exact hp
    · rw [State.go_of_ne he]
      exact (hi.phase e).keep (hs e he)
  irq x hx := by
    rcases hirq x hx with ⟨hne, hx⟩ | ⟨he, h⟩
    · obtain ⟨h1, h2⟩ := hi.irq x hx
      refine ⟨?_, h2.trans (hs _ hne).drvdata.symm⟩
      rw [State.go_of_ne hne]
      exact h1
    · rw [he]
      exact h
  armed q hq := by
    rcases harmed q hq with ⟨hq, hno⟩ | h
    · obtain ⟨e, h⟩ := hi.armed q hq
      have hne : e ≠ d := fun he => hno (he ▸ h)
      exact ⟨e, h.keep (hs e hne) (State.go_of_ne hne)⟩
    · exact ⟨d, h⟩
  running c hc := by
    obtain ⟨e, hg⟩ := hi.running c hc
    by_cases he : e = d
    · exact ⟨d, hrun c hc (he ▸ hg)⟩
    · exact ⟨e, hg.keep (hs e he) (State.go_of_ne he)⟩
  faults := hf

/-- A step while nothing can run for the card. -/
theorem Inv.go_off (hi : Inv s) (hoff : ¬ irqOn (s.thread d))
    (hs : ∀ e, e ≠ d → Spares s.mod m e) (hp : Phase m d u) (hirq : m.irq = s.mod.irq)
    (harmed : m.armed = s.mod.armed) (hf : m.faults = s.mod.faults) : Inv (s.go d m u) := by
  have hoff' : ¬ timerOn (s.thread d) := fun h => hoff ((hi.phase d).ticks h).1
  refine hi.go hs hp (fun x hx => .inl ?_) (fun q hq => .inl ?_) (fun c hc hg => ?_)
    (hf.trans hi.faults)
  · rw [hirq] at hx
    exact ⟨fun he => hoff (he ▸ (hi.irq x hx).1), hx⟩
  · rw [harmed] at hq
    exact ⟨hq, fun h => hoff' h.1⟩
  · rcases c with _ | _
    · exact (hoff hg.1).elim
    · exact (hoff' hg.1).elim

/-- A step that keeps the handler registered, and the timer as it is or set. -/
theorem Inv.go_on (hi : Inv s) (hs : ∀ e, e ≠ d → Spares s.mod m e) (hp : Phase m d u)
    (hon : irqOn u) (ht : timerOn (s.thread d) → timerOn u)
    (hh : ∀ v t, s.mod.heap.get (s.mod.drvdata d) = some (d, .help v t) →
      m.heap.get (m.drvdata d) = some (d, .help v t))
    (hd : m.drvdata d = s.mod.drvdata d) (hirq : m.irq = s.mod.irq)
    (harmed : ∀ t ∈ m.armed, t ∈ s.mod.armed ∨ Timer m (s.go d m u).thread d t)
    (hf : m.faults = []) : Inv (s.go d m u) := by
  have hth : (s.go d m u).thread d = u := State.go_self
  have htimer : ∀ {q}, Timer s.mod s.thread d q → Timer m (s.go d m u).thread d q := by
    rintro q ⟨h1, v, h2⟩
    exact ⟨hth.symm ▸ ht h1, v, hh v q h2⟩
  refine hi.go hs hp (fun x hx => ?_) (fun q hq => ?_) (fun c hc hg => ?_) hf
  · rw [hirq] at hx
    by_cases he : x.1 = d
    · exact .inr ⟨he, hth.symm ▸ hon, ((hi.irq x hx).2.trans (congrArg _ he)).trans hd.symm⟩
    · exact .inl ⟨he, hx⟩
  · by_cases h : Timer s.mod s.thread d q
    · exact .inr (htimer h)
    · exact (harmed q hq).imp (fun hq => ⟨hq, h⟩) id
  · rcases c with ⟨p, virt, pc⟩ | ⟨q, p, virt, pc⟩
    · obtain ⟨-, rfl, h⟩ := hg
      refine ⟨hth.symm ▸ hon, hd.symm, fun hpc => ?_⟩
      obtain ⟨q, h⟩ := h hpc
      exact ⟨q, hd ▸ hh _ _ h⟩
    · obtain ⟨h1, rfl, v, h2, h3⟩ := hg
      exact ⟨hth.symm ▸ ht h1, hd.symm, v, hd ▸ hh _ _ h2, h3⟩

/-! ### The statements of `my_probe` -/

omit [DecidableEq D] in
theorem spares_alloc (m : Driver D) (d e : D) (x : Obj) : Spares m (m.alloc d x) e :=
  ⟨fun _ _ h => Heap.get_alloc h, rfl⟩

omit [DecidableEq D] in
theorem spares_set {m : Driver D} {a : Ptr} {x : Obj} (ha : m.heap.get a = some (d, x)) (y : Obj)
    {e : D} (he : e ≠ d) : Spares m { m with heap := m.heap.set a (d, y) } e := by
  exact ⟨fun b z hb => Heap.get_set_other _ hb ha fun h => he (Prod.mk.inj h).1, rfl⟩

omit [DecidableEq D] in
/-- What a statement that makes nothing leaves as it is. -/
theorem Probing.skip {l : Locals} {st : Probe} {rest : List Probe} (hp : Probing m d l (st :: rest))
    (hst : st ∉ [.pci_ioremap_bar, .kmalloc_my_timer, .kmalloc_p, .setup_timer, .set_virt, .set_timer,
      .pci_set_drvdata]) : Probing m d l rest := by
  simp only [List.mem_cons, List.not_mem_nil, or_false, not_or] at hst
  obtain ⟨h1, h2, h3, h4, h5, h6, h7⟩ := hst
  have hm : ∀ {x}, ¬ st = x → x ∉ rest → x ∉ st :: rest := by
    intro x hx hr h
    rcases List.mem_cons.mp h with rfl | h
    · exact hx rfl
    · exact hr h
  refine ⟨(List.suffix_cons st rest).trans hp.code, fun h => hp.bar (hm h1 h), fun h => ?_,
    fun h => ?_, fun h => hp.drvdata (hm h7 h)⟩
  · obtain ⟨a, ha, hd⟩ := hp.timer (hm h2 h)
    exact ⟨a, ha, fun h => hd (hm h4 h)⟩
  · obtain ⟨v, t, hh, hv, ht⟩ := hp.help (hm h3 h)
    exact ⟨v, t, hh, fun h => hv (hm h5 h), fun h => ht (hm h6 h)⟩

/-- Nothing is registered or set, and nothing faults. -/
def Still (m m' : Driver D) : Prop :=
  m'.irq = m.irq ∧ m'.armed = m.armed ∧ m'.faults = m.faults

/-- Up to `request_irq` a statement makes one more thing, for its own card. -/
theorem Probing.early {l : Locals} {st : Probe} {rest : List Probe} (hp : Probing m d l (st :: rest))
    (hr : .request_irq ∈ rest) (err : ℤ) (hl : (st.exec d err l m).1 = none) :
    Probing (st.exec d err l m).2.2 d (st.exec d err l m).2.1 rest ∧
      (∀ e, e ≠ d → Spares m (st.exec d err l m).2.2 e) ∧ Still m (st.exec d err l m).2.2 := by
  obtain rfl : rest = Machine.follow probe_code st := Machine.eq_follow (by decide) hp.code
  have hcode : Machine.follow probe_code st <:+ probe_code := (List.suffix_cons st _).trans hp.code
  cases st with
  | printk => exact ⟨hp.skip (by decide), fun _ _ => ⟨fun _ _ => id, rfl⟩, rfl, rfl, rfl⟩
  | pci_enable_device | pci_request_region =>
    by_cases he : err ≠ 0
    · simp [Probe.exec, he] at hl
    simp only [Probe.exec, if_neg he]
    exact ⟨(hp.skip (by decide)).keep ⟨fun _ _ => id, rfl⟩, fun _ _ => ⟨fun _ _ => id, rfl⟩,
      rfl, rfl, rfl⟩
  | pci_ioremap_bar =>
    by_cases he : err ≠ 0
    · simp [Probe.exec, he] at hl
    simp only [Probe.exec, if_neg he]
    exact ⟨⟨hcode, fun _ => m.heap.get_alloc_self, fun h => absurd h (by decide),
      fun h => absurd h (by decide), fun h => absurd h (by decide)⟩, fun e _ => spares_alloc m d e _,
      rfl, rfl, rfl⟩
  | kmalloc_my_timer =>
    by_cases he : err ≠ 0
    · simp [Probe.exec, he] at hl
    simp only [Probe.exec, if_neg he]
    exact ⟨⟨hcode, fun _ => Heap.get_alloc (hp.bar (by decide)),
      fun _ => ⟨_, m.heap.get_alloc_self, fun h => absurd h (by decide)⟩,
      fun h => absurd h (by decide), fun h => absurd h (by decide)⟩, fun e _ => spares_alloc m d e _,
      rfl, rfl, rfl⟩
  | kmalloc_p =>
    by_cases he : err ≠ 0
    · simp [Probe.exec, he] at hl
    obtain ⟨a, ha, -⟩ := hp.timer (by decide)
    simp only [Probe.exec, if_neg he]
    exact ⟨⟨hcode, fun _ => Heap.get_alloc (hp.bar (by decide)),
      fun _ => ⟨a, Heap.get_alloc ha, fun h => absurd h (by decide)⟩,
      fun _ => ⟨_, _, m.heap.get_alloc_self, fun h => absurd h (by decide),
        fun h => absurd h (by decide)⟩,
      fun h => absurd h (by decide)⟩, fun e _ => spares_alloc m d e _,
      rfl, rfl, rfl⟩
  | setup_timer =>
    obtain ⟨a, ha, -⟩ := hp.timer (by decide)
    obtain ⟨v, t, hh, -⟩ := hp.help (by decide)
    have hx : m.setup_timer l.my_timer l.p =
        { m with heap := m.heap.set l.my_timer (d, .timer l.p) } := by
      unfold Driver.setup_timer
      rw [ha]
    simp only [Probe.exec, hx]
    exact ⟨⟨hcode, fun _ => Heap.get_set_other _ (hp.bar (by decide)) ha (by simp),
      fun _ => ⟨l.p, Heap.get_set_self ha, fun _ => rfl⟩,
      fun _ => ⟨v, t, Heap.get_set_other _ hh ha (by simp), fun h => absurd h (by decide),
        fun h => absurd h (by decide)⟩,
      fun h => absurd h (by decide)⟩, fun e he => spares_set ha _ he, rfl, rfl, rfl⟩
  | set_virt =>
    obtain ⟨a, ha, hd⟩ := hp.timer (by decide)
    obtain ⟨v, t, hh, -⟩ := hp.help (by decide)
    have hx : m.setHelp l.p (fun h => (l.virt, h.2)) =
        { m with heap := m.heap.set l.p (d, .help l.virt t) } := by
      unfold Driver.setHelp
      rw [hh]
    simp only [Probe.exec, hx]
    exact ⟨⟨hcode, fun _ => Heap.get_set_other _ (hp.bar (by decide)) hh (by simp),
      fun _ => ⟨a, Heap.get_set_other _ ha hh (by simp), fun _ => hd (by decide)⟩,
      fun _ => ⟨l.virt, t, Heap.get_set_self hh, fun _ => rfl, fun h => absurd h (by decide)⟩,
      fun h => absurd h (by decide)⟩, fun e he => spares_set hh _ he, rfl, rfl, rfl⟩
  | set_timer =>
    obtain ⟨a, ha, hd⟩ := hp.timer (by decide)
    obtain ⟨v, t, hh, hv, -⟩ := hp.help (by decide)
    have hx : m.setHelp l.p (fun h => (h.1, l.my_timer)) =
        { m with heap := m.heap.set l.p (d, .help v l.my_timer) } := by
      unfold Driver.setHelp
      rw [hh]
    simp only [Probe.exec, hx]
    exact ⟨⟨hcode, fun _ => Heap.get_set_other _ (hp.bar (by decide)) hh (by simp),
      fun _ => ⟨a, Heap.get_set_other _ ha hh (by simp), fun _ => hd (by decide)⟩,
      fun _ => ⟨v, l.my_timer, Heap.get_set_self hh, fun _ => hv (by decide), fun _ => rfl⟩,
      fun h => absurd h (by decide)⟩, fun e he => spares_set hh _ he, rfl, rfl, rfl⟩
  | pci_set_drvdata =>
    obtain ⟨a, ha, hd⟩ := hp.timer (by decide)
    obtain ⟨v, t, hh, hv, ht⟩ := hp.help (by decide)
    exact ⟨⟨hcode, fun _ => hp.bar (by decide), fun _ => ⟨a, ha, fun _ => hd (by decide)⟩,
      fun _ => ⟨v, t, hh, fun _ => hv (by decide), fun _ => ht (by decide)⟩,
      fun _ => Function.update_self ..⟩, fun e he => ⟨fun _ _ => id, Function.update_of_ne he ..⟩,
      rfl, rfl, rfl⟩
  | _ => exact absurd hr (by decide)

/-- A statement that leaves `my_probe` has done nothing. -/
theorem exec_of_leave {l : Locals} {st : Probe} {err e : ℤ} (hl : (st.exec d err l m).1 = some e) :
    (st.exec d err l m).2.2 = m := by
  cases st <;> simp only [Probe.exec] at hl ⊢
  all_goals first
    | cases hl
    | (split_ifs at hl ⊢; rfl)

/-- **A statement of `my_probe`**. -/
theorem Inv.probing (hi : Inv s) {l : Locals} {st : Probe} {rest : List Probe}
    (hth : s.thread d = .probing l (st :: rest)) (err : ℤ) :
    Inv (s.go d (st.exec d err l s.mod).2.2 (match (st.exec d err l s.mod).1 with
      | none => .probing (st.exec d err l s.mod).2.1 rest
      | some _ => .idle)) := by
  have hp : Probing s.mod d l (st :: rest) := by
    have hp := hi.phase d
    rw [hth] at hp
    exact hp
  have hcode : rest <:+ probe_code := (List.suffix_cons st rest).trans hp.code
  have hrest := Machine.eq_follow (by decide) hp.code
  have hirq : irqOn (s.thread d) ↔ .request_irq ∉ st :: rest := by
    rw [hth]
    rfl
  rcases hl : (st.exec d err l s.mod).1 with _ | e
  · by_cases hr : .request_irq ∈ rest
    · -- more is made
      have hoff := fun h => hirq.mp h (List.mem_cons_of_mem st hr)
      obtain ⟨h1, h2, h3, h4, h5⟩ := hp.early hr err hl
      exact hi.go_off hoff h2 h1 h3 h4 h5
    obtain rfl : rest = Machine.follow probe_code st := hrest
    cases st with
    | request_irq =>
      by_cases he : err ≠ 0
      · simp [Probe.exec, he] at hl
      have hoff := fun h => hirq.mp h List.mem_cons_self
      have hoff' : ¬ timerOn (s.thread d) := fun h => hoff ((hi.phase d).ticks h).1
      have hp' := (hp.skip (by decide)).keep (n := { s.mod with irq := s.mod.irq ++ [(d, l.p)] })
        ⟨fun _ _ => id, rfl⟩
      simp only [Probe.exec, if_neg he]
      refine hi.go (fun _ _ => ⟨fun _ _ => id, rfl⟩) hp' (fun x hx => ?_)
        (fun q hq => .inl ⟨hq, fun h => hoff' h.1⟩) (fun c hc hg => ?_) hi.faults
      · rcases List.mem_append.mp hx with hx | hx
        · exact .inl ⟨fun he => hoff (he ▸ (hi.irq x hx).1), hx⟩
        · rw [List.mem_singleton.mp hx]
          refine .inr ⟨rfl, ?_, (hp'.drvdata (by decide)).symm⟩
          rw [State.go_self]
          exact hr
      · rcases c with _ | _
        · exact (hoff hg.1).elim
        · exact (hoff' hg.1).elim
    | writel =>
      have hb := hp.bar (by decide)
      simp only [Probe.exec, Driver.writel_eq hb]
      exact hi.go_on (fun _ _ => ⟨fun _ _ => id, rfl⟩)
        ((hp.skip (by decide)).keep ⟨fun _ _ => id, rfl⟩) hr (fun h => by
          rw [hth] at h
          exact absurd (by decide) (show Probe.mod_timer ∉ .writel :: Machine.follow probe_code .writel from h))
        (fun _ _ => id) rfl rfl (fun _ => .inl) hi.faults
    | mod_timer =>
      obtain ⟨a, ha, -⟩ := hp.timer (by decide)
      obtain ⟨v, t, hh, -, ht⟩ := hp.help (by decide)
      rw [ht (by decide), ← hp.drvdata (by decide)] at hh
      simp only [Probe.exec, Driver.mod_timer_eq ha]
      refine hi.go_on (fun _ _ => ⟨fun _ _ => id, rfl⟩)
        ((hp.skip (by decide)).keep ⟨fun _ _ => id, rfl⟩) hr (fun _ => ?_) (fun _ _ => id) rfl rfl
        (fun q hq => ?_) hi.faults
      · exact (by decide : Probe.mod_timer ∉ Machine.follow probe_code .mod_timer)
      · rcases List.mem_insert_iff.mp hq with rfl | hq
        · refine .inr ⟨?_, v, hh⟩
          rw [State.go_self]
          exact (by decide : Probe.mod_timer ∉ Machine.follow probe_code .mod_timer)
        · exact .inl hq
    | _ => exact absurd (by decide) hr
  · -- the call gives up, and nothing can run for the card
    have hoff : ¬ irqOn (s.thread d) := by
      intro h
      have hno := hirq.mp h
      obtain rfl : rest = Machine.follow probe_code st := hrest
      cases st <;> first
        | exact absurd (by decide) hno
        | cases hl
    rw [exec_of_leave hl]
    exact hi.go_off hoff (fun _ _ => ⟨fun _ _ => id, rfl⟩) trivial rfl rfl rfl

/-! ### The statements of `my_remove` -/

omit [DecidableEq D] in
theorem spares_free {m : Driver D} {a : Ptr} {x : Obj} (ha : m.heap.get a = some (d, x)) {e : D}
    (he : e ≠ d) : Spares m { m with heap := m.heap.free a } e :=
  ⟨fun _ _ hb => Heap.get_free_other hb ha fun h => he (Prod.mk.inj h).1, rfl⟩

omit [DecidableEq D] in
theorem Removing.next {p p' v t : Ptr} {st : Remove} {rest : List Remove}
    (hp : Removing m d p v t (st :: rest)) (hp' : .pci_get_drvdata ∉ rest → p' = m.drvdata d) :
    Removing m d p' v t rest :=
  ⟨(List.suffix_cons st rest).trans hp.code, hp', fun h => hp.bar (List.mem_cons_of_mem _ h),
    fun h => hp.timer (List.mem_cons_of_mem _ h), fun h => hp.help (List.mem_cons_of_mem _ h)⟩

theorem Inv.del_timer_sync (hi : Inv s) {p v t : Ptr}
    (hp : Removing s.mod d p v t (.del_timer_sync :: Machine.follow remove_code .del_timer_sync))
    (hw : waits s p .del_timer_sync = false) :
    Inv (s.go d (Remove.exec d p s.mod .del_timer_sync).2
      (.removing (Remove.exec d p s.mod .del_timer_sync).1 (Machine.follow remove_code .del_timer_sync))) := by
  obtain rfl := hp.p (by decide)
  have hh := hp.help (by decide)
  have hu : s.mod.use .timer t = s.mod :=
    Driver.use_eq (Driver.is_of_get (hp.timer (by decide)))
  simp only [waits, Driver.help?_eq hh, Option.any_some] at hw
  simp only [Remove.exec, Driver.help?_eq hh, Driver.del_timer_sync, hu]
  have hth' : irqOn (.removing (s.mod.drvdata d) (Machine.follow remove_code .del_timer_sync)) :=
    (by decide : Remove.free_irq ∈ Machine.follow remove_code .del_timer_sync)
  refine hi.go (fun _ _ => ⟨fun _ _ => id, rfl⟩)
    ⟨v, t, (hp.next fun _ => rfl).keep ⟨fun _ _ => id, rfl⟩⟩ (fun x hx => ?_) (fun q hq => ?_)
    (fun c hc hg => ?_) hi.faults
  · by_cases he : x.1 = d
    · refine .inr ⟨he, ?_, he ▸ (hi.irq x hx).2⟩
      rw [State.go_self]
      exact hth'
    · exact .inl ⟨he, hx⟩
  · obtain ⟨hq, hne⟩ := List.mem_filter.mp hq
    refine .inl ⟨hq, ?_⟩
    rintro ⟨-, v', h⟩
    cases hh.symm.trans h
    exact of_decide_eq_true hne rfl
  · rcases c with ⟨p, virt, pc⟩ | ⟨q, p, virt, pc⟩
    · refine ⟨?_, hg.2⟩
      rw [State.go_self]
      exact hth'
    · obtain ⟨-, rfl, v', h, -⟩ := hg
      cases hh.symm.trans h
      exact absurd (decide_eq_true rfl) (List.any_eq_false.mp hw _ hc)

theorem Inv.kfree_timer (hi : Inv s) {p v t : Ptr}
    (hp : Removing s.mod d p v t (.kfree_timer :: Machine.follow remove_code .kfree_timer))
    (hoff : ¬ timerOn (s.thread d)) :
    Inv (s.go d (Remove.exec d p s.mod .kfree_timer).2
      (.removing (Remove.exec d p s.mod .kfree_timer).1 (Machine.follow remove_code .kfree_timer))) := by
  obtain rfl := hp.p (by decide)
  have hh := hp.help (by decide)
  have ht := hp.timer (by decide)
  have hb := hp.bar (by decide)
  have hne : t ≠ NULL := Heap.ne_null ht
  have hr : s.mod.release .timer t = { s.mod with heap := s.mod.heap.free t } :=
    Driver.release_eq ht
  have hfree : ∀ {a x}, s.mod.heap.get a = some (d, x) → x.kind ≠ .timer →
      (s.mod.heap.free t).get a = some (d, x) := by
    intro a x ha hk
    refine Heap.get_free_other ha ht ?_
    intro h
    exact hk (by rw [(Prod.mk.inj h).2]; rfl)
  simp only [Remove.exec, Driver.help?_eq hh, hr, if_pos hne]
  refine hi.go_on (fun e he => spares_free ht he) ⟨v, t, ?_⟩
    (by decide : Remove.free_irq ∈ Machine.follow remove_code .kfree_timer)
    (fun h => absurd h hoff) (fun v' t' h => hfree h (by simp [Obj.kind])) rfl rfl
    (fun _ => .inl) hi.faults
  exact ⟨(hp.next fun _ => rfl).code, fun _ => rfl, fun _ => hfree hb (by simp [Obj.kind]),
    fun h => absurd h (by decide), fun _ => hfree hh (by simp [Obj.kind])⟩

theorem Inv.free_irq (hi : Inv s) {p v t : Ptr}
    (hp : Removing s.mod d p v t (.free_irq :: Machine.follow remove_code .free_irq))
    (hoff : ¬ timerOn (s.thread d)) (hw : waits s p .free_irq = false) :
    Inv (s.go d (Remove.exec d p s.mod .free_irq).2
      (.removing (Remove.exec d p s.mod .free_irq).1 (Machine.follow remove_code .free_irq))) := by
  obtain rfl := hp.p (by decide)
  refine hi.go (m := { s.mod with irq := s.mod.irq.filter fun x => x ≠ (d, s.mod.drvdata d) })
    (fun _ _ => ⟨fun _ _ => id, rfl⟩)
    ⟨v, t, (hp.next fun _ => rfl).keep ⟨fun _ _ => id, rfl⟩⟩ (fun x hx => .inl ?_)
    (fun q hq => .inl ⟨hq, fun h => hoff h.1⟩) (fun c hc hg => ?_) hi.faults
  · obtain ⟨hx, hne⟩ := List.mem_filter.mp hx
    refine ⟨fun he => of_decide_eq_true hne ?_, hx⟩
    have h2 := (hi.irq x hx).2
    rw [he] at h2
    exact Prod.ext he h2
  · rcases c with ⟨p, virt, pc⟩ | _
    · obtain ⟨-, rfl, -⟩ := hg
      exact absurd (decide_eq_true rfl) (List.any_eq_false.mp hw _ hc)
    · exact (hoff hg.1).elim

/-- **A statement of `my_remove`**. -/
theorem Inv.removing (hi : Inv s) {p : Ptr} {st : Remove} {rest : List Remove}
    (hth : s.thread d = .removing p (st :: rest)) (hw : waits s p st = false) :
    Inv (s.go d (st.exec d p s.mod).2 (.removing (st.exec d p s.mod).1 rest)) := by
  obtain ⟨v, t, hp⟩ : ∃ v t, Removing s.mod d p v t (st :: rest) := by
    have hp := hi.phase d
    rw [hth] at hp
    exact hp
  have hon : irqOn (s.thread d) ↔ .free_irq ∈ st :: rest := by
    rw [hth]
    rfl
  have htimer : timerOn (s.thread d) ↔ .del_timer_sync ∈ st :: rest := by
    rw [hth]
    rfl
  obtain rfl : rest = Machine.follow remove_code st := Machine.eq_follow (by decide) hp.code
  have hself : ∀ e, e ≠ d → Spares s.mod s.mod e := fun _ _ => ⟨fun _ _ => id, rfl⟩
  cases st with
  | printk =>
    exact hi.go_on hself ⟨v, t, hp.next fun h => absurd h (by decide)⟩
      (by decide : Remove.free_irq ∈ Machine.follow remove_code .printk)
      (fun _ => (by decide : Remove.del_timer_sync ∈ Machine.follow remove_code .printk)) (fun _ _ => id) rfl rfl
      (fun _ => .inl) hi.faults
  | pci_get_drvdata =>
    exact hi.go_on hself ⟨v, t, hp.next fun _ => rfl⟩
      (by decide : Remove.free_irq ∈ Machine.follow remove_code .pci_get_drvdata)
      (fun _ => (by decide : Remove.del_timer_sync ∈ Machine.follow remove_code .pci_get_drvdata)) (fun _ _ => id) rfl
      rfl (fun _ => .inl) hi.faults
  | del_timer_sync => exact hi.del_timer_sync hp hw
  | kfree_timer => exact hi.kfree_timer hp fun h => absurd (htimer.mp h) (by decide)
  | free_irq => exact hi.free_irq hp (fun h => absurd (htimer.mp h) (by decide)) hw
  | iounmap =>
    obtain rfl := hp.p (by decide)
    have hh := hp.help (by decide)
    have hb := hp.bar (by decide)
    have hr : s.mod.release .bar v = { s.mod with heap := s.mod.heap.free v } := Driver.release_eq hb
    simp only [Remove.exec, Driver.help?_eq hh, hr]
    refine hi.go_off (fun h => absurd (hon.mp h) (by decide)) (fun e he => spares_free hb he)
      ⟨v, t, (hp.next fun _ => rfl).code, fun _ => rfl, fun h => absurd h (by decide),
        fun h => absurd h (by decide), fun _ => ?_⟩ rfl rfl rfl
    exact Heap.get_free_other hh hb (by simp)
  | pci_release_region | pci_disable_device =>
    obtain rfl := hp.p (by decide)
    exact hi.go_off (fun h => absurd (hon.mp h) (by decide)) (fun _ _ => ⟨fun _ _ => id, rfl⟩)
      ⟨v, t, (hp.next fun _ => rfl).keep ⟨fun _ _ => id, rfl⟩⟩ rfl rfl rfl
  | kfree_p =>
    obtain rfl := hp.p (by decide)
    have hh := hp.help (by decide)
    have hr : s.mod.release .help (s.mod.drvdata d) =
        { s.mod with heap := s.mod.heap.free (s.mod.drvdata d) } := Driver.release_eq hh
    simp only [Remove.exec, hr]
    exact hi.go_off (fun h => absurd (hon.mp h) (by decide)) (fun e he => spares_free hh he)
      ⟨v, t, (hp.next fun _ => rfl).code, fun _ => rfl, fun h => absurd h (by decide),
        fun h => absurd h (by decide), fun h => absurd h (by decide)⟩ rfl rfl rfl

/-! ### Whole runs -/

theorem Inv.main (hi : Inv s) {d : D} {err : ℤ} (he : mainStep s d err = some t) : Inv t := by
  have hself : ∀ e, e ≠ d → Spares s.mod s.mod e := fun _ _ => ⟨fun _ _ => id, rfl⟩
  unfold mainStep at he
  rcases hth : s.thread d with _ | ⟨l, _ | ⟨st, rest⟩⟩ | _ | ⟨p, _ | ⟨st, rest⟩⟩ <;>
    simp only [hth, reduceCtorEq] at he
  · obtain rfl := Option.some.inj he
    have hp : Probing s.mod d l [] := by
      have hp := hi.phase d
      rw [hth] at hp
      exact hp
    obtain ⟨a, ha, had⟩ := hp.timer (by decide)
    obtain ⟨v, t, hh, hv, ht⟩ := hp.help (by decide)
    have hd := hp.drvdata (by decide)
    refine hi.go_on (m := s.mod) (u := .bound) hself ⟨v, t, List.suffix_refl _, fun _ => rfl,
      fun _ => ?_, fun _ => ?_, fun _ => ?_⟩ trivial (fun _ => trivial) (fun _ _ => id) rfl rfl
      (fun _ => .inl) hi.faults
    · rw [hv (by decide)]
      exact hp.bar (by decide)
    · rw [ht (by decide), hd, ha, had (by decide)]
    · rw [hd]
      exact hh
  · obtain rfl := Option.some.inj he
    exact hi.probing hth err
  · obtain rfl := Option.some.inj he
    refine hi.go_off (m := s.mod) (u := .idle) ?_ hself trivial rfl rfl rfl
    rw [hth]
    exact List.not_mem_nil
  · split_ifs at he with hw
    obtain rfl := Option.some.inj he
    exact hi.removing hth (by simpa using hw)

/-- **A step** keeps the invariant. -/
theorem Inv.step (hi : Inv s) {e : Ev D} (he : step s e = some t) : Inv t := by
  rcases ha : e.async
  · have hself : ∀ d e, e ≠ d → Spares s.mod s.mod e := fun _ _ _ => ⟨fun _ _ => id, rfl⟩
    cases e with
    | irq | tick | callback => cases ha
    | main d err => exact hi.main he
    | probe d =>
      rcases hth : s.thread d <;> simp only [Rearm.step, hth, reduceCtorEq] at he
      obtain rfl := Option.some.inj he
      refine hi.go_off (m := s.mod) (u := .probing _ probe_code) ?_ (hself d) ⟨List.suffix_refl _,
        fun h => absurd h (by decide), fun h => absurd h (by decide), fun h => absurd h (by decide),
        fun h => absurd h (by decide)⟩ rfl rfl rfl
      rw [hth]
      exact id
    | remove d =>
      rcases hth : s.thread d <;> simp only [Rearm.step, hth, reduceCtorEq] at he
      obtain rfl := Option.some.inj he
      obtain ⟨v, t, hp⟩ : ∃ v t, Removing s.mod d (s.mod.drvdata d) v t remove_code := by
        have hp := hi.phase d
        rw [hth] at hp
        exact hp
      exact hi.go_on (m := s.mod) (u := .removing NULL remove_code) (hself d)
        ⟨v, t, hp.code, fun h => absurd h (by decide), hp.bar, hp.timer, hp.help⟩
        (by decide : Remove.free_irq ∈ remove_code)
        (fun _ => (by decide : Remove.del_timer_sync ∈ remove_code)) (fun _ _ => id) rfl rfl
        (fun _ => .inl) hi.faults
  · exact hi.async ha he

/-- Nothing of the card can run: a handler registered, a timer set, and a
callback that has been entered are another card's. -/
structure Silent {D : Type*} (s : State D) (d : D) : Prop where
  irq : ∀ x ∈ s.mod.irq, x.1 ≠ d
  armed : ∀ t ∈ s.mod.armed, ∃ e a, e ≠ d ∧ s.mod.heap.get t = some (e, .timer a)
  handler : ∀ p virt pc, .my_handler p virt pc ∈ s.running →
    ∃ e v t, e ≠ d ∧ s.mod.heap.get p = some (e, .help v t)
  tick : ∀ q p virt pc, .raise_intr q p virt pc ∈ s.running →
    ∃ e v, e ≠ d ∧ s.mod.heap.get p = some (e, .help v q)

/-- Nothing has been used that was not there, and nothing can run of a card
that is not bound and in no call. -/
structure Safe {D : Type*} (s : State D) : Prop where
  faults : s.mod.faults = []
  silent : ∀ d, s.thread d = .idle → Silent s d

omit [DecidableEq D] in
theorem Inv.safe (hi : Inv s) : Safe s where
  faults := hi.faults
  silent d hth := by
    have hoff : ∀ {e}, irqOn (s.thread e) → e ≠ d := by
      rintro e h rfl
      rw [hth] at h
      exact h
    refine ⟨fun x hx => hoff (hi.irq x hx).1, fun q hq => ?_, fun p virt pc hc => ?_,
      fun q p virt pc hc => ?_⟩
    · obtain ⟨e, hon, v, h⟩ := hi.armed q hq
      obtain ⟨hirq, ht⟩ := (hi.phase e).ticks hon
      exact ⟨e, _, hoff hirq, ht v q h⟩
    · obtain ⟨e, hon, rfl, -⟩ := hi.running _ hc
      obtain ⟨v, t, h, -⟩ := (hi.phase e).served hon
      exact ⟨e, v, t, hoff hon, h⟩
    · obtain ⟨e, hon, rfl, v, h, -⟩ := hi.running _ hc
      exact ⟨e, v, hoff ((hi.phase e).ticks hon).1, h⟩

/-- **Teardown of the timer and the interrupt**, in every state of every run. -/
theorem teardown (es : List (Ev D)) : Machine.Visits step Safe start es := by
  intro pre _ s hs
  refine (Machine.run_inv step Inv ?_ (fun _ _ _ hi he => hi.step he) hs).safe
  exact ⟨fun _ => trivial, fun x hx => (by cases hx), fun q hq => (by cases hq),
    fun c hc => (by cases hc), rfl⟩

end Invariant

/-- A card that is probed, ticks, raises an interrupt and is removed. -/
example : (Machine.run step start
    (.probe 0 :: List.replicate 14 (.main 0 0) ++ [.tick 0] ++ List.replicate 3 (.callback 0 0) ++
      [.irq 0] ++ List.replicate 4 (.callback 0 0x1000) ++ .remove 0 ::
      List.replicate 10 (.main 0 0) : List (Ev ℕ))).isSome = true := by decide

end Rearm
end Pb173
