/-
# What the calls of the DMA driver do (11/homework)

`my_probe` allocates four things, in order, and stores where they are. How
far it has come is a number, the `stage` of the statements left; `Frame`
says what the state is at each stage, from the state at the call, and every
statement moves to the next stage or leaves (`Frame.exec`). So a call that
succeeds leaves the last stage, and one that fails leaves the stage of the
statement that failed (`my_probe_spec`), with what was allocated on the way.
`my_remove` frees four things: the tasklet that `task` points to, and three
that it finds through the driver data (`my_remove_eq`).
-/
import Pb173.Dma
import Mathlib.Data.List.Infix
import Mathlib.Tactic.SplitIfs

namespace Pb173
namespace Dma

/-! ### Accesses to what is there -/

namespace Driver

variable {D : Type*} {m : Driver D} {d : D} {x : Obj} {a : Ptr} {h : Help}

theorem is_of_get (hx : m.heap.get a = some (d, x)) : m.Is x.kind a := by
  unfold Is
  rw [hx]
  rfl

theorem use_eq {k : Kind} (hk : m.Is k a) : m.use k a = m := if_pos hk

theorem help?_eq (hp : m.heap.get a = some (d, .help h)) : m.help? a = some h := by
  unfold help?
  rw [hp]

theorem setHelp_eq (hp : m.heap.get a = some (d, .help h)) (f : Help → Help) :
    m.setHelp a f = { m with heap := m.heap.set a (d, .help (f h)) } := by
  unfold setHelp
  rw [hp]

theorem writel_eq (hb : m.heap.get a = some (d, .bar)) (v : BitVec 32) (r : Reg) :
    m.writel v r a = { m with io := m.io ++ [(a, r, v)] } :=
  if_pos (is_of_get hb)

theorem release_eq (hx : m.heap.get a = some (d, x)) (pdev : D) :
    m.release pdev x.kind a = { m with
      heap := m.heap.free a, log := m.log ++ [.free pdev a] } :=
  if_pos (is_of_get hx)

end Driver

/-! ### The stages of `my_probe` -/

/-- The statements that begin a stage, in order. -/
def Probe.mark : Probe → Option ℕ
  | .printk => some 1
  | .kmalloc_task => some 2
  | .pci_ioremap_bar => some 3
  | .kmalloc_p => some 4
  | .dma_alloc_coherent => some 5
  | .setup_timer => some 6
  | .set_virt => some 7
  | .set_dma_virt => some 8
  | .pci_set_drvdata => some 9
  | .request_irq => some 10
  | .mod_timer => some 11
  | _ => none

/-- The stage that a statement needs that begins none. -/
def Probe.needs : Probe → ℕ
  | .strcpy | .writel _ _ | .wait | .show_page => 5
  | .set_dma_phys => 8
  | _ => 2

/-- The last stage it can be in. -/
def Probe.within : Probe → ℕ
  | .pci_enable_device | .pci_set_dma_mask | .pci_request_region => 2
  | .set_dma_phys => 8
  | _ => 11

/-- The stage reached, `rest` being left. -/
def stage (rest : List Probe) : ℕ := 11 - rest.countP fun st => st.mark.isSome

/-- A statement begins the next stage or stays in its own. -/
def inOrder : List Probe → Bool
  | [] => true
  | st :: rest =>
    match st.mark with
    | some k => stage (st :: rest) + 1 = k && stage rest = k
    | none => stage rest = stage (st :: rest) && st.needs ≤ stage rest && stage rest ≤ st.within

theorem code_inOrder : ∀ l ∈ probe_code.tails, inOrder l = true := by decide

theorem stage_of_mark {st : Probe} {rest : List Probe} {k : ℕ} (h : st :: rest <:+ probe_code)
    (hm : st.mark = some k) : stage (st :: rest) + 1 = k ∧ stage rest = k := by
  have ho := code_inOrder _ ((List.mem_tails _ _).mpr h)
  simp only [inOrder, hm] at ho
  simpa using ho

theorem stage_of_no_mark {st : Probe} {rest : List Probe} (h : st :: rest <:+ probe_code)
    (hm : st.mark = none) :
    stage rest = stage (st :: rest) ∧ st.needs ≤ stage rest ∧ stage rest ≤ st.within := by
  have ho := code_inOrder _ ((List.mem_tails _ _).mpr h)
  simp only [inOrder, hm] at ho
  simpa [and_assoc] using ho

/-- What is logged, up to the last stage, if the first allocation is at `n`. -/
def entries {D : Type*} (d : D) (n : Ptr) : List (Entry D) :=
  [.probe d, .alloc d .tasklet n, .alloc d .bar (n + 1), .alloc d .help (n + 2),
    .alloc d .page (n + 3)]

section Probe

variable {D : Type*} [DecidableEq D]

/-- The state at stage `k` of a call of `my_probe(d)` in the state `m₀`. -/
structure Frame (m₀ : Driver D) (d : D) (k : ℕ) (l : Locals) (m : Driver D) : Prop where
  log : m.log = m₀.log ++ (entries d m₀.heap.next).take (min k 5)
  next : m.heap.next = m₀.heap.next + (min k 5 - 1)
  old : ∀ a < m₀.heap.next, m.heap.get a = m₀.heap.get a
  tasklet : 2 ≤ k → m.heap.get m₀.heap.next = some (d, .tasklet (NULL, 0))
  bar : 3 ≤ k → m.heap.get (m₀.heap.next + 1) = some (d, .bar)
  help : 4 ≤ k → ∃ h, m.heap.get (m₀.heap.next + 2) = some (d, .help h) ∧
    (6 ≤ k → h.timer = m₀.heap.next + 2) ∧ (7 ≤ k → h.virt = m₀.heap.next + 1) ∧
    (8 ≤ k → h.dma_virt = m₀.heap.next + 3)
  page : 5 ≤ k → m.heap.get (m₀.heap.next + 3) = some (d, .page)
  task : m.task = if 2 ≤ k then m₀.heap.next else m₀.task
  virt : 3 ≤ k → l.virt = m₀.heap.next + 1
  p : 4 ≤ k → l.p = m₀.heap.next + 2
  dma : m.dma_virt_addr = if 5 ≤ k then m₀.heap.next + 3 else m₀.dma_virt_addr
  drvdata : m.drvdata =
    if 9 ≤ k then Function.update m₀.drvdata d (m₀.heap.next + 2) else m₀.drvdata
  irq : m.irq = if 10 ≤ k then m₀.irq ++ [(d, m₀.heap.next + 2)] else m₀.irq
  armed : m.armed = if 11 ≤ k then m₀.armed.insert (m₀.heap.next + 2) else m₀.armed
  queue : m.queue = m₀.queue
  faults : m.faults = m₀.faults

omit [DecidableEq D] in
theorem Frame.start [DecidableEq D] (m₀ : Driver D) (d : D) (l : Locals) : Frame m₀ d 0 l m₀ where
  log := by simp
  next := rfl
  old _ _ := rfl
  tasklet h := absurd h (by decide)
  bar h := absurd h (by decide)
  help h := absurd h (by decide)
  page h := absurd h (by decide)
  task := rfl
  virt h := absurd h (by decide)
  p h := absurd h (by decide)
  dma := rfl
  drvdata := rfl
  irq := rfl
  armed := rfl
  queue := rfl
  faults := rfl

/-- The statements that may fail. -/
def Probe.fallible : Probe → Bool
  | .kmalloc_task | .pci_enable_device | .pci_set_dma_mask | .pci_request_region
  | .pci_ioremap_bar | .kmalloc_p | .dma_alloc_coherent | .request_irq => true
  | _ => false

/-- The answer makes the statement leave `my_probe`. -/
def Probe.leaves (a : Answer) (st : Probe) : Bool := st.fallible && decide (a.err ≠ 0)

/-- The answer makes the statement wait on. -/
def Probe.waits (a : Answer) (st : Probe) : Bool := decide (st = .wait) && a.reg.getLsbD 0

/-- What a failed statement leaves behind. -/
def Probe.giveUp (m : Driver D) : Probe → Driver D
  | .kmalloc_task => { m with task := NULL }
  | .dma_alloc_coherent => { m with dma_virt_addr := NULL }
  | _ => m

theorem Probe.exec_flow (d : D) (a : Answer) (l : Locals) (m : Driver D) (st : Probe) :
    (∃ e, (st.exec d a l m).1 = .ret e ∧ e ≠ 0 ∧ st.leaves a = true ∧
        (st.exec d a l m).2.2 = st.giveUp m) ∨
      (st.exec d a l m).1 = .again ∧ st.leaves a = false ∧ st.waits a = true ∨
      (st.exec d a l m).1 = .next ∧ st.leaves a = false ∧ st.waits a = false := by
  cases st
  case wait =>
    by_cases hw : a.reg.getLsbD 0 = true
    · exact .inr (.inl ⟨if_pos hw, rfl, by simpa [Probe.waits] using hw⟩)
    · exact .inr (.inr ⟨if_neg hw, rfl, by simpa [Probe.waits] using hw⟩)
  all_goals
    by_cases he : a.err = 0
    · refine .inr (.inr ⟨?_, ?_, rfl⟩) <;>
        simp [Probe.exec, Probe.leaves, Probe.fallible, he]
    · first
        | exact .inr (.inr ⟨rfl, rfl, rfl⟩)
        | refine .inl ⟨_, by simp only [Probe.exec, ne_eq, he, not_false_eq_true, if_true]; rfl, ?_⟩
          simp [Probe.exec, Probe.leaves, Probe.fallible, Probe.giveUp, he, ENOMEM, EIO, EBUSY]

section Stages

variable {m₀ m : Driver D} {d : D} {k : ℕ} {l : Locals}

/-- The four allocations, which end the first five stages but one. -/
theorem Frame.alloc (hf : Frame m₀ d k l m) (h1 : 1 ≤ k) (h5 : k < 5) {x : Obj}
    (hx : (entries d m₀.heap.next)[k]? =
      some (.alloc d x.kind (m₀.heap.next + (k - 1)))) :
    (m.alloc d x).log = m₀.log ++ (entries d m₀.heap.next).take (min (k + 1) 5) ∧
      (m.alloc d x).heap.next = m₀.heap.next + (min (k + 1) 5 - 1) ∧
      (m.alloc d x).heap.get (m₀.heap.next + (k - 1)) = some (d, x) ∧
      ∀ a < m₀.heap.next + (k - 1), (m.alloc d x).heap.get a = m.heap.get a := by
  have hn : m.heap.next = m₀.heap.next + (k - 1) := by
    rw [hf.next, Nat.min_eq_left (by omega)]
  refine ⟨?_, ?_, ?_, fun a ha => ?_⟩
  · show m.log ++ [.alloc d x.kind m.heap.next] = _
    rw [hf.log, hn, Nat.min_eq_left (by omega), Nat.min_eq_left (by omega), List.take_add_one, hx,
      List.append_assoc]
    rfl
  · show m.heap.next + 1 = _
    rw [hn, Nat.min_eq_left (by omega)]
    omega
  · rw [← hn]
    exact m.heap.get_alloc_self
  · exact m.heap.get_alloc_of_ne (by omega)

/-- The stores to the help structure, between the fifth and the eighth stage. -/
theorem Frame.setHelp (hf : Frame m₀ d k l m) {k' : ℕ} (h5 : 5 ≤ k) (hk : k ≤ k') (h8 : k' ≤ 8)
    {f : Help → Help}
    (hh : ∀ h : Help, (6 ≤ k → h.timer = m₀.heap.next + 2) → (7 ≤ k → h.virt = m₀.heap.next + 1) →
      (8 ≤ k → h.dma_virt = m₀.heap.next + 3) →
      (6 ≤ k' → (f h).timer = m₀.heap.next + 2) ∧ (7 ≤ k' → (f h).virt = m₀.heap.next + 1) ∧
        (8 ≤ k' → (f h).dma_virt = m₀.heap.next + 3)) :
    Frame m₀ d k' l (m.setHelp l.p f) := by
  obtain ⟨h, hp, ht, hv, hg⟩ := hf.help (by omega)
  have hget : ∀ a, a ≠ m₀.heap.next + 2 →
      (m.heap.set (m₀.heap.next + 2) (d, .help (f h))).get a = m.heap.get a :=
    fun a ha => m.heap.get_set_of_ne ha
  rw [hf.p (by omega), Driver.setHelp_eq hp]
  constructor
  · show m.log = _
    rw [hf.log, Nat.min_eq_right h5, Nat.min_eq_right (h5.trans hk)]
  · show m.heap.next = _
    rw [hf.next, Nat.min_eq_right h5, Nat.min_eq_right (h5.trans hk)]
  · exact fun a ha => (hget a (by omega)).trans (hf.old a ha)
  · exact fun _ => (hget _ (by omega)).trans (hf.tasklet (by omega))
  · exact fun _ => (hget _ (by omega)).trans (hf.bar (by omega))
  · exact fun _ => ⟨f h, Heap.get_set_self hp, hh h ht hv hg⟩
  · exact fun _ => (hget _ (by omega)).trans (hf.page (by omega))
  · show m.task = _
    rw [hf.task, if_pos (by omega), if_pos (by omega)]
  · exact fun _ => hf.virt (by omega)
  · exact fun _ => hf.p (by omega)
  · show m.dma_virt_addr = _
    rw [hf.dma, if_pos h5, if_pos (by omega)]
  · show m.drvdata = _
    rw [hf.drvdata, if_neg (by omega), if_neg (by omega)]
  · show m.irq = _
    rw [hf.irq, if_neg (by omega), if_neg (by omega)]
  · show m.armed = _
    rw [hf.armed, if_neg (by omega), if_neg (by omega)]
  · exact hf.queue
  · exact hf.faults

/-- After the last store to the help structure only the driver data, the
handlers and the timers change. -/
theorem Frame.publish (hf : Frame m₀ d k l m) {k' : ℕ} (h8 : 8 ≤ k) (hk : k ≤ k')
    {drvdata : D → Ptr} {irq : List (D × Ptr)} {armed : List Ptr}
    (hd : drvdata = if 9 ≤ k' then Function.update m₀.drvdata d (m₀.heap.next + 2) else m₀.drvdata)
    (hi : irq = if 10 ≤ k' then m₀.irq ++ [(d, m₀.heap.next + 2)] else m₀.irq)
    (ha : armed = if 11 ≤ k' then m₀.armed.insert (m₀.heap.next + 2) else m₀.armed) :
    Frame m₀ d k' l { m with drvdata := drvdata, irq := irq, armed := armed } where
  log := by
    show m.log = _
    rw [hf.log, Nat.min_eq_right (by omega), Nat.min_eq_right (by omega)]
  next := by
    show m.heap.next = _
    rw [hf.next, Nat.min_eq_right (by omega), Nat.min_eq_right (by omega)]
  old := hf.old
  tasklet _ := hf.tasklet (by omega)
  bar _ := hf.bar (by omega)
  help _ := by
    obtain ⟨h, hp, ht, hv, hg⟩ := hf.help (by omega)
    exact ⟨h, hp, fun _ => ht (by omega), fun _ => hv (by omega), fun _ => hg h8⟩
  page _ := hf.page (by omega)
  task := by
    show m.task = _
    rw [hf.task, if_pos (by omega), if_pos (by omega)]
  virt _ := hf.virt (by omega)
  p _ := hf.p (by omega)
  dma := by
    show m.dma_virt_addr = _
    rw [hf.dma, if_pos (by omega), if_pos (by omega)]
  drvdata := hd
  irq := hi
  armed := ha
  queue := hf.queue
  faults := hf.faults

end Stages

/-- What a statement that may fail and does not leave was answered. -/
theorem Probe.answered {st : Probe} {a : Answer} (hl : st.leaves a = false)
    (hst : st.fallible = true) : ¬ a.err ≠ 0 := by
  intro he
  simp [Probe.leaves, hst, he] at hl

section Statement

variable {m₀ m : Driver D} {d : D} {l : Locals} {st : Probe} {k : ℕ} {a : Answer}

theorem Frame.exec_unmarked (hf : Frame m₀ d k l m) (hm : st.mark = none) (hn : st.needs ≤ k)
    (hw : k ≤ st.within) (hl : st.leaves a = false) :
    Frame m₀ d k (st.exec d a l m).2.1 (st.exec d a l m).2.2 := by
  cases st with
  | pci_enable_device | pci_set_dma_mask | pci_request_region =>
    rw [Probe.exec, if_neg (Probe.answered hl rfl)]
    exact { hf with }
  | pci_set_master => exact hf
  | writel w r =>
    have hb := hf.bar (Nat.le_trans (show 3 ≤ 5 by decide) hn)
    rw [← hf.virt (Nat.le_trans (show 3 ≤ 5 by decide) hn)] at hb
    show Frame _ _ _ _ (m.writel (w.val l) r l.virt)
    rw [Driver.writel_eq hb]
    exact { hf with }
  | wait =>
    have hb := hf.bar (Nat.le_trans (by decide) hn)
    rw [← hf.virt (Nat.le_trans (by decide) hn)] at hb
    have hu : m.use .bar l.virt = m := Driver.use_eq (Driver.is_of_get hb)
    exact (congrArg (Frame m₀ d _ l) hu).mpr hf
  | strcpy | show_page =>
    have h5 : 5 ≤ k := hn
    have hg := hf.page h5
    have hd := hf.dma
    rw [if_pos h5] at hd
    rw [← hd] at hg
    have hu : m.use .page m.dma_virt_addr = m := Driver.use_eq (Driver.is_of_get hg)
    exact (congrArg (Frame m₀ d _ l) hu).mpr hf
  | set_dma_phys =>
    exact hf.setHelp (Nat.le_trans (by decide) hn) le_rfl hw fun h ht hv hg => ⟨ht, hv, hg⟩
  | _ => cases hm

theorem Frame.exec_marked (hf : Frame m₀ d k l m) (hm : st.mark = some (k + 1))
    (hl : st.leaves a = false) :
    Frame m₀ d (k + 1) (st.exec d a l m).2.1 (st.exec d a l m).2.2 := by
  cases st with
  | printk =>
    cases hm
    refine { hf with
      log := ?_, tasklet := ?_, bar := ?_, help := ?_, page := ?_, virt := ?_, p := ?_ }
    · show m.log ++ [.probe d] = _
      rw [hf.log]
      simp [entries]
    all_goals exact fun h => absurd h (by decide)
  | kmalloc_task =>
    cases hm
    obtain ⟨hlog, hnext, hx, hold⟩ := hf.alloc (x := .tasklet (NULL, 0)) le_rfl (by decide) rfl
    rw [Probe.exec, if_neg (Probe.answered hl rfl)]
    refine { hf with
      log := hlog, next := hnext, tasklet := fun _ => hx, task := hf.next
      old := fun b hb => (hold b hb).trans (hf.old b hb)
      bar := ?_, help := ?_, page := ?_, virt := ?_, p := ?_ }
    all_goals exact fun h => absurd h (by decide)
  | pci_ioremap_bar =>
    cases hm
    obtain ⟨hlog, hnext, hx, hold⟩ := hf.alloc (x := .bar) (by decide) (by decide) rfl
    rw [Probe.exec, if_neg (Probe.answered hl rfl)]
    refine { hf with
      log := hlog, next := hnext, bar := fun _ => hx, virt := fun _ => hf.next
      old := fun b hb => (hold b (by omega)).trans (hf.old b hb)
      tasklet := fun _ => (hold _ (by omega)).trans (hf.tasklet le_rfl)
      help := ?_, page := ?_, p := ?_ }
    all_goals exact fun h => absurd h (by decide)
  | kmalloc_p =>
    cases hm
    obtain ⟨hlog, hnext, hx, hold⟩ :=
      hf.alloc (x := .help ⟨NULL, NULL, 0, NULL⟩) (by decide) (by decide) rfl
    rw [Probe.exec, if_neg (Probe.answered hl rfl)]
    refine { hf with
      log := hlog, next := hnext, virt := fun _ => hf.virt le_rfl, p := fun _ => hf.next
      old := fun b hb => (hold b (by omega)).trans (hf.old b hb)
      tasklet := fun _ => (hold _ (by omega)).trans (hf.tasklet (by decide))
      bar := fun _ => (hold _ (by omega)).trans (hf.bar le_rfl)
      help := fun _ => ⟨_, hx, ?_, ?_, ?_⟩
      page := ?_ }
    all_goals exact fun h => absurd h (by decide)
  | dma_alloc_coherent =>
    cases hm
    obtain ⟨hlog, hnext, hx, hold⟩ := hf.alloc (x := .page) (by decide) (by decide) rfl
    obtain ⟨h, hp, -⟩ := hf.help le_rfl
    rw [Probe.exec, if_neg (Probe.answered hl rfl)]
    refine { hf with
      log := hlog, next := hnext, page := fun _ => hx, dma := hf.next
      virt := fun _ => hf.virt (by decide), p := fun _ => hf.p le_rfl
      old := fun b hb => (hold b (by omega)).trans (hf.old b hb)
      tasklet := fun _ => (hold _ (by omega)).trans (hf.tasklet (by decide))
      bar := fun _ => (hold _ (by omega)).trans (hf.bar (by decide))
      help := fun _ => ⟨h, (hold _ (by omega)).trans hp, ?_, ?_, ?_⟩ }
    all_goals exact fun h => absurd h (by decide)
  | setup_timer =>
    cases hm
    have hp := hf.p (by decide)
    exact hf.setHelp le_rfl (by decide) (by decide) fun h _ _ _ =>
      ⟨fun _ => hp, fun h => absurd h (by decide), fun h => absurd h (by decide)⟩
  | set_virt =>
    cases hm
    have hv := hf.virt (by decide)
    exact hf.setHelp (by decide) (by decide) (by decide) fun h ht _ _ =>
      ⟨fun _ => ht le_rfl, fun _ => hv, fun h => absurd h (by decide)⟩
  | set_dma_virt =>
    cases hm
    have hg := hf.dma
    exact hf.setHelp (by decide) (by decide) le_rfl fun h ht hv _ =>
      ⟨fun _ => ht (by decide), fun _ => hv le_rfl, fun _ => hg⟩
  | pci_set_drvdata =>
    cases hm
    refine hf.publish le_rfl (by decide) ?_ hf.irq hf.armed
    rw [hf.p (by decide), show m.drvdata = m₀.drvdata from hf.drvdata]
    rfl
  | request_irq =>
    cases hm
    rw [Probe.exec, if_neg (Probe.answered hl rfl)]
    refine hf.publish (by decide) (by decide) hf.drvdata ?_ hf.armed
    rw [hf.p (by decide), show m.irq = m₀.irq from hf.irq]
    rfl
  | mod_timer =>
    cases hm
    obtain ⟨h, hp, -⟩ := hf.help (by decide)
    have hl := hf.p (by decide)
    have hu : m.use .help (m₀.heap.next + 2) = m := Driver.use_eq (Driver.is_of_get hp)
    have ha : m.armed = m₀.armed := hf.armed
    show Frame _ _ _ _ { m.use .help l.p with armed := (m.use .help l.p).armed.insert l.p }
    rw [hl, hu]
    refine hf.publish (by decide) (by decide) hf.drvdata hf.irq ?_
    rw [ha]
    rfl
  | _ => cases hm

end Statement

/-- A statement that does not leave brings the call to its next stage. -/
theorem Frame.exec {m₀ m : Driver D} {d : D} {l : Locals} {st : Probe} {rest : List Probe}
    (hs : st :: rest <:+ probe_code) (hf : Frame m₀ d (stage (st :: rest)) l m) {a : Answer}
    (hl : st.leaves a = false) :
    Frame m₀ d (stage rest) (st.exec d a l m).2.1 (st.exec d a l m).2.2 := by
  rcases hm : st.mark with _ | k
  · obtain ⟨hk, hn, hw⟩ := stage_of_no_mark hs hm
    rw [← hk] at hf
    exact hf.exec_unmarked hm hn hw hl
  · obtain ⟨h0, hk⟩ := stage_of_mark hs hm
    rw [← h0] at hm
    rw [hk, ← h0]
    exact hf.exec_marked hm hl

/-- The statement at which the answers make the call fail, if they do. -/
def stopAt : List Answer → List Probe → Option Probe
  | [], _ => none
  | _ :: _, [] => none
  | a :: as, st :: rest =>
    if st.leaves a then some st
    else if st.waits a then stopAt as (st :: rest)
    else stopAt as rest

theorem runProbe_spec {m₀ m' : Driver D} {d : D} {r : ℤ} : ∀ (as : List Answer) (rest : List Probe)
    (l : Locals) (m : Driver D), rest <:+ probe_code → Frame m₀ d (stage rest) l m →
    runProbe d as rest l m = some (r, m') →
    (stopAt as rest = none ∧ r = 0 ∧ ∃ l, Frame m₀ d 11 l m') ∨
      ∃ st rest' l m₁, stopAt as rest = some st ∧ st.fallible = true ∧
        st :: rest' <:+ probe_code ∧ r ≠ 0 ∧ Frame m₀ d (stage (st :: rest')) l m₁ ∧
        m' = st.giveUp m₁
  | [], [], l, m, _, hf, h => by
    obtain ⟨rfl, rfl⟩ := Prod.mk.inj (Option.some.inj h)
    exact .inl ⟨rfl, rfl, l, hf⟩
  | _ :: _, [], _, _, _, _, h => by cases h
  | [], _ :: _, _, _, _, _, h => by cases h
  | a :: as, st :: rest, l, m, hs, hf, h => by
    have hs' : rest <:+ probe_code := (List.suffix_cons st rest).trans hs
    rcases hx : st.exec d a l m with ⟨flow, l', m₁⟩
    have hflow := st.exec_flow d a l m
    rw [hx] at hflow
    rw [runProbe, hx] at h
    rcases hflow with ⟨e, hfl, he, hl, hm⟩ | ⟨hfl, hl, hw⟩ | ⟨hfl, hl, hw⟩ <;>
      simp only at hfl <;> subst hfl <;> simp only at h
    · split_ifs at h
      obtain ⟨rfl, rfl⟩ := Prod.mk.inj (Option.some.inj h)
      exact .inr ⟨st, rest, l, m, by simp [stopAt, hl], (Bool.and_eq_true_iff.mp hl).1, hs, he, hf, hm⟩
    · obtain rfl : st = .wait := of_decide_eq_true (Bool.and_eq_true_iff.mp hw).1
      have hnext := hf.exec hs hl
      rw [hx, (stage_of_no_mark hs rfl).1] at hnext
      have ih := runProbe_spec as (.wait :: rest) l' m₁ hs hnext h
      rwa [show stopAt as (.wait :: rest) = stopAt (a :: as) (.wait :: rest) by
        rw [stopAt, hl, hw]; rfl] at ih
    · have hnext := hf.exec hs hl
      rw [hx] at hnext
      have ih := runProbe_spec as rest l' m₁ hs' hnext h
      rwa [show stopAt as rest = stopAt (a :: as) (st :: rest) by
        rw [stopAt, hl, hw]; rfl] at ih

theorem stage_of_fallible {st : Probe} {rest : List Probe} (h : st :: rest <:+ probe_code)
    (hf : st.fallible = true) :
    st = .kmalloc_task ∧ stage (st :: rest) = 1 ∨ st = .request_irq ∧ stage (st :: rest) = 9 ∨
      (st ≠ .kmalloc_task ∧ st ≠ .request_irq) ∧ 2 ≤ stage (st :: rest) ∧
        stage (st :: rest) ≤ 4 := by
  rcases hm : st.mark with _ | k
  · obtain ⟨hk, hn, hw⟩ := stage_of_no_mark h hm
    cases st <;> cases hf <;> cases hm <;>
      exact .inr (.inr ⟨⟨by simp, by simp⟩, hk ▸ hn, Nat.le_trans (hk ▸ hw) (by decide)⟩)
  · obtain ⟨h0, -⟩ := stage_of_mark h hm
    cases st <;> cases hf <;> cases hm
    · exact .inl ⟨rfl, Nat.succ_injective h0⟩
    · exact .inr (.inr ⟨⟨by simp, by simp⟩, by omega, by omega⟩)
    · exact .inr (.inr ⟨⟨by simp, by simp⟩, by omega, by omega⟩)
    · exact .inr (.inr ⟨⟨by simp, by simp⟩, by omega, by omega⟩)
    · exact .inr (.inl ⟨rfl, Nat.succ_injective h0⟩)

/-- **A call of `my_probe`** reaches the last stage, or the stage at which its
answers make it fail. -/
theorem my_probe_spec {m₀ m' : Driver D} {d : D} {as : List Answer} {r : ℤ}
    (h : my_probe d as m₀ = some (r, m')) :
    (stopAt as probe_code = none ∧ r = 0 ∧ ∃ l, Frame m₀ d 11 l m') ∨
      ∃ st rest l m, stopAt as probe_code = some st ∧ st.fallible = true ∧
        st :: rest <:+ probe_code ∧ r ≠ 0 ∧ Frame m₀ d (stage (st :: rest)) l m ∧
        m' = st.giveUp m :=
  runProbe_spec as probe_code _ m₀ (List.suffix_refl _) (Frame.start m₀ d _) h

end Probe

/-! ### `my_remove` -/

section Remove

variable {D : Type*} [DecidableEq D] {m : Driver D} {d : D} {l : Held} {x : D} {h : Help}

theorem exec_tasklet_kill (hb : l.block = true) {o : D × Obj} (ht : m.heap.get m.task = some o)
    (hk : o.2.kind = .tasklet) : Remove.tasklet_kill.exec d l m =
      (l, { m with queue := m.queue.filter fun t => t ≠ m.task }) := by
  have hu : m.use .tasklet m.task = m := Driver.use_eq (hk ▸ Driver.is_of_get (d := o.1) ht)
  rw [Remove.exec, hb, if_pos rfl, Driver.tasklet_kill, hu]

theorem exec_kfree_task (hb : l.block = true) {o : D × Obj} (ht : m.heap.get m.task = some o)
    (hk : o.2.kind = .tasklet) : Remove.kfree_task.exec d l m =
      (l, { m with heap := m.heap.free m.task, log := m.log ++ [.free d m.task] }) := by
  have hr := Driver.release_eq (d := o.1) ht d
  rw [hk] at hr
  rw [Remove.exec, hb, if_pos rfl, hr]

theorem exec_del_timer_sync (hp : m.heap.get l.p = some (x, .help h)) :
    Remove.del_timer_sync.exec d l m =
      (l, { m with armed := m.armed.filter fun q => q ≠ l.p }) := by
  have hu : m.use .help l.p = m := Driver.use_eq (Driver.is_of_get hp)
  rw [Remove.exec, Driver.del_timer_sync, hu]

theorem exec_dma_free_coherent (hp : m.heap.get l.p = some (x, .help h)) {y : D}
    (hg : m.heap.get h.dma_virt = some (y, .page)) : Remove.dma_free_coherent.exec d l m =
      (l, { m with heap := m.heap.free h.dma_virt, log := m.log ++ [.free d h.dma_virt] }) := by
  rw [Remove.exec, Driver.help?_eq hp]
  exact congrArg _ (Driver.release_eq hg d)

theorem exec_iounmap (hp : m.heap.get l.p = some (x, .help h)) {y : D}
    (hv : m.heap.get h.virt = some (y, .bar)) : Remove.iounmap.exec d l m =
      (l, { m with heap := m.heap.free h.virt, log := m.log ++ [.free d h.virt] }) := by
  rw [Remove.exec, Driver.help?_eq hp]
  exact congrArg _ (Driver.release_eq hv d)

theorem exec_kfree_p (hp : m.heap.get l.p = some (x, .help h)) : Remove.kfree_p.exec d l m =
      (l, { m with heap := m.heap.free l.p, log := m.log ++ [.free d l.p] }) :=
  congrArg _ (Driver.release_eq hp d)

/-- What a call of `my_remove(d)` does, `h` being what the driver data points
to. -/
structure Removed (d : D) (h : Help) (m m' : Driver D) : Prop where
  get : ∀ a, m'.heap.get a =
    if a = m.task ∨ a = h.dma_virt ∨ a = h.virt ∨ a = m.drvdata d then none else m.heap.get a
  next : m'.heap.next = m.heap.next
  log : m'.log = m.log ++ (.remove d :: (if m.task = NULL then [] else [.free d m.task]) ++
    [.free d h.dma_virt, .free d h.virt, .free d (m.drvdata d)])
  task : m'.task = NULL
  dma : m'.dma_virt_addr = m.dma_virt_addr
  drvdata : m'.drvdata = m.drvdata
  irq : m'.irq = m.irq.filter fun x => x ≠ (d, m.drvdata d)
  armed : m'.armed = m.armed.filter fun q => q ≠ m.drvdata d
  faults : m'.faults = m.faults

theorem runRemove_cons {st : Remove} {rest : List Remove} {l' : Held} {m' m'' : Driver D}
    (he : st.exec d l m = (l', m')) (hr : runRemove d rest l' m' = m'') :
    runRemove d (st :: rest) l m = m'' := by
  rw [runRemove, he, hr]

/-- The statements after the block. -/
def tail_code : List Remove := remove_code.drop 5

theorem runRemove_tail {x y z : D} (b : Bool) (q : Ptr)
    (hp : m.heap.get (m.drvdata d) = some (x, .help h))
    (hv : m.heap.get h.virt = some (y, .bar)) (hg : m.heap.get h.dma_virt = some (z, .page)) :
    runRemove d tail_code ⟨b, q⟩ m = { m with
      heap := ((m.heap.free h.dma_virt).free h.virt).free (m.drvdata d)
      log := m.log ++ [.free d h.dma_virt] ++ [.free d h.virt] ++ [.free d (m.drvdata d)]
      enabled := Function.update m.enabled d (m.enabled d - 1)
      region := Function.update m.region d false
      irq := m.irq.filter fun x => x ≠ (d, m.drvdata d)
      armed := m.armed.filter fun q => q ≠ m.drvdata d } := by
  have hpg : m.drvdata d ≠ h.dma_virt := fun he => by rw [he, hg] at hp; cases hp
  have hpv : m.drvdata d ≠ h.virt := fun he => by rw [he, hv] at hp; cases hp
  have hvg : h.virt ≠ h.dma_virt := fun he => by rw [he, hg] at hv; cases hv
  have hp₂ := (Heap.get_free_eq_some (a := h.dma_virt)).mpr ⟨hpg, hp⟩
  have hp₃ := (Heap.get_free_eq_some (a := h.virt)).mpr ⟨hpv, hp₂⟩
  have hv₂ := (Heap.get_free_eq_some (a := h.dma_virt)).mpr ⟨hvg, hv⟩
  apply runRemove_cons
  · rfl
  apply runRemove_cons
  · exact exec_del_timer_sync hp
  apply runRemove_cons
  · rfl
  apply runRemove_cons
  · exact exec_dma_free_coherent hp hg
  apply runRemove_cons
  · exact exec_iounmap hp₂ hv₂
  apply runRemove_cons
  · rfl
  apply runRemove_cons
  · rfl
  apply runRemove_cons
  · exact exec_kfree_p hp₃
  rfl

/-- The block under `if (task)`: the tasklet is gone, and `task` is null. -/
theorem remove_block (d : D) (ht : m.task = NULL ∨
      ∃ o, m.heap.get m.task = some o ∧ o.2.kind = .tasklet) :
    ∃ b m', my_remove d m = runRemove d tail_code ⟨b, NULL⟩ m' ∧
      (∀ a, m'.heap.get a = if a = m.task then none else m.heap.get a) ∧
      m'.heap.next = m.heap.next ∧
      m'.log = m.log ++ (.remove d :: if m.task = NULL then [] else [.free d m.task]) ∧
      m'.task = NULL ∧ m'.dma_virt_addr = m.dma_virt_addr ∧ m'.drvdata = m.drvdata ∧
      m'.irq = m.irq ∧ m'.armed = m.armed ∧ m'.faults = m.faults := by
  rcases ht with ht | ⟨o, ht, hk⟩
  · have hif : Remove.if_task.exec d ⟨false, NULL⟩ (m.note (.remove d)) =
        (⟨false, NULL⟩, m.note (.remove d)) := by
      simp [Remove.exec, Driver.note, ht]
    refine ⟨false, m.note (.remove d), ?_, fun a => ?_, rfl, ?_, ht, rfl, rfl, rfl, rfl, rfl⟩
    · apply runRemove_cons
      · rfl
      apply runRemove_cons
      · exact hif
      rfl
    · split_ifs with ha
      · rw [ha, ht]
        exact m.heap.null
      · rfl
    · rw [if_pos ht]
      rfl
  · have hne : m.task ≠ NULL := Heap.ne_null ht
    have hif : Remove.if_task.exec d ⟨false, NULL⟩ (m.note (.remove d)) =
        (⟨true, NULL⟩, m.note (.remove d)) := by
      simp [Remove.exec, Driver.note, hne]
    refine ⟨true, { m with
      heap := m.heap.free m.task, log := m.log ++ [.remove d] ++ [.free d m.task], task := NULL
      queue := m.queue.filter fun t => t ≠ m.task }, ?_, ?_⟩
    · apply runRemove_cons
      · rfl
      apply runRemove_cons
      · exact hif
      apply runRemove_cons
      · exact exec_tasklet_kill rfl ht hk
      apply runRemove_cons
      · exact exec_kfree_task rfl ht hk
      rfl
    · refine ⟨fun a => rfl, rfl, ?_, rfl, rfl, rfl, rfl, rfl, rfl⟩
      rw [if_neg hne]
      exact List.append_assoc _ _ _

/-- **A call of `my_remove`**, where `task` is null or points to a tasklet and
the driver data to a help structure whose mapping and page are there. -/
theorem my_remove_spec {x y z : D} (hp : m.heap.get (m.drvdata d) = some (x, .help h))
    (hv : m.heap.get h.virt = some (y, .bar)) (hg : m.heap.get h.dma_virt = some (z, .page))
    (ht : m.task = NULL ∨ ∃ o, m.heap.get m.task = some o ∧ o.2.kind = .tasklet) :
    Removed d h m (my_remove d m) := by
  obtain ⟨b, m₁, hblock, hget, hnext, hlog, htask, hdma, hdrv, hirq, harmed, hfaults⟩ :=
    remove_block d ht
  have hkeep : ∀ {a : Ptr} {o : D × Obj}, m.heap.get a = some o → o.2.kind ≠ .tasklet →
      m₁.heap.get a = some o := by
    intro a o ha hk
    rw [hget, if_neg, ha]
    rintro rfl
    rcases ht with ht | ⟨o', ht, hk'⟩
    · exact Heap.ne_null ha ht
    · obtain rfl := Option.some.inj (ha.symm.trans ht)
      exact hk hk'
  have hp₁ := hkeep hp (by simp [Obj.kind])
  rw [← hdrv] at hp₁
  rw [hblock, runRemove_tail b NULL hp₁ (hkeep hv (by simp [Obj.kind]))
    (hkeep hg (by simp [Obj.kind]))]
  refine ⟨fun a => ?_, hnext, ?_, htask, hdma, hdrv, ?_, ?_, hfaults⟩
  · show (if a = m₁.drvdata d then none else if a = h.virt then none
      else if a = h.dma_virt then none else m₁.heap.get a) = _
    rw [hdrv, hget]
    grind
  · show m₁.log ++ _ ++ _ ++ _ = _
    rw [hlog, hdrv]
    simp
  · show m₁.irq.filter _ = _
    rw [hirq, hdrv]
  · show m₁.armed.filter _ = _
    rw [harmed, hdrv]

/-- What another card was given survives, its tasklet aside. -/
theorem Removed.survives {m' : Driver D} (hr : Removed d h m m')
    (hp : m.heap.get (m.drvdata d) = some (d, .help h)) (hv : m.heap.get h.virt = some (d, .bar))
    (hg : m.heap.get h.dma_virt = some (d, .page))
    (ht : m.task = NULL ∨ ∃ o, m.heap.get m.task = some o ∧ o.2.kind = .tasklet)
    {a : Ptr} {e : D} {x : Obj} (ha : m.heap.get a = some (e, x)) (he : e ≠ d)
    (hx : x.kind ≠ .tasklet) : m'.heap.get a = some (e, x) := by
  rw [hr.get, if_neg, ha]
  rintro (rfl | rfl | rfl | rfl)
  · rcases ht with ht | ⟨o, ht, hk⟩
    · exact Heap.ne_null ha ht
    · obtain rfl := Option.some.inj (ha.symm.trans ht)
      exact hx hk
  · exact he (Prod.mk.inj (Option.some.inj (ha.symm.trans hg))).1
  · exact he (Prod.mk.inj (Option.some.inj (ha.symm.trans hv))).1
  · exact he (Prod.mk.inj (Option.some.inj (ha.symm.trans hp))).1

theorem Removed.get_of_some {m' : Driver D} (hr : Removed d h m m') {a : Ptr} {o : D × Obj}
    (ha : m'.heap.get a = some o) : m.heap.get a = some o := by
  rw [hr.get] at ha
  split_ifs at ha
  exact ha

end Remove

end Dma
end Pb173
