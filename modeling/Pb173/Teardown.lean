/-
# Taking the driver down (11/homework)

One card at a time, and every statement of `my_probe` and `my_remove` is a
step of its own. In between run the callbacks: `my_handler` while it is
registered, `raise_intr` when the timer is set, `tasklet_fn` when its tasklet
is scheduled, any number of them, step by step. `del_timer_sync`, `free_irq`
and `tasklet_kill` wait for the callback and take back what is pending.

`my_remove` frees the tasklet before it stops the interrupts. Nothing is used
after it is freed in the runs where the tasklet is idle when it is freed and
no handler reaches for it afterwards (`faultless_of_calm`); a handler that
does faults at once (`fault_of_freed`).
-/
import Pb173.Calls
import Pb173.Machine

namespace Pb173
namespace Teardown

open Dma

/-- What the driver core is doing with its one card. -/
inductive Thread (D : Type*)
  | idle
  | probing (pdev : D) (l : Locals) (rest : List Probe)
  | bound (pdev : D)
  | removing (pdev : D) (l : Held) (rest : List Remove)

/-- A callback that has been entered. -/
inductive Callback
  | my_handler (p virt : Ptr) (pc : Handler)
  | raise_intr (timer p virt : Ptr) (pc : Tick)
  | tasklet_fn (t : Ptr) (data : Ptr × ℕ)
deriving DecidableEq

structure State (D : Type*) where
  mod : Driver D
  thread : Thread D
  running : List Callback

def start {D : Type*} : State D := ⟨loaded, .idle, []⟩

/-- The core starts a call or goes on with it, a callback is entered, or one
goes on; `v` is what it reads if it reads a register. -/
inductive Ev (D : Type*)
  | probe (pdev : D)
  | remove
  | main (a : Answer)
  | irq (i : ℕ)
  | tick (i : ℕ)
  | softirq (i : ℕ)
  | callback (i : ℕ) (v : BitVec 32)

/-- It runs the tasklet `t`. -/
def Callback.runs (t : Ptr) : Callback → Bool
  | .tasklet_fn u _ => u = t
  | _ => false

/-- A statement waits for a callback to return. -/
def waits {D : Type*} (s : State D) (l : Held) : Remove → Bool
  | .tasklet_kill => l.block && s.running.any (Callback.runs s.mod.task)
  | .del_timer_sync => s.running.any fun
    | .raise_intr timer _ _ _ => timer = l.p
    | _ => false
  | .free_irq => s.running.any fun
    | .my_handler p _ _ => p = l.p
    | _ => false
  | _ => false

section Step

variable {D : Type*} [DecidableEq D]

/-- A step of the call that the core is in. -/
def mainStep (s : State D) (a : Answer) : Option (State D) :=
  match s.thread with
  | .probing pdev _ [] => some { s with thread := .bound pdev }
  | .probing pdev l (st :: rest) =>
    match st.exec pdev a l s.mod with
    | (.next, l, m) => some { s with mod := m, thread := .probing pdev l rest }
    | (.again, l, m) => some { s with mod := m, thread := .probing pdev l (st :: rest) }
    | (.ret _, _, m) => some { s with mod := m, thread := .idle }
  | .removing _ _ [] => some { s with thread := .idle }
  | .removing pdev l (st :: rest) =>
    if waits s l st then none
    else some { s with
      mod := (st.exec pdev l s.mod).2, thread := .removing pdev (st.exec pdev l s.mod).1 rest }
  | _ => none

omit [DecidableEq D] in
/-- A step of the `i`-th callback. -/
def callbackStep (s : State D) (i : ℕ) (v : BitVec 32) : Option (State D) :=
  match s.running[i]? with
  | none => none
  | some (.my_handler p virt pc) =>
    let r := s.mod.handler p virt pc.act
    some { s with mod := r.2, running := match pc.next v with
      | some pc' => s.running.set i (.my_handler p r.1 pc')
      | none => s.running.eraseIdx i }
  | some (.raise_intr timer p virt pc) =>
    let r := s.mod.raise_intr p virt pc
    some { s with mod := r.1.2, running := match r.2 with
      | some pc' => s.running.set i (.raise_intr timer p r.1.1 pc')
      | none => s.running.eraseIdx i }
  | some (.tasklet_fn _ data) =>
    some { s with mod := s.mod.tasklet_fn data, running := s.running.eraseIdx i }

/-- A timer or a tasklet is entered with the argument that is found where it
lies. -/
def step (s : State D) : Ev D → Option (State D)
  | .probe pdev =>
    match s.thread with
    | .idle => some { s with thread := .probing pdev ⟨NULL, NULL, 0⟩ probe_code }
    | _ => none
  | .remove =>
    match s.thread with
    | .bound pdev => some { s with thread := .removing pdev ⟨false, NULL⟩ remove_code }
    | _ => none
  | .main a => mainStep s a
  | .irq i =>
    match s.mod.irq[i]? with
    | none => none
    | some (_, p) => some { s with running := s.running ++ [.my_handler p NULL .virt] }
  | .tick i =>
    match s.mod.armed[i]? with
    | none => none
    | some timer =>
      let m := { s.mod with armed := s.mod.armed.eraseIdx i }
      match m.help? timer with
      | none => some { s with mod := m.fault (.dead .help) }
      | some h =>
        some { s with mod := m, running := s.running ++ [.raise_intr timer h.timer NULL .virt] }
  | .softirq i =>
    match s.mod.queue[i]? with
    | none => none
    | some t =>
      let m := { s.mod with queue := s.mod.queue.eraseIdx i }
      match m.heap.get t with
      | some (_, .tasklet data) =>
        some { s with mod := m, running := s.running ++ [.tasklet_fn t data] }
      | _ => some { s with mod := m.fault (.dead .tasklet) }
  | .callback i v => callbackStep s i v

end Step

/-- The handler is about to use `task`. -/
def Handler.usesTask : Handler → Bool
  | .init | .schedule => true
  | _ => false

/-- `my_remove` has freed the tasklet, and has not yet freed the interrupt. -/
def Freed {D : Type*} : Thread D → Bool
  | .removing _ _ rest => decide (Remove.kfree_task ∉ rest ∧ Remove.free_irq ∈ rest)
  | _ => false

/-- The tasklet is neither scheduled nor running when it is freed, and no
handler uses it between that and `free_irq`. -/
def Calm {D : Type*} (s : State D) : Ev D → Prop
  | .callback i _ =>
    match s.running[i]? with
    | some (.my_handler _ _ pc) => Handler.usesTask pc = true → Freed s.thread = false
    | _ => True
  | .main _ =>
    match s.thread with
    | .removing _ _ rest => rest.head? = some .kfree_task →
      s.mod.task ∉ s.mod.queue ∧ s.running.any (Callback.runs s.mod.task) = false
    | _ => True
  | _ => True

instance decidableCalm {D : Type*} (s : State D) : ∀ e, Decidable (Calm s e)
  | .callback i _ =>
    show Decidable (match s.running[i]? with
      | some (.my_handler _ _ pc) => Handler.usesTask pc = true → Freed s.thread = false
      | _ => True) from
    match s.running[i]? with
    | some (.my_handler _ _ pc) =>
      inferInstanceAs (Decidable (Handler.usesTask pc = true → Freed s.thread = false))
    | some (.raise_intr _ _ _ _) | some (.tasklet_fn _ _) | none => isTrue trivial
  | .main _ =>
    show Decidable (match s.thread with
      | .removing _ _ rest => rest.head? = some .kfree_task →
        s.mod.task ∉ s.mod.queue ∧ s.running.any (Callback.runs s.mod.task) = false
      | _ => True) from
    match s.thread with
    | .removing _ _ rest => inferInstanceAs (Decidable (rest.head? = some .kfree_task → _))
    | .idle | .probing _ _ _ | .bound _ => isTrue trivial
  | .probe _ | .remove | .irq _ | .tick _ | .softirq _ => isTrue trivial

/-! ### What the callbacks rely on -/

/-- The tasklet at `t` prints what is on the page of `h`. -/
def Primed {D : Type*} (m : Driver D) (h : Help) (t : Ptr) : Prop :=
  ∃ x, m.heap.get t = some (x, .tasklet (h.dma_virt, 0x14))

/-- The help structure has been filled in, and what it points to is there. The
tasklet is there as long as `soft`, and the timer may be set as long as `timer`. -/
structure Serves {D : Type*} (m : Driver D) (d : D) (h : Help) (timer soft : Prop) : Prop where
  drvdata : m.drvdata d = h.timer
  help : m.heap.get h.timer = some (d, .help h)
  bar : m.heap.get h.virt = some (d, .bar)
  page : m.heap.get h.dma_virt = some (d, .page)
  tasklet : m.Is .tasklet m.task ↔ soft
  irq : ∀ x ∈ m.irq, x = (d, h.timer)
  armed : ∀ t ∈ m.armed, timer ∧ t = h.timer
  queue : ∀ t ∈ m.queue, soft ∧ t = m.task ∧ Primed m h t
  faults : m.faults = []

/-- A callback that has been entered holds no pointers but those. -/
def Good {D : Type*} (m : Driver D) (h : Help) (timer soft : Prop) : Callback → Prop
  | .my_handler p virt pc =>
    p = h.timer ∧ (pc ≠ .virt → virt = h.virt) ∧ (pc = .schedule → soft → Primed m h m.task)
  | .raise_intr t p virt pc => timer ∧ t = h.timer ∧ p = h.timer ∧ (pc ≠ .virt → virt = h.virt)
  | .tasklet_fn t data => soft ∧ t = m.task ∧ data.1 = h.dma_virt

section Callbacks

variable {D : Type*} {m : Driver D} {d : D} {h : Help} {timer soft : Prop}

/-- It may go on in `m'`, and so may the callbacks that have been entered. -/
structure Keeps (m m' : Driver D) (d : D) (h : Help) (timer soft : Prop) : Prop where
  serves : Serves m' d h timer soft
  task : m'.task = m.task
  primed : Primed m h m.task → Primed m' h m.task

theorem Keeps.good {m' : Driver D} (hk : Keeps m m' d h timer soft) {c : Callback}
    (hc : Good m h timer soft c) : Good m' h timer soft c := by
  rcases c with ⟨p, virt, pc⟩ | _ | ⟨t, data⟩
  · obtain ⟨h1, h2, h3⟩ := hc
    refine ⟨h1, h2, fun hpc hsoft => ?_⟩
    rw [hk.task]
    exact hk.primed (h3 hpc hsoft)
  · exact hc
  · obtain ⟨h1, h2, h3⟩ := hc
    exact ⟨h1, h2.trans hk.task.symm, h3⟩

theorem Serves.keeps (hs : Serves m d h timer soft) : Keeps m m d h timer soft := ⟨hs, rfl, id⟩

theorem Serves.writel (hs : Serves m d h timer soft) (v : BitVec 32) (r : Reg) :
    Keeps m (m.writel v r h.virt) d h timer soft := by
  rw [Driver.writel_eq hs.bar]
  exact ⟨{ hs with }, rfl, id⟩

theorem Serves.use_bar (hs : Serves m d h timer soft) : m.use .bar h.virt = m :=
  Driver.use_eq (Driver.is_of_get hs.bar)

theorem Serves.get_task (hs : Serves m d h timer soft) (hsoft : soft) :
    ∃ x data, m.heap.get m.task = some (x, .tasklet data) := by
  have ht := hs.tasklet.mpr hsoft
  unfold Driver.Is at ht
  rcases hg : m.heap.get m.task with _ | ⟨x, o⟩ <;> rw [hg] at ht
  · cases ht
  · cases o <;> first | exact ⟨_, _, rfl⟩ | cases ht

theorem Serves.tasklet_init (hs : Serves m d h timer soft) (hsoft : soft) :
    Keeps m (m.tasklet_init m.task (h.dma_virt, 0x14)) d h timer soft ∧
      Primed (m.tasklet_init m.task (h.dma_virt, 0x14)) h m.task := by
  obtain ⟨x, data, ht⟩ := hs.get_task hsoft
  have heq : m.tasklet_init m.task (h.dma_virt, 0x14) =
      { m with heap := m.heap.set m.task (x, .tasklet (h.dma_virt, 0x14)) } := by
    unfold Driver.tasklet_init
    rw [ht]
  have hself := Heap.get_set_self (x := (x, Obj.tasklet (h.dma_virt, 0x14))) ht
  have hother : ∀ {a : Ptr} {o : Obj}, m.heap.get a = some (d, o) → o.kind ≠ .tasklet →
      (m.heap.set m.task (x, .tasklet (h.dma_virt, 0x14))).get a = some (d, o) := by
    intro a o ha hk
    apply Heap.get_set_other _ ha ht
    intro h
    exact hk (congrArg (fun c => c.2.kind) h)
  rw [heq]
  refine ⟨⟨{ hs with
    help := hother hs.help (by simp [Obj.kind]), bar := hother hs.bar (by simp [Obj.kind])
    page := hother hs.page (by simp [Obj.kind]), tasklet := ?_, queue := ?_ }, rfl,
    fun _ => ⟨x, hself⟩⟩, x, hself⟩
  · exact ⟨fun _ => hsoft, fun _ => Driver.is_of_get (x := .tasklet _) hself⟩
  · intro t ht
    obtain ⟨-, rfl, -⟩ := hs.queue t ht
    exact ⟨hsoft, rfl, x, hself⟩

theorem Handler.next_schedule {pc : Handler} {v : BitVec 32} (hn : pc.next v = some .schedule) :
    pc = .init := by
  cases pc <;> simp only [Handler.next, Option.some.injEq, reduceCtorEq] at hn
  case init => rfl
  all_goals split_ifs at hn

theorem Serves.handler (hs : Serves m d h timer soft) {p virt : Ptr} {pc : Handler}
    (hg : Good m h timer soft (.my_handler p virt pc)) (hu : Handler.usesTask pc = true → soft) :
    (m.handler p virt pc.act).1 = h.virt ∧ Keeps m (m.handler p virt pc.act).2 d h timer soft ∧
      (pc = .init → Primed (m.handler p virt pc.act).2 h m.task) := by
  obtain ⟨rfl, hvirt, hprimed⟩ := hg
  have hp := Driver.help?_eq hs.help
  by_cases hpc : pc = .virt
  · subst hpc
    simp only [Handler.act, Driver.handler, hp]
    exact ⟨trivial, hs.keeps, fun h => by cases h⟩
  obtain rfl := hvirt hpc
  cases pc with
  | virt => exact absurd rfl hpc
  | raised | cmd =>
    simp only [Handler.act, Driver.handler, hs.use_bar]
    exact ⟨trivial, hs.keeps, fun h => by cases h⟩
  | ack | ackint => exact ⟨rfl, hs.writel _ _, fun h => by cases h⟩
  | init =>
    simp only [Handler.act, Driver.handler, hp]
    obtain ⟨hk, hprime⟩ := hs.tasklet_init (hu rfl)
    exact ⟨trivial, hk, fun _ => hprime⟩
  | schedule =>
    have hsoft := hu rfl
    simp only [Handler.act, Driver.handler, Driver.tasklet_schedule, if_pos (hs.tasklet.mpr hsoft)]
    refine ⟨trivial, ⟨{ hs with queue := fun t ht => ?_ }, rfl, id⟩, fun h => by cases h⟩
    rcases List.mem_append.mp ht with ht | ht
    · exact hs.queue t ht
    · rw [List.mem_singleton.mp ht]
      exact ⟨hsoft, rfl, hprimed rfl hsoft⟩
  | ret r => exact ⟨rfl, hs.keeps, fun h => by cases h⟩

theorem Serves.mod_timer (hs : Serves m d h timer soft) :
    Keeps m (m.mod_timer h.timer) d h True soft := by
  have hu : m.use .help h.timer = m := Driver.use_eq (Driver.is_of_get hs.help)
  rw [Driver.mod_timer, hu]
  refine ⟨{ hs with armed := fun q hq => ?_ }, rfl, id⟩
  rcases List.mem_insert_iff.mp hq with rfl | hq
  · exact ⟨trivial, rfl⟩
  · exact ⟨trivial, (hs.armed q hq).2⟩

theorem Serves.raise_intr (hs : Serves m d h timer soft) {t p virt : Ptr} {pc : Tick}
    (hg : Good m h timer soft (.raise_intr t p virt pc)) :
    (m.raise_intr p virt pc).1.1 = h.virt ∧
      Keeps m (m.raise_intr p virt pc).1.2 d h timer soft := by
  obtain ⟨htimer, rfl, rfl, hvirt⟩ := hg
  cases pc with
  | virt =>
    simp only [Driver.raise_intr, Driver.help?_eq hs.help]
    exact ⟨trivial, hs.keeps⟩
  | raise =>
    obtain rfl := hvirt (by simp)
    exact ⟨rfl, hs.writel _ _⟩
  | mod_timer =>
    have hk := hs.mod_timer
    rw [← eq_true htimer] at hk
    exact ⟨hvirt (by simp), hk⟩

theorem Serves.tasklet_fn (hs : Serves m d h timer soft) {t : Ptr} {data : Ptr × ℕ}
    (hg : Good m h timer soft (.tasklet_fn t data)) : m.tasklet_fn data = m := by
  obtain ⟨-, -, hdata⟩ := hg
  have hp := hs.page
  rw [← hdata] at hp
  exact Driver.use_eq (Driver.is_of_get hp)

end Callbacks

/-! ### The invariant -/

section Invariant

variable {D : Type*} [DecidableEq D]

/-- The device is served, and so are the callbacks that have been entered. -/
structure Active (s : State D) (d : D) (h : Help) (timer soft : Prop) : Prop where
  serves : Serves s.mod d h timer soft
  running : ∀ c ∈ s.running, Good s.mod h timer soft c

/-- Nothing can run but the core. -/
structure Quiet (s : State D) : Prop where
  irq : s.mod.irq = []
  armed : s.mod.armed = []
  queue : s.mod.queue = []
  faults : s.mod.faults = []
  running : s.running = []

/-- What `my_remove` still has to free, after `free_irq`. -/
structure Left (m : Driver D) (d : D) (h : Help) (rest : List Remove) : Prop where
  help : .kfree_p ∈ rest → m.heap.get h.timer = some (d, .help h)
  bar : .iounmap ∈ rest → m.heap.get h.virt = some (d, .bar)
  page : .dma_free_coherent ∈ rest → m.heap.get h.dma_virt = some (d, .page)

/-- In `my_probe`, with `rest` to be executed. -/
structure Probing (s : State D) (d : D) (l : Locals) (rest : List Probe) : Prop where
  code : rest <:+ probe_code
  before : .request_irq ∈ rest → Quiet s ∧ ∃ m₀, Frame m₀ d (stage rest) l s.mod
  after : .request_irq ∉ rest →
    ∃ h, Active s d h (.mod_timer ∉ rest) True ∧ l.virt = h.virt ∧ l.p = h.timer

/-- In `my_remove`, with `rest` to be executed. -/
structure Removing (s : State D) (d : D) (l : Held) (h : Help) (rest : List Remove) : Prop where
  code : rest <:+ remove_code
  block : .if_task ∉ rest → .kfree_task ∈ rest → l.block = true
  p : .pci_get_drvdata ∉ rest → l.p = h.timer
  before : .free_irq ∈ rest → Active s d h (.del_timer_sync ∈ rest) (.kfree_task ∈ rest)
  after : .free_irq ∉ rest → Quiet s ∧ Left s.mod d h rest

/-- The driver is quiet until `request_irq` and from `free_irq` on. In between
the device is served, with a timer from `mod_timer` to `del_timer_sync`, and
with a tasklet until `my_remove` frees it. -/
def Inv (s : State D) : Prop :=
  match s.thread with
  | .idle => Quiet s
  | .probing d l rest => Probing s d l rest
  | .bound d => ∃ h, Active s d h True True
  | .removing d l rest => ∃ h, Removing s d l h rest

/-! ### The callbacks keep it -/

/-- An event of a callback. -/
def Ev.async : Ev D → Bool
  | .irq _ | .tick _ | .softirq _ | .callback _ _ => true
  | _ => false

theorem Quiet.not_async {s t : State D} (hq : Quiet s) {e : Ev D} (ha : e.async = true) :
    step s e ≠ some t := by
  intro he
  cases e with
  | probe | remove | main => cases ha
  | irq i => simp [step, hq.irq] at he
  | tick i => simp [step, hq.armed] at he
  | softirq i => simp [step, hq.queue] at he
  | callback i v => simp [step, callbackStep, hq.running] at he

section Async

variable {s t : State D} {d : D} {h : Help} {timer soft : Prop}

omit [DecidableEq D] in
theorem Active.faults (ha : Active s d h timer soft) : s.mod.faults = [] := ha.serves.faults

omit [DecidableEq D] in
theorem Active.keep (ha : Active s d h timer soft) {m : Driver D} {running : List Callback}
    (hk : Keeps s.mod m d h timer soft)
    (hr : ∀ c ∈ running, c ∈ s.running ∨ Good m h timer soft c) :
    Active { s with mod := m, running := running } d h timer soft := by
  refine ⟨hk.serves, fun c hc => ?_⟩
  rcases hr c hc with hc | hc
  · exact hk.good (ha.running c hc)
  · exact hc

omit [DecidableEq D] in
theorem Active.enter (ha : Active s d h timer soft) {m : Driver D} {c : Callback}
    (hk : Keeps s.mod m d h timer soft) (hc : Good m h timer soft c) :
    Active { s with mod := m, running := s.running ++ [c] } d h timer soft := by
  refine ha.keep hk fun c' hc' => ?_
  rcases List.mem_append.mp hc' with hc' | hc'
  · exact .inl hc'
  · exact .inr (List.mem_singleton.mp hc' ▸ hc)

theorem Active.callback (ha : Active s d h timer soft) (hf : Freed s.thread = false → soft) {i : ℕ}
    {v : BitVec 32} (hc : Calm s (.callback i v)) (he : step s (.callback i v) = some t) :
    t.thread = s.thread ∧ Active t d h timer soft := by
  simp only [step, callbackStep] at he
  rcases hi : s.running[i]? with _ | c <;> rw [hi] at he
  · cases he
  have hgood := ha.running c (List.mem_of_getElem? hi)
  rcases c with ⟨p, virt, pc⟩ | ⟨q, p, virt, pc⟩ | ⟨q, data⟩
  · have hu : Handler.usesTask pc = true → soft := by
      intro hu
      simp only [Calm, hi] at hc
      exact hf (hc hu)
    obtain ⟨hvirt, hk, hprime⟩ := ha.serves.handler hgood hu
    obtain rfl := Option.some.inj he
    refine ⟨rfl, ha.keep hk fun c hc => ?_⟩
    rcases hn : pc.next v with _ | pc' <;> rw [hn] at hc
    · exact .inl (List.mem_of_mem_eraseIdx hc)
    rcases List.mem_or_eq_of_mem_set hc with hc | rfl
    · exact .inl hc
    refine .inr ⟨hgood.1, fun _ => hvirt, ?_⟩
    rintro rfl -
    rw [hk.task]
    exact hprime (Handler.next_schedule hn)
  · obtain ⟨hvirt, hk⟩ := ha.serves.raise_intr hgood
    obtain rfl := Option.some.inj he
    obtain ⟨htimer, hq, hp, -⟩ := hgood
    refine ⟨rfl, ha.keep hk fun c hc => ?_⟩
    rcases hn : (s.mod.raise_intr p virt pc).2 with _ | pc' <;> rw [hn] at hc
    · exact .inl (List.mem_of_mem_eraseIdx hc)
    rcases List.mem_or_eq_of_mem_set hc with hc | rfl
    · exact .inl hc
    · exact .inr ⟨htimer, hq, hp, fun _ => hvirt⟩
  · obtain rfl := Option.some.inj he
    rw [ha.serves.tasklet_fn hgood]
    exact ⟨rfl, ha.keep ha.serves.keeps fun c hc => .inl (List.mem_of_mem_eraseIdx hc)⟩

theorem Active.async (ha : Active s d h timer soft) (hf : Freed s.thread = false → soft) {e : Ev D}
    (hc : Calm s e) (hasync : e.async = true) (he : step s e = some t) :
    t.thread = s.thread ∧ Active t d h timer soft := by
  cases e with
  | probe | remove | main => cases hasync
  | irq i =>
    simp only [step] at he
    rcases hi : s.mod.irq[i]? with _ | ⟨x, p⟩ <;> rw [hi] at he
    · cases he
    · obtain rfl := Option.some.inj he
      have hp := ha.serves.irq _ (List.mem_of_getElem? hi)
      exact ⟨rfl, ha.enter ha.serves.keeps ⟨(Prod.mk.inj hp).2, fun hv => absurd rfl hv,
        fun hv => by cases hv⟩⟩
  | tick i =>
    simp only [step] at he
    rcases hi : s.mod.armed[i]? with _ | q <;> rw [hi] at he
    · cases he
    · obtain ⟨htimer, rfl⟩ := ha.serves.armed _ (List.mem_of_getElem? hi)
      have hh := Driver.help?_eq (m := { s.mod with armed := s.mod.armed.eraseIdx i }) ha.serves.help
      simp only [hh] at he
      obtain rfl := Option.some.inj he
      have hk : Keeps s.mod { s.mod with armed := s.mod.armed.eraseIdx i } d h timer soft :=
        ⟨{ ha.serves with
          armed := fun q hq => ha.serves.armed q (List.mem_of_mem_eraseIdx hq) }, rfl, id⟩
      exact ⟨rfl, ha.enter hk ⟨htimer, rfl, rfl, fun hv => absurd rfl hv⟩⟩
  | softirq i =>
    simp only [step] at he
    rcases hi : s.mod.queue[i]? with _ | q <;> rw [hi] at he
    · cases he
    · obtain ⟨hsoft, rfl, x, hx⟩ := ha.serves.queue _ (List.mem_of_getElem? hi)
      simp only [hx] at he
      obtain rfl := Option.some.inj he
      have hk : Keeps s.mod { s.mod with queue := s.mod.queue.eraseIdx i } d h timer soft :=
        ⟨{ ha.serves with
          queue := fun q hq => ha.serves.queue q (List.mem_of_mem_eraseIdx hq) }, rfl, id⟩
      exact ⟨rfl, ha.enter hk ⟨hsoft, rfl, rfl⟩⟩
  | callback i v => exact ha.callback hf hc he

/-- **A callback** keeps the invariant, if it is calm. -/
theorem Inv.async (hi : Inv s) {e : Ev D} (hc : Calm s e) (ha : e.async = true)
    (he : step s e = some t) : Inv t := by
  unfold Inv at hi ⊢
  rcases hth : s.thread with _ | ⟨d, l, rest⟩ | d | ⟨d, l, rest⟩ <;> rw [hth] at hi
  · exact absurd he (Quiet.not_async hi ha)
  · by_cases hr : .request_irq ∈ rest
    · exact absurd he ((hi.before hr).1.not_async ha)
    · obtain ⟨h, hact, hl⟩ := hi.after hr
      obtain ⟨ht, hact⟩ := hact.async (fun _ => trivial) hc ha he
      rw [ht, hth]
      exact { hi with before := fun h => absurd h hr, after := fun _ => ⟨h, hact, hl⟩ }
  · obtain ⟨h, hact⟩ := hi
    obtain ⟨ht, hact⟩ := hact.async (fun _ => trivial) hc ha he
    rw [ht, hth]
    exact ⟨h, hact⟩
  · obtain ⟨h, hi⟩ := hi
    by_cases hr : .free_irq ∈ rest
    · have hsoft : Freed s.thread = false → .kfree_task ∈ rest := by
        intro hf
        rw [hth] at hf
        by_contra hn
        exact of_decide_eq_false hf ⟨hn, hr⟩
      obtain ⟨ht, hact⟩ := (hi.before hr).async hsoft hc ha he
      rw [ht, hth]
      exact ⟨h, { hi with before := fun _ => hact, after := fun h => absurd hr h }⟩
    · exact absurd he ((hi.after hr).1.not_async ha)

end Async

/-! ### `my_probe` keeps it -/

/-- Up to `request_irq` the call has not come to its tenth stage. -/
theorem stage_le_nine : ∀ l ∈ probe_code.tails, .request_irq ∈ l → stage l ≤ 9 := by decide

/-- What a statement leaves to be executed. -/
def ahead : List Probe → Bool
  | [] => true
  | .request_irq :: rest => .request_irq ∉ rest && .mod_timer ∈ rest
  | .mod_timer :: rest => .mod_timer ∉ rest
  | .writel _ _ :: _ => true
  | _ :: rest => .request_irq ∈ rest

theorem code_ahead : ∀ l ∈ probe_code.tails, ahead l = true := by decide

section Probe

variable {s t : State D} {d : D} {l : Locals} {st : Probe} {rest : List Probe} {h : Help}
  {timer soft timer' soft' : Prop}

omit [DecidableEq D] in
theorem Active.of_iff (ha : Active s d h timer soft) (ht : timer ↔ timer') (hs : soft ↔ soft') :
    Active s d h timer' soft' := by
  rw [← propext ht, ← propext hs]
  exact ha

omit [DecidableEq D] in
theorem Active.arm (ha : Active s d h timer soft) : Active s d h True soft := by
  refine ⟨{ ha.serves with armed := fun q hq => ⟨trivial, (ha.serves.armed q hq).2⟩ },
    fun c hc => ?_⟩
  have hgood := ha.running c hc
  rcases c with _ | _ | _
  · exact hgood
  · exact ⟨trivial, hgood.2⟩
  · exact hgood

theorem mainStep_probing {a : Answer} (hth : s.thread = .probing d l (st :: rest))
    (he : mainStep s a = some t) :
    t = { s with mod := st.giveUp s.mod, thread := .idle } ∨
      st.leaves a = false ∧ ∃ rest', (rest' = rest ∨ rest' = st :: rest ∧ st = .wait) ∧
        t = { s with
          mod := (st.exec d a l s.mod).2.2, thread := .probing d (st.exec d a l s.mod).2.1 rest' } := by
  simp only [mainStep, hth] at he
  have hflow := st.exec_flow d a l s.mod
  rcases hx : st.exec d a l s.mod with ⟨flow, l', m'⟩
  rw [hx] at he hflow
  rcases hflow with ⟨e, rfl, -, -, rfl⟩ | ⟨rfl, hl, hw⟩ | ⟨rfl, hl, -⟩
  · exact .inl (Option.some.inj he).symm
  · have hst : st = .wait := of_decide_eq_true (Bool.and_eq_true_iff.mp hw).1
    exact .inr ⟨hl, _, .inr ⟨rfl, hst⟩, (Option.some.inj he).symm⟩
  · exact .inr ⟨hl, _, .inl rfl, (Option.some.inj he).symm⟩

theorem Quiet.of_frame {m₀ : Driver D} {k k' : ℕ} {l' : Locals} (hq : Quiet s)
    (hf : Frame m₀ d k l s.mod) (hf' : Frame m₀ d k' l' t.mod) (hk : k ≤ 9) (hk' : k' ≤ 9)
    (hr : t.running = s.running) : Quiet t where
  irq := by
    have h1 := hf.irq
    rw [if_neg (by omega), hq.irq] at h1
    rw [hf'.irq, if_neg (by omega), ← h1]
  armed := by
    have h1 := hf.armed
    rw [if_neg (by omega), hq.armed] at h1
    rw [hf'.armed, if_neg (by omega), ← h1]
  queue := by rw [hf'.queue, ← hf.queue, hq.queue]
  faults := by rw [hf'.faults, ← hf.faults, hq.faults]
  running := by rw [hr, hq.running]

theorem Active.of_frame {m₀ : Driver D} {l' : Locals} (hq : Quiet s)
    (hf : Frame m₀ d 9 l s.mod) (hf' : Frame m₀ d 10 l' t.mod) (hr : t.running = s.running) :
    ∃ h, Active t d h False True ∧ l'.virt = h.virt ∧ l'.p = h.timer := by
  obtain ⟨h, hhelp, ht, hv, hg⟩ := hf'.help (by decide)
  have hirq := hf.irq
  have harmed := hf.armed
  rw [if_neg (by decide), hq.irq] at hirq
  rw [if_neg (by decide), hq.armed] at harmed
  have htask : t.mod.task = m₀.heap.next := hf'.task
  have hdrv : t.mod.drvdata d = m₀.heap.next + 2 := by
    rw [hf'.drvdata, if_pos (by decide), Function.update_self]
  rw [← ht (by decide)] at hhelp hdrv
  refine ⟨h, ⟨⟨hdrv, hhelp, ?_, ?_, ?_, ?_, ?_, ?_, ?_⟩, ?_⟩, ?_, ?_⟩
  · rw [hv (by decide)]
    exact hf'.bar (by decide)
  · rw [hg (by decide)]
    exact hf'.page (by decide)
  · rw [htask]
    exact iff_true_intro (Driver.is_of_get (hf'.tasklet (by decide)))
  · intro x hx
    rw [hf'.irq, if_pos (by decide), ← hirq, ← ht (by decide)] at hx
    exact List.mem_singleton.mp hx
  · intro q hq
    rw [hf'.armed, if_neg (by decide), ← harmed] at hq
    cases hq
  · intro q hmem
    rw [hf'.queue, ← hf.queue, hq.queue] at hmem
    cases hmem
  · rw [hf'.faults, ← hf.faults, hq.faults]
  · intro c hc
    rw [hr, hq.running] at hc
    cases hc
  · rw [hf'.virt (by decide), hv (by decide)]
  · rw [hf'.p (by decide), ht (by decide)]

/-- A statement up to `request_irq`. -/
theorem Probing.early (hp : Probing s d l (st :: rest)) (hr : .request_irq ∈ st :: rest)
    (hth : s.thread = .probing d l (st :: rest)) {a : Answer} (he : mainStep s a = some t) :
    Inv t := by
  obtain ⟨hq, m₀, hf⟩ := hp.before hr
  have h9 := stage_le_nine _ ((List.mem_tails _ _).mpr hp.code) hr
  rcases mainStep_probing hth he with rfl | ⟨hl, rest', hrest, rfl⟩
  · obtain ⟨task, dma, hg⟩ : ∃ task dma, st.giveUp s.mod =
        { s.mod with task := task, dma_virt_addr := dma } := by
      cases st <;> exact ⟨_, _, rfl⟩
    rw [hg]
    exact (show Quiet _ from { hq with })
  have hcode : rest' <:+ probe_code := by
    rcases hrest with rfl | ⟨rfl, -⟩
    · exact (List.suffix_cons st rest').trans hp.code
    · exact hp.code
  have hf' : Frame m₀ d (stage rest') (st.exec d a l s.mod).2.1 (st.exec d a l s.mod).2.2 := by
    have hf' := hf.exec hp.code hl
    rcases hrest with rfl | ⟨rfl, rfl⟩
    · exact hf'
    · rw [← (stage_of_no_mark hp.code rfl).1]
      exact hf'
  by_cases hr' : .request_irq ∈ rest'
  · have h9' := stage_le_nine _ ((List.mem_tails _ _).mpr hcode) hr'
    exact (show Probing _ d _ rest' from ⟨hcode,
      fun _ => ⟨hq.of_frame hf hf' h9 h9' rfl, m₀, hf'⟩, fun h => absurd hr' h⟩)
  · obtain rfl : rest' = rest := hrest.resolve_right fun h => hr' (h.1 ▸ hr)
    obtain rfl : .request_irq = st := (List.mem_cons.mp hr).resolve_right hr'
    obtain ⟨h0, h1⟩ := stage_of_mark hp.code rfl
    rw [Nat.succ_injective h0] at hf
    rw [h1] at hf'
    obtain ⟨h, hact, hv, hpp⟩ := Active.of_frame
      (t := { s with mod := _, thread := .probing d _ rest' }) hq hf hf' rfl
    have hahead := code_ahead _ ((List.mem_tails _ _).mpr hp.code)
    have htimer := of_decide_eq_true (Bool.and_eq_true_iff.mp hahead).2
    exact (show Probing _ d _ rest' from ⟨hcode, fun h => absurd h hr', fun _ =>
      ⟨h, hact.of_iff ⟨False.elim, fun hn => hn htimer⟩ Iff.rfl, hv, hpp⟩⟩)

/-- A statement after `request_irq`. -/
theorem Probing.late (hp : Probing s d l (st :: rest)) (hr : .request_irq ∉ st :: rest)
    (hth : s.thread = .probing d l (st :: rest)) {a : Answer} (he : mainStep s a = some t) :
    Inv t := by
  obtain ⟨h, hact, hv, hpp⟩ := hp.after hr
  have hcode : rest <:+ probe_code := (List.suffix_cons st rest).trans hp.code
  have hr' : .request_irq ∉ rest := fun h => hr (List.mem_cons_of_mem _ h)
  have hahead := code_ahead _ ((List.mem_tails _ _).mpr hp.code)
  simp only [mainStep, hth] at he
  cases st with
  | writel w r =>
    obtain rfl := Option.some.inj he
    have hk := hact.serves.writel (w.val l) r
    rw [← hv] at hk
    have hact' : Active { s with mod := s.mod.writel (w.val l) r l.virt } d h
        (.mod_timer ∉ rest) True :=
      (hact.keep hk fun c => .inl).of_iff (by simp) Iff.rfl
    exact (show Probing _ d l rest from ⟨hcode, fun h => absurd h hr', fun _ =>
      ⟨h, { hact' with }, hv, hpp⟩⟩)
  | mod_timer =>
    obtain rfl := Option.some.inj he
    have hk := hact.serves.mod_timer
    rw [← hpp] at hk
    have hact' : Active { s with mod := s.mod.mod_timer l.p } d h (.mod_timer ∉ rest) True :=
      (hact.arm.keep hk fun c => .inl).of_iff
        (iff_of_true trivial (by simpa [ahead] using hahead)) Iff.rfl
    exact (show Probing _ d l rest from ⟨hcode, fun h => absurd h hr', fun _ =>
      ⟨h, { hact' with }, hv, hpp⟩⟩)
  | request_irq => exact absurd List.mem_cons_self hr
  | _ => exact absurd (of_decide_eq_true hahead) hr'

end Probe

/-! ### `my_remove` keeps it -/

section Remove

variable {s t : State D} {d : D} {l : Held} {st : Remove} {rest : List Remove} {h : Help}
  {timer soft : Prop}

theorem mainStep_removing {a : Answer} (hth : s.thread = .removing d l (st :: rest))
    (he : mainStep s a = some t) : waits s l st = false ∧ t = { s with
      mod := (st.exec d l s.mod).2, thread := .removing d (st.exec d l s.mod).1 rest } := by
  simp only [mainStep, hth] at he
  split_ifs at he with hw
  exact ⟨by simpa using hw, (Option.some.inj he).symm⟩

omit [DecidableEq D] in
/-- The tasklet is freed while nothing of it is pending. -/
theorem Active.free_task (ha : Active s d h timer soft) (hsoft : soft)
    (hq : s.mod.task ∉ s.mod.queue) (hr : s.running.any (Callback.runs s.mod.task) = false)
    {log : List (Entry D)} :
    Active { s with mod := { s.mod with heap := s.mod.heap.free s.mod.task, log := log } }
      d h timer False := by
  obtain ⟨x, data, ht⟩ := ha.serves.get_task hsoft
  have hother : ∀ {a : Ptr} {o : Obj}, s.mod.heap.get a = some (d, o) → o.kind ≠ .tasklet →
      (s.mod.heap.free s.mod.task).get a = some (d, o) := by
    intro a o ho hk
    apply Heap.get_free_other ho ht
    intro h
    exact hk (congrArg (fun c => c.2.kind) h)
  refine ⟨{ ha.serves with
    help := hother ha.serves.help (by simp [Obj.kind])
    bar := hother ha.serves.bar (by simp [Obj.kind])
    page := hother ha.serves.page (by simp [Obj.kind])
    tasklet := ?_, queue := ?_ }, fun c hc => ?_⟩
  · simp [Driver.Is]
  · intro q hmem
    exact absurd ((ha.serves.queue q hmem).2.1 ▸ hmem) hq
  · have hgood := ha.running c hc
    rcases c with ⟨p, virt, pc⟩ | _ | ⟨q, data⟩
    · exact ⟨hgood.1, hgood.2.1, fun _ => False.elim⟩
    · exact hgood
    · have hno := List.any_eq_false.mp hr _ hc
      exact absurd (decide_eq_true hgood.2.1) hno

omit [DecidableEq D] in
theorem Active.del_timer (ha : Active s d h timer soft)
    (hr : ∀ c ∈ s.running, ∀ p virt pc, c ≠ .raise_intr h.timer p virt pc) :
    Active { s with mod := { s.mod with armed := s.mod.armed.filter fun q => q ≠ h.timer } }
      d h False soft := by
  refine ⟨{ ha.serves with armed := fun q hq => ?_ }, fun c hc => ?_⟩
  · obtain ⟨hmem, hne⟩ := List.mem_filter.mp hq
    exact absurd (ha.serves.armed q hmem).2 (of_decide_eq_true hne)
  · have hgood := ha.running c hc
    rcases c with _ | ⟨q, p, virt, pc⟩ | _
    · exact hgood
    · obtain ⟨-, rfl, -⟩ := hgood
      exact absurd rfl (hr _ hc p virt pc)
    · exact hgood

/-- The handler is off, and has returned, and so nothing is left to run. -/
theorem Active.free_irq (ha : Active s d h False False)
    (hr : ∀ c ∈ s.running, ∀ virt pc, c ≠ .my_handler h.timer virt pc) :
    Quiet { s with mod := { s.mod with irq := s.mod.irq.filter fun x => x ≠ (d, h.timer) } } where
  irq := by
    refine List.eq_nil_iff_forall_not_mem.mpr fun x hx => ?_
    obtain ⟨hmem, hne⟩ := List.mem_filter.mp hx
    exact of_decide_eq_true hne (ha.serves.irq x hmem)
  armed := List.eq_nil_iff_forall_not_mem.mpr fun q hq => (ha.serves.armed q hq).1
  queue := List.eq_nil_iff_forall_not_mem.mpr fun q hq => (ha.serves.queue q hq).1
  faults := ha.serves.faults
  running := by
    refine List.eq_nil_iff_forall_not_mem.mpr fun c hc => ?_
    have hgood := ha.running c hc
    rcases c with ⟨p, virt, pc⟩ | _ | _
    · obtain ⟨rfl, -⟩ := hgood
      exact hr _ hc virt pc rfl
    · exact hgood.1
    · exact hgood.1

omit [DecidableEq D] in
theorem Active.kill_task (ha : Active s d h timer soft) :
    Active { s with mod := { s.mod with queue := s.mod.queue.filter fun q => q ≠ s.mod.task } }
      d h timer soft :=
  ⟨{ ha.serves with queue := fun q hq => ha.serves.queue q (List.mem_filter.mp hq).1 }, ha.running⟩

omit [DecidableEq D] in
theorem Active.clear_task (ha : Active s d h timer False) :
    Active { s with mod := { s.mod with task := NULL } } d h timer False := by
  refine ⟨{ ha.serves with tasklet := ?_, queue := fun q hq => ?_ }, fun c hc => ?_⟩
  · simp [Driver.Is, NULL, Heap.null]
  · exact (ha.serves.queue q hq).1.elim
  · have hgood := ha.running c hc
    rcases c with ⟨p, virt, pc⟩ | _ | _
    · exact ⟨hgood.1, hgood.2.1, fun _ => False.elim⟩
    · exact hgood
    · exact hgood.1.elim

theorem Inv.of_active {m : Driver D} {l' : Held} (hcode : rest <:+ remove_code)
    (hb : .if_task ∉ rest → .kfree_task ∈ rest → l'.block = true)
    (hp : .pci_get_drvdata ∉ rest → l'.p = h.timer) (hf : .free_irq ∈ rest)
    (ha : Active { s with mod := m } d h (.del_timer_sync ∈ rest) (.kfree_task ∈ rest)) :
    Inv { s with mod := m, thread := .removing d l' rest } :=
  (show ∃ h, Removing _ d l' h rest from
    ⟨h, hcode, hb, hp, fun _ => { ha with }, fun hn => absurd hf hn⟩)

/-- A statement up to `free_irq`. -/
theorem Removing.early (hi : Removing s d l h (st :: rest)) (hf : .free_irq ∈ st :: rest)
    (hth : s.thread = .removing d l (st :: rest)) {a : Answer} (hc : Calm s (.main a))
    (he : mainStep s a = some t) : Inv t := by
  obtain ⟨hw, rfl⟩ := mainStep_removing hth he
  have hact := hi.before hf
  have hcode : rest <:+ remove_code := (List.suffix_cons st rest).trans hi.code
  obtain rfl : rest = Machine.follow remove_code st := Machine.eq_follow (by decide) hi.code
  cases st with
  | printk =>
    apply Inv.of_active hcode (fun h => absurd (by decide) h) (fun h => absurd (by decide) h)
      (by decide)
    exact { hact.of_iff (by decide) (by decide) with
      serves := { (hact.of_iff (by decide) (by decide)).serves with } }
  | if_task =>
    obtain ⟨x, data, ht⟩ := hact.serves.get_task (by decide)
    apply Inv.of_active hcode (fun _ _ => decide_eq_true (Heap.ne_null ht))
      (fun h => absurd (by decide) h) (by decide)
    exact hact.of_iff (by decide) (by decide)
  | tasklet_kill =>
    obtain ⟨x, data, ht⟩ := hact.serves.get_task (by decide)
    have hb := hi.block (by decide) (by decide)
    rw [exec_tasklet_kill hb ht rfl]
    apply Inv.of_active hcode (fun _ _ => hb) (fun h => absurd (by decide) h) (by decide)
    exact hact.kill_task.of_iff (by decide) (by decide)
  | kfree_task =>
    obtain ⟨x, data, ht⟩ := hact.serves.get_task (by decide)
    simp only [Calm, hth, List.head?_cons, forall_const] at hc
    rw [exec_kfree_task (hi.block (by decide) (by decide)) ht rfl]
    apply Inv.of_active hcode (fun _ h => absurd h (by decide)) (fun h => absurd (by decide) h)
      (by decide)
    exact (hact.free_task (by decide) hc.1 hc.2).of_iff (by decide) (by decide)
  | clear_task =>
    have hact' : Active s d h (.del_timer_sync ∈ Machine.follow remove_code .clear_task) False :=
      hact.of_iff (by decide) (by decide)
    by_cases hb : l.block = true
    · have hx : Remove.clear_task.exec d l s.mod = (l, { s.mod with task := NULL }) :=
        congrArg _ (if_pos hb)
      rw [hx]
      apply Inv.of_active hcode (fun _ h => absurd h (by decide)) (fun h => absurd (by decide) h)
        (by decide)
      exact hact'.clear_task.of_iff Iff.rfl (by decide)
    · have hx : Remove.clear_task.exec d l s.mod = (l, s.mod) := congrArg _ (if_neg hb)
      rw [hx]
      apply Inv.of_active hcode (fun _ h => absurd h (by decide)) (fun h => absurd (by decide) h)
        (by decide)
      exact hact'.of_iff Iff.rfl (by decide)
  | pci_get_drvdata =>
    apply Inv.of_active hcode (fun _ h => absurd h (by decide)) (fun _ => hact.serves.drvdata)
      (by decide)
    exact hact.of_iff (by decide) (by decide)
  | del_timer_sync =>
    have hp := hi.p (by decide)
    have hhelp := hact.serves.help
    rw [← hp] at hhelp
    rw [exec_del_timer_sync hhelp, hp]
    apply Inv.of_active hcode (fun _ h => absurd h (by decide)) (fun _ => hp) (by decide)
    refine (hact.del_timer ?_).of_iff (by decide) (by decide)
    rintro c hc p virt pc rfl
    exact List.any_eq_false.mp hw _ hc (decide_eq_true hp.symm)
  | free_irq =>
    have hp := hi.p (by decide)
    have hact' : Active s d h False False := hact.of_iff (by decide) (by decide)
    have hq := hact'.free_irq ?_
    · rw [← hp] at hq
      exact (show ∃ h, Removing _ d l h (Machine.follow remove_code .free_irq) from ⟨h, hcode,
        fun _ h => absurd h (by decide), fun _ => hp, fun h => absurd h (by decide),
        fun _ => ⟨{ hq with }, fun _ => hact.serves.help, fun _ => hact.serves.bar,
          fun _ => hact.serves.page⟩⟩)
    · rintro c hc virt pc rfl
      exact List.any_eq_false.mp hw _ hc (decide_eq_true hp.symm)
  | _ => exact absurd hf (by decide)

omit [DecidableEq D] in
theorem Left.free {m : Driver D} {a : Ptr} {x : Obj} (hl : Left m d h rest)
    (ha : m.heap.get a = some (d, x)) {rest' : List Remove} {log : List (Entry D)}
    (hp : .kfree_p ∈ rest' → .kfree_p ∈ rest ∧ x.kind ≠ .help)
    (hv : .iounmap ∈ rest' → .iounmap ∈ rest ∧ x.kind ≠ .bar)
    (hg : .dma_free_coherent ∉ rest') :
    Left { m with heap := m.heap.free a, log := log } d h rest' := by
  have hother : ∀ {b : Ptr} {o : Obj}, m.heap.get b = some (d, o) → x.kind ≠ o.kind →
      (m.heap.free a).get b = some (d, o) := by
    intro b o ho hk
    apply Heap.get_free_other ho ha
    intro h
    exact hk (congrArg (fun c => c.2.kind) h).symm
  exact ⟨fun h => hother (hl.help (hp h).1) (hp h).2, fun h => hother (hl.bar (hv h).1) (hv h).2,
    fun h => absurd h hg⟩

theorem Inv.of_quiet {m : Driver D} (hcode : rest <:+ remove_code) (hp : l.p = h.timer)
    (hk : .kfree_task ∉ rest) (hf : .free_irq ∉ rest) (hq : Quiet { s with mod := m })
    (hl : Left m d h rest) : Inv { s with mod := m, thread := .removing d l rest } :=
  (show ∃ h, Removing _ d l h rest from ⟨h, hcode, fun _ h => absurd h hk, fun _ => hp,
    fun h => absurd h hf, fun _ => ⟨{ hq with }, hl⟩⟩)

/-- A statement after `free_irq`. -/
theorem Removing.late (hi : Removing s d l h (st :: rest)) (hf : .free_irq ∉ st :: rest)
    (hth : s.thread = .removing d l (st :: rest)) {a : Answer} (he : mainStep s a = some t) :
    Inv t := by
  obtain ⟨-, rfl⟩ := mainStep_removing hth he
  obtain ⟨hq, hl⟩ := hi.after hf
  have hcode : rest <:+ remove_code := (List.suffix_cons st rest).trans hi.code
  obtain rfl : rest = Machine.follow remove_code st := Machine.eq_follow (by decide) hi.code
  cases st with
  | dma_free_coherent =>
    have hp := hi.p (by decide)
    have hhelp := hl.help (by decide)
    rw [← hp] at hhelp
    rw [exec_dma_free_coherent hhelp (hl.page (by decide))]
    apply Inv.of_quiet hcode hp (by decide) (by decide)
    · exact { hq with }
    · exact hl.free (hl.page (by decide)) (by decide) (by decide) (by decide)
  | iounmap =>
    have hp := hi.p (by decide)
    have hhelp := hl.help (by decide)
    rw [← hp] at hhelp
    rw [exec_iounmap hhelp (hl.bar (by decide))]
    apply Inv.of_quiet hcode hp (by decide) (by decide)
    · exact { hq with }
    · exact hl.free (hl.bar (by decide)) (by decide) (by decide) (by decide)
  | pci_release_region | pci_disable_device =>
    apply Inv.of_quiet hcode (hi.p (by decide)) (by decide) (by decide)
    · exact { hq with }
    · exact ⟨fun _ => hl.help (by decide), fun h => absurd h (by decide),
        fun h => absurd h (by decide)⟩
  | kfree_p =>
    have hp := hi.p (by decide)
    have hhelp := hl.help (by decide)
    rw [← hp] at hhelp
    rw [exec_kfree_p hhelp]
    apply Inv.of_quiet hcode hp (by decide) (by decide)
    · exact { hq with }
    · exact ⟨fun h => absurd h (by decide), fun h => absurd h (by decide),
        fun h => absurd h (by decide)⟩
  | _ => exact absurd (by decide) hf

end Remove

/-! ### Whole runs -/

variable {s t : State D}

/-- **A step of the core** keeps the invariant, if it is calm. -/
theorem Inv.main (hi : Inv s) {a : Answer} (hc : Calm s (.main a)) (he : mainStep s a = some t) :
    Inv t := by
  unfold Inv at hi
  rcases hth : s.thread with _ | ⟨d, l, _ | ⟨st, rest⟩⟩ | d | ⟨d, l, _ | ⟨st, rest⟩⟩ <;>
    rw [hth] at hi
  · simp [mainStep, hth] at he
  · simp only [mainStep, hth] at he
    obtain rfl := Option.some.inj he
    obtain ⟨h, hact, -⟩ := hi.after List.not_mem_nil
    have hact' : Active s d h True True :=
      hact.of_iff (iff_true_intro List.not_mem_nil) Iff.rfl
    exact (show ∃ h, Active _ d h True True from ⟨h, { hact' with }⟩)
  · by_cases hr : .request_irq ∈ st :: rest
    · exact hi.early hr hth he
    · exact hi.late hr hth he
  · simp [mainStep, hth] at he
  · simp only [mainStep, hth] at he
    obtain rfl := Option.some.inj he
    obtain ⟨h, hi⟩ := hi
    exact (show Quiet _ from { (hi.after List.not_mem_nil).1 with })
  · obtain ⟨h, hi⟩ := hi
    by_cases hf : .free_irq ∈ st :: rest
    · exact hi.early hf hth hc he
    · exact hi.late hf hth he

theorem Inv.step (hi : Inv s) {e : Ev D} (hc : Calm s e) (he : step s e = some t) : Inv t := by
  rcases ha : e.async
  · cases e with
    | irq | tick | softirq | callback => cases ha
    | main a => exact hi.main hc he
    | probe d =>
      unfold Inv at hi
      rcases hth : s.thread <;> simp only [Teardown.step, hth, reduceCtorEq] at he
      rw [hth] at hi
      obtain rfl := Option.some.inj he
      exact (show Probing _ d _ probe_code from ⟨List.suffix_refl _,
        fun _ => ⟨{ hi with }, s.mod, Frame.start _ _ _⟩, fun h => absurd (by decide) h⟩)
    | remove =>
      unfold Inv at hi
      rcases hth : s.thread <;> simp only [Teardown.step, hth, reduceCtorEq] at he
      rename_i d
      rw [hth] at hi
      obtain rfl := Option.some.inj he
      obtain ⟨h, hact⟩ := hi
      have hact' : Active s d h (.del_timer_sync ∈ remove_code) (.kfree_task ∈ remove_code) :=
        hact.of_iff (by decide) (by decide)
      exact (show ∃ h, Removing _ d _ h remove_code from ⟨h, List.suffix_refl _,
        fun h => absurd (by decide) h, fun h => absurd (by decide) h,
        fun _ => { hact' with }, fun h => absurd (by decide) h⟩)
  · exact hi.async hc ha he

/-- The invariant says that nothing has been used after it was freed. -/
theorem Inv.faults (hi : Inv s) : s.mod.faults = [] := by
  unfold Inv at hi
  rcases hth : s.thread with _ | ⟨d, l, rest⟩ | d | ⟨d, l, rest⟩ <;> rw [hth] at hi
  · exact hi.faults
  · by_cases hr : .request_irq ∈ rest
    · exact (hi.before hr).1.faults
    · obtain ⟨h, hact, -⟩ := hi.after hr
      exact hact.faults
  · obtain ⟨h, hact⟩ := hi
    exact hact.faults
  · obtain ⟨h, hi⟩ := hi
    by_cases hf : .free_irq ∈ rest
    · exact (hi.before hf).faults
    · exact (hi.after hf).1.faults

omit [DecidableEq D] in
theorem tasklet_init_gone {m : Driver D} {q : Ptr} (hq : ¬ m.Is .tasklet q) (data : Ptr × ℕ) :
    m.tasklet_init q data = m.fault .tasklet_init := by
  unfold Driver.tasklet_init
  split
  · rename_i hg
    exact absurd (Driver.is_of_get hg) hq
  · rfl

/-- **Between `kfree(task)` and `free_irq`** a handler that reaches for the
tasklet faults at once. -/
theorem fault_of_freed (hi : Inv s) (hf : Freed s.thread = true) {i : ℕ} {p virt : Ptr}
    {pc : Handler} (hr : s.running[i]? = some (.my_handler p virt pc))
    (hu : Handler.usesTask pc = true) (v : BitVec 32) :
    ∃ t, step s (.callback i v) = some t ∧
      (t.mod.faults = [.tasklet_init] ∨ t.mod.faults = [.tasklet_schedule]) := by
  unfold Inv at hi
  rcases hth : s.thread with _ | _ | _ | ⟨d, l, rest⟩ <;> rw [hth] at hi hf
  · cases hf
  · cases hf
  · cases hf
  obtain ⟨hk, hirq⟩ := of_decide_eq_true hf
  obtain ⟨h, hi⟩ := hi
  have hact := hi.before hirq
  have hno : ¬ s.mod.Is .tasklet s.mod.task := fun h => hk (hact.serves.tasklet.mp h)
  obtain ⟨rfl, -⟩ := hact.running _ (List.mem_of_getElem? hr)
  refine ⟨_, by simp only [step, callbackStep, hr]; rfl, ?_⟩
  cases pc with
  | init =>
    refine .inl ?_
    show (s.mod.handler h.timer virt .tasklet_init).2.faults = _
    simp only [Driver.handler, Driver.help?_eq hact.serves.help, tasklet_init_gone hno]
    show s.mod.faults ++ _ = _
    rw [hact.faults, List.nil_append]
  | schedule =>
    refine .inr ?_
    show (s.mod.tasklet_schedule s.mod.task).faults = _
    rw [Driver.tasklet_schedule, if_neg hno]
    show s.mod.faults ++ _ = _
    rw [hact.faults, List.nil_append]
  | _ => cases hu

/-- A tasklet that is scheduled when it is freed is looked for when it is due. -/
theorem fault_of_queued (hi : Inv s) {d : D} {l : Held} {rest : List Remove}
    (hth : s.thread = .removing d l (.kfree_task :: rest)) {i : ℕ}
    (hq : s.mod.queue[i]? = some s.mod.task) (a : Answer) :
    ∃ t u, step s (.main a) = some t ∧ step t (.softirq i) = some u ∧
      u.mod.faults = [.dead .tasklet] := by
  unfold Inv at hi
  rw [hth] at hi
  obtain ⟨h, hi⟩ := hi
  obtain rfl : rest = Machine.follow remove_code .kfree_task :=
    Machine.eq_follow (by decide) hi.code
  have hact := hi.before (by decide)
  obtain ⟨x, data, ht⟩ := hact.serves.get_task (by decide)
  have hx := exec_kfree_task (d := d) (hi.block (by decide) (by decide)) ht rfl
  have h1 : step s (.main a) = some { s with
      mod := { s.mod with
        heap := s.mod.heap.free s.mod.task, log := s.mod.log ++ [.free d s.mod.task] }
      thread := .removing d l (Machine.follow remove_code .kfree_task) } := by
    simp only [step, mainStep, hth, waits, hx]
    rfl
  refine ⟨_, _, h1, by simp only [step, hq, Heap.get_free_self]; rfl, ?_⟩
  show s.mod.faults ++ _ = _
  rw [hact.faults, List.nil_append]

/-- **Teardown.** In a run in which no tasklet is pending when `my_remove`
frees it, and no handler reaches for it between that and `free_irq`, nothing
is used that is null or was freed. -/
theorem faultless_of_calm {es : List (Ev D)} (hc : Machine.Always step Calm start es) :
    Machine.Visits step (fun s => s.mod.faults = []) start es := by
  have h0 : Inv (start : State D) := (show Quiet _ from ⟨rfl, rfl, rfl, rfl, rfl⟩)
  have hv := Machine.visits_of_always h0 (fun _ _ _ hi hc he => hi.step hc he) hc
  exact fun pre hp s hs => (hv pre hp s hs).faults

end Invariant

/-! ### Two runs -/

/-- `my_probe` to its end, nothing failing. -/
def probed : List (Ev ℕ) := .probe 0 :: List.replicate (probe_code.length + 1) (.main ⟨0, 0⟩)

/-- The handler on its way to the tasklet, the transfer having ended. -/
def transferred : List (Ev ℕ) := .irq 0 :: List.replicate 5 (.callback 0 0x100)

/-- The interrupt comes while `my_remove` stands behind the block. -/
def late_irq : List (Ev ℕ) :=
  probed ++ .remove :: List.replicate 5 (.main ⟨0, 0⟩) ++ transferred ++ [.callback 0 0]

set_option maxRecDepth 4000 in
/-- The handler initialises the null tasklet. -/
theorem late_irq_faults : ∃ s, Machine.run step start late_irq = some s ∧
    s.mod.task = NULL ∧ s.mod.faults = [.tasklet_init] :=
  ⟨_, rfl, rfl, rfl⟩

/-- An interrupt and its tasklet while the card is bound, then the remove. -/
def early_irq : List (Ev ℕ) :=
  probed ++ transferred ++ List.replicate 3 (.callback 0 0) ++ [.softirq 0, .callback 0 0, .tick 0] ++
    List.replicate 3 (.callback 0 0) ++ .remove :: List.replicate 14 (.main ⟨0, 0⟩)

set_option maxRecDepth 4000 in
theorem early_irq_faultless : (Machine.run step start early_irq).isSome = true ∧
    Machine.Visits step (fun s => s.mod.faults = []) start early_irq :=
  ⟨by decide, faultless_of_calm (by decide)⟩

end Teardown
end Pb173
