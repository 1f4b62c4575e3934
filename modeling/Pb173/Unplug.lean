/-
# Devices removed while they are open (10/example)

The life cycle of the driver with files open on its devices. A device can be
opened while its character device is there, and `phantom_exit` waits for the
files to be closed, but `phantom_remove` does not: it frees the device, and
the file keeps its address. The devices that are allocated are the bound ones
(`Inv.heap`), so a file operation reaches what is there exactly if the device
of its file is still bound (`unplug_iff`). If devices are only removed while no
file is open on them, that is always so (`safe_of_unused`).
-/
import Pb173.Files
import Pb173.Lifecycle

namespace Pb173
namespace Unplug

open Phantom Lifecycle Files

/-! ### Runs -/

/-- The driver, what its files reached for and did not find, and the open files
with their `private_data`. -/
structure State (F D : Type*) where
  core : Lifecycle.State D
  stale : List Access
  files : List (F × Ptr)

/-- A call of the life cycle, or a file operation; a device is opened by the
number of its character device. -/
inductive Ev (F D : Type*)
  | call (ev : Lifecycle.Ev D)
  | phantom_open (f : F) (dev : Ptr) (number : ℕ) (interrupted : Bool)
  | phantom_write (f : F) (buf : List UInt8) (count : ℕ)
  | phantom_release (f : F)

def start {F D : Type*} : State F D := ⟨Lifecycle.start, [], []⟩

section Step

variable {F D : Type*}

def State.host (s : State F D) : Host D := ⟨s.core.mod, s.stale⟩

def State.put (s : State F D) (h : Host D) (files : List (F × Ptr)) : State F D :=
  ⟨{ s.core with mod := h.mod }, h.stale, files⟩

/-- The call ends the life of the module. -/
def leaves : Lifecycle.Ev D → Bool
  | .exit _ => true
  | _ => false

variable [DecidableEq F] [DecidableEq D]

/-- An open file holds a reference on the module. -/
def step (s : State F D) : Ev F D → Option (State F D)
  | .call ev =>
    if leaves ev = true ∧ s.files ≠ [] then none
    else (Lifecycle.step s.core ev).map fun c => { s with core := c }
  | .phantom_open f dev number interrupted =>
    if s.files.lookup f = none ∧ .cdev dev number ∈ s.core.mod.led.held then
      let (r, h) := phantom_open dev interrupted s.host
      some (s.put h (match r with
        | .ok p => (f, p) :: s.files
        | .error _ => s.files))
    else none
  | .phantom_write f buf count => (s.files.lookup f).map fun p =>
    s.put (phantom_write p buf count s.host).2 s.files
  | .phantom_release f => (s.files.lookup f).map fun p =>
    s.put (phantom_release p s.host) (s.files.filter fun x => x.1 ≠ f)

/-- What an event can do. -/
inductive Moves (s : State F D) : Ev F D → State F D → Prop
  | call {ev : Lifecycle.Ev D} {c : Lifecycle.State D} (hx : leaves ev = true → s.files = [])
    (hc : Lifecycle.step s.core ev = some c) : Moves s (.call ev) { s with core := c }
  | phantom_open {f : F} {dev : Ptr} {number : ℕ} {interrupted : Bool} {p : Ptr} {h : Host D}
    (hc : .cdev dev number ∈ s.core.mod.led.held)
    (ho : phantom_open dev interrupted s.host = (.ok p, h)) :
    Moves s (.phantom_open f dev number interrupted) (s.put h ((f, p) :: s.files))
  | open_error {f : F} {dev : Ptr} {number : ℕ} {interrupted : Bool} {e : ℤ} {h : Host D}
    (hc : .cdev dev number ∈ s.core.mod.led.held)
    (ho : phantom_open dev interrupted s.host = (.error e, h)) :
    Moves s (.phantom_open f dev number interrupted) (s.put h s.files)
  | phantom_write {f : F} {buf : List UInt8} {count : ℕ} {p : Ptr}
    (hp : s.files.lookup f = some p) :
    Moves s (.phantom_write f buf count) (s.put (phantom_write p buf count s.host).2 s.files)
  | phantom_release {f : F} {p : Ptr} (hp : s.files.lookup f = some p) :
    Moves s (.phantom_release f)
      (s.put (phantom_release p s.host) (s.files.filter fun x => x.1 ≠ f))

theorem Moves.of_step {s t : State F D} {e : Ev F D} (h : step s e = some t) : Moves s e t := by
  cases e with
  | call ev =>
    simp only [step] at h
    split at h
    · cases h
    rename_i hleave
    obtain ⟨c, hc, rfl⟩ := Option.map_eq_some_iff.mp h
    exact .call (fun hl => not_not.mp fun hne => hleave ⟨hl, hne⟩) hc
  | phantom_open f dev number interrupted =>
    simp only [step] at h
    split at h
    swap
    · cases h
    rename_i hopen
    obtain rfl := Option.some.inj h
    rcases ho : Files.phantom_open dev interrupted s.host with ⟨e | p, t⟩
    · exact .open_error hopen.2 ho
    · exact .phantom_open hopen.2 ho
  | phantom_write f buf count =>
    obtain ⟨p, hp, rfl⟩ := Option.map_eq_some_iff.mp h
    exact .phantom_write hp
  | phantom_release f =>
    obtain ⟨p, hp, rfl⟩ := Option.map_eq_some_iff.mp h
    exact .phantom_release hp

end Step

/-- No file operation has used a device that was freed, or a mapping that was
gone. -/
def Safe {F D : Type*} (s : State F D) : Prop := s.stale = []

section Attached

variable {F D : Type*} [DecidableEq F]

/-- The device of the open file is still bound. -/
def Attached (s : State F D) (f : F) : Prop :=
  ∀ p, s.files.lookup f = some p → ∃ d ∈ s.core.bound, s.core.mod.drvdata d = p

/-- A file is written to, with the size that `phantom_write` asks for and from
memory that can be read, or closed, only while its device is bound. -/
def Plugged (s : State F D) : Ev F D → Prop
  | .phantom_write f buf count =>
    count = sizeof_phm_reg → sizeof_phm_reg ≤ buf.length → Attached s f
  | .phantom_release f => Attached s f
  | _ => True

/-- A device is removed only while no file is open on it. -/
def Unused (s : State F D) : Ev F D → Prop
  | .call (.remove pdev) => ∀ x ∈ s.files, x.2 ≠ s.core.mod.drvdata pdev
  | _ => True

end Attached

/-! ### Who owns the memory -/

section Owned

variable {D : Type*}

/-- What is allocated belongs to the bound devices. -/
def Owned (m : Driver D) (bound : List D) : Prop :=
  ∀ p, (m.heap.get p).isSome = true → ∃ d ∈ bound, m.drvdata d = p

theorem Owned.perm {m : Driver D} {ds ds' : List D} (h : Owned m ds) (hp : ds.Perm ds') :
    Owned m ds' := by
  intro p hl
  obtain ⟨d, hd, he⟩ := h p hl
  exact ⟨d, hp.mem_iff.mp hd, he⟩

theorem Owned.aside {t m : Driver D} {bound : List D} (h : Owned m bound) (ha : Aside t m) :
    Owned t bound := by
  intro p hl
  rw [ha.get_isSome] at hl
  rw [ha.drvdata]
  exact h p hl

variable [DecidableEq D]

theorem Owned.probe {t m : Driver D} {bound : List D} {pdev : D} {a : Answers} (h : Owned m bound)
    (hpd : pdev ∉ bound) (hp : phantom_probe pdev a m = (0, t)) : Owned t (pdev :: bound) := by
  obtain ⟨hdrv, x, hx⟩ := phantom_probe_ok hp
  intro p hl
  rw [hdrv]
  by_cases hnew : p = m.heap.next
  · exact ⟨pdev, List.mem_cons_self, by rw [Function.update_self, hnew]⟩
  · rw [hx.get p hnew] at hl
    obtain ⟨d, hd, he⟩ := h p hl
    have hne : d ≠ pdev := fun heq => hpd (heq ▸ hd)
    exact ⟨d, List.mem_cons_of_mem _ hd, by rw [Function.update_of_ne hne, he]⟩

theorem Owned.remove {node : D → Bool} {m : Driver D} {bound : List D} {pdev : D}
    (h : Owned m (pdev :: bound)) (hs : Serves node m (pdev :: bound)) :
    Owned (phantom_remove pdev m) bound := by
  have hr := hs.removed
  generalize phantom_remove pdev m = t at hr
  intro p hl
  rw [hr.heap] at hl
  obtain ⟨y, hy⟩ := Option.isSome_iff_exists.mp hl
  obtain ⟨hne, hy⟩ := Heap.get_free_eq_some.mp hy
  obtain ⟨d, hd, he⟩ := h p (by rw [hy]; rfl)
  rw [hr.drvdata]
  rcases List.mem_cons.mp hd with rfl | hd
  · exact absurd he.symm hne
  · exact ⟨d, hd, he⟩

theorem Owned.foldl_remove {node : D → Bool} : ∀ (order : List D) {m : Driver D}, Owned m order →
    Serves node m order → Owned (order.foldl (fun m pdev => phantom_remove pdev m) m) []
  | [], _, h, _ => h
  | _ :: order, _, h, hs => foldl_remove order (h.remove hs) hs.remove

/-- **Every call of the life cycle** keeps the memory owned. -/
theorem Owned.step {s t : Lifecycle.State D} {ev : Lifecycle.Ev D} (h : Owned s.mod s.bound)
    (hi : Lifecycle.Inv s) (hs : Lifecycle.step s ev = some t) : Owned t.mod t.bound := by
  -- a load leaves the memory alone, and there is nothing in it
  have hinit : ∀ {a e t}, s.loaded = false → phantom_init a (image s.mod) = (e, t) →
      Owned t [] := by
    intro a e t hl hcall p hp
    obtain ⟨hk, -⟩ := phantom_init_cases hcall
    have hp' : (s.mod.heap.get p).isSome = true := by
      have hheap : t.heap = s.mod.heap := hk.heap
      rwa [← hheap]
    obtain ⟨d, hd, -⟩ := h p hp'
    rw [(hi.idle hl).1] at hd
    cases hd
  cases Lifecycle.Moves.of_step hs with
  | init hl hcall => exact hinit hl hcall
  | init_error hl hcall => exact hinit hl hcall
  | probe _ hb hp => exact h.probe hb hp
  | probe_error _ hp he =>
    have hr := (phantom_probe_error hp he).2
    intro p hl
    rw [hr.get] at hl
    rw [hr.drvdata]
    exact h p hl
  | remove hl hb =>
    obtain ⟨node, hserves⟩ := hi.loaded hl
    have hperm := List.perm_cons_erase hb
    exact (h.perm hperm).remove (hserves.perm hperm)
  | exit hl hp =>
    obtain ⟨node, hserves⟩ := hi.loaded hl
    exact (h.perm hp.symm).foldl_remove _ (hserves.perm hp.symm)

end Owned

/-! ### What the file operations leave to the life cycle -/

section Serves

variable {D : Type*} {node : D → Bool} {t m : Driver D} {bound : List D}

theorem view (h : Serves node m bound) (ha : Aside t m) {d : D} (hd : d ∈ bound) :
    ∃ y, t.heap.get (t.drvdata d) = some y ∧ y.caddr = (m.deref (m.drvdata d)).caddr ∧
      y.iaddr = (m.deref (m.drvdata d)).iaddr ∧ y.dev = (m.deref (m.drvdata d)).dev := by
  obtain ⟨x, hx⟩ := h.live d hd
  rw [m.deref_of hx, ha.drvdata]
  exact ha.of_get hx

theorem minor_aside (h : Serves node m bound) (ha : Aside t m) {d : D} (hd : d ∈ bound) :
    minor t d = minor m d := by
  obtain ⟨y, hy, -, -, hdev⟩ := view h ha hd
  unfold minor
  rw [t.deref_of hy, hdev]

theorem devices_aside (h : Serves node m bound) (ha : Aside t m) :
    devices t node bound = devices m node bound := by
  apply List.flatMap_congr
  intro d hd
  obtain ⟨y, hy, hc, hi, hdev⟩ := view h ha hd
  unfold owned
  rw [t.deref_of hy, hc, hi, hdev, ha.drvdata]

theorem serves_aside (h : Serves node m bound) (ha : Aside t m) : Serves node t bound := by
  have hmin : ∀ {d}, d ∈ bound → minor t d = minor m d := fun hd => minor_aside h ha hd
  refine ⟨h.nodup, fun d hd => ?_, fun d hd => ?_, fun d hd => ?_, fun d hd d' hd' he => ?_, ?_, ?_, ?_⟩
  · obtain ⟨y, hy, -⟩ := view h ha hd
    exact ⟨y, hy⟩
  · obtain ⟨y, hy, -, -, hdev⟩ := view h ha hd
    rw [t.deref_of hy, hdev, hmin hd, ha.phantom_major]
    exact h.dev d hd
  · rw [hmin hd]
    exact h.minor_lt d hd
  · rw [hmin hd, hmin hd'] at he
    exact h.minor_inj d hd d' hd' he
  · rintro i hi ⟨d, hd, he⟩
    simp only [ha.phantom_devices]
    exact h.used i hi ⟨d, hd, hmin hd ▸ he⟩
  · intro i hi hf
    simp only [ha.phantom_devices]
    exact h.free i hi fun d hd => hmin hd ▸ hf d hd
  · have hbase : base t = base m := by
      unfold base
      rw [ha.phantom_major, ha.phantom_class]
    rw [ha.led, h.led, devices_aside h ha, hbase]

theorem iomap_mem (h : Serves node m bound) {d : D} (hd : d ∈ bound) :
    .iomap d (m.deref (m.drvdata d)).iaddr ∈ m.led.held := by
  rw [h.led]
  apply Multiset.mem_add.mpr
  refine .inl (Multiset.mem_coe.mpr (List.mem_flatMap.mpr ⟨d, hd, ?_⟩))
  simp [owned]

theorem cdev_mem (h : Serves node m bound) {p : Ptr} {n : ℕ} (hc : .cdev p n ∈ m.led.held) :
    ∃ d ∈ bound, m.drvdata d = p := by
  rw [h.led] at hc
  rcases Multiset.mem_add.mp hc with hc | hc
  · obtain ⟨d, hd, hc⟩ := List.mem_flatMap.mp (Multiset.mem_coe.mp hc)
    have hp : p = m.drvdata d ∧ n = (m.deref (m.drvdata d)).dev := by
      rw [owned] at hc
      simpa using hc
    exact ⟨d, hd, hp.1.symm⟩
  · simp [base] at hc

end Serves

/-! ### The invariant -/

section Inv

variable {F D : Type*}

/-- The life cycle is in order, and what is allocated belongs to the bound
devices. -/
structure Inv (s : State F D) : Prop where
  core : Lifecycle.Inv s.core
  heap : Owned s.core.mod s.core.bound

theorem inv_start : Inv (start : State F D) where
  core := Lifecycle.inv_start
  heap p hl := by cases hl

theorem Inv.put {s : State F D} (hi : Inv s) {h : Host D} (ha : Aside h.mod s.core.mod)
    (files : List (F × Ptr)) : Inv (s.put h files) where
  core := by
    refine ⟨fun hl => ?_, fun hl => ?_⟩
    · obtain ⟨node, hserves⟩ := hi.core.loaded hl
      exact ⟨node, serves_aside hserves ha⟩
    · obtain ⟨hb, hled⟩ := hi.core.idle hl
      exact ⟨hb, ha.led.trans hled⟩
  heap := hi.heap.aside ha

/-- The device at `p` is allocated exactly if a bound device owns it. -/
theorem Inv.live_iff {s : State F D} (hi : Inv s) (p : Ptr) :
    (s.core.mod.heap.get p).isSome = true ↔ ∃ d ∈ s.core.bound, s.core.mod.drvdata d = p := by
  refine ⟨hi.heap p, ?_⟩
  rintro ⟨d, hd, rfl⟩
  rcases hl : s.core.loaded
  · rw [(hi.core.idle hl).1] at hd
    cases hd
  · obtain ⟨node, hserves⟩ := hi.core.loaded hl
    obtain ⟨x, hx⟩ := hserves.live d hd
    rw [hx]
    rfl

/-- A write is safe exactly if it reaches no device, or its device is bound. -/
theorem Inv.write_iff {s : State F D} (hi : Inv s) (hsafe : Safe s) (p : Ptr) (buf : List UInt8)
    (count : ℕ) : (phantom_write p buf count s.host).2.stale = [] ↔
      (count = sizeof_phm_reg → sizeof_phm_reg ≤ buf.length →
        ∃ d ∈ s.core.bound, s.core.mod.drvdata d = p) := by
  by_cases hc : count = sizeof_phm_reg
  swap
  · refine iff_of_true ?_ fun h => absurd h hc
    rw [phantom_write, if_pos hc]
    exact hsafe
  subst hc
  by_cases hb : sizeof_phm_reg ≤ buf.length
  swap
  · refine iff_of_true ?_ fun _ h => absurd h hb
    rw [phantom_write, if_neg (by simp), if_pos (by omega)]
    exact hsafe
  rw [← hi.live_iff]
  constructor
  · intro ht _ _
    by_contra hl
    exact phantom_write_stale (h := s.host) hb (Option.not_isSome_iff_eq_none.mp hl) ht
  · intro hl
    obtain ⟨x, hx⟩ := Option.isSome_iff_exists.mp (hl rfl hb)
    obtain ⟨d, hd, rfl⟩ := hi.heap p (hl rfl hb)
    have hio : Reaches s.core.mod (.io x.iaddr) := by
      rcases hload : s.core.loaded
      · rw [(hi.core.idle hload).1] at hd
        cases hd
      · obtain ⟨node, hserves⟩ := hi.core.loaded hload
        have hmem := iomap_mem hserves hd
        rw [s.core.mod.deref_of hx] at hmem
        exact ⟨_, hmem, beq_self_eq_true _⟩
    rw [phantom_write_eq (h := s.host) hb hx hio]
    exact hsafe

/-- The character device that is found is that of a bound device. -/
theorem Inv.cdev_bound {s : State F D} (hi : Inv s) {dev : Ptr} {number : ℕ}
    (hc : .cdev dev number ∈ s.core.mod.led.held) :
    ∃ d ∈ s.core.bound, s.core.mod.drvdata d = dev := by
  rcases hl : s.core.loaded
  · rw [(hi.core.idle hl).2] at hc
    exact absurd hc (Multiset.notMem_zero _)
  · obtain ⟨node, hserves⟩ := hi.core.loaded hl
    exact cdev_mem hserves hc

/-- Every open file has its device. -/
def Served (s : State F D) : Prop :=
  ∀ x ∈ s.files, ∃ d ∈ s.core.bound, s.core.mod.drvdata d = x.2

/-- What a file operation leaves, if it opens a bound device at most. -/
theorem Served.put {s : State F D} (hv : Served s) {h : Host D} (ha : Aside h.mod s.core.mod)
    {files : List (F × Ptr)} (hf : ∀ x ∈ files, x ∈ s.files ∨
      ∃ d ∈ s.core.bound, s.core.mod.drvdata d = x.2) : Served (s.put h files) := by
  intro x hx
  show ∃ d ∈ s.core.bound, h.mod.drvdata d = x.2
  rw [ha.drvdata]
  rcases hf x hx with hx | hx
  · exact hv x hx
  · exact hx

end Inv

section Files

variable {F D : Type*} [DecidableEq F]

theorem attached_iff {s : State F D} {f : F} {p : Ptr} (hf : s.files.lookup f = some p) :
    Attached s f ↔ ∃ d ∈ s.core.bound, s.core.mod.drvdata d = p := by
  constructor
  · exact fun h => h p hf
  · intro h q hq
    obtain rfl := Option.some.inj (hf.symm.trans hq)
    exact h

theorem Served.attached {s : State F D} (h : Served s) (f : F) : Attached s f := by
  intro p hp
  obtain ⟨l, r, he, -⟩ := List.lookup_eq_some_iff.mp hp
  exact h (f, p) (he ▸ by simp)

theorem Served.plugged {s : State F D} (h : Served s) (e : Ev F D) : Plugged s e := by
  cases e with
  | call ev => trivial
  | phantom_open f dev number interrupted => trivial
  | phantom_write f buf count => exact fun _ _ => h.attached f
  | phantom_release f => exact h.attached f

end Files

/-! ### Every run -/

section Runs

variable {F D : Type*} [DecidableEq D]

/-- A call of the life cycle, if it removes no device in use. -/
theorem Served.call {s : State F D} (hi : Inv s) (hv : Served s) {ev : Lifecycle.Ev D}
    (hu : Unused s (.call ev)) (hx : leaves ev = true → s.files = []) {c : Lifecycle.State D}
    (hc : Lifecycle.step s.core ev = some c) : Served { s with core := c } := by
  intro x hfile
  obtain ⟨d, hd, he⟩ := hv x hfile
  have hidle : s.core.loaded ≠ false := by
    intro hl
    rw [(hi.core.idle hl).1] at hd
    cases hd
  cases Lifecycle.Moves.of_step hc with
  | init hl => exact absurd hl hidle
  | init_error hl => exact absurd hl hidle
  | @probe pdev a t hl hb hp =>
    have hne : d ≠ pdev := fun heq => hb (heq ▸ hd)
    refine ⟨d, List.mem_cons_of_mem _ hd, ?_⟩
    show t.drvdata d = x.2
    rw [(phantom_probe_ok hp).1, Function.update_of_ne hne, he]
  | probe_error hl hp h0 =>
    refine ⟨d, hd, ?_⟩
    rw [(phantom_probe_error hp h0).2.drvdata, he]
  | @remove pdev hl hb =>
    obtain ⟨node, hserves⟩ := hi.core.loaded hl
    have hdrv := (hserves.perm (List.perm_cons_erase hb)).removed.drvdata
    have hne : d ≠ pdev := by
      rintro rfl
      exact hu x hfile he.symm
    refine ⟨d, (List.mem_erase_of_ne hne).mpr hd, ?_⟩
    show (phantom_remove pdev s.core.mod).drvdata d = x.2
    rw [hdrv, he]
  | exit =>
    rw [hx rfl] at hfile
    cases hfile

variable [DecidableEq F]

/-- **Every event keeps it.** -/
theorem Inv.step {s t : State F D} {e : Ev F D} (hi : Inv s) (hs : step s e = some t) : Inv t := by
  cases Moves.of_step hs with
  | call _ hc => exact ⟨hi.core.step hc, hi.heap.step hi.core hc⟩
  | @phantom_open f dev number interrupted p h _ ho
  | @open_error f dev number interrupted err h _ ho =>
    have ha := phantom_open_aside dev interrupted s.host
    rw [ho] at ha
    exact hi.put ha _
  | phantom_write => exact hi.put (phantom_write_aside _ _ _ s.host) _
  | phantom_release => exact hi.put (phantom_release_aside _ s.host) _

/-- **An event** is safe exactly if the device of its file is bound. -/
theorem Inv.safe_iff {s t : State F D} {e : Ev F D} (hi : Inv s) (hsafe : Safe s)
    (hs : Unplug.step s e = some t) : Safe t ↔ Plugged s e := by
  cases Moves.of_step hs with
  | call => exact iff_of_true hsafe trivial
  | @phantom_open f dev number interrupted p h hc ho
  | @open_error f dev number interrupted err h hc ho =>
    obtain ⟨x, hx⟩ := Option.isSome_iff_exists.mp ((hi.live_iff dev).mpr (hi.cdev_bound hc))
    have hstale := phantom_open_stale (h := s.host) interrupted hx
    rw [ho] at hstale
    exact iff_of_true (hstale.trans hsafe) trivial
  | @phantom_write f buf count p hp =>
    show (Files.phantom_write p buf count s.host).2.stale = [] ↔ (_ → _ → Attached s f)
    rw [attached_iff hp]
    exact hi.write_iff hsafe p buf count
  | @phantom_release f p hp =>
    show (Files.phantom_release p s.host).stale = [] ↔ Attached s f
    rw [attached_iff hp, ← hi.live_iff]
    exact phantom_release_stale hsafe

theorem plugged_of_none {s : State F D} {e : Ev F D} (hs : Unplug.step s e = none) :
    Plugged s e := by
  cases e with
  | call ev => trivial
  | phantom_open f dev number interrupted => trivial
  | phantom_write f buf count =>
    intro _ _ p hp
    have hnone := Option.map_eq_none_iff.mp hs
    rw [hp] at hnone
    cases hnone
  | phantom_release f =>
    intro p hp
    have hnone := Option.map_eq_none_iff.mp hs
    rw [hp] at hnone
    cases hnone

/-- **Hot-unplug safety**: no file operation of a run uses what is gone if and
only if files are used only while their devices are bound. -/
theorem unplug_iff (es : List (Ev F D)) : Machine.Visits step Safe (start : State F D) es ↔
    Machine.Always step Plugged (start : State F D) es :=
  Machine.visits_iff_always (I := Inv) (fun _ _ _ hi hs => hi.step hs)
    (fun _ _ _ hi hsafe hs => hi.safe_iff hsafe hs) (fun _ _ _ hs => plugged_of_none hs) es _
    inv_start rfl

/-! ### Devices removed only while nobody uses them -/

theorem Served.step {s t : State F D} {e : Ev F D} (hi : Inv s) (hv : Served s) (hu : Unused s e)
    (hs : Unplug.step s e = some t) : Served t := by
  cases Moves.of_step hs with
  | call hx hc => exact hv.call hi hu hx hc
  | @phantom_open f dev number interrupted p h hc ho =>
    obtain ⟨d, hd, he⟩ := hi.cdev_bound hc
    have ha := phantom_open_aside dev interrupted s.host
    have hp := phantom_open_ok (show (Files.phantom_open dev interrupted s.host).1 = .ok p by rw [ho])
    rw [ho] at ha
    refine hv.put ha fun x hx => ?_
    rcases List.mem_cons.mp hx with rfl | hx
    · exact .inr ⟨d, hd, he.trans hp.symm⟩
    · exact .inl hx
  | @open_error f dev number interrupted err h hc ho =>
    have ha := phantom_open_aside dev interrupted s.host
    rw [ho] at ha
    exact hv.put ha fun x hx => .inl hx
  | phantom_write => exact hv.put (phantom_write_aside _ _ _ s.host) fun x hx => .inl hx
  | phantom_release =>
    exact hv.put (phantom_release_aside _ s.host) fun x hx => .inl (List.mem_of_mem_filter hx)

/-- **A driver whose devices are removed only while no file is open on them** is
safe. -/
theorem safe_of_unused {es : List (Ev F D)} (h : Machine.Always step Unused (start : State F D) es) :
    Machine.Visits step Safe (start : State F D) es := by
  have hall : Machine.Visits step (fun s => Inv s ∧ Served s ∧ Safe s) (start : State F D) es := by
    refine Machine.visits_of_always ⟨inv_start, fun x hx => (by cases hx), rfl⟩ ?_ h
    rintro s e t ⟨hi, hv, hsafe⟩ hu hs
    exact ⟨hi.step hs, hv.step hi hu hs, (hi.safe_iff hsafe hs).mpr (hv.plugged e)⟩
  exact fun pre hp s hs => (hall pre hp s hs).2.2

end Runs

/-! ### A file that outlives its device -/

/-- The kernel refuses nothing. -/
def grants : Answers := ⟨none, none, true, 1, 2, none, none, true⟩

/-- A device is removed while it is open; the file is closed after that. -/
def unplugged : List (Ev Unit Unit) :=
  [.call (.init ⟨.ok 1, .ok 250, none⟩), .call (.probe () grants),
    .phantom_open () 1 (MKDEV 250 0) false, .call (.remove ()), .phantom_release ()]

/-- Closing it reaches for the device. -/
theorem unplugged_stale : ¬ Machine.Visits step Safe start unplugged := by
  intro h
  obtain ⟨s, hs⟩ : ∃ s, Machine.run step start unplugged = some s := ⟨_, rfl⟩
  have hsafe := h unplugged (List.prefix_refl _) s hs
  obtain rfl := Option.some.inj hs
  exact absurd hsafe (by unfold Safe; decide)

end Unplug
end Pb173
