/-
# The exclusive open of the phantom driver (10/example)

`phantom_open` takes `phantom_mutex` and, inside, the `open_lock` of its
device; `phantom_release` takes the `open_lock` alone. Each step of a call is
an event of its own, for any number of files and devices; a file is opened
once, and released once if its open succeeded.

`opened` is itself a lock: an open that finds it 0 takes it, while it holds
the `open_lock`, and the release of that file gives it back (`Inv.opened`).
A call that waits for an `open_lock` waits for one that waits for nothing, so
there is no deadlock (`Inv.live`).
-/
import Pb173.Kernel
import Pb173.Lock

namespace Pb173
namespace Exclusive

/-- Where a file is. -/
inductive Pc (V : Type*)
  | idle
  | lock_phantom_mutex (dev : V)
  | lock_open_lock (dev : V)
  /-- Interrupted, under `phantom_mutex`. -/
  | interrupted
  | check (dev : V)
  /-- The device is busy: both locks are held, or `phantom_mutex` alone. -/
  | busy (dev : V)
  | busy_out
  | private_data (dev : V)
  | increment (dev : V)
  | unlock_open_lock (dev : V)
  | unlock_phantom_mutex (dev : V)
  | opened (dev : V)
  | failed (e : ℤ)
  /-- In `phantom_release`, which finds its device in `private_data`. -/
  | load (dev : V)
  | lock (dev : V)
  | reset (dev : V)
  | unlock (dev : V)
  | closed

/-- The locks, the variables of the devices and the files, and where each file
is. -/
structure State (F V : Type*) where
  phantom_mutex : Option F
  open_lock : V → Option F
  opened : V → ℕ
  private_data : F → Option V
  pc : F → Pc V

/-- A call starts, `mutex_lock_interruptible` is interrupted, or a call takes
its next step. -/
inductive Ev (F V : Type*)
  | phantom_open (f : F) (dev : V)
  | phantom_release (f : F)
  | signal (f : F)
  | go (f : F)

def Ev.file {F V : Type*} : Ev F V → F
  | .phantom_open f _ | .phantom_release f | .signal f | .go f => f

def start {F V : Type*} : State F V := ⟨none, fun _ => none, fun _ => 0, fun _ => none, fun _ => .idle⟩

section Step

variable {F V : Type*} [DecidableEq F]

def State.move (s : State F V) (f : F) (p : Pc V) : State F V :=
  { s with pc := Function.update s.pc f p }

variable [DecidableEq V]

/-- The next step of the call of `f`. -/
def go (s : State F V) (f : F) : Option (State F V) :=
  match s.pc f with
  | .lock_phantom_mutex dev =>
    if s.phantom_mutex = none then
      some { s.move f (.lock_open_lock dev) with phantom_mutex := some f }
    else none
  | .lock_open_lock dev =>
    if s.open_lock dev = none then
      some { s.move f (.check dev) with open_lock := Function.update s.open_lock dev (some f) }
    else none
  | .interrupted => some { s.move f (.failed (-ERESTARTSYS)) with phantom_mutex := none }
  | .check dev => some (s.move f (if s.opened dev ≠ 0 then .busy dev else .private_data dev))
  | .busy dev =>
    some { s.move f .busy_out with open_lock := Function.update s.open_lock dev none }
  | .busy_out => some { s.move f (.failed (-EBUSY)) with phantom_mutex := none }
  | .private_data dev =>
    some { s.move f (.increment dev) with
      private_data := Function.update s.private_data f (some dev) }
  | .increment dev =>
    some { s.move f (.unlock_open_lock dev) with
      opened := Function.update s.opened dev ((s.opened dev + 1) % 2 ^ 32) }
  | .unlock_open_lock dev =>
    some { s.move f (.unlock_phantom_mutex dev) with
      open_lock := Function.update s.open_lock dev none }
  | .unlock_phantom_mutex dev => some { s.move f (.opened dev) with phantom_mutex := none }
  | .load _ => (s.private_data f).map fun dev => s.move f (.lock dev)
  | .lock dev =>
    if s.open_lock dev = none then
      some { s.move f (.reset dev) with open_lock := Function.update s.open_lock dev (some f) }
    else none
  | .reset dev =>
    some { s.move f (.unlock dev) with opened := Function.update s.opened dev 0 }
  | .unlock dev =>
    some { s.move f .closed with open_lock := Function.update s.open_lock dev none }
  | _ => none

def step (s : State F V) : Ev F V → Option (State F V)
  | .phantom_open f dev =>
    match s.pc f with
    | .idle => some (s.move f (.lock_phantom_mutex dev))
    | _ => none
  | .phantom_release f =>
    match s.pc f with
    | .opened dev => some (s.move f (.load dev))
    | _ => none
  | .signal f =>
    match s.pc f with
    | .lock_open_lock _ => some (s.move f .interrupted)
    | _ => none
  | .go f => go s f

end Step

namespace Pc

variable {V : Type*}

/-- Between two calls, or before the first or after the last. -/
def resting : Pc V → Bool
  | .idle | .opened _ | .failed _ | .closed => true
  | _ => false

/-- Under `phantom_mutex`. -/
def inMutex : Pc V → Bool
  | .lock_open_lock _ | .interrupted | .check _ | .busy _ | .busy_out | .private_data _
  | .increment _ | .unlock_open_lock _ | .unlock_phantom_mutex _ => true
  | _ => false

/-- The device under whose `open_lock` it is. -/
def inLock : Pc V → Option V
  | .check dev | .busy dev | .private_data dev | .increment dev | .unlock_open_lock dev
  | .reset dev | .unlock dev => some dev
  | _ => none

/-- The device that it has marked opened: from the increment to the reset. -/
def marks : Pc V → Option V
  | .unlock_open_lock dev | .unlock_phantom_mutex dev | .opened dev | .load dev | .lock dev
  | .reset dev => some dev
  | _ => none

/-- The device that `private_data` points to. -/
def data : Pc V → Option V
  | .increment dev | .unlock_open_lock dev | .unlock_phantom_mutex dev | .opened dev
  | .load dev => some dev
  | _ => none

/-- The device that it has seen not opened, and is about to mark. -/
def admitted : Pc V → Option V
  | .private_data dev | .increment dev => some dev
  | _ => none

/-- Turned away as busy. -/
def denied : Pc V → Prop
  | .busy _ | .busy_out => True
  | .failed e => e = -EBUSY
  | _ => False

/-- Not past the increment. -/
def early : Pc V → Bool
  | .idle | .lock_phantom_mutex _ | .lock_open_lock _ | .interrupted | .check _ | .busy _
  | .busy_out | .private_data _ | .increment _ | .failed _ => true
  | _ => false

end Pc

/-! ### What a step can do -/

section Cases

variable {F V : Type*} [DecidableEq F] [DecidableEq V]

/-- The moves that change nothing but the place. -/
inductive Moves (s : State F V) (f : F) : Pc V → Prop
  | phantom_open (dev : V) (hp : s.pc f = .idle) : Moves s f (.lock_phantom_mutex dev)
  | phantom_release (dev : V) (hp : s.pc f = .opened dev) : Moves s f (.load dev)
  | signal (dev : V) (hp : s.pc f = .lock_open_lock dev) : Moves s f .interrupted
  | busy (dev : V) (hp : s.pc f = .check dev) (ho : s.opened dev ≠ 0) : Moves s f (.busy dev)
  | grant (dev : V) (hp : s.pc f = .check dev) (ho : s.opened dev = 0) :
    Moves s f (.private_data dev)
  | load (dev dev' : V) (hp : s.pc f = .load dev') (hd : s.private_data f = some dev) :
    Moves s f (.lock dev)

/-- Where the lock of `dev` is taken. -/
inductive Locks (dev : V) : Pc V → Pc V → Prop
  | phantom_open : Locks dev (.lock_open_lock dev) (.check dev)
  | phantom_release : Locks dev (.lock dev) (.reset dev)

/-- Where the lock of `dev` is dropped. -/
inductive Unlocks (dev : V) : Pc V → Pc V → Prop
  | busy : Unlocks dev (.busy dev) .busy_out
  | phantom_open : Unlocks dev (.unlock_open_lock dev) (.unlock_phantom_mutex dev)
  | phantom_release : Unlocks dev (.unlock dev) .closed

/-- Where `phantom_open` drops `phantom_mutex` and returns. -/
inductive Returns : Pc V → Pc V → Prop
  | interrupted : Returns .interrupted (.failed (-ERESTARTSYS))
  | busy : Returns .busy_out (.failed (-EBUSY))
  | opened (dev : V) : Returns (.unlock_phantom_mutex dev) (.opened dev)

/-- What a step of the file `f` can do. -/
inductive Step (s : State F V) (f : F) : State F V → Prop
  | move {p : Pc V} (hm : Moves s f p) : Step s f (s.move f p)
  | mutex_lock (dev : V) (hp : s.pc f = .lock_phantom_mutex dev) (hl : s.phantom_mutex = none) :
    Step s f { s.move f (.lock_open_lock dev) with phantom_mutex := some f }
  | mutex_unlock {p : Pc V} (hr : Returns (s.pc f) p) :
    Step s f { s.move f p with phantom_mutex := none }
  | lock {dev : V} {p : Pc V} (hp : Locks dev (s.pc f) p) (hl : s.open_lock dev = none) :
    Step s f { s.move f p with open_lock := Function.update s.open_lock dev (some f) }
  | unlock {dev : V} {p : Pc V} (hp : Unlocks dev (s.pc f) p) :
    Step s f { s.move f p with open_lock := Function.update s.open_lock dev none }
  | private_data (dev : V) (hp : s.pc f = .private_data dev) :
    Step s f { s.move f (.increment dev) with
      private_data := Function.update s.private_data f (some dev) }
  | increment (dev : V) (hp : s.pc f = .increment dev) :
    Step s f { s.move f (.unlock_open_lock dev) with
      opened := Function.update s.opened dev ((s.opened dev + 1) % 2 ^ 32) }
  | reset (dev : V) (hp : s.pc f = .reset dev) :
    Step s f { s.move f (.unlock dev) with opened := Function.update s.opened dev 0 }

theorem Step.of_go {s t : State F V} {f : F} (h : go s f = some t) : Step s f t := by
  unfold go at h
  split at h
  · rename_i dev hp
    split_ifs at h with hl
    obtain rfl := Option.some.inj h
    exact .mutex_lock dev hp hl
  · rename_i dev hp
    split_ifs at h with hl
    obtain rfl := Option.some.inj h
    exact .lock (hp ▸ .phantom_open) hl
  · rename_i hp
    obtain rfl := Option.some.inj h
    exact .mutex_unlock (hp ▸ .interrupted)
  · rename_i dev hp
    obtain rfl := Option.some.inj h
    split_ifs with ho
    · exact .move (.busy dev hp ho)
    · exact .move (.grant dev hp (not_not.mp ho))
  · rename_i dev hp
    obtain rfl := Option.some.inj h
    exact .unlock (hp ▸ .busy)
  · rename_i hp
    obtain rfl := Option.some.inj h
    exact .mutex_unlock (hp ▸ .busy)
  · rename_i dev hp
    obtain rfl := Option.some.inj h
    exact .private_data dev hp
  · rename_i dev hp
    obtain rfl := Option.some.inj h
    exact .increment dev hp
  · rename_i dev hp
    obtain rfl := Option.some.inj h
    exact .unlock (hp ▸ .phantom_open)
  · rename_i dev hp
    obtain rfl := Option.some.inj h
    exact .mutex_unlock (hp ▸ .opened dev)
  · rename_i dev' hp
    obtain ⟨dev, hd, rfl⟩ := Option.map_eq_some_iff.mp h
    exact .move (.load dev dev' hp hd)
  · rename_i dev hp
    split_ifs at h with hl
    obtain rfl := Option.some.inj h
    exact .lock (hp ▸ .phantom_release) hl
  · rename_i dev hp
    obtain rfl := Option.some.inj h
    exact .reset dev hp
  · rename_i dev hp
    obtain rfl := Option.some.inj h
    exact .unlock (hp ▸ .phantom_release)
  · cases h

theorem Step.of_step {s t : State F V} {e : Ev F V} (h : step s e = some t) : Step s e.file t := by
  cases e with
  | phantom_open f dev =>
    simp only [Exclusive.step] at h
    split at h
    · rename_i hp
      obtain rfl := Option.some.inj h
      exact .move (.phantom_open dev hp)
    · cases h
  | phantom_release f =>
    simp only [Exclusive.step] at h
    split at h
    · rename_i dev hp
      obtain rfl := Option.some.inj h
      exact .move (.phantom_release dev hp)
    · cases h
  | signal f =>
    simp only [Exclusive.step] at h
    split at h
    · rename_i dev hp
      obtain rfl := Option.some.inj h
      exact .move (.signal dev hp)
    · cases h
  | go f => exact .of_go h

theorem Step.pc_of_ne {s t : State F V} {f g : F} (h : Step s f t) (hg : g ≠ f) : t.pc g = s.pc g := by
  cases h <;> exact Function.update_of_ne hg ..

end Cases

/-! ### Where the locks are taken and dropped -/

section Places

variable {V : Type*} {dev : V} {p q : Pc V}

theorem Locks.inMutex (h : Locks dev q p) : p.inMutex = q.inMutex := by cases h <;> rfl

theorem Locks.inLock (h : Locks dev q p) : q.inLock = none ∧ p.inLock = some dev := by
  cases h <;> exact ⟨rfl, rfl⟩

theorem Locks.marks (h : Locks dev q p) : p.marks = q.marks := by cases h <;> rfl

theorem Locks.data (h : Locks dev q p) : p.data = none := by cases h <;> rfl

theorem Locks.admitted (h : Locks dev q p) : p.admitted = none := by cases h <;> rfl

theorem Unlocks.inMutex (h : Unlocks dev q p) : p.inMutex = q.inMutex := by cases h <;> rfl

theorem Unlocks.inLock (h : Unlocks dev q p) : q.inLock = some dev ∧ p.inLock = none := by
  cases h <;> exact ⟨rfl, rfl⟩

theorem Unlocks.marks (h : Unlocks dev q p) : p.marks = q.marks := by cases h <;> rfl

theorem Unlocks.data (h : Unlocks dev q p) : p.data = q.data := by cases h <;> rfl

theorem Unlocks.admitted (h : Unlocks dev q p) : p.admitted = none := by cases h <;> rfl

theorem Returns.inMutex (h : Returns q p) : q.inMutex = true ∧ p.inMutex = false := by
  cases h <;> exact ⟨rfl, rfl⟩

theorem Returns.inLock (h : Returns q p) : p.inLock = q.inLock := by cases h <;> rfl

theorem Returns.marks (h : Returns q p) : p.marks = q.marks := by cases h <;> rfl

theorem Returns.data (h : Returns q p) : p.data = q.data := by cases h <;> rfl

theorem Returns.admitted (h : Returns q p) : p.admitted = none := by cases h <;> rfl

theorem Pc.inLock_of_admitted (h : p.admitted = some dev) : p.inLock = some dev := by
  cases p <;> first
    | exact h
    | cases h

theorem Pc.resting_of_inLock (h : p.inLock = some dev) : p.resting = false := by
  cases p <;> first
    | rfl
    | cases h

theorem Pc.resting_of_inMutex (h : p.inMutex = true) : p.resting = false := by
  cases p <;> first
    | rfl
    | exact Bool.noConfusion h

end Places

/-! ### The invariant -/

section Inv

variable {F V : Type*} {s t : State F V} {f : F} {p : Pc V}

/-- Each lock is held by the file inside, `opened` by the one that has marked
the device, `private_data` is what was stored, and a file that has seen its
device not opened is not wrong. -/
structure Inv (s : State F V) : Prop where
  mutex : Lock.Excl Pc.inMutex s.phantom_mutex s.pc
  lock : Lock.Excls Pc.inLock s.open_lock s.pc
  opened : ∃ owner : V → Option F, Lock.Excls Pc.marks owner s.pc ∧
    ∀ dev, s.opened dev = if (owner dev).isSome then 1 else 0
  data : ∀ f dev, (s.pc f).data = some dev → s.private_data f = some dev
  admitted : ∀ f dev, (s.pc f).admitted = some dev → s.opened dev = 0

theorem inv_start : Inv (start : State F V) where
  mutex f := by simp [start, Pc.inMutex]
  lock f dev := by simp [start, Pc.inLock]
  opened := ⟨fun _ => none, fun f dev => by simp [start, Pc.marks], fun _ => rfl⟩
  data f dev h := by cases h
  admitted f dev h := by cases h

theorem Inv.moves_marks (hi : Inv s) (h : Moves s f p) : p.marks = (s.pc f).marks := by
  cases h with
  | load dev dev' hp hd =>
    have hd' := hi.data f dev' (by rw [hp]; rfl)
    rw [hd'] at hd
    rw [hp]
    exact hd.symm
  | _ => simp [*, Pc.marks]

theorem Inv.opened_of_marks (hi : Inv s) {dev : V} (hm : (s.pc f).marks = some dev) :
    s.opened dev = 1 := by
  obtain ⟨owner, howner, ho⟩ := hi.opened
  rw [ho dev, (howner f dev).mp hm]
  rfl

theorem Inv.opened_of_not_marks (hi : Inv s) {dev : V} (hm : ∀ f, (s.pc f).marks ≠ some dev) :
    s.opened dev = 0 := by
  obtain ⟨owner, howner, ho⟩ := hi.opened
  rw [ho dev]
  rcases hown : owner dev with _ | g
  · rfl
  · exact absurd ((howner g dev).mpr hown) (hm g)

theorem Inv.opened_eq_one (hi : Inv s) {dev : V} (h0 : s.opened dev ≠ 0) : s.opened dev = 1 := by
  by_contra h1
  apply h0
  apply hi.opened_of_not_marks
  intro g hg
  exact h1 (hi.opened_of_marks hg)

theorem Inv.unlocked (hi : Inv s) (hr : (s.pc f).resting = true) :
    s.phantom_mutex ≠ some f ∧ ∀ dev, s.open_lock dev ≠ some f := by
  constructor
  · intro hm
    have hrun := Pc.resting_of_inMutex ((hi.mutex f).mpr hm)
    exact absurd hr (by rw [hrun]; decide)
  · intro dev hl
    have hrun := Pc.resting_of_inLock ((hi.lock f dev).mpr hl)
    exact absurd hr (by rw [hrun]; decide)

variable [DecidableEq F] [DecidableEq V]

theorem Inv.mutex_step (hi : Inv s) (h : Step s f t) :
    Lock.Excl Pc.inMutex t.phantom_mutex t.pc := by
  have hm := hi.mutex
  cases h with
  | move hmove => exact hm.move (by cases hmove <;> simp [*, Pc.inMutex])
  | mutex_lock dev hp hl =>
    rw [hl] at hm
    exact hm.acquire rfl
  | mutex_unlock hr => exact hm.release hr.inMutex.1 hr.inMutex.2
  | lock hp | unlock hp => exact hm.move hp.inMutex
  | private_data dev hp | increment dev hp | reset dev hp => exact hm.move (by rw [hp]; rfl)

theorem Inv.lock_step (hi : Inv s) (h : Step s f t) : Lock.Excls Pc.inLock t.open_lock t.pc := by
  have hm := hi.lock
  cases h with
  | move hmove => exact hm.move (by cases hmove <;> simp [*, Pc.inLock])
  | mutex_unlock hr => exact hm.move hr.inLock
  | lock hp hl => exact hm.acquire hl hp.inLock.1 hp.inLock.2
  | unlock hp => exact hm.release hp.inLock.1 hp.inLock.2
  | mutex_lock dev hp | private_data dev hp | increment dev hp | reset dev hp =>
    exact hm.move (by rw [hp]; rfl)

theorem Inv.opened_step (hi : Inv s) (h : Step s f t) :
    ∃ owner : V → Option F, Lock.Excls Pc.marks owner t.pc ∧
      ∀ dev, t.opened dev = if (owner dev).isSome then 1 else 0 := by
  obtain ⟨owner, hm, ho⟩ := hi.opened
  cases h with
  | move hmove => exact ⟨owner, hm.move (hi.moves_marks hmove), ho⟩
  | mutex_unlock hp | lock hp | unlock hp => exact ⟨owner, hm.move hp.marks, ho⟩
  | mutex_lock dev hp | private_data dev hp => exact ⟨owner, hm.move (by rw [hp]; rfl), ho⟩
  | increment dev hp =>
    -- the device has not been marked since it was looked at
    have h0 : s.opened dev = 0 := hi.admitted f dev (by rw [hp]; rfl)
    have hfree : owner dev = none := by
      have hd := ho dev
      rw [h0] at hd
      rcases hown : owner dev with _ | g
      · rfl
      · rw [hown] at hd
        cases hd
    refine ⟨_, hm.acquire hfree (by rw [hp]; rfl) rfl, fun d => ?_⟩
    show Function.update s.opened dev _ d = _
    by_cases hd : d = dev
    · subst hd
      rw [Function.update_self, Function.update_self, h0]
      rfl
    · rw [Function.update_of_ne hd, Function.update_of_ne hd]
      exact ho d
  | reset dev hp =>
    refine ⟨_, hm.release (v := dev) (by rw [hp]; rfl) rfl, fun d => ?_⟩
    show Function.update s.opened dev _ d = _
    by_cases hd : d = dev
    · subst hd
      rw [Function.update_self, Function.update_self]
      rfl
    · rw [Function.update_of_ne hd, Function.update_of_ne hd]
      exact ho d

/-- Where the place says that `private_data` is set, it was so before the step,
or the step sets it. -/
theorem Inv.data_step (hi : Inv s) (h : Step s f t) {g : F} {dev : V}
    (hd : (t.pc g).data = some dev) : t.private_data g = some dev := by
  by_cases hg : g = f
  swap
  · rw [h.pc_of_ne hg] at hd
    have hs := hi.data g dev hd
    cases h with
    | private_data dev' _ =>
      show Function.update s.private_data f _ g = _
      rw [Function.update_of_ne hg, hs]
    | _ => exact hs
  subst hg
  have hkeep := hi.data g dev
  cases h with
  | move hmove =>
    apply hkeep
    simp only [State.move, Function.update_self] at hd
    cases hmove with
    | phantom_release dev' hp =>
      rw [hp]
      exact hd
    | _ => cases hd
  | mutex_unlock hp | unlock hp =>
    simp only [State.move, Function.update_self] at hd
    exact hkeep (hp.data ▸ hd)
  | lock hp =>
    simp only [State.move, Function.update_self] at hd
    rw [hp.data] at hd
    cases hd
  | private_data dev' _ =>
    simp only [State.move, Function.update_self] at hd ⊢
    exact hd
  | increment dev' hp =>
    simp only [State.move, Function.update_self] at hd
    apply hkeep
    rw [hp]
    exact hd
  | mutex_lock | reset =>
    simp only [State.move, Function.update_self] at hd
    cases hd

/-- Nobody else changes `opened` under the lock of the device. -/
theorem Inv.admitted_step (hi : Inv s) (h : Step s f t) {g : F} {dev : V}
    (ha : (t.pc g).admitted = some dev) : t.opened dev = 0 := by
  have hold : (s.pc g).admitted = some dev → s.opened dev = 0 := hi.admitted g dev
  by_cases hg : g = f
  · subst hg
    cases h with
    | move hmove =>
      simp only [State.move, Function.update_self] at ha
      cases hmove with
      | grant dev' hp ho =>
        obtain rfl := Option.some.inj ha
        exact ho
      | _ => cases ha
    | mutex_unlock hp | lock hp | unlock hp =>
      simp only [State.move, Function.update_self, hp.admitted] at ha
      cases ha
    | private_data dev' hp =>
      simp only [State.move, Function.update_self] at ha
      apply hold
      rw [hp]
      exact ha
    | mutex_lock | increment | reset =>
      simp only [State.move, Function.update_self] at ha
      cases ha
  · rw [h.pc_of_ne hg] at ha
    have hlock := Pc.inLock_of_admitted ha
    have hne : ∀ {d : V}, (s.pc f).inLock = some d → dev ≠ d := by
      rintro d hf rfl
      exact hg (hi.lock.unique hlock hf)
    cases h with
    | increment dev' hp | reset dev' hp =>
      show Function.update s.opened dev' _ dev = 0
      rw [Function.update_of_ne (hne (by rw [hp]; rfl))]
      exact hold ha
    | _ => exact hold ha

/-- **Every step keeps it.** -/
theorem Inv.step (hi : Inv s) (h : Step s f t) : Inv t :=
  ⟨hi.mutex_step h, hi.lock_step h, hi.opened_step h, fun _ _ => hi.data_step h,
    fun _ _ => hi.admitted_step h⟩

/-! ### Nobody waits for ever -/

theorem go_of_lock {dev : V} (h : (s.pc f).inLock = some dev) : ∃ t, go s f = some t := by
  unfold go
  cases hp : s.pc f <;> rw [hp] at h <;> first
    | exact ⟨_, rfl⟩
    | cases h

/-- A call is running that can go on. -/
def Live (s : State F V) : Prop := ∃ g, (s.pc g).resting = false ∧ ∃ t, go s g = some t

/-- A call that waits for the lock of a device takes it, or its holder goes on. -/
theorem Inv.live_of_wait (hi : Inv s) {dev : V}
    (hp : s.pc f = .lock_open_lock dev ∨ s.pc f = .lock dev) : Live s := by
  rcases hl : s.open_lock dev with _ | g
  · have hrun : (s.pc f).resting = false := by
      rcases hp with hp | hp <;> rw [hp] <;> rfl
    have hgo : ∃ t, go s f = some t := by
      unfold go
      rcases hp with hp | hp <;> rw [hp] <;> exact ⟨_, if_pos hl⟩
    exact ⟨f, hrun, hgo⟩
  · have hg : (s.pc g).inLock = some dev := (hi.lock g dev).mpr hl
    exact ⟨g, Pc.resting_of_inLock hg, go_of_lock hg⟩

/-- Who holds `phantom_mutex` waits for the lock of a device at most. -/
theorem Inv.live_of_mutex (hi : Inv s) (hf : (s.pc f).inMutex = true) : Live s := by
  have hrun := Pc.resting_of_inMutex hf
  cases hp : s.pc f with
  | lock_open_lock dev => exact hi.live_of_wait (.inl hp)
  | interrupted | busy_out | unlock_phantom_mutex dev =>
    refine ⟨f, hrun, ?_⟩
    unfold go
    rw [hp]
    exact ⟨_, rfl⟩
  | _ =>
    rw [hp] at hf
    first
      | exact Bool.noConfusion hf
      | exact ⟨f, hrun, go_of_lock (by rw [hp]; rfl)⟩

/-- **No deadlock**: while a call is running, one can go on. -/
theorem Inv.live (hi : Inv s) (hf : (s.pc f).resting = false) : Live s := by
  rcases hm : s.phantom_mutex with _ | g
  swap
  · exact hi.live_of_mutex ((hi.mutex g).mpr hm)
  -- nobody is under `phantom_mutex`, and the call is not
  have hout : (s.pc f).inMutex = false := by
    have hx := hi.mutex
    rw [hm] at hx
    exact hx.out f
  cases hp : s.pc f with
  | lock_phantom_mutex dev =>
    refine ⟨f, hf, ?_⟩
    unfold go
    rw [hp]
    exact ⟨_, if_pos hm⟩
  | load dev =>
    have hd := hi.data f dev (by rw [hp]; rfl)
    refine ⟨f, hf, ?_⟩
    unfold go
    rw [hp, hd]
    exact ⟨_, rfl⟩
  | lock dev => exact hi.live_of_wait (.inr hp)
  | reset dev | unlock dev => exact ⟨f, hf, go_of_lock (by rw [hp]; rfl)⟩
  | _ =>
    rw [hp] at hf hout
    first
      | exact Bool.noConfusion hf
      | exact Bool.noConfusion hout

end Inv

/-! ### Every run -/

section Runs

variable {F V : Type*} [DecidableEq F] [DecidableEq V] {s t : State F V} {f : F}

/-- No step of the file has changed `opened`. -/
def Quiet (f : F) (es : List (Ev F V)) : Prop :=
  Machine.Always step (fun s e => e.file = f → ∀ t, step s e = some t → t.opened = s.opened) start es

/-- The file found its device marked when it checked it. -/
def Busy (f : F) (es : List (Ev F V)) : Prop :=
  ∃ pre s dev, pre ++ [.go f] <+: es ∧ Machine.run step start pre = some s ∧
    s.pc f = .check dev ∧ s.opened dev = 1

theorem Busy.mono {es fs : List (Ev F V)} (h : Busy f es) (hp : es <+: fs) : Busy f fs := by
  obtain ⟨pre, s, dev, h1, h2⟩ := h
  exact ⟨pre, s, dev, h1.trans hp, h2⟩

/-- Before the increment, and on the ways out of a failed open, nothing has been
changed. -/
theorem Step.early (h : Step s f t) (he : (t.pc f).early = true) :
    (s.pc f).early = true ∧ t.opened = s.opened := by
  cases h with
  | move hm =>
    simp only [State.move, Function.update_self] at he
    cases hm <;> first
      | exact ⟨by rw [‹s.pc f = _›]; rfl, rfl⟩
      | cases he
  | mutex_lock dev hp | private_data dev hp => exact ⟨by rw [hp]; rfl, rfl⟩
  | mutex_unlock hp | lock hp | unlock hp =>
    simp only [State.move, Function.update_self] at he
    generalize s.pc f = q at hp
    cases hp <;> first
      | exact ⟨rfl, rfl⟩
      | cases he
  | increment | reset =>
    simp only [State.move, Function.update_self] at he
    cases he

/-- A file is turned away when it finds its device marked. -/
theorem Step.denied (h : Step s f t) (hd : (t.pc f).denied) :
    (s.pc f).denied ∨ ∃ dev, s.pc f = .check dev ∧ s.opened dev ≠ 0 := by
  cases h with
  | move hm =>
    simp only [State.move, Function.update_self] at hd
    cases hm with
    | busy dev hp ho => exact .inr ⟨dev, hp, ho⟩
    | _ => cases hd
  | mutex_unlock hr =>
    simp only [State.move, Function.update_self] at hd
    generalize s.pc f = q at hr
    cases hr with
    | interrupted => exact absurd (show -ERESTARTSYS = -EBUSY from hd) (by decide)
    | busy => exact .inl trivial
    | opened dev => cases hd
  | lock hp _ =>
    simp only [State.move, Function.update_self] at hd
    generalize s.pc f = q at hp
    cases hp <;> cases hd
  | unlock hp =>
    simp only [State.move, Function.update_self] at hd
    generalize s.pc f = q at hp
    cases hp with
    | busy => exact .inl trivial
    | _ => cases hd
  | mutex_lock | private_data | increment | reset =>
    simp only [State.move, Function.update_self] at hd
    cases hd

theorem go_of_check {e : Ev F V} {dev : V} (h : step s e = some t) (hp : s.pc e.file = .check dev) :
    e = .go e.file := by
  cases e with
  | go f => rfl
  | _ =>
    simp only [Ev.file] at hp
    simp [step, hp] at h

/-- What a state of a run is, with what came before. -/
structure Hist (es : List (Ev F V)) (s : State F V) : Prop where
  inv : Inv s
  early : ∀ f, (s.pc f).early = true → Quiet f es
  denied : ∀ f, (s.pc f).denied → Busy f es

theorem hist_run {es : List (Ev F V)} (h : Machine.run step start es = some s) : Hist es s := by
  refine Machine.run_hist step Hist ⟨inv_start, fun _ _ => Machine.always_nil, fun _ hd => ?_⟩ ?_ es s h
  · cases hd
  intro es s e t hr hh he
  have hs := Step.of_step he
  refine ⟨hh.inv.step hs, fun f hf => ?_, fun f hf => ?_⟩
  · by_cases hfe : f = e.file
    · subst hfe
      obtain ⟨hold, hsame⟩ := hs.early hf
      refine (hh.early _ hold).concat fun s' hs' _ t' ht' => ?_
      obtain rfl := Option.some.inj (hr.symm.trans hs')
      obtain rfl := Option.some.inj (he.symm.trans ht')
      exact hsame
    · rw [hs.pc_of_ne hfe] at hf
      exact (hh.early f hf).concat fun s' _ heq => absurd heq.symm hfe
  · by_cases hfe : f = e.file
    · subst hfe
      rcases hs.denied hf with hold | ⟨dev, hp, ho⟩
      · exact (hh.denied _ hold).mono (List.prefix_append _ _)
      · refine ⟨es, s, dev, ?_, hr, hp, ?_⟩
        · rw [← go_of_check he hp]
        · exact hh.inv.opened_eq_one ho
    · rw [hs.pc_of_ne hfe] at hf
      exact (hh.denied f hf).mono (List.prefix_append _ _)

/-- What is promised of the opens and releases, after the events `es`. -/
structure Contract (es : List (Ev F V)) (s : State F V) : Prop where
  /-- An open file is one that has marked its device, which `private_data` points
  to; no other file has. -/
  opened : ∀ f dev, s.pc f = .opened dev →
    (s.pc f).marks = some dev ∧ s.private_data f = some dev
  exclusive : ∀ f g dev, (s.pc f).marks = some dev → (s.pc g).marks = some dev → f = g
  marked : ∀ dev, (∃ f, (s.pc f).marks = some dev) → s.opened dev = 1
  unmarked : ∀ dev, (∀ f, (s.pc f).marks ≠ some dev) → s.opened dev = 0
  busy : ∀ f, s.pc f = .failed (-EBUSY) → Busy f es
  failed : ∀ f e, s.pc f = .failed e → Quiet f es
  unlocked : ∀ f, (s.pc f).resting = true →
    s.phantom_mutex ≠ some f ∧ ∀ dev, s.open_lock dev ≠ some f
  live : ∀ f, (s.pc f).resting = false →
    ∃ g, (s.pc g).resting = false ∧ ∃ t, step s (.go g) = some t

/-- **The exclusive open**, over every interleaving. -/
theorem exclusive_open {es : List (Ev F V)} (h : Machine.run step start es = some s) :
    Contract es s := by
  obtain ⟨hi, hearly, hdenied⟩ := hist_run h
  obtain ⟨owner, hmarks, -⟩ := hi.opened
  exact {
    opened := fun f dev hp => ⟨by rw [hp]; rfl, hi.data f dev (by rw [hp]; rfl)⟩
    exclusive := fun _ _ _ hf hg => hmarks.unique hf hg
    marked := fun dev ⟨f, hf⟩ => hi.opened_of_marks hf
    unmarked := fun dev hm => hi.opened_of_not_marks hm
    busy := fun f hp => hdenied f (by rw [hp]; rfl)
    failed := fun f e hp => hearly f (by rw [hp]; rfl)
    unlocked := fun f hr => hi.unlocked hr
    live := fun f hf => hi.live hf }

end Runs

/-- Two files on one device: the first is open when the second comes. -/
def second : List (Ev Bool Unit) :=
  .phantom_open false () :: List.replicate 7 (.go false) ++
    .phantom_open true () :: List.replicate 5 (.go true)

/-- The second is turned away. -/
theorem exclusive_open_second : ∃ s, Machine.run step start second = some s ∧
    (∃ dev, s.pc false = .opened dev) ∧ s.pc true = .failed (-EBUSY) ∧ Contract second s := by
  obtain ⟨s, hs⟩ : ∃ s, Machine.run step start second = some s := ⟨_, rfl⟩
  refine ⟨s, hs, ?_, ?_, exclusive_open hs⟩
  · obtain rfl := Option.some.inj hs
    exact ⟨(), rfl⟩
  · obtain rfl := Option.some.inj hs
    rfl

end Exclusive
end Pb173
