/-
# Opens and releases under a spin lock (04, 06)

`my_open`, `my_release`, `my_write_open` and `my_write_release` are one
pattern: take a spin lock, read a global, update it, drop the lock, return.
`my_write_open` decides from the value it read whether it admits the file,
and acts on that after the unlock; the calls of a file not opened for
writing skip the whole section.

Each of these steps is an event of its own, for any number of files. A file
is opened once, released once if its open succeeded, and never otherwise.
A process that opens twice is two files.
-/
import Pb173.Lock
import Mathlib.Data.Set.Card
import Mathlib.Data.BitVec

namespace Pb173
namespace Opens

/-- The two calls of a file. -/
inductive Op
  | opening
  | releasing
deriving DecidableEq

/-- What a call does to the variable under the lock. -/
structure Call (α : Type*) where
  /-- The new value, from the value read and the current one. -/
  store : α → α → α
  /-- Whether the call succeeds, from the value read. -/
  ok : α → Bool

/-- `my_write_open`: it fails with `-EBUSY` if `dev_unavailable`. -/
def my_write_open : Call ℤ where
  store dev_unavailable writers := if dev_unavailable = 0 then writers + 1 else writers
  ok dev_unavailable := decide (dev_unavailable = 0)

/-- `my_write_release`. -/
def my_write_release : Call ℤ where
  store v _ := v - 1
  ok _ := true

/-- `my_open`. -/
def my_open : Call (BitVec 32) where
  store v _ := v + 1
  ok _ := true

/-- `my_release`. -/
def my_release : Call (BitVec 32) where
  store v _ := v - 1
  ok _ := true

/-- The file operations of a device. -/
structure Fops (α : Type*) where
  opens : Call α
  release : Call α

/-- `buf_write_fops`. -/
def buf_write_fops : Fops ℤ := ⟨my_write_open, my_write_release⟩

/-- `my_fops`. -/
def my_fops : Fops (BitVec 32) := ⟨my_open, my_release⟩

def Fops.call {α : Type*} (D : Fops α) : Op → Call α
  | .opening => D.opens
  | .releasing => D.release

/-- Where a file is. `v` is the value its call has read. -/
inductive Pc (α : Type*)
  | idle
  | wait (op : Op)
  | locked (op : Op)
  | loaded (op : Op) (v : α)
  | stored (op : Op) (v : α)
  | unlocked (op : Op) (v : α)
  /-- Past the test of `f_mode`, without the lock. -/
  | skipped (op : Op)
  | opened
  /-- The open returned `-EBUSY`. -/
  | failed
  | closed

def Pc.crit {α : Type*} : Pc α → Bool
  | .locked _ | .loaded _ _ | .stored _ _ => true
  | _ => false

/-- The steps of a call. -/
inductive Act
  | enter
  | lock
  | load
  | store
  | unlock
  | ret
deriving DecidableEq

structure Ev (ι : Type*) where
  act : Act
  op : Op
  i : ι
deriving DecidableEq

/-- The variable, its lock, and where each file is. -/
structure State (ι α : Type*) where
  var : α
  lock : Option ι
  pc : ι → Pc α

/-- What a file is after a call that read `v` has returned. -/
def after {α : Type*} (D : Fops α) : Op → α → Pc α
  | .opening, v => if D.opens.ok v then .opened else .failed
  | .releasing, _ => .closed

/-- What a file is after a call that skipped the section. -/
def afterSkip {α : Type*} : Op → Pc α
  | .opening => .opened
  | .releasing => .closed

/-- Where a call starts: `b` is the test of `f_mode`. -/
def entry {α : Type*} (b : Bool) (op : Op) : Pc α := if b then .wait op else .skipped op

section Machine

variable {ι α : Type*} [DecidableEq ι] (D : Fops α) (touches : ι → Bool)

/-- A step; `touches i` is the test of `f_mode`. -/
def step (s : State ι α) (e : Ev ι) : Option (State ι α) :=
  match e.act, s.pc e.i with
  | .enter, .idle =>
    if e.op = .opening then
      some { s with pc := Function.update s.pc e.i (entry (touches e.i) e.op) }
    else none
  | .enter, .opened =>
    if e.op = .releasing then
      some { s with pc := Function.update s.pc e.i (entry (touches e.i) e.op) }
    else none
  | .lock, .wait op =>
    if e.op = op ∧ s.lock = none then
      some { s with lock := some e.i, pc := Function.update s.pc e.i (.locked op) }
    else none
  | .load, .locked op =>
    if e.op = op then some { s with pc := Function.update s.pc e.i (.loaded op s.var) } else none
  | .store, .loaded op v =>
    if e.op = op then
      some { s with
        var := (D.call op).store v s.var
        pc := Function.update s.pc e.i (.stored op v) }
    else none
  | .unlock, .stored op v =>
    if e.op = op then
      some { s with lock := none, pc := Function.update s.pc e.i (.unlocked op v) }
    else none
  | .ret, .unlocked op v =>
    if e.op = op then some { s with pc := Function.update s.pc e.i (after D op v) } else none
  | .ret, .skipped op =>
    if e.op = op then some { s with pc := Function.update s.pc e.i (afterSkip op) } else none
  | _, _ => none

/-- No file is open. -/
def start (v : α) : State ι α := ⟨v, none, fun _ => .idle⟩

variable {D touches} {s t : State ι α}

variable (D touches) in
/-- What a step can do. -/
inductive Step (s : State ι α) (e : Ev ι) : State ι α → Prop
  | enter (ha : e.act = .enter)
    (hp : (s.pc e.i = .idle ∧ e.op = .opening) ∨ (s.pc e.i = .opened ∧ e.op = .releasing)) :
    Step s e { s with pc := Function.update s.pc e.i (entry (touches e.i) e.op) }
  | lock (ha : e.act = .lock) (hp : s.pc e.i = .wait e.op) (hl : s.lock = none) :
    Step s e { s with lock := some e.i, pc := Function.update s.pc e.i (.locked e.op) }
  | load (ha : e.act = .load) (hp : s.pc e.i = .locked e.op) :
    Step s e { s with pc := Function.update s.pc e.i (.loaded e.op s.var) }
  | store (v : α) (ha : e.act = .store) (hp : s.pc e.i = .loaded e.op v) :
    Step s e { s with
      var := (D.call e.op).store v s.var
      pc := Function.update s.pc e.i (.stored e.op v) }
  | unlock (v : α) (ha : e.act = .unlock) (hp : s.pc e.i = .stored e.op v) :
    Step s e { s with lock := none, pc := Function.update s.pc e.i (.unlocked e.op v) }
  | ret (v : α) (ha : e.act = .ret) (hp : s.pc e.i = .unlocked e.op v) :
    Step s e { s with pc := Function.update s.pc e.i (after D e.op v) }
  | skip (ha : e.act = .ret) (hp : s.pc e.i = .skipped e.op) :
    Step s e { s with pc := Function.update s.pc e.i (afterSkip e.op) }

theorem Step.of_step {e : Ev ι} (h : step D touches s e = some t) : Step D touches s e t := by
  unfold step at h
  split at h
  · rename_i ha hp
    split_ifs at h with ho
    obtain rfl := Option.some.inj h
    exact .enter ha (.inl ⟨hp, ho⟩)
  · rename_i ha hp
    split_ifs at h with ho
    obtain rfl := Option.some.inj h
    exact .enter ha (.inr ⟨hp, ho⟩)
  · rename_i op ha hp
    split_ifs at h with ho
    obtain ⟨rfl, hl⟩ := ho
    obtain rfl := Option.some.inj h
    exact .lock ha hp hl
  · rename_i op ha hp
    split_ifs at h with ho
    subst ho
    obtain rfl := Option.some.inj h
    exact .load ha hp
  · rename_i op v ha hp
    split_ifs at h with ho
    subst ho
    obtain rfl := Option.some.inj h
    exact .store v ha hp
  · rename_i op v ha hp
    split_ifs at h with ho
    subst ho
    obtain rfl := Option.some.inj h
    exact .unlock v ha hp
  · rename_i op v ha hp
    split_ifs at h with ho
    subst ho
    obtain rfl := Option.some.inj h
    exact .ret v ha hp
  · rename_i op ha hp
    split_ifs at h with ho
    subst ho
    obtain rfl := Option.some.inj h
    exact .skip ha hp
  · cases h

theorem step_pc_of_ne {e : Ev ι} {i : ι} (h : step D touches s e = some t) (hi : i ≠ e.i) :
    t.pc i = s.pc i := by
  cases Step.of_step h <;> exact Function.update_of_ne hi ..

/-! ### What every device keeps -/

/-- On the way through the section, or turned away by it. -/
def Pc.onPath : Pc α → Bool
  | .wait _ | .locked _ | .loaded _ _ | .stored _ _ | .unlocked _ _ | .failed => true
  | _ => false

def Pc.isSkipped : Pc α → Bool
  | .skipped _ => true
  | _ => false

/-- The lock excludes, a value read is still current, and the path is that of
the files whose calls take the lock. -/
structure Inv (touches : ι → Bool) (s : State ι α) : Prop where
  excl : Lock.Excl Pc.crit s.lock s.pc
  fresh : ∀ i op v, s.pc i = .loaded op v → v = s.var
  onPath : ∀ i, (s.pc i).onPath = true → touches i = true
  skipped : ∀ i, (s.pc i).isSkipped = true → touches i = false

omit [DecidableEq ι] in
theorem inv_start (v : α) : Inv touches (start v) where
  excl i := by simp [start, Pc.crit]
  fresh i op w h := by simp [start] at h
  onPath i h := by simp [start, Pc.onPath] at h
  skipped i h := by simp [start, Pc.isSkipped] at h

/-- Moving file `i` to `p` keeps the invariant, if `p` does. -/
theorem Inv.move (h : Inv touches s) {i : ι} {p : Pc α} {x : α} {lock : Option ι}
    (hexcl : Lock.Excl Pc.crit lock (Function.update s.pc i p))
    (hfresh : ∀ op v, p = .loaded op v → v = x)
    (hvar : ∀ j, j ≠ i → (s.pc j).crit = true → x = s.var)
    (hpath : p.onPath = true → touches i = true)
    (hskip : p.isSkipped = true → touches i = false) :
    Inv touches { s with var := x, lock := lock, pc := Function.update s.pc i p } := by
  refine ⟨hexcl, fun j op v hj => ?_, fun j hj => ?_, fun j hj => ?_⟩
  · by_cases hji : j = i
    · subst hji
      exact hfresh op v (by simpa using hj)
    · have hj' : s.pc j = .loaded op v := by simpa [hji] using hj
      rw [h.fresh j op v hj', hvar j hji (by rw [hj']; rfl)]
  · by_cases hji : j = i
    · subst hji
      exact hpath (by simpa using hj)
    · exact h.onPath j (by simpa [hji] using hj)
  · by_cases hji : j = i
    · subst hji
      exact hskip (by simpa using hj)
    · exact h.skipped j (by simpa [hji] using hj)

theorem Inv.along (h : Inv touches s) {i : ι} {p : Pc α} {x : α} {lock : Option ι}
    (hon : (s.pc i).onPath = true)
    (hexcl : Lock.Excl Pc.crit lock (Function.update s.pc i p))
    (hfresh : ∀ op v, p = .loaded op v → v = x)
    (hvar : ∀ j, j ≠ i → (s.pc j).crit = true → x = s.var)
    (hskip : p.isSkipped = false) :
    Inv touches { s with var := x, lock := lock, pc := Function.update s.pc i p } := by
  apply h.move hexcl hfresh hvar
  · exact fun _ => h.onPath i hon
  · intro hs
    rw [hskip] at hs
    cases hs

theorem after_cases (op : Op) (v : α) :
    after D op v = .opened ∨ after D op v = .failed ∨ after D op v = .closed := by
  cases op with
  | opening => cases hok : D.opens.ok v <;> simp [after, hok]
  | releasing => exact .inr (.inr rfl)

theorem after_not_crit (op : Op) (v : α) : (after D op v).crit = false := by
  rcases after_cases (D := D) op v with h | h | h <;> rw [h] <;> rfl

theorem entry_not_crit (b : Bool) (op : Op) : (entry b op : Pc α).crit = false := by
  cases b <;> rfl

theorem afterSkip_not_crit (op : Op) : (afterSkip op : Pc α).crit = false := by
  cases op <;> rfl

theorem after_not_skipped (op : Op) (v : α) : (after D op v).isSkipped = false := by
  rcases after_cases (D := D) op v with h | h | h <;> rw [h] <;> rfl

theorem Pc.ne_loaded {p : Pc α} (hp : p.crit = false) {op : Op} {v x : α} (h : p = .loaded op v) :
    v = x := by
  rw [h] at hp
  cases hp

theorem step_inv (h : Inv touches s) {e : Ev ι} (he : step D touches s e = some t) :
    Inv touches t := by
  cases Step.of_step he with
  | enter _ hp =>
    have hc : (s.pc e.i).crit = false := by
      rcases hp with ⟨hp, -⟩ | ⟨hp, -⟩ <;> rw [hp] <;> rfl
    have hnc := entry_not_crit (α := α) (touches e.i) e.op
    refine h.move (h.excl.move (by rw [hc, hnc])) (fun _ _ => Pc.ne_loaded hnc)
      (fun _ _ _ => rfl) ?_ ?_
    · intro hv
      cases hb : touches e.i with
      | true => rfl
      | false =>
        rw [hb] at hv
        cases hv
    · intro hv
      cases hb : touches e.i with
      | true =>
        rw [hb] at hv
        cases hv
      | false => rfl
  | lock _ hp hl =>
    have hexcl := h.excl
    rw [hl] at hexcl
    exact h.along (by rw [hp]; rfl) (hexcl.acquire rfl) nofun (fun _ _ _ => rfl) rfl
  | load _ hp =>
    refine h.along (by rw [hp]; rfl) (h.excl.move (by rw [hp]; rfl)) (fun _ _ hv => ?_)
      (fun _ _ _ => rfl) rfl
    cases hv
    rfl
  | store v _ hp =>
    have hcr : (s.pc e.i).crit = true := by rw [hp]; rfl
    exact h.along (by rw [hp]; rfl) (h.excl.move (by rw [hp]; rfl)) nofun
      (fun j hj hc => absurd (h.excl.unique hc hcr) hj) rfl
  | unlock v _ hp =>
    have hcr : (s.pc e.i).crit = true := by rw [hp]; rfl
    exact h.along (by rw [hp]; rfl) (h.excl.release hcr rfl) nofun (fun _ _ _ => rfl) rfl
  | ret v _ hp =>
    have hnc := after_not_crit (D := D) e.op v
    exact h.along (by rw [hp]; rfl) (h.excl.move (by rw [hp, hnc]; rfl))
      (fun _ _ => Pc.ne_loaded hnc) (fun _ _ _ => rfl) (after_not_skipped e.op v)
  | skip _ hp =>
    have hnc := afterSkip_not_crit (α := α) e.op
    refine h.move (h.excl.move (by rw [hp, hnc]; rfl)) (fun _ _ => Pc.ne_loaded hnc)
      (fun _ _ _ => rfl) ?_ ?_
    · cases e.op <;> exact nofun
    · cases e.op <;> exact nofun

theorem run_inv {v : α} {es : List (Ev ι)} (h : Machine.run (step D touches) (start v) es = some s) :
    Inv touches s :=
  Machine.run_inv _ (Inv touches) (inv_start v) (fun _ _ _ hi he => step_inv hi he) h

/-- The calls of a file that does not touch the variable leave it alone. -/
theorem step_var_of_not_touches (h : Inv touches s) {e : Ev ι} (hi : touches e.i = false)
    (he : step D touches s e = some t) : t.var = s.var := by
  cases Step.of_step he with
  | store v _ hp =>
    have := h.onPath e.i (by rw [hp]; rfl)
    rw [hi] at this
    cases this
  | _ => rfl

end Machine

/-! ### `writers` -/

section Writers

variable {ι : Type*} [DecidableEq ι] {write : ι → Bool} {s t : State ι ℤ}

/-- Past the check of `my_write_open`, and not yet past the decrement of
`my_write_release`. -/
def Pc.held : Pc ℤ → Bool
  | .stored .opening v | .unlocked .opening v => my_write_open.ok v
  | .opened | .wait .releasing | .locked .releasing | .loaded .releasing _ => true
  | _ => false

/-- File `i` is a write-mode instance that is held. -/
def Holds (write : ι → Bool) (s : State ι ℤ) (i : ι) : Prop :=
  write i = true ∧ (s.pc i).held = true

/-- `writers` counts the held instances, and there is at most one. -/
def One (write : ι → Bool) (s : State ι ℤ) : Prop :=
  (s.var = 0 ∧ ∀ i, ¬ Holds write s i) ∨ ∃ i, s.var = 1 ∧ ∀ j, Holds write s j ↔ j = i

omit [DecidableEq ι] in
theorem One.unique (h : One write s) {i j : ι} (hi : Holds write s i) (hj : Holds write s j) :
    i = j := by
  rcases h with ⟨-, h⟩ | ⟨k, -, h⟩
  · exact absurd hi (h i)
  · rw [(h i).mp hi, (h j).mp hj]

omit [DecidableEq ι] in
theorem One.exists_of_ne_zero (h : One write s) (hv : s.var ≠ 0) : ∃ i, Holds write s i := by
  rcases h with ⟨h0, -⟩ | ⟨k, -, h⟩
  · exact absurd h0 hv
  · exact ⟨k, (h k).mpr rfl⟩

omit [DecidableEq ι] in
theorem One.ncard (h : One write s) : s.var = ({i | Holds write s i} : Set ι).ncard := by
  rcases h with ⟨h0, h⟩ | ⟨k, h1, h⟩
  · rw [h0, Set.eq_empty_of_forall_notMem (s := {i | Holds write s i}) h]
    simp
  · have hk : {i | Holds write s i} = {k} := Set.ext h
    rw [h1, hk, Set.ncard_singleton]
    rfl

/-- A step that changes neither the variable nor what is held. -/
theorem One.same (h : One write s) {i : ι} {p : Pc ℤ} {lock : Option ι}
    (hp : write i = true → p.held = (s.pc i).held) :
    One write { s with lock := lock, pc := Function.update s.pc i p } := by
  have hh : ∀ j, Holds write { s with lock := lock, pc := Function.update s.pc i p } j ↔
      Holds write s j := by
    intro j
    unfold Holds
    by_cases hji : j = i
    · subst hji
      simp only [Function.update_self]
      constructor
      · exact fun ⟨h1, h2⟩ => ⟨h1, hp h1 ▸ h2⟩
      · exact fun ⟨h1, h2⟩ => ⟨h1, (hp h1).symm ▸ h2⟩
    · simp [hji]
  rcases h with ⟨h0, h⟩ | ⟨k, h1, h⟩
  · exact .inl ⟨h0, fun j hj => h j ((hh j).mp hj)⟩
  · exact .inr ⟨k, h1, fun j => (hh j).trans (h j)⟩

/-- The check passes: nobody held the device, and now `i` does. -/
theorem One.take (h : One write s) {i : ι} (hw : write i = true) (h0 : s.var = 0) :
    One write { s with
      var := s.var + 1
      pc := Function.update s.pc i (.stored .opening 0) } := by
  rcases h with ⟨-, hnone⟩ | ⟨k, h1, -⟩
  · refine .inr ⟨i, by simp [h0], fun j => ?_⟩
    unfold Holds
    by_cases hji : j = i
    · subst hji
      simp [hw, Pc.held, my_write_open]
    · simpa [hji, Holds] using hnone j
  · rw [h0] at h1
    cases h1

theorem One.drop (h : One write s) {i : ι} {v : ℤ} (hh : Holds write s i) (hv : v = s.var) :
    One write { s with
      var := v - 1
      pc := Function.update s.pc i (.stored .releasing v) } := by
  rcases h with ⟨-, hnone⟩ | ⟨k, h1, hk⟩
  · exact absurd hh (hnone i)
  · have hik := (hk i).mp hh
    refine .inl ⟨by simp [hv, h1], fun j hj => ?_⟩
    by_cases hji : j = i
    · subst hji
      have hheld := hj.2
      simp [Pc.held] at hheld
    · refine hji ((hk j).mp ?_ |>.trans hik.symm)
      simpa [Holds, hji] using hj

theorem step_one (hi : Inv write s) (h : One write s) {e : Ev ι}
    (he : step buf_write_fops write s e = some t) : One write t := by
  cases Step.of_step he with
  | enter _ hp =>
    refine h.same fun hw => ?_
    rcases hp with ⟨hp, ho⟩ | ⟨hp, ho⟩ <;> rw [hp, ho, hw] <;> rfl
  | lock _ hp | load _ hp | unlock _ _ hp =>
    exact h.same fun _ => by rw [hp]; cases e.op <;> rfl
  | store v _ hp =>
    have hv := hi.fresh e.i e.op v hp
    have hw := hi.onPath e.i (by rw [hp]; rfl)
    cases hop : e.op with
    | opening =>
      rw [hop] at hp
      have hst : (buf_write_fops.call .opening).store v s.var = if v = 0 then s.var + 1 else s.var :=
        rfl
      rw [hst]
      by_cases hv0 : v = 0
      · subst hv0
        rw [if_pos rfl]
        exact h.take hw hv.symm
      · rw [if_neg hv0]
        refine h.same fun _ => ?_
        rw [hp]
        simp [Pc.held, my_write_open, hv0]
    | releasing =>
      rw [hop] at hp
      have hst : (buf_write_fops.call .releasing).store v s.var = v - 1 := rfl
      rw [hst]
      exact h.drop ⟨hw, by rw [hp]; rfl⟩ hv
  | ret v _ hp =>
    refine h.same fun _ => ?_
    rw [hp]
    cases e.op with
    | opening =>
      simp only [after, Pc.held]
      cases hok : my_write_open.ok v <;> simp [buf_write_fops, hok]
    | releasing => rfl
  | skip _ hp =>
    refine h.same fun hw => ?_
    have := hi.skipped e.i (by rw [hp]; rfl)
    rw [hw] at this
    cases this

theorem run_one {es : List (Ev ι)}
    (h : Machine.run (step buf_write_fops write) (start 0) es = some s) : One write s := by
  refine (Machine.run_inv _ (fun s => Inv write s ∧ One write s) ⟨inv_start 0, .inl ⟨rfl, ?_⟩⟩
    (fun _ _ _ hi he => ⟨step_inv hi.1 he, step_one hi.1 hi.2 he⟩) h).2
  rintro i ⟨-, hi⟩
  cases hi

/-! ### A write-mode open that fails -/

/-- Turned away: the value read was not 0. -/
def Pc.denied : Pc ℤ → Bool
  | .loaded .opening v | .stored .opening v | .unlocked .opening v => !my_write_open.ok v
  | .failed => true
  | _ => false

/-- Nothing of the file's own doing has changed `writers`. -/
def Pc.quiet : Pc ℤ → Bool
  | .idle | .wait .opening | .locked .opening | .loaded .opening _ => true
  | p => p.denied

/-- The steps of file `i` leave `writers` as it is. -/
def Keeps (write : ι → Bool) (i : ι) (s : State ι ℤ) (e : Ev ι) : Prop :=
  e.i = i → ∀ t, step buf_write_fops write s e = some t → t.var = s.var

/-- File `i` made its check while another held the device. -/
def Busy (write : ι → Bool) (i : ι) (es : List (Ev ι)) : Prop :=
  ∃ pre s j, pre ++ [⟨.load, .opening, i⟩] <+: es ∧
    Machine.run (step buf_write_fops write) (start 0) pre = some s ∧ j ≠ i ∧ Holds write s j

theorem Busy.mono {i : ι} {es fs : List (Ev ι)} (h : Busy write i es) (hp : es <+: fs) :
    Busy write i fs := by
  obtain ⟨pre, s, j, h1, h2⟩ := h
  exact ⟨pre, s, j, h1.trans hp, h2⟩

/-- The step of file `i` that made it denied, or it was before. -/
theorem denied_step {e : Ev ι} {i : ι} (he : step buf_write_fops write s e = some t)
    (hd : (t.pc i).denied = true) :
    (s.pc i).denied = true ∨
      (e = ⟨.load, .opening, i⟩ ∧ s.var ≠ 0 ∧ (s.pc i).held = false) := by
  by_cases hi : i = e.i
  · subst hi
    cases Step.of_step he with
    | enter _ hp =>
      simp only [Function.update_self] at hd
      cases hb : write e.i <;> rw [hb] at hd <;> cases e.op <;> cases hd
    | lock _ hp =>
      simp only [Function.update_self] at hd
      cases e.op <;> cases hd
    | load ha hp =>
      simp only [Function.update_self] at hd
      rw [hp]
      cases hop : e.op with
      | opening =>
        rw [hop] at hd
        refine .inr ⟨by rw [← ha, ← hop], ?_, rfl⟩
        simpa [Pc.denied, my_write_open] using hd
      | releasing =>
        rw [hop] at hd
        cases hd
    | store v _ hp | unlock v _ hp =>
      simp only [Function.update_self] at hd
      rw [hp]
      cases hop : e.op <;> rw [hop] at hd
      · exact .inl hd
      · cases hd
    | ret v _ hp =>
      simp only [Function.update_self] at hd
      rw [hp]
      cases hop : e.op <;> rw [hop] at hd
      · cases hok : my_write_open.ok v
        · exact .inl (by simp [Pc.denied, hok])
        · simp [after, buf_write_fops, hok, Pc.denied] at hd
      · cases hd
    | skip _ hp =>
      simp only [Function.update_self] at hd
      cases hop : e.op <;> rw [hop] at hd <;> cases hd
  · left
    rw [← step_pc_of_ne he hi]
    exact hd

/-- The steps of file `i` so far left `writers` alone, if it is quiet. -/
theorem quiet_step {e : Ev ι} {i : ι} (he : step buf_write_fops write s e = some t)
    (hq : (t.pc i).quiet = true) : (s.pc i).quiet = true ∧ (e.i = i → t.var = s.var) := by
  by_cases hi : e.i = i
  · subst hi
    cases Step.of_step he with
    | enter _ hp =>
      simp only [Function.update_self] at hq
      rcases hp with ⟨hp, -⟩ | ⟨hp, ho⟩
      · rw [hp]
        exact ⟨rfl, fun _ => rfl⟩
      · rw [ho] at hq
        cases hb : write e.i <;> rw [hb] at hq <;> cases hq
    | lock _ hp | load _ hp =>
      simp only [Function.update_self] at hq
      rw [hp]
      cases hop : e.op <;> rw [hop] at hq
      · exact ⟨rfl, fun _ => rfl⟩
      · cases hq
    | store v _ hp =>
      simp only [Function.update_self] at hq
      rw [hp]
      cases hop : e.op <;> rw [hop] at hq
      · have hv : v ≠ 0 := by simpa [Pc.quiet, Pc.denied, my_write_open] using hq
        exact ⟨rfl, fun _ => if_neg hv⟩
      · cases hq
    | unlock v _ hp =>
      simp only [Function.update_self] at hq
      rw [hp]
      cases hop : e.op <;> rw [hop] at hq
      · exact ⟨hq, fun _ => rfl⟩
      · cases hq
    | ret v _ hp =>
      simp only [Function.update_self] at hq
      rw [hp]
      cases hop : e.op <;> rw [hop] at hq
      · cases hok : my_write_open.ok v
        · exact ⟨by simp [Pc.quiet, Pc.denied, hok], fun _ => rfl⟩
        · simp [after, buf_write_fops, hok, Pc.quiet, Pc.denied] at hq
      · cases hq
    | skip _ hp =>
      simp only [Function.update_self] at hq
      cases hop : e.op <;> rw [hop] at hq <;> cases hq
  · refine ⟨?_, fun h => absurd h hi⟩
    rw [← step_pc_of_ne he (Ne.symm hi)]
    exact hq

/-- A file that is denied made its check while another held the device. -/
theorem run_denied {i : ι} {es : List (Ev ι)}
    (h : Machine.run (step buf_write_fops write) (start 0) es = some s)
    (hd : (s.pc i).denied = true) : Busy write i es := by
  refine Machine.run_hist _ (fun es s => (s.pc i).denied = true → Busy write i es) ?_ ?_ es s h hd
  · intro hd
    cases hd
  · intro es s e t hr ih he hd
    rcases denied_step he hd with hd' | ⟨rfl, hv, hh⟩
    · exact (ih hd').mono (List.prefix_append _ _)
    · obtain ⟨j, hj⟩ := (run_one hr).exists_of_ne_zero hv
      refine ⟨es, s, j, List.prefix_refl _, hr, ?_, hj⟩
      rintro rfl
      rw [hj.2] at hh
      cases hh

theorem run_quiet {i : ι} {es : List (Ev ι)}
    (h : Machine.run (step buf_write_fops write) (start 0) es = some s)
    (hq : (s.pc i).quiet = true) :
    Machine.Always (step buf_write_fops write) (Keeps write i) (start 0) es := by
  refine Machine.run_hist _ (fun es s => (s.pc i).quiet = true →
    Machine.Always (step buf_write_fops write) (Keeps write i) (start 0) es) ?_ ?_ es s h hq
  · intro _ pre e hp
    simp at hp
  · intro es s e t hr ih he hq
    obtain ⟨hq', hv⟩ := quiet_step he hq
    refine (ih hq').concat fun u hu => ?_
    rw [hr] at hu
    cases hu
    intro hei t' ht'
    rw [he] at ht'
    cases ht'
    exact hv hei

/-- No step of a file not opened for writing changes `writers`. -/
theorem run_reader {i : ι} {es : List (Ev ι)} (hi : write i = false) :
    Machine.Always (step buf_write_fops write) (Keeps write i) (start 0) es := by
  rintro pre e - s hs rfl t ht
  exact step_var_of_not_touches (run_inv hs) hi ht

end Writers

/-! ### `count` -/

section Count

variable {ι : Type*} [DecidableEq ι] {touches : ι → Bool} {s : State ι (BitVec 32)}

/-- How often the calls `op` updated the variable. -/
def updates (op : Op) (es : List (Ev ι)) : ℕ :=
  es.countP fun e => decide (e.act = .store) && decide (e.op = op)

omit [DecidableEq ι] in
theorem updates_concat (op : Op) (es : List (Ev ι)) (e : Ev ι) :
    updates op (es ++ [e]) = updates op es + if e.act = .store ∧ e.op = op then 1 else 0 := by
  unfold updates
  rw [List.countP_append, List.countP_singleton]
  simp

theorem ofInt_succ (n : ℤ) : BitVec.ofInt 32 n + 1 = BitVec.ofInt 32 (n + 1) := by
  rw [BitVec.ofInt_add]
  rfl

theorem ofInt_pred (n : ℤ) : BitVec.ofInt 32 n - 1 = BitVec.ofInt 32 (n - 1) := by
  rw [BitVec.sub_eq_add_neg, sub_eq_add_neg, BitVec.ofInt_add]
  rfl

/-- `count` is the number of increments less that of decrements, mod 2^32. -/
theorem run_count {es : List (Ev ι)}
    (h : Machine.run (step my_fops touches) (start 0) es = some s) :
    s.var = BitVec.ofInt 32 ((updates .opening es : ℤ) - updates .releasing es) := by
  refine Machine.run_hist _ (fun es s => s.var =
    BitVec.ofInt 32 ((updates .opening es : ℤ) - updates .releasing es)) rfl ?_ es s h
  intro es s e t hr ih he
  have hi : Inv touches s := run_inv hr
  rw [updates_concat, updates_concat]
  cases Step.of_step he with
  | store v ha hp =>
    have hv := hi.fresh e.i e.op v hp
    subst hv
    cases hop : e.op with
    | opening =>
      show s.var + 1 = _
      rw [ih, ofInt_succ]
      simp only [ha, and_self, if_true, and_false, reduceCtorEq, if_false]
      congr 1
      omega
    | releasing =>
      show s.var - 1 = _
      rw [ih, ofInt_pred]
      simp only [ha, and_self, if_true, and_false, reduceCtorEq, if_false]
      congr 1
      omega
  | enter ha | lock ha | load ha | unlock _ ha | ret _ ha | skip ha => simpa [ha] using ih

end Count

/-! ### Both devices -/

section Devices

variable {ι κ : Type*} [DecidableEq ι] [DecidableEq κ]

/-- `my_write_device` with the files `ι`, of which `write` are opened for
writing, and `my_device` with the files `κ`. -/
def devices (write : ι → Bool) :
    State ι ℤ × State κ (BitVec 32) → Ev ι ⊕ Ev κ → Option (State ι ℤ × State κ (BitVec 32)) :=
  Machine.prodStep (step buf_write_fops write) (step my_fops fun _ => true)

/-- **At most one writer.** -/
theorem one_writer (write : ι → Bool) {es : List (Ev ι ⊕ Ev κ)} {s : State ι ℤ}
    {c : State κ (BitVec 32)}
    (h : Machine.run (devices write) (start 0, start 0) es = some (s, c)) :
    (∀ i j, write i = true → write j = true → s.pc i = .opened → s.pc j = .opened → i = j) ∧
    (s.var = ({i | Holds write s i} : Set ι).ncard ∧ (s.var = 0 ∨ s.var = 1)) ∧
    (∀ i, s.pc i = .failed → write i = true ∧ Busy write i (Machine.lefts es) ∧
      Machine.Always (step buf_write_fops write) (Keeps write i) (start 0) (Machine.lefts es)) ∧
    (∀ i, write i = false →
      Machine.Always (step buf_write_fops write) (Keeps write i) (start 0) (Machine.lefts es)) ∧
    c.var = BitVec.ofInt 32
      ((updates .opening (Machine.rights es) : ℤ) - updates .releasing (Machine.rights es)) := by
  obtain ⟨hs, hc⟩ := Machine.run_prod _ _ es _ _ _ _ h
  have hone := run_one hs
  refine ⟨fun i j hi hj hpi hpj => ?_, ⟨hone.ncard, ?_⟩, fun i hi => ⟨?_, ?_, ?_⟩,
    fun i hi => run_reader hi, run_count hc⟩
  · exact hone.unique ⟨hi, by rw [hpi]; rfl⟩ ⟨hj, by rw [hpj]; rfl⟩
  · exact hone.imp (·.1) fun ⟨_, h1, _⟩ => h1
  · exact (run_inv hs).onPath i (by rw [hi]; rfl)
  · exact run_denied hs (by rw [hi]; rfl)
  · exact run_quiet hs (by rw [hi]; rfl)

/-- Two writers race for `my_write_device`; a file opens `my_device`
meanwhile. -/
def race : List (Ev Bool ⊕ Ev Unit) :=
  [.inl ⟨.enter, .opening, false⟩, .inl ⟨.enter, .opening, true⟩, .inl ⟨.lock, .opening, false⟩,
    .inl ⟨.load, .opening, false⟩, .inl ⟨.store, .opening, false⟩, .inl ⟨.unlock, .opening, false⟩,
    .inl ⟨.lock, .opening, true⟩, .inr ⟨.enter, .opening, ()⟩, .inr ⟨.lock, .opening, ()⟩,
    .inr ⟨.load, .opening, ()⟩, .inr ⟨.store, .opening, ()⟩, .inl ⟨.load, .opening, true⟩,
    .inl ⟨.store, .opening, true⟩, .inl ⟨.unlock, .opening, true⟩, .inl ⟨.ret, .opening, true⟩]

/-- The second writer is turned away before the first has returned. -/
theorem one_writer_race : ∃ s c,
    Machine.run (devices fun _ => true) (start 0, start 0) race = some (s, c) ∧
    s.pc true = .failed ∧ Busy (fun _ => true) true (Machine.lefts race) ∧
    s.var = ({i | Holds (fun _ => true) s i} : Set Bool).ncard ∧ c.var = BitVec.ofInt 32 1 := by
  obtain ⟨s, c, hrun, hf⟩ : ∃ s c,
      Machine.run (devices fun _ => true) (start 0, start 0) race = some (s, c) ∧
        s.pc true = .failed := ⟨_, _, rfl, rfl⟩
  obtain ⟨-, ⟨hw, -⟩, hbusy, -, hc⟩ := one_writer (fun _ => true) hrun
  exact ⟨s, c, hrun, hf, (hbusy true hf).2.1, hw, hc⟩

end Devices

end Opens
end Pb173
