/-
# Calls under one lock

`Excl`: the lock is held by the one thread inside its critical section.
`Excls`: a family of locks, of which a thread holds one at most.

The second part is a machine for any number of calls that share a lock and
what it protects. A call does some local work and may return early, takes
the lock, changes the shared state in steps of its own, drops the lock and
returns. Every interleaving of these steps is a serial execution of the
calls, in the order in which they took the lock (`run_hist`): while a call
is inside, what it will have done and what it will return are already fixed
by the state it found (`Hist.shared`, `Hist.result`), and when nobody is
inside the shared state is that of the serial execution.
-/
import Pb173.Machine
import Mathlib.Logic.Function.Basic
import Mathlib.Data.List.Nodup

namespace Pb173
namespace Lock

/-! ### Mutual exclusion -/

section Excl

variable {ι P : Type*}

/-- The threads inside the critical section are the holder of the lock. -/
def Excl (crit : P → Bool) (lock : Option ι) (pc : ι → P) : Prop :=
  ∀ i, crit (pc i) = true ↔ lock = some i

variable {crit : P → Bool} {lock : Option ι} {pc : ι → P}

theorem Excl.unique (h : Excl crit lock pc) {i j : ι} (hi : crit (pc i) = true)
    (hj : crit (pc j) = true) : i = j := by
  have h1 := (h i).mp hi
  rw [(h j).mp hj] at h1
  exact (Option.some.inj h1).symm

theorem Excl.out (h : Excl crit none pc) (i : ι) : crit (pc i) = false := by
  by_contra hc
  have := (h i).mp (by simpa using hc)
  cases this

variable [DecidableEq ι]

theorem Excl.acquire (h : Excl crit none pc) {i : ι} {p : P} (hp : crit p = true) :
    Excl crit (some i) (Function.update pc i p) := by
  intro j
  by_cases hj : j = i
  · subst hj
    simp [hp]
  · rw [Function.update_of_ne hj, h.out j]
    simp [Ne.symm hj]

theorem Excl.move (h : Excl crit lock pc) {i : ι} {p : P} (hp : crit p = crit (pc i)) :
    Excl crit lock (Function.update pc i p) := by
  intro j
  by_cases hj : j = i
  · subst hj
    rw [Function.update_self, hp]
    exact h j
  · rw [Function.update_of_ne hj]
    exact h j

theorem Excl.release (h : Excl crit lock pc) {i : ι} {p : P} (hi : crit (pc i) = true)
    (hp : crit p = false) : Excl crit none (Function.update pc i p) := by
  intro j
  by_cases hj : j = i
  · subst hj
    simp [hp]
  · rw [Function.update_of_ne hj]
    constructor
    · intro hc
      exact absurd (h.unique hc hi) hj
    · intro hc
      cases hc

end Excl

/-! ### A family of locks -/

section Excls

variable {ι V P : Type*}

/-- Each thread holds one lock of the family at most, which its place tells. -/
def Excls (held : P → Option V) (lock : V → Option ι) (pc : ι → P) : Prop :=
  ∀ i v, held (pc i) = some v ↔ lock v = some i

variable {held : P → Option V} {lock : V → Option ι} {pc : ι → P}

theorem Excls.unique (h : Excls held lock pc) {i j : ι} {v : V} (hi : held (pc i) = some v)
    (hj : held (pc j) = some v) : i = j := by
  have h1 := (h i v).mp hi
  rw [(h j v).mp hj] at h1
  exact (Option.some.inj h1).symm

theorem Excls.out (h : Excls held lock pc) {v : V} (hv : lock v = none) (i : ι) :
    held (pc i) ≠ some v := by
  intro hc
  rw [(h i v).mp hc] at hv
  cases hv

theorem Excls.free (h : Excls held lock pc) {v : V} (hv : ∀ i, held (pc i) ≠ some v) :
    lock v = none := by
  rcases hl : lock v with _ | i
  · rfl
  · exact absurd ((h i v).mpr hl) (hv i)

variable [DecidableEq ι] [DecidableEq V]

theorem Excls.acquire (h : Excls held lock pc) {i : ι} {v : V} {p : P} (hv : lock v = none)
    (hi : held (pc i) = none) (hp : held p = some v) :
    Excls held (Function.update lock v (some i)) (Function.update pc i p) := by
  intro j w
  by_cases hj : j = i
  · subst hj
    rw [Function.update_self, hp]
    by_cases hw : w = v
    · subst hw
      simp
    · rw [Function.update_of_ne hw, ← h j w, hi]
      simp [Ne.symm hw]
  · rw [Function.update_of_ne hj]
    by_cases hw : w = v
    · subst hw
      rw [Function.update_self]
      refine iff_of_false (h.out hv j) ?_
      simpa using Ne.symm hj
    · rw [Function.update_of_ne hw]
      exact h j w

omit [DecidableEq V] in
theorem Excls.move (h : Excls held lock pc) {i : ι} {p : P} (hp : held p = held (pc i)) :
    Excls held lock (Function.update pc i p) := by
  intro j w
  by_cases hj : j = i
  · subst hj
    rw [Function.update_self, hp]
    exact h j w
  · rw [Function.update_of_ne hj]
    exact h j w

theorem Excls.release (h : Excls held lock pc) {i : ι} {v : V} {p : P}
    (hi : held (pc i) = some v) (hp : held p = none) :
    Excls held (Function.update lock v none) (Function.update pc i p) := by
  intro j w
  by_cases hw : w = v
  · subst hw
    rw [Function.update_self]
    refine iff_of_false (fun hc => ?_) (by simp)
    by_cases hj : j = i
    · subst hj
      rw [Function.update_self, hp] at hc
      cases hc
    · rw [Function.update_of_ne hj] at hc
      exact hj (h.unique hc hi)
  · rw [Function.update_of_ne hw]
    by_cases hj : j = i
    · subst hj
      rw [Function.update_self, hp, ← h j w, hi]
      simp [Ne.symm hw]
    · rw [Function.update_of_ne hj]
      exact h j w

end Excls

/-! ### The calls -/

/-- The code of the calls `ι` that share a state `σ` under a lock. -/
structure Code (ι σ L K R : Type*) where
  /-- Up to the lock: ready to take it, or an early return. -/
  enter : ι → L ⊕ R
  /-- One step under the lock: the call goes on, or is about to unlock. -/
  body : L → σ → σ × (L ⊕ K)
  /-- From the unlock to the return. -/
  exit : K → R

/-- Where a call is. -/
inductive Pc (L K R : Type*)
  | idle
  | ready (l : L)
  | inside (l : L)
  | leaving (k : K)
  | out (k : K)
  | done (r : R)

/-- Under the lock. -/
def Pc.crit {L K R : Type*} : Pc L K R → Bool
  | .inside _ | .leaving _ => true
  | _ => false

/-- Past the point from which the call counts as executed. -/
def Pc.committed {L K R : Type*} : Pc L K R → Bool
  | .idle | .ready _ => false
  | _ => true

structure State (ι σ L K R : Type*) where
  shared : σ
  lock : Option ι
  pc : ι → Pc L K R

/-- Each step of a call is an event of its own. -/
inductive Ev (ι : Type*)
  | enter (i : ι)
  | lock (i : ι)
  | body (i : ι)
  | unlock (i : ι)
  | exit (i : ι)
deriving DecidableEq

/-- The call whose step it is. -/
def Ev.of {ι : Type*} : Ev ι → ι
  | .enter i | .lock i | .body i | .unlock i | .exit i => i

section Calls

variable {ι σ L K R : Type*} (C : Code ι σ L K R)

/-- After its local work a call waits for the lock, or has returned. -/
def afterEnter : L ⊕ R → Pc L K R
  | .inl l => .ready l
  | .inr r => .done r

/-- After a step under the lock a call is still inside, or about to leave. -/
def afterBody : L ⊕ K → Pc L K R
  | .inl l => .inside l
  | .inr k => .leaving k

/-- No call has started. -/
def start (x : σ) : State ι σ L K R := ⟨x, none, fun _ => .idle⟩

/-! ### The serial execution -/

/-- `exec l x` is what the critical section does from `l` on, from the shared
state `x`: the state it leaves and what it leaves with. -/
def Solves (exec : L → σ → σ × K) : Prop :=
  ∀ l x, exec l x =
    match C.body l x with
    | (y, .inl l') => exec l' y
    | (y, .inr k) => (y, k)

variable (exec : L → σ → σ × K)

/-- The whole call at once: the shared state it leaves and what it returns. -/
def call (i : ι) (x : σ) : σ × R :=
  match C.enter i with
  | .inl l => ((exec l x).1, C.exit (exec l x).2)
  | .inr r => (x, r)

/-- The calls one after the other. -/
def serial (is : List ι) (x : σ) : σ := is.foldl (fun x i => (call C exec i x).1) x

theorem serial_concat (is : List ι) (i : ι) (x : σ) :
    serial C exec (is ++ [i]) x = (call C exec i (serial C exec is x)).1 := by
  simp [serial]

/-- The calls in the order in which they took the lock. -/
def locks (es : List (Ev ι)) : List ι :=
  es.filterMap fun
    | .lock i => some i
    | _ => none

/-- The calls in the order in which they count as executed: at the lock, or
at an early return. -/
def commits (es : List (Ev ι)) : List ι :=
  es.filterMap fun
    | .enter i => if (C.enter i).isRight then some i else none
    | .lock i => some i
    | _ => none

theorem commits_concat (es : List (Ev ι)) (e : Ev ι) :
    commits C (es ++ [e]) = commits C es ++ commits C [e] := by
  simp [commits, List.filterMap_append]

theorem locks_concat (es : List (Ev ι)) (e : Ev ι) : locks (es ++ [e]) = locks es ++ locks [e] := by
  simp [locks, List.filterMap_append]

/-- The shared state once the call has left the critical section. -/
def settle : Pc L K R → σ → σ
  | .inside l, x => (exec l x).1
  | _, x => x

/-- What the call will return. -/
def outcome : Pc L K R → σ → Option R
  | .idle, _ | .ready _, _ => none
  | .inside l, x => some (C.exit (exec l x).2)
  | .leaving k, _ | .out k, _ => some (C.exit k)
  | .done r, _ => some r

/-- Outside the critical section what a call returns is fixed. -/
theorem outcome_of_not_crit {p : Pc L K R} (hp : p.crit = false) (x y : σ) :
    outcome C exec p x = outcome C exec p y := by
  cases p <;> first | rfl | cases hp

/-- What is left of a section after a step of it is what was left before. -/
theorem settle_afterBody {C : Code ι σ L K R} {exec : L → σ → σ × K} (hx : Solves C exec) (l : L)
    (x : σ) :
    settle exec (afterBody (C.body l x).2 : Pc L K R) (C.body l x).1 = (exec l x).1 ∧
      outcome C exec (afterBody (C.body l x).2) (C.body l x).1 =
        some (C.exit (exec l x).2) := by
  have hbody := hx l x
  rcases hb : C.body l x with ⟨y, l' | k⟩
  · rw [hb] at hbody
    rw [hbody]
    exact ⟨rfl, rfl⟩
  · rw [hb] at hbody
    rw [hbody]
    exact ⟨rfl, rfl⟩

/-- What holds after the events `es`, from the shared state `x₀`. -/
structure Hist (x₀ : σ) (es : List (Ev ι)) (s : State ι σ L K R) : Prop where
  excl : Excl Pc.crit s.lock s.pc
  ready : ∀ i l, s.pc i = .ready l → C.enter i = .inl l
  nodup : (commits C es).Nodup
  mem : ∀ i, i ∈ commits C es ↔ (s.pc i).committed = true
  order : (commits C es).filter (fun i => (C.enter i).isLeft) = locks es
  free : s.lock = none → s.shared = serial C exec (commits C es) x₀
  held : ∀ i, s.lock = some i →
    settle exec (s.pc i) s.shared = serial C exec (commits C es) x₀
  result : ∀ i pre post, commits C es = pre ++ i :: post →
    outcome C exec (s.pc i) s.shared = some (call C exec i (serial C exec pre x₀)).2

/-- A list that ends in `i` splits at its end or before it. -/
theorem concat_eq_append_cons {l pre post : List ι} {i j : ι} (h : l ++ [i] = pre ++ j :: post) :
    (j = i ∧ pre = l) ∨ ∃ post', l = pre ++ j :: post' := by
  rcases List.eq_nil_or_concat post with rfl | ⟨post', k, rfl⟩
  · obtain ⟨h1, h2⟩ := List.append_inj' h rfl
    exact .inl ⟨(List.cons.inj h2).1.symm, h1.symm⟩
  · rw [List.concat_eq_append, ← List.cons_append, ← List.append_assoc] at h
    exact .inr ⟨post', (List.append_inj' h rfl).1⟩

variable {C} {exec : L → σ → σ × K} {x₀ : σ} {es : List (Ev ι)} {s : State ι σ L K R}

theorem Hist.not_mem (h : Hist C exec x₀ es s) {i : ι} (hi : (s.pc i).committed = false) :
    i ∉ commits C es := by
  rw [h.mem i, hi]
  simp

theorem hist_start : Hist C exec x₀ [] (start x₀ : State ι σ L K R) where
  excl i := by simp [start, Pc.crit]
  ready i l h := by simp [start] at h
  nodup := List.nodup_nil
  mem i := by simp [start, commits, Pc.committed]
  order := rfl
  free _ := rfl
  held i h := by simp [start] at h
  result i pre post h := by simp [commits] at h

/-- When every call has returned nobody holds the lock, and all are executed. -/
theorem Hist.complete (h : Hist C exec x₀ es s) (hd : ∀ i, ∃ r, s.pc i = .done r) :
    s.shared = serial C exec (commits C es) x₀ ∧ ∀ i, i ∈ commits C es := by
  constructor
  · refine h.free ?_
    by_contra hne
    obtain ⟨i, hi⟩ := Option.ne_none_iff_exists'.mp hne
    have hc := (h.excl i).mpr hi
    obtain ⟨r, hr⟩ := hd i
    rw [hr] at hc
    cases hc
  · intro i
    obtain ⟨r, hr⟩ := hd i
    rw [h.mem i, hr]
    rfl

/-- A call that has returned was executed, and returned what it returns in
the serial execution. -/
theorem Hist.of_done (h : Hist C exec x₀ es s) {i : ι} {r : R} (hd : s.pc i = .done r) :
    ∃ pre post, commits C es = pre ++ i :: post ∧
      r = (call C exec i (serial C exec pre x₀)).2 := by
  have hm : i ∈ commits C es := by
    rw [h.mem i, hd]
    rfl
  obtain ⟨pre, post, hpp⟩ := List.append_of_mem hm
  have hr := h.result i pre post hpp
  rw [hd] at hr
  exact ⟨pre, post, hpp, Option.some.inj hr⟩

/-- A call that has returned is executed before one that has not started. -/
theorem Hist.before (h : Hist C exec x₀ es s) {i j : ι} {r : R} (hi : s.pc i = .done r)
    (hj : s.pc j = .idle) (fs : List (Ev ι)) :
    ∃ pre post, commits C (es ++ fs) = pre ++ post ∧ i ∈ pre ∧ j ∉ pre := by
  refine ⟨commits C es, commits C fs, by simp [commits, List.filterMap_append], ?_, ?_⟩
  · rw [h.mem i, hi]
    rfl
  · apply h.not_mem
    rw [hj]
    rfl

/-! ### The machine -/

section Machine

variable [DecidableEq ι]

variable (C) in
def step (s : State ι σ L K R) : Ev ι → Option (State ι σ L K R)
  | .enter i =>
    match s.pc i with
    | .idle => some { s with pc := Function.update s.pc i (afterEnter (C.enter i)) }
    | _ => none
  | .lock i =>
    match s.pc i, s.lock with
    | .ready l, none => some { s with lock := some i, pc := Function.update s.pc i (.inside l) }
    | _, _ => none
  | .body i =>
    match s.pc i with
    | .inside l =>
      some { s with
        shared := (C.body l s.shared).1
        pc := Function.update s.pc i (afterBody (C.body l s.shared).2) }
    | _ => none
  | .unlock i =>
    match s.pc i with
    | .leaving k => some { s with lock := none, pc := Function.update s.pc i (.out k) }
    | _ => none
  | .exit i =>
    match s.pc i with
    | .out k => some { s with pc := Function.update s.pc i (.done (C.exit k)) }
    | _ => none

theorem step_cases {t : State ι σ L K R} {e : Ev ι} (h : step C s e = some t) :
    (∃ i, e = .enter i ∧ s.pc i = .idle ∧
      t = { s with pc := Function.update s.pc i (afterEnter (C.enter i)) }) ∨
    (∃ i l, e = .lock i ∧ s.pc i = .ready l ∧ s.lock = none ∧
      t = { s with lock := some i, pc := Function.update s.pc i (.inside l) }) ∨
    (∃ i l, e = .body i ∧ s.pc i = .inside l ∧
      t = { s with
        shared := (C.body l s.shared).1
        pc := Function.update s.pc i (afterBody (C.body l s.shared).2) }) ∨
    (∃ i k, e = .unlock i ∧ s.pc i = .leaving k ∧
      t = { s with lock := none, pc := Function.update s.pc i (.out k) }) ∨
    (∃ i k, e = .exit i ∧ s.pc i = .out k ∧
      t = { s with pc := Function.update s.pc i (.done (C.exit k)) }) := by
  cases e with
  | enter i =>
    simp only [step] at h
    split at h
    · rename_i hp
      exact .inl ⟨i, rfl, hp, (Option.some.inj h).symm⟩
    · cases h
  | lock i =>
    simp only [step] at h
    split at h
    · rename_i l hp hl
      exact .inr (.inl ⟨i, l, rfl, hp, hl, (Option.some.inj h).symm⟩)
    · cases h
  | body i =>
    simp only [step] at h
    split at h
    · rename_i l hp
      exact .inr (.inr (.inl ⟨i, l, rfl, hp, (Option.some.inj h).symm⟩))
    · cases h
  | unlock i =>
    simp only [step] at h
    split at h
    · rename_i k hp
      exact .inr (.inr (.inr (.inl ⟨i, k, rfl, hp, (Option.some.inj h).symm⟩)))
    · cases h
  | exit i =>
    simp only [step] at h
    split at h
    · rename_i k hp
      exact .inr (.inr (.inr (.inr ⟨i, k, rfl, hp, (Option.some.inj h).symm⟩)))
    · cases h

theorem step_pc_of_ne {t : State ι σ L K R} {e : Ev ι} (h : step C s e = some t) {k : ι}
    (hk : k ≠ e.of) : t.pc k = s.pc k := by
  rcases step_cases h with ⟨i, rfl, -, rfl⟩ | ⟨i, l, rfl, -, -, rfl⟩ | ⟨i, l, rfl, -, rfl⟩ |
    ⟨i, l, rfl, -, rfl⟩ | ⟨i, l, rfl, -, rfl⟩ <;> exact Function.update_of_ne hk ..

theorem Hist.quiet (h : Hist C exec x₀ es s) {e : Ev ι} (hc : commits C [e] = [])
    (hl : locks [e] = []) {i : ι} {p : Pc L K R} {x : σ} {lock : Option ι}
    (hexcl : Excl Pc.crit lock (Function.update s.pc i p))
    (hready : ∀ l, p = .ready l → C.enter i = .inl l)
    (hcom : p.committed = (s.pc i).committed)
    (hfree : lock = none → x = serial C exec (commits C es) x₀)
    (hheld : ∀ j, lock = some j →
      settle exec (Function.update s.pc i p j) x = serial C exec (commits C es) x₀)
    (hout : outcome C exec p x = outcome C exec (s.pc i) s.shared)
    (hothers : ∀ j, j ≠ i → outcome C exec (s.pc j) x = outcome C exec (s.pc j) s.shared) :
    Hist C exec x₀ (es ++ [e]) ⟨x, lock, Function.update s.pc i p⟩ := by
  have hes : commits C (es ++ [e]) = commits C es := by
    rw [commits_concat, hc, List.append_nil]
  have hls : locks (es ++ [e]) = locks es := by
    rw [locks_concat, hl, List.append_nil]
  refine ⟨hexcl, fun j l hj => ?_, hes ▸ h.nodup, fun j => ?_, ?_, hes ▸ hfree, hes ▸ hheld,
    fun j pre post hj => ?_⟩
  · by_cases hji : j = i
    · subst hji
      exact hready l (by simpa using hj)
    · exact h.ready j l (by simpa [hji] using hj)
  · rw [hes, h.mem j]
    by_cases hji : j = i
    · subst hji
      simp [hcom]
    · simp [hji]
  · rw [hes, hls]
    exact h.order
  · rw [hes] at hj
    have hr := h.result j pre post hj
    by_cases hji : j = i
    · subst hji
      simpa [hout] using hr
    · simpa [hji, hothers j hji] using hr

/-- A step at which the call `i`, not yet executed, counts as executed: the
shared state is the serial one, and so is what `i` will do to it. -/
theorem Hist.commit (h : Hist C exec x₀ es s) {e : Ev ι} {i : ι} (hc : commits C [e] = [i])
    (hi : (s.pc i).committed = false) {p : Pc L K R} {lock : Option ι}
    (hl : locks [e] = [i].filter fun i => (C.enter i).isLeft)
    (hexcl : Excl Pc.crit lock (Function.update s.pc i p))
    (hcom : p.committed = true)
    (hfree : lock = none → (call C exec i (serial C exec (commits C es) x₀)).1 = s.shared)
    (hheld : ∀ j, lock = some j → settle exec (Function.update s.pc i p j) s.shared =
      (call C exec i (serial C exec (commits C es) x₀)).1)
    (hout : outcome C exec p s.shared =
      some (call C exec i (serial C exec (commits C es) x₀)).2) :
    Hist C exec x₀ (es ++ [e]) ⟨s.shared, lock, Function.update s.pc i p⟩ := by
  have hes : commits C (es ++ [e]) = commits C es ++ [i] := by
    rw [commits_concat, hc]
  have hser := serial_concat C exec (commits C es) i x₀
  have hni := h.not_mem hi
  refine ⟨hexcl, fun j l hj => ?_, ?_, fun j => ?_, ?_, fun hf => ?_, fun j hj => ?_,
    fun j pre post hj => ?_⟩
  · by_cases hji : j = i
    · subst hji
      have hp : p = .ready l := by simpa using hj
      rw [hp] at hcom
      cases hcom
    · exact h.ready j l (by simpa [hji] using hj)
  · rw [hes, List.nodup_append]
    refine ⟨h.nodup, List.nodup_singleton i, fun a ha b hb => ?_⟩
    rw [List.mem_singleton] at hb
    rintro rfl
    exact hni (hb ▸ ha)
  · rw [hes, List.mem_append, List.mem_singleton, h.mem j]
    by_cases hji : j = i
    · subst hji
      simp [hcom]
    · simp [hji]
  · rw [hes, locks_concat, List.filter_append, h.order, hl]
  · rw [hes, hser]
    exact (hfree hf).symm
  · rw [hes, hser]
    exact hheld j hj
  · rw [hes] at hj
    rcases concat_eq_append_cons hj with ⟨rfl, rfl⟩ | ⟨post', hj'⟩
    · simpa using hout
    · have hji : j ≠ i := by
        rintro rfl
        exact hni (by rw [hj']; simp)
      simpa [hji] using h.result j pre post' hj'

/-- Where the lock is held by another call, the holder settles as before. -/
theorem Hist.held_of_ne (h : Hist C exec x₀ es s) {i j : ι} (hc : (s.pc i).crit = false)
    {p : Pc L K R} (hj : s.lock = some j) :
    settle exec (Function.update s.pc i p j) s.shared = serial C exec (commits C es) x₀ := by
  have hji : j ≠ i := by
    rintro rfl
    have hin := (h.excl j).mpr hj
    rw [hc] at hin
    cases hin
  rw [Function.update_of_ne hji]
  exact h.held j hj

theorem Hist.enter (h : Hist C exec x₀ es s) {i : ι} (hp : s.pc i = .idle) :
    Hist C exec x₀ (es ++ [.enter i])
      { s with pc := Function.update s.pc i (afterEnter (C.enter i)) } := by
  have hout : (s.pc i).crit = false := by
    rw [hp]
    rfl
  have hcrit : ∀ o : L ⊕ R, (afterEnter o : Pc L K R).crit = (s.pc i).crit := by
    rw [hp]
    rintro (l | r) <;> rfl
  cases hent : C.enter i with
  | inl l =>
    refine h.quiet (by simp [commits, hent]) rfl (h.excl.move (hcrit _)) ?_ (by rw [hp]; rfl)
      h.free (fun j hj => h.held_of_ne hout hj) (by rw [hp]; rfl) (fun j _ => rfl)
    rintro l' hl'
    cases hl'
    exact hent
  | inr r =>
    have hcall : ∀ x, call C exec i x = (x, r) := fun x => by simp [call, hent]
    refine h.commit (by simp [commits, hent]) (by rw [hp]; rfl) (by simp [locks, hent])
      (h.excl.move (hcrit _)) rfl (fun hf => ?_) (fun j hj => ?_) (by rw [hcall]; rfl)
    · rw [hcall, h.free hf]
    · rw [hcall]
      exact h.held_of_ne hout hj

theorem Hist.lock (h : Hist C exec x₀ es s) {i : ι} {l : L} (hp : s.pc i = .ready l)
    (hlock : s.lock = none) :
    Hist C exec x₀ (es ++ [.lock i])
      { s with lock := some i, pc := Function.update s.pc i (.inside l) } := by
  have hent := h.ready i l hp
  have hshared := h.free hlock
  have hcall : call C exec i s.shared = ((exec l s.shared).1, C.exit (exec l s.shared).2) := by
    simp [call, hent]
  have hexcl := h.excl
  rw [hlock] at hexcl
  refine h.commit rfl (by rw [hp]; rfl) (by simp [locks, hent])
    (hexcl.acquire rfl) rfl (fun hf => by cases hf) (fun j hj => ?_) ?_
  · cases hj
    rw [Function.update_self, ← hshared, hcall]
    rfl
  · rw [← hshared, hcall]
    rfl

/-- A step inside: the rest of the section does what was left to do. -/
theorem Hist.body (hx : Solves C exec) (h : Hist C exec x₀ es s) {i : ι} {l : L}
    (hp : s.pc i = .inside l) :
    Hist C exec x₀ (es ++ [.body i]) { s with
      shared := (C.body l s.shared).1
      pc := Function.update s.pc i (afterBody (C.body l s.shared).2) } := by
  have hcr : (s.pc i).crit = true := by
    rw [hp]
    rfl
  have hlock := (h.excl i).mp hcr
  have hheld := h.held i hlock
  rw [hp] at hheld
  obtain ⟨hsettle, hout⟩ := settle_afterBody hx l s.shared
  have hcrit : (afterBody (C.body l s.shared).2 : Pc L K R).crit = true := by
    rcases (C.body l s.shared).2 with l' | k <;> rfl
  refine h.quiet rfl rfl (h.excl.move (hcrit.trans hcr.symm)) ?_ ?_ (fun hf => ?_)
    (fun j hj => ?_) ?_ (fun j hj => ?_)
  · intro l' hl'
    rw [hl'] at hcrit
    cases hcrit
  · rw [hp]
    rcases (C.body l s.shared).2 with l' | k <;> rfl
  · rw [hlock] at hf
    cases hf
  · rw [hlock] at hj
    cases hj
    rw [Function.update_self, hsettle]
    exact hheld
  · rw [hout, hp]
    rfl
  · refine outcome_of_not_crit C exec ?_ _ _
    by_contra hc
    exact hj (h.excl.unique (by simpa using hc) hcr)

theorem Hist.unlock (h : Hist C exec x₀ es s) {i : ι} {k : K} (hp : s.pc i = .leaving k) :
    Hist C exec x₀ (es ++ [.unlock i])
      { s with lock := none, pc := Function.update s.pc i (.out k) } := by
  have hcr : (s.pc i).crit = true := by
    rw [hp]
    rfl
  have hheld := h.held i ((h.excl i).mp hcr)
  rw [hp] at hheld
  exact h.quiet rfl rfl (h.excl.release hcr rfl) (fun l hl => by cases hl) (by rw [hp]; rfl)
    (fun _ => hheld) (fun j hj => by cases hj) (by rw [hp]; rfl) (fun j _ => rfl)

theorem Hist.exit (h : Hist C exec x₀ es s) {i : ι} {k : K} (hp : s.pc i = .out k) :
    Hist C exec x₀ (es ++ [.exit i])
      { s with pc := Function.update s.pc i (.done (C.exit k)) } := by
  have hcr : (s.pc i).crit = false := by
    rw [hp]
    rfl
  exact h.quiet rfl rfl (h.excl.move hcr.symm) (fun l hl => by cases hl) (by rw [hp]; rfl)
    h.free (fun j hj => h.held_of_ne hcr hj) (by rw [hp]; rfl) (fun j _ => rfl)

/-- **Every step keeps the serial order.** -/
theorem hist_step (hx : Solves C exec) (h : Hist C exec x₀ es s) {e : Ev ι}
    {t : State ι σ L K R} (he : step C s e = some t) : Hist C exec x₀ (es ++ [e]) t := by
  rcases step_cases he with ⟨i, rfl, hp, rfl⟩ | ⟨i, l, rfl, hp, hlock, rfl⟩ |
    ⟨i, l, rfl, hp, rfl⟩ | ⟨i, k, rfl, hp, rfl⟩ | ⟨i, k, rfl, hp, rfl⟩
  · exact h.enter hp
  · exact h.lock hp hlock
  · exact h.body hx hp
  · exact h.unlock hp
  · exact h.exit hp

/-- **Every interleaving is a serial execution.** -/
theorem hist_run (hx : Solves C exec) (h : Machine.run (step C) (start x₀) es = some s) :
    Hist C exec x₀ es s :=
  Machine.run_hist (step C) (Hist C exec x₀) hist_start
    (fun _ _ _ _ _ ih he => hist_step hx ih he) es s h

end Machine

end Calls

end Lock
end Pb173
