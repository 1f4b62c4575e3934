/-
# Opens and releases without a lock (03, 10/homework)

`my_open` and `my_release` of 03 and 10/homework are those of 06 without the
spin lock: `count++` loads the counter and stores it, and the other files may
come between. A file is opened once and released once after that.

After the calls for any files, what the counter may hold is an interval of
integers, modulo `2^32`, all of which some run reaches (`count_iff`): with `c` of
the files closed and some still open, from `1 - c` to the number of all files;
with all of them closed, from `1 - c` to `c - 1`, where the code has 0 in mind.
-/
import Pb173.Machine
import Pb173.Opens
import Mathlib.Data.Finset.Card
import Mathlib.Tactic.Linarith

namespace Pb173
namespace Racing

open Pb173.Opens (Op Fops)

/-- Where a file is; `v` is the value its call has loaded. -/
inductive Pc (α : Type*)
  | idle
  | loaded (op : Op) (v : α)
  | opened
  | closed

/-- The two halves of `count++` and `count--`. -/
inductive Ev (ι : Type*)
  | load (i : ι)
  | store (i : ι)

/-- The counter, and where each file is. -/
structure State (ι α : Type*) where
  var : α
  pc : ι → Pc α

section Machine

variable {ι α : Type*} [DecidableEq ι] (D : Fops α)

def step (s : State ι α) : Ev ι → Option (State ι α)
  | .load i =>
    match s.pc i with
    | .idle => some { s with pc := Function.update s.pc i (.loaded .opening s.var) }
    | .opened => some { s with pc := Function.update s.pc i (.loaded .releasing s.var) }
    | _ => none
  | .store i =>
    match s.pc i with
    | .loaded .opening v => some ⟨D.opens.store v s.var, Function.update s.pc i .opened⟩
    | .loaded .releasing v => some ⟨D.release.store v s.var, Function.update s.pc i .closed⟩
    | _ => none

def start (v : α) : State ι α := ⟨v, fun _ => .idle⟩

/-- No call is in progress: the files `closed` are closed, and `still` are open. -/
def Quiet (still closed : List ι) (s : State ι α) : Prop :=
  ∀ i, s.pc i = if i ∈ closed then .closed else if i ∈ still then .opened else .idle

end Machine

/-! ### Integers for the counter -/

/-- The same calls on an integer. -/
def unbounded : Fops ℤ := ⟨⟨fun v _ => v + 1, fun _ => true⟩, ⟨fun v _ => v - 1, fun _ => true⟩⟩

section Wrap

variable {ι : Type*} [DecidableEq ι]

def wrap : ℤ → BitVec 32 := BitVec.ofInt 32

def Pc.wrap : Pc ℤ → Pc (BitVec 32)
  | .idle => .idle
  | .loaded op v => .loaded op (Racing.wrap v)
  | .opened => .opened
  | .closed => .closed

def State.wrap (s : State ι ℤ) : State ι (BitVec 32) := ⟨Racing.wrap s.var, fun i => (s.pc i).wrap⟩

theorem wrap_add_one (v : ℤ) : wrap (v + 1) = wrap v + 1 := BitVec.ofInt_add v 1

theorem wrap_sub_one (v : ℤ) : wrap (v - 1) = wrap v - 1 := by
  rw [BitVec.sub_eq_add_neg, Int.sub_eq_add_neg]
  exact BitVec.ofInt_add v (-1)

theorem wrap_moved (s : State ι ℤ) (i : ι) {v : ℤ} {w : BitVec 32} {p : Pc ℤ} {q : Pc (BitVec 32)}
    (hv : w = wrap v) (hp : q = p.wrap) :
    (⟨w, Function.update s.wrap.pc i q⟩ : State ι (BitVec 32)) =
      State.wrap ⟨v, Function.update s.pc i p⟩ := by
  rw [hv, hp]
  exact congrArg (State.mk _)
    (funext fun j => (Function.apply_update (fun _ => Pc.wrap) s.pc i p j).symm)

theorem step_wrap (s : State ι ℤ) (e : Ev ι) :
    step Opens.my_fops s.wrap e = (step unbounded s e).map State.wrap := by
  have hpc : ∀ i, s.wrap.pc i = (s.pc i).wrap := fun _ => rfl
  cases e with
  | load i =>
    simp only [step, hpc]
    rcases s.pc i with _ | ⟨op, v⟩ | _ | _
    · exact congrArg some (wrap_moved s i rfl rfl)
    · rfl
    · exact congrArg some (wrap_moved s i rfl rfl)
    · rfl
  | store i =>
    simp only [step, hpc]
    rcases s.pc i with _ | ⟨_ | _, v⟩ | _ | _
    · rfl
    · exact congrArg some (wrap_moved s i (wrap_add_one v).symm rfl)
    · exact congrArg some (wrap_moved s i (wrap_sub_one v).symm rfl)
    · rfl
    · rfl

theorem run_wrap (es : List (Ev ι)) (s : State ι ℤ) :
    Machine.run (step Opens.my_fops) s.wrap es = (Machine.run (step unbounded) s es).map State.wrap := by
  induction es generalizing s with
  | nil => rfl
  | cons e es ih =>
    rw [Machine.run_cons, Machine.run_cons, step_wrap]
    rcases step unbounded s e with _ | t
    · rfl
    · exact ih t

theorem quiet_wrap {still closed : List ι} {s : State ι ℤ} :
    Quiet still closed s.wrap ↔ Quiet still closed s := by
  have hpc : ∀ (p : Pc ℤ) (i : ι),
      p.wrap = (if i ∈ closed then .closed else if i ∈ still then .opened else .idle) ↔
        p = (if i ∈ closed then .closed else if i ∈ still then .opened else .idle) := by
    intro p i
    cases p <;> split_ifs <;> simp [Pc.wrap]
  exact forall_congr' fun i => hpc (s.pc i) i

end Wrap

/-! ### The bounds -/

/-- The call that opened the file has stored. -/
def Pc.counted : Pc ℤ → Bool
  | .idle | .loaded .opening _ => false
  | .loaded .releasing _ | .opened | .closed => true

/-- What a call has loaded, when `n` opens and `c` releases have stored. -/
def Pc.Fits (n c : ℕ) : Pc ℤ → Prop
  | .loaded .opening v => v ≤ n ∧ (v = 0 ∨ 1 - (c : ℤ) ≤ v)
  | .loaded .releasing v => v ≤ n ∧ 1 - (c : ℤ) ≤ v
  | .idle | .opened | .closed => True

theorem Pc.Fits.mono {n n' c c' : ℕ} (hn : n ≤ n') (hc : c ≤ c') {p : Pc ℤ} (h : p.Fits n c) :
    p.Fits n' c' := by
  rcases p with _ | ⟨_ | _, v⟩ | _ | _
  · trivial
  · obtain ⟨hle, hge⟩ := h
    exact ⟨by omega, by omega⟩
  · obtain ⟨hle, hge⟩ := h
    exact ⟨by omega, by omega⟩
  · trivial
  · trivial

section Bounds

variable {ι : Type*} [DecidableEq ι]

/-- The opens of `O` and the releases of `C` have stored. -/
structure Bounds (O C : Finset ι) (s : State ι ℤ) : Prop where
  opens : ∀ i, i ∈ O ↔ (s.pc i).counted = true
  releases : ∀ i, i ∈ C ↔ s.pc i = .closed
  fits : ∀ i, (s.pc i).Fits O.card C.card
  le : s.var ≤ O.card
  ge : O.Nonempty → 1 - (C.card : ℤ) ≤ s.var
  zero : O = ∅ → s.var = 0
  last : O = C → O.Nonempty → s.var < O.card

variable {O C : Finset ι} {s t : State ι ℤ} {i : ι}

theorem Bounds.load (h : Bounds O C s) {op : Op} (hc : (Pc.loaded op s.var).counted = (s.pc i).counted)
    (hcl : s.pc i ≠ .closed) :
    Bounds O C { s with pc := Function.update s.pc i (.loaded op s.var) } where
  opens := by
    refine (Function.forall_update_iff s.pc fun j p => j ∈ O ↔ p.counted = true).mpr ⟨?_, ?_⟩
    · rw [hc]
      exact h.opens i
    · exact fun j _ => h.opens j
  releases := by
    refine (Function.forall_update_iff s.pc fun j p => j ∈ C ↔ p = .closed).mpr ⟨?_, ?_⟩
    · exact iff_of_false (fun hi => hcl ((h.releases i).mp hi)) nofun
    · exact fun j _ => h.releases j
  fits := by
    refine (Function.forall_update_iff s.pc fun _ p => p.Fits O.card C.card).mpr
      ⟨?_, fun j _ => h.fits j⟩
    cases op with
    | opening =>
      refine ⟨h.le, ?_⟩
      rcases O.eq_empty_or_nonempty with hO | hO
      · exact .inl (h.zero hO)
      · exact .inr (h.ge hO)
    | releasing => exact ⟨h.le, h.ge ⟨i, (h.opens i).mpr hc.symm⟩⟩
  le := h.le
  ge := h.ge
  zero := h.zero
  last := h.last

theorem Bounds.store_open (h : Bounds O C s) {v : ℤ} (hp : s.pc i = .loaded .opening v) :
    Bounds (insert i O) C ⟨v + 1, Function.update s.pc i .opened⟩ := by
  have hi : i ∉ O := fun hi => by
    have hcount := (h.opens i).mp hi
    rw [hp] at hcount
    cases hcount
  have hcard : (insert i O).card = O.card + 1 := Finset.card_insert_of_notMem hi
  have hfit := h.fits i
  rw [hp] at hfit
  obtain ⟨hle, hge⟩ := hfit
  have hni : i ∉ C := fun hc => nomatch hp.symm.trans ((h.releases i).mp hc)
  refine ⟨?_, ?_, ?_, ?_, fun _ => ?_, fun he => absurd he (Finset.insert_ne_empty i O), ?_⟩
  · refine (Function.forall_update_iff s.pc fun j p => j ∈ insert i O ↔ p.counted = true).mpr
      ⟨iff_of_true (Finset.mem_insert_self i O) rfl, fun j hj => ?_⟩
    rw [Finset.mem_insert, or_iff_right hj]
    exact h.opens j
  · exact (Function.forall_update_iff s.pc fun j p => j ∈ C ↔ p = .closed).mpr
      ⟨iff_of_false hni nofun, fun j _ => h.releases j⟩
  · exact (Function.forall_update_iff s.pc fun _ p => p.Fits _ _).mpr
      ⟨trivial, fun j _ => (h.fits j).mono (by omega) le_rfl⟩
  · show v + 1 ≤ ((insert i O).card : ℤ)
    omega
  · show 1 - (C.card : ℤ) ≤ v + 1
    omega
  · intro he
    exact absurd (he ▸ Finset.mem_insert_self i O) hni

theorem Bounds.store_release (h : Bounds O C s) {v : ℤ} (hp : s.pc i = .loaded .releasing v) :
    Bounds O (insert i C) ⟨v - 1, Function.update s.pc i .closed⟩ := by
  have hi : i ∈ O := (h.opens i).mpr (by rw [hp]; rfl)
  have hni : i ∉ C := fun hc => nomatch hp.symm.trans ((h.releases i).mp hc)
  have hcard : (insert i C).card = C.card + 1 := Finset.card_insert_of_notMem hni
  have hfit := h.fits i
  rw [hp] at hfit
  obtain ⟨hle, hge⟩ := hfit
  refine ⟨?_, ?_, ?_, ?_, fun _ => ?_, fun he => absurd (he ▸ hi) (Finset.notMem_empty i),
    fun _ _ => ?_⟩
  · exact (Function.forall_update_iff s.pc fun j p => j ∈ O ↔ p.counted = true).mpr
      ⟨iff_of_true hi rfl, fun j _ => h.opens j⟩
  · refine (Function.forall_update_iff s.pc fun j p => j ∈ insert i C ↔ p = .closed).mpr
      ⟨iff_of_true (Finset.mem_insert_self i C) rfl, fun j hj => ?_⟩
    rw [Finset.mem_insert, or_iff_right hj]
    exact h.releases j
  · exact (Function.forall_update_iff s.pc fun _ p => p.Fits _ _).mpr
      ⟨trivial, fun j _ => (h.fits j).mono le_rfl (by omega)⟩
  · show v - 1 ≤ (O.card : ℤ)
    omega
  · show 1 - ((insert i C).card : ℤ) ≤ v - 1
    omega
  · show v - 1 < (O.card : ℤ)
    omega

theorem Bounds.step (h : Bounds O C s) {e : Ev ι} (he : step unbounded s e = some t) :
    ∃ O' C', Bounds O' C' t := by
  cases e with
  | load i =>
    simp only [Racing.step] at he
    split at he
    · rename_i hp
      obtain rfl := Option.some.inj he
      exact ⟨O, C, h.load (by rw [hp]; rfl) (by rw [hp]; nofun)⟩
    · rename_i hp
      obtain rfl := Option.some.inj he
      exact ⟨O, C, h.load (by rw [hp]; rfl) (by rw [hp]; nofun)⟩
    · cases he
  | store i =>
    simp only [Racing.step] at he
    split at he
    · rename_i hp
      obtain rfl := Option.some.inj he
      exact ⟨_, C, h.store_open hp⟩
    · rename_i hp
      obtain rfl := Option.some.inj he
      exact ⟨O, _, h.store_release hp⟩
    · cases he

omit [DecidableEq ι] in
theorem bounds_start : Bounds ∅ ∅ (start 0 : State ι ℤ) :=
  ⟨fun _ => iff_of_false (Finset.notMem_empty _) nofun,
    fun _ => iff_of_false (Finset.notMem_empty _) nofun, fun _ => trivial, le_rfl,
    fun h => absurd rfl h.ne_empty, fun _ => rfl, fun _ h => absurd rfl h.ne_empty⟩

theorem run_bounds {es : List (Ev ι)} (hr : Machine.run (Racing.step unbounded) (start 0) es = some s)
    {still closed : List ι} (hnd : (still ++ closed).Nodup) (hne : still ++ closed ≠ [])
    (hq : Quiet still closed s) :
    1 - (closed.length : ℤ) ≤ s.var ∧ s.var ≤ still.length + closed.length ∧
      (still = [] → s.var < closed.length) := by
  obtain ⟨O, C, h⟩ := Machine.run_inv _ (fun s => ∃ O C, Bounds O C s) ⟨∅, ∅, bounds_start⟩
    (fun s e t ⟨O, C, h⟩ he => h.step he) hr
  have hO : O = (still ++ closed).toFinset := by
    ext i
    rw [h.opens i, hq i, List.mem_toFinset, List.mem_append]
    split_ifs with hc hs
    · exact iff_of_true rfl (.inr hc)
    · exact iff_of_true rfl (.inl hs)
    · exact iff_of_false nofun fun hm => hm.elim hs hc
  have hC : C = closed.toFinset := by
    ext i
    rw [h.releases i, hq i, List.mem_toFinset]
    split_ifs with hc hs
    · exact iff_of_true rfl hc
    · exact iff_of_false nofun hc
    · exact iff_of_false nofun hc
  have hOcard : O.card = still.length + closed.length := by
    rw [hO, List.toFinset_card_of_nodup hnd, List.length_append]
  have hCcard : C.card = closed.length := by
    rw [hC, List.toFinset_card_of_nodup hnd.of_append_right]
  have hOne : O.Nonempty := by
    obtain ⟨i, hi⟩ := List.exists_mem_of_ne_nil _ hne
    exact ⟨i, by rw [hO]; exact List.mem_toFinset.mpr hi⟩
  have hle := h.le
  have hge := h.ge hOne
  refine ⟨by omega, by omega, fun hs => ?_⟩
  have hlast := h.last (by rw [hO, hC, hs, List.nil_append]) hOne
  rw [hOcard, hs, List.length_nil] at hlast
  omega

end Bounds

/-! ### Runs that reach them -/

section Reach

variable {ι : Type*} [DecidableEq ι]

/-- The files `l` are moved to `q`. -/
def paint (pc : ι → Pc ℤ) (l : List ι) (q : Pc ℤ) : ι → Pc ℤ := fun i => if i ∈ l then q else pc i

theorem paint_update (pc : ι → Pc ℤ) (i : ι) (l : List ι) (q : Pc ℤ) :
    paint (Function.update pc i q) l q = paint pc (i :: l) q := by
  funext j
  unfold paint
  by_cases hj : j = i
  · subst hj
    simp
  · simp [hj]

/-- Files that make the same step one after another, the counter going along `w`. -/
theorem run_paint {g : ι → List (Ev ι)} {p q : Pc ℤ} {w : ℕ → ℤ}
    (hg : ∀ n (pc : ι → Pc ℤ) i, pc i = p →
      Machine.run (step unbounded) ⟨w n, pc⟩ (g i) = some ⟨w (n + 1), Function.update pc i q⟩) :
    ∀ (l : List ι) (n : ℕ) (pc : ι → Pc ℤ), l.Nodup → (∀ i ∈ l, pc i = p) →
      Machine.run (step unbounded) ⟨w n, pc⟩ (l.flatMap g) = some ⟨w (n + l.length), paint pc l q⟩
  | [], n, pc, _, _ => rfl
  | i :: l, n, pc, hnd, hl => by
    obtain ⟨hi, hnd⟩ := List.nodup_cons.mp hnd
    have hrest : ∀ j ∈ l, Function.update pc i q j = p := by
      intro j hj
      have hne : j ≠ i := fun he => hi (he ▸ hj)
      rw [Function.update_of_ne hne]
      exact hl j (List.mem_cons_of_mem _ hj)
    rw [List.flatMap_cons, Machine.run_append, hg n pc i (hl i List.mem_cons_self)]
    show Machine.run _ _ (l.flatMap g) = _
    rw [run_paint hg l (n + 1) _ hnd hrest, paint_update, List.length_cons, Nat.add_right_comm,
      Nat.add_assoc]

theorem step_load_idle {v : ℤ} {pc : ι → Pc ℤ} {i : ι} (h : pc i = .idle) :
    step unbounded ⟨v, pc⟩ (.load i) = some ⟨v, Function.update pc i (.loaded .opening v)⟩ := by
  simp only [step, h]

theorem step_load_opened {v : ℤ} {pc : ι → Pc ℤ} {i : ι} (h : pc i = .opened) :
    step unbounded ⟨v, pc⟩ (.load i) = some ⟨v, Function.update pc i (.loaded .releasing v)⟩ := by
  simp only [step, h]

theorem step_store_opening {v w : ℤ} {pc : ι → Pc ℤ} {i : ι} (h : pc i = .loaded .opening w) :
    step unbounded ⟨v, pc⟩ (.store i) = some ⟨w + 1, Function.update pc i .opened⟩ := by
  simp only [step, h, unbounded]

theorem step_store_releasing {v w : ℤ} {pc : ι → Pc ℤ} {i : ι} (h : pc i = .loaded .releasing w) :
    step unbounded ⟨v, pc⟩ (.store i) = some ⟨w - 1, Function.update pc i .closed⟩ := by
  simp only [step, h, unbounded]

/-- A call that is not disturbed. -/
def whole (i : ι) : List (Ev ι) := [.load i, .store i]

theorem run_open {v : ℤ} {pc : ι → Pc ℤ} {i : ι} (h : pc i = .idle) :
    Machine.run (step unbounded) ⟨v, pc⟩ (whole i) = some ⟨v + 1, Function.update pc i .opened⟩ := by
  rw [whole, Machine.run_cons, step_load_idle h, Option.bind_some, Machine.run_cons,
    step_store_opening (Function.update_self ..), Function.update_idem]
  rfl

theorem run_release {v : ℤ} {pc : ι → Pc ℤ} {i : ι} (h : pc i = .opened) :
    Machine.run (step unbounded) ⟨v, pc⟩ (whole i) = some ⟨v - 1, Function.update pc i .closed⟩ := by
  rw [whole, Machine.run_cons, step_load_opened h, Option.bind_some, Machine.run_cons,
    step_store_releasing (Function.update_self ..), Function.update_idem]
  rfl

theorem run_opens (v : ℤ) {l : List ι} {pc : ι → Pc ℤ} (hnd : l.Nodup) (hl : ∀ i ∈ l, pc i = .idle) :
    Machine.run (step unbounded) ⟨v, pc⟩ (l.flatMap whole) =
      some ⟨v + l.length, paint pc l .opened⟩ := by
  have h := run_paint (w := fun n => v + n) (fun n pc i hi => by
    rw [run_open hi, Nat.cast_succ, Int.add_assoc]) l 0 pc hnd hl
  simpa using h

theorem run_releases (v : ℤ) {l : List ι} {pc : ι → Pc ℤ} (hnd : l.Nodup)
    (hl : ∀ i ∈ l, pc i = .opened) :
    Machine.run (step unbounded) ⟨v, pc⟩ (l.flatMap whole) =
      some ⟨v - l.length, paint pc l .closed⟩ := by
  have h := run_paint (w := fun n => v - n) (fun n pc i hi => by
    rw [run_release hi, Nat.cast_succ, Int.sub_sub]) l 0 pc hnd hl
  simpa using h

/-- The calls that open the files `l` all load before the first of them stores. -/
def race (l : List ι) : List (Ev ι) := l.flatMap (fun i => [.load i]) ++ l.flatMap fun i => [.store i]

theorem run_race {l : List ι} (hnd : l.Nodup) (hne : l ≠ []) :
    Machine.run (step unbounded) (start 0) (race l) = some ⟨1, paint (fun _ => .idle) l .opened⟩ := by
  have hload := run_paint (g := fun i => [.load i]) (p := .idle) (q := .loaded .opening 0)
    (w := fun _ => 0) (fun n pc i hi => by
      rw [Machine.run_cons, step_load_idle hi]
      rfl) l 0 (fun _ => .idle) hnd fun _ _ => rfl
  have hstore := run_paint (g := fun i => [.store i]) (p := .loaded .opening 0) (q := .opened)
    (w := fun n => if n = 0 then 0 else 1) (fun n pc i hi => by
      rw [Machine.run_cons, step_store_opening hi]
      rfl) l 0 (paint (fun _ => .idle) l (.loaded .opening 0)) hnd fun i hi => if_pos hi
  have hpaint : paint (paint (fun _ => .idle) l (.loaded .opening 0)) l .opened =
      paint (fun _ => .idle) l .opened := by
    funext i
    unfold paint
    split_ifs <;> rfl
  have hlen : 0 + l.length ≠ 0 := by
    rw [Nat.zero_add]
    exact fun h => hne (List.length_eq_zero_iff.mp h)
  rw [race, Machine.run_append]
  refine (congrArg (fun o => Option.bind o fun t => Machine.run (step unbounded) t _) hload).trans ?_
  refine hstore.trans ?_
  rw [if_neg hlen, hpaint]

/-- All files race for the opening; what is to be closed is closed then. -/
theorem reach_low {still closed : List ι} (hnd : (still ++ closed).Nodup)
    (hne : still ++ closed ≠ []) : ∃ es s, Machine.run (step unbounded) (start 0) es = some s ∧
      Quiet still closed s ∧ s.var = 1 - closed.length := by
  have hrel : Machine.run (step unbounded) ⟨1, paint (fun _ => .idle) (still ++ closed) .opened⟩
      (closed.flatMap whole) = _ := run_releases 1 hnd.of_append_right fun i hi => if_pos (List.mem_append_right _ hi)
  refine ⟨race (still ++ closed) ++ closed.flatMap whole,
    ⟨1 - closed.length, paint (paint (fun _ => .idle) (still ++ closed) .opened) closed .closed⟩,
    ?_, fun i => ?_, rfl⟩
  · rw [Machine.run_append, run_race hnd hne]
    exact hrel
  · show (if i ∈ closed then Pc.closed else if i ∈ still ++ closed then .opened else .idle) = _
    by_cases hc : i ∈ closed
    · rw [if_pos hc, if_pos hc]
    · simp [hc]

/-- The files of `racing` race for the opening, and those of `seq` are opened one by one. -/
theorem run_others {racing seq : List ι} (hnd : (racing ++ seq).Nodup) (hne : racing ≠ []) :
    ∃ pc, Machine.run (step unbounded) (start 0) (race racing ++ seq.flatMap whole) =
        some ⟨1 + seq.length, pc⟩ ∧
      ∀ i, pc i = if i ∈ racing ++ seq then .opened else .idle := by
  have hdisj := List.disjoint_of_nodup_append hnd
  refine ⟨paint (paint (fun _ => .idle) racing .opened) seq .opened, ?_, fun i => ?_⟩
  · rw [Machine.run_append, run_race hnd.of_append_left hne]
    exact run_opens 1 hnd.of_append_right fun i hi => if_neg fun h => hdisj h hi
  · show (if i ∈ seq then Pc.opened else if i ∈ racing then .opened else .idle) = _
    by_cases hs : i ∈ seq <;> by_cases hr : i ∈ racing <;> simp [hs, hr]

/-- `b` loads before the files of `l` are closed, and stores after that. -/
theorem run_across {b : ι} {l : List ι} {v : ℤ} {pc : ι → Pc ℤ} (hb : pc b = .idle)
    (hnd : l.Nodup) (hl : ∀ i ∈ l, pc i = .opened) :
    ∃ pc', Machine.run (step unbounded) ⟨v, pc⟩ (.load b :: (l.flatMap whole ++ [.store b])) =
        some ⟨v + 1, pc'⟩ ∧
      ∀ i, pc' i = if i ∈ l then .closed else if i = b then .opened else pc i := by
  have hbl : b ∉ l := by
    intro h
    have hopened := hl b h
    rw [hb] at hopened
    cases hopened
  let p := Function.update pc b (.loaded .opening v)
  have hrel : Machine.run (step unbounded) ⟨v, p⟩ (l.flatMap whole) =
      some ⟨v - l.length, paint p l .closed⟩ :=
    run_releases v hnd fun i hi => by
      have hib : i ≠ b := fun h => hbl (h ▸ hi)
      show Function.update pc b _ i = _
      rw [Function.update_of_ne hib]
      exact hl i hi
  have hstore : step unbounded ⟨v - l.length, paint p l .closed⟩ (.store b) =
      some ⟨v + 1, Function.update (paint p l .closed) b .opened⟩ := by
    apply step_store_opening
    show (if b ∈ l then _ else Function.update pc b _ b) = _
    rw [if_neg hbl, Function.update_self]
  refine ⟨Function.update (paint p l .closed) b .opened, ?_, fun i => ?_⟩
  · rw [Machine.run_cons, step_load_idle hb, Option.bind_some, Machine.run_append, hrel,
      Option.bind_some, Machine.run_cons, hstore]
    rfl
  · by_cases hib : i = b
    · rw [hib, Function.update_self, if_neg hbl, if_pos rfl]
    · rw [Function.update_of_ne hib, if_neg hib]
      show (if i ∈ l then Pc.closed else Function.update pc b _ i) = _
      rw [Function.update_of_ne hib]

/-- `b` loads after the files of `racing` have raced for the opening and those of `seq` have
been opened one by one, and stores when those of `c₁` have been closed. -/
theorem reach_high {b : ι} (racing seq : List ι) {c₁ c₂ : List ι} (hnd : (b :: (racing ++ seq)).Nodup)
    (hne : racing ≠ []) (hc : (c₁ ++ c₂).Nodup) (h₁ : ∀ i ∈ c₁, i ∈ racing ++ seq)
    (h₂ : ∀ i ∈ c₂, i ∈ b :: (racing ++ seq)) :
    ∃ es s, Machine.run (step unbounded) (start 0) es = some s ∧
      (∀ i, s.pc i = if i ∈ c₁ ++ c₂ then .closed else
        if i ∈ b :: (racing ++ seq) then .opened else .idle) ∧
      s.var = seq.length + 2 - c₂.length := by
  obtain ⟨hb, hothers⟩ := List.nodup_cons.mp hnd
  obtain ⟨p, hrun, hp⟩ := run_others hothers hne
  have hidle : p b = .idle := (hp b).trans (if_neg hb)
  obtain ⟨q, hacross, hq⟩ := run_across (v := 1 + seq.length) hidle hc.of_append_left
    fun i hi => (hp i).trans (if_pos (h₁ i hi))
  have hdisj := List.disjoint_of_nodup_append hc
  have hopened : ∀ i ∈ c₂, q i = .opened := by
    intro i hi
    rw [hq, if_neg fun h => hdisj h hi]
    by_cases hib : i = b
    · exact if_pos hib
    · rw [if_neg hib, hp]
      exact if_pos ((List.mem_cons.mp (h₂ i hi)).resolve_left hib)
  refine ⟨race racing ++ seq.flatMap whole ++ .load b :: (c₁.flatMap whole ++ [.store b]) ++
    c₂.flatMap whole, ⟨1 + seq.length + 1 - c₂.length, paint q c₂ .closed⟩, ?_, fun i => ?_, ?_⟩
  · rw [Machine.run_append, Machine.run_append, hrun, Option.bind_some, hacross, Option.bind_some]
    exact run_releases (1 + seq.length + 1) hc.of_append_right hopened
  · show (if i ∈ c₂ then Pc.closed else q i) = _
    rw [hq, hp]
    simp only [List.mem_append, List.mem_cons]
    split_ifs <;> first | rfl | tauto
  · show (1 : ℤ) + seq.length + 1 - c₂.length = seq.length + 2 - c₂.length
    omega

/-- Any value between is reached by letting fewer files race. -/
theorem reach_between {b : ι} (others c₁ c₂ : List ι) (hnd : (b :: others).Nodup)
    (hc : (c₁ ++ c₂).Nodup) (h₁ : ∀ i ∈ c₁, i ∈ others) (h₂ : ∀ i ∈ c₂, i ∈ b :: others) {z : ℤ}
    (hlow : 2 - (c₂.length : ℤ) ≤ z) (hhigh : z ≤ others.length + 1 - c₂.length) :
    ∃ es s, Machine.run (step unbounded) (start 0) es = some s ∧
      (∀ i, s.pc i = if i ∈ c₁ ++ c₂ then .closed else if i ∈ b :: others then .opened else .idle) ∧
      s.var = z := by
  obtain ⟨m, hm⟩ : ∃ m : ℕ, (m : ℤ) = others.length + 2 - c₂.length - z :=
    ⟨_, Int.toNat_of_nonneg (by omega)⟩
  have hsplit := List.take_append_drop m others
  have hne : others.take m ≠ [] := by
    intro h
    have hlen := congrArg List.length h
    rw [List.length_take, List.length_nil] at hlen
    omega
  obtain ⟨es, s, hr, hpc, hvar⟩ := reach_high (b := b) (others.take m) (others.drop m)
    (by rw [hsplit]; exact hnd) hne hc (by rw [hsplit]; exact h₁)
    (by rw [hsplit]; exact h₂)
  rw [hsplit] at hpc
  refine ⟨es, s, hr, hpc, ?_⟩
  rw [hvar, List.length_drop]
  omega

theorem reach {still closed : List ι} (hnd : (still ++ closed).Nodup) (hne : still ++ closed ≠ [])
    {z : ℤ} (hlow : 1 - (closed.length : ℤ) ≤ z) (hhigh : z ≤ still.length + closed.length)
    (hlast : still = [] → z < closed.length) :
    ∃ es s, Machine.run (step unbounded) (start 0) es = some s ∧ Quiet still closed s ∧
      s.var = z := by
  by_cases hz : z = 1 - closed.length
  · rw [hz]
    exact reach_low hnd hne
  rcases still with _ | ⟨b, still⟩
  · -- one of the files that are closed in the end is the last to store
    have hlt := hlast rfl
    rcases closed with _ | ⟨b, closed⟩
    · exact absurd rfl hne
    have hlen : ((b :: closed).length : ℤ) = closed.length + 1 := by rw [List.length_cons]; omega
    obtain ⟨d, hd⟩ : ∃ d : ℕ, (d : ℤ) = closed.length - max (1 - z) 0 :=
      ⟨_, Int.toNat_of_nonneg (by omega)⟩
    have hdrop : ((closed.drop d).length : ℤ) = max (1 - z) 0 := by rw [List.length_drop]; omega
    have hperm : (closed.take d ++ b :: closed.drop d).Perm (b :: closed) := by
      refine List.perm_middle.trans ?_
      rw [List.take_append_drop]
    obtain ⟨es, s, hr, hpc, hvar⟩ := reach_between closed (closed.take d)
      (b :: closed.drop d) (z := z) hnd (hperm.nodup_iff.mpr hnd) (fun i hi => List.mem_of_mem_take hi)
      (fun i hi => (List.mem_cons.mp hi).elim (fun h => h ▸ List.mem_cons_self)
        fun h => List.mem_cons_of_mem _ (List.mem_of_mem_drop h))
      (by rw [List.length_cons]; omega) (by rw [List.length_cons]; omega)
    refine ⟨es, s, hr, fun i => ?_, hvar⟩
    rw [hpc i]
    by_cases hi : i ∈ b :: closed
    · rw [if_pos (hperm.mem_iff.mpr hi), if_pos hi]
    · rw [if_neg hi, if_neg fun h => hi (hperm.mem_iff.mp h), if_neg hi]
      rfl
  · have hlen : ((b :: still).length : ℤ) = still.length + 1 := by rw [List.length_cons]; omega
    obtain ⟨d, hd⟩ : ∃ d : ℕ, (d : ℤ) = closed.length - max (2 - z) 0 :=
      ⟨_, Int.toNat_of_nonneg (by omega)⟩
    have hdrop : ((closed.drop d).length : ℤ) = max (2 - z) 0 := by rw [List.length_drop]; omega
    have hsplit := List.take_append_drop d closed
    obtain ⟨es, s, hr, hpc, hvar⟩ := reach_between (b := b) (still ++ closed)
      (closed.take d) (closed.drop d) (z := z) hnd
      (by rw [hsplit]; exact hnd.of_append_right)
      (fun i hi => List.mem_append_right _ (List.mem_of_mem_take hi))
      (fun i hi => List.mem_cons_of_mem _ (List.mem_append_right _ (List.mem_of_mem_drop hi)))
      (by omega) (by rw [List.length_append]; omega)
    refine ⟨es, s, hr, fun i => ?_, hvar⟩
    rw [hpc i, hsplit]
    by_cases hi : i ∈ closed
    · rw [if_pos hi, if_pos hi]
    · simp [hi]

end Reach

/-- **The racing counter.** After the calls for the files `still`, which are open, and `closed`,
which are closed, the counter may hold exactly these values. -/
theorem count_iff {ι : Type*} [DecidableEq ι] {still closed : List ι} (hnd : (still ++ closed).Nodup)
    (hne : still ++ closed ≠ []) (v : BitVec 32) :
    (∃ es s, Machine.run (step Opens.my_fops) (start 0) es = some s ∧ Quiet still closed s ∧
      s.var = v) ↔
    ∃ z : ℤ, 1 - (closed.length : ℤ) ≤ z ∧ z ≤ still.length + closed.length ∧
      (still = [] → z < closed.length) ∧ v = BitVec.ofInt 32 z := by
  have hstart : (start 0 : State ι (BitVec 32)) = State.wrap (start 0) := rfl
  constructor
  · rintro ⟨es, s, hr, hq, rfl⟩
    rw [hstart, run_wrap] at hr
    obtain ⟨t, ht, rfl⟩ := Option.map_eq_some_iff.mp hr
    obtain ⟨hlow, hhigh, hlast⟩ := run_bounds ht hnd hne (quiet_wrap.mp hq)
    exact ⟨t.var, hlow, hhigh, hlast, rfl⟩
  · rintro ⟨z, hlow, hhigh, hlast, rfl⟩
    obtain ⟨es, s, hr, hq, rfl⟩ := reach hnd hne hlow hhigh hlast
    refine ⟨es, s.wrap, ?_, quiet_wrap.mpr hq, rfl⟩
    rw [hstart, run_wrap, hr]
    rfl

/-- Two files have been opened and closed, and the counter holds `2^32 - 1`. -/
theorem count_below_zero : ∃ es s, Machine.run (step Opens.my_fops) (start 0) es = some s ∧
    Quiet [] [0, 1] s ∧ s.var = 0xffffffff#32 :=
  (count_iff (show ([] ++ [0, 1]).Nodup by decide) (by decide) 0xffffffff#32).mpr
    ⟨-1, by decide, by decide, fun _ => by decide, rfl⟩

end Racing
end Pb173
