/-
# The sessions of the writers (04, 06)

The two locks of `my_write_device` together: `my_write_open` lets one file in at
a time, and `buf_write` stores under `buf_mutex`. A write is called on a file
that is open for writing, and a file is released when no call on it is in
progress; all steps of the opens, of the releases and of the calls interleave
in any way, with reads of `my_read_device` in between.

The open alone says who is next: the writes, in the order in which they are
executed, are all those of the first file that got the device, then all those of
the second, and so on (`sessions`). A client that writes its message in a loop
between its open and its close has it written as a whole: when all clients are
done, the buffer is that of the messages written one after the other, in the
order of the opens (`messages`).
-/
import Pb173.Chunks
import Pb173.Opens

namespace Pb173
namespace Sessions

open Buffer Chunks
open Pb173.Opens (Holds One)

/-! ### The order of the opens -/

section Order

variable {ι : Type*} [DecidableEq ι] {write : ι → Bool} {s t : Opens.State ι ℤ}

/-- The files in the order in which `my_write_open` came to its update. -/
def order (es : List (Opens.Ev ι)) : List ι :=
  es.filterMap fun e => if e.act = .store ∧ e.op = .opening then some e.i else none

omit [DecidableEq ι] in
theorem order_concat (es : List (Opens.Ev ι)) (e : Opens.Ev ι) :
    order (es ++ [e]) =
      order es ++ if e.act = .store ∧ e.op = .opening then [e.i] else [] := by
  unfold order
  rw [List.filterMap_append]
  by_cases h : e.act = .store ∧ e.op = .opening
  · simp [h]
  · simp [h]

/-- Before the update of `my_write_open`. -/
def early : Opens.Pc ℤ → Bool
  | .idle | .wait .opening | .locked .opening | .loaded .opening _ => true
  | _ => false

/-- The open has returned 0. -/
def admitted : Opens.Pc ℤ → Bool
  | .opened | .closed => true
  | .wait .releasing | .locked .releasing | .loaded .releasing _ | .stored .releasing _
  | .unlocked .releasing _ | .skipped .releasing => true
  | _ => false

theorem step_place {e : Opens.Ev ι} (he : Opens.step Opens.buf_write_fops write s e = some t) (i : ι) :
    (early (t.pc i) = true → early (s.pc i) = true) ∧
    (admitted (s.pc i) = true → admitted (t.pc i) = true) ∧
    ((s.pc i).denied = true → (t.pc i).denied = true) := by
  by_cases hi : i = e.i
  · subst hi
    cases Opens.Step.of_step he with
    | enter _ hp =>
      rcases hp with ⟨hp, ho⟩ | ⟨hp, ho⟩ <;> rw [hp, ho] <;> simp only [Function.update_self] <;>
        cases write e.i <;> decide
    | lock _ hp | load _ hp | store _ _ hp | unlock _ _ hp | skip _ hp =>
      rw [hp]
      cases e.op <;> simp [early, admitted, Opens.Pc.denied, Opens.afterSkip]
    | ret v _ hp =>
      rw [hp]
      simp only [Function.update_self]
      cases hop : e.op with
      | opening =>
        cases hok : Opens.my_write_open.ok v <;>
          simp [Opens.after, Opens.buf_write_fops, hok, early, admitted, Opens.Pc.denied]
      | releasing => simp [Opens.after, early, admitted, Opens.Pc.denied]
  · rw [Opens.step_pc_of_ne he hi]
    exact ⟨id, id, id⟩

/-- A file that holds the device held it before, or has just been let in. -/
theorem holds_back (hi : Opens.Inv write s) {e : Opens.Ev ι}
    (he : Opens.step Opens.buf_write_fops write s e = some t) {i : ι} (hh : Holds write t i) :
    Holds write s i ∨ (e.act = .store ∧ e.op = .opening ∧ e.i = i) := by
  obtain ⟨hw, hh⟩ := hh
  by_cases hei : i = e.i
  · subst hei
    cases Opens.Step.of_step he with
    | enter _ hp =>
      simp only [Function.update_self, hw] at hh
      rcases hp with ⟨-, ho⟩ | ⟨hp, -⟩
      · rw [ho] at hh
        cases hh
      · exact .inl ⟨hw, by rw [hp]; rfl⟩
    | lock _ hp | load _ hp =>
      simp only [Function.update_self] at hh
      refine .inl ⟨hw, ?_⟩
      rw [hp]
      cases hop : e.op <;> rw [hop] at hh
      · cases hh
      · rfl
    | store v ha hp =>
      simp only [Function.update_self] at hh
      cases hop : e.op with
      | opening => exact .inr ⟨ha, rfl, rfl⟩
      | releasing =>
        rw [hop] at hh
        cases hh
    | unlock v _ hp =>
      simp only [Function.update_self] at hh
      refine .inl ⟨hw, ?_⟩
      rw [hp]
      cases hop : e.op <;> rw [hop] at hh
      · exact hh
      · cases hh
    | ret v _ hp =>
      simp only [Function.update_self] at hh
      refine .inl ⟨hw, ?_⟩
      rw [hp]
      cases hop : e.op <;> rw [hop] at hh
      · cases hok : Opens.my_write_open.ok v
        · simp [Opens.after, Opens.buf_write_fops, hok, Opens.Pc.held] at hh
        · exact hok
      · cases hh
    | skip _ hp =>
      have hno := hi.skipped e.i (by rw [hp]; rfl)
      rw [hw] at hno
      cases hno
  · rw [Opens.step_pc_of_ne he hei] at hh
    exact .inl ⟨hw, hh⟩

theorem opening_store {e : Opens.Ev ι} (he : Opens.step Opens.buf_write_fops write s e = some t)
    (hst : e.act = .store ∧ e.op = .opening) :
    ∃ v, s.pc e.i = .loaded .opening v ∧ t.pc e.i = .stored .opening v := by
  cases Opens.Step.of_step he with
  | store v _ hp => exact ⟨v, hst.2 ▸ hp, by rw [← hst.2]; exact Function.update_self ..⟩
  | enter ha | lock ha | load ha | unlock _ ha | ret _ ha | skip ha =>
    rw [ha] at hst
    cases hst.1

/-- `open` of the file has returned 0, and its `release` has not begun. -/
def isOpened : Opens.Pc ℤ → Bool
  | .opened => true
  | _ => false

theorem isOpened_iff {p : Opens.Pc ℤ} : isOpened p = true ↔ p = .opened := by
  cases p <;> simp [isOpened]

theorem opened_stays {e : Opens.Ev ι} (he : Opens.step Opens.buf_write_fops write s e = some t)
    {i : ι} (ho : isOpened (s.pc i) = true)
    (hrel : ¬ (e.act = .enter ∧ e.op = .releasing ∧ e.i = i)) : isOpened (t.pc i) = true := by
  by_cases hi : i = e.i
  · subst hi
    have hp := isOpened_iff.mp ho
    cases Opens.Step.of_step he with
    | enter ha hp' =>
      rcases hp' with ⟨hp', -⟩ | ⟨-, hop⟩
      · rw [hp] at hp'
        cases hp'
      · exact absurd ⟨ha, hop, rfl⟩ hrel
    | lock _ hp' | load _ hp' | store _ _ hp' | unlock _ _ hp' | ret _ _ hp' | skip _ hp' =>
      rw [hp] at hp'
      cases hp'
  · rw [Opens.step_pc_of_ne he hi]
    exact ho

/-- The release of the file has begun. -/
def leaving : Opens.Pc ℤ → Bool
  | .wait .releasing | .locked .releasing | .loaded .releasing _ | .stored .releasing _
  | .unlocked .releasing _ | .skipped .releasing | .closed => true
  | _ => false

/-- A file is leaving because it was, or because its release has just begun. -/
theorem leaving_back {e : Opens.Ev ι} (he : Opens.step Opens.buf_write_fops write s e = some t)
    {i : ι} (hl : leaving (t.pc i) = true) :
    leaving (s.pc i) = true ∨ (e.act = .enter ∧ e.op = .releasing ∧ e.i = i) := by
  by_cases hi : i = e.i
  · subst hi
    cases Opens.Step.of_step he with
    | enter ha hp =>
      rcases hp with ⟨-, hop⟩ | ⟨-, hop⟩
      · simp only [Function.update_self, hop] at hl
        cases hw : write e.i <;> rw [hw] at hl <;> cases hl
      · exact .inr ⟨ha, hop, rfl⟩
    | lock _ hp | load _ hp | store _ _ hp | unlock _ _ hp | skip _ hp =>
      left
      simp only [Function.update_self] at hl
      rw [hp]
      cases hop : e.op <;> rw [hop] at hl <;> first | rfl | cases hl
    | ret v _ hp =>
      left
      simp only [Function.update_self] at hl
      rw [hp]
      cases hop : e.op <;> rw [hop] at hl
      · cases hok : Opens.my_write_open.ok v <;>
          simp [Opens.after, Opens.buf_write_fops, hok, leaving] at hl
      · rfl
  · rw [Opens.step_pc_of_ne he hi] at hl
    exact .inl hl

/-- A file past the update of its open holds the device, was turned away, or is
leaving. -/
theorem place_cases {p : Opens.Pc ℤ} (he : early p = false) (hs : p.isSkipped = false) :
    p.held = true ∨ p.denied = true ∨ leaving p = true := by
  rcases p with _ | (_ | _) | (_ | _) | ⟨_ | _, v⟩ | ⟨_ | _, v⟩ | ⟨_ | _, v⟩ | (_ | _) | _ | _ | _ <;>
    simp_all [early, Opens.Pc.isSkipped, Opens.Pc.held, Opens.Pc.denied, leaving]

/-- Every file is let in once, and those that came after the one that holds the
device were turned away. -/
structure Queue (write : ι → Bool) (es : List (Opens.Ev ι)) (s : Opens.State ι ℤ) : Prop where
  nodup : (order es).Nodup
  writes : ∀ j ∈ order es, write j = true
  past : ∀ j ∈ order es, early (s.pc j) = false
  behind : ∀ i, Holds write s i → ∃ pre post, order es = pre ++ i :: post ∧
    ∀ j ∈ post, (s.pc j).denied = true

theorem Queue.step {es : List (Opens.Ev ι)} (hi : Opens.Inv write s) (ho : One write s)
    (hq : Queue write es s) {e : Opens.Ev ι}
    (he : Opens.step Opens.buf_write_fops write s e = some t) : Queue write (es ++ [e]) t := by
  have hpast : ∀ j ∈ order es, early (t.pc j) = false := by
    intro j hj
    by_contra hc
    have := (step_place he j).1 (by simpa using hc)
    rw [hq.past j hj] at this
    cases this
  by_cases hst : e.act = .store ∧ e.op = .opening
  · -- the update of an open
    have hord : order (es ++ [e]) = order es ++ [e.i] := by rw [order_concat, if_pos hst]
    obtain ⟨v, hp, ht⟩ := opening_store he hst
    have hv : v = s.var := hi.fresh e.i .opening v hp
    refine ⟨?_, fun j hj => ?_, fun j hj => ?_, fun i hh => ?_⟩
    · rw [hord, List.nodup_append]
      refine ⟨hq.nodup, List.nodup_singleton _, fun a ha b hb => ?_⟩
      rintro rfl
      rw [List.mem_singleton] at hb
      have := hq.past a ha
      rw [hb, hp] at this
      cases this
    · rw [hord, List.mem_append, List.mem_singleton] at hj
      rcases hj with hj | rfl
      · exact hq.writes j hj
      · exact hi.onPath e.i (by rw [hp]; rfl)
    · rw [hord, List.mem_append, List.mem_singleton] at hj
      rcases hj with hj | rfl
      · exact hpast j hj
      · rw [ht]
        rfl
    · rw [hord]
      by_cases hie : i = e.i
      · exact ⟨order es, [], by rw [hie], nofun⟩
      · rcases holds_back hi he hh with hs | ⟨-, -, rfl⟩
        · obtain ⟨pre, post, hpp, hden⟩ := hq.behind i hs
          refine ⟨pre, post ++ [e.i], by rw [hpp]; simp, fun j hj => ?_⟩
          rw [List.mem_append, List.mem_singleton] at hj
          rcases hj with hj | rfl
          · exact (step_place he j).2.2 (hden j hj)
          · have h1 : s.var ≠ 0 := by
              rcases ho with ⟨-, hno⟩ | ⟨k, h1, -⟩
              · exact absurd hs (hno i)
              · omega
            rw [ht, hv]
            simp [Opens.Pc.denied, Opens.my_write_open, h1]
        · exact absurd rfl hie
  · have hord : order (es ++ [e]) = order es := by rw [order_concat, if_neg hst, List.append_nil]
    refine ⟨hord ▸ hq.nodup, hord ▸ hq.writes, hord ▸ hpast, fun i hh => ?_⟩
    rcases holds_back hi he hh with hs | ⟨h1, h2, -⟩
    · obtain ⟨pre, post, hpp, hden⟩ := hq.behind i hs
      exact ⟨pre, post, hord ▸ hpp, fun j hj => (step_place he j).2.2 (hden j hj)⟩
    · exact absurd ⟨h1, h2⟩ hst

/-- **The queue** of every run. -/
theorem run_queue {es : List (Opens.Ev ι)}
    (h : Machine.run (Opens.step Opens.buf_write_fops write) (Opens.start 0) es = some s) :
    Queue write es s := by
  refine Machine.run_hist _ (Queue write) ⟨List.nodup_nil, nofun, nofun, fun i hh => by cases hh.2⟩ ?_ es s h
  intro es s e t hr ih he
  exact ih.step (Opens.run_inv hr) (Opens.run_one hr) he

end Order

/-! ### Groups -/

section Groups

variable {ι κ : Type*} [DecidableEq ι] {owner : κ → ι}

/-- `ws` is, for each of the files `is` in turn, all that belongs to it. -/
def Grouped (owner : κ → ι) (is : List ι) (ws : List κ) : Prop :=
  ws = is.flatMap fun i => ws.filter fun k => owner k = i

theorem filter_eq_nil {ws : List κ} {i : ι} (h : ∀ k ∈ ws, owner k ≠ i) :
    (ws.filter fun k => owner k = i) = [] := by
  rw [List.filter_eq_nil_iff]
  intro k hk
  simpa using h k hk

theorem Grouped.file {is : List ι} {ws : List κ} (h : Grouped owner is ws) {j : ι}
    (hj : ∀ k ∈ ws, owner k ≠ j) : Grouped owner (is ++ [j]) ws := by
  unfold Grouped
  rw [List.flatMap_append, List.flatMap_singleton, filter_eq_nil hj, List.append_nil]
  exact h

/-- One call more, of a file behind which no other has any. -/
theorem Grouped.call {pre post : List ι} {ws : List κ} {k : κ}
    (h : Grouped owner (pre ++ owner k :: post) ws) (hnd : (pre ++ owner k :: post).Nodup)
    (hpost : ∀ j ∈ post, ∀ x ∈ ws, owner x ≠ j) :
    Grouped owner (pre ++ owner k :: post) (ws ++ [k]) := by
  have hother : ∀ j, j ≠ owner k →
      ((ws ++ [k]).filter fun x => owner x = j) = ws.filter fun x => owner x = j := by
    intro j hj
    rw [List.filter_append, List.filter_singleton]
    simp [Ne.symm hj]
  have hself : ((ws ++ [k]).filter fun x => owner x = owner k) =
      (ws.filter fun x => owner x = owner k) ++ [k] := by
    rw [List.filter_append, List.filter_singleton]
    simp
  obtain ⟨-, hcons, hdisj⟩ := List.nodup_append.mp hnd
  have hpre : ∀ j ∈ pre, j ≠ owner k := fun j hj => hdisj j hj _ List.mem_cons_self
  have hpost' : ∀ j ∈ post, j ≠ owner k := by
    rintro j hj rfl
    exact (List.nodup_cons.mp hcons).1 hj
  have hnil : (post.flatMap fun j => ws.filter fun x => owner x = j) = [] :=
    List.flatMap_eq_nil_iff.mpr fun j hj => filter_eq_nil (hpost j hj)
  have hpre' : (pre.flatMap fun j => (ws ++ [k]).filter fun x => owner x = j) =
      pre.flatMap fun j => ws.filter fun x => owner x = j :=
    List.flatMap_congr fun j hj => hother j (hpre j hj)
  have hpost'' : (post.flatMap fun j => (ws ++ [k]).filter fun x => owner x = j) = [] :=
    (List.flatMap_congr fun j hj => hother j (hpost' j hj)).trans hnil
  unfold Grouped at h ⊢
  rw [List.flatMap_append, List.flatMap_cons, hnil, List.append_nil] at h
  rw [List.flatMap_append, List.flatMap_cons, hpre', hself, hpost'', List.append_nil,
    ← List.append_assoc, ← h]

end Groups

/-! ### Files and calls together -/

section Machine

variable {ι κ : Type*} [DecidableEq ι] [DecidableEq κ] (write : ι → Bool) (owner : κ → ι)
  (srfb : SimpleReadFromBuffer) (calls : κ → Call)

/-- The files of `my_write_device`, the calls of `buf_write` and `buf_read`, and
those of them that are in progress. -/
structure State (ι κ : Type*) where
  files : Opens.State ι ℤ
  calls : Lock.State κ (Option Buf) Local Left ReadOut
  active : List κ

abbrev Ev (ι κ : Type*) := Opens.Ev ι ⊕ Lock.Ev κ

/-- What the VFS lets through: a write only on a file that is open for writing,
and a release only of a file on which no write is in progress. -/
def allowed (s : State ι κ) : Ev ι κ → Bool
  | .inl e => !(decide (e.act = .enter) && decide (e.op = .releasing)) ||
      s.active.all fun k => !(calls k).isWrite || decide (owner k ≠ e.i)
  | .inr (.enter k) =>
      !(calls k).isWrite || (isOpened (s.files.pc (owner k)) && write (owner k))
  | .inr _ => true

/-- The calls in progress after an event; a call may return at once. -/
def progress (active : List κ) : Ev ι κ → List κ
  | .inr (.enter k) => if ((code srfb calls).enter k).isLeft then k :: active else active
  | .inr (.exit k) => active.filter fun x => x ≠ k
  | _ => active

/-- The files and the calls side by side. -/
abbrev beside : Opens.State ι ℤ × Lock.State κ (Option Buf) Local Left ReadOut → Ev ι κ →
    Option (Opens.State ι ℤ × Lock.State κ (Option Buf) Local Left ReadOut) :=
  Machine.prodStep (Opens.step Opens.buf_write_fops write) (Lock.step (code srfb calls))

def step (s : State ι κ) (e : Ev ι κ) : Option (State ι κ) :=
  if allowed write owner calls s e then
    (beside write srfb calls (s.files, s.calls) e).map fun t =>
      ⟨t.1, t.2, progress srfb calls s.active e⟩
  else none

def start (b : Buf) : State ι κ := ⟨Opens.start 0, Lock.start (some b), []⟩

variable {write owner srfb calls} {s t : State ι κ}

theorem of_step {e : Ev ι κ} (h : step write owner srfb calls s e = some t) :
    allowed write owner calls s e = true ∧
      beside write srfb calls (s.files, s.calls) e = some (t.files, t.calls) ∧
      t.active = progress srfb calls s.active e := by
  unfold step at h
  split_ifs at h with ha
  obtain ⟨u, hu, rfl⟩ := Option.map_eq_some_iff.mp h
  exact ⟨ha, hu, rfl⟩

theorem run_parts {b : Buf} {es : List (Ev ι κ)}
    (h : Machine.run (step write owner srfb calls) (start b) es = some s) :
    Machine.run (Opens.step Opens.buf_write_fops write) (Opens.start 0) (Machine.lefts es) =
        some s.files ∧
      Machine.run (Lock.step (code srfb calls)) (Lock.start (some b)) (Machine.rights es) =
        some s.calls :=
  Machine.run_prod _ _ es _ _ _ _
    (show Machine.run (beside write srfb calls) _ es = _ from
      Machine.run_map (step write owner srfb calls) (fun s : State ι κ => (s.files, s.calls))
        (fun _ _ _ he => (of_step he).2.1) es _ _ h)

/-! ### What a call does -/

/-- Between the entry of a call and its return. -/
def running {L K R : Type*} : Lock.Pc L K R → Bool
  | .idle | .done _ => false
  | _ => true

theorem afterEnter_running {L K R : Type*} (x : L ⊕ R) :
    running (Lock.afterEnter x : Lock.Pc L K R) = x.isLeft := by
  cases x <;> rfl

theorem running_back {σ L K R : Type*} {C : Lock.Code κ σ L K R} {s t : Lock.State κ σ L K R}
    {e : Lock.Ev κ} (h : Lock.step C s e = some t) {k : κ} (hk : running (t.pc k) = true) :
    (running (s.pc k) = true ∧ e ≠ .exit k) ∨ (e = .enter k ∧ (C.enter k).isLeft = true) := by
  by_cases hke : k = e.of
  · subst hke
    rcases Lock.step_cases h with ⟨i, rfl, hp, rfl⟩ | ⟨i, l, rfl, hp, -, rfl⟩ |
      ⟨i, l, rfl, hp, rfl⟩ | ⟨i, l, rfl, hp, rfl⟩ | ⟨i, l, rfl, hp, rfl⟩
    · simp only [Lock.Ev.of, Function.update_self, afterEnter_running] at hk
      exact .inr ⟨rfl, hk⟩
    · exact .inl ⟨by simp only [Lock.Ev.of, hp]; rfl, nofun⟩
    · exact .inl ⟨by simp only [Lock.Ev.of, hp]; rfl, nofun⟩
    · exact .inl ⟨by simp only [Lock.Ev.of, hp]; rfl, nofun⟩
    · simp only [Lock.Ev.of, Function.update_self] at hk
      cases hk
  · rw [Lock.step_pc_of_ne h hke] at hk
    refine .inl ⟨hk, ?_⟩
    rintro rfl
    exact hke rfl

/-- A call counts as executed when it returns early, or while it is running. -/
theorem commits_cases {σ L K R : Type*} {C : Lock.Code κ σ L K R} {s t : Lock.State κ σ L K R}
    {e : Lock.Ev κ} (h : Lock.step C s e = some t) :
    Lock.commits C [e] = [] ∨
      ∃ k, Lock.commits C [e] = [k] ∧ (e = .enter k ∨ running (s.pc k) = true) := by
  rcases Lock.step_cases h with ⟨i, rfl, -, rfl⟩ | ⟨i, l, rfl, hp, -, rfl⟩ |
    ⟨i, l, rfl, -, rfl⟩ | ⟨i, l, rfl, -, rfl⟩ | ⟨i, l, rfl, -, rfl⟩
  · cases hr : (C.enter i).isRight with
    | true => exact .inr ⟨i, by simp [Lock.commits, hr], .inl rfl⟩
    | false => exact .inl (by simp [Lock.commits, hr])
  · exact .inr ⟨i, rfl, .inr (by rw [hp]; rfl)⟩
  · exact .inl rfl
  · exact .inl rfl
  · exact .inl rfl

omit [DecidableEq ι] in
theorem mem_progress {active : List κ} {e : Ev ι κ} {k : κ}
    (h : k ∈ progress srfb calls active e) : k ∈ active ∨ e = .inr (.enter k) := by
  rcases e with e | (j | j | j | j | j)
  · exact .inl h
  · simp only [progress] at h
    split_ifs at h with hl
    · rcases List.mem_cons.mp h with rfl | h
      · exact .inr rfl
      · exact .inl h
    · exact .inl h
  · exact .inl h
  · exact .inl h
  · exact .inl h
  · exact .inl (List.mem_filter.mp h).1

omit [DecidableEq ι] in
theorem progress_mem {active : List κ} {e : Lock.Ev κ} {k : κ} (h : k ∈ active)
    (he : e ≠ .exit k) : k ∈ progress (ι := ι) srfb calls active (.inr e) := by
  rcases e with j | j | j | j | j
  · simp only [progress]
    split_ifs
    · exact List.mem_cons_of_mem _ h
    · exact h
  · exact h
  · exact h
  · exact h
  · refine List.mem_filter.mpr ⟨h, ?_⟩
    have hj : k ≠ j := fun hj => he (by rw [hj])
    simpa using hj

/-! ### The sessions -/

/-- The writes in the order in which they are executed. -/
def written (srfb : SimpleReadFromBuffer) (calls : κ → Call) (es : List (Ev ι κ)) : List κ :=
  (Lock.commits (code srfb calls) (Machine.rights es)).filter fun k => (calls k).isWrite

omit [DecidableEq ι] in
theorem holds_of_opened {s : Opens.State ι ℤ} {i : ι} (hw : write i = true)
    (ho : isOpened (s.pc i) = true) : Holds write s i := by
  refine ⟨hw, ?_⟩
  rw [isOpened_iff.mp ho]
  rfl

theorem denied_not_admitted {p : Opens.Pc ℤ} (h : p.denied = true) : admitted p = false := by
  rcases p with _ | (_ | _) | (_ | _) | ⟨_ | _, _⟩ | ⟨_ | _, _⟩ | ⟨_ | _, _⟩ | (_ | _) | _ | _ | _ <;>
    first | rfl | cases h

/-- The running writes are those of open files, the executed ones those of files
that were let in, and these come in sessions. -/
structure Inv (write : ι → Bool) (owner : κ → ι) (srfb : SimpleReadFromBuffer) (calls : κ → Call)
    (es : List (Ev ι κ)) (s : State ι κ) : Prop where
  active : ∀ k, running (s.calls.pc k) = true → k ∈ s.active
  opened : ∀ k ∈ s.active, (calls k).isWrite = true →
    write (owner k) = true ∧ isOpened (s.files.pc (owner k)) = true
  admitted : ∀ k ∈ written srfb calls es, admitted (s.files.pc (owner k)) = true
  grouped : Grouped owner (order (Machine.lefts es)) (written srfb calls es)

variable {es : List (Ev ι κ)}

omit [DecidableEq ι] [DecidableEq κ] in
theorem written_left (e : Opens.Ev ι) :
    written srfb calls (es ++ [.inl e]) = written srfb calls es := by
  unfold written
  rw [Machine.rights_concat, show Machine.rights [(.inl e : Ev ι κ)] = [] from rfl,
    List.append_nil]

omit [DecidableEq ι] [DecidableEq κ] in
theorem written_right (e : Lock.Ev κ) :
    written srfb calls (es ++ [.inr e]) = written srfb calls es ++
      (Lock.commits (code srfb calls) [e]).filter fun k => (calls k).isWrite := by
  unfold written
  rw [Machine.rights_concat, show Machine.rights [(.inr e : Ev ι κ)] = [e] from rfl,
    Lock.commits_concat, List.filter_append]

omit [DecidableEq κ] in
theorem Inv.file (h : Inv write owner srfb calls es s) {e : Opens.Ev ι}
    (ha : allowed write owner calls s (.inl e) = true)
    (hf : Opens.step Opens.buf_write_fops write s.files e = some t.files)
    (hc : t.calls = s.calls) (hact : t.active = s.active) :
    Inv write owner srfb calls (es ++ [.inl e]) t := by
  refine ⟨fun k hk => ?_, fun k hk hw => ?_, fun k hk => ?_, ?_⟩
  · rw [hc] at hk
    rw [hact]
    exact h.active k hk
  · -- an open file is only left by a release, which waits for the call
    rw [hact] at hk
    obtain ⟨hm, ho⟩ := h.opened k hk hw
    refine ⟨hm, ?_⟩
    refine opened_stays hf ho ?_
    rintro ⟨h1, h2, h3⟩
    have hall : ∀ x ∈ s.active, (calls x).isWrite = false ∨ ¬ owner x = e.i := by
      simpa [allowed, h1, h2] using ha
    rcases hall k hk with hno | hno
    · rw [hw] at hno
      cases hno
    · exact hno h3.symm
  · rw [written_left] at hk
    exact (step_place hf (owner k)).2.1 (h.admitted k hk)
  · rw [written_left, Machine.lefts_concat, show Machine.lefts [(.inl e : Ev ι κ)] = [e] from rfl,
      order_concat]
    split_ifs with hst
    · refine h.grouped.file fun k hk hke => ?_
      have hadm := h.admitted k hk
      rw [hke] at hadm
      obtain ⟨v, hp, -⟩ := opening_store hf hst
      rw [hp] at hadm
      cases hadm
    · rw [List.append_nil]
      exact h.grouped

omit [DecidableEq κ] in
/-- A call that counts as executed belongs to the file that is open. -/
theorem Inv.executed (h : Inv write owner srfb calls es s)
    (hq : Queue write (Machine.lefts es) s.files) {k : κ}
    (hm : write (owner k) = true) (ho : isOpened (s.files.pc (owner k)) = true) :
    Sessions.admitted (s.files.pc (owner k)) = true ∧
      Grouped owner (order (Machine.lefts es)) (written srfb calls es ++ [k]) := by
  constructor
  · rw [isOpened_iff.mp ho]
    rfl
  · obtain ⟨pre, post, hpp, hden⟩ := hq.behind (owner k) (holds_of_opened hm ho)
    have hg := h.grouped
    have hnd := hq.nodup
    rw [hpp] at hg hnd ⊢
    refine hg.call hnd fun j hj x hx hxj => ?_
    have hadm := h.admitted x hx
    rw [hxj, denied_not_admitted (hden j hj)] at hadm
    cases hadm

theorem Inv.call (h : Inv write owner srfb calls es s)
    (hq : Queue write (Machine.lefts es) s.files) {e : Lock.Ev κ}
    (ha : allowed write owner calls s (.inr e) = true) (hf : t.files = s.files)
    (hc : Lock.step (code srfb calls) s.calls e = some t.calls)
    (hact : t.active = progress (ι := ι) srfb calls s.active (.inr e)) :
    Inv write owner srfb calls (es ++ [.inr e]) t := by
  have hopen : ∀ k, (calls k).isWrite = true →
      (e = .enter k ∨ running (s.calls.pc k) = true ∨ k ∈ s.active) →
      write (owner k) = true ∧ isOpened (s.files.pc (owner k)) = true := by
    rintro k hw (rfl | hk | hk)
    · simpa [allowed, hw, and_comm] using ha
    · exact h.opened k (h.active k hk) hw
    · exact h.opened k hk hw
  have hlefts : Machine.lefts (es ++ [.inr e]) = Machine.lefts es := by
    rw [Machine.lefts_concat, show Machine.lefts [(.inr e : Ev ι κ)] = [] from rfl,
      List.append_nil]
  refine ⟨fun k hk => ?_, fun k hk hw => ?_, fun k hk => ?_, ?_⟩
  · rw [hact]
    rcases running_back hc hk with ⟨hk, hne⟩ | ⟨rfl, hl⟩
    · exact progress_mem (h.active k hk) hne
    · simp [progress, hl]
  · rw [hf]
    rw [hact] at hk
    rcases mem_progress hk with hk | hk
    · exact hopen k hw (.inr (.inr hk))
    · exact hopen k hw (.inl (Sum.inr.inj hk))
  · rw [hf]
    rw [written_right, List.mem_append, List.mem_filter] at hk
    rcases hk with hk | ⟨hk, hw⟩
    · exact h.admitted k hk
    · rcases commits_cases hc with hnil | ⟨j, hj, hex⟩
      · rw [hnil] at hk
        cases hk
      · rw [hj, List.mem_singleton] at hk
        subst hk
        obtain ⟨hm, ho⟩ := hopen k hw (hex.imp_right .inl)
        exact (h.executed hq hm ho).1
  · rw [hlefts, written_right]
    rcases commits_cases hc with hnil | ⟨k, hk, hex⟩
    · rw [hnil, List.filter_nil, List.append_nil]
      exact h.grouped
    · rw [hk]
      cases hw : (calls k).isWrite with
      | true =>
        obtain ⟨hm, ho⟩ := hopen k hw (hex.imp_right .inl)
        rw [List.filter_singleton, hw, cond_true]
        exact (h.executed hq hm ho).2
      | false =>
        rw [List.filter_singleton, hw, cond_false, List.append_nil]
        exact h.grouped

theorem run_sessions {b : Buf} (h : Machine.run (step write owner srfb calls) (start b) es = some s) :
    Inv write owner srfb calls es s := by
  refine Machine.run_hist _ (Inv write owner srfb calls)
    ⟨fun _ hk => (by cases hk), fun _ hk => (by cases hk), fun _ hk => (by cases hk), rfl⟩ ?_ es s h
  intro es s e t hr ih he
  obtain ⟨ha, hb, hact⟩ := of_step he
  rcases e with e | e
  · simp only [beside, Machine.prodStep, Option.map_eq_some_iff, Prod.mk.injEq] at hb
    obtain ⟨f, hf, rfl, hc⟩ := hb
    exact ih.file ha hf hc.symm hact
  · simp only [beside, Machine.prodStep, Option.map_eq_some_iff, Prod.mk.injEq] at hb
    obtain ⟨c, hc, hf, rfl⟩ := hb
    exact ih.call (run_queue (run_parts hr).1) ha hf.symm hc hact

omit [DecidableEq κ] in
theorem serial_writes (is : List κ) (b : Buf) :
    serial srfb calls (is.filter fun k => (calls k).isWrite) b = serial srfb calls is b := by
  rw [← serial_filter, ← serial_filter srfb calls is, List.filter_filter]
  congr 2
  funext k
  cases hw : (calls k).isWrite <;> simp [stores, hw]

theorem written_nodup {b₀ : Buf}
    (h : Machine.run (step write owner srfb calls) (start b₀) es = some s) :
    (written srfb calls es).Nodup :=
  (Lock.hist_run (solves srfb calls) (run_parts h).2).nodup.filter _

theorem shared_of_free {b₀ : Buf}
    (h : Machine.run (step write owner srfb calls) (start b₀) es = some s)
    (hl : s.calls.lock = none) :
    s.calls.shared = serial srfb calls (written srfb calls es) b₀ := by
  have hh := Lock.hist_run (solves srfb calls) (run_parts h).2
  rw [hh.free hl, serial_eq]
  exact (serial_writes _ _).symm

/-- **Sessions.** In every run the executed writes are those of the files in the
order of their opens, all of one file before any of the next, and the buffer is
what they make of it. -/
theorem sessions (write : ι → Bool) (owner : κ → ι) (srfb : SimpleReadFromBuffer)
    (calls : κ → Call) {b₀ : Buf}
    (h : Machine.run (step write owner srfb calls) (start b₀) es = some s) :
    (order (Machine.lefts es)).Nodup ∧ (written srfb calls es).Nodup ∧
      Grouped owner (order (Machine.lefts es)) (written srfb calls es) ∧
      (s.calls.lock = none → s.calls.shared = serial srfb calls (written srfb calls es) b₀) :=
  ⟨(run_queue (run_parts h).1).nodup, written_nodup h, (run_sessions h).grouped, shared_of_free h⟩

/-- All steps of an open or of a release. -/
def through (op : Opens.Op) (i : ι) : List (Ev ι κ) :=
  [.inl ⟨.enter, op, i⟩, .inl ⟨.lock, op, i⟩, .inl ⟨.load, op, i⟩, .inl ⟨.store, op, i⟩,
    .inl ⟨.unlock, op, i⟩, .inl ⟨.ret, op, i⟩]

/-- All steps of a write of one byte. -/
def oneByte (k : κ) : List (Ev ι κ) :=
  [.inr (.enter k), .inr (.lock k), .inr (.body k), .inr (.body k), .inr (.unlock k),
    .inr (.exit k)]

/-- Two writes of one file, and then one of another. -/
def inTurn : List (Ev Bool (Fin 3)) :=
  List.flatten
    [through .opening false, oneByte 1, oneByte 0, through .releasing false,
      through .opening true, oneByte 2]

def byteA : Fin 3 → Call := fun _ => .write [65] 1 0 (by decide)

theorem sessions_two : ∃ s,
    Machine.run (step (fun _ => true) (fun k => decide (k = 2)) readSlice byteA)
      (start (Vector.replicate 128 0)) inTurn = some s ∧
    s.calls.shared = serial readSlice byteA [1, 0, 2] (Vector.replicate 128 0) := by
  obtain ⟨s, hrun, hfree⟩ : ∃ s,
      Machine.run (step (fun _ => true) (fun k => decide (k = 2)) readSlice byteA)
        (start (Vector.replicate 128 0)) inTurn = some s ∧ s.calls.lock = none := ⟨_, rfl, rfl⟩
  have hw : written readSlice byteA inTurn = [1, 0, 2] := by decide
  rw [← hw]
  exact ⟨s, hrun, (sessions _ _ _ _ hrun).2.2.2 hfree⟩

end Machine

/-! ### A client -/

/-- What a process writes: the bytes `d`, from offset `o` on. -/
structure Message where
  d : List UInt8
  o : ℕ
  h : d.length ≤ SSIZE_MAX

namespace Message

variable (M : Message)

/-- The bytes that the first `n` calls of the client's loop have had accepted,
each call being given all the rest. -/
def sent : ℕ → ℕ
  | 0 => 0
  | n + 1 => sent n + min (min (M.d.length - sent n) 5) (127 - (M.o + sent n))

/-- The call that comes after `n` others. -/
def call (n : ℕ) : Call :=
  .write (M.d.drop (M.sent n)) (M.d.length - M.sent n) (M.o + M.sent n)
    ((Nat.sub_le _ _).trans M.h)

/-- The loop is over after `n` calls: nothing is left, or the last call has
returned 0. -/
def ended : ℕ → Prop
  | 0 => M.d = []
  | n + 1 => M.d.drop (M.sent (n + 1)) = [] ∨ M.sent (n + 1) = M.sent n

/-- The first `k` bytes of the message written. -/
def put (k : ℕ) (b : Buf) : Buf := overwrite b M.o (M.d.take k)

/-- The message written as a whole, as far as the buffer goes. -/
def whole (b : Buf) : Buf := M.put (127 - M.o) b

theorem send_whole (b : Buf) : ∃ off, send (M.d.length + 1) M.d M.o b = some (off, M.whole b) :=
  ⟨_, send_eq _ _ _ _ (Nat.lt_succ_self _) M.h⟩

variable {M}

theorem sent_le (n : ℕ) : M.sent n ≤ min M.d.length (127 - M.o) := by
  induction n with
  | zero => exact Nat.zero_le _
  | succ n ih =>
    unfold sent
    omega

theorem ended_succ {n : ℕ} (h : M.ended n) : M.ended (n + 1) := by
  right
  cases n with
  | zero =>
    have hd : M.d.length = 0 := List.length_eq_zero_iff.mpr h
    simp only [sent]
    omega
  | succ n =>
    have hn : M.sent (n + 1 + 1) =
        M.sent (n + 1) + min (min (M.d.length - M.sent (n + 1)) 5) (127 - (M.o + M.sent (n + 1))) :=
      rfl
    rcases h with h | h
    · have hd := List.drop_eq_nil_iff.mp h
      omega
    · have hn' : M.sent (n + 1) =
          M.sent n + min (min (M.d.length - M.sent n) 5) (127 - (M.o + M.sent n)) := rfl
      rw [h] at hn
      omega

theorem ended_mono {m n : ℕ} (hmn : m ≤ n) (h : M.ended m) : M.ended n := by
  induction hmn with
  | refl => exact h
  | step _ ih => exact ended_succ ih

theorem put_of_ended {n : ℕ} (h : M.ended n) (b : Buf) : M.put (M.sent n) b = M.whole b := by
  have hle := M.sent_le n
  have htake : M.d.take (M.sent n) = M.d.take (127 - M.o) := by
    rw [List.take_eq_take_iff]
    cases n with
    | zero =>
      have hd : M.d.length = 0 := List.length_eq_zero_iff.mpr h
      omega
    | succ n =>
      rcases h with h | h
      · have := List.drop_eq_nil_iff.mp h
        omega
      · have := M.sent_le n
        rw [sent] at h
        rw [sent]
        omega
  unfold whole put
  rw [htake]

/-- **A call** of the loop writes the next bytes and says how many. -/
theorem atomic_call (srfb : SimpleReadFromBuffer) (n : ℕ) (b : Buf) :
    atomic srfb (M.call n) (M.put (M.sent n) b) =
      (some (M.put (M.sent (n + 1)) b),
        ⟨((M.sent (n + 1) - M.sent n : ℕ) : ℤ), ((M.o + M.sent (n + 1) : ℕ) : ℤ), []⟩) := by
  have hle := M.sent_le n
  have hle' := M.sent_le (n + 1)
  by_cases ho : M.o + M.sent n ≤ 127
  · set k := min (min (M.d.length - M.sent n) 5) (127 - (M.o + M.sent n)) with hk
    have hs : M.sent (n + 1) = M.sent n + k := rfl
    have hlen : (M.d.take (M.sent n)).length = M.sent n := by
      rw [List.length_take]
      omega
    have happ := overwrite_append b M.o (M.d.take (M.sent n)) ((M.d.drop (M.sent n)).take k)
    rw [hlen, ← List.take_add] at happ
    have hlen' : M.d.length - M.sent n ≤ (M.d.drop (M.sent n)).length := by rw [List.length_drop]
    have hw := buf_write_eq ho ((Nat.sub_le _ _).trans M.h) hlen' (M.put (M.sent n) b)
    unfold atomic call
    simp only [hw, ← hk]
    rw [put, happ, hs, Nat.add_sub_cancel_left, Nat.add_assoc]
    rfl
  · have h0 : M.sent (n + 1) = M.sent n := by
      rw [sent]
      omega
    have hpast : ((M.o + M.sent n : ℕ) : ℤ) > 127 := by omega
    have hw := buf_write_past hpast (M.d.drop (M.sent n)) (M.d.length - M.sent n)
      (M.put (M.sent n) b)
    unfold atomic call
    simp only [hw]
    rw [h0, Nat.sub_self]
    rfl

@[simp] theorem put_zero (b : Buf) : M.put 0 b = b := by
  unfold put
  rw [List.take_zero, overwrite_nil]

end Message

/-! ### The clients -/

section Clients

variable {ι ρ : Type*} (M : ι → Message) (reads : ι → ρ → ℕ × ℕ × ℕ)

/-- The calls of the processes `ι`: the writes of a client's loop, in their
order, and reads `(room, count, off)` at any time. -/
def calls : ι × (ℕ ⊕ ρ) → Call
  | (i, .inl n) => (M i).call n
  | (i, .inr r) => .read (reads i r).1 (reads i r).2.1 (reads i r).2.2

abbrev St (ι ρ : Type*) := State ι (ι × (ℕ ⊕ ρ))

/-- The first `n` writes of the process have returned. -/
def Returned (s : St ι ρ) (i : ι) (n : ℕ) : Prop :=
  ∀ m < n, ∃ r, s.calls.pc (i, .inl m) = .done r

/-- The clients: each makes its calls one after the other, and closes its file
when its loop is over. -/
def Loops (write : ι → Bool) (s : St ι ρ) : Ev ι (ι × (ℕ ⊕ ρ)) → Prop
  | .inl e => e.act = .enter → e.op = .releasing → write e.i = true →
      ∃ n, (M e.i).ended n ∧ Returned s e.i n
  | .inr (.enter (i, .inl n)) => Returned s i n
  | .inr _ => True

/-! ### Messages one after the other -/

variable {M reads} {srfb : SimpleReadFromBuffer}

theorem serial_append {κ : Type*} {c : κ → Call} (xs ys : List κ) (b : Buf) :
    serial srfb c (xs ++ ys) b = (serial srfb c xs b).bind fun b => serial srfb c ys b := by
  obtain ⟨b', hb'⟩ := serial_isSome srfb c xs b
  rw [hb', Option.bind_some]
  unfold serial at hb' ⊢
  rw [List.foldl_append, hb']

theorem serial_client (i : ι) (b : Buf) (m : ℕ) :
    serial srfb (calls M reads) ((List.range m).map fun n => (i, .inl n)) b =
      some ((M i).put ((M i).sent m) b) := by
  induction m with
  | zero => exact congrArg some (Message.put_zero b).symm
  | succ m ih =>
    rw [List.range_succ, List.map_append, List.map_singleton, serial_concat, ih, Option.bind_some]
    exact congrArg Prod.fst (Message.atomic_call srfb m b)

theorem serial_clients (m : ι → ℕ) (is : List ι) (b : Buf) :
    serial srfb (calls M reads)
        (is.flatMap fun i => (List.range (m i)).map fun n => (i, .inl n)) b =
      some (is.foldl (fun b i => (M i).put ((M i).sent (m i)) b) b) := by
  induction is generalizing b with
  | nil => rfl
  | cons i is ih =>
    rw [List.flatMap_cons, serial_append, serial_client i b (m i), Option.bind_some,
      List.foldl_cons]
    exact ih _

/-! ### Runs of the clients -/

variable [DecidableEq ι] [DecidableEq ρ] {write : ι → Bool} {s t : St ι ρ}
  {es : List (Ev ι (ι × (ℕ ⊕ ρ)))} {b₀ : Buf}

theorem done_stays {κ σ L K R : Type*} [DecidableEq κ] {C : Lock.Code κ σ L K R}
    {s t : Lock.State κ σ L K R} {e : Lock.Ev κ} (h : Lock.step C s e = some t) {k : κ} {r : R}
    (hk : s.pc k = .done r) : t.pc k = .done r := by
  have hne : k ≠ e.of := by
    rintro rfl
    rcases Lock.step_cases h with ⟨i, rfl, hp, -⟩ | ⟨i, l, rfl, hp, -⟩ | ⟨i, l, rfl, hp, -⟩ |
      ⟨i, l, rfl, hp, -⟩ | ⟨i, l, rfl, hp, -⟩
    all_goals
      rw [Lock.Ev.of, hp] at hk
      cases hk
  rw [Lock.step_pc_of_ne h hne, hk]

/-- What a call does to the events of its kind: it started, or was there. -/
theorem idle_back {κ σ L K R : Type*} [DecidableEq κ] {C : Lock.Code κ σ L K R}
    {s t : Lock.State κ σ L K R} {e : Lock.Ev κ} (h : Lock.step C s e = some t) {k : κ}
    (hk : t.pc k ≠ .idle) : s.pc k ≠ .idle ∨ e = .enter k := by
  by_cases hke : k = e.of
  · subst hke
    rcases Lock.step_cases h with ⟨i, rfl, hp, -⟩ | ⟨i, l, rfl, hp, -⟩ | ⟨i, l, rfl, hp, -⟩ |
      ⟨i, l, rfl, hp, -⟩ | ⟨i, l, rfl, hp, -⟩
    · exact .inr rfl
    all_goals
      left
      rw [Lock.Ev.of, hp]
      nofun
  · rw [Lock.step_pc_of_ne h hke] at hk
    exact .inl hk

theorem calls_step {e : Ev ι (ι × (ℕ ⊕ ρ))}
    (he : step write Prod.fst srfb (calls M reads) s e = some t) :
    t.calls = s.calls ∨
      ∃ d, e = .inr d ∧ Lock.step (code srfb (calls M reads)) s.calls d = some t.calls := by
  obtain ⟨-, hb, -⟩ := of_step he
  rcases e with e | e
  · simp only [beside, Machine.prodStep, Option.map_eq_some_iff, Prod.mk.injEq] at hb
    obtain ⟨f, -, -, hc⟩ := hb
    exact .inl hc.symm
  · simp only [beside, Machine.prodStep, Option.map_eq_some_iff, Prod.mk.injEq] at hb
    obtain ⟨c, hc, -, rfl⟩ := hb
    exact .inr ⟨e, rfl, hc⟩

theorem Returned.step {i : ι} {n : ℕ} (h : Returned s i n) {e : Ev ι (ι × (ℕ ⊕ ρ))}
    (he : Sessions.step write Prod.fst srfb (calls M reads) s e = some t) : Returned t i n := by
  intro m hm
  obtain ⟨r, hr⟩ := h m hm
  rcases calls_step he with hc | ⟨d, -, hd⟩
  · exact ⟨r, by rw [hc, hr]⟩
  · exact ⟨r, done_stays hd hr⟩

/-- Each client has made the first so many of its calls, and all that it has to
make if its file is leaving. -/
structure Loop (M : ι → Message) (reads : ι → ρ → ℕ × ℕ × ℕ) (srfb : SimpleReadFromBuffer)
    (write : ι → Bool) (es : List (Ev ι (ι × (ℕ ⊕ ρ)))) (s : St ι ρ) : Prop where
  before : ∀ i n, s.calls.pc (i, .inl n) ≠ .idle → Returned s i n
  first : ∀ i, ∃ m, ((written srfb (calls M reads) es).filter fun k => k.1 = i) =
    (List.range m).map fun n => (i, .inl n)
  left : ∀ i, write i = true → leaving (s.files.pc i) = true →
    ∃ n, (M i).ended n ∧ Returned s i n

theorem Returned.written {i : ι} {n : ℕ} (h : Returned s i n)
    (hr : Machine.run (Sessions.step write Prod.fst srfb (calls M reads)) (start b₀) es = some s) :
    ∀ m < n, (i, .inl m) ∈ written srfb (calls M reads) es := by
  intro m hm
  obtain ⟨r, hd⟩ := h m hm
  have hh := Lock.hist_run (solves srfb (calls M reads)) (run_parts hr).2
  refine List.mem_filter.mpr ⟨?_, rfl⟩
  rw [hh.mem, hd]
  rfl

/-- The next write of a client to be executed is the next of its loop. -/
theorem Loop.next (h : Loop M reads srfb write es s)
    (hr : Machine.run (step write Prod.fst srfb (calls M reads)) (start b₀) es = some s)
    {i : ι} {n : ℕ} (hret : Returned s i n)
    (hnew : (i, .inl n) ∉ written srfb (calls M reads) es) :
    ((written srfb (calls M reads) es).filter fun k => k.1 = i) =
      (List.range n).map fun n => (i, .inl n) := by
  obtain ⟨m, hm⟩ := h.first i
  have hmem : ∀ j, (i, .inl j) ∈ written srfb (calls M reads) es ↔ j < m := by
    intro j
    have hj : (i, .inl j) ∈ (written srfb (calls M reads) es).filter (fun k => k.1 = i) ↔ j < m := by
      rw [hm]
      simp
    rw [← hj, List.mem_filter]
    simp
  have h1 : ¬ n < m := fun hlt => hnew ((hmem n).mpr hlt)
  have h2 : ¬ m < n := fun hlt => absurd ((hmem m).mp (hret.written hr m hlt)) (lt_irrefl m)
  rw [hm, le_antisymm (not_lt.mp h1) (not_lt.mp h2)]

/-- A write that counts as executed is the next of its client. -/
theorem Loop.write_step (h : Loop M reads srfb write es s)
    (hr : Machine.run (step write Prod.fst srfb (calls M reads)) (start b₀) es = some s)
    {d : Lock.Ev (ι × (ℕ ⊕ ρ))} (hc : Loops M write s (.inr d))
    (he : step write Prod.fst srfb (calls M reads) s (.inr d) = some t) (i : ι) :
    ∃ m, ((written srfb (calls M reads) (es ++ [.inr d])).filter fun k => k.1 = i) =
      (List.range m).map fun n => (i, .inl n) := by
  have hrun : Machine.run (step write Prod.fst srfb (calls M reads)) (start b₀) (es ++ [.inr d]) =
      some t := (Machine.run_concat_eq_some _).mpr ⟨s, hr, he⟩
  have hnd := written_nodup hrun
  obtain ⟨-, hb, -⟩ := of_step he
  simp only [beside, Machine.prodStep, Option.map_eq_some_iff, Prod.mk.injEq] at hb
  obtain ⟨c, hcall, -, -⟩ := hb
  rw [written_right] at hnd ⊢
  rcases commits_cases hcall with hnil | ⟨⟨j, n | r⟩, hk, hex⟩
  · rw [hnil, List.filter_nil, List.append_nil]
    exact h.first i
  · -- a write: the ones before it have returned
    have hret : Returned s j n := by
      rcases hex with rfl | hex
      · exact hc
      · refine h.before j n fun hidle => ?_
        rw [hidle] at hex
        cases hex
    rw [hk, show ([(j, .inl n)] : List (ι × (ℕ ⊕ ρ))).filter
      (fun k => (calls M reads k).isWrite) = [(j, .inl n)] from rfl] at hnd ⊢
    have hnew : (j, .inl n) ∉ written srfb (calls M reads) es := by
      intro hmem
      exact (List.nodup_append.mp hnd).2.2 _ hmem _ (List.mem_singleton_self _) rfl
    rw [List.filter_append]
    by_cases hji : j = i
    · subst hji
      refine ⟨n + 1, ?_⟩
      rw [h.next hr hret hnew, List.range_succ, List.map_append]
      simp
    · obtain ⟨m, hm⟩ := h.first i
      refine ⟨m, ?_⟩
      rw [hm]
      simp [hji]
  · rw [hk, show ([(j, .inr r)] : List (ι × (ℕ ⊕ ρ))).filter
      (fun k => (calls M reads k).isWrite) = [] from rfl, List.append_nil]
    exact h.first i

theorem Loop.step (h : Loop M reads srfb write es s)
    (hr : Machine.run (step write Prod.fst srfb (calls M reads)) (start b₀) es = some s)
    {e : Ev ι (ι × (ℕ ⊕ ρ))} (hc : Loops M write s e)
    (he : Sessions.step write Prod.fst srfb (calls M reads) s e = some t) :
    Loop M reads srfb write (es ++ [e]) t := by
  refine ⟨fun i n hne => ?_, fun i => ?_, fun i hw hl => ?_⟩
  · rcases calls_step he with hs | ⟨d, rfl, hd⟩
    · rw [hs] at hne
      exact (h.before i n hne).step he
    · rcases idle_back hd hne with hne | rfl
      · exact (h.before i n hne).step he
      · exact Returned.step hc he
  · rcases e with e | d
    · rw [written_left]
      exact h.first i
    · exact h.write_step hr hc he i
  · have hov : leaving (s.files.pc i) = true → ∃ n, (M i).ended n ∧ Returned t i n := by
      intro hl
      obtain ⟨n, hn, hret⟩ := h.left i hw hl
      exact ⟨n, hn, hret.step he⟩
    obtain ⟨-, hb, -⟩ := of_step he
    rcases e with e | d
    · simp only [beside, Machine.prodStep, Option.map_eq_some_iff, Prod.mk.injEq] at hb
      obtain ⟨f, hf, rfl, -⟩ := hb
      rcases leaving_back hf hl with hl | ⟨h1, h2, rfl⟩
      · exact hov hl
      · obtain ⟨n, hn, hret⟩ := hc h1 h2 hw
        exact ⟨n, hn, hret.step he⟩
    · simp only [beside, Machine.prodStep, Option.map_eq_some_iff, Prod.mk.injEq] at hb
      obtain ⟨-, -, hf, -⟩ := hb
      rw [← hf] at hl
      exact hov hl

theorem run_loop
    (h : Machine.run (step write Prod.fst srfb (calls M reads)) (start b₀) es = some s)
    (hc : Machine.Always (step write Prod.fst srfb (calls M reads)) (Loops M write) (start b₀) es) :
    Loop M reads srfb write es s := by
  refine Machine.run_hist_of (Loops M write) (Loop M reads srfb write) ⟨?_, ?_, ?_⟩
    (fun es s e t hr ih hce he => ih.step hr hce he) h hc
  · exact fun i n hne => absurd rfl hne
  · exact fun i => ⟨0, rfl⟩
  · exact fun i _ hl => by cases hl

/-! ### What the buffer shows -/

/-- `b` is the messages of the files, in the order of their opens, each written
where the last one left the buffer: as a whole if the file is leaving, not at
all if it was turned away, and otherwise up to a point by the one that holds the
device. -/
def Shows (M : ι → Message) (write : ι → Bool) (b₀ : Buf) (es : List (Ev ι (ι × (ℕ ⊕ ρ))))
    (s : St ι ρ) (b : Buf) : Prop :=
  ∃ n : ι → ℕ, b = (order (Machine.lefts es)).foldl (fun b i => (M i).put (n i) b) b₀ ∧
    ∀ i ∈ order (Machine.lefts es), Holds write s.files i ∨
      ((s.files.pc i).denied = true ∧ n i = 0) ∨
      (leaving (s.files.pc i) = true ∧ (M i).put (n i) = (M i).whole)

theorem shows_serial
    (h : Machine.run (step write Prod.fst srfb (calls M reads)) (start b₀) es = some s)
    (hc : Machine.Always (step write Prod.fst srfb (calls M reads)) (Loops M write) (start b₀) es) :
    ∃ b, serial srfb (calls M reads) (written srfb (calls M reads) es) b₀ = some b ∧
      Shows M write b₀ es s b := by
  have hl := run_loop h hc
  have hi := Opens.run_inv (run_parts h).1
  have hq := run_queue (run_parts h).1
  have hses := run_sessions h
  choose m hm using hl.first
  have hgr : written srfb (calls M reads) es = (order (Machine.lefts es)).flatMap fun i =>
      (List.range (m i)).map fun n => (i, .inl n) := by
    rw [hses.grouped]
    exact List.flatMap_congr fun i _ => hm i
  refine ⟨_, by rw [hgr]; exact serial_clients m _ b₀, fun i => (M i).sent (m i), rfl,
    fun i hio => ?_⟩
  have hskip : (s.files.pc i).isSkipped = false := by
    by_contra hsk
    have := hi.skipped i (by simpa using hsk)
    rw [hq.writes i hio] at this
    cases this
  rcases place_cases (hq.past i hio) hskip with hh | hd | hlv
  · exact .inl ⟨hq.writes i hio, hh⟩
  · -- a file that was turned away has no calls
    refine .inr (.inl ⟨hd, ?_⟩)
    have hnil : ((written srfb (calls M reads) es).filter fun k => k.1 = i) = [] :=
      filter_eq_nil fun k hk hki => by
        have hadm := hses.admitted k hk
        rw [hki, denied_not_admitted hd] at hadm
        cases hadm
    have hrange := (hm i).symm.trans hnil
    rw [List.map_eq_nil_iff, List.range_eq_nil] at hrange
    simp only [hrange]
    rfl
  · -- a file that is leaving has made all of its calls
    refine .inr (.inr ⟨hlv, ?_⟩)
    obtain ⟨n, hend, hret⟩ := hl.left i (hq.writes i hio) hlv
    have hle : n ≤ m i := by
      by_contra hlt
      have hmem : (i, Sum.inl (m i)) ∈
          (written srfb (calls M reads) es).filter fun k => k.1 = i :=
        List.mem_filter.mpr ⟨hret.written h (m i) (not_le.mp hlt), by simp⟩
      rw [hm i] at hmem
      simp at hmem
    exact funext fun b => Message.put_of_ended (Message.ended_mono hle hend) b

omit [DecidableEq ι] [DecidableEq ρ] in
/-- What was executed up to a point was so after some part of the run. -/
theorem commits_through (C : Lock.Code (ι × (ℕ ⊕ ρ)) (Option Buf) Local Left ReadOut)
    {xs : List (ι × (ℕ ⊕ ρ))} (h : xs <+: Lock.commits C (Machine.rights es)) :
    ∃ pre, pre <+: es ∧ Lock.commits C (Machine.rights pre) = xs := by
  obtain ⟨ys, hys⟩ := h
  obtain ⟨ds, ds', hds, rfl, -⟩ := List.filterMap_eq_append_iff.mp hys.symm
  obtain ⟨pre, post, rfl, rfl, -⟩ := List.filterMap_eq_append_iff.mp hds
  exact ⟨pre, List.prefix_append _ _, rfl⟩

omit [DecidableEq ι] [DecidableEq ρ] in
/-- Nothing of a file that was turned away, all of one that is closed. -/
theorem shows_closed {b : Buf} (h : Shows M write b₀ es s b)
    (hall : ∀ i ∈ order (Machine.lefts es), s.files.pc i = .failed ∨ s.files.pc i = .closed) :
    b = ((order (Machine.lefts es)).filter fun i => leaving (s.files.pc i)).foldl
      (fun b i => (M i).whole b) b₀ := by
  obtain ⟨n, rfl, hn⟩ := h
  rw [List.foldl_filter]
  refine List.foldl_ext _ _ _ fun b i hi => ?_
  rcases hall i hi with hp | hp
  · rcases hn i hi with ⟨-, hh⟩ | ⟨-, h0⟩ | ⟨hl, -⟩
    · rw [hp] at hh
      cases hh
    · rw [h0, hp, Message.put_zero]
      rfl
    · rw [hp] at hl
      cases hl
  · rcases hn i hi with ⟨-, hh⟩ | ⟨hd, -⟩ | ⟨hl, hw⟩
    · rw [hp] at hh
      cases hh
    · rw [hp] at hd
      cases hd
    · rw [hw, if_pos hl]

end Clients

/-! ### Three clients -/

/-- The messages of three clients. -/
def three : Fin 3 → Message
  | 0 => ⟨[65, 66], 0, by decide⟩
  | 1 => ⟨[67], 0, by decide⟩
  | 2 => ⟨[88], 1, by decide⟩

/-- The second client comes while the first one has the device, and the third one
after it; a read starts between the two bytes of the first. -/
def meeting : List (Ev (Fin 3) (Fin 3 × (ℕ ⊕ Unit))) :=
  List.flatten
    [through .opening 0,
      [.inr (.enter (0, .inl 0)), .inr (.lock (0, .inl 0)), .inr (.body (0, .inl 0)),
        .inr (.enter (1, .inr ()))],
      through .opening 1,
      [.inr (.body (0, .inl 0)), .inr (.body (0, .inl 0)), .inr (.unlock (0, .inl 0)),
        .inr (.lock (1, .inr ())), .inr (.exit (0, .inl 0))],
      through .releasing 0, through .opening 2,
      [.inr (.body (1, .inr ())), .inr (.unlock (1, .inr ())), .inr (.exit (1, .inr ()))],
      oneByte (2, .inl 0), through .releasing 2]

/-- The first write of the process has returned. -/
def once (s : St (Fin 3) Unit) (i : Fin 3) : Bool :=
  match s.calls.pc (i, .inl 0) with
  | .done _ => true
  | _ => false

/-- One call for each message. -/
def Once (s : St (Fin 3) Unit) : Ev (Fin 3) (Fin 3 × (ℕ ⊕ Unit)) → Prop
  | .inl e => e.act = .enter ∧ e.op = .releasing → once s e.i = true
  | .inr (.enter (_, .inl n)) => n = 0
  | .inr _ => True

instance (s : St (Fin 3) Unit) : ∀ e, Decidable (Once s e)
  | .inl e => inferInstanceAs (Decidable (e.act = .enter ∧ e.op = .releasing → once s e.i = true))
  | .inr (.enter (_, .inl n)) => inferInstanceAs (Decidable (n = 0))
  | .inr (.enter (_, .inr _)) | .inr (.lock _) | .inr (.body _) | .inr (.unlock _)
  | .inr (.exit _) => isTrue trivial

theorem Once.loops {s : St (Fin 3) Unit} {e : Ev (Fin 3) (Fin 3 × (ℕ ⊕ Unit))} (h : Once s e) :
    Loops three (fun _ => true) s e := by
  rcases e with e | (⟨i, n | r⟩ | k | k | k | k)
  · intro h1 h2 _
    have hd := h ⟨h1, h2⟩
    refine ⟨1, ?_, fun m hm => ?_⟩
    · left
      generalize e.i = i
      revert i
      decide
    · obtain rfl : m = 0 := by omega
      unfold once at hd
      split at hd
      · exact ⟨_, ‹_›⟩
      · cases hd
  · obtain rfl : n = 0 := h
    exact fun m hm => absurd hm (Nat.not_lt_zero m)
  all_goals exact trivial

end Sessions
end Pb173
