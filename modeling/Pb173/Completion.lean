/-
# The interrupts of the card (11/homework)

Two sources raise bits in one register: the timer, through `raise_intr`, and
the end of a DMA transfer. `my_handler` reads the register once and
acknowledges what it read. Invocations of it run step by step, any number of
them, between ticks and completions; what an invocation did is kept with it.

An invocation that acknowledges a completion goes on to `ACKINT` and the
tasklet only if it read the completion alone (`kept_iff`). So no completion
is lost exactly in the runs whose reads of the register find it alone or not
at all (`lossless_iff`).
-/
import Pb173.Dma
import Pb173.Machine

namespace Pb173
namespace Completion

open Dma

/-- What an invocation did, with the value of each read. -/
abbrev Trace := List (Act × BitVec 32)

/-- An invocation of `my_handler`. -/
structure Invocation where
  pc : Handler
  acts : Trace

/-- The registers `RAISED` and `CMD`, the invocations that run, and what those
did that have returned. -/
structure State where
  raised : BitVec 32
  cmd : BitVec 32
  running : List Invocation
  done : List Trace

inductive Ev
  | tick
  | complete
  | irq
  | step (i : ℕ)
deriving DecidableEq

def start (raised cmd : BitVec 32) : State := ⟨raised, cmd, [], []⟩

/-- The value that an action reads. -/
def State.reading (s : State) : Act → BitVec 32
  | .readl .RAISED => s.raised
  | .readl .CMD => s.cmd
  | _ => 0

/-- What an action does to the registers: a write to `ACK` takes back the bits
written. -/
def State.perform (s : State) : Act → State
  | .writel v .ACK => { s with raised := s.raised &&& ~~~v }
  | .writel v .CMD => { s with cmd := v }
  | _ => s

theorem State.perform_done (s : State) : ∀ a : Act, (s.perform a).done = s.done
  | .writel _ r => by cases r <;> rfl
  | .load | .readl _ | .tasklet_init | .tasklet_schedule | .ret _ => rfl

/-- One more action of an invocation. -/
def Invocation.log (r : Invocation) (s : State) : Trace :=
  r.acts ++ [(r.pc.act, s.reading r.pc.act)]

def step (s : State) : Ev → Option State
  | .tick => some { s with raised := s.raised ||| 0x1000 }
  | .complete => some { s with raised := s.raised ||| 0x100, cmd := s.cmd &&& ~~~1 }
  | .irq => if s.raised = 0 then none else some { s with running := s.running ++ [⟨.virt, []⟩] }
  | .step i =>
    match s.running[i]? with
    | none => none
    | some r =>
      match r.pc.next (s.reading r.pc.act) with
      | some pc => some { s.perform r.pc.act with running := s.running.set i ⟨pc, r.log s⟩ }
      | none => some { s.perform r.pc.act with
          running := s.running.eraseIdx i, done := s.done ++ [r.log s] }

/-- No completion is dropped, and all that was read is acknowledged. -/
structure Kept (acts : Trace) : Prop where
  completion : ∀ v x, (Act.writel v .ACK, x) ∈ acts → v.getLsbD 8 = true →
    (∃ c y, (Act.writel c .CMD, y) ∈ acts ∧ c.getLsbD 31 = true) ∧
      ∃ y, (Act.tasklet_schedule, y) ∈ acts
  acked : ∀ x, (Act.ret .IRQ_HANDLED, x) ∈ acts → ∀ v, (Act.readl .RAISED, v) ∈ acts →
    ∀ b, v.getLsbD b = true → ∃ w y, (Act.writel w .ACK, y) ∈ acts ∧ w.getLsbD b = true

/-- Every invocation that has returned lost nothing. -/
def Lossless (s : State) : Prop := ∀ acts ∈ s.done, Kept acts

/-- A step that reads `RAISED` finds a completion alone, or none. -/
def Alone (s : State) (e : Ev) : Prop :=
  ∀ i r, e = .step i → s.running[i]? = some r → r.pc = .raised →
    s.raised.getLsbD 8 = true → s.raised = 0x100

/-! ### What an invocation did -/

/-- Before the second branch. -/
def head (v : BitVec 32) : Trace :=
  [(.load, 0), (.readl .RAISED, v), (.writel v .ACK, 0)]

/-- What an invocation at some place has done. -/
def Past : Handler → Trace → Prop
  | .virt, acts => acts = []
  | .raised, acts => acts = [(.load, 0)]
  | .ack v, acts => acts = [(.load, 0), (.readl .RAISED, v)]
  | .cmd, acts => acts = head 0x100
  | .ackint c, acts => acts = head 0x100 ++ [(.readl .CMD, c)]
  | .init, acts => ∃ c : BitVec 32,
      acts = head 0x100 ++ [(.readl .CMD, c), (.writel (c ||| 1 <<< 31) .CMD, 0)]
  | .schedule, acts => ∃ c : BitVec 32, acts = head 0x100 ++
      [(.readl .CMD, c), (.writel (c ||| 1 <<< 31) .CMD, 0), (.tasklet_init, 0)]
  | .ret r, acts =>
      r = .IRQ_NONE ∧ acts = [(.load, 0), (.readl .RAISED, 0)] ∨
      r = .IRQ_HANDLED ∧ (∃ v, v ≠ 0x100 ∧ acts = head v) ∨
      r = .IRQ_HANDLED ∧ ∃ c : BitVec 32, acts = head 0x100 ++
        [(.readl .CMD, c), (.writel (c ||| 1 <<< 31) .CMD, 0), (.tasklet_init, 0),
          (.tasklet_schedule, 0)]

/-- What an invocation did that has returned. -/
inductive Finished : Trace → Prop
  | none : Finished [(.load, 0), (.readl .RAISED, 0), (.ret .IRQ_NONE, 0)]
  | other (v : BitVec 32) (hv : v ≠ 0x100) : Finished (head v ++ [(.ret .IRQ_HANDLED, 0)])
  | dma (c : BitVec 32) : Finished (head 0x100 ++
      [(.readl .CMD, c), (.writel (c ||| 1 <<< 31) .CMD, 0), (.tasklet_init, 0),
        (.tasklet_schedule, 0), (.ret .IRQ_HANDLED, 0)])

theorem Past.next {s : State} {r : Invocation} {pc : Handler} (h : Past r.pc r.acts)
    (hn : r.pc.next (s.reading r.pc.act) = some pc) : Past pc (r.log s) := by
  obtain ⟨at_, acts⟩ := r
  unfold Invocation.log
  cases at_ with
  | virt =>
    cases hn
    rw [show acts = [] from h]
    rfl
  | raised =>
    obtain rfl := Option.some.inj hn
    rw [show acts = [(.load, 0)] from h]
    by_cases hv : s.raised = 0
    · rw [show s.reading Handler.raised.act = 0 from hv, if_pos rfl]
      exact .inl ⟨rfl, by rw [← hv]; rfl⟩
    · rw [show s.reading Handler.raised.act = s.raised from rfl, if_neg hv]
      rfl
  | ack v =>
    obtain rfl := Option.some.inj hn
    rw [show acts = [(.load, 0), (.readl .RAISED, v)] from h]
    by_cases hv : v = 0x100
    · rw [if_pos hv, hv]
      rfl
    · rw [if_neg hv]
      exact .inr (.inl ⟨rfl, v, hv, rfl⟩)
  | cmd =>
    cases hn
    rw [show acts = head 0x100 from h]
    rfl
  | ackint c =>
    cases hn
    rw [show acts = head 0x100 ++ [(.readl .CMD, c)] from h]
    exact ⟨c, rfl⟩
  | init =>
    cases hn
    obtain ⟨c, rfl⟩ := h
    exact ⟨c, rfl⟩
  | schedule =>
    cases hn
    obtain ⟨c, rfl⟩ := h
    exact .inr (.inr ⟨rfl, c, rfl⟩)
  | ret r => cases hn

theorem Past.finish {s : State} {r : Invocation} (h : Past r.pc r.acts)
    (hn : r.pc.next (s.reading r.pc.act) = none) : Finished (r.log s) := by
  obtain ⟨at_, acts⟩ := r
  unfold Invocation.log
  cases at_ with
  | ret x =>
    rcases h with ⟨rfl, rfl⟩ | ⟨rfl, v, hv, rfl⟩ | ⟨rfl, c, rfl⟩
    · exact .none
    · exact .other v hv
    · exact .dma c
  | _ => cases hn

/-- A value with a completion is the completion alone. -/
def Sound (acts : Trace) : Prop :=
  ∀ v, (Act.readl .RAISED, v) ∈ acts → v.getLsbD 8 = true → v = 0x100

/-- **An invocation** keeps what it read exactly if it read a completion alone
or none. -/
theorem kept_iff {acts : Trace} (h : Finished acts) : Kept acts ↔ Sound acts := by
  cases h with
  | none =>
    constructor
    · intro _ v hv h8
      obtain rfl : v = 0 := by simpa using hv
      simp at h8
    · intro _
      exact ⟨by simp, by simp⟩
  | other v hv =>
    have hs : Sound (head v ++ [(.ret .IRQ_HANDLED, 0)]) ↔ v.getLsbD 8 = false := by
      constructor
      · intro h
        by_contra h8
        exact hv (h v (by simp [head]) (by simpa using h8))
      · intro h8 w hw
        have : w = v := by simpa [head] using hw
        rw [this, h8]
        intro h
        cases h
    rw [hs]
    constructor
    · intro hk
      by_contra h8
      obtain ⟨-, y, hy⟩ := hk.completion v 0 (by simp [head]) (by simpa using h8)
      simp [head] at hy
    · intro h8
      refine ⟨fun w x hw hb => ?_, fun _ _ w hw b hb => ⟨v, 0, by simp [head], ?_⟩⟩
      · have : w = v := by
          have := hw
          simp [head] at this
          exact this.1
        rw [this, h8] at hb
        cases hb
      · have : w = v := by simpa [head] using hw
        exact this ▸ hb
  | dma c =>
    constructor
    · intro _ v hv _
      simpa [head] using hv
    · intro _
      refine ⟨fun _ _ _ _ => ⟨⟨c ||| 1 <<< 31, 0, by simp, ?_⟩, 0, by simp⟩, fun _ _ w hw b hb => ?_⟩
      · simp
      · have : w = 0x100 := by simpa [head] using hw
        exact ⟨0x100, 0, by simp [head], this ▸ hb⟩

/-! ### Runs -/

theorem step_cases {s t : State} {e : Ev} (h : step s e = some t) :
    (∀ i, e ≠ .step i) ∧ (t.running = s.running ∨ t.running = s.running ++ [⟨.virt, []⟩]) ∧
        t.done = s.done ∨
    ∃ i r, e = .step i ∧ s.running[i]? = some r ∧
      ((∃ pc, r.pc.next (s.reading r.pc.act) = some pc ∧
          t.running = s.running.set i ⟨pc, r.log s⟩ ∧ t.done = s.done) ∨
        (r.pc.next (s.reading r.pc.act) = none ∧
          t.running = s.running.eraseIdx i ∧ t.done = s.done ++ [r.log s])) := by
  cases e with
  | tick =>
    obtain rfl := Option.some.inj h
    exact .inl ⟨fun i => Ev.noConfusion, .inl rfl, rfl⟩
  | complete =>
    obtain rfl := Option.some.inj h
    exact .inl ⟨fun i => Ev.noConfusion, .inl rfl, rfl⟩
  | irq =>
    simp only [step] at h
    split at h
    · cases h
    · obtain rfl := Option.some.inj h
      exact .inl ⟨fun i => Ev.noConfusion, .inr rfl, rfl⟩
  | step i =>
    simp only [step] at h
    rcases hr : s.running[i]? with _ | r <;> rw [hr] at h <;> simp only at h
    · cases h
    refine .inr ⟨i, r, rfl, hr, ?_⟩
    rcases hn : r.pc.next (s.reading r.pc.act) with _ | pc <;> rw [hn] at h <;> simp only at h <;>
      obtain rfl := Option.some.inj h
    · exact .inr ⟨rfl, rfl, rfl⟩
    · exact .inl ⟨pc, rfl, rfl, s.perform_done _⟩

/-- All invocations, running or not, are where their actions put them, and
what they did satisfies `P`. -/
structure All (P : Trace → Prop) (s : State) : Prop where
  past : ∀ r ∈ s.running, Past r.pc r.acts
  finished : ∀ acts ∈ s.done, Finished acts
  running : ∀ r ∈ s.running, P r.acts
  done : ∀ acts ∈ s.done, P acts

theorem All.step {P : Trace → Prop} (h0 : P []) {s t : State} {e : Ev} (hi : All P s)
    (hP : ∀ i r, e = .step i → s.running[i]? = some r → P (r.log s))
    (h : step s e = some t) : All P t := by
  rcases step_cases h with ⟨-, hrun, hdone⟩ | ⟨i, r, he, hr, ⟨pc, hn, hrun, hdone⟩ | ⟨hn, hrun, hdone⟩⟩
  · have hmem : ∀ r ∈ t.running, r ∈ s.running ∨ r = ⟨.virt, []⟩ := by
      intro r hr
      rcases hrun with he | he <;> rw [he] at hr
      · exact .inl hr
      · simpa using hr
    refine ⟨fun r hr => ?_, hdone ▸ hi.finished, fun r hr => ?_, hdone ▸ hi.done⟩
    · rcases hmem r hr with hr | rfl
      · exact hi.past r hr
      · rfl
    · rcases hmem r hr with hr | rfl
      · exact hi.running r hr
      · exact h0
  · have hlog := hP i r he hr
    have hpast := (hi.past r (List.mem_of_getElem? hr)).next hn
    refine ⟨fun u hu => ?_, hdone ▸ hi.finished, fun u hu => ?_, hdone ▸ hi.done⟩
    · rcases List.mem_or_eq_of_mem_set (hrun ▸ hu) with hu | rfl
      · exact hi.past u hu
      · exact hpast
    · rcases List.mem_or_eq_of_mem_set (hrun ▸ hu) with hu | rfl
      · exact hi.running u hu
      · exact hlog
  · have hlog := hP i r he hr
    have hfin := (hi.past r (List.mem_of_getElem? hr)).finish hn
    refine ⟨fun u hu => ?_, fun u hu => ?_, fun u hu => ?_, fun u hu => ?_⟩
    · exact hi.past u (List.mem_of_mem_eraseIdx (hrun ▸ hu))
    · rcases List.mem_append.mp (hdone ▸ hu) with hu | hu
      · exact hi.finished u hu
      · exact List.mem_singleton.mp hu ▸ hfin
    · exact hi.running u (List.mem_of_mem_eraseIdx (hrun ▸ hu))
    · rcases List.mem_append.mp (hdone ▸ hu) with hu | hu
      · exact hi.done u hu
      · exact List.mem_singleton.mp hu ▸ hlog

theorem all_start {P : Trace → Prop} (raised cmd : BitVec 32) : All P (start raised cmd) :=
  ⟨fun _ h => (by cases h), fun _ h => (by cases h), fun _ h => (by cases h),
    fun _ h => (by cases h)⟩

theorem lossless_of {s : State} (h : All Sound s) : Lossless s :=
  fun acts ha => (kept_iff (h.finished acts ha)).mpr (h.done acts ha)

/-- The invocations stay sound under steps that find a completion alone. -/
theorem All.sound {s t : State} {e : Ev} (hi : All Sound s) (hc : Alone s e)
    (h : Completion.step s e = some t) : All Sound t := by
  refine hi.step (fun v hv => by cases hv) (fun i r he hr v hv h8 => ?_) h
  rcases List.mem_append.mp hv with hv | hv
  · exact hi.running r (List.mem_of_getElem? hr) v hv h8
  · obtain ⟨ha, hx⟩ := Prod.mk.inj (List.mem_singleton.mp hv)
    have hpc : r.pc = .raised := by
      rcases hp : r.pc with _ | _ | _ | _ | _ | _ | _ | _ <;> rw [hp] at ha <;> cases ha
    rw [hpc] at hx
    subst hx
    exact hc i r he hr hpc h8

/-- Some invocation has read `v` in `RAISED`. -/
def HasRead (v : BitVec 32) (s : State) : Prop :=
  (∃ r ∈ s.running, (Act.readl .RAISED, v) ∈ r.acts) ∨
    ∃ acts ∈ s.done, (Act.readl .RAISED, v) ∈ acts

theorem hasRead_step {v : BitVec 32} {s t : State} {e : Ev} (hi : HasRead v s)
    (h : step s e = some t) : HasRead v t := by
  rcases step_cases h with ⟨-, hrun, hdone⟩ | ⟨i, r, -, hr, hcase⟩
  · rcases hi with ⟨u, hu, hv⟩ | ⟨acts, ha, hv⟩
    · refine .inl ⟨u, ?_, hv⟩
      rcases hrun with he | he <;> rw [he]
      · exact hu
      · exact List.mem_append_left _ hu
    · exact .inr ⟨acts, hdone ▸ ha, hv⟩
  · have hlog : (Act.readl .RAISED, v) ∈ r.acts → (Act.readl .RAISED, v) ∈ r.log s :=
      fun hv => List.mem_append_left _ hv
    have hi' : i < s.running.length := (List.getElem?_eq_some_iff.mp hr).1
    rcases hi with ⟨u, hu, hv⟩ | ⟨acts, ha, hv⟩
    · obtain ⟨j, hj⟩ := List.mem_iff_getElem?.mp hu
      rcases hcase with ⟨pc, -, hrun, -⟩ | ⟨-, hrun, hdone⟩
      · refine .inl ?_
        by_cases hij : i = j
        · subst hij
          obtain rfl := Option.some.inj (hr.symm.trans hj)
          exact ⟨_, hrun ▸ List.mem_set hi' _, hlog hv⟩
        · refine ⟨u, List.mem_iff_getElem?.mpr ⟨j, ?_⟩, hv⟩
          rw [hrun, List.getElem?_set_ne hij, hj]
      · by_cases hij : i = j
        · subst hij
          obtain rfl := Option.some.inj (hr.symm.trans hj)
          exact .inr ⟨_, hdone ▸ List.mem_append_right _ List.mem_cons_self, hlog hv⟩
        · refine .inl ⟨u, hrun ▸ List.mem_eraseIdx_iff_getElem?.mpr ⟨j, ?_, hj⟩, hv⟩
          exact fun h => hij h.symm
    · refine .inr ⟨acts, ?_, hv⟩
      rcases hcase with ⟨pc, -, -, hdone⟩ | ⟨-, -, hdone⟩ <;> rw [hdone]
      · exact ha
      · exact List.mem_append_left _ ha

theorem hasRead_of_read {s t : State} {i : ℕ} {r : Invocation} (hr : s.running[i]? = some r)
    (hpc : r.pc = .raised) (h : step s (.step i) = some t) : HasRead s.raised t := by
  have hmem : (Act.readl .RAISED, s.raised) ∈ r.log s := by
    unfold Invocation.log
    rw [hpc]
    exact List.mem_append_right _ List.mem_cons_self
  have hi' : i < s.running.length := (List.getElem?_eq_some_iff.mp hr).1
  rcases step_cases h with ⟨hne, -⟩ | ⟨j, u, hj, hu, ⟨pc, -, hrun, -⟩ | ⟨hn, -⟩⟩
  · exact absurd rfl (hne i)
  · obtain rfl := Ev.step.inj hj
    obtain rfl := Option.some.inj (hr.symm.trans hu)
    exact .inl ⟨_, hrun ▸ List.mem_set hi' _, hmem⟩
  · obtain rfl := Ev.step.inj hj
    obtain rfl := Option.some.inj (hr.symm.trans hu)
    rw [hpc] at hn
    cases hn

/-- **No completion is lost** in a run whose reads of `RAISED` find it alone
or not at all; and in a run at whose end every invocation has returned, only
then. What an invocation read is acknowledged in any case. -/
theorem lossless_iff (raised cmd : BitVec 32) {es : List Ev} {s : State}
    (h : Machine.run step (start raised cmd) es = some s) :
    (Machine.Always step Alone (start raised cmd) es →
        Machine.Visits step Lossless (start raised cmd) es) ∧
      (s.running = [] → (Machine.Visits step Lossless (start raised cmd) es ↔
        Machine.Always step Alone (start raised cmd) es)) := by
  have hto : Machine.Always step Alone (start raised cmd) es →
      Machine.Visits step Lossless (start raised cmd) es := by
    intro hc
    have hv := Machine.visits_of_always (P := All Sound) (all_start raised cmd)
      (fun _ _ _ hi hce he => hi.sound hce he) hc
    exact fun pre hp t ht => lossless_of (hv pre hp t ht)
  refine ⟨hto, fun hq => ⟨fun hv => ?_, hto⟩⟩
  have hall : All (fun _ => True) s := Machine.run_inv step (All fun _ => True)
    (all_start raised cmd) (fun _ _ _ hi he => hi.step trivial (fun _ _ _ _ => trivial) he) h
  have hs := hv _ (List.prefix_refl _) s h
  rintro pre e ⟨post, rfl⟩ u hu i r rfl hr hpc h8
  rw [Machine.run_append, Option.bind_eq_some_iff] at h
  obtain ⟨t, ht, hrest⟩ := h
  obtain ⟨u', hu', hstep⟩ := (Machine.run_concat_eq_some step).mp ht
  obtain rfl := Option.some.inj (hu.symm.trans hu')
  have hread : HasRead u.raised s := Machine.run_inv step (HasRead u.raised)
    (hasRead_of_read hr hpc hstep) (fun _ _ _ hi he => hasRead_step hi he) hrest
  rcases hread with ⟨x, hx, -⟩ | ⟨acts, ha, hmem⟩
  · rw [hq] at hx
    cases hx
  · exact (kept_iff (hall.finished acts ha)).mp (hs acts ha) _ hmem h8

/-- A tick and the completion of the third transfer meet in one read: the
completion is acknowledged and dropped. -/
theorem lost_both : ∃ s, Machine.run step (start 0 0x29)
      ([.tick, .complete, .irq] ++ List.replicate 4 (.step 0)) = some s ∧
    s.running = [] ∧ s.done = [head 0x1100 ++ [(.ret .IRQ_HANDLED, 0)]] ∧ ¬ Lossless s := by
  refine ⟨_, rfl, rfl, rfl, fun hl => ?_⟩
  have hs : Sound (head 0x1100 ++ [(.ret .IRQ_HANDLED, 0)]) :=
    (kept_iff (.other 0x1100 (by decide))).mp (hl _ List.mem_cons_self)
  exact absurd (hs 0x1100 (by simp [head]) (by decide)) (by decide)

/-- A completion alone is handled. -/
theorem lossless_one :
    Machine.Visits step Lossless (start 0 0x29)
      ([.complete, .irq] ++ List.replicate 8 (.step 0)) := by
  obtain ⟨s, hs, hq⟩ : ∃ s, Machine.run step (start 0 0x29)
      ([.complete, .irq] ++ List.replicate 8 (.step 0)) = some s ∧ s.running = [] :=
    ⟨_, rfl, rfl⟩
  have halone : Machine.Always step
      (fun s _ => s.raised.getLsbD 8 = true → s.raised = 0x100) (start 0 0x29)
      ([.complete, .irq] ++ List.replicate 8 (.step 0)) := by
    decide
  refine ((lossless_iff 0 0x29 hs).2 hq).mpr fun pre e hp u hu i r _ _ _ hb => ?_
  exact halone pre e hp u hu hb

end Completion
end Pb173
