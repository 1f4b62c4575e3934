/-
# A probe of the DMA driver that fails (11/homework)

`my_probe` has eight statements that may fail, and leaves at once when one
does: what it has acquired before stays acquired, and the globals keep what
has been stored in them. So a failed call has undone its work only if there
was none: if the first allocation failed, and `task`, which is NULL then, was
NULL before (`failed_probe_iff`).
-/
import Pb173.Calls

namespace Pb173
namespace Dma

theorem stopAt_ne {st : Probe} : ∀ (as : List Answer) {rest : List Probe}, st ∉ rest →
    stopAt as rest ≠ some st
  | [], _, _, h => by cases h
  | _ :: _, [], _, h => by cases h
  | a :: as, st' :: rest, hmem, h => by
    simp only [stopAt] at h
    split_ifs at h
    · obtain rfl := Option.some.inj h
      exact hmem List.mem_cons_self
    · exact stopAt_ne as hmem h
    · exact stopAt_ne as (fun hr => hmem (List.mem_cons_of_mem _ hr)) h

section Failure

variable {D : Type*}

/-- What a failed call should restore: what is allocated, the device, its region,
the globals and the driver data. -/
structure Undone (m m' : Driver D) : Prop where
  get : m'.heap.get = m.heap.get
  enabled : m'.enabled = m.enabled
  region : m'.region = m.region
  task : m'.task = m.task
  dma_virt_addr : m'.dma_virt_addr = m.dma_virt_addr
  drvdata : m'.drvdata = m.drvdata

variable [DecidableEq D] {m m' : Driver D} {d : D} {as : List Answer} {r : ℤ}

theorem my_probe_first (h : my_probe d as m = some (r, m'))
    (hs : stopAt as probe_code = some .kmalloc_task) :
    m' = { m.note (.probe d) with task := NULL } := by
  rcases as with _ | ⟨a, _ | ⟨a', as⟩⟩
  · cases h
  · cases h
  have hleave : Probe.kmalloc_task.leaves a' = true := by
    by_contra hl
    have hstep : stopAt (a :: a' :: as) probe_code = stopAt as (probe_code.drop 2) := by
      show (if Probe.kmalloc_task.leaves a' then some Probe.kmalloc_task else _) = _
      rw [if_neg hl]
      rfl
    rw [hstep] at hs
    exact stopAt_ne as (by decide) hs
  have he : a'.err ≠ 0 := of_decide_eq_true hleave
  have hexec : Probe.kmalloc_task.exec d a' ⟨NULL, NULL, 0⟩ (m.note (.probe d)) =
      (.ret (-ENOMEM), ⟨NULL, NULL, 0⟩, { m.note (.probe d) with task := NULL }) := if_pos he
  have hrun : my_probe d (a :: a' :: as) m =
      if as = [] then some (-ENOMEM, { m.note (.probe d) with task := NULL }) else none := by
    show runProbe d (a' :: as) (Probe.kmalloc_task :: probe_code.drop 2) ⟨NULL, NULL, 0⟩ _ = _
    rw [runProbe, hexec]
  rw [hrun] at h
  split_ifs at h
  exact (Prod.mk.inj (Option.some.inj h)).2.symm

theorem my_probe_later (h : my_probe d as m = some (r, m')) {st : Probe}
    (hs : stopAt as probe_code = some st) (hne : st ≠ .kmalloc_task) : ¬ Undone m m' := by
  intro hu
  rcases my_probe_spec h with ⟨hnone, -⟩ | ⟨st', rest, l, m₁, hst, hfall, hsuf, -, hf, rfl⟩
  · rw [hs] at hnone
    cases hnone
  obtain rfl := Option.some.inj (hs.symm.trans hst)
  have h2 : 2 ≤ stage (st :: rest) := by
    rcases stage_of_fallible hsuf hfall with ⟨rfl, -⟩ | ⟨-, h9⟩ | ⟨-, h2, -⟩
    · exact absurd rfl hne
    · omega
    · exact h2
  have hheap : (st.giveUp m₁).heap = m₁.heap := by
    cases st <;> rfl
  have hget := congrFun hu.get m.heap.next
  rw [hheap, hf.tasklet h2, m.heap.fresh _ le_rfl] at hget
  cases hget

/-- **A failed probe** has undone what it did if and only if it failed at its
first allocation, and `task` was NULL. -/
theorem failed_probe_iff (h : my_probe d as m = some (r, m')) : (r ≠ 0 → Undone m m') ↔
    stopAt as probe_code = none ∨ stopAt as probe_code = some .kmalloc_task ∧ m.task = NULL := by
  rcases hs : stopAt as probe_code with _ | st
  · refine iff_of_true (fun hr => ?_) (.inl rfl)
    rcases my_probe_spec h with ⟨-, h0, -⟩ | ⟨st, rest, l, m₁, hst, -⟩
    · exact absurd h0 hr
    · rw [hs] at hst
      cases hst
  have hr : r ≠ 0 := by
    rcases my_probe_spec h with ⟨hnone, -⟩ | ⟨st', rest, l, m₁, -, -, -, hr, -⟩
    · rw [hs] at hnone
      cases hnone
    · exact hr
  by_cases hk : st = .kmalloc_task
  · subst hk
    obtain rfl := my_probe_first h hs
    constructor
    · intro hu
      exact .inr ⟨rfl, (hu hr).task.symm⟩
    · rintro (hc | ⟨-, htask⟩) _
      · cases hc
      · exact ⟨rfl, rfl, rfl, htask.symm, rfl, rfl⟩
  · refine iff_of_false (fun hu => my_probe_later h hs hk (hu hr)) ?_
    rintro (hc | ⟨hc, -⟩)
    · cases hc
    · exact hk (Option.some.inj hc)

end Failure

/-- The answers to a call in a module that has just been loaded: the first
allocation succeeds, the device cannot be enabled. -/
def notEnabled : List Answer := [⟨0, 0⟩, ⟨0, 0⟩, ⟨-5, 0⟩]

/-- The tasklet stays allocated. -/
theorem notEnabled_leaks : ∃ m', my_probe () notEnabled loaded = some (- EIO, m') ∧
    m'.Is .tasklet m'.task ∧ ¬ Undone loaded m' := by
  obtain ⟨m', h⟩ : ∃ m', my_probe () notEnabled loaded = some (- EIO, m') := ⟨_, rfl⟩
  have hstop : stopAt notEnabled probe_code = some .pci_enable_device := by decide
  refine ⟨m', h, ?_, my_probe_later h hstop (by decide)⟩
  obtain ⟨-, rfl⟩ := Prod.mk.inj (Option.some.inj h)
  decide

/-- No memory for the tasklet, in the same module: there is nothing to undo. -/
theorem failed_probe_first : ∃ m', my_probe () [⟨0, 0⟩, ⟨-12, 0⟩] loaded = some (-ENOMEM, m') ∧
    Undone (loaded : Driver Unit) m' := by
  obtain ⟨m', h⟩ : ∃ m', my_probe () [⟨0, 0⟩, ⟨-12, 0⟩] loaded = some (-ENOMEM, m') := ⟨_, rfl⟩
  exact ⟨m', h, (failed_probe_iff h).mpr (.inr ⟨rfl, rfl⟩) (by decide)⟩

end Dma
end Pb173
