/-
# The mapped DMA page (11/homework)

`my_mmap` maps the page that `dma_virt_addr` points to, and refuses only
while it is null. `my_probe` stores there whatever its allocation returns,
and nothing resets it: not a later failure of the same probe, and not
`my_remove`. So what a mapping gets depends on the calls before it, of which
`track` keeps what matters: whether the last allocation of a DMA page failed,
belongs to a card still bound, or is stale. The mapping is as it should be
exactly in the first two cases (`my_mmap_iff`).
-/
import Pb173.Cards

namespace Pb173
namespace Mapping

open Dma Cards

section Model

variable {A : Pages.Arch} {D : Type*}

/-- What `remap_pfn_range` was given: the address, the page, the size and the
flags that the protection comes from. -/
structure Remap where
  start : ℕ
  page : Ptr
  size : ℕ
  flags : ℕ

/-- `my_mmap`, with what `remap_pfn_range` returns. -/
def my_mmap (m : Driver D) (vma : Pages.Vma A) (remap_pfn_range : ℤ) : ℤ × Option Remap :=
  if vma.vm_end - vma.vm_start > A.PAGE_SIZE then (-EINVAL, none)
  else if vma.vm_flags &&& (Pages.VM_WRITE ||| Pages.VM_READ) ≠ Pages.VM_READ then (-EINVAL, none)
  else if m.dma_virt_addr = NULL then (-EBUSY, none)
  else (remap_pfn_range,
    if remap_pfn_range = 0 then
      some ⟨vma.vm_start, m.dma_virt_addr, A.PAGE_SIZE, vma.vm_flags⟩
    else none)

/-- The checks of the size and of the permissions. -/
def Passes (vma : Pages.Vma A) : Prop :=
  vma.vm_end - vma.vm_start ≤ A.PAGE_SIZE ∧
    vma.vm_flags &&& (Pages.VM_WRITE ||| Pages.VM_READ) = Pages.VM_READ

/-- `g` is the DMA page of a bound card, and allocated. -/
def Live (s : State D) (g : Ptr) : Prop :=
  ∃ d ∈ s.bound, ∃ x h, s.mod.heap.get (s.mod.drvdata d) = some (x, .help h) ∧ h.dma_virt = g ∧
    s.mod.heap.get g = some (d, .page)

/-- What a call of `my_mmap` should do: what it maps is one page, read-only,
and the page of a bound card; and it refuses if there is none. -/
structure Right (s : State D) (vma : Pages.Vma A) (remap_pfn_range : ℤ) : Prop where
  success : (my_mmap s.mod vma remap_pfn_range).1 = 0 →
    ∃ r, (my_mmap s.mod vma remap_pfn_range).2 = some r ∧ r.start = vma.vm_start ∧
      r.size = A.PAGE_SIZE ∧ vma.vm_end = r.start + r.size ∧ r.flags.testBit 1 = false ∧
      Live s r.page
  busy : Passes vma → (∀ g, ¬ Live s g) → (my_mmap s.mod vma remap_pfn_range).1 = -EBUSY

/-- Where the last allocation of a DMA page went. -/
inductive Track (D : Type*)
  | null
  | held (pdev : D)
  | stale
deriving DecidableEq

variable [DecidableEq D]

/-- A probe that fails before its DMA page leaves the track as it is, one that
fails at it clears it, one that fails later leaves its page behind. -/
def Track.next (t : Track D) : Ev A D → Track D
  | .probe pdev as =>
    match stopAt as probe_code with
    | none => .held pdev
    | some .dma_alloc_coherent => .null
    | some .request_irq => .stale
    | some _ => t
  | .remove pdev => if t = .held pdev then .stale else t
  | _ => t

def track (es : List (Ev A D)) : Track D := es.foldl Track.next .null

end Model

/-! ### The track and the state -/

section Runs

variable {A : Pages.Arch} {D : Type*}

/-- What the track says of `dma_virt_addr`. -/
def OnTrack (s : State D) : Track D → Prop
  | .null => s.mod.dma_virt_addr = NULL
  | .held d => d ∈ s.bound ∧
      ∃ h, s.mod.heap.get (s.mod.drvdata d) = some (d, .help h) ∧ h.dma_virt = s.mod.dma_virt_addr
  | .stale => s.mod.dma_virt_addr ≠ NULL ∧ ¬ Live s s.mod.dma_virt_addr

/-- A bound card has its help structure, its mapping and its page; `task` is
null or points to a tasklet. -/
structure Inv (t : Track D) (s : State D) : Prop where
  cells : ∀ d ∈ s.bound, ∃ h, s.mod.heap.get (s.mod.drvdata d) = some (d, .help h) ∧
    s.mod.heap.get h.virt = some (d, .bar) ∧ s.mod.heap.get h.dma_virt = some (d, .page)
  task : s.mod.task = NULL ∨ ∃ o, s.mod.heap.get s.mod.task = some o ∧ o.2.kind = .tasklet
  dma_lt : s.mod.dma_virt_addr < s.mod.heap.next
  track : OnTrack s t

theorem Inv.live {t : Track D} {s : State D} (hi : Inv t s) {d : D} (hd : d ∈ s.bound) {h : Help}
    (hp : s.mod.heap.get (s.mod.drvdata d) = some (d, .help h)) : Live s h.dma_virt := by
  obtain ⟨h', hp', -, hg⟩ := hi.cells d hd
  obtain ⟨-, he⟩ := Prod.mk.inj (Option.some.inj (hp.symm.trans hp'))
  obtain rfl := Obj.help.inj he
  exact ⟨d, hd, d, h, hp, rfl, hg⟩

/-- What a call may change: the bound cards of `u` were bound in `s` and have
kept what they were given, and nothing else was given to a card in place of
an old allocation. -/
structure Moves (s u : State D) : Prop where
  bound : ∀ d ∈ u.bound, d ∈ s.bound ∧ u.mod.drvdata d = s.mod.drvdata d
  keep : ∀ a d x, d ∈ u.bound → s.mod.heap.get a = some (d, x) → x.kind ≠ .tasklet →
    u.mod.heap.get a = some (d, x)
  back : ∀ a d x, a < s.mod.heap.next → u.mod.heap.get a = some (d, x) → x.kind ≠ .tasklet →
    s.mod.heap.get a = some (d, x)
  next : s.mod.heap.next ≤ u.mod.heap.next
  task : u.mod.task = NULL ∨ ∃ o, u.mod.heap.get u.mod.task = some o ∧ o.2.kind = .tasklet

theorem Inv.cells_move {t : Track D} {s u : State D} (hi : Inv t s) (hm : Moves s u) :
    ∀ d ∈ u.bound, ∃ h, u.mod.heap.get (u.mod.drvdata d) = some (d, .help h) ∧
      u.mod.heap.get h.virt = some (d, .bar) ∧ u.mod.heap.get h.dma_virt = some (d, .page) := by
  intro d hd
  obtain ⟨hs, hdrv⟩ := hm.bound d hd
  obtain ⟨h, hp, hv, hg⟩ := hi.cells d hs
  rw [hdrv]
  exact ⟨h, hm.keep _ _ _ hd hp (by simp [Obj.kind]), hm.keep _ _ _ hd hv (by simp [Obj.kind]),
    hm.keep _ _ _ hd hg (by simp [Obj.kind])⟩

theorem Inv.live_back {t : Track D} {s u : State D} (hi : Inv t s) (hm : Moves s u) {g : Ptr}
    (hg : g < s.mod.heap.next) (hl : Live u g) : Live s g := by
  obtain ⟨d, hd, x, h, hp, hh, hpage⟩ := hl
  obtain ⟨hs, hdrv⟩ := hm.bound d hd
  obtain ⟨h', hp', -⟩ := hi.cells d hs
  rw [hdrv] at hp
  exact ⟨d, hs, x, h, hm.back _ _ _ (Heap.lt_next hp') hp (by simp [Obj.kind]), hh,
    hm.back _ _ _ hg hpage (by simp [Obj.kind])⟩

theorem Inv.move {t : Track D} {s u : State D} (hi : Inv t s) (hm : Moves s u)
    (hdma : u.mod.dma_virt_addr = s.mod.dma_virt_addr) (ht : ∀ d, t = .held d → d ∈ u.bound) :
    Inv t u := by
  refine ⟨hi.cells_move hm, hm.task, hdma ▸ hi.dma_lt.trans_le hm.next, ?_⟩
  have htrack := hi.track
  cases t with
  | null => exact hdma.trans htrack
  | held d =>
    obtain ⟨-, h, hp, hh⟩ := htrack
    have hd := ht d rfl
    refine ⟨hd, h, ?_, hh.trans hdma.symm⟩
    rw [(hm.bound d hd).2]
    exact hm.keep _ _ _ hd hp (by simp [Obj.kind])
  | stale =>
    obtain ⟨hn, hl⟩ := htrack
    unfold OnTrack
    rw [hdma]
    exact ⟨hn, fun hu => hl (hi.live_back hm hi.dma_lt hu)⟩

theorem moves_of_keeps {t : Track D} {s u : State D} (hi : Inv t s) (hk : Keeps s.mod u.mod)
    (hb : u.bound = s.bound) : Moves s u := by
  refine ⟨fun d hd => ⟨hb ▸ hd, congrFun hk.drvdata d⟩, fun a d x _ ha hx => hk.get_of_ne ha hx,
    fun a d x _ ha hx => ?_, hk.next.ge, ?_⟩
  · rcases hk.get a with he | ⟨_, _, y, -, hy⟩
    · exact he ▸ ha
    · obtain ⟨-, rfl⟩ := Prod.mk.inj (Option.some.inj (hy.symm.trans ha))
      exact absurd rfl hx
  · rw [hk.task]
    rcases hi.task with ht | ⟨⟨d, x⟩, ht, hx⟩
    · exact .inl ht
    · cases x with
      | tasklet data =>
        obtain ⟨y, hy⟩ := hk.get_tasklet ht
        exact .inr ⟨_, hy, rfl⟩
      | _ => cases hx

variable [DecidableEq D]

theorem moves_of_removed {t : Track D} {s : State D} (hi : Inv t s) {d : D} {h : Help}
    (hp : s.mod.heap.get (s.mod.drvdata d) = some (d, .help h))
    (hv : s.mod.heap.get h.virt = some (d, .bar)) (hg : s.mod.heap.get h.dma_virt = some (d, .page))
    {m : Driver D} (hr : Removed d h s.mod m) :
    Moves s { s with mod := m, bound := s.bound.filter fun x => x ≠ d } := by
  refine ⟨fun e he => ⟨(List.mem_filter.mp he).1, congrFun hr.drvdata e⟩,
    fun a e x he ha hx => ?_, fun a e x _ ha _ => hr.get_of_some ha, hr.next.ge, .inl hr.task⟩
  exact hr.survives hp hv hg hi.task ha (by simpa using (List.mem_filter.mp he).2) hx

theorem moves_of_frame {t : Track D} {s : State D} (hi : Inv t s) {d : D} (hd : d ∉ s.bound)
    {k : ℕ} {l : Locals} {m u : Driver D} (hf : Frame s.mod d k l m) (hu : u.heap = m.heap)
    (hdrv : u.drvdata = m.drvdata) (ht : u.task = NULL ∨ u.task = m.task) :
    Moves s { s with mod := u } := by
  have hget : ∀ a, a < s.mod.heap.next → u.heap.get a = s.mod.heap.get a :=
    fun a ha => hu ▸ hf.old a ha
  refine ⟨fun e he => ⟨he, ?_⟩, fun a e x _ ha _ => (hget a (Heap.lt_next ha)).trans ha,
    fun a e x hlt ha _ => (hget a hlt).symm.trans ha, ?_, ?_⟩
  · show u.drvdata e = _
    rw [hdrv, hf.drvdata]
    split_ifs
    · exact Function.update_of_ne (fun h : e = d => hd (h ▸ he)) _ _
    · rfl
  · show s.mod.heap.next ≤ u.heap.next
    rw [hu, hf.next]
    exact Nat.le_add_right _ _
  · show u.task = NULL ∨ ∃ o, u.heap.get u.task = some o ∧ o.2.kind = .tasklet
    rcases ht with ht | ht
    · exact .inl ht
    rw [ht, hu, hf.task]
    split_ifs with hk
    · exact .inr ⟨_, hf.tasklet hk, rfl⟩
    · rcases hi.task with h0 | ⟨o, h0, hx⟩
      · exact .inl h0
      · exact .inr ⟨o, (hf.old _ (Heap.lt_next h0)).trans h0, hx⟩

theorem inv_probed {t : Track D} {s : State D} (hi : Inv t s) {d : D} (hd : d ∉ s.bound)
    {l : Locals} {m : Driver D} (hf : Frame s.mod d 11 l m) :
    Inv (.held d) { s with mod := m, bound := s.bound ++ [d] } := by
  have hm := moves_of_frame hi hd hf rfl rfl (.inr rfl)
  obtain ⟨h, hp, -, hv, hg⟩ := hf.help (by decide)
  have hdrv : m.drvdata d = s.mod.heap.next + 2 := by
    rw [hf.drvdata, if_pos (by decide), Function.update_self]
  have hdma : m.dma_virt_addr = s.mod.heap.next + 3 := hf.dma
  have hown : m.heap.get (m.drvdata d) = some (d, .help h) := hdrv ▸ hp
  refine ⟨fun e he => ?_, hm.task, ?_, List.mem_append_right _ List.mem_cons_self, h, hown, ?_⟩
  · rcases List.mem_append.mp he with he | he
    · exact hi.cells_move hm e he
    · obtain rfl := List.mem_singleton.mp he
      refine ⟨h, hown, ?_, ?_⟩
      · show m.heap.get h.virt = _
        rw [hv (by decide)]
        exact hf.bar (by decide)
      · show m.heap.get h.dma_virt = _
        rw [hg (by decide)]
        exact hf.page (by decide)
  · show m.dma_virt_addr < m.heap.next
    rw [hdma, hf.next]
    exact Nat.lt_succ_self _
  · exact (hg (by decide)).trans hdma.symm

/-- A probe that fails after its DMA page was allocated leaves the page to no
card. -/
theorem inv_leaked {t : Track D} {s : State D} (hi : Inv t s) {d : D} (hd : d ∉ s.bound)
    {l : Locals} {m : Driver D} (hf : Frame s.mod d 9 l m) :
    Inv .stale { s with mod := m } := by
  have hm := moves_of_frame hi hd hf rfl rfl (.inr rfl)
  have hdma : m.dma_virt_addr = s.mod.heap.next + 3 := hf.dma
  refine ⟨hi.cells_move hm, hm.task, ?_, ?_, ?_⟩
  · show m.dma_virt_addr < m.heap.next
    rw [hdma, hf.next]
    exact Nat.lt_succ_self _
  · show m.dma_virt_addr ≠ NULL
    rw [hdma]
    exact Nat.succ_ne_zero _
  · rintro ⟨e, he, x, h, hp, hh, -⟩
    -- the pages of the bound cards are older
    obtain ⟨h', hp', -, hg⟩ := hi.cells e he
    have hpm := hm.keep _ _ _ he hp' (by simp [Obj.kind])
    rw [(hm.bound e he).2] at hp
    obtain ⟨-, heq⟩ := Prod.mk.inj (Option.some.inj (hpm.symm.trans hp))
    obtain rfl := Obj.help.inj heq
    have hlt := Heap.lt_next hg
    simp only at hh
    rw [hh, hdma] at hlt
    omega

theorem inv_failed {t : Track D} {s : State D} (hi : Inv t s) {d : D} (hd : d ∉ s.bound)
    {st : Probe} {rest : List Probe} (hs : st :: rest <:+ probe_code) (hst : st.fallible = true)
    {l : Locals} {m : Driver D} (hf : Frame s.mod d (stage (st :: rest)) l m) :
    Inv (match st with
      | .dma_alloc_coherent => .null
      | .request_irq => .stale
      | _ => t) { s with mod := st.giveUp m } := by
  have hheld : ∀ d, t = .held d → d ∈ s.bound := by
    rintro d rfl
    exact hi.track.1
  rcases stage_of_fallible hs hst with ⟨rfl, hk⟩ | ⟨rfl, hk⟩ | ⟨⟨h1, h2⟩, -, hk⟩
  · have hdma : m.dma_virt_addr = s.mod.dma_virt_addr := by rw [hf.dma, if_neg (by omega)]
    exact hi.move (moves_of_frame hi hd hf rfl rfl (.inl rfl)) hdma hheld
  · rw [hk] at hf
    exact inv_leaked hi hd hf
  · have hdma : m.dma_virt_addr = s.mod.dma_virt_addr := by rw [hf.dma, if_neg (by omega)]
    by_cases hst' : st = .dma_alloc_coherent
    · subst hst'
      have hm := moves_of_frame (u := { m with dma_virt_addr := NULL }) hi hd hf rfl rfl (.inr rfl)
      exact ⟨hi.cells_move hm, hm.task, m.heap.next_pos, rfl⟩
    · have hm := hi.move (moves_of_frame hi hd hf rfl rfl (.inr rfl)) hdma hheld
      cases st <;> first | exact hm | exact absurd rfl h1 | exact absurd rfl h2 | exact absurd rfl hst'

/-- **One call** and the track. -/
theorem inv_step {t : Track D} {s u : State D} {e : Ev A D} (hi : Inv t s)
    (h : step s e = some u) : Inv (t.next e) u := by
  have hheld : ∀ d, t = .held d → d ∈ s.bound := by
    rintro d rfl
    exact hi.track.1
  cases Step.of_step h with
  | my_init => exact hi.move (moves_of_keeps hi (Keeps.refl _) rfl) rfl hheld
  | probe hd hs hf =>
    unfold Track.next
    simp only [hs]
    exact inv_probed hi hd hf
  | @probe_error d as st rest l m hd hs hfall hsuf hf =>
    unfold Track.next
    simp only [hs]
    have hfail := inv_failed hi hd hsuf hfall hf
    cases st <;> exact hfail
  | @remove d hd =>
    obtain ⟨p, hp, hv, hg⟩ := hi.cells d hd
    have hr := my_remove_spec hp hv hg hi.task
    have hm := moves_of_removed hi hp hv hg hr
    unfold Track.next
    simp only
    split_ifs with ht
    · -- the page goes, and its address stays
      subst ht
      obtain ⟨-, p', hp', hdma⟩ := hi.track
      obtain ⟨-, he⟩ := Prod.mk.inj (Option.some.inj (hp'.symm.trans hp))
      obtain rfl := Obj.help.inj he
      refine ⟨hi.cells_move hm, hm.task, ?_, ?_, ?_⟩
      · exact (hr.dma ▸ hi.dma_lt).trans_le hm.next
      · show (my_remove d s.mod).dma_virt_addr ≠ NULL
        rw [hr.dma, ← hdma]
        exact Heap.ne_null hg
      · rintro ⟨e, -, x, h, -, -, hpage⟩
        have hgone := hr.get p'.dma_virt
        rw [if_pos (.inr (.inl rfl))] at hgone
        simp only at hpage
        rw [hr.dma, ← hdma, hgone] at hpage
        cases hpage
    · refine hi.move hm hr.dma fun e he => ?_
      refine List.mem_filter.mpr ⟨hheld e he, ?_⟩
      subst he
      simpa using ht
  | irq =>
    have hk := keeps_runHandler (D := D)
    exact hi.move (moves_of_keeps hi (hk _ _ _ _ _ _) rfl) (hk _ _ _ _ _ _).dma hheld
  | mmap => exact hi

theorem run_inv {es : List (Ev A D)} {s : State D} (h : Machine.run step start es = some s) :
    Inv (track es) s := by
  refine Machine.run_hist step (fun es s => Inv (track es) s) ?_ ?_ es s h
  · exact ⟨fun d hd => (by cases hd), .inl rfl, Nat.one_pos, rfl⟩
  · intro es s e u _ hi he
    rw [track, List.foldl_append]
    exact inv_step hi he

/-! ### The mapping -/

omit [DecidableEq D] in
theorem one_page {vma : Pages.Vma A} (h : vma.vm_end - vma.vm_start ≤ A.PAGE_SIZE) :
    vma.vm_end = vma.vm_start + A.PAGE_SIZE := by
  have hlt := vma.start_lt
  have hdvd : A.PAGE_SIZE ∣ vma.vm_end - vma.vm_start :=
    Nat.dvd_sub vma.end_aligned vma.start_aligned
  have := Nat.le_of_dvd (by omega) hdvd
  omega

omit [DecidableEq D] in
theorem my_mmap_eq {vma : Pages.Vma A} (h : Passes vma) (m : Driver D) (r : ℤ) :
    my_mmap m vma r =
      if m.dma_virt_addr = NULL then (-EBUSY, none)
      else (r, if r = 0 then some ⟨vma.vm_start, m.dma_virt_addr, A.PAGE_SIZE, vma.vm_flags⟩
        else none) := by
  rw [my_mmap, if_neg (Nat.not_lt.mpr h.1), if_neg (not_not.mpr h.2)]

omit [DecidableEq D] in
theorem my_mmap_refused {vma : Pages.Vma A} (h : ¬ Passes vma) (m : Driver D) (r : ℤ) :
    my_mmap m vma r = (-EINVAL, none) := by
  unfold my_mmap
  by_cases h1 : vma.vm_end - vma.vm_start > A.PAGE_SIZE
  · rw [if_pos h1]
  · rw [if_neg h1, if_pos fun h2 => h ⟨Nat.not_lt.mp h1, h2⟩]

omit [DecidableEq D] in
/-- `my_mmap` does what it should unless the page is stale. -/
theorem right_of_fresh {t : Track D} {s : State D} (hi : Inv t s) (ht : t ≠ .stale)
    (vma : Pages.Vma A) (r : ℤ) : Right s vma r := by
  by_cases hp : Passes vma
  · have heq := my_mmap_eq hp s.mod r
    have htrack := hi.track
    cases t with
    | stale => exact absurd rfl ht
    | null =>
      rw [if_pos (show s.mod.dma_virt_addr = NULL from htrack)] at heq
      refine ⟨fun h0 => ?_, fun _ _ => by rw [heq]⟩
      rw [heq] at h0
      cases h0
    | held d =>
      obtain ⟨hd, h, hh, hdma⟩ := htrack
      have hlive : Live s s.mod.dma_virt_addr := hdma ▸ hi.live hd hh
      have hne : s.mod.dma_virt_addr ≠ NULL := by
        obtain ⟨_, _, _, _, _, _, hg⟩ := hlive
        exact Heap.ne_null hg
      rw [if_neg hne] at heq
      refine ⟨fun h0 => ?_, fun _ hno => absurd hlive (hno _)⟩
      rw [heq] at h0 ⊢
      rw [if_pos h0]
      exact ⟨_, rfl, rfl, rfl, one_page hp.1, Pages.testBit_of_and hp.2, hlive⟩
  · have heq := my_mmap_refused hp s.mod r
    refine ⟨fun h0 => ?_, fun h => absurd h hp⟩
    rw [heq] at h0
    cases h0

omit [DecidableEq D] in
theorem not_right_of_stale {s : State D} (hi : Inv .stale s) {vma : Pages.Vma A}
    (hp : Passes vma) : ¬ Right s vma 0 := by
  obtain ⟨hne, hl⟩ := hi.track
  have heq := my_mmap_eq hp s.mod 0
  rw [if_neg hne] at heq
  intro h
  obtain ⟨r, hr, -, -, -, -, hlive⟩ := h.success (by rw [heq])
  rw [heq] at hr
  obtain rfl := Option.some.inj hr
  exact hl hlive

/-- **What `my_mmap` maps** after any run. It is right if the last allocation
of a DMA page failed or belongs to a card still bound, and where the mapping
is made it is right only then. -/
theorem my_mmap_iff {es : List (Ev A D)} {s : State D}
    (h : Machine.run step start es = some s) (vma : Pages.Vma A) :
    (track es ≠ .stale → ∀ remap_pfn_range, Right s vma remap_pfn_range) ∧
      (Passes vma → (Right s vma 0 ↔ track es ≠ .stale)) := by
  have hi := run_inv h
  refine ⟨fun ht r => right_of_fresh hi ht vma r, fun hp => ⟨fun hr ht => ?_, fun ht =>
    right_of_fresh hi ht vma 0⟩⟩
  rw [ht] at hi
  exact not_right_of_stale hi hp hr

end Runs

/-- A page of the user's, to be read. -/
def page : Pages.Vma Pages.amd64 :=
  ⟨0x10000, 0x11000, 0, 0x71, false, by decide, by decide, Pages.map2.start_aligned, by decide,
    Pages.amd64_pos⟩

/-- The page of a card that was removed is mapped. -/
theorem mapped_stale : ∃ s,
    Machine.run step start
      ([.my_init 0 0, .probe 0 success, .remove 0] : List (Ev Pages.amd64 (Fin 2))) = some s ∧
    Passes page ∧ (my_mmap s.mod page 0).1 = 0 ∧ s.bound = [] ∧ ¬ Right s page 0 := by
  refine ⟨_, rfl, by unfold Passes; decide, rfl, rfl, fun hr => ?_⟩
  obtain ⟨r, -, -, -, -, -, d, hd, -⟩ := hr.success rfl
  cases hd

/-- The page of the card bound last is mapped. -/
theorem mapped_live : ∃ s,
    Machine.run step start ([.my_init 0 0, .probe 0 success] : List (Ev Pages.amd64 (Fin 2))) =
      some s ∧
    ∀ remap_pfn_range, Right s page remap_pfn_range := by
  obtain ⟨s, hs⟩ : ∃ s, Machine.run step start
      ([.my_init 0 0, .probe 0 success] : List (Ev Pages.amd64 (Fin 2))) = some s := ⟨_, rfl⟩
  exact ⟨s, hs, (my_mmap_iff hs page).1 (by decide)⟩

end Mapping
end Pb173
