/-
# Mappings that are held on to (11/homework)

A mapping of `my_mmap` stays until the user takes it down, and holds no
reference to the page: `my_remove` frees the page under it. All along a run every
mapping is of the page of a bound card if and only if `my_mmap` is never called
when `dma_virt_addr` is stale, and no card is removed while its page is mapped
(`backed_iff`).
-/
import Pb173.Mapping

namespace Pb173
namespace Retained

open Dma
open Mapping (Remap Passes Live my_mmap)

/-- The calls of the module, and the mappings of the users. -/
structure State (D : Type*) where
  cards : Cards.State D
  maps : List Remap

inductive Ev (A : Pages.Arch) (D : Type*)
  | call (e : Cards.Ev A D)
  | munmap (i : ℕ)

section Machine

variable {A : Pages.Arch} {D : Type*}

/-- What a call maps. -/
def mapped (s : Cards.State D) : Cards.Ev A D → List Remap
  | .mmap vma remap_pfn_range => (my_mmap s.mod vma remap_pfn_range).2.toList
  | _ => []

def step [DecidableEq D] (s : State D) : Ev A D → Option (State D)
  | .call e => (Cards.step s.cards e).map fun t => ⟨t, s.maps ++ mapped s.cards e⟩
  | .munmap i => if i < s.maps.length then some { s with maps := s.maps.eraseIdx i } else none

def start : State D := ⟨Cards.start, []⟩

/-- Every mapping is of the page of a bound card. -/
def Backed (s : State D) : Prop := ∀ r ∈ s.maps, Live s.cards r.page

/-- The page of the card is mapped. -/
def Uses (s : State D) (d : D) : Prop :=
  ∃ r ∈ s.maps, ∃ x h, s.cards.mod.heap.get (s.cards.mod.drvdata d) = some (x, .help h) ∧
    h.dma_virt = r.page

/-- `my_mmap` is not called with a stale page, and no card is removed whose page is mapped. -/
def Spares (s : State D) : Ev A D → Prop
  | .call (.mmap vma remap_pfn_range) =>
    s.cards.misc = true → Passes vma → remap_pfn_range = 0 → s.cards.mod.dma_virt_addr ≠ NULL →
      Live s.cards s.cards.mod.dma_virt_addr
  | .call (.remove d) => d ∈ s.cards.bound → ¬ Uses s d
  | _ => True

/-! ### Pages that stay -/

variable {s t : Cards.State D} {g : Ptr}

theorem live_move {track : Mapping.Track D} (hi : Mapping.Inv track s) (hm : Mapping.Moves s t)
    {d : D} (hd : d ∈ t.bound) {h : Help}
    (hp : s.mod.heap.get (s.mod.drvdata d) = some (d, .help h)) : Live t h.dma_virt := by
  obtain ⟨hs, hdrv⟩ := hm.bound d hd
  obtain ⟨h', hp', -, hg⟩ := hi.cells d hs
  obtain ⟨-, he⟩ := Prod.mk.inj (Option.some.inj (hp.symm.trans hp'))
  obtain rfl := Obj.help.inj he
  refine ⟨d, hd, d, h, ?_, rfl, hm.keep _ _ _ hd hg nofun⟩
  rw [hdrv]
  exact hm.keep _ _ _ hd hp nofun

theorem live_help {track : Mapping.Track D} (hi : Mapping.Inv track s) (h : Live s g) :
    ∃ d ∈ s.bound, ∃ p, s.mod.heap.get (s.mod.drvdata d) = some (d, .help p) ∧ p.dma_virt = g := by
  obtain ⟨d, hd, x, p, hp, hg, -⟩ := h
  obtain ⟨p', hp', -⟩ := hi.cells d hd
  obtain ⟨rfl, -⟩ := Prod.mk.inj (Option.some.inj (hp.symm.trans hp'))
  exact ⟨x, hd, p, hp, hg⟩

theorem live_keep {track : Mapping.Track D} (hi : Mapping.Inv track s) (hm : Mapping.Moves s t)
    (hb : t.bound = s.bound) (h : Live s g) : Live t g := by
  obtain ⟨d, hd, p, hp, rfl⟩ := live_help hi h
  exact live_move hi hm (hb ▸ hd) hp

variable [DecidableEq D]

/-- **Every call but a remove** leaves the live pages live. -/
theorem live_call {track : Mapping.Track D} (hi : Mapping.Inv track s) {e : Cards.Ev A D}
    (he : Cards.step s e = some t) (hne : ∀ d, e ≠ .remove d) (h : Live s g) : Live t g := by
  cases Cards.Step.of_step he with
  | my_init => exact live_keep hi (Mapping.moves_of_keeps hi (Cards.Keeps.refl _) rfl) rfl h
  | probe hd hs hf =>
    have hm := Mapping.moves_of_frame hi hd hf rfl rfl (.inr rfl)
    obtain ⟨d, hb, x, p, hp, hg, hpage⟩ := live_keep hi hm rfl h
    exact ⟨d, List.mem_append_left _ hb, x, p, hp, hg, hpage⟩
  | @probe_error d as st rest l m hd hs hfall hsuf hf =>
    have hheap : (st.giveUp m).heap = m.heap := by cases st <;> rfl
    have hdrv : (st.giveUp m).drvdata = m.drvdata := by cases st <;> rfl
    have htask : (st.giveUp m).task = NULL ∨ (st.giveUp m).task = m.task := by
      cases st <;> first | exact .inr rfl | exact .inl rfl
    exact live_keep hi (Mapping.moves_of_frame hi hd hf hheap hdrv htask) rfl h
  | remove hd => exact absurd rfl (hne _)
  | irq =>
    exact live_keep hi (Mapping.moves_of_keeps hi (Cards.keeps_runHandler _ _ _ _ _ _) rfl) rfl h
  | mmap => exact h

theorem live_remove_iff {track : Mapping.Track D} (hi : Mapping.Inv track s) {d : D}
    (hd : d ∈ s.bound) {h : Help} (hp : s.mod.heap.get (s.mod.drvdata d) = some (d, .help h))
    (hg : Live s g) :
    Live { s with mod := my_remove d s.mod, bound := s.bound.filter fun x => x ≠ d } g ↔
      h.dma_virt ≠ g := by
  obtain ⟨h', hp', hv, hpage⟩ := hi.cells d hd
  obtain ⟨-, he⟩ := Prod.mk.inj (Option.some.inj (hp.symm.trans hp'))
  obtain rfl := Obj.help.inj he
  have hr := my_remove_spec hp hv hpage hi.task
  constructor
  · rintro ⟨e, -, x, p, -, -, halive⟩ rfl
    have hgone := hr.get h.dma_virt
    rw [if_pos (.inr (.inl rfl))] at hgone
    cases hgone.symm.trans halive
  · intro hne
    obtain ⟨e, hb, p, hpe, rfl⟩ := live_help hi hg
    have hed : e ≠ d := by
      rintro rfl
      obtain ⟨-, heq⟩ := Prod.mk.inj (Option.some.inj (hp.symm.trans hpe))
      exact hne (congrArg Help.dma_virt (Obj.help.inj heq))
    refine live_move hi (Mapping.moves_of_removed hi hp hv hpage hr) ?_ hpe
    exact List.mem_filter.mpr ⟨hb, by simpa using hed⟩

/-! ### Whole runs -/

variable {u w : State D}

theorem step_iff {track : Mapping.Track D} (hi : Mapping.Inv track u.cards) (hb : Backed u)
    {e : Ev A D} (he : step u e = some w) : Backed w ↔ Spares u e := by
  cases e with
  | munmap i =>
    simp only [step] at he
    split_ifs at he
    obtain rfl := Option.some.inj he
    exact iff_of_true (fun r hr => hb r (List.mem_of_mem_eraseIdx hr)) trivial
  | call e =>
    obtain ⟨t, ht, rfl⟩ := Option.map_eq_some_iff.mp he
    cases e with
    | mmap vma r =>
      simp only [Cards.step] at ht
      split_ifs at ht with hm
      obtain rfl := Option.some.inj ht
      have hmaps : Backed ⟨u.cards, u.maps ++ mapped u.cards (.mmap vma r : Cards.Ev A D)⟩ ↔
          ∀ x ∈ mapped u.cards (.mmap vma r : Cards.Ev A D), Live u.cards x.page := by
        refine ⟨fun h x hx => h x (List.mem_append_right _ hx), fun h x hx => ?_⟩
        rcases List.mem_append.mp hx with hx | hx
        · exact hb x hx
        · exact h x hx
      rw [hmaps]
      by_cases hp : Passes vma
      · have heq := Mapping.my_mmap_eq hp u.cards.mod r
        by_cases hnull : u.cards.mod.dma_virt_addr = NULL
        · rw [if_pos hnull] at heq
          refine iff_of_true (fun x hx => ?_) fun _ _ _ hne => absurd hnull hne
          simp [mapped, heq] at hx
        · rw [if_neg hnull] at heq
          by_cases hr : r = 0
          · rw [if_pos hr] at heq
            constructor
            · intro h _ _ _ _
              exact h ⟨vma.vm_start, u.cards.mod.dma_virt_addr, A.PAGE_SIZE, vma.vm_flags⟩
                (by simp [mapped, heq])
            · intro h x hx
              have hlive := h hm hp hr hnull
              simp only [mapped, heq, Option.toList_some, List.mem_singleton] at hx
              rw [hx]
              exact hlive
          · rw [if_neg hr] at heq
            refine iff_of_true (fun x hx => ?_) fun _ _ h0 => absurd h0 hr
            simp [mapped, heq] at hx
      · have heq := Mapping.my_mmap_refused hp u.cards.mod r
        refine iff_of_true (fun x hx => ?_) fun _ h => absurd h hp
        simp [mapped, heq] at hx
    | remove d =>
      simp only [Cards.step] at ht
      split_ifs at ht with hd
      obtain rfl := Option.some.inj ht
      obtain ⟨h, hp, -⟩ := hi.cells d hd
      have hlive : ∀ x ∈ u.maps, (Live _ x.page ↔ h.dma_virt ≠ x.page) := fun x hx =>
        live_remove_iff hi hd hp (hb x hx)
      constructor
      · rintro hw - ⟨x, hx, y, h', hp', hpage⟩
        obtain ⟨-, heq⟩ := Prod.mk.inj (Option.some.inj (hp.symm.trans hp'))
        obtain rfl := Obj.help.inj heq
        exact (hlive x hx).mp (hw x (List.mem_append_left _ hx)) hpage
      · intro hs x hx
        have hx' : x ∈ u.maps := by simpa [mapped] using hx
        exact (hlive x hx').mpr fun hpage => hs hd ⟨x, hx', d, h, hp, hpage⟩
    | my_init _ _ | probe _ _ | irq _ _ =>
      refine iff_of_true (fun x hx => ?_) trivial
      have hx' : x ∈ u.maps := by simpa [mapped] using hx
      exact live_call hi ht (by simp) (hb x hx')

/-- **Mappings that are held on to**: all along a run every mapping is of the page of a bound
card if and only if every step spares that. -/
theorem backed_iff (es : List (Ev A D)) :
    Machine.Visits step Backed start es ↔ Machine.Always step Spares start es := by
  refine Machine.visits_iff_always (I := fun u : State D => ∃ t, Mapping.Inv t u.cards)
    (fun u e w hi he => ?_) (fun u e w hi hb he => hi.elim fun _ hi => step_iff hi hb he)
    (fun u e _ he => ?_) es start
    ⟨.null, (fun _ hd => nomatch hd), .inl rfl, Nat.one_pos, rfl⟩ fun r hr => nomatch hr
  · obtain ⟨track, hi⟩ := hi
    cases e with
    | munmap i =>
      simp only [step] at he
      split_ifs at he
      obtain rfl := Option.some.inj he
      exact ⟨track, hi⟩
    | call e =>
      obtain ⟨t, ht, rfl⟩ := Option.map_eq_some_iff.mp he
      exact ⟨_, Mapping.inv_step hi ht⟩
  · cases e with
    | munmap i => trivial
    | call e =>
      have hnone := Option.map_eq_none_iff.mp he
      cases e with
      | mmap vma r =>
        intro hm
        rw [Cards.step, if_pos hm] at hnone
        cases hnone
      | remove d =>
        intro hd
        rw [Cards.step, if_pos hd] at hnone
        cases hnone
      | my_init _ _ | probe _ _ | irq _ _ => trivial

end Machine

/-- A user maps the page of the only card, which is removed then. -/
def keptOn : List (Ev Pages.amd64 Unit) :=
  [.call (.my_init 0 0), .call (.probe () Cards.success), .call (.mmap Mapping.page 0),
    .call (.remove ())]

/-- The page is read after it has been freed. -/
theorem kept_on : ¬ Machine.Visits step Backed start keptOn := by
  intro h
  obtain ⟨s, hs, hbound, hmaps⟩ : ∃ s, Machine.run step start keptOn = some s ∧
      s.cards.bound = [] ∧ s.maps.length = 1 := ⟨_, rfl, rfl, rfl⟩
  obtain ⟨r, hr⟩ := List.exists_mem_of_length_pos (by omega : 0 < s.maps.length)
  obtain ⟨d, hd, -⟩ := h _ (List.prefix_refl _) s hs r hr
  rw [hbound] at hd
  cases hd

end Retained
end Pb173
