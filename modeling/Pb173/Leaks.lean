/-
# Probes that fail (08, 09)

`my_probe` of 08 and 09 acquires one thing after another, and returns where one
of them is refused: it releases nothing. `pci_request_region` refuses a region
that is reserved. `my_remove` releases all, but is called for a bound card only.

What is held is what the bound cards hold if and only if no call fails behind
`pci_enable_device` (`settled_iff`). A card whose probe has failed with its
region reserved is lost: the region stays reserved, and no later probe binds the
card (`region_iff`).
-/
import Pb173.Kernel
import Pb173.Machine
import Mathlib.Logic.Function.Basic

namespace Pb173
namespace Leaks

/-- What a card may hold. -/
inductive Res
  | enabled | region | bar | timer | help | irq
deriving DecidableEq

/-- A statement of `my_probe` that acquires something; `ret` is what the call returns
if the kernel answers `err`. -/
structure Acquisition where
  res : Res
  ret : ℤ → ℤ

/-- The two versions of the driver. -/
inductive Version
  | v08 | v09
deriving DecidableEq

def probe_code : Version → List Acquisition
  | .v08 => [⟨.enabled, fun _ => - EIO⟩, ⟨.region, fun _ => -EBUSY⟩, ⟨.bar, fun _ => -ENOMEM⟩]
  | .v09 => [⟨.enabled, fun _ => - EIO⟩, ⟨.region, fun _ => -EBUSY⟩, ⟨.bar, fun _ => -ENOMEM⟩,
      ⟨.timer, fun _ => -ENOMEM⟩, ⟨.help, fun _ => -ENOMEM⟩, ⟨.irq, fun err => err⟩]

def remove_code : Version → List Res
  | .v08 => [.bar, .region, .enabled]
  | .v09 => [.timer, .irq, .bar, .region, .enabled, .help]

/-- What the kernel answers: `ans`, but for a region that is reserved. -/
def answer (ans held : Res → ℤ) (r : Res) : ℤ :=
  if r = .region ∧ held .region ≠ 0 then -EBUSY else ans r

/-- `my_probe` for a card: what it returns, and how often the card holds each thing then. -/
def my_probe (ans : Res → ℤ) : List Acquisition → (Res → ℤ) → ℤ × (Res → ℤ)
  | [], held => (0, held)
  | a :: l, held =>
    if answer ans held a.res ≠ 0 then (a.ret (answer ans held a.res), held)
    else my_probe ans l (Function.update held a.res (held a.res + 1))

/-- `my_remove` for a card. -/
def my_remove (l : List Res) (held : Res → ℤ) : Res → ℤ :=
  l.foldl (fun h r => Function.update h r (h r - 1)) held

/-- What each card holds, and whether it is bound. -/
structure State (D : Type*) where
  held : D → Res → ℤ
  bound : D → Bool

inductive Ev (D : Type*)
  | probe (pdev : D) (ans : Res → ℤ)
  | remove (pdev : D)

section Machine

variable {D : Type*} [DecidableEq D] (v : Version)

def step (s : State D) : Ev D → Option (State D)
  | .probe pdev ans =>
    if s.bound pdev then none
    else some
      { held := Function.update s.held pdev (my_probe ans (probe_code v) (s.held pdev)).2
        bound := Function.update s.bound pdev
          (decide ((my_probe ans (probe_code v) (s.held pdev)).1 = 0)) }
  | .remove pdev =>
    if s.bound pdev then some
      { held := Function.update s.held pdev (my_remove (remove_code v) (s.held pdev))
        bound := Function.update s.bound pdev false }
    else none

def start : State D := ⟨fun _ _ => 0, fun _ => false⟩

end Machine

/-! ### The two calls -/

/-- The things of a list, once each. -/
def once (l : List Res) (r : Res) : ℤ := if r ∈ l then 1 else 0

theorem once_cons {a : Res} {l : List Res} (ha : a ∉ l) (h : Res → ℤ) (r : Res) :
    Function.update h a (h a + 1) r + once l r = h r + once (a :: l) r := by
  unfold once
  by_cases hr : r = a
  · subst hr
    simp [ha]
  · simp [hr]

theorem answer_update {a r : Res} (hr : r ≠ a) (ans held : Res → ℤ) (n : ℤ) :
    answer ans (Function.update held a n) r = answer ans held r := by
  unfold answer
  by_cases hreg : r = .region
  · subst hreg
    rw [Function.update_of_ne hr]
  · simp [hreg]

theorem answer_eq_zero_iff (ans held : Res → ℤ) (r : Res) :
    answer ans held r = 0 ↔ ans r = 0 ∧ (r = .region → held .region = 0) := by
  unfold answer
  split_ifs with h
  · exact iff_of_false (by decide) fun hc => h.2 (hc.2 h.1)
  · rw [not_and_not_right] at h
    exact (and_iff_left h).symm

/-- What a call of `my_probe` does that acquires `got` and not `rest`. -/
structure Probed (ans : Res → ℤ) (held : Res → ℤ) (got rest : List Acquisition)
    (out : ℤ × (Res → ℤ)) : Prop where
  counts : ∀ r, out.2 r = held r + once (got.map Acquisition.res) r
  ok : out.1 = 0 ↔ rest = []
  granted : ∀ a ∈ got, answer ans held a.res = 0
  refused : ∀ a ∈ rest.head?, answer ans held a.res ≠ 0

/-- **A probe** acquires the first things of its list, and returns 0 if these are all. -/
theorem my_probe_spec (ans : Res → ℤ) : ∀ (l : List Acquisition) (held : Res → ℤ),
    (l.map Acquisition.res).Nodup → (∀ a ∈ l, ∀ err, err ≠ 0 → a.ret err ≠ 0) →
    ∃ got rest, l = got ++ rest ∧ Probed ans held got rest (my_probe ans l held)
  | [], held, _, _ => ⟨[], [], rfl, fun _ => (add_zero _).symm, iff_of_true rfl rfl, nofun, nofun⟩
  | a :: l, held, hnd, hret => by
    obtain ⟨ha, hnd⟩ := List.nodup_cons.mp hnd
    unfold my_probe
    by_cases he : answer ans held a.res ≠ 0
    · rw [if_pos he]
      refine ⟨[], a :: l, rfl, fun r => (add_zero _).symm, ?_, nofun, fun b hb => ?_⟩
      · exact iff_of_false (hret a List.mem_cons_self _ he) nofun
      · rw [← Option.some.inj hb]
        exact he
    · rw [if_neg he]
      obtain ⟨got, rest, rfl, hp⟩ := my_probe_spec ans l (Function.update held a.res (held a.res + 1))
        hnd fun b hb => hret b (List.mem_cons_of_mem _ hb)
      have hne : ∀ b ∈ got ++ rest, b.res ≠ a.res := fun b hb h =>
        ha (h ▸ List.mem_map_of_mem hb)
      have hgot : a.res ∉ got.map Acquisition.res := fun h => by
        obtain ⟨b, hb, hba⟩ := List.mem_map.mp h
        exact hne b (List.mem_append_left _ hb) hba
      refine ⟨a :: got, rest, rfl, fun r => ?_, hp.ok, fun b hb => ?_, fun b hb => ?_⟩
      · rw [hp.counts r, List.map_cons, once_cons hgot]
      · rcases List.mem_cons.mp hb with rfl | hb
        · exact not_not.mp he
        · rw [← answer_update (hne b (List.mem_append_left _ hb))]
          exact hp.granted b hb
      · rw [← answer_update (hne b (List.mem_append_right _ (List.mem_of_mem_head? hb)))]
        exact hp.refused b hb

theorem my_remove_eq : ∀ (l : List Res) (held : Res → ℤ), l.Nodup →
    ∀ r, my_remove l held r = held r - once l r
  | [], held, _, r => (sub_zero _).symm
  | a :: l, held, hnd, r => by
    obtain ⟨ha, hnd⟩ := List.nodup_cons.mp hnd
    show my_remove l (Function.update held a (held a - 1)) r = _
    rw [my_remove_eq l _ hnd]
    unfold once
    by_cases hr : r = a
    · subst hr
      simp [ha]
    · simp [hr]

/-! ### The two versions -/

/-- What a bound card holds. -/
def holds (v : Version) : Res → ℤ := once ((probe_code v).map Acquisition.res)

theorem code_nodup (v : Version) : ((probe_code v).map Acquisition.res).Nodup := by
  cases v <;> decide

theorem code_ret (v : Version) : ∀ a ∈ probe_code v, ∀ err, err ≠ 0 → a.ret err ≠ 0 := by
  intro a ha err herr
  cases v <;> simp only [probe_code, List.mem_cons, List.not_mem_nil, or_false] at ha
  · rcases ha with rfl | rfl | rfl <;> (dsimp only; decide)
  · rcases ha with rfl | rfl | rfl | rfl | rfl | rfl
    iterate 5 (dsimp only; decide)
    exact herr

theorem remove_holds (v : Version) : ∀ r, once (remove_code v) r = holds v r := by
  intro r
  cases v <;> cases r <;> rfl

theorem remove_eq (v : Version) (held : Res → ℤ) (r : Res) :
    my_remove (remove_code v) held r = held r - holds v r := by
  rw [my_remove_eq _ _ (by cases v <;> decide), remove_holds]

theorem probe_spec (v : Version) (ans held : Res → ℤ) : ∃ got rest, probe_code v = got ++ rest ∧
    Probed ans held got rest (my_probe ans (probe_code v) held) :=
  my_probe_spec ans _ held (code_nodup v) (code_ret v)

/-- No call succeeds for a card whose region is reserved. -/
theorem probe_reserved (v : Version) (ans : Res → ℤ) {held : Res → ℤ} (hr : held .region ≠ 0) :
    (my_probe ans (probe_code v) held).1 ≠ 0 := by
  obtain ⟨got, rest, hcode, hp⟩ := probe_spec v ans held
  intro hok
  obtain ⟨a, ha, hres⟩ : ∃ a ∈ probe_code v, a.res = .region :=
    ⟨⟨.region, fun _ => -EBUSY⟩, by cases v <;> simp [probe_code], rfl⟩
  rw [hcode, hp.ok.mp hok, List.append_nil] at ha
  have hgrant := hp.granted a ha
  rw [hres, answer_eq_zero_iff] at hgrant
  exact hr (hgrant.2 rfl)

section Runs

variable {D : Type*} [DecidableEq D] {v : Version} {s t : State D} {es : List (Ev D)}

/-! ### What is held -/

/-- What is held is what the bound cards hold. -/
def Settled (v : Version) (s : State D) : Prop :=
  ∀ d r, s.held d r = if s.bound d then holds v r else 0

/-- A probe that is called is refused nothing, or the first thing. -/
def Spares (v : Version) (s : State D) : Ev D → Prop
  | .probe pdev ans =>
    s.bound pdev = false → ans .enabled ≠ 0 ∨ ∀ a ∈ probe_code v, ans a.res = 0
  | .remove _ => True

theorem code_head (v : Version) : ∃ l, probe_code v = ⟨.enabled, fun _ => - EIO⟩ :: l := by
  cases v <;> exact ⟨_, rfl⟩

/-- A call for a card that holds nothing leaves nothing behind, or binds it. -/
theorem probe_settles_iff {ans held : Res → ℤ} (h0 : ∀ r, held r = 0) :
    (∀ r, (my_probe ans (probe_code v) held).2 r =
      if (my_probe ans (probe_code v) held).1 = 0 then holds v r else 0) ↔
    ans .enabled ≠ 0 ∨ ∀ a ∈ probe_code v, ans a.res = 0 := by
  obtain ⟨got, rest, hcode, hp⟩ := probe_spec v ans held
  obtain ⟨l, hl⟩ := code_head v
  have hans : ∀ r, answer ans held r = 0 ↔ ans r = 0 := fun r => by
    rw [answer_eq_zero_iff]
    exact and_iff_left fun _ => h0 _
  constructor
  · intro h
    rcases got with _ | ⟨a, got⟩
    · left
      rw [List.nil_append, hl] at hcode
      have href := hp.refused ⟨.enabled, fun _ => - EIO⟩ (by rw [← hcode]; rfl)
      exact fun hz => href ((hans _).mpr hz)
    · right
      have hrest : rest = [] := by
        by_contra hne
        have ha := h a.res
        rw [hp.counts, h0, if_neg fun hz => hne (hp.ok.mp hz)] at ha
        have hone : once ((a :: got).map Acquisition.res) a.res = 1 := if_pos List.mem_cons_self
        omega
      intro b hb
      rw [hcode, hrest, List.append_nil] at hb
      exact (hans _).mp (hp.granted b hb)
  · intro h r
    rw [hp.counts, h0, zero_add]
    rcases h with hen | hall
    · have hgot : got = [] := by
        rcases got with _ | ⟨a, got⟩
        · rfl
        · rw [hl] at hcode
          obtain ⟨rfl, -⟩ := List.cons.inj hcode
          exact absurd ((hans _).mp (hp.granted _ List.mem_cons_self)) hen
      have hrest : rest ≠ [] := by
        rintro rfl
        rw [hgot, hl] at hcode
        cases hcode
      rw [if_neg fun hz => hrest (hp.ok.mp hz), hgot]
      rfl
    · have hrest : rest = [] := by
        rcases rest with _ | ⟨a, rest⟩
        · rfl
        · have ha : a ∈ probe_code v := hcode ▸ List.mem_append_right _ List.mem_cons_self
          exact absurd ((hans _).mpr (hall a ha)) (hp.refused a rfl)
      rw [if_pos (hp.ok.mpr hrest), holds, hcode, hrest, List.append_nil]

theorem step_iff {e : Ev D} (hs : Settled v s) (he : step v s e = some t) :
    Settled v t ↔ Spares v s e := by
  cases e with
  | probe pdev ans =>
    simp only [step] at he
    split_ifs at he with hb
    obtain rfl := Option.some.inj he
    have hb' : s.bound pdev = false := by simpa using hb
    have h0 : ∀ r, s.held pdev r = 0 := fun r => by rw [hs pdev r, if_neg hb]
    have hspares : Spares v s (.probe pdev ans) ↔
        ans .enabled ≠ 0 ∨ ∀ a ∈ probe_code v, ans a.res = 0 := ⟨fun h => h hb', fun h _ => h⟩
    rw [hspares, ← probe_settles_iff h0]
    constructor
    · intro ht r
      have hd := ht pdev r
      simpa only [Function.update_self, decide_eq_true_eq] using hd
    · intro h d r
      by_cases hd : d = pdev
      · subst hd
        simpa only [Function.update_self, decide_eq_true_eq] using h r
      · simpa only [Function.update_of_ne hd] using hs d r
  | remove pdev =>
    simp only [step] at he
    split_ifs at he with hb
    obtain rfl := Option.some.inj he
    refine iff_of_true (fun d r => ?_) trivial
    by_cases hd : d = pdev
    · subst hd
      simp [remove_eq, hs d r, hb]
    · simpa only [Function.update_of_ne hd] using hs d r

/-- **What is held** is what the bound cards hold, all along a run, if and only if no
probe fails behind its first statement. -/
theorem settled_iff (es : List (Ev D)) :
    Machine.Visits (step v) (Settled v) start es ↔ Machine.Always (step v) (Spares v) start es := by
  refine Machine.visits_iff_always (I := fun _ : State D => True) (fun _ _ _ _ _ => trivial)
    (fun s e t _ hs he => step_iff hs he) (fun s e _ he => ?_) es start trivial fun _ _ => rfl
  cases e with
  | probe pdev ans =>
    intro hb
    simp [step, hb] at he
  | remove pdev => trivial

/-! ### Cards that are lost -/

/-- The call fails with the region reserved, which it has found free. -/
def Loses (v : Version) (ans held : Res → ℤ) : Prop :=
  (my_probe ans (probe_code v) held).1 ≠ 0 ∧ held .region = 0 ∧
    (my_probe ans (probe_code v) held).2 .region ≠ 0

/-- Some call for the card has done so. -/
def Lost (v : Version) (es : List (Ev D)) (d : D) : Prop :=
  ∃ pre ans s, pre ++ [.probe d ans] <+: es ∧ Machine.run (step v) start pre = some s ∧
    Loses v ans (s.held d)

theorem lost_concat (hr : Machine.run (step v) start es = some s) {e : Ev D} {d : D} :
    Lost v (es ++ [e]) d ↔ Lost v es d ∨ ∃ ans, e = .probe d ans ∧ Loses v ans (s.held d) := by
  constructor
  · rintro ⟨pre, ans, u, hp, hu, hl⟩
    rcases List.prefix_concat_iff.mp hp with heq | hp
    · obtain ⟨rfl, hf⟩ := List.append_inj' heq rfl
      obtain rfl := Option.some.inj (hr.symm.trans hu)
      exact .inr ⟨ans, (List.singleton_inj.mp hf).symm, hl⟩
    · exact .inl ⟨pre, ans, u, hp, hu, hl⟩
  · rintro (⟨pre, ans, u, hp, hu, hl⟩ | ⟨ans, rfl, hl⟩)
    · exact ⟨pre, ans, u, hp.trans (List.prefix_append _ _), hu, hl⟩
    · exact ⟨es, ans, s, List.prefix_refl _, hr, hl⟩

/-- What is known of the region of a card; `gone` if the card is lost. -/
structure Region (s : State D) (gone : Prop) (d : D) : Prop where
  lost : gone → s.bound d = false ∧ s.held d .region = 1
  bound : s.bound d = true → s.held d .region = 1
  free : s.bound d = false → ¬ gone → s.held d .region = 0

theorem holds_region (v : Version) : holds v .region = 1 := by
  cases v <;> rfl

omit [DecidableEq D] in
theorem Region.probe {gone : Prop} {d : D} (h : Region s gone d) (hb : s.bound d = false)
    (ans : Res → ℤ) (ht : t.held d = (my_probe ans (probe_code v) (s.held d)).2)
    (hbt : t.bound d = decide ((my_probe ans (probe_code v) (s.held d)).1 = 0)) :
    Region t (gone ∨ Loses v ans (s.held d)) d := by
  obtain ⟨got, rest, hcode, hp⟩ := probe_spec v ans (s.held d)
  have hcount := hp.counts .region
  rw [← ht] at hcount
  by_cases hg : gone
  · -- the region is reserved, and the call fails
    have hres := (h.lost hg).2
    have hfail : (my_probe ans (probe_code v) (s.held d)).1 ≠ 0 :=
      probe_reserved v ans (by rw [hres]; decide)
    have hout : .region ∉ got.map Acquisition.res := by
      intro hm
      obtain ⟨a, ha, har⟩ := List.mem_map.mp hm
      have hgrant := hp.granted a ha
      rw [har, answer_eq_zero_iff, hres] at hgrant
      exact absurd (hgrant.2 rfl) (by decide)
    rw [hres, once, if_neg hout, add_zero] at hcount
    have hunbound : t.bound d = false := by rw [hbt]; exact decide_eq_false hfail
    exact ⟨fun _ => ⟨hunbound, hcount⟩, fun _ => hcount, fun _ hn => absurd (.inl hg) hn⟩
  · have hres := h.free hb hg
    rw [hres, zero_add] at hcount
    by_cases hok : (my_probe ans (probe_code v) (s.held d)).1 = 0
    · have hone : t.held d .region = 1 := by
        rw [hcount, ← holds_region v, holds, hcode, hp.ok.mp hok, List.append_nil]
      have hbound : t.bound d = true := by rw [hbt]; exact decide_eq_true hok
      refine ⟨fun hl => ?_, fun _ => hone, fun hc => absurd (hbound.symm.trans hc) nofun⟩
      exact absurd hok (hl.resolve_left hg).1
    · have hunbound : t.bound d = false := by rw [hbt]; exact decide_eq_false hok
      refine ⟨fun hl => ⟨hunbound, ?_⟩, fun hc => absurd (hunbound.symm.trans hc) nofun,
        fun _ hn => ?_⟩
      · have hne := (hl.resolve_left hg).2.2
        rw [← ht, hcount, once] at hne
        rw [hcount, once]
        exact if_pos (of_not_not fun hm => hne (if_neg hm))
      · by_contra hne
        exact hn (.inr ⟨hok, hres, ht ▸ hne⟩)

theorem region_step (hr : Machine.run (step v) start es = some s)
    (hi : ∀ d, Region s (Lost v es d) d) {e : Ev D} (he : step v s e = some t) (d : D) :
    Region t (Lost v (es ++ [e]) d) d := by
  rw [lost_concat hr]
  cases e with
  | probe pdev ans =>
    simp only [step] at he
    split_ifs at he with hb
    obtain rfl := Option.some.inj he
    by_cases hd : d = pdev
    · subst hd
      have hb' : s.bound d = false := by simpa using hb
      have hsame : (∃ ans', Ev.probe d ans = .probe d ans' ∧ Loses v ans' (s.held d)) ↔
          Loses v ans (s.held d) :=
        ⟨fun ⟨_, h, hl⟩ => (Ev.probe.inj h).2 ▸ hl, fun hl => ⟨ans, rfl, hl⟩⟩
      rw [hsame]
      exact (hi d).probe hb' ans (Function.update_self ..) (Function.update_self ..)
    · have hother : ¬ ∃ ans', Ev.probe pdev ans = .probe d ans' ∧ Loses v ans' (s.held d) :=
        fun ⟨_, h, _⟩ => hd (Ev.probe.inj h).1.symm
      rw [or_iff_left hother]
      obtain ⟨hlost, hbound, hfree⟩ := hi d
      constructor <;> simpa only [Function.update_of_ne hd]
  | remove pdev =>
    simp only [step] at he
    split_ifs at he with hb
    obtain rfl := Option.some.inj he
    rw [or_iff_left fun ⟨_, h, _⟩ => nomatch h]
    obtain ⟨hlost, hbound, hfree⟩ := hi d
    by_cases hd : d = pdev
    · subst hd
      have hnot : ¬ Lost v es d := fun hl => absurd ((hlost hl).1.symm.trans hb) nofun
      refine ⟨fun hl => absurd hl hnot, fun hc => ?_, fun _ _ => ?_⟩
      · simp at hc
      · show Function.update s.held d _ d .region = 0
        rw [Function.update_self, remove_eq, hbound hb, holds_region, sub_self]
    · constructor <;> simpa only [Function.update_of_ne hd]

/-- **A lost card**: in every run, the region of a card is reserved if and only if the card is
bound or lost; a lost card is not bound, and no probe binds it. -/
theorem region_iff (hr : Machine.run (step v) start es = some s) (d : D) :
    (s.held d .region ≠ 0 ↔ s.bound d = true ∨ Lost v es d) ∧
      (Lost v es d → s.bound d = false ∧
        ∀ ans, (my_probe ans (probe_code v) (s.held d)).1 ≠ 0) := by
  obtain ⟨hlost, hbound, hfree⟩ := Machine.run_hist (step v)
    (fun es (s : State D) => ∀ d, Region s (Lost v es d) d)
    (fun d => ⟨fun ⟨_, _, _, hp, _⟩ => absurd (List.prefix_nil.mp hp) (by simp),
      fun h => absurd h Bool.false_ne_true, fun _ _ => rfl⟩)
    (fun es s e t hr hi he => region_step hr hi he) es s hr d
  refine ⟨⟨fun hne => ?_, fun h => ?_⟩, fun hl => ⟨(hlost hl).1, fun ans => ?_⟩⟩
  · by_contra hn
    rw [not_or, Bool.not_eq_true] at hn
    exact hne (hfree hn.1 hn.2)
  · have hone : s.held d .region = 1 := h.elim hbound fun hl => (hlost hl).2
    rw [hone]
    decide
  · exact probe_reserved v ans (by rw [(hlost hl).2]; decide)

end Runs

/-- The mapping of BAR 0 is refused once. -/
def unmapped : List (Ev Unit) := [.probe () fun r => if r = .bar then 1 else 0]

/-- The card of 08 is not bound any more. -/
theorem lost_unmapped : ∃ s, Machine.run (step .v08) start unmapped = some s ∧
    ∀ ans, (my_probe ans (probe_code .v08) (s.held ())).1 ≠ 0 :=
  have hr : Machine.run (step .v08) start unmapped = some _ := rfl
  ⟨_, rfl, ((region_iff hr ()).2 ⟨[], _, start, List.prefix_refl _, rfl, by decide, rfl, by decide⟩).2⟩

end Leaks
end Pb173
