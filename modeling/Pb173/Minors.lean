/-
# Probes that race for a minor (10/example)

`phantom_probe` looks for a slot of `phantom_devices` that is 0, and then marks it,
with no lock. Where the probes of several devices go on at the same time, another
one may come between.

All along a run the marked slots are those of the devices, no two of which have
the same, if and only if each probe still finds the slot 0 that it marks
(`exact_iff`).
-/
import Pb173.Isr

namespace Pb173
namespace Minors

open Phantom
open Isr (Pc Probe State Ev Inv Has Goes)

/-- The statements behind `phantom_devices[minor] = 1`. -/
def marked : Probe → Bool
  | .pci_enable_device | .phantom_get_free _ | .mark => false
  | _ => true

/-- The minor that a device uses; `dev` is what its structure holds. -/
def minorOf (dev : ℕ) : Pc → Option ℕ
  | .unbound => none
  | .probing st _ l => if marked st then some l.minor else none
  | .failing .err_dis _ _ => none
  | .failing _ _ l => some l.minor
  | .returned e => if e = 0 then some (MINOR dev) else none
  | .removing .pci_get_drvdata _ => some (MINOR dev)
  | .removing .pci_disable_device _ => none
  | .removing _ l => some l.minor

/-- What a call remembers. -/
def Remembers (dev : ℕ) : Pc → Prop
  | .probing .mark _ l => l.minor < PHANTOM_MAX_MINORS
  | .probing .device_create _ l | .probing .pci_set_drvdata _ l => MINOR dev = l.minor
  | _ => True

/-- The minor is one of the table, and is noted where it is read. -/
structure Noted (dev : ℕ) (pc : Pc) : Prop where
  lt : ∀ i, minorOf dev pc = some i → i < PHANTOM_MAX_MINORS
  remembers : Remembers dev pc

section Run

variable {D : Type*} [DecidableEq D]

/-- What the structure of a device holds. -/
def dev (s : State D) (d : D) : ℕ := (s.mod.deref (s.pht d)).dev

def uses (s : State D) (d : D) : Option ℕ := minorOf (dev s d) (s.pc d)

/-- The marked slots are those of the devices, and no two of them have the same. -/
structure Table (v : Vector UInt8 PHANTOM_MAX_MINORS) (u : D → Option ℕ) : Prop where
  slots : ∀ i (h : i < PHANTOM_MAX_MINORS), v[i] ≠ 0 ↔ ∃ d, u d = some i
  once : ∀ d d' i, u d = some i → u d' = some i → d = d'

def Exact (s : State D) : Prop := Table s.mod.phantom_devices (uses s)

/-- A slot is marked that is still 0. -/
def Free (s : State D) : Ev D → Prop
  | .exec pdev => ∀ a l, s.pc pdev = .probing .mark a l →
      ∀ h : l.minor < PHANTOM_MAX_MINORS, s.mod.phantom_devices[l.minor] = 0
  | _ => True

/-- What a step does to the minors: nothing, or a slot is marked or cleared for a device. -/
inductive Effect (s : State D) : Ev D → State D → Prop
  | same {e : Ev D} {t : State D} (hu : uses t = uses s)
    (ht : t.mod.phantom_devices = s.mod.phantom_devices) (hf : Free s e) : Effect s e t
  | mark {pdev : D} {t : State D} {a : Answers} {l : Locals}
    (hp : s.pc pdev = .probing .mark a l)
    (hu : uses t = Function.update (uses s) pdev (some l.minor))
    (ht : t.mod.phantom_devices = s.mod.phantom_devices.setIfInBounds l.minor 1) :
    Effect s (.exec pdev) t
  | clear {pdev : D} {t : State D} {i : ℕ} (hi : uses s pdev = some i)
    (hu : uses t = Function.update (uses s) pdev none)
    (ht : t.mod.phantom_devices = s.mod.phantom_devices.setIfInBounds i 0)
    (hf : Free s (.exec pdev)) : Effect s (.exec pdev) t

end Run

/-! ### The statements of a call -/

section Calls

variable {D : Type*} [DecidableEq D] {m : Driver D} {pdev : D}

/-- What the structure of a call holds. -/
def devOf (pdev : D) (pc : Pc) (m : Driver D) : ℕ := (m.deref (pc.pht (m.drvdata pdev))).dev

/-- What a statement does to the minor of its device. -/
inductive Does (pdev : D) (pc : Pc) (m : Driver D) (pc' : Pc) (m' : Driver D) : Prop
  | same (hm : minorOf (devOf pdev pc' m') pc' = minorOf (devOf pdev pc m) pc)
    (ht : m'.phantom_devices = m.phantom_devices) (hf : ∀ a l, pc ≠ .probing .mark a l)
  | mark {a : Answers} {l : Locals} (hp : pc = .probing .mark a l)
    (hm : minorOf (devOf pdev pc' m') pc' = some l.minor)
    (ht : m'.phantom_devices = m.phantom_devices.setIfInBounds l.minor 1)
  | clear {i : ℕ} (hi : minorOf (devOf pdev pc m) pc = some i)
    (hm : minorOf (devOf pdev pc' m') pc' = none)
    (ht : m'.phantom_devices = m.phantom_devices.setIfInBounds i 0)
    (hf : ∀ a l, pc ≠ .probing .mark a l)

theorem probe_does {st : Probe} {a : Answers} {l : Locals}
    (hl : 1 ≤ (Pc.probing st a l).level → ∃ x, m.heap.get l.pht = some x)
    (hn : Noted (devOf pdev (.probing st a l) m) (.probing st a l)) :
    Noted (devOf pdev (st.exec pdev a l m).1 (st.exec pdev a l m).2) (st.exec pdev a l m).1 ∧
      Does pdev (.probing st a l) m (st.exec pdev a l m).1 (st.exec pdev a l m).2 := by
  cases st with
  | pci_enable_device =>
    simp only [Probe.exec]
    rcases a.pci_enable_device with _ | e
    · exact ⟨⟨hn.lt, trivial⟩, .same rfl rfl (by simp)⟩
    · have he : ¬ e.1 = 0 := by have := e.2; omega
      have hnone : ∀ d, minorOf d (.returned e.1) = none := fun d => if_neg he
      exact ⟨⟨fun i hi => absurd ((hnone _).symm.trans hi) (by simp), trivial⟩,
        .same (hnone _) rfl (by simp)⟩
  | phantom_get_free i =>
    simp only [Probe.exec]
    split_ifs with hi
    · exact ⟨⟨hn.lt, hi⟩, .same rfl rfl (by simp)⟩
    · exact ⟨⟨hn.lt, trivial⟩, .same rfl rfl (by simp)⟩
    · exact ⟨⟨hn.lt, trivial⟩, .same rfl rfl (by simp)⟩
  | mark =>
    refine ⟨⟨fun i hi => ?_, trivial⟩, .mark rfl rfl rfl⟩
    obtain rfl := Option.some.inj hi
    exact hn.remembers
  | pci_request_regions =>
    simp only [Probe.exec]
    rcases a.pci_request_regions with _ | e <;> exact ⟨⟨hn.lt, trivial⟩, .same rfl rfl (by simp)⟩
  | kzalloc | caddr | iaddr =>
    simp only [Probe.exec]
    split_ifs <;> exact ⟨⟨hn.lt, trivial⟩, .same rfl rfl (by simp)⟩
  | irqctl => exact ⟨⟨hn.lt, trivial⟩, .same rfl rfl (by simp)⟩
  | request_irq =>
    simp only [Probe.exec]
    rcases a.request_irq with _ | e <;> exact ⟨⟨hn.lt, trivial⟩, .same rfl rfl (by simp)⟩
  | cdev_add =>
    simp only [Probe.exec]
    rcases a.cdev_add with _ | e
    · refine ⟨⟨hn.lt, ?_⟩, .same rfl rfl (by simp)⟩
      -- the number of the device is noted
      obtain ⟨x, hx⟩ := hl (Nat.le_of_ble_eq_true rfl)
      have hnew := Driver.get_modify_self
        (m.acquire (.cdev l.pht (MKDEV m.phantom_major l.minor)))
        (f := fun x => { x with dev := MKDEV m.phantom_major l.minor }) hx
      show MINOR (Driver.deref _ l.pht).dev = l.minor
      rw [Driver.deref_of _ hnew]
      exact MINOR_MKDEV (small (hn.lt l.minor rfl))
    · exact ⟨⟨hn.lt, trivial⟩, .same rfl rfl (by simp)⟩
  | device_create =>
    simp only [Probe.exec]
    split_ifs <;> exact ⟨⟨hn.lt, hn.remembers⟩, .same rfl rfl (by simp)⟩
  | pci_set_drvdata =>
    have hsame : devOf pdev (.returned 0) { m with drvdata := Function.update m.drvdata pdev l.pht } =
        (m.deref l.pht).dev := by
      show (m.deref (Function.update m.drvdata pdev l.pht pdev)).dev = _
      rw [Function.update_self]
    have hminor : minorOf (devOf pdev (.returned 0)
        { m with drvdata := Function.update m.drvdata pdev l.pht }) (.returned 0) = some l.minor := by
      rw [hsame]
      exact congrArg some hn.remembers
    exact ⟨⟨fun i hi => hn.lt i (hminor.symm.trans hi), trivial⟩, .same hminor rfl (by simp)⟩

theorem label_does {st : Isr.Label} {e : Err} {l : Locals}
    (hn : Noted (devOf pdev (.failing st e l) m) (.failing st e l)) :
    Noted (devOf pdev (st.exec pdev e l m).1 (st.exec pdev e l m).2) (st.exec pdev e l m).1 ∧
      Does pdev (.failing st e l) m (st.exec pdev e l m).1 (st.exec pdev e l m).2 := by
  have he : ¬ e.1 = 0 := by have := e.2; omega
  have hnone : ∀ d, minorOf d (.returned e.1) = none := fun d => if_neg he
  cases st with
  | err_irq | err_unmi | err_unmc | err_fr | err_reg =>
    exact ⟨⟨hn.lt, trivial⟩, .same rfl rfl (by simp)⟩
  | err_null => exact ⟨⟨nofun, trivial⟩, .clear rfl rfl rfl (by simp)⟩
  | err_dis =>
    exact ⟨⟨fun i hi => absurd ((hnone _).symm.trans hi) (by simp), trivial⟩,
      .same (hnone _) rfl (by simp)⟩

theorem remove_does {st : Isr.Remove} {l : Locals}
    (hn : Noted (devOf pdev (.removing st l) m) (.removing st l)) :
    Noted (devOf pdev (st.exec pdev l m).1 (st.exec pdev l m).2) (st.exec pdev l m).1 ∧
      Does pdev (.removing st l) m (st.exec pdev l m).1 (st.exec pdev l m).2 := by
  cases st with
  | device_destroy =>
    refine ⟨⟨hn.lt, trivial⟩, .same rfl ?_ (by simp)⟩
    simp only [Isr.Remove.exec, device_destroy]
    split_ifs <;> rfl
  | clear => exact ⟨⟨nofun, trivial⟩, .clear rfl rfl rfl (by simp)⟩
  | pci_disable_device => exact ⟨⟨nofun, trivial⟩, .same rfl rfl (by simp)⟩
  | _ => exact ⟨⟨hn.lt, trivial⟩, .same rfl rfl (by simp)⟩

/-- **A statement of a call.** -/
theorem pc_does {pc : Pc} {r : Pc × Driver D}
    (hl : 1 ≤ pc.level → ∃ x, m.heap.get (pc.pht (m.drvdata pdev)) = some x)
    (hn : Noted (devOf pdev pc m) pc) (he : pc.exec pdev m = some r) :
    Noted (devOf pdev r.1 r.2) r.1 ∧ Does pdev pc m r.1 r.2 := by
  cases pc with
  | unbound => cases he
  | probing st a l =>
    obtain rfl := Option.some.inj he
    exact probe_does hl hn
  | failing st e l =>
    obtain rfl := Option.some.inj he
    exact label_does hn
  | returned e => cases he
  | removing st l =>
    obtain rfl := Option.some.inj he
    exact remove_does hn

theorem noted_congr {pc : Pc} {d d' : ℕ} (h : 1 ≤ pc.level → d' = d) :
    minorOf d' pc = minorOf d pc ∧ (Noted d pc → Noted d' pc) := by
  by_cases h1 : 1 ≤ pc.level
  · rw [h h1]
    exact ⟨rfl, id⟩
  · have hm : minorOf d' pc = minorOf d pc := by
      cases pc with
      | returned e =>
        have he : ¬ e = 0 := fun he => h1 (by rw [Pc.level, if_pos he]; decide)
        exact (if_neg he).trans (if_neg he).symm
      | removing st l => cases st <;> first | rfl | exact absurd (Nat.le_of_ble_eq_true rfl) h1
      | failing st e l => cases st <;> rfl
      | _ => rfl
    have hr : Remembers d pc → Remembers d' pc := by
      intro hr
      cases pc with
      | probing st a l =>
        cases st <;> first | exact hr | exact absurd (Nat.le_of_ble_eq_true rfl) h1
      | _ => exact hr
    exact ⟨hm, fun hn => ⟨fun i hi => hn.lt i (hm ▸ hi), hr hn.remembers⟩⟩

end Calls

/-! ### Whole runs -/

section Run

variable {D : Type*} [DecidableEq D] {s t : State D}

def AllNoted (s : State D) : Prop := ∀ d, Noted (dev s d) (s.pc d)

theorem dev_other (hi : Inv s) {pdev d : D} {r : Pc × Driver D}
    (hg : Goes pdev (s.level pdev) (s.pht pdev) s.mod r.1.level (r.1.pht (r.2.drvdata pdev)) r.2)
    (hd : d ≠ pdev) (h1 : 1 ≤ (s.pc d).level) :
    devOf d (s.pc d) r.2 = dev s d := by
  obtain ⟨x, hx⟩ := hi.has d
  have hlive : s.mod.heap.get (s.pht d) = some x := hx.live h1
  have hkeep : r.2.heap.get (s.pht d) = some x :=
    hg.get _ _ (fun h1' he => hd (hi.apart d pdev h1 h1' he)) hlive
  unfold devOf
  rw [hg.drvdata d hd]
  show (r.2.deref (s.pht d)).dev = (s.mod.deref (s.pht d)).dev
  rw [r.2.deref_of hkeep, s.mod.deref_of hlive]

theorem uses_moved {pdev : D} {pc : Pc} {m : Driver D} (hp : t.pc = Function.update s.pc pdev pc)
    (hm : t.mod = m)
    (hother : ∀ d, d ≠ pdev → 1 ≤ (s.pc d).level → devOf d (s.pc d) m = dev s d)
    (hn : AllNoted s) (hnew : Noted (devOf pdev pc m) pc) :
    uses t = Function.update (uses s) pdev (minorOf (devOf pdev pc m) pc) ∧ AllNoted t := by
  have hown : dev t pdev = devOf pdev pc m := by
    unfold dev devOf State.pht
    rw [hp, hm, Function.update_self]
  have hrest : ∀ d, d ≠ pdev → 1 ≤ (s.pc d).level → dev t d = dev s d := by
    intro d hd h1
    rw [← hother d hd h1]
    unfold dev devOf State.pht
    rw [hp, hm, Function.update_of_ne hd]
  refine ⟨funext fun d => ?_, fun d => ?_⟩
  · by_cases hd : d = pdev
    · subst hd
      rw [Function.update_self, uses, hown, hp, Function.update_self]
    · rw [Function.update_of_ne hd, uses, hp, Function.update_of_ne hd]
      exact (noted_congr (hrest d hd)).1
  · by_cases hd : d = pdev
    · subst hd
      rw [hown, hp, Function.update_self]
      exact hnew
    · rw [hp, Function.update_of_ne hd]
      exact (noted_congr (hrest d hd)).2 (hn d)

theorem uses_begin {pdev : D} (pc : Pc) (hn : AllNoted s)
    (hm : minorOf (devOf pdev pc s.mod) pc = uses s pdev) (hr : Remembers (devOf pdev pc s.mod) pc)
    (ht : t = { s with pc := Function.update s.pc pdev pc }) : uses t = uses s ∧ AllNoted t := by
  have hnew : Noted (devOf pdev pc s.mod) pc := ⟨fun i hi => (hn pdev).lt i (hm.symm.trans hi), hr⟩
  obtain ⟨hu, hnt⟩ := uses_moved (t := t) (by rw [ht]) (by rw [ht]) (fun _ _ _ => rfl) hn hnew
  rw [hm, Function.update_eq_self] at hu
  exact ⟨hu, hnt⟩

omit [DecidableEq D] in
theorem uses_still (hn : AllNoted s) (hh : t.mod.heap = s.mod.heap)
    (hd : t.mod.drvdata = s.mod.drvdata) (hp : t.pc = s.pc) : uses t = uses s ∧ AllNoted t := by
  have hdev : ∀ d, dev t d = dev s d := by
    intro d
    unfold dev State.pht Driver.deref
    rw [hh, hd, hp]
  refine ⟨funext fun d => ?_, fun d => ?_⟩
  · rw [uses, hdev, hp]
    rfl
  · rw [hdev, hp]
    exact hn d

/-- **A step.** -/
theorem effect (hi : Inv s) (hn : AllNoted s) {e : Ev D} (he : Isr.step s e = some t) :
    Effect s e t ∧ AllNoted t := by
  cases e with
  | probe pdev a =>
    have hbegin : uses s pdev = none →
        t = { s with pc := Function.update s.pc pdev (.probing .pci_enable_device a ⟨0, NULL⟩) } →
        Effect s (.probe pdev a) t ∧ AllNoted t := by
      intro hu ht
      obtain ⟨hut, hnt⟩ := uses_begin (.probing .pci_enable_device a ⟨0, NULL⟩) hn hu.symm
        trivial ht
      exact ⟨.same hut (by rw [ht]) trivial, hnt⟩
    simp only [Isr.step] at he
    split at he
    · rename_i hpc
      exact hbegin (by rw [uses, hpc]; rfl) (Option.some.inj he).symm
    · rename_i e hpc
      split_ifs at he with h0
      exact hbegin (by rw [uses, hpc]; exact if_neg h0) (Option.some.inj he).symm
    · cases he
  | remove pdev =>
    simp only [Isr.step] at he
    split at he
    · rename_i e hpc
      split_ifs at he with h0
      obtain rfl := Option.some.inj he
      have hdev : devOf pdev (.removing .pci_get_drvdata ⟨0, NULL⟩) s.mod = dev s pdev := by
        unfold dev State.pht
        rw [hpc]
        rfl
      have hm : uses s pdev = some (MINOR (dev s pdev)) := by
        rw [uses, hpc]
        exact if_pos h0
      obtain ⟨hu, hnt⟩ := uses_begin (.removing .pci_get_drvdata ⟨0, NULL⟩) hn
        ((congrArg (fun i => some (MINOR i)) hdev).trans hm.symm) trivial rfl
      exact ⟨.same hu rfl trivial, hnt⟩
    · cases he
  | exec pdev =>
    simp only [Isr.step] at he
    split_ifs at he with hwait
    obtain ⟨r, hr, rfl⟩ := Option.map_eq_some_iff.mp he
    obtain ⟨x, hx⟩ := hi.has pdev
    obtain ⟨hnew, hdoes⟩ := pc_does (fun h1 => ⟨x, hx.live h1⟩) (hn pdev) hr
    have hg := Isr.pc_goes hx hr
    obtain ⟨hu, hnt⟩ := uses_moved (t := ⟨r.2, Function.update s.pc pdev r.1, s.isr, s.printed⟩)
      rfl rfl (fun d hd h1 => dev_other hi hg hd h1) hn hnew
    refine ⟨?_, hnt⟩
    cases hdoes with
    | same hm ht hf =>
      refine .same ?_ ht fun a l hp => absurd hp (hf a l)
      rw [hu, hm]
      exact Function.update_eq_self pdev (uses s)
    | mark hp hm ht =>
      refine .mark hp ?_ ht
      rw [hu, hm]
    | clear hi' hm ht hf =>
      refine .clear hi' ?_ ht fun a l hp => absurd hp (hf a l)
      rw [hu, hm]
  | irq pdev p =>
    simp only [Isr.step] at he
    split at he
    · split_ifs at he
      obtain rfl := Option.some.inj he
      exact ⟨.same rfl rfl trivial, hn⟩
    · cases he
  | isr pdev v ratelimit =>
    simp only [Isr.step] at he
    split at he
    · rename_i p st hrun
      obtain rfl := Option.some.inj he
      have hmod : (Isr.phantom_isr p v ratelimit s.mod st).2.1.heap = s.mod.heap ∧
          (Isr.phantom_isr p v ratelimit s.mod st).2.1.drvdata = s.mod.drvdata ∧
          (Isr.phantom_isr p v ratelimit s.mod st).2.1.phantom_devices = s.mod.phantom_devices := by
        cases st with
        | control =>
          simp only [Isr.phantom_isr]
          split_ifs <;> exact ⟨rfl, rfl, rfl⟩
        | _ => exact ⟨rfl, rfl, rfl⟩
      obtain ⟨hh, hd, htab⟩ := hmod
      obtain ⟨hu, hnt⟩ := uses_still (s := s) (t := { s with
        mod := (Isr.phantom_isr p v ratelimit s.mod st).2.1
        isr := Function.update s.isr pdev (Isr.phantom_isr p v ratelimit s.mod st).1
        printed := if (Isr.phantom_isr p v ratelimit s.mod st).2.2 then s.printed ++ [pdev]
          else s.printed }) hn hh hd rfl
      exact ⟨.same hu htab trivial, hnt⟩
    · cases he

theorem table_mark_iff {v : Vector UInt8 PHANTOM_MAX_MINORS} {u : D → Option ℕ} (h : Table v u)
    {pdev : D} (hnone : u pdev = none) {i : ℕ} (hi : i < PHANTOM_MAX_MINORS) :
    Table (v.setIfInBounds i 1) (Function.update u pdev (some i)) ↔ v[i] = 0 := by
  constructor
  · intro ht
    by_contra h0
    obtain ⟨d, hd⟩ := (h.slots i hi).mp h0
    have hne : d ≠ pdev := by
      rintro rfl
      rw [hnone] at hd
      cases hd
    refine hne (ht.once d pdev i ?_ (Function.update_self ..))
    rw [Function.update_of_ne hne, hd]
  · intro h0
    have hfresh : ∀ d, u d ≠ some i := fun d hd => (h.slots i hi).mpr ⟨d, hd⟩ h0
    refine ⟨fun j hj => ?_, fun d d' j hd hd' => ?_⟩
    · rw [Vector.getElem_setIfInBounds]
      by_cases hij : i = j
      · subst hij
        rw [if_pos rfl]
        exact iff_of_true (by decide) ⟨pdev, Function.update_self ..⟩
      · rw [if_neg hij, h.slots j hj]
        refine ⟨fun ⟨d, hd⟩ => ⟨d, ?_⟩, fun ⟨d, hd⟩ => ⟨d, ?_⟩⟩
        · rwa [Function.update_of_ne fun he => by rw [he, hnone] at hd; cases hd]
        · by_cases he : d = pdev
          · rw [he, Function.update_self] at hd
            exact absurd (Option.some.inj hd) hij
          · rwa [Function.update_of_ne he] at hd
    · by_cases he : d = pdev
      · by_cases he' : d' = pdev
        · rw [he, he']
        · rw [he, Function.update_self] at hd
          rw [Function.update_of_ne he', ← hd] at hd'
          exact absurd hd' (hfresh d')
      · rw [Function.update_of_ne he] at hd
        by_cases he' : d' = pdev
        · rw [he', Function.update_self] at hd'
          rw [← hd'] at hd
          exact absurd hd (hfresh d)
        · rw [Function.update_of_ne he'] at hd'
          exact h.once d d' j hd hd'

theorem table_clear {v : Vector UInt8 PHANTOM_MAX_MINORS} {u : D → Option ℕ} (h : Table v u)
    {pdev : D} {i : ℕ} (hi : u pdev = some i) :
    Table (v.setIfInBounds i 0) (Function.update u pdev none) := by
  have hback : ∀ d j, Function.update u pdev none d = some j → d ≠ pdev ∧ u d = some j := by
    intro d j hd
    by_cases he : d = pdev
    · rw [he, Function.update_self] at hd
      cases hd
    · rw [Function.update_of_ne he] at hd
      exact ⟨he, hd⟩
  refine ⟨fun j hj => ?_, fun d d' j hd hd' => h.once d d' j (hback d j hd).2 (hback d' j hd').2⟩
  rw [Vector.getElem_setIfInBounds]
  by_cases hij : i = j
  · subst hij
    rw [if_pos rfl]
    refine iff_of_false (fun h0 => h0 rfl) fun ⟨d, hd⟩ => ?_
    obtain ⟨hne, hd⟩ := hback d i hd
    exact hne (h.once d pdev i hd hi)
  · rw [if_neg hij, h.slots j hj]
    refine ⟨fun ⟨d, hd⟩ => ⟨d, ?_⟩, fun ⟨d, hd⟩ => ⟨d, (hback d j hd).2⟩⟩
    rwa [Function.update_of_ne fun he => by
      rw [he, hi] at hd
      exact hij (Option.some.inj hd)]

/-- A step keeps the table exact if and only if the slot that it marks was 0. -/
theorem exact_iff_free (hn : AllNoted s) (hx : Exact s) {e : Ev D} (h : Effect s e t) :
    Exact t ↔ Free s e := by
  cases h with
  | same hu ht hf =>
    refine iff_of_true ?_ hf
    rw [Exact, ht, hu]
    exact hx
  | @mark pdev _ a l hp hu ht =>
    have hlt : l.minor < PHANTOM_MAX_MINORS := by
      have hr := (hn pdev).remembers
      rw [hp] at hr
      exact hr
    rw [Exact, ht, hu, table_mark_iff hx (by rw [uses, hp]; rfl) hlt]
    refine ⟨fun h0 a' l' hp' _ => ?_, fun hf => hf a l hp hlt⟩
    obtain ⟨-, -, rfl⟩ := Pc.probing.inj (hp.symm.trans hp')
    exact h0
  | clear hi hu ht hf =>
    refine iff_of_true ?_ hf
    rw [Exact, ht, hu]
    exact table_clear hx hi

/-- **The table of the minors.** All along a run, with any number of probes and removals going on
at the same time, the marked slots are those of the devices, and no two devices have the same
minor, if and only if each probe still finds the slot 0 that it marks. -/
theorem exact_iff (cls : Ptr) (major : ℕ) (es : List (Ev D)) :
    Machine.Visits Isr.step Exact (Isr.start cls major) es ↔
      Machine.Always Isr.step Free (Isr.start cls major) es := by
  have hstart : Exact (Isr.start cls major : State D) := by
    refine ⟨fun i hi => iff_of_false (fun h0 => h0 ?_) nofun, nofun⟩
    exact Vector.getElem_replicate hi
  refine Machine.visits_iff_always (I := fun s => Inv s ∧ AllNoted s)
    (fun s e t hi he => ⟨hi.1.step he, (effect hi.1 hi.2 he).2⟩)
    (fun s e t hi hx he => exact_iff_free hi.2 hx (effect hi.1 hi.2 he).1) (fun s e _ hn => ?_) es _
    ⟨Isr.inv_start cls major, fun d => ⟨nofun, trivial⟩⟩ hstart
  cases e with
  | exec pdev =>
    intro a l hp
    simp only [Isr.step, hp, Isr.Pc.frees, Isr.Pc.exec, Bool.false_and, Bool.false_eq_true, if_false,
      Option.map_some] at hn
    cases hn
  | _ => trivial

end Run

/-- Both probes look at slot 0 before one of them marks it. -/
def raced : List (Ev Bool) :=
  [.probe false Isr.granted, .probe true Isr.granted, .exec false, .exec true, .exec false,
    .exec true, .exec false, .exec true]

/-- Two devices have the minor 0. -/
theorem uses_raced : ∃ s, Machine.run Isr.step (Isr.start 7 254) raced = some s ∧
    uses s false = some 0 ∧ uses s true = some 0 := ⟨_, rfl, rfl, rfl⟩

end Minors
end Pb173
