/-
# The life cycle of the phantom driver (10/example)

`phantom_init`, then any probes and removals, each a whole call, then
`phantom_exit`, and all of it again. The core probes a device that is not
bound and removes one that is; `phantom_exit` removes those that are bound.
Whatever the calls are and wherever they fail, the driver holds what its
class, its numbers and its bound devices hold, and nothing else: `Serves` is
kept by every call, and `balanced` is read off it. The same invariant tells
that the table of the minors is what the bound devices use
(`minors_in_use`), so that a probe has a minor as long as there is one.
-/
import Pb173.Machine
import Pb173.Phantom
import Mathlib.Data.List.Perm.Lattice
import Mathlib.Order.Bounds.Basic

namespace Pb173
namespace Lifecycle

open Phantom

/-! ### Runs -/

structure State (D : Type*) where
  mod : Driver D
  loaded : Bool
  bound : List D

inductive Ev (D : Type*)
  | init (a : InitAnswers)
  | probe (pdev : D) (a : Answers)
  | remove (pdev : D)
  | exit (order : List D)

/-- The module as it is loaded: its variables are as they are initialised. -/
def image {D : Type*} (m : Driver D) : Driver D :=
  { m with
    phantom_class := NULL
    phantom_major := 0
    phantom_devices := Vector.replicate PHANTOM_MAX_MINORS 0 }

def start {D : Type*} : State D where
  mod := ⟨NULL, 0, Vector.replicate PHANTOM_MAX_MINORS 0, Heap.empty, fun _ => NULL, ⟨0, 0⟩, [], []⟩
  loaded := false
  bound := []

/-- The minor under which a device is bound. -/
def minor {D : Type*} (m : Driver D) (pdev : D) : ℕ := MINOR (m.deref (m.drvdata pdev)).dev

section Step

variable {D : Type*} [DecidableEq D]

def step (s : State D) : Ev D → Option (State D)
  | .init a =>
    if s.loaded then none
    else
      let (e, t) := phantom_init a (image s.mod)
      some ⟨t, e = 0, []⟩
  | .probe pdev a =>
    if s.loaded ∧ pdev ∉ s.bound then
      let (e, t) := phantom_probe pdev a s.mod
      some ⟨t, true, if e = 0 then pdev :: s.bound else s.bound⟩
    else none
  | .remove pdev =>
    if s.loaded ∧ pdev ∈ s.bound then
      some ⟨phantom_remove pdev s.mod, true, s.bound.erase pdev⟩
    else none
  | .exit order =>
    if s.loaded ∧ order.Perm s.bound then some ⟨phantom_exit order s.mod, false, []⟩
    else none

/-- What a call can do. -/
inductive Moves (s : State D) : Ev D → State D → Prop
  | init {a : InitAnswers} {t : Driver D} (hl : s.loaded = false)
    (h : phantom_init a (image s.mod) = (0, t)) : Moves s (.init a) ⟨t, true, []⟩
  | init_error {a : InitAnswers} {t : Driver D} {e : ℤ} (hl : s.loaded = false)
    (h : phantom_init a (image s.mod) = (e, t)) (he : e ≠ 0) : Moves s (.init a) ⟨t, false, []⟩
  | probe {pdev : D} {a : Answers} {t : Driver D} (hl : s.loaded = true) (hb : pdev ∉ s.bound)
    (h : phantom_probe pdev a s.mod = (0, t)) : Moves s (.probe pdev a) ⟨t, true, pdev :: s.bound⟩
  | probe_error {pdev : D} {a : Answers} {t : Driver D} {e : ℤ} (hl : s.loaded = true)
    (h : phantom_probe pdev a s.mod = (e, t)) (he : e ≠ 0) :
    Moves s (.probe pdev a) ⟨t, true, s.bound⟩
  | remove {pdev : D} (hl : s.loaded = true) (hb : pdev ∈ s.bound) :
    Moves s (.remove pdev) ⟨phantom_remove pdev s.mod, true, s.bound.erase pdev⟩
  | exit {order : List D} (hl : s.loaded = true) (hp : order.Perm s.bound) :
    Moves s (.exit order) ⟨phantom_exit order s.mod, false, []⟩

theorem Moves.of_step {s t : State D} {ev : Ev D} (h : step s ev = some t) : Moves s ev t := by
  cases ev with
  | init a =>
    simp only [step] at h
    split at h
    · cases h
    rename_i hl
    obtain rfl := Option.some.inj h
    rcases hi : phantom_init a (image s.mod) with ⟨e, t⟩
    by_cases he : e = 0
    · subst he
      exact .init (Bool.eq_false_iff.mpr hl) hi
    · simp only [he, decide_false]
      exact .init_error (Bool.eq_false_iff.mpr hl) hi he
  | probe pdev a =>
    simp only [step] at h
    split at h
    swap
    · cases h
    rename_i hc
    obtain rfl := Option.some.inj h
    rcases hp : phantom_probe pdev a s.mod with ⟨e, t⟩
    by_cases he : e = 0
    · subst he
      exact .probe hc.1 hc.2 hp
    · simp only [he, if_false]
      exact .probe_error hc.1 hp he
  | remove pdev =>
    simp only [step] at h
    split at h
    · rename_i hc
      obtain rfl := Option.some.inj h
      exact .remove hc.1 hc.2
    · cases h
  | exit order =>
    simp only [step] at h
    split at h
    · rename_i hc
      obtain rfl := Option.some.inj h
      exact .exit hc.1 hc.2
    · cases h

end Step

/-! ### What the driver holds -/

section Serves

variable {D : Type*} [DecidableEq D]

/-- What is held for the bound devices. -/
def devices (m : Driver D) (node : D → Bool) (bound : List D) : List (Res D) :=
  bound.flatMap fun d => owned d (m.drvdata d) (m.deref (m.drvdata d)) (node d)

omit [DecidableEq D] in
theorem devices_cons (m : Driver D) (node : D → Bool) (d : D) (bound : List D) :
    devices m node (d :: bound) =
      owned d (m.drvdata d) (m.deref (m.drvdata d)) (node d) ++ devices m node bound :=
  List.flatMap_cons

/-- The driver serves the devices `bound`, and holds what that takes; `node`
tells which of them have a node. -/
structure Serves (node : D → Bool) (m : Driver D) (bound : List D) : Prop where
  nodup : bound.Nodup
  live : ∀ d ∈ bound, ∃ x, m.heap.get (m.drvdata d) = some x
  dev : ∀ d ∈ bound, (m.deref (m.drvdata d)).dev = MKDEV m.phantom_major (minor m d)
  minor_lt : ∀ d ∈ bound, minor m d < PHANTOM_MAX_MINORS
  minor_inj : ∀ d ∈ bound, ∀ d' ∈ bound, minor m d = minor m d' → d = d'
  used : ∀ i (hi : i < PHANTOM_MAX_MINORS), (∃ d ∈ bound, minor m d = i) → m.phantom_devices[i] = 1
  free : ∀ i (hi : i < PHANTOM_MAX_MINORS), (∀ d ∈ bound, minor m d ≠ i) → m.phantom_devices[i] = 0
  led : m.led = ⟨↑(devices m node bound) + ↑(base m), 0⟩

omit [DecidableEq D] in
theorem Serves.perm {node : D → Bool} {m : Driver D} {ds ds' : List D} (h : Serves node m ds)
    (hp : ds.Perm ds') : Serves node m ds' where
  nodup := hp.nodup_iff.mp h.nodup
  live d hd := h.live d (hp.mem_iff.mpr hd)
  dev d hd := h.dev d (hp.mem_iff.mpr hd)
  minor_lt d hd := h.minor_lt d (hp.mem_iff.mpr hd)
  minor_inj d hd d' hd' := h.minor_inj d (hp.mem_iff.mpr hd) d' (hp.mem_iff.mpr hd')
  used i hi hu := by
    obtain ⟨d, hd, hm⟩ := hu
    exact h.used i hi ⟨d, hp.mem_iff.mpr hd, hm⟩
  free i hi hf := h.free i hi fun d hd => hf d (hp.mem_iff.mp hd)
  led := by
    rw [h.led]
    congr 2
    exact Multiset.coe_eq_coe.mpr (hp.flatMap_right _)

/-- A driver that has just been loaded serves no device. -/
theorem serves_init {node : D → Bool} {a : InitAnswers} {m t : Driver D}
    (hv : m.phantom_devices = Vector.replicate PHANTOM_MAX_MINORS 0) (hm : m.led = ⟨0, 0⟩)
    (h : phantom_init a m = (0, t)) : Serves node t [] := by
  obtain ⟨hk, ⟨hneg, -⟩ | ⟨-, hheld⟩⟩ := phantom_init_cases h
  · exact absurd hneg (by decide)
  refine ⟨List.nodup_nil, by simp, by simp, by simp, by simp, by simp, fun i hi _ => ?_, ?_⟩
  · simp only [hk.phantom_devices, hv, Vector.getElem_replicate]
  · apply Ledger.ext_of
    · rw [hheld, hm, add_comm]
      rfl
    · rw [hk.bad, hm]

omit [DecidableEq D] in
theorem device_mem {node : D → Bool} {m : Driver D} {bound : List D} {i : ℕ}
    (hi : i < PHANTOM_MAX_MINORS) (hmem : .device (MKDEV m.phantom_major i) ∈
      (↑(devices m node bound) : Multiset (Res D)) + ↑(base m)) : ∃ d ∈ bound, minor m d = i := by
  rcases Multiset.mem_add.mp hmem with hmem | hmem
  · obtain ⟨d, hd, hmem⟩ := List.mem_flatMap.mp (Multiset.mem_coe.mp hmem)
    refine ⟨d, hd, ?_⟩
    have hdev : node d = true ∧ MKDEV m.phantom_major i = (m.deref (m.drvdata d)).dev := by
      simpa [owned] using hmem
    calc minor m d = MINOR (MKDEV m.phantom_major i) := by rw [hdev.2]; rfl
      _ = i := MINOR_MKDEV (small hi)
  · simp [base] at hmem

omit [DecidableEq D] in
theorem Serves.get_free_ne {node : D → Bool} {m : Driver D} {bound : List D}
    (h : Serves node m bound) (hlt : phantom_get_free m.phantom_devices < PHANTOM_MAX_MINORS) :
    ∀ d ∈ bound, minor m d ≠ phantom_get_free m.phantom_devices := by
  intro d hd heq
  have h1 := h.used _ hlt ⟨d, hd, heq⟩
  rw [phantom_get_free_zero hlt] at h1
  exact absurd h1 (by decide)

/-- What is kept for the devices `ds`, and for the driver, is the same in both
states. -/
structure Same (ds : List D) (t m : Driver D) : Prop where
  drvdata : ∀ d ∈ ds, t.drvdata d = m.drvdata d
  get : ∀ d ∈ ds, t.heap.get (t.drvdata d) = m.heap.get (m.drvdata d)
  phantom_major : t.phantom_major = m.phantom_major
  phantom_class : t.phantom_class = m.phantom_class

section Same

variable {node node' : D → Bool} {t m : Driver D} {ds : List D} {d : D}

omit [DecidableEq D] in
theorem Same.deref (h : Same ds t m) (hd : d ∈ ds) :
    t.deref (t.drvdata d) = m.deref (m.drvdata d) := by
  unfold Driver.deref
  rw [h.get d hd]

omit [DecidableEq D] in
theorem Same.minor (h : Same ds t m) (hd : d ∈ ds) : minor t d = minor m d := by
  unfold Lifecycle.minor
  rw [h.deref hd]

omit [DecidableEq D] in
theorem Same.base (h : Same ds t m) : base t = base m := by
  unfold Phantom.base
  rw [h.phantom_major, h.phantom_class]

omit [DecidableEq D] in
theorem Same.devices (h : Same ds t m) (hn : ∀ d ∈ ds, node' d = node d) :
    devices t node' ds = devices m node ds := by
  apply List.flatMap_congr
  intro d hd
  rw [hn d hd, h.deref hd, h.drvdata d hd]

omit [DecidableEq D] in
theorem Same.dev (h : Same ds t m) (hs : Serves node m ds) (hd : d ∈ ds) :
    (t.deref (t.drvdata d)).dev = MKDEV t.phantom_major (Lifecycle.minor t d) := by
  rw [h.deref hd, h.minor hd, h.phantom_major]
  exact hs.dev d hd

end Same

omit [DecidableEq D] in
theorem Serves.restored {node : D → Bool} {t m : Driver D} {bound : List D}
    (h : Serves node m bound) (hr : Restored t m) : Serves node t bound := by
  have hsame : Same bound t m :=
    ⟨fun d _ => by rw [hr.drvdata], fun d _ => by rw [hr.get, hr.drvdata], hr.phantom_major,
      hr.phantom_class⟩
  refine ⟨h.nodup, ?_, fun d hd => hsame.dev h hd, ?_, ?_, ?_, ?_, ?_⟩
  · intro d hd
    rw [hsame.get d hd]
    exact h.live d hd
  · intro d hd
    rw [hsame.minor hd]
    exact h.minor_lt d hd
  · intro d hd d' hd' heq
    rw [hsame.minor hd, hsame.minor hd'] at heq
    exact h.minor_inj d hd d' hd' heq
  · rintro i hi ⟨d, hd, rfl⟩
    simp only [hr.phantom_devices, hsame.minor hd]
    exact h.used _ _ ⟨d, hd, rfl⟩
  · intro i hi hf
    simp only [hr.phantom_devices]
    exact h.free i hi fun d hd => hsame.minor hd ▸ hf d hd
  · rw [hr.led, h.led, hsame.devices fun _ _ => rfl, hsame.base]

omit [DecidableEq D] in
/-- What a new device leaves as it was: all that is kept for the others. -/
theorem Serves.same_built {node : D → Bool} {t m : Driver D} {bound : List D} {pdev : D}
    {x : phantom_device} {b : Bool} (h : Serves node m bound) (hx : Built pdev x b t m)
    (hdrv : ∀ d ∈ bound, t.drvdata d = m.drvdata d) : Same bound t m := by
  refine ⟨hdrv, fun d hd => ?_, hx.phantom_major, hx.phantom_class⟩
  obtain ⟨y, hy⟩ := h.live d hd
  rw [hdrv d hd]
  exact hx.get _ (Nat.ne_of_lt (Heap.lt_next hy))

/-- **A probe that succeeds** serves one device more. -/
theorem Serves.probe {node : D → Bool} {t m : Driver D} {bound : List D} {pdev : D} {a : Answers}
    (h : Serves node m bound) (hpd : pdev ∉ bound) (hp : phantom_probe pdev a m = (0, t)) :
    Serves (Function.update node pdev a.device_create) t (pdev :: bound) := by
  obtain ⟨hdrv, x, hx⟩ := phantom_probe_ok hp
  have hfree := h.get_free_ne hx.minor_lt
  have hne : ∀ d ∈ bound, d ≠ pdev := fun d hd he => hpd (he ▸ hd)
  have hsame : Same bound t m := h.same_built hx fun d hd => by
    rw [hdrv, Function.update_of_ne (hne d hd)]
  -- the new device
  have hself : t.drvdata pdev = m.heap.next := by rw [hdrv, Function.update_self]
  have hnew : t.deref (t.drvdata pdev) = x := by rw [hself, t.deref_of hx.new]
  have hminor : minor t pdev = phantom_get_free m.phantom_devices := by
    rw [minor, hnew, hx.minor]
  refine ⟨List.nodup_cons.mpr ⟨hpd, h.nodup⟩, ?_, ?_, ?_, ?_, ?_, ?_, ?_⟩
  · intro d hd
    rcases List.mem_cons.mp hd with rfl | hd
    · exact ⟨x, by rw [hself, hx.new]⟩
    · rw [hsame.get d hd]
      exact h.live d hd
  · intro d hd
    rcases List.mem_cons.mp hd with rfl | hd
    · rw [hnew, hminor, hx.dev, hx.phantom_major]
    · exact hsame.dev h hd
  · intro d hd
    rcases List.mem_cons.mp hd with rfl | hd
    · rw [hminor]
      exact hx.minor_lt
    · rw [hsame.minor hd]
      exact h.minor_lt d hd
  · intro d hd d' hd' heq
    rcases List.mem_cons.mp hd with rfl | hb <;> rcases List.mem_cons.mp hd' with rfl | hb'
    · rfl
    · rw [hminor, hsame.minor hb'] at heq
      exact absurd heq.symm (hfree d' hb')
    · rw [hminor, hsame.minor hb] at heq
      exact absurd heq (hfree d hb)
    · rw [hsame.minor hb, hsame.minor hb'] at heq
      exact h.minor_inj d hb d' hb' heq
  · rintro i hi ⟨d, hd, rfl⟩
    simp only [hx.phantom_devices]
    rcases List.mem_cons.mp hd with rfl | hd
    · simp only [hminor, Vector.getElem_setIfInBounds_self]
    · simp only [hsame.minor hd, Vector.getElem_setIfInBounds_ne _ (hfree d hd).symm]
      exact h.used _ _ ⟨d, hd, rfl⟩
  · intro i hi hf
    have hi' : phantom_get_free m.phantom_devices ≠ i := by
      rw [← hminor]
      exact hf pdev List.mem_cons_self
    simp only [hx.phantom_devices, Vector.getElem_setIfInBounds_ne _ hi']
    exact h.free i hi fun d hd => hsame.minor hd ▸ hf d (List.mem_cons_of_mem _ hd)
  · have hrest : devices t (Function.update node pdev a.device_create) bound =
        devices m node bound :=
      hsame.devices fun d hd => Function.update_of_ne (hne d hd) _ _
    apply Ledger.ext_of
    · rw [hx.held, h.led, devices_cons, hrest, hnew, hself, Function.update_self, hsame.base,
        ← Multiset.coe_add, add_assoc]
    · rw [hx.bad, h.led]

/-- What the removal of a device that is served comes to. -/
theorem Serves.removed {node : D → Bool} {m : Driver D} {bound : List D} {pdev : D}
    (h : Serves node m (pdev :: bound)) :
    Removed pdev (minor m pdev) (↑(devices m node bound) + ↑(base m)) (phantom_remove pdev m) m := by
  have hself : pdev ∈ pdev :: bound := List.mem_cons_self
  obtain ⟨hpd, -⟩ := List.nodup_cons.mp h.nodup
  obtain ⟨x, hx⟩ := h.live pdev hself
  have hdx : m.deref (m.drvdata pdev) = x := m.deref_of hx
  have hdev : x.dev = MKDEV m.phantom_major (minor m pdev) := by
    rw [← hdx]
    exact h.dev pdev hself
  have hk : .device x.dev ∉ (↑(devices m node bound) : Multiset (Res D)) + ↑(base m) := by
    rw [hdev]
    intro hmem
    obtain ⟨d, hd, hm⟩ := device_mem (h.minor_lt pdev hself) hmem
    exact hpd (h.minor_inj d (List.mem_cons_of_mem _ hd) pdev hself hm ▸ hd)
  have hheld := congrArg Ledger.held h.led
  rw [devices_cons, hdx, ← Multiset.coe_add, add_assoc] at hheld
  exact phantom_remove_eq hx hdev (h.minor_lt pdev hself) hk hheld

/-- **A removal** serves the others. -/
theorem Serves.remove {node : D → Bool} {m : Driver D} {bound : List D} {pdev : D}
    (h : Serves node m (pdev :: bound)) : Serves node (phantom_remove pdev m) bound := by
  obtain ⟨hpd, hnodup⟩ := List.nodup_cons.mp h.nodup
  have hself : pdev ∈ pdev :: bound := List.mem_cons_self
  have hcons : ∀ d ∈ bound, d ∈ pdev :: bound := fun d hd => List.mem_cons_of_mem _ hd
  have hne : ∀ d ∈ bound, minor m d ≠ minor m pdev := fun d hd heq =>
    hpd (h.minor_inj d (hcons d hd) pdev hself heq ▸ hd)
  have hr := h.removed
  generalize phantom_remove pdev m = t at hr
  have hsame : Same bound t m := by
    refine ⟨fun d _ => by rw [hr.drvdata], fun d hd => ?_, hr.phantom_major, hr.phantom_class⟩
    rw [hr.drvdata, hr.heap]
    apply Heap.get_free_of_ne
    intro heq
    exact hne d hd (by rw [minor, heq, minor])
  refine ⟨hnodup, ?_, ?_, ?_, ?_, ?_, ?_, ?_⟩
  · intro d hd
    rw [hsame.get d hd]
    exact h.live d (hcons d hd)
  · intro d hd
    rw [hsame.deref hd, hsame.minor hd, hr.phantom_major]
    exact h.dev d (hcons d hd)
  · intro d hd
    rw [hsame.minor hd]
    exact h.minor_lt d (hcons d hd)
  · intro d hd d' hd' heq
    rw [hsame.minor hd, hsame.minor hd'] at heq
    exact h.minor_inj d (hcons d hd) d' (hcons d' hd') heq
  · rintro i hi ⟨d, hd, rfl⟩
    simp only [hr.phantom_devices, hsame.minor hd,
      Vector.getElem_setIfInBounds_ne _ (hne d hd).symm]
    exact h.used _ _ ⟨d, hcons d hd, rfl⟩
  · intro i hi hf
    simp only [hr.phantom_devices]
    by_cases hi' : minor m pdev = i
    · simp only [hi', Vector.getElem_setIfInBounds_self]
    · simp only [Vector.getElem_setIfInBounds_ne _ hi']
      apply h.free i hi
      intro d hd
      rcases List.mem_cons.mp hd with rfl | hb
      · exact hi'
      · exact hsame.minor hb ▸ hf d hb
  · rw [hr.led, h.led, hsame.devices fun _ _ => rfl, hsame.base]

theorem Serves.foldl_remove {node : D → Bool} : ∀ (order : List D) {m : Driver D},
    Serves node m order → Serves node (order.foldl (fun m pdev => phantom_remove pdev m) m) []
  | [], _, h => h
  | _ :: order, _, h => foldl_remove order h.remove

/-- **`phantom_exit`** leaves nothing held. -/
theorem Serves.exit {node : D → Bool} {m : Driver D} {bound order : List D}
    (h : Serves node m bound) (hp : order.Perm bound) : (phantom_exit order m).led = ⟨0, 0⟩ := by
  have hs := (h.perm hp.symm).foldl_remove
  unfold phantom_exit
  generalize order.foldl (fun m pdev => phantom_remove pdev m) m = t at hs
  have hall := Ledger.foldl_release (base t) t.led 0 (by rw [hs.led]; rfl)
  rw [show t.led.bad = 0 by rw [hs.led]] at hall
  exact hall

/-! ### The minors -/

omit [DecidableEq D] in
/-- The slot that is found is the least minor that no device has. -/
theorem Serves.isLeast {node : D → Bool} {m : Driver D} {bound : List D}
    (h : Serves node m bound) :
    IsLeast {i | ∀ d ∈ bound, minor m d ≠ i} (phantom_get_free m.phantom_devices) := by
  constructor
  · rcases (phantom_get_free_le m.phantom_devices).lt_or_eq with hlt | heq
    · exact h.get_free_ne hlt
    · rw [heq]
      exact fun d hd => (h.minor_lt d hd).ne
  · intro i hi
    by_contra hlt
    have hi' := (not_le.mp hlt).trans_le (phantom_get_free_le _)
    exact phantom_get_free_least hi' (not_le.mp hlt) (h.free i hi' hi)

omit [DecidableEq D] in
/-- There is no free slot only when all of them are used. -/
theorem Serves.full {node : D → Bool} {m : Driver D} {bound : List D} (h : Serves node m bound)
    (hmax : phantom_get_free m.phantom_devices = PHANTOM_MAX_MINORS) :
    bound.length = PHANTOM_MAX_MINORS := by
  have hnodup : (bound.map (minor m)).Nodup :=
    h.nodup.map_on h.minor_inj
  have hperm : (bound.map (minor m)).Perm (List.range PHANTOM_MAX_MINORS) := by
    rw [List.perm_ext_iff_of_nodup hnodup List.nodup_range]
    intro i
    rw [List.mem_map, List.mem_range]
    constructor
    · rintro ⟨d, hd, rfl⟩
      exact h.minor_lt d hd
    · intro hi
      by_contra hno
      have hle := h.isLeast.2 (show ∀ d ∈ bound, minor m d ≠ i from fun d hd he => hno ⟨d, hd, he⟩)
      omega
  rw [← List.length_map (minor m), hperm.length_eq, List.length_range]

omit [DecidableEq D] in
/-- There is a free slot exactly while a minor is unused. -/
theorem Serves.free_iff {node : D → Bool} {m : Driver D} {bound : List D} (h : Serves node m bound) :
    phantom_get_free m.phantom_devices < PHANTOM_MAX_MINORS ↔ bound.length < PHANTOM_MAX_MINORS := by
  have hsub : (bound.map (minor m)).Subperm (List.range PHANTOM_MAX_MINORS) := by
    refine (h.nodup.map_on h.minor_inj).subperm fun i hi => ?_
    obtain ⟨d, hd, rfl⟩ := List.mem_map.mp hi
    exact List.mem_range.mpr (h.minor_lt d hd)
  constructor
  · intro hlt
    by_contra hge
    have hle : (List.range PHANTOM_MAX_MINORS).length ≤ (bound.map (minor m)).length := by
      rw [List.length_range, List.length_map]
      exact Nat.not_lt.mp hge
    -- the slot would be that of a device
    have hmem := (hsub.perm_of_length_le hle).symm.subset (List.mem_range.mpr hlt)
    obtain ⟨d, hd, hm⟩ := List.mem_map.mp hmem
    exact h.get_free_ne hlt d hd hm
  · intro hlt
    exact lt_of_le_of_ne (phantom_get_free_le _) fun heq => hlt.ne (h.full heq)

end Serves

/-! ### Every run -/

section Runs

variable {D : Type*} [DecidableEq D]

/-- A loaded driver serves its devices; one that is not holds nothing. -/
structure Inv (s : State D) : Prop where
  loaded : s.loaded = true → ∃ node, Serves node s.mod s.bound
  idle : s.loaded = false → s.bound = [] ∧ s.mod.led = ⟨0, 0⟩

omit [DecidableEq D] in
theorem inv_start : Inv (start : State D) where
  loaded h := by cases h
  idle _ := ⟨rfl, rfl⟩

/-- **Every call keeps it.** -/
theorem Inv.step {s t : State D} {ev : Ev D} (h : Inv s) (hs : step s ev = some t) : Inv t := by
  cases Moves.of_step hs with
  | init hl hi =>
    obtain ⟨-, hled⟩ := h.idle hl
    exact ⟨fun _ => ⟨fun _ => false, serves_init (m := image s.mod) rfl hled hi⟩,
      nofun⟩
  | init_error hl hi he =>
    obtain ⟨-, hled⟩ := h.idle hl
    have hkept := (phantom_init_error hi he).2
    exact ⟨nofun, fun _ => ⟨rfl, hkept.trans hled⟩⟩
  | probe hl hb hp =>
    obtain ⟨node, hserves⟩ := h.loaded hl
    exact ⟨fun _ => ⟨_, hserves.probe hb hp⟩, nofun⟩
  | probe_error hl hp he =>
    obtain ⟨node, hserves⟩ := h.loaded hl
    have hrest := (phantom_probe_error hp he).2
    exact ⟨fun _ => ⟨node, hserves.restored hrest⟩, nofun⟩
  | remove hl hb =>
    obtain ⟨node, hserves⟩ := h.loaded hl
    have hperm := hserves.perm (List.perm_cons_erase hb)
    exact ⟨fun _ => ⟨node, hperm.remove⟩, nofun⟩
  | exit hl hp =>
    obtain ⟨node, hserves⟩ := h.loaded hl
    exact ⟨nofun, fun _ => ⟨rfl, hserves.exit hp⟩⟩

theorem inv_run {s : State D} {es : List (Ev D)} (h : Machine.run step start es = some s) : Inv s :=
  Machine.run_inv step Inv inv_start (fun _ _ _ => Inv.step) h

/-- The balance of the calls in a state: what is held, and what each call that
is possible does to that. -/
structure Balanced (s : State D) : Prop where
  /-- Nothing has been released that was not held. -/
  bad : s.mod.led.bad = 0
  idle : s.loaded = false → s.mod.led.held = 0
  init : ∀ a e t, s.loaded = false → phantom_init a (image s.mod) = (e, t) → e ≠ 0 →
    e < 0 ∧ t.led = s.mod.led
  probe : ∀ pdev a e t, s.loaded = true → pdev ∉ s.bound → phantom_probe pdev a s.mod = (e, t) →
    e ≠ 0 → e < 0 ∧ Restored t s.mod
  remove : ∀ pdev a t, s.loaded = true → pdev ∉ s.bound → phantom_probe pdev a s.mod = (0, t) →
    Restored { phantom_remove pdev t with drvdata := s.mod.drvdata } s.mod ∧
      ∀ d, d ≠ pdev → (phantom_remove pdev t).drvdata d = s.mod.drvdata d
  exit : ∀ order, s.loaded = true → order.Perm s.bound → (phantom_exit order s.mod).led = ⟨0, 0⟩

theorem Inv.balanced {s : State D} (h : Inv s) : Balanced s where
  bad := by
    rcases hl : s.loaded
    · rw [(h.idle hl).2]
    · obtain ⟨node, hserves⟩ := h.loaded hl
      rw [hserves.led]
  idle hl := by rw [(h.idle hl).2]
  init a e t _ hi he := by
    have hkept := phantom_init_error hi he
    exact hkept
  probe pdev a e t _ _ hp he := phantom_probe_error hp he
  remove pdev a t hl hpd hp := by
    obtain ⟨node, hserves⟩ := h.loaded hl
    refine phantom_remove_probe (fun hmem => ?_) hp
    have hlt : phantom_get_free s.mod.phantom_devices < PHANTOM_MAX_MINORS := by
      obtain ⟨-, x, hx⟩ := phantom_probe_ok hp
      exact hx.minor_lt
    rw [hserves.led] at hmem
    obtain ⟨d, hd, hm⟩ := device_mem hlt hmem
    exact hserves.get_free_ne hlt d hd hm
  exit order hl hp := by
    obtain ⟨node, hserves⟩ := h.loaded hl
    exact hserves.exit hp

/-- **Every run is balanced.** -/
theorem life_cycle (es : List (Ev D)) : Machine.Visits step Balanced (start : State D) es :=
  fun _ _ _ hs => (inv_run hs).balanced

/-- The kernel grants all. -/
def granted : Answers := ⟨none, none, true, 4, 8, none, none, true⟩

theorem granted_granted : granted.Granted := ⟨rfl, rfl, rfl, by decide, by decide, rfl, rfl⟩

/-- The module is loaded and two devices are bound, the first of which is removed. -/
def twoBound : List (Ev Bool) :=
  [.init ⟨.ok 7, .ok (MKDEV 254 0), none⟩, .probe true granted, .probe false granted, .remove true]

/-- Nine resources are held then beside the class, the numbers and the registration, and
`phantom_exit` gives back all. -/
theorem life_cycle_two : ∃ s, Machine.run step start twoBound = some s ∧ s.bound = [false] ∧
    s.mod.led.held.card = 12 ∧ (phantom_exit [false] s.mod).led = ⟨0, 0⟩ := by
  obtain ⟨s, hs, hl, hb, hc⟩ : ∃ s, Machine.run step start twoBound = some s ∧ s.loaded = true ∧
      s.bound = [false] ∧ s.mod.led.held.card = 12 := ⟨_, rfl, rfl, rfl, by decide⟩
  have hbal : Balanced s := life_cycle twoBound _ (List.prefix_refl _) s hs
  exact ⟨s, hs, hb, hc, hbal.exit [false] hl (hb ▸ List.Perm.refl _)⟩

/-- The minors in a state, and what a probe does to them. -/
structure MinorsInUse (s : State D) : Prop where
  minor_lt : ∀ d ∈ s.bound, minor s.mod d < PHANTOM_MAX_MINORS
  minor_inj : ∀ d ∈ s.bound, ∀ d' ∈ s.bound, minor s.mod d = minor s.mod d' → d = d'
  table : s.loaded = true → ∀ i (hi : i < PHANTOM_MAX_MINORS),
    s.mod.phantom_devices[i] = 1 ↔ ∃ d ∈ s.bound, minor s.mod d = i
  lack : ∀ pdev a e t, s.loaded = true → pdev ∉ s.bound → phantom_probe pdev a s.mod = (e, t) →
    t.log = s.mod.log ++ [(pdev, .too_many)] → s.bound.length = PHANTOM_MAX_MINORS ∧ e = - EIO
  least : s.loaded = true →
    IsLeast {i | ∀ d ∈ s.bound, minor s.mod d ≠ i} (phantom_get_free s.mod.phantom_devices)
  chosen : ∀ pdev a t, s.loaded = true → pdev ∉ s.bound → phantom_probe pdev a s.mod = (0, t) →
    minor t pdev = phantom_get_free s.mod.phantom_devices
  failed : ∀ pdev a e t, s.loaded = true → pdev ∉ s.bound → phantom_probe pdev a s.mod = (e, t) →
    e ≠ 0 → t.phantom_devices = s.mod.phantom_devices
  /-- While there is an unused minor, a probe that the kernel refuses nothing succeeds, with
  the least one. -/
  granted : ∀ pdev a, s.loaded = true → pdev ∉ s.bound → s.bound.length < PHANTOM_MAX_MINORS →
    a.Granted → ∃ t, phantom_probe pdev a s.mod = (0, t) ∧ minor t pdev < PHANTOM_MAX_MINORS ∧
      IsLeast {i | ∀ d ∈ s.bound, minor s.mod d ≠ i} (minor t pdev)
  full : ∀ pdev a, s.loaded = true → pdev ∉ s.bound → s.bound.length = PHANTOM_MAX_MINORS →
    a.pci_enable_device = none → ∃ t, phantom_probe pdev a s.mod = (- EIO, t) ∧
      t.log = s.mod.log ++ [(pdev, .too_many)]

theorem minor_probe {pdev : D} {a : Answers} {m t : Driver D}
    (h : phantom_probe pdev a m = (0, t)) :
    minor t pdev = phantom_get_free m.phantom_devices := by
  obtain ⟨hdrv, x, hx⟩ := phantom_probe_ok h
  have hself : t.drvdata pdev = m.heap.next := by rw [hdrv, Function.update_self]
  rw [minor, hself, t.deref_of hx.new, hx.minor]

theorem Inv.minors {s : State D} (h : Inv s) : MinorsInUse s := by
  rcases hl : s.loaded
  · obtain ⟨hb, -⟩ := h.idle hl
    refine ⟨?_, ?_, ?_, ?_, ?_, ?_, ?_, ?_, ?_⟩ <;> simp [hl, hb]
  obtain ⟨node, hserves⟩ := h.loaded hl
  refine ⟨hserves.minor_lt, hserves.minor_inj, fun _ i hi => ⟨fun h1 => ?_, hserves.used i hi⟩,
    fun pdev a e t _ _ hp hlog => ?_, fun _ => hserves.isLeast,
    fun pdev a t _ _ hp => minor_probe hp,
    fun pdev a e t _ _ hp he => (phantom_probe_error hp he).2.phantom_devices,
    fun pdev a _ _ hlen ha => ?_, fun pdev a _ _ hlen ha => ?_⟩
  · by_contra hno
    have h0 := hserves.free i hi fun d hd he => hno ⟨d, hd, he⟩
    rw [h1] at h0
    exact absurd h0 (by decide)
  · obtain ⟨hmax, he⟩ := phantom_probe_too_many hp hlog
    exact ⟨hserves.full hmax, he⟩
  · have hlt := hserves.free_iff.mpr hlen
    obtain ⟨t, hp⟩ : ∃ t, phantom_probe pdev a s.mod = (0, t) := phantom_probe_granted ha hlt
    refine ⟨t, hp, ?_, ?_⟩
    · rw [minor_probe hp]
      exact hlt
    · rw [minor_probe hp]
      exact hserves.isLeast
  · refine phantom_probe_full ha ?_
    by_contra hne
    have hlt := hserves.free_iff.mp (lt_of_le_of_ne (phantom_get_free_le _) hne)
    omega

/-- **The table tells the minors in use**, in every run. -/
theorem minors_in_use (es : List (Ev D)) :
    Machine.Visits step MinorsInUse (start : State D) es :=
  fun _ _ _ hs => (inv_run hs).minors

/-- The second device has kept the minor 1, and the first one gets the minor 0 again. -/
theorem minors_in_use_two : ∃ s t, Machine.run step start twoBound = some s ∧ s.bound = [false] ∧
    minor s.mod false = 1 ∧ phantom_probe true granted s.mod = (0, t) ∧ minor t true = 0 := by
  obtain ⟨s, hs, hl, hb, h1⟩ : ∃ s, Machine.run step start twoBound = some s ∧ s.loaded = true ∧
      s.bound = [false] ∧ minor s.mod false = 1 := ⟨_, rfl, rfl, rfl, by decide⟩
  have hm : MinorsInUse s := minors_in_use twoBound _ (List.prefix_refl _) s hs
  obtain ⟨t, hp, -, hleast⟩ := hm.granted true granted hl (by rw [hb]; decide)
    (by rw [hb]; decide) granted_granted
  have hfree : ∀ d ∈ s.bound, minor s.mod d ≠ 0 := by
    intro d hd
    rw [hb, List.mem_singleton] at hd
    rw [hd, h1]
    decide
  exact ⟨s, t, hs, hb, h1, hp, Nat.le_zero.mp (hleast.2 hfree)⟩

end Runs

end Lifecycle
end Pb173
