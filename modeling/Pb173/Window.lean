/-
# The registers of the phantom device (10/example)

`phantom_write` takes the number of a register from the user and writes to it
through the mapping of region 2 of the device. On a device that is bound it
reaches the mapping, and there the register that it is told (`write_bound`);
whether that lies inside, and whether the user's memory can be read, it does
not ask (`window_iff`).
-/
import Pb173.Unplug

namespace Pb173
namespace Window

open Phantom Lifecycle Files

/-- How much `pci_iomap(dev, bar, maxlen)` maps of a region of `len` bytes. -/
def mapped (len maxlen : ℕ) : ℕ := if maxlen ≠ 0 ∧ maxlen < len then maxlen else len

section Write

variable {D : Type*}

/-- What a call of `phantom_write` on the device `pdev` does, `len` being the
length of its region 2, which is mapped at `a`: it fails and writes nothing, or
writes one register inside the mapping. It fails with `-EFAULT` if the structure
that it asks for cannot be read. -/
structure InWindow (pdev : D) (a : Ptr) (len : ℕ) (buf : List UInt8) (count : ℕ) (m : Driver D)
    (ret : Option ℤ) (t : Driver D) : Prop where
  out : (∃ e : ℤ, e < 0 ∧ ret = some e ∧ t.io = m.io) ∨
    ret = some (count : ℤ) ∧ .iomap pdev a ∈ m.led.held ∧
      t.io = m.io ++ [(a, 4 * (phm_reg.of buf).reg.toNat, (phm_reg.of buf).value)] ∧
      4 * (phm_reg.of buf).reg.toNat + 4 ≤ mapped len 0
  fault : count = sizeof_phm_reg → buf.length < sizeof_phm_reg → ret = some (-EFAULT)

/-- The user's memory can be read, and the register lies in a region of `len`
bytes, if the size is the one that `phantom_write` asks for. -/
def Fits (len : ℕ) (buf : List UInt8) (count : ℕ) : Prop :=
  count = sizeof_phm_reg →
    sizeof_phm_reg ≤ buf.length ∧ 4 * (phm_reg.of buf).reg.toNat + 4 ≤ len

theorem phantom_write_size {dev : Ptr} {buf : List UInt8} {count : ℕ} {h : Host D}
    (hc : count ≠ sizeof_phm_reg) : phantom_write dev buf count h = (some (-EINVAL), h) :=
  if_pos hc

theorem phantom_write_fault {dev : Ptr} {buf : List UInt8} {h : Host D}
    (hb : buf.length < sizeof_phm_reg) : phantom_write dev buf sizeof_phm_reg h = (none, h) := by
  unfold phantom_write
  rw [if_neg (by simp), if_pos hb]

/-- A write to a device that is bound: the register that the user names is
written, through the mapping of the device. -/
theorem write_bound {node : D → Bool} {m : Driver D} {bound : List D} (hs : Serves node m bound)
    {pdev : D} (hb : pdev ∈ bound) {buf : List UInt8} (hl : sizeof_phm_reg ≤ buf.length)
    (stale : List Access) :
    phantom_write (m.drvdata pdev) buf sizeof_phm_reg ⟨m, stale⟩ = (some (sizeof_phm_reg : ℤ),
      ⟨m.iowrite32 (phm_reg.of buf).value (m.deref (m.drvdata pdev)).iaddr
        (4 * (phm_reg.of buf).reg.toNat), stale⟩) := by
  obtain ⟨x, hx⟩ := hs.live pdev hb
  have hmem := Unplug.iomap_mem hs hb
  rw [m.deref_of hx] at hmem ⊢
  exact phantom_write_eq (h := ⟨m, stale⟩) hl hx ⟨_, hmem, beq_self_eq_true _⟩

variable [DecidableEq D]

/-- **The register window**: a write to a bound device stays inside the mapping,
or fails as it should, if and only if the structure can be read and names a
register of the region. -/
theorem window_iff {es : List (Ev D)} {s : State D} (hs : Machine.run step start es = some s)
    {pdev : D} (hb : pdev ∈ s.bound) (len : ℕ) (buf : List UInt8) (count : ℕ)
    (stale : List Access) :
    let r := phantom_write (s.mod.drvdata pdev) buf count ⟨s.mod, stale⟩
    InWindow pdev (s.mod.deref (s.mod.drvdata pdev)).iaddr len buf count s.mod r.1 r.2.mod ↔
      Fits len buf count := by
  have hi := inv_run hs
  have hl : s.loaded = true := by
    by_contra hl
    rw [(hi.idle (Bool.eq_false_iff.mpr hl)).1] at hb
    cases hb
  obtain ⟨node, hserves⟩ := hi.loaded hl
  simp only
  by_cases hc : count = sizeof_phm_reg
  swap
  · rw [phantom_write_size hc]
    refine iff_of_true ⟨.inl ⟨-EINVAL, by decide, rfl, rfl⟩, fun h => absurd h hc⟩ ?_
    exact fun h => absurd h hc
  subst hc
  by_cases hlen : sizeof_phm_reg ≤ buf.length
  swap
  · rw [phantom_write_fault (by omega)]
    refine iff_of_false (fun h => ?_) fun h => hlen (h rfl).1
    exact absurd (h.fault rfl (by omega)) (by simp)
  rw [write_bound hserves hb hlen]
  constructor
  · rintro ⟨⟨e, he, hret, -⟩ | ⟨-, -, -, hin⟩, -⟩ _
    · obtain rfl := Option.some.inj hret
      exact absurd he (by decide)
    · exact ⟨hlen, hin⟩
  · intro h
    refine ⟨.inr ⟨rfl, Unplug.iomap_mem hserves hb, rfl, (h rfl).2⟩, fun _ hf => ?_⟩
    omega

end Write

/-- A device is bound. -/
def probed : List (Ev Unit) := [.init ⟨.ok 1, .ok 250, none⟩, .probe () Unplug.grants]

/-- The second register of a region of 256 bytes can be written. -/
theorem window_second : ∃ s, Machine.run step start probed = some s ∧
    (let r := phantom_write (s.mod.drvdata ()) [1, 0, 0, 0, 7, 0, 0, 0] 8 ⟨s.mod, []⟩
    InWindow () (s.mod.deref (s.mod.drvdata ())).iaddr 256 [1, 0, 0, 0, 7, 0, 0, 0] 8 s.mod r.1
      r.2.mod) := by
  obtain ⟨s, hs⟩ : ∃ s, Machine.run step start probed = some s := ⟨_, rfl⟩
  have hb : () ∈ s.bound := by
    obtain rfl := Option.some.inj hs
    decide
  have hfits : Fits 256 [1, 0, 0, 0, 7, 0, 0, 0] 8 := fun _ => ⟨by decide, by decide⟩
  exact ⟨s, hs, (window_iff hs hb 256 [1, 0, 0, 0, 7, 0, 0, 0] 8 []).mpr hfits⟩

/-- The register after the last one is written just so. -/
theorem window_past : ∃ s, Machine.run step start probed = some s ∧ () ∈ s.bound ∧
    (let r := phantom_write (s.mod.drvdata ()) [64, 0, 0, 0, 7, 0, 0, 0] 8 ⟨s.mod, []⟩
    ¬ InWindow () (s.mod.deref (s.mod.drvdata ())).iaddr 256 [64, 0, 0, 0, 7, 0, 0, 0] 8 s.mod r.1
      r.2.mod) := by
  obtain ⟨s, hs⟩ : ∃ s, Machine.run step start probed = some s := ⟨_, rfl⟩
  obtain rfl := Option.some.inj hs
  refine ⟨_, rfl, by decide, fun h => ?_⟩
  rcases h.out with ⟨e, he, hret, -⟩ | ⟨-, -, -, hin⟩
  · obtain rfl := Option.some.inj hret
    exact absurd he (by decide)
  · exact absurd hin (by decide)

end Window
end Pb173
