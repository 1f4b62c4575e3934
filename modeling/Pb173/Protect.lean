/-
# mprotect on the read-only pages (10/homework)

Runs of `mmap`, `mprotect` and faults on mappings of `my_device`. The kernel
gives a shared mapping `VM_MAYWRITE` exactly if the file was opened for
writing, and `mprotect` may set `VM_WRITE` exactly where `VM_MAYWRITE` is
set. `my_mmap` tests the protection when the mapping is made and leaves
`VM_MAYWRITE` alone, so a later `mprotect` decides: the read-only pages stay
read-only through shared mappings in a run if and only if no `mprotect` of
the run adds `PROT_WRITE` to a part, starting below page 2, of a shared
mapping of a file opened for writing (`protected_iff`).
-/
import Pb173.Pages
import Pb173.Machine

namespace Pb173
namespace Protect

open Pages

variable {A : Arch} {V P : Type*} [DecidableEq P]

/-- `VM_MAYWRITE`. -/
def maywrite (v : Vma A) : Bool := v.vm_flags.testBit 5

/-- `v` with the protection `prot`, the three low flags. -/
def protect (v : Vma A) (prot : Fin 8) : Vma A :=
  { v with vm_flags := v.vm_flags / 8 * 8 + prot }

/-- A mapping of `my_device`. -/
structure Mapping (A : Arch) (P : Type*) where
  vma : Vma A
  /-- Made with `MAP_SHARED`. -/
  shared : Bool
  /-- The file was opened for writing. -/
  fwrite : Bool
  /-- The faults served through it: their `pgoff` and the page handed out. -/
  served : List (ℕ × P)

structure State (A : Arch) (P : Type*) where
  maps : List (Mapping A P)
  refs : P → ℕ

inductive Ev (A : Arch)
  /-- `mmap`, with the mapping as the kernel sets it up for the driver. -/
  | mmap (vma : Vma A) (shared fwrite : Bool)
  /-- `mprotect` of the pages `a` to `b` of mapping `i`. -/
  | mprotect (i a b : ℕ) (prot : Fin 8)
  /-- A fault on page `k` of mapping `i`. -/
  | fault (i k : ℕ)

/-- The part of a mapping from page `a` to page `b`. -/
def cut (m : Mapping A P) (a b : ℕ) (hab : a < b) (hb : b ≤ m.vma.pages) : Mapping A P :=
  { m with
    vma := m.vma.sub a b hab hb
    served := m.served.filter fun e =>
      (List.range (b - a)).any fun k => (m.vma.sub a b hab hb).pgoffAt k == e.1 }

/-- What an `mprotect` of the pages `a` to `b` makes of a mapping. -/
def split (m : Mapping A P) (a b : ℕ) (prot : Fin 8) (hab : a < b) (hb : b ≤ m.vma.pages) :
    List (Mapping A P) :=
  (if h : 0 < a then [cut m 0 a h (by omega)] else []) ++
    [{ cut m a b hab hb with vma := protect (m.vma.sub a b hab hb) prot }] ++
    (if h : b < m.vma.pages then [cut m b m.vma.pages h le_rfl] else [])

/-- The kernel's rule for the flags of a new mapping. -/
def kernelFlags (v : Vma A) (shared fwrite : Bool) : Bool :=
  (maywrite v == (fwrite || !shared)) && (!v.writable || maywrite v)

/-- `prot` asks for writing. -/
def asksWrite (prot : Fin 8) : Bool := (prot : ℕ).testBit 1

/-- A fault through a mapping, by `my_fault`. -/
def serve (M : Mems V P) (m : Mapping A P) (k : ℕ) (refs : P → ℕ) : Mapping A P :=
  match (my_fault A M (m.vma.pgoffAt k) refs).page with
  | some p => { m with served := (m.vma.pgoffAt k, p) :: m.served }
  | none => m

def step (M : Mems V P) (s : State A P) : Ev A → Option (State A P)
  | .mmap vma shared fwrite =>
    if kernelFlags vma shared fwrite then
      match my_mmap vma with
      | .ok v => some { s with maps := ⟨v, shared, fwrite, []⟩ :: s.maps }
      | .error _ => some s
    else none
  | .mprotect i a b prot =>
    match s.maps[i]? with
    | none => none
    | some m =>
      if h : a < b ∧ b ≤ m.vma.pages then
        if asksWrite prot && !maywrite m.vma then some s
        else some { s with
          maps := s.maps.take i ++ split m a b prot h.1 h.2 ++ s.maps.drop (i + 1) }
      else none
  | .fault i k =>
    match s.maps[i]? with
    | none => none
    | some m =>
      if k < m.vma.pages ∧ m.vma.vm_ops = true then
        some ⟨s.maps.set i (serve M m k s.refs), (my_fault A M (m.vma.pgoffAt k) s.refs).refs⟩
      else none

/-- `my_fault` has served, or can serve, `mem1` or `mem2` through the mapping. -/
def Exposes (M : Mems V P) (m : Mapping A P) (refs : P → ℕ) : Prop :=
  (∃ e ∈ m.served, e.2 = M.virt_to_page M.mem1 ∨ e.2 = M.virt_to_page M.mem2) ∨
  ∃ k < m.vma.pages,
    (my_fault A M (m.vma.pgoffAt k) refs).page = some (M.virt_to_page M.mem1) ∨
    (my_fault A M (m.vma.pgoffAt k) refs).page = some (M.virt_to_page M.mem2)

/-- No shared mapping that exposes the read-only pages can be written through. -/
def Protected (M : Mems V P) (s : State A P) : Prop :=
  ∀ m ∈ s.maps, m.shared = true → Exposes M m s.refs → m.vma.writable = false

/-- The step does not add `PROT_WRITE` to a part, starting below page 2, of a
shared mapping of a file opened for writing. -/
def Spares (s : State A P) : Ev A → Prop
  | .mprotect i a _ prot => ∀ m, s.maps[i]? = some m → asksWrite prot = true →
      m.shared = true → m.fwrite = true → 2 ≤ m.vma.pgoffAt a
  | _ => True

/-! ### Every mapping of a run -/

/-- What a mapping keeps: it lies in the first eight pages, has served pages
of its window, and is shared and may become writable only if the file was
opened for writing. -/
structure Ok (M : Mems V P) (m : Mapping A P) : Prop where
  low : m.vma.vm_pgoff + m.vma.pages ≤ 8
  served : ∀ e ∈ m.served, M.page e.1 = some e.2 ∧ m.vma.vm_pgoff ≤ e.1
  may : m.shared = true → maywrite m.vma = m.fwrite

theorem pages_pos (v : Vma A) : 0 < v.pages := by
  obtain ⟨a, ha⟩ := v.start_aligned
  obtain ⟨b, hb⟩ := v.end_aligned
  have hlt := v.start_lt
  rw [ha, hb] at hlt
  have hab : a < b := lt_of_mul_lt_mul_left hlt (Nat.zero_le _)
  unfold Vma.pages
  rw [ha, hb, ← Nat.mul_sub, Nat.mul_div_cancel_left _ A.PAGE_SIZE_pos]
  omega

omit [DecidableEq P] in
theorem Ok.pgoffAt {M : Mems V P} {m : Mapping A P} (h : Ok M m) {k : ℕ} (hk : k < m.vma.pages) :
    m.vma.pgoffAt k = m.vma.vm_pgoff + k :=
  Nat.mod_eq_of_lt (by have := h.low; have := A.eight_le; omega)

theorem my_fault_page (M : Mems V P) {k : ℕ} (h : k < 8) (refs : P → ℕ) :
    (my_fault A M k refs).page = M.page k := by
  rcases my_fault_eq (A := A) M h refs with ⟨-, p, hp, hf⟩ | ⟨hk, hf⟩
  · rw [hf, hp]
  · rw [hf, M.page_none hk]

/-- A mapping exposes the read-only pages if its window starts on them. -/
theorem Ok.exposes_iff {M : Mems V P} {m : Mapping A P} (h : Ok M m) (refs : P → ℕ) :
    Exposes M m refs ↔ m.vma.vm_pgoff < 2 := by
  have h0 : M.page 0 = some (M.virt_to_page M.mem1) := rfl
  have h1 : M.page 1 = some (M.virt_to_page M.mem2) := rfl
  have hlow := h.low
  constructor
  · rintro (⟨e, he, hp⟩ | ⟨k, hk, hp⟩)
    · obtain ⟨hpe, hle⟩ := h.served e he
      rcases hp with hp | hp <;> rw [hp] at hpe
      · have := M.page_inj hpe h0
        omega
      · have := M.page_inj hpe h1
        omega
    · rw [h.pgoffAt hk, my_fault_page M (by omega)] at hp
      rcases hp with hp | hp
      · have := M.page_inj hp h0
        omega
      · have := M.page_inj hp h1
        omega
  · intro hlt
    refine .inr ⟨0, pages_pos _, ?_⟩
    rw [h.pgoffAt (pages_pos _), my_fault_page M (by omega)]
    have h01 : m.vma.vm_pgoff = 0 ∨ m.vma.vm_pgoff = 1 := by omega
    rcases h01 with he | he <;> rw [he]
    · exact .inl h0
    · exact .inr h1

omit [DecidableEq P] in
theorem Ok.cut {M : Mems V P} {m : Mapping A P} (h : Ok M m) {a b : ℕ} (hab : a < b)
    (hb : b ≤ m.vma.pages) : Ok M (cut m a b hab hb) ∧
      (Protect.cut m a b hab hb).vma.vm_pgoff = m.vma.vm_pgoff + a := by
  have hpg : (Protect.cut m a b hab hb).vma.vm_pgoff = m.vma.vm_pgoff + a :=
    h.pgoffAt (by omega)
  have hlow := h.low
  have hpages : (Protect.cut m a b hab hb).vma.pages = b - a := m.vma.pages_sub hab hb
  refine ⟨⟨by omega, fun e he => ?_, h.may⟩, hpg⟩
  obtain ⟨he, hk⟩ := List.mem_filter.mp he
  obtain ⟨k, hk, hke⟩ := List.any_eq_true.mp hk
  rw [List.mem_range] at hk
  have hek : (m.vma.sub a b hab hb).pgoffAt k = e.1 := by simpa using hke
  rw [m.vma.pgoffAt_sub, h.pgoffAt (by omega)] at hek
  exact ⟨(h.served e he).1, by omega⟩

theorem protect_writable (v : Vma A) (prot : Fin 8) :
    (protect v prot).writable = asksWrite prot := by
  have hp := prot.isLt
  unfold protect Vma.writable asksWrite
  rw [Nat.testBit_eq_decide_div_mod_eq, Nat.testBit_eq_decide_div_mod_eq]
  congr 1
  simp only [eq_iff_iff]
  omega

theorem protect_maywrite (v : Vma A) (prot : Fin 8) : maywrite (protect v prot) = maywrite v := by
  have hp := prot.isLt
  unfold protect maywrite
  rw [Nat.testBit_eq_decide_div_mod_eq, Nat.testBit_eq_decide_div_mod_eq]
  congr 1
  simp only [eq_iff_iff]
  omega

omit [DecidableEq P] in
/-- The parts that an `mprotect` makes: each is as it was, or is the one whose
protection was set. -/
theorem mem_split {M : Mems V P} {m u : Mapping A P} (h : Ok M m) {a b : ℕ} {prot : Fin 8}
    {hab : a < b} {hb : b ≤ m.vma.pages} (hu : u ∈ split m a b prot hab hb) :
    Ok M u ∧ u.shared = m.shared ∧ m.vma.vm_pgoff ≤ u.vma.vm_pgoff ∧
      (u.vma.writable = m.vma.writable ∨
        (u.vma.writable = asksWrite prot ∧ u.vma.vm_pgoff = m.vma.vm_pgoff + a)) := by
  unfold split at hu
  simp only [List.mem_append, List.mem_singleton] at hu
  rcases hu with (hu | rfl) | hu
  · split_ifs at hu with ha
    · rw [List.mem_singleton] at hu
      subst hu
      obtain ⟨h1, h2⟩ := h.cut ha (by omega : a ≤ m.vma.pages)
      exact ⟨h1, rfl, by omega, .inl rfl⟩
    · cases hu
  · obtain ⟨h1, h2⟩ := h.cut hab hb
    refine ⟨⟨h1.low, h1.served, fun hs => ?_⟩, rfl, ?_, .inr ⟨protect_writable _ _, h2⟩⟩
    · rw [protect_maywrite]
      exact h1.may hs
    · have : (Protect.cut m a b hab hb).vma.vm_pgoff = (m.vma.sub a b hab hb).vm_pgoff := rfl
      simp only [protect]
      omega
  · split_ifs at hu with hb'
    · rw [List.mem_singleton] at hu
      subst hu
      obtain ⟨h1, h2⟩ := h.cut hb' le_rfl
      exact ⟨h1, rfl, by omega, .inl rfl⟩
    · cases hu

theorem Ok.serve {M : Mems V P} {m : Mapping A P} (h : Ok M m) {k : ℕ} (hk : k < m.vma.pages)
    (refs : P → ℕ) : Ok M (serve M m k refs) ∧
      (Protect.serve M m k refs).vma = m.vma ∧ (Protect.serve M m k refs).shared = m.shared := by
  unfold Protect.serve
  have hlow := h.low
  split
  · rename_i p hp
    rw [h.pgoffAt hk, my_fault_page M (by omega)] at hp
    refine ⟨⟨h.low, fun e he => ?_, h.may⟩, rfl, rfl⟩
    rcases List.mem_cons.mp he with rfl | he
    · simp only
      rw [h.pgoffAt hk]
      exact ⟨hp, by omega⟩
    · exact h.served e he
  · exact ⟨h, rfl, rfl⟩

omit [DecidableEq P] in
/-- A mapping that `my_mmap` accepts may start below page 2 if it is read-only. -/
theorem Ok.mmap (M : Mems V P) {vma v : Vma A} {shared fwrite : Bool} (hv : my_mmap vma = .ok v)
    (hk : kernelFlags vma shared fwrite = true) :
    Ok M ⟨v, shared, fwrite, []⟩ ∧ (v.vm_pgoff < 2 → v.writable = false) := by
  obtain ⟨rfl, hle, hpg, hro⟩ := my_mmap_ok hv
  refine ⟨⟨?_, fun e he => by simp at he, fun hs => ?_⟩, hro⟩
  · show vma.vm_pgoff + vma.pages ≤ 8
    omega
  · simp only at hs
    subst hs
    simp only [kernelFlags, Bool.and_eq_true, beq_iff_eq] at hk
    show maywrite vma = fwrite
    simpa using hk.1

/-- Where a mapping after a step is from: it is new, it was there, or it is a
part of one that `mprotect` was called on. -/
def From (s : State A P) (e : Ev A) (u : Mapping A P) : Prop :=
  (u.vma.vm_pgoff < 2 → u.vma.writable = false) ∨
    (∃ m ∈ s.maps, u.shared = m.shared ∧ m.vma.vm_pgoff ≤ u.vma.vm_pgoff ∧
      u.vma.writable = m.vma.writable) ∨
    (∃ i a b prot m, e = .mprotect i a b prot ∧ s.maps[i]? = some m ∧ u.shared = m.shared ∧
      u.vma.writable = asksWrite prot ∧ u.vma.vm_pgoff = m.vma.pgoffAt a ∧
      (asksWrite prot = true → maywrite m.vma = true))

theorem step_maps {M : Mems V P} {s t : State A P} {e : Ev A}
    (hok : ∀ m ∈ s.maps, Ok M m) (he : step M s e = some t) {u : Mapping A P} (hu : u ∈ t.maps) :
    Ok M u ∧ From s e u := by
  have hold : ∀ m ∈ s.maps, Ok M m ∧ From s e m :=
    fun m hm => ⟨hok m hm, .inr (.inl ⟨m, hm, rfl, le_rfl, rfl⟩)⟩
  cases e with
  | mmap vma shared fwrite =>
    simp only [step] at he
    split_ifs at he with hk
    split at he
    · rename_i v hv
      obtain rfl := Option.some.inj he
      rcases List.mem_cons.mp hu with rfl | hu
      · obtain ⟨h1, hro⟩ := Ok.mmap M hv hk
        exact ⟨h1, .inl hro⟩
      · exact hold u hu
    · obtain rfl := Option.some.inj he
      exact hold u hu
  | mprotect i a b prot =>
    simp only [step] at he
    split at he
    · cases he
    · rename_i m hm
      have hmem := List.mem_of_getElem? hm
      split_ifs at he with hab hd
      · obtain rfl := Option.some.inj he
        exact hold u hu
      · obtain rfl := Option.some.inj he
        simp only [List.mem_append] at hu
        rcases hu with (hu | hu) | hu
        · exact hold u (List.mem_of_mem_take hu)
        · obtain ⟨h1, h2, h3, h4⟩ := mem_split (hok m hmem) hu
          refine ⟨h1, ?_⟩
          rcases h4 with h4 | ⟨h4, h5⟩
          · exact .inr (.inl ⟨m, hmem, h2, h3, h4⟩)
          · refine .inr (.inr ⟨i, a, b, prot, m, rfl, hm, h2, h4, ?_, fun hp => ?_⟩)
            · rw [h5, (hok m hmem).pgoffAt (by omega)]
            · simpa [hp] using hd
        · exact hold u (List.mem_of_mem_drop hu)
  | fault i k =>
    simp only [step] at he
    split at he
    · cases he
    · rename_i m hm
      have hmem := List.mem_of_getElem? hm
      split_ifs at he with hk
      obtain rfl := Option.some.inj he
      rcases List.mem_or_eq_of_mem_set hu with hu | rfl
      · exact hold u hu
      · obtain ⟨h1, h2, h3⟩ := (hok m hmem).serve hk.1 s.refs
        exact ⟨h1, .inr (.inl ⟨m, hmem, h3, by rw [h2], by rw [h2]⟩)⟩

/-- No mapping yet. -/
def start (refs : P → ℕ) : State A P := ⟨[], refs⟩

theorem run_ok {M : Mems V P} {refs : P → ℕ} {es : List (Ev A)} {s : State A P}
    (h : Machine.run (step M) (start refs) es = some s) : ∀ m ∈ s.maps, Ok M m :=
  Machine.run_inv _ (fun s => ∀ m ∈ s.maps, Ok M m) (fun m hm => by cases hm)
    (fun _ _ _ hi he _ hu => (step_maps hi he hu).1) h

theorem protected_of {M : Mems V P} {s : State A P} (hok : ∀ m ∈ s.maps, Ok M m) :
    Protected M s ↔
      ∀ m ∈ s.maps, m.shared = true → m.vma.vm_pgoff < 2 → m.vma.writable = false := by
  unfold Protected
  constructor
  · exact fun h m hm hs hlt => h m hm hs (((hok m hm).exposes_iff s.refs).mpr hlt)
  · exact fun h m hm hs hx => h m hm hs (((hok m hm).exposes_iff s.refs).mp hx)

/-- A step that spares the read-only pages keeps them read-only. -/
theorem step_protected {M : Mems V P} {s t : State A P} {e : Ev A}
    (hok : ∀ m ∈ s.maps, Ok M m) (hp : Protected M s) (hc : Spares s e)
    (he : step M s e = some t) : Protected M t := by
  rw [protected_of hok] at hp
  rw [protected_of fun u hu => (step_maps hok he hu).1]
  intro u hu hs hlt
  rcases (step_maps hok he hu).2 with h | ⟨m, hm, h1, h2, h3⟩ |
    ⟨i, a, b, prot, m, rfl, hm, h1, h2, h3, h4⟩
  · exact h hlt
  · rw [h3]
    exact hp m hm (h1 ▸ hs) (by omega)
  · rw [h2]
    by_contra hw
    have hw' : asksWrite prot = true := by simpa using hw
    have hsm : m.shared = true := h1 ▸ hs
    have hf := (hok m (List.mem_of_getElem? hm)).may hsm
    rw [h4 hw'] at hf
    have := hc m hm hw' hsm hf.symm
    omega

/-- One that does not leaves a read-only page writable. -/
theorem spares_of_protected {M : Mems V P} {s t : State A P} {e : Ev A}
    (hok : ∀ m ∈ s.maps, Ok M m) (he : step M s e = some t) (hp : Protected M t) : Spares s e := by
  cases e with
  | mmap vma shared fwrite => trivial
  | fault i k => trivial
  | mprotect i a b prot =>
    intro m hm hw hsm hfm
    have hmem := List.mem_of_getElem? hm
    have hmay : maywrite m.vma = true := ((hok m hmem).may hsm).trans hfm
    rw [protected_of fun u hu => (step_maps hok he hu).1] at hp
    simp only [step, hm] at he
    split_ifs at he with hab hd
    · simp [hmay] at hd
    · obtain rfl := Option.some.inj he
      by_contra hlt
      have hmid : (⟨protect (m.vma.sub a b hab.1 hab.2) prot, m.shared, m.fwrite,
          (Protect.cut m a b hab.1 hab.2).served⟩ : Mapping A P) ∈
          s.maps.take i ++ split m a b prot hab.1 hab.2 ++ s.maps.drop (i + 1) := by
        simp [split, Protect.cut]
      have hro := hp _ hmid hsm (by simpa [protect, Vma.sub] using hlt)
      rw [protect_writable, hw] at hro
      cases hro

/-- **The read-only pages stay read-only** in every state of a run exactly if
every `mprotect` of the run spares them. -/
theorem protected_iff (M : Mems V P) (refs : P → ℕ) {es : List (Ev A)} {s : State A P}
    (h : Machine.run (step M) (start refs) es = some s) :
    Machine.Visits (step M) (Protected M) (start refs) es ↔
      Machine.Always (step M) Spares (start refs) es := by
  constructor
  · intro hv pre e hp u hu
    obtain ⟨t, ht⟩ := Machine.run_through (step M) hp h
    obtain ⟨u', hu', he⟩ := (Machine.run_concat_eq_some (step M)).mp ht
    rw [hu] at hu'
    cases hu'
    exact spares_of_protected (run_ok hu) he (hv _ hp t ht)
  · intro hc
    have hv := Machine.visits_of_always (P := fun s => (∀ m ∈ s.maps, Ok M m) ∧ Protected M s)
      ⟨fun m hm => (by cases hm), fun m hm => (by cases hm)⟩
      (fun _ _ _ hi hce he =>
        ⟨fun _ hu => (step_maps hi.1 he hu).1, step_protected hi.1 hi.2 hce he⟩) hc
    exact fun pre hp s hs => (hv pre hp s hs).2

/-- The read-only window of the user test, mapped shared from a file opened
for reading and writing. -/
def map1 : Vma amd64 :=
  ⟨0x10000, 0x12000, 0, 0x71, false, map2.start_lt, map2.end_lt, map2.start_aligned,
    map2.end_aligned, amd64_pos⟩

/-- `mprotect` makes it writable. -/
theorem mprotect_map1 : ∃ s,
    Machine.run (step fourPages) (start fun _ => 1)
      [.mmap map1 true true, .mprotect 0 0 2 3, .fault 0 1] = some s ∧
    ¬ Protected fourPages s := by
  refine ⟨_, rfl, fun hp => ?_⟩
  have := hp _ List.mem_cons_self rfl (.inr ⟨1, by decide, .inr rfl⟩)
  revert this
  decide

/-- An `mprotect` that asks for reading only leaves the window read-only. -/
theorem protected_map1 :
    Machine.Visits (step fourPages) (Protected fourPages) (start fun _ => 1)
      [.mmap map1 true true, .mprotect 0 0 1 1] := by
  refine (protected_iff fourPages (fun _ => 1) rfl).mpr ?_
  refine Machine.always_cons.mpr ⟨trivial, fun t _ => ?_⟩
  refine Machine.always_cons.mpr ⟨fun m _ hask => ?_, fun _ _ => Machine.always_nil⟩
  exact absurd hask (by decide)

end Protect
end Pb173
