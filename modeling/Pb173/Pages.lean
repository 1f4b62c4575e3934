/-
# The four pages of my_device (10/homework)

`my_mmap` checks the length of a mapping, its first page and its protection;
`my_fault` finds the page of a fault from `vmf->pgoff << PAGE_SHIFT`, page by
page. For a word of `w` bits every shift and product is taken mod `2 ^ w`.
On the windows `my_mmap` accepts nothing wraps, so a fault on page `k` of
the device gets page `k` of `mem1..mem4` or, past them, `VM_FAULT_SIGBUS`
(`my_fault_eq`), and a mapping accepted with `VM_WRITE` starts at page 2
(`my_mmap_ok`). The kernel may split or trim an accepted mapping: what is
left of it faults on pages of the same window (`Piece.window`).
-/
import Pb173.Kernel
import Mathlib.Logic.Function.Basic
import Mathlib.Data.Nat.Bitwise
import Mathlib.Data.List.Nodup
import Mathlib.Tactic.IntervalCases

namespace Pb173
namespace Pages

/-- The word size and the page size of a machine. Four pages are addressable:
the constants of the source are computed without wrapping. -/
structure Arch where
  w : ℕ
  PAGE_SHIFT : ℕ
  fits : PAGE_SHIFT + 3 ≤ w

/-- `1UL << PAGE_SHIFT`. -/
def Arch.PAGE_SIZE (A : Arch) : ℕ := 2 ^ A.PAGE_SHIFT

/-- A product of `unsigned long`s. -/
def Arch.mul (A : Arch) (a b : ℕ) : ℕ := a * b % 2 ^ A.w

/-- `mem1..mem4` and the pages they lie on. -/
structure Mems (V P : Type*) where
  mem1 : V
  mem2 : V
  mem3 : V
  mem4 : V
  virt_to_page : V → P
  distinct : ([mem1, mem2, mem3, mem4].map virt_to_page).Nodup

/-- The pages in order. -/
def Mems.page {V P : Type*} (M : Mems V P) (k : ℕ) : Option P :=
  ([M.mem1, M.mem2, M.mem3, M.mem4].map M.virt_to_page)[k]?

/-- `my_find_page`. -/
def my_find_page {V P : Type*} (A : Arch) (M : Mems V P) (offset : ℕ) : Option P :=
  if offset ≥ 0 ∧ offset < A.PAGE_SIZE then some (M.virt_to_page M.mem1)
  else if offset ≥ A.PAGE_SIZE ∧ offset < A.mul 2 A.PAGE_SIZE then some (M.virt_to_page M.mem2)
  else if offset ≥ A.PAGE_SIZE ∧ offset < A.mul 3 A.PAGE_SIZE then some (M.virt_to_page M.mem3)
  else if offset ≥ A.PAGE_SIZE ∧ offset < A.mul 4 A.PAGE_SIZE then some (M.virt_to_page M.mem4)
  else none

def VM_FAULT_SIGBUS : ℕ := 2

/-- What a fault does: its return value, `vmf->page`, and the references on
the pages. -/
structure FaultOut (P : Type*) where
  ret : ℕ
  page : Option P
  refs : P → ℕ

/-- `my_fault`, with `get_page` counting in `refs`. -/
def my_fault {V P : Type*} [DecidableEq P] (A : Arch) (M : Mems V P) (pgoff : ℕ) (refs : P → ℕ) :
    FaultOut P :=
  let offset := (pgoff <<< A.PAGE_SHIFT) % 2 ^ A.w
  match my_find_page A M offset with
  | none => ⟨VM_FAULT_SIGBUS, none, refs⟩
  | some page => ⟨0, some page, Function.update refs page (refs page + 1)⟩

def VM_READ : ℕ := 1
def VM_WRITE : ℕ := 2

/-- A mapping of the kernel: not empty, and page-aligned. `vm_ops` says that
the module serves its faults. -/
structure Vma (A : Arch) where
  vm_start : ℕ
  vm_end : ℕ
  vm_pgoff : ℕ
  vm_flags : ℕ
  vm_ops : Bool
  start_lt : vm_start < vm_end
  end_lt : vm_end < 2 ^ A.w
  start_aligned : A.PAGE_SIZE ∣ vm_start
  end_aligned : A.PAGE_SIZE ∣ vm_end
  pgoff_lt : vm_pgoff < 2 ^ A.w

variable {A : Arch}

/-- The number of pages of a mapping. -/
def Vma.pages (v : Vma A) : ℕ := (v.vm_end - v.vm_start) / A.PAGE_SIZE

/-- The mapping can be written through. -/
def Vma.writable (v : Vma A) : Bool := v.vm_flags.testBit 1

/-- `vmf->pgoff` of a fault on page `k` of the mapping. -/
def Vma.pgoffAt (v : Vma A) (k : ℕ) : ℕ := (v.vm_pgoff + k) % 2 ^ A.w

/-- `my_mmap`: an error, or the mapping as the driver leaves it. -/
def my_mmap (vma : Vma A) : Except ℤ (Vma A) :=
  let pgoff := vma.vm_pgoff
  if vma.vm_end - vma.vm_start > A.mul 2 A.PAGE_SIZE then .error (-EINVAL)
  else if pgoff < 0 ∨ pgoff > 4 then .error (-EINVAL)
  else if (pgoff ≥ 0 ∧ pgoff < 2) ∧ vma.vm_flags &&& (VM_WRITE ||| VM_READ) ≠ VM_READ then
    .error (-EINVAL)
  else if (pgoff ≥ 2 ∧ pgoff < 4) ∧
      vma.vm_flags &&& (VM_WRITE ||| VM_READ) ≠ (VM_READ ||| VM_WRITE) then
    .error (-EINVAL)
  else .ok { vma with vm_ops := true }

/-! ### No wrapping -/

theorem Arch.PAGE_SIZE_pos (A : Arch) : 0 < A.PAGE_SIZE := Nat.two_pow_pos _

theorem Arch.lt_pow {A : Arch} {k : ℕ} (h : k < 8) : k * A.PAGE_SIZE < 2 ^ A.w := by
  have h8 : 8 * A.PAGE_SIZE = 2 ^ (A.PAGE_SHIFT + 3) := by
    unfold Arch.PAGE_SIZE
    rw [pow_add]
    omega
  calc k * A.PAGE_SIZE < 8 * A.PAGE_SIZE := Nat.mul_lt_mul_of_pos_right h A.PAGE_SIZE_pos
    _ = 2 ^ (A.PAGE_SHIFT + 3) := h8
    _ ≤ 2 ^ A.w := Nat.pow_le_pow_right (by omega) A.fits

theorem Arch.mul_eq {A : Arch} {k : ℕ} (h : k < 8) : A.mul k A.PAGE_SIZE = k * A.PAGE_SIZE :=
  Nat.mod_eq_of_lt (Arch.lt_pow h)

theorem Arch.eight_le (A : Arch) : 8 ≤ 2 ^ A.w :=
  calc 8 = 2 ^ 3 := rfl
    _ ≤ 2 ^ A.w := Nat.pow_le_pow_right (by omega) (by have := A.fits; omega)

section Fault

variable {V P : Type*} (M : Mems V P)

/-- Below eight pages the four ranges of `my_find_page` are the page numbers. -/
theorem my_find_page_eq {k : ℕ} (h : k < 8) :
    my_find_page A M ((k <<< A.PAGE_SHIFT) % 2 ^ A.w) = M.page k := by
  have hoff : (k <<< A.PAGE_SHIFT) % 2 ^ A.w = k * A.PAGE_SIZE := by
    rw [Nat.shiftLeft_eq]
    exact Arch.mul_eq h
  have hpos := A.PAGE_SIZE_pos
  unfold my_find_page
  rw [hoff, Arch.mul_eq (by omega), Arch.mul_eq (by omega), Arch.mul_eq (by omega)]
  interval_cases k
  · rw [if_pos ⟨by omega, by omega⟩]
    rfl
  · rw [if_neg (by omega), if_pos ⟨by omega, by omega⟩]
    rfl
  · rw [if_neg (by omega), if_neg (by omega), if_pos ⟨by omega, by omega⟩]
    rfl
  · rw [if_neg (by omega), if_neg (by omega), if_neg (by omega), if_pos ⟨by omega, by omega⟩]
    rfl
  all_goals
    rw [if_neg (by omega), if_neg (by omega), if_neg (by omega), if_neg (by omega)]
    rfl

theorem Mems.page_isSome {k : ℕ} (h : k < 4) : ∃ p, M.page k = some p := by
  interval_cases k <;> exact ⟨_, rfl⟩

theorem Mems.page_none {k : ℕ} (h : 4 ≤ k) : M.page k = none :=
  List.getElem?_eq_none (by simpa using h)

theorem Mems.page_inj {j k : ℕ} {p : P} (hj : M.page j = some p) (hk : M.page k = some p) :
    j = k := by
  obtain ⟨hj', rfl⟩ := List.getElem?_eq_some_iff.mp hj
  obtain ⟨hk', he⟩ := List.getElem?_eq_some_iff.mp hk
  exact ((List.Nodup.getElem_inj_iff M.distinct).mp he).symm

variable [DecidableEq P]

/-- **A fault below page 8 of the device.** -/
theorem my_fault_eq {k : ℕ} (h : k < 8) (refs : P → ℕ) :
    (k < 4 ∧ ∃ p, M.page k = some p ∧
      my_fault A M k refs = ⟨0, some p, Function.update refs p (refs p + 1)⟩) ∨
    (4 ≤ k ∧ my_fault A M k refs = ⟨VM_FAULT_SIGBUS, none, refs⟩) := by
  unfold my_fault
  simp only [my_find_page_eq M h]
  rcases Nat.lt_or_ge k 4 with hk | hk
  · obtain ⟨p, hp⟩ := M.page_isSome hk
    exact .inl ⟨hk, p, hp, by rw [hp]⟩
  · exact .inr ⟨hk, by rw [M.page_none hk]⟩

end Fault

/-! ### What `my_mmap` accepts -/

theorem testBit_of_and {f : ℕ} (h : f &&& (VM_WRITE ||| VM_READ) = VM_READ) :
    f.testBit 1 = false := by
  have h3 : f % 2 ^ 2 = 1 := by
    rw [← Nat.and_two_pow_sub_one_eq_mod]
    exact h
  rw [Nat.testBit_eq_decide_div_mod_eq]
  simp only [decide_eq_false_iff_not]
  omega

/-- An accepted mapping is the one asked for, served by the module; it starts
at page 0 to 4, has one or two pages, and is read-only if it starts below
page 2. -/
theorem my_mmap_ok {v v' : Vma A} (h : my_mmap v = .ok v') :
    v' = { v with vm_ops := true } ∧ v.vm_pgoff ≤ 4 ∧ v.pages ≤ 2 ∧
      (v.vm_pgoff < 2 → v.writable = false) := by
  unfold my_mmap at h
  simp only at h
  split_ifs at h with h1 h2 h3 h4
  refine ⟨(Except.ok.inj h).symm, by omega, ?_, fun hp => ?_⟩
  · rw [Arch.mul_eq (by omega)] at h1
    exact Nat.div_le_of_le_mul (by rw [Nat.mul_comm]; omega)
  · refine testBit_of_and ?_
    by_contra hne
    exact h3 ⟨⟨by omega, hp⟩, hne⟩

/-- `v` cut down to its pages `a` to `b`, as the kernel does when it splits or
trims a mapping. -/
def Vma.sub (v : Vma A) (a b : ℕ) (hab : a < b) (hb : b ≤ v.pages) : Vma A where
  vm_start := v.vm_start + a * A.PAGE_SIZE
  vm_end := v.vm_start + b * A.PAGE_SIZE
  vm_pgoff := v.pgoffAt a
  vm_flags := v.vm_flags
  vm_ops := v.vm_ops
  start_lt := Nat.add_lt_add_left (Nat.mul_lt_mul_of_pos_right hab A.PAGE_SIZE_pos) _
  end_lt := by
    have h1 : b * A.PAGE_SIZE ≤ v.vm_end - v.vm_start :=
      (Nat.mul_le_mul_right _ hb).trans (Nat.div_mul_le_self _ _)
    have := v.start_lt
    have := v.end_lt
    omega
  start_aligned := (Nat.dvd_add_right v.start_aligned).mpr (Nat.dvd_mul_left _ _)
  end_aligned := (Nat.dvd_add_right v.start_aligned).mpr (Nat.dvd_mul_left _ _)
  pgoff_lt := Nat.mod_lt _ (Nat.two_pow_pos _)

theorem Vma.pages_sub (v : Vma A) {a b : ℕ} (hab : a < b) (hb : b ≤ v.pages) :
    (v.sub a b hab hb).pages = b - a := by
  have h : v.vm_start + b * A.PAGE_SIZE - (v.vm_start + a * A.PAGE_SIZE) =
      (b - a) * A.PAGE_SIZE := by
    rw [Nat.add_sub_add_left, ← Nat.sub_mul]
  show (v.vm_start + b * A.PAGE_SIZE - (v.vm_start + a * A.PAGE_SIZE)) / A.PAGE_SIZE = b - a
  rw [h, Nat.mul_div_cancel _ A.PAGE_SIZE_pos]

theorem Vma.pgoffAt_sub (v : Vma A) {a b : ℕ} (hab : a < b) (hb : b ≤ v.pages) (k : ℕ) :
    (v.sub a b hab hb).pgoffAt k = v.pgoffAt (a + k) := by
  show ((v.vm_pgoff + a) % 2 ^ A.w + k) % 2 ^ A.w = _
  rw [Nat.mod_add_mod, Nat.add_assoc]
  rfl

/-- What is left of a mapping after any number of splits and trims. -/
inductive Piece (v : Vma A) : Vma A → Prop
  | refl : Piece v v
  | sub {u : Vma A} (h : Piece v u) (a b : ℕ) (hab : a < b) (hb : b ≤ u.pages) :
      Piece v (u.sub a b hab hb)

/-- A piece faults on pages of the window it was cut from. -/
theorem Piece.window {v u : Vma A} (h : Piece v u) :
    ∃ a, a + u.pages ≤ v.pages ∧ ∀ k, u.pgoffAt k = v.pgoffAt (a + k) := by
  induction h with
  | refl => exact ⟨0, by omega, fun k => by rw [Nat.zero_add]⟩
  | @sub u _ a b hab hb ih =>
    obtain ⟨c, hc, hk⟩ := ih
    refine ⟨c + a, ?_, fun k => ?_⟩
    · rw [u.pages_sub hab hb]
      omega
    · rw [u.pgoffAt_sub hab hb, hk, Nat.add_assoc]

theorem pgoffAt_eq {v v' : Vma A} (h : my_mmap v = .ok v') {k : ℕ} (hk : k < v.pages) :
    v.pgoffAt k = v.vm_pgoff + k ∧ v.vm_pgoff + k < 8 := by
  obtain ⟨-, h1, h2, -⟩ := my_mmap_ok h
  have := A.eight_le
  exact ⟨Nat.mod_eq_of_lt (by omega), by omega⟩

/-! ### The contract -/

section Contract

variable {V P : Type*} [DecidableEq P] (M : Mems V P)

/-- **Page resolution and write protection.** A fault in what is left of an
accepted mapping gets the page of its number, with one reference, or
`VM_FAULT_SIGBUS` and none, the latter exactly past the four pages; through
a mapping accepted with `VM_WRITE` it never gets `mem1` or `mem2`. -/
theorem page_resolution {v v' u : Vma A} (h : my_mmap v = .ok v') (hu : Piece v' u) {k : ℕ}
    (hk : k < u.pages) (refs : P → ℕ) :
    ((u.pgoffAt k < 4 ∧ ∃ p, M.page (u.pgoffAt k) = some p ∧
        my_fault A M (u.pgoffAt k) refs = ⟨0, some p, Function.update refs p (refs p + 1)⟩) ∨
      (4 ≤ u.pgoffAt k ∧
        my_fault A M (u.pgoffAt k) refs = ⟨VM_FAULT_SIGBUS, none, refs⟩)) ∧
    (v.writable = true →
      (my_fault A M (u.pgoffAt k) refs).page ≠ some (M.virt_to_page M.mem1) ∧
      (my_fault A M (u.pgoffAt k) refs).page ≠ some (M.virt_to_page M.mem2)) := by
  obtain ⟨hv', hle, hpg, hro⟩ := my_mmap_ok h
  obtain ⟨a, ha, hw⟩ := hu.window
  have hpages : v'.pages = v.pages := by rw [hv']; rfl
  have hoff : ∀ j, v'.pgoffAt j = v.pgoffAt j := by rw [hv']; exact fun _ => rfl
  obtain ⟨he, h8⟩ := pgoffAt_eq h (k := a + k) (by omega)
  rw [hw, hoff, he]
  have hf := my_fault_eq (A := A) M h8 refs
  refine ⟨hf, fun hwr => ?_⟩
  have h2 : 2 ≤ v.vm_pgoff := by
    by_contra hc
    rw [hro (by omega)] at hwr
    cases hwr
  rcases hf with ⟨-, p, hp, hf⟩ | ⟨-, hf⟩
  · rw [hf]
    constructor
    · intro hp1
      have h1 : M.page 0 = some p := hp1.symm
      have := M.page_inj h1 hp
      omega
    · intro hp2
      have h1 : M.page 1 = some p := hp2.symm
      have := M.page_inj h1 hp
      omega
  · rw [hf]
    constructor <;> intro hc <;> cases hc

/-! ### Windows that are accepted and not served -/

omit [DecidableEq P] in
theorem Vma.pages_pos (v : Vma A) : 0 < v.pages := by
  have hdvd := Nat.dvd_sub v.end_aligned v.start_aligned
  have hpos := Nat.sub_pos_of_lt v.start_lt
  exact Nat.div_pos (Nat.le_of_dvd hpos hdvd) A.PAGE_SIZE_pos

omit [DecidableEq P] in
theorem my_mmap_flags {v v' : Vma A} (h : my_mmap v = .ok v') :
    (v.vm_pgoff < 2 → v.vm_flags &&& (VM_WRITE ||| VM_READ) = VM_READ) ∧
      (2 ≤ v.vm_pgoff → v.vm_pgoff < 4 →
        v.vm_flags &&& (VM_WRITE ||| VM_READ) = VM_READ ||| VM_WRITE) := by
  unfold my_mmap at h
  simp only at h
  split_ifs at h with h1 h2 h3 h4
  constructor
  · intro hp
    by_contra hne
    exact h3 ⟨⟨Nat.zero_le _, hp⟩, hne⟩
  · intro hp hp'
    by_contra hne
    exact h4 ⟨⟨hp, hp'⟩, hne⟩

/-- The window lies in the four pages, each fault in it gets its page, and its
protection is that of the pages it starts with. -/
structure Served (v : Vma A) : Prop where
  inside : ∀ k, k < v.pages → v.vm_pgoff + k < 4
  fault : ∀ k, k < v.pages → ∀ refs, ∃ p, M.page (v.vm_pgoff + k) = some p ∧
    my_fault A M (v.pgoffAt k) refs = ⟨0, some p, Function.update refs p (refs p + 1)⟩
  read_only : v.vm_pgoff < 2 → v.vm_flags &&& (VM_WRITE ||| VM_READ) = VM_READ
  read_write : 2 ≤ v.vm_pgoff → v.vm_flags &&& (VM_WRITE ||| VM_READ) = VM_READ ||| VM_WRITE

/-- **What `my_mmap` accepts it can serve**, but for windows from page 4 on, and
those of two pages from page 3 on. -/
theorem served_iff {v v' : Vma A} (h : my_mmap v = .ok v') :
    Served M v ↔ v.vm_pgoff < 4 ∧ (v.vm_pgoff = 3 → v.pages = 1) := by
  obtain ⟨-, -, hpages, -⟩ := my_mmap_ok h
  have hpos := v.pages_pos
  constructor
  · intro hs
    have h0 := hs.inside 0 hpos
    refine ⟨h0, fun h3 => ?_⟩
    by_contra h1
    have := hs.inside 1 (by omega)
    omega
  · rintro ⟨h4, h3⟩
    obtain ⟨hro, hrw⟩ := my_mmap_flags h
    have hin : ∀ k, k < v.pages → v.vm_pgoff + k < 4 := by
      intro k hk
      by_cases hthree : v.vm_pgoff = 3
      · have := h3 hthree
        omega
      · omega
    refine ⟨hin, fun k hk refs => ?_, hro, fun h2 => hrw h2 h4⟩
    obtain ⟨heq, h8⟩ := pgoffAt_eq h hk
    rw [heq]
    rcases my_fault_eq (A := A) M h8 refs with ⟨-, p, hp, hf⟩ | ⟨hge, -⟩
    · exact ⟨p, hp, hf⟩
    · exact absurd (hin k hk) (by omega)

end Contract

/-- A 64-bit machine with pages of 4096 bytes. -/
def amd64 : Arch := ⟨64, 12, by decide⟩

/-- Four pages. -/
def fourPages : Mems (Fin 4) (Fin 4) := ⟨0, 1, 2, 3, id, by decide⟩

theorem amd64_pos : 0 < 2 ^ amd64.w := by decide

/-- The writable window of the user test: two pages from page 2 on. -/
def map2 : Vma amd64 :=
  ⟨0x10000, 0x12000, 2, 3, false, by decide, by decide, by decide, by decide, by decide⟩

theorem page_resolution_map2 :
    (my_fault amd64 fourPages 3 (fun _ => 1)).page ≠ some 0 ∧
      (my_fault amd64 fourPages 3 (fun _ => 1)).page ≠ some 1 :=
  (page_resolution fourPages (v := map2) (u := { map2 with vm_ops := true }) rfl .refl (k := 1)
    (by decide) fun _ => 1).2 rfl

/-- Two pages from page 2 on are served. -/
theorem served_map2 : Served fourPages map2 := by
  have haccept : my_mmap map2 = .ok { map2 with vm_ops := true } := rfl
  exact (served_iff fourPages haccept).mpr ⟨by decide, by decide⟩

/-- Two pages from page 3 on. -/
def map3 : Vma amd64 :=
  ⟨0x10000, 0x12000, 3, 3, false, by decide, by decide, by decide, by decide, by decide⟩

/-- They are accepted, and the fault on the second one is not served. -/
theorem map3_sigbus : my_mmap map3 = .ok { map3 with vm_ops := true } ∧
    (my_fault amd64 fourPages (map3.pgoffAt 1) fun _ => 1).ret = VM_FAULT_SIGBUS ∧
      ¬ Served fourPages map3 := by
  refine ⟨rfl, by decide, fun h => ?_⟩
  exact absurd (h.inside 1 (by decide)) (by decide)

end Pages
end Pb173
