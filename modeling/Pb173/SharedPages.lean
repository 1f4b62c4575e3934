/-
# What the users see of the four pages (10/homework)

Stores and loads through the shared mappings of `Protect`. An access goes to the
page that a fault on its place has put there. Whoever loads a byte through
whatever mapping gets what was stored last at that byte of the device, through
whatever mapping, or what was there from the start (`coherent`): the device is one
memory of four pages. And if no `mprotect` makes a part writable that should stay
read-only, the first two pages keep their texts (`untouched`).
-/
import Pb173.Protect

namespace Pb173
namespace SharedPages

open Pages
open Protect (Mapping Ok)

variable {A : Arch} {V P : Type*} [DecidableEq P]

/-- The mappings, the contents of the pages, and what has been stored: the page of
the device, the offset in it and the byte. -/
structure State (A : Arch) (P : Type*) where
  vm : Protect.State A P
  mem : P → ℕ → UInt8
  stores : List (ℕ × ℕ × UInt8)

inductive Ev (A : Arch)
  | vm (e : Protect.Ev A)
  /-- A store at the offset `x` of page `k` of mapping `i`. -/
  | store (i k x : ℕ) (v : UInt8)

omit [DecidableEq P] in
/-- The page that a fault has put there. -/
def frame (m : Mapping A P) (k : ℕ) : Option P :=
  (m.served.find? fun e => e.1 == m.vma.pgoffAt k).map Prod.snd

/-- There is such a place in the mapping. -/
def Within (m : Mapping A P) (k x : ℕ) : Prop := k < m.vma.pages ∧ x < A.PAGE_SIZE

instance (m : Mapping A P) (k x : ℕ) : Decidable (Within m k x) := inferInstanceAs (Decidable (_ ∧ _))

def poke (mem : P → ℕ → UInt8) (p : P) (x : ℕ) (v : UInt8) : P → ℕ → UInt8 :=
  Function.update mem p (Function.update (mem p) x v)

/-- What is stored through a private mapping stays with its process. -/
def step (M : Mems V P) (s : State A P) : Ev A → Option (State A P)
  | .vm e => (Protect.step M s.vm e).map fun t => { s with vm := t }
  | .store i k x v =>
    match s.vm.maps[i]? with
    | none => none
    | some m =>
      if m.shared = true ∧ m.vma.writable = true ∧ Within m k x then
        (frame m k).map fun p => { s with
          mem := poke s.mem p x v
          stores := s.stores ++ [(m.vma.pgoffAt k, x, v)] }
      else none

/-- What is loaded at the offset `x` of page `k` of mapping `i`. -/
def load (s : State A P) (i k x : ℕ) : Option UInt8 :=
  match s.vm.maps[i]? with
  | none => none
  | some m =>
    if m.shared = true ∧ m.vma.vm_flags.testBit 0 = true ∧ Within m k x then
      (frame m k).map fun p => s.mem p x
    else none

def start (refs : P → ℕ) (mem : P → ℕ → UInt8) : State A P := ⟨Protect.start refs, mem, []⟩

/-! ### The device -/

/-- A memory after some stores. -/
def replay (dev : ℕ → ℕ → UInt8) (l : List (ℕ × ℕ × UInt8)) : ℕ → ℕ → UInt8 :=
  l.foldl (fun d e => Function.update d e.1 (Function.update (d e.1) e.2.1 e.2.2)) dev

theorem replay_concat (dev : ℕ → ℕ → UInt8) (l : List (ℕ × ℕ × UInt8)) (j x : ℕ) (v : UInt8) :
    replay dev (l ++ [(j, x, v)]) =
      Function.update (replay dev l) j (Function.update (replay dev l j) x v) := by
  unfold replay
  rw [List.foldl_append]
  rfl

omit [DecidableEq P] in
/-- What the pages hold, by their numbers. -/
def device (M : Mems V P) (mem : P → ℕ → UInt8) (j : ℕ) : ℕ → UInt8 :=
  match M.page j with
  | some p => mem p
  | none => fun _ => 0

/-- The mappings are as in `Protect`, and the pages hold what was stored in them. -/
structure Inv (M : Mems V P) (mem₀ : P → ℕ → UInt8) (s : State A P) : Prop where
  ok : ∀ m ∈ s.vm.maps, Ok M m
  page : ∀ j p, M.page j = some p → s.mem p = replay (device M mem₀) s.stores j

variable {M : Mems V P} {mem₀ : P → ℕ → UInt8} {s t : State A P} {m : Mapping A P} {p : P}

omit [DecidableEq P] in
theorem frame_page (hm : Ok M m) {k : ℕ} (h : frame m k = some p) :
    M.page (m.vma.pgoffAt k) = some p := by
  obtain ⟨e, he, rfl⟩ := Option.map_eq_some_iff.mp h
  have hmem := List.mem_of_find?_eq_some he
  have heq : e.1 = m.vma.pgoffAt k := by simpa using List.find?_some he
  rw [← heq]
  exact (hm.served e hmem).1

theorem store_spec {i k x : ℕ} {v : UInt8} (he : step M s (.store i k x v) = some t) :
    ∃ m p, m ∈ s.vm.maps ∧ m.shared = true ∧ m.vma.writable = true ∧ k < m.vma.pages ∧
      frame m k = some p ∧
      t = { s with
        mem := poke s.mem p x v, stores := s.stores ++ [(m.vma.pgoffAt k, x, v)] } := by
  simp only [step] at he
  split at he
  · cases he
  · rename_i m hm
    split_ifs at he with hc
    obtain ⟨p, hp, rfl⟩ := Option.map_eq_some_iff.mp he
    exact ⟨m, p, List.mem_of_getElem? hm, hc.1, hc.2.1, hc.2.2.1, hp, rfl⟩

theorem Inv.step (hi : Inv M mem₀ s) {e : Ev A} (he : step M s e = some t) : Inv M mem₀ t := by
  cases e with
  | vm e =>
    obtain ⟨u, hu, rfl⟩ := Option.map_eq_some_iff.mp he
    exact ⟨fun m hm => (Protect.step_maps hi.ok hu hm).1, hi.page⟩
  | store i k x v =>
    obtain ⟨m, p, hm, -, -, -, hp, rfl⟩ := store_spec he
    refine ⟨hi.ok, fun j q hq => ?_⟩
    have hpage := frame_page (hi.ok m hm) hp
    rw [replay_concat]
    by_cases hj : j = m.vma.pgoffAt k
    · -- the page itself
      subst hj
      obtain rfl := Option.some.inj (hq.symm.trans hpage)
      show poke s.mem q x v q = _
      rw [poke, Function.update_self, Function.update_self, hi.page _ _ hq]
    · have hqp : q ≠ p := fun h => hj (M.page_inj (h ▸ hq) hpage)
      show poke s.mem p x v q = _
      rw [poke, Function.update_of_ne hqp, Function.update_of_ne hj]
      exact hi.page j q hq

omit [DecidableEq P] in
theorem inv_start (M : Mems V P) (refs : P → ℕ) (mem₀ : P → ℕ → UInt8) :
    Inv M mem₀ (start refs mem₀ : State A P) := by
  refine ⟨(fun _ hm => nomatch hm), fun j p hp => ?_⟩
  show mem₀ p = device M mem₀ j
  unfold device
  rw [hp]

/-- **The device is one memory**: after any run, what is loaded is what was stored last at that
byte of the device, or what was there from the start. -/
theorem coherent {refs : P → ℕ} {es : List (Ev A)}
    (h : Machine.run (SharedPages.step M) (start refs mem₀) es = some s) {i k x : ℕ} {v : UInt8}
    (hl : load s i k x = some v) : ∃ m, s.vm.maps[i]? = some m ∧ m.vma.pgoffAt k < 4 ∧
      v = replay (device M mem₀) s.stores (m.vma.pgoffAt k) x := by
  have hi := Machine.run_inv _ (Inv M mem₀) (inv_start M refs mem₀) (fun _ _ _ hi he => hi.step he) h
  unfold load at hl
  split at hl
  · cases hl
  · rename_i m hm
    split_ifs at hl
    obtain ⟨p, hp, rfl⟩ := Option.map_eq_some_iff.mp hl
    have hpage := frame_page (hi.ok m (List.mem_of_getElem? hm)) hp
    refine ⟨m, hm, ?_, congrFun (hi.page _ _ hpage) x⟩
    by_contra hge
    rw [M.page_none (Nat.not_lt.mp hge)] at hpage
    cases hpage

/-! ### The pages that are to be read -/

/-- No `mprotect` makes a part writable that should stay read-only. -/
def Spares (s : State A P) : Ev A → Prop
  | .vm e => Protect.Spares s.vm e
  | .store _ _ _ _ => True

omit [DecidableEq P] in
/-- The first two pages hold what they held from the start. -/
def Untouched (M : Mems V P) (mem₀ : P → ℕ → UInt8) (s : State A P) : Prop :=
  s.mem (M.virt_to_page M.mem1) = mem₀ (M.virt_to_page M.mem1) ∧
    s.mem (M.virt_to_page M.mem2) = mem₀ (M.virt_to_page M.mem2)

theorem store_other (hp : Protect.Protected M s.vm) {i k x : ℕ} {v : UInt8}
    (he : step M s (.store i k x v) = some t) {q : P}
    (hq : q = M.virt_to_page M.mem1 ∨ q = M.virt_to_page M.mem2) : t.mem q = s.mem q := by
  obtain ⟨m, p, hm, hs, hw, -, hf, rfl⟩ := store_spec he
  have hqp : q ≠ p := by
    rintro rfl
    obtain ⟨e, hfind, heq⟩ := Option.map_eq_some_iff.mp hf
    have hexposes : Protect.Exposes M m s.vm.refs :=
      .inl ⟨e, List.mem_of_find?_eq_some hfind, heq ▸ hq⟩
    exact absurd ((hp m hm hs hexposes).symm.trans hw) nofun
  exact Function.update_of_ne hqp _ _

/-- **The first two pages** keep what they hold as long as every `mprotect` spares them. -/
theorem untouched {refs : P → ℕ} {es : List (Ev A)}
    (hc : Machine.Always (step M) Spares (start refs mem₀) es) :
    Machine.Visits (step M) (Untouched M mem₀) (start refs mem₀) es := by
  have hv := Machine.visits_of_always
    (P := fun s : State A P => (∀ m ∈ s.vm.maps, Ok M m) ∧ Protect.Protected M s.vm ∧
      Untouched M mem₀ s)
    ⟨(inv_start M refs mem₀).ok, fun _ hm => absurd hm List.not_mem_nil, rfl, rfl⟩
    (fun s e t hi hce he => ?_) hc
  · exact fun pre hp s hs => (hv pre hp s hs).2.2
  · obtain ⟨hok, hp, h1, h2⟩ := hi
    cases e with
    | vm e =>
      obtain ⟨u, hu, rfl⟩ := Option.map_eq_some_iff.mp he
      exact ⟨fun m hm => (Protect.step_maps hok hu hm).1, Protect.step_protected hok hp hce hu, h1, h2⟩
    | store i k x v =>
      obtain ⟨m, p, -, -, -, -, -, rfl⟩ := store_spec he
      exact ⟨hok, hp, (store_other hp he (.inl rfl)).trans h1,
        (store_other hp he (.inr rfl)).trans h2⟩

/-- The writable window, mapped shared from a file opened for reading and writing. -/
def map2 : Vma amd64 := { Pages.map2 with vm_flags := 0x73 }

/-- Two users map it, and the second stores. -/
def twoUsers : List (Ev amd64) :=
  [.vm (.mmap map2 true true), .vm (.mmap map2 true true), .vm (.fault 0 1), .vm (.fault 1 1),
    .store 0 1 5 0x48]

/-- The first one loads what was stored. -/
theorem load_stored : ∃ s, Machine.run (step fourPages) (start (fun _ => 1) fun _ _ => 0) twoUsers =
    some s ∧ load s 1 1 5 = some 0x48 ∧
    replay (device fourPages fun _ _ => 0) s.stores 3 5 = 0x48 := by
  obtain ⟨s, hs, hl, hpg⟩ : ∃ s, Machine.run (step fourPages)
      (start (fun _ => 1) fun _ _ => 0) twoUsers = some s ∧ load s 1 1 5 = some 0x48 ∧
      ∀ m, s.vm.maps[1]? = some m → m.vma.pgoffAt 1 = 3 :=
    ⟨_, rfl, rfl, fun m hm => by rw [← Option.some.inj hm]; rfl⟩
  obtain ⟨m, hm, -, hv⟩ := coherent hs hl
  rw [hpg m hm] at hv
  exact ⟨s, hs, hl, hv.symm⟩

/-- Nobody calls `mprotect`. -/
theorem untouched_two_users : Machine.Visits (step fourPages)
    (Untouched fourPages fun _ _ => 0) (start (fun _ => 1) fun _ _ => 0) twoUsers :=
  untouched (by
    intro pre e hp s _
    have he : e ∈ twoUsers := hp.subset (List.mem_append_right _ List.mem_cons_self)
    simp only [twoUsers, List.mem_cons, List.not_mem_nil, or_false] at he
    rcases he with rfl | rfl | rfl | rfl | rfl <;> trivial)

end SharedPages
end Pb173
