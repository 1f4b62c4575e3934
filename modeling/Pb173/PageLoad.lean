/-
# The load of 10/homework and the faults it serves

`my_init` registers the device, then asks for the four pages, then copies
their texts; it looks at no outcome. Users open the device, map it and fault
on it as soon as it is registered. `my_fault` finds one of the variables
`mem1..mem4` (`Pages.my_fault`, over the names of the four variables), whose
value is then what has been allocated so far. No page is handed out that the
module does not own, and no text copied to NULL, if and only if a page is
asked for only after its allocation has succeeded, and no copy follows an
allocation that failed (`owned_pages_iff`).
-/
import Pb173.Heap
import Pb173.Life
import Pb173.Pages

namespace Pb173
namespace PageLoad

open Pages

/-- What must not happen, with the variable concerned. -/
inductive Fault
  | my_fault (n : Fin 4)
  | strcpy (n : Fin 4)
deriving DecidableEq

/-- The four variables and the pages allocated, with their texts; the open
files and the mappings; `refs` counts the references `my_fault` takes. -/
structure Driver (A : Arch) where
  mem : Fin 4 → Ptr
  heap : Heap String
  misc : Bool
  files : ℕ
  maps : List (Vma A)
  refs : Fin 4 → ℕ
  faults : List Fault

variable {A : Arch}

/-- The page of a variable is the module's. -/
def Driver.Owns (m : Driver A) (n : Fin 4) : Prop := (m.heap.get (m.mem n)).isSome = true

instance (m : Driver A) (n : Fin 4) : Decidable (m.Owns n) := inferInstanceAs (Decidable (_ = _))

def Driver.fault (m : Driver A) (f : Fault) : Driver A := { m with faults := m.faults ++ [f] }

inductive Init
  | print_hex_dump
  | misc_register
  | printk
  | debugfs_create
  | get_free_page (n : Fin 4)
  | strcpy (n : Fin 4) (text : String)
deriving DecidableEq

local instance neZero_four : NeZero 4 := ⟨by decide⟩

def my_init : List Init :=
  [.print_hex_dump, .misc_register, .printk, .debugfs_create, .get_free_page 0, .get_free_page 1,
    .get_free_page 2, .get_free_page 3, .strcpy 0 "1st page", .strcpy 1 "2nd page",
    .strcpy 2 "3rd page", .strcpy 3 "4th page"]

/-- A statement of `my_init`, `err` being what the kernel answers. -/
def Init.exec (err : ℤ) (m : Driver A) : Init → Driver A
  | .print_hex_dump | .printk | .debugfs_create => m
  | .misc_register => if err = 0 then { m with misc := true } else m
  | .get_free_page n =>
    if err ≠ 0 then { m with mem := Function.update m.mem n NULL }
    else { m with mem := Function.update m.mem n m.heap.next, heap := m.heap.alloc "" }
  | .strcpy n text =>
    if m.Owns n then { m with heap := m.heap.set (m.mem n) text } else m.fault (.strcpy n)

inductive Exit
  | free_page (n : Fin 4)
  | misc_deregister
  | debugfs_remove
deriving DecidableEq

def my_exit : List Exit :=
  [.free_page 0, .free_page 1, .free_page 2, .free_page 3, .misc_deregister, .debugfs_remove]

/-- A statement of `my_exit`; `free_page` of NULL does nothing. -/
def Exit.exec (m : Driver A) : Exit → Driver A
  | .free_page n => { m with heap := m.heap.free (m.mem n) }
  | .misc_deregister => { m with misc := false }
  | .debugfs_remove => m

/-- What the users do: a fault is on page `k` of the `i`-th mapping. -/
inductive Call (A : Arch)
  | open
  | release
  | mmap (vma : Vma A)
  | munmap (i : ℕ)
  | fault (i k : ℕ)

/-- A fault: `my_fault` finds the variable, and its page is handed out. -/
def Driver.serve (m : Driver A) (pgoff : ℕ) : Driver A :=
  let r := Pages.my_fault A fourPages pgoff m.refs
  match r.page with
  | none => m
  | some n =>
    let m := { m with refs := r.refs }
    if m.Owns n then m else m.fault (.my_fault n)

def Call.exec (p : Life.Phase Init Exit) (m : Driver A) : Call A → Option (Driver A)
  | .open => if m.misc ∧ p.ending = false then some { m with files := m.files + 1 } else none
  | .release => if 0 < m.files then some { m with files := m.files - 1 } else none
  | .mmap vma =>
    if 0 < m.files then
      match my_mmap vma with
      | .ok v => some { m with maps := m.maps ++ [v] }
      | .error _ => some m
    else none
  | .munmap i => if i < m.maps.length then some { m with maps := m.maps.eraseIdx i } else none
  | .fault i k =>
    match m.maps[i]? with
    | none => none
    | some v => if k < v.pages then some (m.serve (v.pgoffAt k)) else none

/-- An open file and a mapping hold on to the module. -/
def pb173 (A : Arch) : Life.Module (Driver A) Init Exit (Call A) ℤ where
  init := my_init
  exit := my_exit
  exec st err m := (none, st.exec err m)
  undo x m := x.exec m
  call p k m := k.exec p m
  pinned m := 0 < m.files || !m.maps.isEmpty

abbrev State (A : Arch) := Life.State (Driver A) Init Exit
abbrev Ev (A : Arch) := Life.Ev (Call A) ℤ

def start : State A :=
  ⟨⟨fun _ => NULL, Heap.empty, false, 0, [], fun _ => 0, []⟩, .fresh⟩

abbrev step : State A → Ev A → Option (State A) := Life.step (pb173 A)

/-! ### The pages that are handed out -/

/-- No page has been handed out that is not the module's, and no text copied to
one. -/
def OwnedPages (s : State A) : Prop := s.mod.faults = []

/-- No copy goes to a page whose allocation failed. -/
def Init.Spares (m : Driver A) : Init → Prop
  | .strcpy n _ => m.mem n ≠ NULL
  | _ => True

/-- A fault on one of the four pages comes after its allocation has succeeded. -/
def Call.Spares (m : Driver A) : Call A → Prop
  | .fault i k => ∀ v, m.maps[i]? = some v → k < v.pages →
      ∀ n : Fin 4, v.pgoffAt k = n → m.mem n ≠ NULL
  | _ => True

def Spares (s : State A) : Ev A → Prop
  | .init _ => s.phase.atInit fun st => st.Spares s.mod
  | .call c => c.Spares s.mod
  | _ => True

/-! ### The invariant -/

/-- What is not NULL is a page of the module until it is unloaded; nothing is
open or mapped then; and mappings are low. -/
structure Inv (p : Life.Phase Init Exit) (m : Driver A) : Prop where
  owns : p.ending = false → ∀ n, m.mem n ≠ NULL → m.Owns n
  quiet : p.ending = true → m.files = 0 ∧ m.maps = []
  low : ∀ v ∈ m.maps, v.vm_pgoff + v.pages ≤ 8

section Invariant

variable {m : Driver A} {p q : Life.Phase Init Exit}

theorem Driver.Owns.ne_null {n : Fin 4} (h : m.Owns n) : m.mem n ≠ NULL := by
  obtain ⟨text, ht⟩ := Option.isSome_iff_exists.mp h
  exact Heap.ne_null ht

theorem Inv.owns_iff (hi : Inv p m) (hp : p.ending = false) {n : Fin 4} :
    m.Owns n ↔ m.mem n ≠ NULL := ⟨Driver.Owns.ne_null, hi.owns hp n⟩

theorem Init.keeps {st : Init} {rest : List Init} {err : ℤ} (h : Inv (.initing (st :: rest)) m) :
    Inv (.initing rest) (st.exec err m) := by
  have hmem := h.owns rfl
  have hend : ∀ {r : Prop}, (Life.Phase.initing rest : Life.Phase Init Exit).ending = true → r :=
    fun he => by cases he
  cases st with
  | print_hex_dump | printk | debugfs_create => exact ⟨fun _ => hmem, hend, h.low⟩
  | misc_register =>
    simp only [Init.exec]
    split_ifs <;> exact ⟨fun _ => hmem, hend, h.low⟩
  | get_free_page n =>
    by_cases he : err ≠ 0
    · simp only [Init.exec, if_pos he]
      refine ⟨fun _ k hk => ?_, hend, h.low⟩
      have hkn : k ≠ n := by
        rintro rfl
        exact hk (Function.update_self ..)
      have hmk : Function.update m.mem n NULL k = m.mem k := Function.update_of_ne hkn ..
      show (m.heap.get (Function.update m.mem n NULL k)).isSome = true
      rw [hmk]
      exact hmem k (hmk ▸ hk)
    · simp only [Init.exec, if_neg he]
      refine ⟨fun _ k hk => ?_, hend, h.low⟩
      show ((m.heap.alloc "").get (Function.update m.mem n m.heap.next k)).isSome = true
      by_cases hkn : k = n
      · rw [hkn, Function.update_self, Heap.get_alloc_self]
        rfl
      · have hmk : Function.update m.mem n m.heap.next k = m.mem k := Function.update_of_ne hkn ..
        obtain ⟨text, ht⟩ := Option.isSome_iff_exists.mp (hmem k (hmk ▸ hk))
        rw [hmk, Heap.get_alloc ht]
        rfl
  | strcpy n text =>
    by_cases ho : m.Owns n
    · simp only [Init.exec, if_pos ho]
      refine ⟨fun _ k hk => ?_, hend, h.low⟩
      show ((m.heap.set (m.mem n) text).get (m.mem k)).isSome = true
      by_cases hkn : m.mem k = m.mem n
      · obtain ⟨old, hold⟩ := Option.isSome_iff_exists.mp ho
        rw [hkn, Heap.get_set_self hold]
        rfl
      · rw [m.heap.get_set_of_ne hkn]
        exact hmem k hk
    · simp only [Init.exec, if_neg ho]
      exact ⟨fun _ => hmem, hend, h.low⟩

/-- A fault leaves everything but the counters as it is. -/
theorem serve_spec (m : Driver A) (pgoff : ℕ) :
    ∃ refs faults, m.serve pgoff = { m with refs := refs, faults := faults } := by
  unfold Driver.serve
  simp only
  split
  · exact ⟨_, _, rfl⟩
  · split_ifs
    · exact ⟨_, _, rfl⟩
    · exact ⟨_, _, rfl⟩

theorem keeps : Life.Keeps (pb173 A) Inv where
  load m h := ⟨fun _ => h.owns rfl, nofun, h.low⟩
  init st rest err m _ h := Init.keeps h
  loaded m h := ⟨fun _ => h.owns rfl, nofun, h.low⟩
  unload m hp h := by
    refine ⟨nofun, fun _ => ?_, h.low⟩
    simpa [pb173] using hp
  exit x rest m _ h := by
    have hq := h.quiet rfl
    cases x with
    | free_page | misc_deregister | debugfs_remove => exact ⟨nofun, fun _ => hq, h.low⟩
  unloaded m h := ⟨nofun, fun _ => h.quiet rfl, h.low⟩
  call p c m m' hcall h := by
    simp only [pb173] at hcall
    cases c with
    | «open» =>
      simp only [Call.exec] at hcall
      split_ifs at hcall with ho
      obtain rfl := Option.some.inj hcall
      exact ⟨h.owns, fun he => (by rw [ho.2] at he; cases he), h.low⟩
    | release =>
      simp only [Call.exec] at hcall
      split_ifs at hcall with hf
      obtain rfl := Option.some.inj hcall
      exact ⟨h.owns, fun he => absurd (h.quiet he).1 (by omega), h.low⟩
    | mmap vma =>
      simp only [Call.exec] at hcall
      split_ifs at hcall with hf
      split at hcall
      · rename_i v hv
        obtain rfl := Option.some.inj hcall
        obtain ⟨rfl, hoff, hpages, -⟩ := my_mmap_ok hv
        refine ⟨h.owns, fun he => absurd (h.quiet he).1 (by omega), fun u hu => ?_⟩
        rcases List.mem_append.mp hu with hu | hu
        · exact h.low u hu
        · rw [List.mem_singleton.mp hu]
          show vma.vm_pgoff + vma.pages ≤ 8
          omega
      · obtain rfl := Option.some.inj hcall
        exact h
    | munmap i =>
      simp only [Call.exec] at hcall
      split_ifs at hcall with hi
      obtain rfl := Option.some.inj hcall
      refine ⟨h.owns, fun he => ?_, fun v hv => h.low v (List.mem_of_mem_eraseIdx hv)⟩
      rw [(h.quiet he).2] at hi
      exact absurd hi (Nat.not_lt_zero _)
    | fault i k =>
      simp only [Call.exec] at hcall
      split at hcall
      · cases hcall
      split_ifs at hcall
      obtain rfl := Option.some.inj hcall
      obtain ⟨refs, faults, hs⟩ := serve_spec m (Vma.pgoffAt _ k)
      rw [hs]
      exact ⟨h.owns, h.quiet, h.low⟩

theorem Call.faults_eq {c : Call A} {m' : Driver A} (h : c.exec p m = some m')
    (hc : ∀ i k, c ≠ .fault i k) : m'.faults = m.faults := by
  cases c with
  | fault i k => exact absurd rfl (hc i k)
  | mmap vma =>
    simp only [Call.exec] at h
    split_ifs at h
    split at h <;> obtain rfl := Option.some.inj h <;> rfl
  | _ =>
    simp only [Call.exec] at h
    split_ifs at h
    obtain rfl := Option.some.inj h
    rfl

/-! ### Each step -/

theorem fourPages_page : ∀ n : Fin 4, fourPages.page n = some n := by decide

/-- A fault below page 8 hands out the page of its number. -/
theorem serve_faults (hf : m.faults = []) {k : ℕ} (hk : k < 8) :
    (m.serve k).faults = [] ↔ ∀ n : Fin 4, k = n → m.Owns n := by
  unfold Driver.serve
  simp only
  rcases my_fault_eq (A := A) fourPages hk m.refs with ⟨-, n, hn, he⟩ | ⟨h4, he⟩ <;> rw [he]
  · obtain rfl : k = n := fourPages.page_inj hn (fourPages_page n)
    simp only
    split_ifs with ho
    · refine iff_of_true hf fun n' hn' => ?_
      rw [← Fin.ext hn']
      exact ho
    · refine iff_of_false ?_ fun h => ho (h n rfl)
      exact List.append_ne_nil_of_right_ne_nil _ (List.cons_ne_nil _ _)
  · refine iff_of_true hf fun n hn => ?_
    have := n.isLt
    omega

theorem step_iff {s t : State A} {e : Ev A} (hi : Life.Coded (pb173 A) s.phase ∧ Inv s.phase s.mod)
    (hs : OwnedPages s) (he : step s e = some t) : OwnedPages t ↔ Spares s e := by
  obtain ⟨hc, hi⟩ := hi
  cases Life.Step.of_step he with
  | load m => exact iff_of_true hs trivial
  | init m err st rest =>
    cases st with
    | strcpy n text =>
      show (Init.exec err m (.strcpy n text)).faults = [] ↔ m.mem n ≠ NULL
      rw [← hi.owns_iff rfl]
      by_cases ho : m.Owns n
      · simp only [Init.exec, if_pos ho]
        exact iff_of_true hs ho
      · simp only [Init.exec, if_neg ho]
        exact iff_of_false (List.append_ne_nil_of_right_ne_nil _ (List.cons_ne_nil _ _)) ho
    | misc_register | get_free_page =>
      refine iff_of_true ?_ trivial
      show (Init.exec err m _).faults = []
      simp only [Init.exec]
      split_ifs <;> exact hs
    | _ => exact iff_of_true hs trivial
  | loaded m err => exact iff_of_true hs trivial
  | unload m _ => exact iff_of_true hs trivial
  | exit m x rest =>
    refine iff_of_true ?_ trivial
    cases x <;> exact hs
  | unloaded m => exact iff_of_true hs trivial
  | call m m' p c hcall =>
    simp only [pb173] at hcall
    cases c with
    | fault i k =>
      simp only [Call.exec] at hcall
      rcases hv : m.maps[i]? with _ | v <;> rw [hv] at hcall
      · cases hcall
      simp only at hcall
      split_ifs at hcall with hk
      obtain rfl := Option.some.inj hcall
      have hend : p.ending = false := by
        by_contra hne
        rw [(hi.quiet (by simpa using hne)).2] at hv
        cases hv
      have hlow := hi.low v (List.mem_of_getElem? hv)
      have h8 := A.eight_le
      have hoff : v.pgoffAt k = v.vm_pgoff + k := Nat.mod_eq_of_lt (by omega)
      refine (serve_faults hs (by omega)).trans ⟨fun h u hu _ n hn => ?_, fun h n hn => ?_⟩
      · obtain rfl := Option.some.inj (hv.symm.trans hu)
        exact (h n hn).ne_null
      · exact hi.owns hend n (h v hv hk n hn)
    | _ => exact iff_of_true ((Call.faults_eq hcall (by simp)).trans hs) trivial

end Invariant

/-- **The pages that are served**, and the texts copied, in every state of a
run. -/
theorem owned_pages_iff (A : Arch) (es : List (Ev A)) :
    Machine.Visits step OwnedPages start es ↔ Machine.Always step Spares start es := by
  refine Machine.visits_iff_always
    (I := fun s : State A => Life.Coded (pb173 A) s.phase ∧ Inv s.phase s.mod)
    (fun s e t hi he => keeps.step hi he) (fun s e t hi hs he => step_iff hi hs he)
    (fun s e hi he => ?_) es start
    ⟨trivial, fun _ _ hne => absurd rfl hne, nofun, nofun⟩ rfl
  rcases e with _ | err | _ | _ | c
  case init => exact Life.atInit_of_none he _
  case call =>
    cases c with
    | fault i k =>
      intro v hv hk
      simp [Life.step, pb173, Call.exec, hv, hk] at he
    | _ => trivial
  all_goals trivial

/-- The device is opened and mapped as soon as it is registered, and a page is
faulted in. -/
def early : List (Ev amd64) :=
  .load :: List.replicate 2 (.init 0) ++ [.call .open, .call (.mmap map2), .call (.fault 0 0)]

theorem served_early : ¬ Machine.Visits step OwnedPages start early := by
  intro h
  obtain ⟨s, hs⟩ : ∃ s, Machine.run step start early = some s := ⟨_, rfl⟩
  have hf : s.mod.faults = [] := h _ (List.prefix_refl _) s hs
  obtain rfl := Option.some.inj hs
  exact absurd hf (by decide)

end PageLoad
end Pb173
