/-
# What my_init registers and what it leaves (06)

Five misc devices, three debugfs entries and the buffer of 20971520 bytes,
in the order of `my_init`, which looks at the outcome of `vzalloc` alone.
The two devices of the buffer are registered before it is allocated, and the
return after a failed allocation takes nothing back; `my_exit` deregisters
every device, registered or not. All goes well if and only if the
registrations of the two devices fail, an allocation fails only when nothing
is registered, and `my_exit` comes to registered devices alone
(`ready_iff`).
-/
import Pb173.Heap
import Pb173.Kernel
import Pb173.Life
import Mathlib.Logic.Function.Basic

namespace Pb173
namespace Registration

inductive Misc
  | misc | my_read_misc | my_write_misc | mem_buf_read_misc | mem_buf_write_misc
deriving DecidableEq

inductive Dentry
  | debug_dir | counter_file | bindata_file
deriving DecidableEq

/-- The operations of `my_mem_read_device` and `my_mem_write_device`. -/
inductive Op
  | mem_buf_read | mem_buf_write
deriving DecidableEq

/-- What must not happen. -/
inductive Fault
  | op (k : Op)
  | misc_deregister (d : Misc)
deriving DecidableEq

/-- The size of the buffer. -/
def size : ℕ := 20971520

/-- What the module has made; the heap is that of `vzalloc`, with the sizes. -/
structure Driver where
  registered : Misc → Bool
  debugfs : Dentry → Bool
  heap : Heap ℕ
  mem_buffer : Ptr
  faults : List Fault

/-- `mem_buffer` designates the buffer. -/
def Driver.Ready (m : Driver) : Prop := m.heap.get m.mem_buffer = some size

instance (m : Driver) : Decidable m.Ready := inferInstanceAs (Decidable (_ = _))

def Driver.fault (m : Driver) (f : Fault) : Driver := { m with faults := m.faults ++ [f] }

/-! ### The module -/

inductive Init
  | print_hex_dump
  | misc_register (d : Misc)
  | printk
  | debugfs_create (e : Dentry)
  | vzalloc
  | stamp
deriving DecidableEq

def my_init : List Init :=
  [.print_hex_dump, .misc_register .misc, .misc_register .my_read_misc,
    .misc_register .my_write_misc, .misc_register .mem_buf_read_misc,
    .misc_register .mem_buf_write_misc, .printk, .debugfs_create .debug_dir,
    .debugfs_create .counter_file, .debugfs_create .bindata_file, .vzalloc, .stamp]

/-- A statement of `my_init`, `err` being what the kernel answers. The loop that
stamps the pages reads and writes nothing but the buffer. -/
def Init.exec (err : ℤ) (m : Driver) : Init → Option ℤ × Driver
  | .print_hex_dump | .printk | .stamp => (none, m)
  | .misc_register d =>
    (none, if err = 0 then { m with registered := Function.update m.registered d true } else m)
  | .debugfs_create e =>
    (none, if err = 0 then { m with debugfs := Function.update m.debugfs e true } else m)
  | .vzalloc =>
    if err ≠ 0 then (some (-ENOMEM), { m with mem_buffer := NULL })
    else (none, { m with mem_buffer := m.heap.next, heap := m.heap.alloc size })

inductive Exit
  | misc_deregister (d : Misc)
  | debugfs_remove (e : Dentry)
  | vfree
deriving DecidableEq

def my_exit : List Exit :=
  [.misc_deregister .misc, .misc_deregister .my_read_misc, .misc_deregister .my_write_misc,
    .misc_deregister .mem_buf_read_misc, .misc_deregister .mem_buf_write_misc,
    .debugfs_remove .bindata_file, .debugfs_remove .counter_file, .debugfs_remove .debug_dir,
    .vfree]

def Exit.exec (m : Driver) : Exit → Driver
  | .misc_deregister d =>
    if m.registered d then { m with registered := Function.update m.registered d false }
    else m.fault (.misc_deregister d)
  | .debugfs_remove e => { m with debugfs := Function.update m.debugfs e false }
  | .vfree => if m.mem_buffer ≠ NULL then { m with heap := m.heap.free m.mem_buffer } else m

/-- The device of an operation. -/
def Op.device : Op → Misc
  | .mem_buf_read => .mem_buf_read_misc
  | .mem_buf_write => .mem_buf_write_misc

/-- `mem_buf_read` and `mem_buf_write`, on a registered device. -/
def Op.exec (m : Driver) (k : Op) : Option Driver :=
  if m.registered k.device then some (if m.Ready then m else m.fault (.op k)) else none

def pb173 : Life.Module Driver Init Exit Op ℤ where
  init := my_init
  exit := my_exit
  exec st err m := st.exec err m
  undo x m := x.exec m
  call _ k m := k.exec m
  pinned _ := false

abbrev State := Life.State Driver Init Exit
abbrev Ev := Life.Ev Op ℤ

def start : State :=
  ⟨⟨fun _ => false, fun _ => false, Heap.empty, NULL, []⟩, .fresh⟩

abbrev step : State → Ev → Option State := Life.step pb173

/-! ### What is registered is ready -/

/-- Nothing is registered. -/
def Driver.Bare (m : Driver) : Prop :=
  (∀ d, m.registered d = false) ∧ ∀ e, m.debugfs e = false

/-- A device of the buffer is registered only while the buffer is there, no
operation has run without it, no device has been deregistered that was not
registered, and a failed `my_init` leaves nothing registered. -/
structure Sound (s : State) : Prop where
  ready : ∀ k : Op, s.mod.registered k.device = true → s.mod.Ready
  faults : s.mod.faults = []
  failed : ∀ err, s.phase = .failed err → s.mod.Bare

/-- A statement of `my_init` that keeps it so. -/
def Init.Spares (err : ℤ) (m : Driver) : Init → Prop
  | .misc_register .mem_buf_read_misc | .misc_register .mem_buf_write_misc => err ≠ 0
  | .vzalloc => err = 0 ∨ m.Bare
  | _ => True

/-- A statement of `my_exit` that keeps it so. -/
def Exit.Spares (m : Driver) : Exit → Prop
  | .misc_deregister d => m.registered d = true
  | _ => True

/-- The registrations of the devices of the buffer fail, an allocation fails
only when nothing is registered, and what is deregistered is registered. -/
def Spares (s : State) : Ev → Prop
  | .init err => s.phase.atInit fun st => st.Spares err s.mod
  | .exit => s.phase.atExit fun x => x.Spares s.mod
  | _ => True

/-! ### The invariant -/

/-- The phases in which the buffer is allocated. -/
def allocated : Life.Phase Init Exit → Prop
  | .initing rest => .vzalloc ∉ rest
  | .live => True
  | .exiting rest => .vfree ∈ rest
  | _ => False

instance : ∀ p, Decidable (allocated p)
  | .initing _ => inferInstanceAs (Decidable (_ ∉ _))
  | .live => inferInstanceAs (Decidable True)
  | .exiting _ => inferInstanceAs (Decidable (_ ∈ _))
  | .fresh | .failed _ | .gone => inferInstanceAs (Decidable False)

/-- What `my_exit` has come past is deregistered. -/
def past (d : Misc) : Life.Phase Init Exit → Prop
  | .exiting rest => .misc_deregister d ∉ rest
  | .gone => True
  | _ => False

structure Inv (p : Life.Phase Init Exit) (m : Driver) : Prop where
  buffer : m.heap.get m.mem_buffer = if allocated p then some size else none
  off : ∀ d, past d p → m.registered d = false

theorem vzalloc_once : ∀ l ∈ my_init.tails, ∀ st ∈ l.head?, .vzalloc ∈ l.tail → st ≠ .vzalloc := by
  decide

theorem vfree_last : ∀ l ∈ my_exit.tails, ∀ x ∈ l.head?, .vfree ∈ l.tail ↔ x ≠ .vfree := by decide

/-- A registration that is not looked at. -/
theorem exec_misc_register (err : ℤ) (m : Driver) (d : Misc) : ∃ registered,
    Init.exec err m (.misc_register d) = (none, { m with registered := registered }) := by
  by_cases he : err = 0
  · exact ⟨_, by rw [Init.exec, if_pos he]⟩
  · exact ⟨m.registered, by rw [Init.exec, if_neg he]⟩

theorem exec_debugfs_create (err : ℤ) (m : Driver) (e : Dentry) : ∃ debugfs,
    Init.exec err m (.debugfs_create e) = (none, { m with debugfs := debugfs }) := by
  by_cases he : err = 0
  · exact ⟨_, by rw [Init.exec, if_pos he]⟩
  · exact ⟨m.debugfs, by rw [Init.exec, if_neg he]⟩

section Invariant

variable {m : Driver} {p q : Life.Phase Init Exit}

/-- What leaves the buffer alone and registers nothing that has been
deregistered. -/
theorem Inv.mono {m' : Driver} (h : Inv p m) (hh : m'.heap = m.heap)
    (hb : m'.mem_buffer = m.mem_buffer) (ha : allocated q ↔ allocated p)
    (hp : ∀ d, past d q → m'.registered d = false) : Inv q m' := by
  refine ⟨?_, hp⟩
  rw [hh, hb, h.buffer]
  simp only [ha]

theorem Init.keeps {st : Init} {rest : List Init} {err : ℤ} (hc : st :: rest <:+ my_init)
    (h : Inv (.initing (st :: rest)) m) :
    Inv (Life.after rest (st.exec err m).1) (st.exec err m).2 := by
  have hrest : st ≠ .vzalloc → (allocated (.initing rest) ↔ allocated (.initing (st :: rest))) := by
    intro hst
    show .vzalloc ∉ rest ↔ .vzalloc ∉ st :: rest
    rw [List.mem_cons, not_or, and_iff_right (Ne.symm hst)]
  cases st with
  | print_hex_dump | printk | stamp =>
    exact h.mono rfl rfl (hrest (by simp)) fun _ => False.elim
  | misc_register d =>
    obtain ⟨registered, he⟩ := exec_misc_register err m d
    rw [he]
    exact h.mono rfl rfl (hrest (by simp)) fun _ => False.elim
  | debugfs_create e =>
    obtain ⟨debugfs, he⟩ := exec_debugfs_create err m e
    rw [he]
    exact h.mono rfl rfl (hrest (by simp)) fun _ => False.elim
  | vzalloc =>
    by_cases he : err ≠ 0
    · simp only [Init.exec, if_pos he]
      exact ⟨m.heap.null, fun _ => False.elim⟩
    · simp only [Init.exec, if_neg he]
      have hno : allocated (.initing rest) := fun hr =>
        vzalloc_once _ ((List.mem_tails _ _).mpr hc) _ rfl hr rfl
      refine ⟨?_, fun _ => False.elim⟩
      show (m.heap.alloc size).get m.heap.next = if allocated (.initing rest) then some size else none
      rw [if_pos hno, Heap.get_alloc_self]

theorem Exit.keeps {x : Exit} {rest : List Exit} (hc : x :: rest <:+ my_exit)
    (h : Inv (.exiting (x :: rest)) m) : Inv (.exiting rest) (x.exec m) := by
  have hlast := vfree_last _ ((List.mem_tails _ _).mpr hc) x rfl
  have hall : allocated (.exiting (x :: rest)) := by
    by_cases hx : x = .vfree
    · exact hx ▸ List.mem_cons_self
    · exact List.mem_cons_of_mem _ (hlast.mpr hx)
  have hrest : x ≠ .vfree → (allocated (.exiting rest) ↔ allocated (.exiting (x :: rest))) :=
    fun hx => iff_of_true (hlast.mpr hx) hall
  have hpast : ∀ d, x ≠ .misc_deregister d → past d (.exiting rest) → m.registered d = false := by
    intro d hx hd
    refine h.off d fun hm => ?_
    rcases List.mem_cons.mp hm with rfl | hm
    · exact hx rfl
    · exact hd hm
  cases x with
  | misc_deregister d =>
    have hd : ∀ e, past e (.exiting rest) → e ≠ d → m.registered e = false :=
      fun e he hne => hpast e (by simpa using Ne.symm hne) he
    by_cases hreg : m.registered d = true
    · simp only [Exit.exec, if_pos hreg]
      refine h.mono rfl rfl (hrest (by simp)) fun e he => ?_
      by_cases hed : e = d
      · rw [hed]
        exact Function.update_self ..
      · exact (Function.update_of_ne hed ..).trans (hd e he hed)
    · simp only [Exit.exec, if_neg hreg]
      refine h.mono rfl rfl (hrest (by simp)) fun e he => ?_
      by_cases hed : e = d
      · rw [hed]
        exact (Bool.not_eq_true _).mp hreg
      · exact hd e he hed
  | debugfs_remove e =>
    exact h.mono rfl rfl (hrest (by simp)) fun d hd => hpast d (by simp) hd
  | vfree =>
    have hno : ¬ allocated (.exiting rest) := fun hr => hlast.mp hr rfl
    have hget := h.buffer
    rw [if_pos hall] at hget
    simp only [Exit.exec, if_pos (show m.mem_buffer ≠ NULL from Heap.ne_null hget)]
    refine ⟨?_, fun d hd => hpast d (by simp) hd⟩
    show (m.heap.free m.mem_buffer).get m.mem_buffer = _
    rw [if_neg hno, Heap.get_free_self]

theorem keeps : Life.Keeps pb173 Inv where
  load m h := h.mono rfl rfl (by decide) fun _ => False.elim
  init st rest err m hc h := Init.keeps hc h
  loaded m h := h.mono rfl rfl (iff_of_true trivial List.not_mem_nil) fun _ => False.elim
  unload m _ h := by
    refine h.mono rfl rfl (by decide) fun d hd => absurd ?_ hd
    cases d <;> decide
  exit x rest m hc h := Exit.keeps hc h
  unloaded m h := h.mono rfl rfl (iff_of_false id List.not_mem_nil) fun d _ => h.off d List.not_mem_nil
  call p k m m' hcall h := by
    simp only [pb173, Op.exec] at hcall
    split_ifs at hcall
    · obtain rfl := Option.some.inj hcall
      exact h
    · obtain rfl := Option.some.inj hcall
      exact h.mono rfl rfl Iff.rfl h.off

/-! ### Each step -/

/-- What is registered stays ready, in a phase other than after a failure. -/
theorem Sound.move {n : Driver} (h : Sound ⟨m, p⟩) (hq : ∀ err, q ≠ .failed err)
    (hr : ∀ k : Op, n.registered k.device = true → m.registered k.device = true ∧ (m.Ready → n.Ready))
    (hf : n.faults = m.faults) : Sound ⟨n, q⟩ where
  ready k hk := (hr k hk).2 (h.ready k (hr k hk).1)
  faults := hf.trans h.faults
  failed err he := absurd he (hq err)

/-- The buffer is allocated after the registrations, and freed after the
deregistrations. -/
theorem register_before : ∀ l ∈ my_init.tails, ∀ st ∈ l.head?, ∀ k : Op,
    st = .misc_register k.device → .vzalloc ∈ l := by
  intro l hl st hst k
  revert l st
  cases k <;> decide

theorem deregister_before : ∀ l ∈ my_exit.tails, .vfree ∈ l.head? → ∀ k : Op,
    .misc_deregister k.device ∉ l := by
  intro l hl hx k
  revert l
  cases k <;> decide

theorem Init.sound_iff {st : Init} {rest : List Init} {err : ℤ} (hc : st :: rest <:+ my_init)
    (hi : Inv (.initing (st :: rest)) m) (hs : Sound ⟨m, .initing (st :: rest)⟩) :
    Sound ⟨(st.exec err m).2, Life.after rest (st.exec err m).1⟩ ↔ st.Spares err m := by
  have hself : ∀ k : Op, m.registered k.device = true →
      m.registered k.device = true ∧ (m.Ready → m.Ready) := fun _ h => ⟨h, id⟩
  cases st with
  | print_hex_dump | printk | stamp =>
    exact iff_of_true (hs.move (by simp [Init.exec, Life.after]) hself rfl) trivial
  | debugfs_create e =>
    obtain ⟨debugfs, he⟩ := exec_debugfs_create err m e
    rw [he]
    exact iff_of_true (hs.move (by simp [Life.after]) hself rfl) trivial
  | misc_register d =>
    by_cases he : err ≠ 0
    · simp only [Init.exec, if_neg he]
      refine iff_of_true (hs.move (by simp [Life.after]) hself rfl) ?_
      cases d <;> trivial
    obtain rfl := not_not.mp he
    simp only [Init.exec]
    by_cases hd : ∃ k : Op, k.device = d
    · -- a device of the buffer, which is not there yet
      obtain ⟨k, rfl⟩ := hd
      refine iff_of_false (fun h => ?_) (by cases k <;> exact fun h => h rfl)
      have hr := h.ready k (Function.update_self ..)
      have hv := register_before _ ((List.mem_tails _ _).mpr hc) _ rfl k rfl
      have hb := hi.buffer
      rw [if_neg (show ¬ allocated (.initing _) from fun h => h hv)] at hb
      rw [show m.heap.get m.mem_buffer = some size from hr] at hb
      cases hb
    · refine iff_of_true (hs.move (by simp [Life.after]) (fun k hk => ⟨?_, id⟩) rfl) ?_
      · have hne : k.device ≠ d := fun h => hd ⟨k, h⟩
        exact (Function.update_of_ne hne ..).symm.trans hk
      · cases d with
        | mem_buf_read_misc => exact absurd ⟨.mem_buf_read, rfl⟩ hd
        | mem_buf_write_misc => exact absurd ⟨.mem_buf_write, rfl⟩ hd
        | _ => trivial
  | vzalloc =>
    by_cases he : err ≠ 0
    · simp only [Init.exec, if_pos he]
      constructor
      · intro h
        exact .inr (h.failed (-ENOMEM) rfl)
      · rintro (h0 | hb)
        · exact absurd h0 he
        · refine ⟨fun k hk => ?_, hs.faults, fun _ _ => hb⟩
          cases (hb.1 k.device).symm.trans hk
    · simp only [Init.exec, if_neg he]
      refine iff_of_true (hs.move (by simp [Life.after]) (fun k hk => ⟨hk, fun _ => ?_⟩) rfl)
        (.inl (not_not.mp he))
      exact Heap.get_alloc_self _

theorem Exit.sound_iff {x : Exit} {rest : List Exit} (hc : x :: rest <:+ my_exit)
    (hi : Inv (.exiting (x :: rest)) m) (hs : Sound ⟨m, .exiting (x :: rest)⟩) :
    Sound ⟨x.exec m, .exiting rest⟩ ↔ x.Spares m := by
  cases x with
  | misc_deregister d =>
    by_cases hreg : m.registered d = true
    · simp only [Exit.exec, if_pos hreg]
      refine iff_of_true (hs.move (by simp) (fun k hk => ⟨?_, id⟩) rfl) hreg
      by_cases hkd : k.device = d
      · rw [hkd]
        exact hreg
      · exact (Function.update_of_ne hkd ..).symm.trans hk
    · simp only [Exit.exec, if_neg hreg]
      refine iff_of_false (fun h => ?_) hreg
      exact List.append_ne_nil_of_right_ne_nil _ (List.cons_ne_nil _ _) h.faults
  | debugfs_remove e => exact iff_of_true (hs.move (by simp) (fun k hk => ⟨hk, id⟩) rfl) trivial
  | vfree =>
    have hoff : ∀ k : Op, m.registered k.device = false := fun k =>
      hi.off _ (deregister_before _ ((List.mem_tails _ _).mpr hc) rfl k)
    refine iff_of_true ?_ trivial
    simp only [Exit.exec]
    split_ifs
    · exact hs.move (by simp) (fun k hk => absurd hk (by simp [hoff])) rfl
    · exact hs.move (by simp) (fun k hk => ⟨hk, id⟩) rfl

/-- **A step** keeps what is registered ready if and only if it spares that. -/
theorem step_iff {s t : State} {e : Ev} (hi : Life.Coded pb173 s.phase ∧ Inv s.phase s.mod)
    (hs : Sound s) (he : step s e = some t) : Sound t ↔ Spares s e := by
  obtain ⟨hc, hi⟩ := hi
  have hself : ∀ {m : Driver} (k : Op), m.registered k.device = true →
      m.registered k.device = true ∧ (m.Ready → m.Ready) := fun _ h => ⟨h, id⟩
  cases Life.Step.of_step he with
  | load m => exact iff_of_true (hs.move (by simp) hself rfl) trivial
  | init m err st rest => exact Init.sound_iff hc hi hs
  | loaded m err => exact iff_of_true (hs.move (by simp) hself rfl) trivial
  | unload m _ => exact iff_of_true (hs.move (by simp) hself rfl) trivial
  | exit m x rest => exact Exit.sound_iff hc hi hs
  | unloaded m => exact iff_of_true (hs.move (by simp) hself rfl) trivial
  | call m m' p k hcall =>
    simp only [pb173, Op.exec] at hcall
    split_ifs at hcall with hreg hready
    · obtain rfl := Option.some.inj hcall
      exact iff_of_true hs trivial
    · exact absurd (hs.ready k hreg) hready

end Invariant

/-- **What is registered is ready**, in every state of a run, if and only if
every step of it spares that. -/
theorem ready_iff (es : List Ev) :
    Machine.Visits step Sound start es ↔ Machine.Always step Spares start es := by
  refine Machine.visits_iff_always (I := fun s : State => Life.Coded pb173 s.phase ∧ Inv s.phase s.mod)
    (fun s e t hi he => keeps.step hi he) (fun s e t hi hs he => step_iff hi hs he)
    (fun s e hi he => ?_) es start ⟨trivial, Heap.null _, fun _ => False.elim⟩
    ⟨nofun, rfl, nofun⟩
  cases e with
  | init err => exact Life.atInit_of_none he _
  | exit => exact Life.atExit_of_none he _
  | _ => trivial

/-- A user reads from `my_mem_read_device` as soon as it is registered. -/
theorem read_early : ¬ Machine.Visits step Sound start
    (.load :: List.replicate 5 (.init 0) ++ [.call .mem_buf_read]) := by
  intro h
  obtain ⟨s, hs⟩ : ∃ s, Machine.run step start
      (.load :: List.replicate 5 (.init 0) ++ [.call .mem_buf_read]) = some s := ⟨_, rfl⟩
  have hf := (h _ (List.prefix_refl _) s hs).faults
  obtain rfl := Option.some.inj hs
  exact absurd hf (by decide)

end Registration
end Pb173
