/-
# The allocation of my_write (02, 03, 04, 06, 10/homework)

`my_write` of my_device copies what the user writes into a block of its own,
prints it and frees the block. It uses what `kmalloc` returns without looking
at it, and does not free the block when the copy fails. Otherwise it keeps
inside the block and leaves nothing behind: the calls of a run are disciplined
if and only if every `kmalloc` succeeds and every copy does (`disciplined_iff`).
-/
import Pb173.CString
import Pb173.Heap
import Pb173.Kernel
import Pb173.Machine

namespace Pb173
namespace Allocation

open CInt

/-! ### The call -/

/-- An access through a pointer to no block, or past the end of its block. -/
inductive Fault
  | null
  | outside
deriving DecidableEq

/-- The blocks of the kernel. -/
abbrev Blocks := Heap (List UInt8)

/-- `kmalloc(size)`: it fails if `bytes` is `none`, and else these are the bytes
in the block. -/
def kmalloc (size : ℕ) (bytes : Option (ℕ → UInt8)) (h : Blocks) : ℕ × Blocks :=
  match bytes with
  | none => (0, h)
  | some bytes => (h.next, h.alloc ((List.range size).map bytes))

/-- Store the bytes `d` at `str + o`. -/
def store (h : Blocks) (str o : ℕ) (d : List UInt8) : Except Fault Blocks :=
  match h.get str with
  | none => .error .null
  | some block =>
    if o + d.length ≤ block.length then
      .ok (h.set str (block.take o ++ d ++ block.drop (o + d.length)))
    else .error .outside

/-- The string at `str`, which `printk` prints. -/
def printk (h : Blocks) (str : ℕ) : Except Fault (List UInt8) :=
  match h.get str with
  | none => .error .null
  | some block =>
    match string block with
    | none => .error .outside
    | some s => .ok s

/-- What a call does: its return value, what it prints, and the blocks. -/
structure WriteOut where
  ret : ℤ
  printed : List UInt8
  heap : Blocks

/-- `my_write` of a user buffer of which the bytes `buf` can be read. -/
def my_write (buf : List UInt8) (count : ℕ) (bytes : Option (ℕ → UInt8)) (h : Blocks) :
    Except Fault WriteOut :=
  let (str, h) := kmalloc (toU 64 (count + 1)) bytes h
  let (moved, left) := copy_from_user buf count
  (store h str 0 moved).bind fun h =>
    if left ≠ 0 then .ok ⟨-EFAULT, [], h⟩
    else
      (store h str count [0]).bind fun h =>
      (printk h str).bind fun line =>
      .ok ⟨toS 64 count, line, h.free str⟩

/-! ### Runs -/

/-- A call, and what `kmalloc` returns in it. -/
structure Call where
  buf : List UInt8
  count : ℕ
  bytes : Option (ℕ → UInt8)
  count_le : count ≤ SSIZE_MAX

/-- A call that faults ends the run. -/
def step (h : Blocks) (e : Call) : Option Blocks :=
  match my_write e.buf e.count e.bytes h with
  | .ok o => some o.heap
  | .error _ => none

/-- The call returns: `count`, or an error. No block is left after it. -/
def Disciplined (h : Blocks) (e : Call) : Prop :=
  ∃ o, my_write e.buf e.count e.bytes h = .ok o ∧
    (o.ret = e.count ∨ o.ret < 0) ∧ ∀ a, o.heap.get a = none

/-- `kmalloc` succeeds, and all of the user's buffer can be read. -/
def Fine (e : Call) : Prop := e.bytes.isSome = true ∧ e.count ≤ e.buf.length

instance (e : Call) : Decidable (Fine e) := inferInstanceAs (Decidable (_ ∧ _))

/-! ### One call -/

section One

variable {h : Blocks} {str o count : ℕ} {block buf d : List UInt8}

theorem store_eq (hget : h.get str = some block) (hfits : o + d.length ≤ block.length) :
    store h str o d = .ok (h.set str (block.take o ++ d ++ block.drop (o + d.length))) := by
  unfold store
  rw [hget]
  exact if_pos hfits

theorem printk_eq {line : List UInt8} (hget : h.get str = some block)
    (hs : string block = some line) : printk h str = .ok line := by
  unfold printk
  rw [hget]
  simp only [hs]

theorem toU_size (hc : count ≤ SSIZE_MAX) : toU 64 (count + 1) = count + 1 := by
  unfold SSIZE_MAX at hc
  have hfits := toU_natCast (w := 64) (n := count + 1) (by omega)
  push_cast at hfits
  exact hfits

theorem my_write_null (buf : List UInt8) (count : ℕ) (h : Blocks) :
    my_write buf count none h = .error .null := by
  unfold my_write kmalloc store
  simp only [h.null]
  rfl

theorem store_moved (bytes : ℕ → UInt8) (h : Blocks) (hd : d.length ≤ count) :
    ∃ t : Blocks, store (h.alloc ((List.range (count + 1)).map bytes)) h.next 0 d = .ok t ∧
      (∃ tail, t.get h.next = some (d ++ tail) ∧ d.length + tail.length = count + 1) ∧
      ∀ a, a ≠ h.next → t.get a = h.get a := by
  have hlen : ((List.range (count + 1)).map bytes).length = count + 1 := by simp
  refine ⟨_, store_eq h.get_alloc_self (by omega),
    ⟨((List.range (count + 1)).map bytes).drop d.length, ?_, ?_⟩, fun a ha => ?_⟩
  · rw [Heap.get_set_self h.get_alloc_self]
    simp
  · rw [List.length_drop]
    omega
  · rw [Heap.get_set_of_ne _ ha, h.get_alloc_of_ne ha]

theorem my_write_short (bytes : ℕ → UInt8) (h : Blocks) (hc : count ≤ SSIZE_MAX)
    (hb : buf.length < count) : ∃ o, my_write buf count (some bytes) h = .ok o ∧
      o.ret = -EFAULT ∧ o.heap.get h.next ≠ none := by
  have hd : (buf.take count).length ≤ count := by simp
  obtain ⟨t, ht, ⟨tail, hget, -⟩, -⟩ := store_moved bytes h hd
  refine ⟨⟨-EFAULT, [], t⟩, ?_, rfl, ?_⟩
  · unfold my_write kmalloc copy_from_user
    simp only [toU_size hc, ht, Except.bind]
    rw [if_pos (by omega)]
  · rw [hget]
    exact Option.some_ne_none _

theorem my_write_fine (bytes : ℕ → UInt8) (h : Blocks) (hc : count ≤ SSIZE_MAX)
    (hb : count ≤ buf.length) : ∃ o, my_write buf count (some bytes) h = .ok o ∧
      o.ret = count ∧ string (buf.take count ++ [0]) = some o.printed ∧
      ∀ a, o.heap.get a = h.get a := by
  have hd : (buf.take count).length = count := by simp; omega
  obtain ⟨t, ht, ⟨tail, hget, htail⟩, hframe⟩ := store_moved bytes h hd.le
  have hnul : (buf.take count ++ [0])[count]? = some 0 := by
    rw [List.getElem?_append_right hd.le, hd, Nat.sub_self]
    rfl
  obtain ⟨k, hk, -⟩ := strlen_le hnul
  have hstring : string (buf.take count ++ [0]) = some ((buf.take count ++ [0]).take k) := by
    unfold string
    rw [hk, Option.map_some]
  -- the NUL goes over the one byte that is left of the block
  have hstore := store_eq (o := count) (d := [0]) hget (by simp; omega)
  have hblock : (buf.take count ++ tail).take count ++ [0] ++
      (buf.take count ++ tail).drop (count + [(0 : UInt8)].length) = buf.take count ++ [0] := by
    rw [List.take_left' hd, List.drop_eq_nil_of_le (by simp; omega), List.append_nil]
  rw [hblock] at hstore
  refine ⟨⟨count, (buf.take count ++ [0]).take k,
    (t.set h.next (buf.take count ++ [0])).free h.next⟩, ?_, rfl, hstring, fun a => ?_⟩
  · have hprint := printk_eq (Heap.get_set_self hget) hstring
    unfold my_write kmalloc copy_from_user
    simp only [toU_size hc, toS_count hc, ht, hstore, hprint, Except.bind]
    rw [if_neg (by omega)]
  · by_cases ha : a = h.next
    · rw [ha, Heap.get_free_self, h.fresh h.next le_rfl]
    · rw [Heap.get_free_of_ne _ ha, Heap.get_set_of_ne _ ha, hframe a ha]

end One

/-! ### Every run -/

theorem fine_of_disciplined {h : Blocks} {e : Call} (hd : Disciplined h e) : Fine e := by
  obtain ⟨buf, count, bytes, hc⟩ := e
  obtain ⟨o, ho, -, hlive⟩ := hd
  rcases bytes with _ | bytes
  · simp only [my_write_null] at ho
    cases ho
  · refine ⟨rfl, Nat.le_of_not_lt fun hb => ?_⟩
    obtain ⟨o', ho', -, hleft⟩ := my_write_short bytes h hc hb
    obtain rfl := Except.ok.inj (ho.symm.trans ho')
    exact hleft (hlive h.next)

theorem fine_eq {h : Blocks} {e : Call} (hf : Fine e) : ∃ o,
    my_write e.buf e.count e.bytes h = .ok o ∧ o.ret = e.count ∧
      ∀ a, o.heap.get a = h.get a := by
  obtain ⟨buf, count, bytes, hc⟩ := e
  obtain ⟨hsome, hb⟩ := hf
  rcases bytes with _ | bytes
  · cases hsome
  · obtain ⟨o, ho, hret, -, hheap⟩ := my_write_fine bytes h hc hb
    exact ⟨o, ho, hret, hheap⟩

/-- **The heap discipline**: every call of a run is disciplined if and only if
every `kmalloc` succeeds and every user buffer can be read. -/
theorem disciplined_iff (es : List Call) :
    Machine.Always step Disciplined Heap.empty es ↔
      Machine.Always step (fun _ e => Fine e) Heap.empty es := by
  constructor
  · intro hd pre e hp h hrun
    exact fine_of_disciplined (hd pre e hp h hrun)
  · intro hf pre e hp h hrun
    have hfine : Fine e := hf pre e hp h hrun
    have hempty : ∀ a, h.get a = none := by
      refine Machine.run_hist_of (fun _ e => Fine e) (fun _ h => ∀ a, h.get a = none)
        (fun _ => rfl) ?_ hrun (hf.mono ((List.prefix_append _ _).trans hp))
      intro es h e t _ ih hfine hstep a
      obtain ⟨o, ho, -, hheap⟩ := fine_eq (h := h) hfine
      unfold step at hstep
      rw [ho] at hstep
      obtain rfl := Option.some.inj hstep
      rw [hheap, ih]
    obtain ⟨o, ho, hret, hheap⟩ := fine_eq (h := h) hfine
    exact ⟨o, ho, Or.inl hret, fun a => by rw [hheap, hempty]⟩

/-- A write of three bytes, and one of none. -/
theorem disciplined_two : Machine.Always step Disciplined Heap.empty
    [⟨[65, 66, 67], 3, some fun _ => 7, by decide⟩, ⟨[], 0, some fun _ => 7, by decide⟩] :=
  (disciplined_iff _).mpr (by decide)

/-- A `kmalloc` that fails is stored through; a copy that fails leaves its
block. -/
theorem unchecked_leaked :
    my_write [65] 1 none Heap.empty = .error .null ∧
    (∃ o, my_write [] 1 (some fun _ => 7) Heap.empty = .ok o ∧ o.ret = -EFAULT ∧
      o.heap.get 1 ≠ none) ∧
    ¬ Machine.Always step Disciplined Heap.empty [⟨[], 1, some fun _ => 7, by decide⟩] := by
  refine ⟨my_write_null _ _ _, my_write_short _ Heap.empty (by decide) (by decide), fun h => ?_⟩
  have hfine := fine_of_disciplined (h [] _ (List.prefix_refl _) Heap.empty rfl)
  exact absurd hfine (by decide)

end Allocation
end Pb173
