/-
# A heap of allocations

Addresses are numbers, handed out in order and never again, and 0 is the
null pointer. An address is live while its allocation has not been freed; a
pointer that outlives its allocation never becomes valid again, so that
what is read through it is told apart from what is allocated later.
-/
import Mathlib.Data.Nat.Init

namespace Pb173

abbrev Ptr := ℕ

def NULL : Ptr := 0

/-- The contents of the live addresses, and the address of the next
allocation. -/
structure Heap (α : Type*) where
  get : ℕ → Option α
  next : ℕ
  next_pos : 0 < next
  null : get 0 = none
  fresh : ∀ a, next ≤ a → get a = none

namespace Heap

variable {α : Type*}

def empty : Heap α := ⟨fun _ => none, 1, Nat.one_pos, rfl, fun _ _ => rfl⟩

/-- Allocate at `h.next`. -/
def alloc (h : Heap α) (x : α) : Heap α where
  get b := if b = h.next then some x else h.get b
  next := h.next + 1
  next_pos := Nat.succ_pos _
  null := by
    have := h.next_pos
    rw [if_neg (by omega), h.null]
  fresh b hb := by rw [if_neg (by omega), h.fresh b (by omega)]

def free (h : Heap α) (a : ℕ) : Heap α where
  get b := if b = a then none else h.get b
  next := h.next
  next_pos := h.next_pos
  null := by
    split
    · rfl
    · exact h.null
  fresh b hb := by
    split
    · rfl
    · exact h.fresh b hb

/-- Write to a live address; a write elsewhere has no effect. -/
def set (h : Heap α) (a : ℕ) (x : α) : Heap α where
  get b := if b = a then (h.get b).map fun _ => x else h.get b
  next := h.next
  next_pos := h.next_pos
  null := by
    split
    · rw [h.null, Option.map_none]
    · exact h.null
  fresh b hb := by
    split
    · rw [h.fresh b hb, Option.map_none]
    · exact h.fresh b hb

variable (h : Heap α) {a b : ℕ} {x y : α}

@[simp] theorem next_alloc : (h.alloc x).next = h.next + 1 := rfl
@[simp] theorem next_free : (h.free a).next = h.next := rfl
@[simp] theorem next_set : (h.set a x).next = h.next := rfl

@[simp] theorem get_alloc_self : (h.alloc x).get h.next = some x := if_pos rfl
@[simp] theorem get_free_self : (h.free a).get a = none := if_pos rfl

theorem get_alloc_of_ne (hb : b ≠ h.next) : (h.alloc x).get b = h.get b := if_neg hb
theorem get_free_of_ne (hb : b ≠ a) : (h.free a).get b = h.get b := if_neg hb
theorem get_set_of_ne (hb : b ≠ a) : (h.set a x).get b = h.get b := if_neg hb

variable {h}

theorem lt_next (hb : h.get b = some y) : b < h.next := by
  apply Nat.lt_of_not_le
  intro hn
  rw [h.fresh b hn] at hb
  cases hb

theorem ne_null (hb : h.get b = some y) : b ≠ 0 := by
  rintro rfl
  rw [h.null] at hb
  cases hb

/-- An allocation leaves the live addresses as they are. -/
theorem get_alloc (hb : h.get b = some y) : (h.alloc x).get b = some y := by
  rw [h.get_alloc_of_ne (Nat.ne_of_lt (lt_next hb)), hb]

theorem get_free_eq_some : (h.free a).get b = some y ↔ b ≠ a ∧ h.get b = some y := by
  by_cases hb : b = a
  · subst hb
    simp
  · rw [h.get_free_of_ne hb]
    simp [hb]

theorem get_set_self (ha : h.get a = some y) : (h.set a x).get a = some x := by
  show (if a = a then (h.get a).map fun _ => x else h.get a) = some x
  rw [if_pos rfl, ha, Option.map_some]

theorem ne_of_get (hb : h.get b = some y) (ha : h.get a = some x) (hne : y ≠ x) : b ≠ a := by
  rintro rfl
  exact hne (Option.some.inj (hb.symm.trans ha))

theorem get_free_other (hb : h.get b = some y) (ha : h.get a = some x) (hne : y ≠ x) :
    (h.free a).get b = some y :=
  get_free_eq_some.mpr ⟨ne_of_get hb ha hne, hb⟩

theorem get_set_other (z : α) (hb : h.get b = some y) (ha : h.get a = some x) (hne : y ≠ x) :
    (h.set a z).get b = some y :=
  (h.get_set_of_ne (ne_of_get hb ha hne)).trans hb

end Heap
end Pb173
