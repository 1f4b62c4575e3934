/-
# A bounded queue

A queue that holds at most `size` elements: `put` appends as many of the
given elements as there is room for and says how many those were, `get`
takes elements from the head. What has come out, followed by what is in the
queue, is what went in (`get_append`, `put_items`).
-/
import Mathlib.Data.List.Basic

namespace Pb173

structure Fifo (α : Type*) (size : ℕ) where
  items : List α
  length_le : items.length ≤ size

namespace Fifo

variable {α : Type*} {size : ℕ}

def empty : Fifo α size := ⟨[], Nat.zero_le _⟩

variable (q : Fifo α size)

/-- The room left. -/
def avail : ℕ := size - q.items.length

theorem length_put_le (xs : List α) : (q.items ++ xs.take q.avail).length ≤ size := by
  have := q.length_le
  rw [List.length_append, List.length_take]
  unfold avail
  omega

theorem length_drop_le (n : ℕ) : (q.items.drop n).length ≤ size := by
  have := q.length_le
  rw [List.length_drop]
  omega

/-- Append what there is room for; with the number of elements appended. -/
def put (xs : List α) : ℕ × Fifo α size :=
  (min xs.length q.avail, ⟨q.items ++ xs.take q.avail, q.length_put_le xs⟩)

/-- Take up to `n` elements from the head. -/
def get (n : ℕ) : List α × Fifo α size := (q.items.take n, ⟨q.items.drop n, q.length_drop_le n⟩)

@[simp] theorem empty_items : (empty : Fifo α size).items = [] := rfl

theorem put_items (xs : List α) : (q.put xs).2.items = q.items ++ xs.take q.avail := rfl

theorem put_items_of_le {xs : List α} (h : xs.length ≤ q.avail) :
    (q.put xs).2.items = q.items ++ xs := by
  rw [put_items, List.take_of_length_le h]

theorem put_items_of_full {xs : List α} (h : q.avail = 0) : (q.put xs).2.items = q.items := by
  rw [put_items, h, List.take_zero, List.append_nil]

theorem get_append (n : ℕ) : (q.get n).1 ++ (q.get n).2.items = q.items :=
  List.take_append_drop n q.items

end Fifo
end Pb173
