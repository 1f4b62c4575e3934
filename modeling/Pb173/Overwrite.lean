/-
# Bounded copies into an array

`overwrite v o d` is the array `v` with the values `d` written from index
`o` on; what does not fit is dropped. Writing in pieces, each where the last
one ended, is writing the whole (`overwrite_append`), and what is read back
is the new value inside the window and the old one outside
(`getElem_overwrite_of_mem`, `getElem_overwrite_of_not_mem`).
-/
import Mathlib.Data.Vector.Basic

namespace Pb173

variable {α : Type*} {n : ℕ}

/-- `v` with the values `d` from index `o` on. -/
def overwrite (v : Vector α n) (o : ℕ) (d : List α) : Vector α n :=
  Vector.ofFn fun j => if h : o ≤ j.1 ∧ j.1 - o < d.length then d[j.1 - o] else v[j.1]

theorem getElem_overwrite (v : Vector α n) (o : ℕ) (d : List α) {j : ℕ} (hj : j < n) :
    (overwrite v o d)[j] = if h : o ≤ j ∧ j - o < d.length then d[j - o] else v[j] := by
  simp [overwrite]

theorem getElem_overwrite_of_mem (v : Vector α n) (o : ℕ) (d : List α) {k : ℕ}
    (hk : k < d.length) (hj : o + k < n) : (overwrite v o d)[o + k] = d[k] := by
  rw [getElem_overwrite, dif_pos ⟨by omega, by omega⟩]
  congr 1
  omega

theorem getElem_overwrite_of_not_mem (v : Vector α n) (o : ℕ) (d : List α) {j : ℕ} (hj : j < n)
    (h : j < o ∨ o + d.length ≤ j) : (overwrite v o d)[j] = v[j] := by
  rw [getElem_overwrite, dif_neg (by omega)]

@[simp] theorem overwrite_nil (v : Vector α n) (o : ℕ) : overwrite v o [] = v := by
  ext j hj
  rw [getElem_overwrite_of_not_mem v o [] hj (by simp; omega)]

theorem overwrite_eq_self_iff (v : Vector α n) (d : List α) (hd : d.length ≤ n) :
    overwrite v 0 d = v ↔ d <+: v.toList := by
  rw [List.prefix_iff_getElem?]
  constructor
  · intro h i hi
    have hget : (overwrite v 0 d)[0 + i] = d[i] := getElem_overwrite_of_mem v 0 d hi (by omega)
    simp only [h, Nat.zero_add] at hget
    rw [Vector.getElem?_toList, Vector.getElem?_eq_getElem (by omega), hget]
  · intro h
    ext j hj
    by_cases hjd : j < d.length
    · have hget : (overwrite v 0 d)[0 + j] = d[j] := getElem_overwrite_of_mem v 0 d hjd (by omega)
      have hold := h j hjd
      rw [Vector.getElem?_toList, Vector.getElem?_eq_getElem hj, Option.some_inj] at hold
      simp only [Nat.zero_add] at hget
      rw [hget, hold]
    · exact getElem_overwrite_of_not_mem v 0 d hj (by omega)

theorem overwrite_singleton (v : Vector α n) {o : ℕ} (c : α) (h : o < n) :
    overwrite v o [c] = v.set o c := by
  ext j hj
  rw [getElem_overwrite, Vector.getElem_set]
  by_cases hjo : o = j
  · subst hjo
    simp
  · rw [if_neg hjo, dif_neg (by simp; omega)]

/-- Two copies, the second where the first ended, are one. -/
theorem overwrite_append (v : Vector α n) (o : ℕ) (d e : List α) :
    overwrite (overwrite v o d) (o + d.length) e = overwrite v o (d ++ e) := by
  ext j hj
  rw [getElem_overwrite, getElem_overwrite, getElem_overwrite]
  by_cases h1 : o + d.length ≤ j ∧ j - (o + d.length) < e.length
  · rw [dif_pos h1, dif_pos ⟨by omega, by simp; omega⟩,
      List.getElem_append_right (by omega)]
    congr 1
    omega
  · rw [dif_neg h1]
    by_cases h2 : o ≤ j ∧ j - o < d.length
    · rw [dif_pos h2, dif_pos ⟨h2.1, by simp; omega⟩, List.getElem_append_left h2.2]
    · rw [dif_neg h2, dif_neg (by simp; omega)]

end Pb173
