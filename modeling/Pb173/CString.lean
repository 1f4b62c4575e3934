/-
# C strings in an array of bytes

`strlen s` is the index of the first NUL of `s`, if there is one: a scan for
it that finds none leaves the array. The string is what stands before it.
-/
import Mathlib.Data.List.Basic

namespace Pb173

/-- The length of the string at the start of `s`, if a NUL ends it there. -/
def strlen (s : List UInt8) : Option ℕ := s.findIdx? (· = 0)

/-- The string at the start of `s`. -/
def string (s : List UInt8) : Option (List UInt8) := (strlen s).map s.take

variable {s : List UInt8} {n : ℕ}

theorem strlen_eq_some_iff :
    strlen s = some n ↔ s[n]? = some 0 ∧ ∀ i < n, s[i]? ≠ some 0 := by
  unfold strlen
  rw [List.findIdx?_eq_some_iff_getElem]
  simp only [decide_eq_true_eq]
  constructor
  · rintro ⟨hn, h0, hlt⟩
    refine ⟨by rw [List.getElem?_eq_getElem hn, h0], fun i hi h => hlt i hi ?_⟩
    rw [List.getElem?_eq_getElem (Nat.lt_trans hi hn)] at h
    exact Option.some.inj h
  · rintro ⟨h0, hlt⟩
    obtain ⟨hn, h0⟩ := List.getElem?_eq_some_iff.mp h0
    refine ⟨hn, h0, fun i hi h => hlt i hi ?_⟩
    rw [List.getElem?_eq_getElem (Nat.lt_trans hi hn), h]

theorem strlen_le (h : s[n]? = some 0) : ∃ k, strlen s = some k ∧ k ≤ n := by
  have hmem : ∃ x, x ∈ s ∧ decide (x = 0) = true := ⟨0, List.mem_of_getElem? h, by decide⟩
  have hlen : strlen s = some _ := List.findIdx?_eq_some_of_exists hmem
  refine ⟨_, hlen, Nat.le_of_not_lt fun hlt => ?_⟩
  exact (strlen_eq_some_iff.mp hlen).2 n hlt h

theorem strlen_lt_length (h : strlen s = some n) : n < s.length :=
  (List.getElem?_eq_some_iff.mp (strlen_eq_some_iff.mp h).1).1

/-- Bytes without a NUL are the string if and only if a NUL follows. -/
theorem strlen_append_iff {d t : List UInt8} (hd : (0 : UInt8) ∉ d) :
    strlen (d ++ t) = some d.length ↔ t[0]? = some 0 := by
  rw [strlen_eq_some_iff, List.getElem?_append_right (Nat.le_refl _), Nat.sub_self]
  refine ⟨fun h => h.1, fun h => ⟨h, fun i hi h0 => hd ?_⟩⟩
  rw [List.getElem?_append_left hi] at h0
  exact List.mem_of_getElem? h0

theorem string_append {d t : List UInt8} (hd : (0 : UInt8) ∉ d) :
    string (d ++ 0 :: t) = some d := by
  unfold string
  rw [(strlen_append_iff hd).mpr rfl, Option.map_some, List.take_left' rfl]

/-- Bytes without a NUL are the first ones of the string. -/
theorem string_append_of_not_mem {d t : List UInt8} (hd : (0 : UInt8) ∉ d) :
    string (d ++ t) = (string t).map (d ++ ·) := by
  have hnone : d.findIdx? (fun x => decide (x = 0)) = none := by
    rw [List.findIdx?_eq_none_iff]
    intro x hx
    have hne : x ≠ 0 := fun h0 => hd (h0 ▸ hx)
    simpa using hne
  unfold string strlen
  rw [List.findIdx?_append, hnone]
  rcases t.findIdx? (fun x => decide (x = 0)) with _ | k
  · rfl
  · simp only [Option.map_some, Option.none_or, Nat.add_comm k, List.take_length_add_append]

end Pb173
