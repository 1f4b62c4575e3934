/-
# Ladders

A ledger is the resources that are held, and those that were released
without being held. A ladder acquires its resources rung by rung; where a
rung fails, the rungs below it release theirs, the highest first, and the
error is returned. That a failed climb leaves things as they were is shown
rung by rung (`Undoes`): what a rung needs to find, and what its release
needs to find when it comes to it, are said of it by a condition and a
relation of its own, and a climb that fails ends related to its start
(`climb_error`).
-/
import Mathlib.Algebra.Order.Group.Multiset

namespace Pb173

/-! ### Ledgers -/

/-- What is held, and what was released without being held. -/
structure Ledger (R : Type*) where
  held : Multiset R
  bad : Multiset R

namespace Ledger

variable {R : Type*} [DecidableEq R]

def empty : Ledger R := ⟨0, 0⟩

omit [DecidableEq R] in
theorem ext_of {l l' : Ledger R} (hh : l.held = l'.held) (hb : l.bad = l'.bad) : l = l' := by
  cases l
  cases l'
  cases hh
  cases hb
  rfl

def acquire (l : Ledger R) (r : R) : Ledger R := { l with held := r ::ₘ l.held }

def release (l : Ledger R) (r : R) : Ledger R :=
  if r ∈ l.held then { l with held := l.held.erase r } else { l with bad := r ::ₘ l.bad }

theorem release_of_held {l : Ledger R} {r : R} {k : Multiset R} (h : l.held = r ::ₘ k) :
    l.release r = ⟨k, l.bad⟩ := by
  unfold release
  rw [h, if_pos (Multiset.mem_cons_self r k), Multiset.erase_cons_head]

@[simp] theorem release_acquire (l : Ledger R) (r : R) : (l.acquire r).release r = l :=
  release_of_held rfl

theorem release_of_eq {l k : Ledger R} {r : R} (h : l = k.acquire r) : l.release r = k := by
  rw [h, release_acquire]

theorem count_acquire (l : Ledger R) (r q : R) :
    (l.acquire r).held.count q = l.held.count q + if q = r then 1 else 0 :=
  Multiset.count_cons q r l.held

theorem count_release (l : Ledger R) (r q : R) :
    (l.release r).held.count q = l.held.count q - if q = r then 1 else 0 := by
  unfold release
  by_cases hr : r ∈ l.held
  · rw [if_pos hr]
    by_cases hq : q = r
    · rw [hq, if_pos rfl]
      exact Multiset.count_erase_self r l.held
    · rw [if_neg hq]
      exact Multiset.count_erase_of_ne hq l.held
  · rw [if_neg hr]
    by_cases hq : q = r
    · rw [hq, Multiset.count_eq_zero.mpr hr, Nat.zero_sub]
    · rw [if_neg hq, Nat.sub_zero]

theorem bad_release {l : Ledger R} {r : R} (h : 0 < l.held.count r) : (l.release r).bad = l.bad := by
  unfold release
  rw [if_pos (Multiset.count_pos.mp h)]

theorem count_bad_release (l : Ledger R) {r q : R} (h : q ≠ r) :
    (l.release r).bad.count q = l.bad.count q := by
  unfold release
  split_ifs
  · rfl
  · exact Multiset.count_cons_of_ne h l.bad

theorem foldl_release : ∀ (rs : List R) (l : Ledger R) (k : Multiset R), l.held = ↑rs + k →
    rs.foldl release l = ⟨k, l.bad⟩
  | [], l, k, h => ext_of (h.trans (zero_add k)) rfl
  | r :: rs, l, k, h => by
    have hr : l.release r = ⟨↑rs + k, l.bad⟩ := by
      apply release_of_held
      rw [h, ← Multiset.cons_coe, Multiset.cons_add]
    rw [List.foldl_cons, hr]
    exact foldl_release rs _ k rfl

end Ledger

/-! ### Ladders -/

/-- A rung: an acquisition, which fails with an error or goes on with the
locals it sets, and what undoes it. -/
structure Rung (L σ ε : Type*) where
  acquire : L → σ → Except ε L × σ
  release : L → σ → σ

section Climb

variable {L σ ε : Type*}

/-- Climb, and come down again where a rung fails. -/
def climb : List (Rung L σ ε) → L → σ → Except ε L × σ
  | [], l, s => (.ok l, s)
  | r :: rs, l, s =>
    match r.acquire l s with
    | (.error e, t) => (.error e, t)
    | (.ok l, t) =>
      match climb rs l t with
      | (.error e, u) => (.error e, r.release l u)
      | (.ok l, u) => (.ok l, u)

theorem climb_cons_ok {r : Rung L σ ε} {rs : List (Rung L σ ε)} {l l' : L} {s t : σ}
    (h : climb (r :: rs) l s = (.ok l', t)) :
    ∃ k u, r.acquire l s = (.ok k, u) ∧ climb rs k u = (.ok l', t) := by
  unfold climb at h
  rcases hr : r.acquire l s with ⟨e | k, u⟩ <;> rw [hr] at h
  · cases h
  · simp only at h
    rcases hrs : climb rs k u with ⟨e | k', v⟩ <;> rw [hrs] at h
    · cases h
    · exact ⟨k, u, rfl, hrs.trans h⟩

/-- From a state that satisfies `P` the rung leads to one that satisfies `Q`, or
fails and restores `E`; what comes down to it related by `F` to what it left
is related by `E` to what it found, once it has released. -/
structure Rung.Undo (r : Rung L σ ε) (P Q : L → σ → Prop) (E F : L → σ → σ → Prop) : Prop where
  error : ∀ l s e t, P l s → r.acquire l s = (.error e, t) → E l t s
  ok : ∀ l s l' t, P l s → r.acquire l s = (.ok l', t) →
    Q l' t ∧ ∀ u, F l' u t → E l (r.release l' u) s

/-- Every rung undoes what it has done, as the next one needs it. -/
inductive Undoes : (P : L → σ → Prop) → (E : L → σ → σ → Prop) → List (Rung L σ ε) → Prop
  | nil (P : L → σ → Prop) (E : L → σ → σ → Prop) : Undoes P E []
  | cons {P Q : L → σ → Prop} {E F : L → σ → σ → Prop} {r : Rung L σ ε} {rs : List (Rung L σ ε)}
    (head : r.Undo P Q E F) (rest : Undoes Q F rs) : Undoes P E (r :: rs)

/-- **A climb that fails** ends where it started. -/
theorem climb_error {P : L → σ → Prop} {E : L → σ → σ → Prop} {rs : List (Rung L σ ε)}
    (h : Undoes P E rs) :
    ∀ {l : L} {s t : σ} {e : ε}, P l s → climb rs l s = (.error e, t) → E l t s := by
  induction h with
  | nil =>
    intro l s t e _ hc
    cases hc
  | @cons P Q E F r rs head _ ih =>
    intro l s t e hp hc
    unfold climb at hc
    rcases hr : r.acquire l s with ⟨e' | l', u⟩ <;> rw [hr] at hc
    · obtain ⟨-, rfl⟩ := Prod.mk.inj hc
      exact head.error l s _ _ hp hr
    · obtain ⟨hq, hrel⟩ := head.ok l s l' u hp hr
      simp only at hc
      rcases hrs : climb rs l' u with ⟨e' | l'', v⟩ <;> rw [hrs] at hc
      · obtain ⟨-, rfl⟩ := Prod.mk.inj hc
        exact hrel v (ih hq hrs)
      · cases hc

/-- The error of a climb is the error of one of its rungs. -/
theorem climb_error_mem : ∀ {rs : List (Rung L σ ε)} {l : L} {s t : σ} {e : ε},
    climb rs l s = (.error e, t) → ∃ r ∈ rs, ∃ l s t, r.acquire l s = (.error e, t)
  | [], _, _, _, _, h => by cases h
  | r :: rs, l, s, t, e, h => by
    unfold climb at h
    rcases hr : r.acquire l s with ⟨e' | l', u⟩ <;> rw [hr] at h
    · obtain ⟨he, -⟩ := Prod.mk.inj h
      cases he
      exact ⟨r, List.mem_cons_self, l, s, u, hr⟩
    · simp only at h
      rcases hrs : climb rs l' u with ⟨e' | l'', v⟩ <;> rw [hrs] at h
      · obtain ⟨he, -⟩ := Prod.mk.inj h
        cases he
        obtain ⟨r', hm, h'⟩ := climb_error_mem hrs
        exact ⟨r', List.mem_cons_of_mem r hm, h'⟩
      · cases h

end Climb

end Pb173
