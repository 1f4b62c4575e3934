/-
# Reads and sets without a lock (02, 03, 10/homework)

`my_read` of 02, 03 and 10/homework looks at `char_count` twice: in the `switch`
that chooses the text, and when it returns. A set of another process may come
between the two. Each access is a step of its own here; an ioctl makes one.

What a read gives is what a whole call gives, for some value of `char_count`, if
and only if it returns the value that it has chosen the text by (`whole_iff`).
-/
import Pb173.Linear

namespace Pb173
namespace Torn

open MyDevice
open Linear (Call Out atomic)

/-- Where a call is; `seen` is what the `switch` has chosen the text by. -/
inductive Pc
  | idle
  | copied (seen : ℤ) (mem : UserMem)
  | done (r : Out)

structure State (ι : Type*) where
  char_count : ℤ
  pc : ι → Pc

/-- A call starts, and a read returns. -/
inductive Ev (ι : Type*)
  | enter (i : ι)
  | ret (i : ι)

/-- A call up to its second access; a read that cannot copy all of `str` makes none. -/
def begin (c : Call) (char_count : ℤ) : Pc :=
  match c with
  | .my_read str buf room _ mem =>
    let str := switch char_count str
    let (mem, left) := copy_to_user mem room buf str.toList
    if left ≠ 0 then .done ⟨-EFAULT, mem⟩ else .copied char_count mem
  | .my_unlocked_ioctl e => .done ⟨(e.out char_count).ret, (e.out char_count).mem⟩

section Machine

variable {ι : Type*} [DecidableEq ι] (calls : ι → Call)

def step (s : State ι) : Ev ι → Option (State ι)
  | .enter i =>
    match s.pc i with
    | .idle => some
        { char_count := (atomic (calls i) s.char_count).1
          pc := Function.update s.pc i (begin (calls i) s.char_count) }
    | _ => none
  | .ret i =>
    match s.pc i with
    | .copied _ mem => some { s with pc := Function.update s.pc i (.done ⟨s.char_count, mem⟩) }
    | _ => none

def start : State ι := ⟨MyDevice.start, fun _ => .idle⟩

/-- A call gives what it gives as a whole, for some value of `char_count`. -/
def Whole (c : Call) : Pc → Prop
  | .done r => ∃ v, 1 ≤ v ∧ v ≤ 4 ∧ r = (atomic c v).2
  | _ => True

def AllWhole (s : State ι) : Prop := ∀ i, Whole (calls i) (s.pc i)

/-- A read that returns finds `char_count` as it was at the `switch`. -/
def Steady (s : State ι) : Ev ι → Prop
  | .ret i => ∀ seen mem, s.pc i = .copied seen mem → s.char_count = seen
  | .enter _ => True

end Machine

/-! ### The texts -/

theorem switch_nul {c : ℤ} (hc : 1 ≤ c ∧ c ≤ 4) (str : Vector UInt8 5) {i : ℕ} (hi : (i : ℤ) = c)
    (h5 : i < 5) : (switch c str)[i] = 0 := by
  have hlen : (chars "Ahoj").length = 4 := by decide
  have hget : (overwrite str 0 ((chars "Ahoj").take c.toNat ++ [0]))[0 + i] = _ :=
    getElem_overwrite_of_mem str 0 _ (by simp; omega) (by omega)
  simp only [Nat.zero_add] at hget
  rw [switch_eq hc]
  unfold strcpy
  rw [hget, List.getElem_append_right (by rw [List.length_take]; omega)]
  simp

theorem switch_letter {c : ℤ} (hc : 1 ≤ c ∧ c ≤ 4) (str : Vector UInt8 5) {i : ℕ}
    (hi : (i : ℤ) < c) (h5 : i < 5) : (switch c str)[i] ≠ 0 := by
  intro h0
  have hget := getElem_switch hc str hi h5
  rw [h0] at hget
  have hletters : ∀ k < 4, some 0 ≠ (chars "Ahoj")[k]? := by decide
  exact hletters i (by omega) hget

theorem switch_inj {c d : ℤ} (hc : 1 ≤ c ∧ c ≤ 4) (hd : 1 ≤ d ∧ d ≤ 4) {str : Vector UInt8 5}
    (h : switch c str = switch d str) : c = d := by
  have hle : ∀ {a b : ℤ}, 1 ≤ a ∧ a ≤ 4 → 1 ≤ b ∧ b ≤ 4 → switch a str = switch b str → b ≤ a := by
    intro a b ha hb hab
    by_contra hlt
    obtain ⟨i, rfl⟩ := Int.eq_ofNat_of_zero_le (show 0 ≤ a by omega)
    refine switch_letter hb str (i := i) (by omega) (by omega) ?_
    rw [← hab]
    exact switch_nul ha str rfl (by omega)
  exact le_antisymm (hle hd hc h.symm) (hle hc hd h)

/-! ### Where a call is -/

/-- A read that goes on has copied the text that it has chosen. -/
def Chosen (c : Call) : Pc → Prop
  | .copied seen mem' => (1 ≤ seen ∧ seen ≤ 4) ∧
    ∃ str buf room count mem, c = .my_read str buf room count mem ∧ 5 ≤ room ∧
      mem' = (my_read str buf room count mem seen).2
  | _ => True

theorem chosen_begin (c : Call) {v : ℤ} (hv : 1 ≤ v ∧ v ≤ 4) : Chosen c (begin c v) := by
  rcases c with ⟨str, buf, room, count, mem⟩ | e
  · unfold begin copy_to_user
    simp only [Vector.length_toList]
    split_ifs with hroom
    · trivial
    · refine ⟨hv, str, buf, room, count, mem, rfl, by omega, ?_⟩
      rw [my_read_eq]
  · trivial

theorem whole_begin (c : Call) {v : ℤ} (hv : 1 ≤ v ∧ v ≤ 4) : Whole c (begin c v) := by
  rcases c with ⟨str, buf, room, count, mem⟩ | e
  · unfold begin copy_to_user
    simp only [Vector.length_toList]
    split_ifs with hroom
    · refine ⟨v, hv.1, hv.2, ?_⟩
      simp only [atomic, my_read_eq]
      rw [if_pos (by omega)]
    · trivial
  · exact ⟨v, hv.1, hv.2, rfl⟩

/-- Five bytes tell by which value the text was chosen. -/
theorem my_read_inj {str : Vector UInt8 5} {buf room count : ℕ} {mem : UserMem} {c d : ℤ}
    (hroom : 5 ≤ room) (hc : 1 ≤ c ∧ c ≤ 4) (hd : 1 ≤ d ∧ d ≤ 4)
    (h : (my_read str buf room count mem c).2 = (my_read str buf room count mem d).2) : c = d := by
  have hsame : switch c str = switch d str := by
    refine Vector.ext fun i h5 => ?_
    have hat := congrFun h (buf + i)
    rwa [my_read_moved str buf room count mem c h5 (by omega),
      my_read_moved str buf room count mem d h5 (by omega)] at hat
  exact switch_inj hc hd hsame

/-! ### Every interleaving -/

section Run

variable {ι : Type*} [DecidableEq ι] {calls : ι → Call}

/-- `char_count` stays in its range. -/
structure Fits (calls : ι → Call) (s : State ι) : Prop where
  range : 1 ≤ s.char_count ∧ s.char_count ≤ 4
  chosen : ∀ i, Chosen (calls i) (s.pc i)

theorem atomic_range (c : Call) {v : ℤ} (hv : 1 ≤ v ∧ v ≤ 4) :
    1 ≤ (atomic c v).1 ∧ (atomic c v).1 ≤ 4 := by
  rcases c with ⟨str, buf, room, count, mem⟩ | e
  · exact hv
  · exact step_range hv rfl

theorem step_cases {s t : State ι} {e : Ev ι} (h : step calls s e = some t) :
    (∃ i, e = .enter i ∧ s.pc i = .idle ∧
      t = ⟨(atomic (calls i) s.char_count).1,
        Function.update s.pc i (begin (calls i) s.char_count)⟩) ∨
    (∃ i seen mem, e = .ret i ∧ s.pc i = .copied seen mem ∧
      t = ⟨s.char_count, Function.update s.pc i (.done ⟨s.char_count, mem⟩)⟩) := by
  cases e with
  | enter i =>
    simp only [step] at h
    split at h
    · rename_i hp
      exact .inl ⟨i, rfl, hp, (Option.some.inj h).symm⟩
    · cases h
  | ret i =>
    simp only [step] at h
    split at h
    · rename_i seen mem hp
      exact .inr ⟨i, seen, mem, rfl, hp, (Option.some.inj h).symm⟩
    · cases h

theorem Fits.step {s t : State ι} {e : Ev ι} (h : Fits calls s) (he : step calls s e = some t) :
    Fits calls t := by
  obtain ⟨i, rfl, hp, rfl⟩ | ⟨i, seen, mem, rfl, hp, rfl⟩ := step_cases he
  · refine ⟨atomic_range _ h.range, ?_⟩
    exact (Function.forall_update_iff s.pc fun j p => Chosen (calls j) p).mpr
      ⟨chosen_begin _ h.range, fun j _ => h.chosen j⟩
  · refine ⟨h.range, ?_⟩
    exact (Function.forall_update_iff s.pc fun j p => Chosen (calls j) p).mpr
      ⟨trivial, fun j _ => h.chosen j⟩

omit [DecidableEq ι] in
/-- A read that returns gives what a whole call gives if and only if it finds what it has seen. -/
theorem whole_ret {s : State ι} (h : Fits calls s) {i : ι} {seen : ℤ} {mem' : UserMem}
    (hp : s.pc i = .copied seen mem') :
    Whole (calls i) (.done ⟨s.char_count, mem'⟩) ↔ s.char_count = seen := by
  have hchosen := h.chosen i
  rw [hp] at hchosen
  obtain ⟨hseen, str, buf, room, count, mem, hcall, hroom, rfl⟩ := hchosen
  have hret : ∀ v, (atomic (calls i) v).2 = ⟨v, (my_read str buf room count mem v).2⟩ := by
    intro v
    rw [hcall]
    simp only [atomic, my_read_eq]
    rw [if_neg (by omega)]
  constructor
  · rintro ⟨v, h1, h4, hv⟩
    rw [hret] at hv
    obtain ⟨rfl, hmem⟩ := Out.mk.inj hv
    exact (my_read_inj hroom hseen ⟨h1, h4⟩ hmem).symm
  · rintro rfl
    exact ⟨s.char_count, h.range.1, h.range.2, (hret _).symm⟩

/-- **Reads without a lock.** All calls of a run give what whole calls give if and only if each
read that has copied its text finds `char_count` as it was at the `switch`. -/
theorem whole_iff (calls : ι → Call) (es : List (Ev ι)) :
    Machine.Visits (step calls) (AllWhole calls) start es ↔
      Machine.Always (step calls) Steady start es := by
  have hstart : 1 ≤ MyDevice.start ∧ MyDevice.start ≤ 4 := by decide
  refine Machine.visits_iff_always (I := Fits calls) (fun s e t h he => h.step he) ?_ ?_ es start
    ⟨hstart, fun _ => trivial⟩ fun _ => trivial
  · intro s e t h hw he
    obtain ⟨i, rfl, hp, rfl⟩ | ⟨i, seen, mem, rfl, hp, rfl⟩ := step_cases he
    · refine iff_of_true ?_ trivial
      exact (Function.forall_update_iff s.pc fun j p => Whole (calls j) p).mpr
        ⟨whole_begin _ h.range, fun j _ => hw j⟩
    · have hall : AllWhole calls ⟨s.char_count, Function.update s.pc i (.done ⟨s.char_count, mem⟩)⟩ ↔
          Whole (calls i) (.done ⟨s.char_count, mem⟩) :=
        (Function.forall_update_iff s.pc fun j p => Whole (calls j) p).trans
          (and_iff_left fun j _ => hw j)
      rw [hall, whole_ret h hp]
      constructor
      · intro hs seen' mem' hp'
        obtain ⟨rfl, -⟩ := Pc.copied.inj (hp.symm.trans hp')
        exact hs
      · exact fun hs => hs seen mem hp
  · intro s e h hn
    cases e with
    | enter i => trivial
    | ret i =>
      intro seen mem hp
      simp only [step, hp] at hn
      cases hn

end Run

end Torn
end Pb173
