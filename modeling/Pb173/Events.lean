/-
# The string device (11/events)

`my_write` copies up to nine bytes from the user straight into `str`, and then
stores a NUL at its end; `my_read` reads the string before the first NUL. Both
run under `my_lock`, so a call is one step.

The NUL at the end is there after every run, and a reader never leaves `str`
(`terminated`). But a write does not end the string where its data end, and
returns the whole of `count`: what is read back is what was written if and only
if it fits and a NUL was there already behind it (`round_trip_iff`). A copy that
fails on the way has stored its beginning (`undisturbed_iff`).
-/
import Pb173.CString
import Pb173.Machine
import Pb173.Overwrite
import Pb173.ReadLoop

namespace Pb173
namespace Events

open CInt

/-! ### The device -/

/-- `static char str[10]`. -/
abbrev Str := Vector UInt8 10

/-- What a `copy_from_user` of `n` bytes stores: the bytes that can be read, and
if `pad` zeros for the others. -/
def stored (buf : List UInt8) (n : ℕ) (pad : Bool) : List UInt8 :=
  let (moved, left) := copy_from_user buf n
  moved ++ if pad then List.replicate left 0 else []

/-- `my_write`: what it returns, and `str`. -/
def my_write (buf : List UInt8) (count : ℕ) (pad : Bool) (str : Str) : ℤ × Str :=
  let n := min count (10 - 1)
  let str := overwrite str 0 (stored buf n pad)
  let ret := if (copy_from_user buf n).2 ≠ 0 then -EFAULT else toS 64 count
  (ret, str.set 9 0)

/-- `my_read`; it is `none` if `strlen` leaves `str`. -/
def my_read (srfb : SimpleReadFromBuffer) (str : Str) (room count : ℕ) (off : ℤ) :
    Option ReadOut :=
  (strlen str.toList).map fun n => srfb room count off (str.toList.take n)

inductive Ev
  | write (buf : List UInt8) (count : ℕ) (pad : Bool)
  | read (room count : ℕ) (off : ℤ)

def step (srfb : SimpleReadFromBuffer) (str : Str) : Ev → Option Str
  | .write buf count pad => some (my_write buf count pad str).2
  | .read room count off => (my_read srfb str room count off).map fun _ => str

def start : Str := Vector.replicate 10 0

/-! ### The NUL at the end -/

section Terminated

variable {srfb : SimpleReadFromBuffer} {str : Str}

theorem my_write_nul (buf : List UInt8) (count : ℕ) (pad : Bool) (str : Str) :
    (my_write buf count pad str).2[9] = 0 :=
  Vector.getElem_set_self _

theorem getElem?_nul (h : str[9] = 0) : str.toList[9]? = some 0 := by
  rw [Vector.getElem?_toList, Vector.getElem?_eq_getElem (by decide), h]

theorem strlen_str (h : str[9] = 0) : ∃ n, strlen str.toList = some n ∧ n ≤ 9 :=
  strlen_le (getElem?_nul h)

theorem my_read_eq {n : ℕ} (hn : strlen str.toList = some n) (room count : ℕ) (off : ℤ) :
    my_read srfb str room count off = some (srfb room count off (str.toList.take n)) := by
  unfold my_read
  rw [hn, Option.map_some]

theorem drain_str {n fuel : ℕ} (hs : CopiesSlice srfb) (hn : strlen str.toList = some n)
    (cs : ℕ → ℕ) (hc : ∀ k, 0 < cs k) (hf : 10 ≤ fuel) :
    drain (my_read srfb str) fuel (fun k => (cs k, cs k)) 0 = some (str.toList.take n) := by
  have hlt := strlen_lt_length hn
  have hlen : (str.toList.take n).length = n := by
    rw [List.length_take]
    omega
  rw [Vector.length_toList] at hlt
  exact drain_eq hs (by omega) (my_read_eq hn) fuel cs 0 hc (Nat.zero_le _) (by omega)

/-- **A call** can be made, and leaves the NUL. -/
theorem step_nul (srfb : SimpleReadFromBuffer) (h : str[9] = 0) (e : Ev) : ∃ t, step srfb str e = some t ∧ t[9] = 0 := by
  cases e with
  | write buf count pad => exact ⟨_, rfl, my_write_nul buf count pad str⟩
  | read room count off =>
    obtain ⟨n, hn, -⟩ := strlen_str h
    refine ⟨str, ?_, h⟩
    unfold step
    simp only
    rw [my_read_eq hn, Option.map_some]

/-- **Every run.** -/
theorem run_nul (srfb : SimpleReadFromBuffer) : ∀ (es : List Ev) (str : Str), str[9] = 0 →
    ∃ t, Machine.run (step srfb) str es = some t ∧ t[9] = 0
  | [], str, h => ⟨str, rfl, h⟩
  | e :: es, str, h => by
    obtain ⟨t, ht, h9⟩ := step_nul srfb h e
    obtain ⟨u, hu, h9⟩ := run_nul srfb es t h9
    refine ⟨u, ?_, h9⟩
    rw [Machine.run_cons, ht]
    exact hu

/-- **The string is terminated** after every run: no call gets stuck, the string
has up to nine bytes, a read sees these bytes only, and a client that reads from
offset 0 comes to an end with up to nine of them. -/
theorem terminated (hs : CopiesSlice srfb) (hb : CountsBytes srfb) (es : List Ev) :
    ∃ str n, Machine.run (step srfb) start es = some str ∧ str[9] = 0 ∧
      strlen str.toList = some n ∧ n ≤ 9 ∧
      (∀ room count off,
        my_read srfb str room count off = some (srfb room count off (str.toList.take n))) ∧
      ∀ cs, ∃ out, (∃ N, ∀ fuel, N ≤ fuel → drain (my_read srfb str) fuel cs 0 = some out) ∧
        out.length ≤ 9 := by
  obtain ⟨str, hrun, h9⟩ := run_nul srfb es start rfl
  obtain ⟨n, hn, hle⟩ := strlen_str h9
  refine ⟨str, n, hrun, h9, hn, hle, my_read_eq hn, fun cs => ?_⟩
  have hlen : (str.toList.take n).length ≤ 9 := by
    rw [List.length_take]
    omega
  obtain ⟨out, hout, hpre⟩ := drain_prefix hs hb (my_read_eq hn) 10 cs 0 (Nat.zero_le _) (by omega)
  refine ⟨out, ⟨10, fun fuel hf => drain_mono hf hout⟩, ?_⟩
  exact hpre.length_le.trans hlen

end Terminated

/-- After a write that faults behind its third byte the string is read. -/
theorem terminated_three : ∃ str n,
    Machine.run (step readSlice) start [.write [65, 66, 67] 5 false] = some str ∧ str[9] = 0 ∧
      strlen str.toList = some n ∧ n ≤ 9 := by
  obtain ⟨str, n, hrun, h9, hn, hle, -⟩ :=
    terminated readSlice_copies readSlice_counts [.write [65, 66, 67] 5 false]
  exact ⟨str, n, hrun, h9, hn, hle⟩

/-! ### Writing and reading back -/

section RoundTrip

variable {srfb : SimpleReadFromBuffer} {d : List UInt8}

/-- A write of all of `d` returns what of it is stored, and a client that reads
from offset 0 has that and no more. -/
structure RoundTrip (srfb : SimpleReadFromBuffer) (d more : List UInt8) (pad : Bool) (str : Str) :
    Prop where
  ret : (my_write (d ++ more) d.length pad str).1 = (min d.length 9 : ℕ)
  read : ∀ cs : ℕ → ℕ, (∀ k, 0 < cs k) → ∃ N, ∀ fuel, N ≤ fuel →
    drain (my_read srfb (my_write (d ++ more) d.length pad str).2) fuel (fun k => (cs k, cs k)) 0 =
      some (d.take (min d.length 9))

theorem my_write_copied (hlen : d.length ≤ SSIZE_MAX) (more : List UInt8) (pad : Bool) (str : Str) :
    my_write (d ++ more) d.length pad str =
      ((d.length : ℤ), (overwrite str 0 (d.take 9)).set 9 0) := by
  have hleft : min d.length (10 - 1) - (d ++ more).length = 0 := by
    rw [List.length_append]
    omega
  have hmoved : (d ++ more).take (min d.length (10 - 1)) = d.take 9 := by
    rw [List.take_append_of_le_length (Nat.min_le_left _ _), Nat.min_comm, ← List.take_take,
      List.take_length]
  unfold my_write stored copy_from_user
  simp only [hleft, hmoved, toS_count hlen, ne_eq, not_true, if_false, List.replicate_zero, ite_self,
    List.append_nil]

theorem take_copied (hd : d.length ≤ 9) (str : Str) :
    ((overwrite str 0 d).set 9 0).toList.take d.length = d := by
  apply List.ext_getElem
  · simp only [List.length_take, Vector.length_toList]
    omega
  · intro i hi hi'
    have hget : (overwrite str 0 d)[0 + i] = d[i] := getElem_overwrite_of_mem str 0 d hi' (by omega)
    simp only [Nat.zero_add] at hget
    rw [List.getElem_take, Vector.getElem_toList, Vector.getElem_set_ne _ _ (by omega), hget]

theorem getElem_copied (hd : d.length < 9) (str : Str) :
    ((overwrite str 0 d).set 9 0)[d.length] = str[d.length] := by
  rw [Vector.getElem_set_ne _ _ (by omega)]
  exact getElem_overwrite_of_not_mem str 0 d _ (Or.inr (by omega))

theorem strlen_copied_iff (hd : d.length ≤ 9) (hnul : (0 : UInt8) ∉ d) (str : Str) :
    strlen ((overwrite str 0 d).set 9 0).toList = some d.length ↔
      ∀ h : d.length < 9, str[d.length] = 0 := by
  set new := (overwrite str 0 d).set 9 0 with hnew
  have hsplit : new.toList = d ++ new.toList.drop d.length := by
    calc new.toList = new.toList.take d.length ++ new.toList.drop d.length :=
          (List.take_append_drop _ _).symm
      _ = d ++ new.toList.drop d.length := by rw [take_copied hd str]
  have hbehind : (new.toList.drop d.length)[0]? = new[d.length]? := by
    rw [List.getElem?_drop, Nat.add_zero, Vector.getElem?_toList]
  rw [hsplit, strlen_append_iff hnul, hbehind]
  by_cases h9 : d.length < 9
  · rw [Vector.getElem?_eq_getElem (by omega), Option.some_inj, getElem_copied h9 str]
    exact ⟨fun h _ => h, fun h => h h9⟩
  · have h9' : d.length = 9 := by omega
    refine iff_of_true ?_ fun h => absurd h h9
    rw [h9', Vector.getElem?_eq_getElem (by decide), Vector.getElem_set_self]

/-- **The round trip**, whatever was stored before: a string that fits comes
back if and only if a NUL was behind it, and one that does not fit never does. -/
theorem round_trip_iff (hs : CopiesSlice srfb) (hnul : (0 : UInt8) ∉ d)
    (hlen : d.length ≤ SSIZE_MAX) (more : List UInt8) (pad : Bool) (str : Str) :
    RoundTrip srfb d more pad str ↔
      d.length ≤ 9 ∧ ∀ h : d.length < 9, str[d.length] = 0 := by
  have hret : (my_write (d ++ more) d.length pad str).1 = d.length := by
    rw [my_write_copied hlen]
  have hnew : (my_write (d ++ more) d.length pad str).2 =
      (overwrite str 0 (d.take 9)).set 9 0 := by
    rw [my_write_copied hlen]
  constructor
  · rintro ⟨hmin, hread⟩
    rw [hret, Nat.cast_inj] at hmin
    have hd : d.length ≤ 9 := by omega
    obtain ⟨k, hk, hk9⟩ := strlen_str (my_write_nul (d ++ more) d.length pad str)
    obtain ⟨N, hN⟩ := hread (fun _ => 1) fun _ => Nat.one_pos
    have hback := (drain_str hs hk (fun _ => 1) (fun _ => Nat.one_pos)
      (Nat.le_add_left 10 N)).symm.trans (hN (N + 10) (Nat.le_add_right N 10))
    rw [← hmin, List.take_length, Option.some_inj] at hback
    have hkd : k = d.length := by
      rw [← hback, List.length_take, Vector.length_toList]
      omega
    rw [hnew, List.take_of_length_le hd, hkd] at hk
    exact ⟨hd, (strlen_copied_iff hd hnul str).mp hk⟩
  · rintro ⟨hd, hbehind⟩
    rw [List.take_of_length_le hd] at hnew
    have hstr : strlen (my_write (d ++ more) d.length pad str).2.toList = some d.length := by
      rw [hnew]
      exact (strlen_copied_iff hd hnul str).mpr hbehind
    refine ⟨by rw [hret, Nat.min_eq_left hd], fun cs hc => ⟨10, fun fuel hf => ?_⟩⟩
    rw [drain_str hs hstr cs hc hf, hnew, take_copied hd str, Nat.min_eq_left hd, List.take_length]

/-- Two bytes written to a device that was not written before. -/
theorem round_trip_two : RoundTrip readSlice [65, 66] [] false start :=
  (round_trip_iff readSlice_copies (by decide) (by decide) [] false start).mpr
    ⟨by decide, fun _ => rfl⟩

/-- One byte over three: the other two are read behind it. Ten bytes: the call
returns 10. -/
theorem tail_read : (my_write [65, 66, 67] 3 false start).2 =
      #v[65, 66, 67, 0, 0, 0, 0, 0, 0, 0] ∧
    ¬ RoundTrip readSlice [68] [] false #v[65, 66, 67, 0, 0, 0, 0, 0, 0, 0] ∧
    (my_write (List.replicate 10 65) 10 false start).1 = 10 ∧
    ¬ RoundTrip readSlice (List.replicate 10 65) [] false start := by
  refine ⟨by decide, fun h => ?_, by decide, fun h => ?_⟩
  · have hfits := (round_trip_iff readSlice_copies (by decide) (by decide) _ _ _).mp h
    exact absurd (hfits.2 (by decide)) (by decide)
  · have hfits := (round_trip_iff readSlice_copies (by decide) (by decide) _ _ _).mp h
    exact absurd hfits.1 (by decide)

end RoundTrip

/-! ### Writes that fault -/

section Undisturbed

variable {buf : List UInt8} {count : ℕ}

theorem stored_length_le (buf : List UInt8) (n : ℕ) (pad : Bool) :
    (stored buf n pad).length ≤ n := by
  unfold stored copy_from_user
  cases pad
  · simp
  · simp
    omega

theorem my_write_ret_iff (hc : count ≤ SSIZE_MAX) (pad : Bool) (str : Str) :
    (my_write buf count pad str).1 = -EFAULT ↔ buf.length < min count 9 := by
  unfold my_write copy_from_user
  simp only [toS_count hc, Nat.add_one_sub_one]
  by_cases h : min count 9 - buf.length ≠ 0
  · rw [if_pos h]
    exact iff_of_true rfl (by omega)
  · rw [if_neg h]
    refine iff_of_false (fun heq => ?_) (by omega)
    unfold EFAULT at heq
    omega

theorem my_write_eq_iff (buf : List UInt8) (count : ℕ) (pad : Bool) (str : Str) :
    (my_write buf count pad str).2 = str ↔
      str[9] = 0 ∧ stored buf (min count 9) pad <+: str.toList := by
  have hlen := stored_length_le buf (min count 9) pad
  rw [← overwrite_eq_self_iff str _ (by omega)]
  unfold my_write
  simp only [Nat.add_one_sub_one]
  constructor
  · intro h
    have h9 : str[9] = 0 := by
      rw [← h]
      exact Vector.getElem_set_self _
    refine ⟨h9, Vector.ext fun j hj => ?_⟩
    by_cases hj9 : j = 9
    · exact getElem_overwrite_of_not_mem str 0 _ hj (Or.inr (by omega))
    · have hat := congrArg (fun v : Str => v[j]) h
      simp only [Vector.getElem_set_ne _ hj (Ne.symm hj9)] at hat
      exact hat
  · rintro ⟨h9, h⟩
    rw [h]
    refine Vector.ext fun j hj => ?_
    by_cases hj9 : j = 9
    · subst hj9
      rw [Vector.getElem_set_self, h9]
    · rw [Vector.getElem_set_ne _ hj (Ne.symm hj9)]

/-- **A call that fails** leaves the device as it was if and only if it does not
fail, or what it stored was there already and ended with the NUL. -/
theorem undisturbed_iff (hc : count ≤ SSIZE_MAX) (buf : List UInt8) (pad : Bool) (str : Str) :
    ((my_write buf count pad str).1 = -EFAULT → (my_write buf count pad str).2 = str) ↔
      min count 9 ≤ buf.length ∨
        (str[9] = 0 ∧ stored buf (min count 9) pad <+: str.toList) := by
  rw [my_write_ret_iff hc, my_write_eq_iff]
  constructor
  · intro h
    rcases Nat.lt_or_ge buf.length (min count 9) with hb | hb
    · exact Or.inr (h hb)
    · exact Or.inl hb
  · rintro (h | h) hb
    · omega
    · exact h

/-- What a write of three bytes has stored when it faults behind the first was there. -/
theorem undisturbed_prefix :
    (my_write [65] 3 false #v[65, 66, 67, 0, 0, 0, 0, 0, 0, 0]).1 = -EFAULT ∧
      (my_write [65] 3 false #v[65, 66, 67, 0, 0, 0, 0, 0, 0, 0]).2 =
        #v[65, 66, 67, 0, 0, 0, 0, 0, 0, 0] := by
  have hfail : (my_write [65] 3 false #v[65, 66, 67, 0, 0, 0, 0, 0, 0, 0]).1 = -EFAULT := by decide
  have hsame := (undisturbed_iff (show 3 ≤ SSIZE_MAX by decide) [65] false
    #v[65, 66, 67, 0, 0, 0, 0, 0, 0, 0]).mpr (.inr ⟨by decide, by decide⟩)
  exact ⟨hfail, hsame hfail⟩

/-- A write of three bytes that faults behind the first has stored it. -/
theorem half_written :
    my_write [68] 3 false #v[65, 66, 67, 0, 0, 0, 0, 0, 0, 0] =
      (-EFAULT, #v[68, 66, 67, 0, 0, 0, 0, 0, 0, 0]) ∧
    ¬ ((my_write [68] 3 false #v[65, 66, 67, 0, 0, 0, 0, 0, 0, 0]).1 = -EFAULT →
      (my_write [68] 3 false #v[65, 66, 67, 0, 0, 0, 0, 0, 0, 0]).2 =
        #v[65, 66, 67, 0, 0, 0, 0, 0, 0, 0]) := by
  decide

end Undisturbed

end Events
end Pb173
