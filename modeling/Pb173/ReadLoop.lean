/-
# Reading until nothing is read

A client reads from where the last read ended until one returns 0 or an
error. Over `simple_read_from_buffer` of fixed bytes it comes to an end
whatever counts it uses and however its memory faults, and has a prefix of
what was there (`drain_prefix`); with positive counts and memory that can be
written it has all of it (`drain_eq`).
-/
import Pb173.Kernel

namespace Pb173

/-- The bytes of a client that reads until nothing is read; `cs k` are the room
and the count of its read `k`. -/
def drain (read : (room count : ℕ) → ℤ → Option ReadOut) :
    ℕ → (ℕ → ℕ × ℕ) → ℤ → Option (List UInt8)
  | 0, _, _ => none
  | fuel + 1, cs, off =>
    (read (cs 0).1 (cs 0).2 off).bind fun r =>
      if r.ret ≤ 0 then some []
      else (drain read fuel (fun k => cs (k + 1)) r.off).map fun rest => r.out ++ rest

/-- More fuel changes nothing. -/
theorem drain_mono {read : (room count : ℕ) → ℤ → Option ReadOut} {out : List UInt8} :
    ∀ {fuel fuel' : ℕ} {cs : ℕ → ℕ × ℕ} {off : ℤ}, fuel ≤ fuel' →
      drain read fuel cs off = some out → drain read fuel' cs off = some out
  | 0, _, _, _, _, h => by cases h
  | fuel + 1, 0, _, _, hle, _ => by omega
  | fuel + 1, fuel' + 1, cs, off, hle, h => by
    unfold drain at h ⊢
    obtain ⟨r, hr, h⟩ := Option.bind_eq_some_iff.mp h
    rw [hr, Option.bind_some]
    by_cases hret : r.ret ≤ 0
    · rwa [if_pos hret] at h ⊢
    · rw [if_neg hret] at h ⊢
      obtain ⟨rest, hrest, rfl⟩ := Option.map_eq_some_iff.mp h
      rw [drain_mono (Nat.le_of_succ_le_succ hle) hrest, Option.map_some]

section Drain

variable {srfb : SimpleReadFromBuffer} {src : List UInt8}
  {read : (room count : ℕ) → ℤ → Option ReadOut}

/-- **The loop ends**, with a prefix of what is left. The induction is on it: a
read that goes on shortens it. -/
theorem drain_prefix (hs : CopiesSlice srfb) (hb : CountsBytes srfb)
    (hread : ∀ room count off, read room count off = some (srfb room count off src)) :
    ∀ (fuel : ℕ) (cs : ℕ → ℕ × ℕ) (o : ℕ), o ≤ src.length → src.length - o < fuel →
      ∃ out, drain read fuel cs o = some out ∧ out <+: src.drop o
  | 0, _, _, _, h => by omega
  | fuel + 1, cs, o, ho, hf => by
    unfold drain
    rw [hread, Option.bind_some]
    by_cases hret : (srfb (cs 0).1 (cs 0).2 o src).ret ≤ 0
    · rw [if_pos hret]
      exact ⟨[], rfl, List.nil_prefix⟩
    · obtain ⟨hout, hoff⟩ := hs.slice (cs 0).1 (cs 0).2 o src (by omega) (by omega)
      have hcount := hb (cs 0).1 (cs 0).2 o src (by omega) (by omega)
      rw [if_neg hret]
      obtain ⟨n, hn⟩ := Int.eq_ofNat_of_zero_le (show 0 ≤ (srfb (cs 0).1 (cs 0).2 o src).ret by omega)
      rw [hn] at hret hout hoff hcount
      rw [hout, Int.toNat_natCast, Int.toNat_natCast, List.length_take, List.length_drop] at hcount
      obtain ⟨rest, hrest, hpre⟩ := drain_prefix hs hb hread fuel (fun k => cs (k + 1)) (o + n)
        (by omega) (by omega)
      rw [Nat.cast_add] at hrest
      refine ⟨(src.drop o).take n ++ rest, ?_, ?_⟩
      · rw [hoff, hout, hrest]
        rfl
      · rw [← List.drop_drop] at hpre
        have htail := (List.prefix_append_right_inj ((src.drop o).take n)).mpr hpre
        rwa [List.take_append_drop] at htail

/-- **All of it is read** with positive counts. -/
theorem drain_eq (hs : CopiesSlice srfb) (hsrc : src.length < 2 ^ 63)
    (hread : ∀ room count off, read room count off = some (srfb room count off src)) :
    ∀ (fuel : ℕ) (cs : ℕ → ℕ) (o : ℕ), (∀ k, 0 < cs k) → o ≤ src.length →
      src.length - o < fuel → drain read fuel (fun k => (cs k, cs k)) o = some (src.drop o)
  | 0, _, _, _, _, h => by omega
  | fuel + 1, cs, o, hc, ho, hf => by
    unfold drain
    rw [hread, Option.bind_some]
    simp only
    have hfull := hs.full (cs 0) (cs 0) o src (by omega) (by omega) hsrc le_rfl
    have hpos := hc 0
    obtain ⟨hout, hoff⟩ := hs.slice (cs 0) (cs 0) o src (by omega) (by omega)
    by_cases hend : o = src.length
    · rw [if_pos (by omega), hend, List.drop_length]
    · have hret : (srfb (cs 0) (cs 0) o src).ret = (min (cs 0) (src.length - o) : ℕ) := by
        rw [hfull]
        omega
      have ih := drain_eq hs hsrc hread fuel (fun k => cs (k + 1)) (o + min (cs 0) (src.length - o))
        (fun k => hc (k + 1)) (by omega) (by omega)
      rw [Nat.cast_add] at ih
      rw [if_neg (by omega), hoff, hout, hret, ih, Option.map_some, ← List.drop_drop,
        Int.toNat_natCast, Int.toNat_natCast, List.take_append_drop]

end Drain

end Pb173
