/-
# The 128-byte buffer device (04, 06)

`my_read_device` and `my_write_device` share the global `buffer`.
`buf_write` clamps the count twice (to the end of the buffer, then to five
bytes), copies from the user and stores byte by byte; `buf_read` is
`simple_read_from_buffer` under an offset test. A store outside the buffer
has no meaning in C, so the model gives none to it, and a call that returns
at all has indexed `buffer` only in `0..127`.

A client that writes all of `d` from offset `o` needs many calls; together
they are the one bounded copy `overwrite b o (d.take (127 - o))`
(`send_eq`): the clamp never lets byte 127 be written. Reading from offset
0 until nothing comes back yields the buffer (`drain_eq`).
-/
import Pb173.Kernel
import Pb173.Overwrite

namespace Pb173
namespace Buffer

open CInt

/-- `char buffer[128]`. -/
abbrev Buf := Vector UInt8 128

/-- `buffer[j] = c`. -/
def store (b : Buf) (j : ℤ) (c : UInt8) : Option Buf :=
  if h : 0 ≤ j ∧ j < 128 then some (b.set j.toNat c (by omega)) else none

/-- `for (i = 0; i < count; i++) buffer[i + *off] = cpy_buffer[i];` from `i`
on, with the values of `cpy_buffer` from index `i` to `count`. -/
def storeLoop (off : ℤ) : ℕ → List UInt8 → Buf → Option Buf
  | _, [], b => some b
  | i, c :: cs, b => (store b (i + off) c).bind (storeLoop off (i + 1) cs)

/-- The two clamps of `buf_write`. -/
def clamp (count : ℕ) (off : ℤ) : ℕ :=
  let count := if (toU 64 off + count) % 2 ^ 64 > 127 then toU 64 (127 - off) else count
  if count > 5 then 5 else count

/-- What `buf_write` does: its return value, the offset and the buffer it
leaves. -/
structure WriteOut where
  ret : ℤ
  off : ℤ
  buffer : Buf
deriving DecidableEq

/-- `buf_write` up to the lock: the bytes of `cpy_buffer`, or an early
return. -/
def prepare (buf : List UInt8) (count : ℕ) (off : ℤ) : List UInt8 ⊕ ℤ :=
  if off > 127 then .inr 0
  else
    let count := clamp count off
    let (cpy_buffer, left) := copy_from_user buf count
    if left ≠ 0 then .inr (-EFAULT) else .inl cpy_buffer

/-- `buf_write`. -/
def buf_write (buf : List UInt8) (count : ℕ) (off : ℤ) (buffer : Buf) : Option WriteOut :=
  match prepare buf count off with
  | .inr ret => some ⟨ret, off, buffer⟩
  | .inl cpy_buffer =>
    let count := clamp count off
    (storeLoop off 0 cpy_buffer buffer).map fun buffer =>
      ⟨toS 64 count, toS 64 (toU 64 off + count), buffer⟩

/-- `buf_read`. -/
def buf_read (srfb : SimpleReadFromBuffer) (room count : ℕ) (off : ℤ) (buffer : Buf) : ReadOut :=
  if off > 127 ∨ count = 0 then ⟨0, off, []⟩
  else
    let r := srfb room count off buffer.toList
    ⟨toS 64 (toU 64 r.ret), r.off, r.out⟩

/-! ### The clients -/

/-- A client that writes `rest` and goes on with what was not accepted, until
all is or a call returns 0; `none` when `fuel` calls did not end it, or when
one of them stored outside the buffer. -/
def send : ℕ → List UInt8 → ℤ → Buf → Option (ℤ × Buf)
  | 0, _, _, _ => none
  | fuel + 1, rest, off, b =>
    if rest = [] then some (off, b)
    else
      (buf_write rest rest.length off b).bind fun w =>
        if w.ret ≤ 0 then some (w.off, w.buffer)
        else send fuel (rest.drop w.ret.toNat) w.off w.buffer

/-- A client that reads with the counts `cs 0, cs 1, ...` until a call
returns 0: all the bytes it got. -/
def drain (srfb : SimpleReadFromBuffer) : ℕ → (ℕ → ℕ) → ℤ → Buf → Option (List UInt8)
  | 0, _, _, _ => none
  | fuel + 1, cs, off, b =>
    let r := buf_read srfb (cs 0) (cs 0) off b
    if r.ret ≤ 0 then some []
    else (drain srfb fuel (fun k => cs (k + 1)) r.off b).map (r.out ++ ·)

/-! ### One call -/

theorem store_eq (b : Buf) {j : ℕ} (c : UInt8) (h : j < 128) :
    store b j c = some (overwrite b j [c]) := by
  unfold store
  rw [dif_pos ⟨by omega, by omega⟩, overwrite_singleton b c h]
  rfl

theorem storeLoop_eq (o : ℕ) : ∀ (cs : List UInt8) (i : ℕ) (b : Buf), o + i + cs.length ≤ 128 →
    storeLoop o i cs b = some (overwrite b (o + i) cs)
  | [], _, b, _ => by simp [storeLoop]
  | c :: cs, i, b, h => by
    simp only [List.length_cons] at h
    have hs : store b ((i : ℤ) + o) c = some (overwrite b (o + i) [c]) := by
      rw [← store_eq b c (by omega : o + i < 128)]
      congr 1
      push_cast
      omega
    rw [storeLoop, hs, Option.bind_some, storeLoop_eq o cs (i + 1) _ (by omega)]
    have := overwrite_append b (o + i) [c] cs
    simpa [Nat.add_assoc] using this

/-- With what the VFS passes, the clamps are the two bounds. -/
theorem clamp_eq {count o : ℕ} (ho : o ≤ 127) (hc : count ≤ SSIZE_MAX) :
    clamp count o = min (min count 5) (127 - o) := by
  unfold SSIZE_MAX at hc
  unfold clamp
  rw [toU_natCast (by omega), toU_of_nonneg (by omega) (by omega), Nat.mod_eq_of_lt (by omega)]
  have : ((127 : ℤ) - o).toNat = 127 - o := by omega
  rw [this]
  simp only [gt_iff_lt]
  split_ifs <;> omega

theorem prepare_past {off : ℤ} (h : off > 127) (buf : List UInt8) (count : ℕ) :
    prepare buf count off = .inr 0 := if_pos h

theorem prepare_fault {off : ℤ} (h : off ≤ 127) {buf : List UInt8} {count : ℕ}
    (hf : (copy_from_user buf (clamp count off)).2 ≠ 0) :
    prepare buf count off = .inr (-EFAULT) := by
  unfold prepare
  rw [if_neg (by omega)]
  simp only [if_pos hf]

theorem prepare_ok {off : ℤ} (h : off ≤ 127) {buf : List UInt8} {count : ℕ}
    (hb : clamp count off ≤ buf.length) :
    prepare buf count off = .inl (buf.take (clamp count off)) := by
  unfold prepare copy_from_user
  rw [if_neg (by omega)]
  simp only [if_neg (show ¬ clamp count off - buf.length ≠ 0 by omega)]

/-- **One call of `buf_write`** whose copy succeeds stores what the two bounds
allow. -/
theorem buf_write_copied {buf : List UInt8} {count o : ℕ} (ho : o ≤ 127) (hc : count ≤ SSIZE_MAX)
    (hb : (copy_from_user buf (clamp count o)).2 = 0) (b : Buf) :
    buf_write buf count o b =
      some ⟨(min (min count 5) (127 - o) : ℕ), (o + min (min count 5) (127 - o) : ℕ),
        overwrite b o (buf.take (min (min count 5) (127 - o)))⟩ := by
  have hcl := clamp_eq ho hc
  have hread : clamp count o ≤ buf.length := Nat.le_of_sub_eq_zero hb
  unfold buf_write
  rw [prepare_ok (by omega) hread, hcl]
  simp only
  set n := min (min count 5) (127 - o) with hn
  have hlen : (buf.take n).length ≤ n := List.length_take_le _ _
  have hl := storeLoop_eq o (buf.take n) 0 b (by omega)
  rw [hl, Option.map_some, toS_of_nonneg (by omega) (by norm_num; omega), toU_natCast (by omega),
    toS_of_nonneg (by omega) (by norm_num; omega)]
  rfl

theorem buf_write_eq {buf : List UInt8} {count o : ℕ} (ho : o ≤ 127) (hc : count ≤ SSIZE_MAX)
    (hb : count ≤ buf.length) (b : Buf) :
    buf_write buf count o b =
      some ⟨(min (min count 5) (127 - o) : ℕ), (o + min (min count 5) (127 - o) : ℕ),
        overwrite b o (buf.take (min (min count 5) (127 - o)))⟩ := by
  apply buf_write_copied ho hc
  apply Nat.sub_eq_zero_of_le
  rw [clamp_eq ho hc]
  omega

theorem buf_write_past {off : ℤ} (h : off > 127) (buf : List UInt8) (count : ℕ) (b : Buf) :
    buf_write buf count off b = some ⟨0, off, b⟩ := by
  unfold buf_write
  rw [prepare_past h]

/-- A call whose copy fails returns `-EFAULT` and changes nothing. -/
theorem buf_write_fault {off : ℤ} (h : off ≤ 127) {buf : List UInt8} {count : ℕ}
    (hf : (copy_from_user buf (clamp count off)).2 ≠ 0) (b : Buf) :
    buf_write buf count off b = some ⟨-EFAULT, off, b⟩ := by
  unfold buf_write
  rw [prepare_fault h hf]

/-- **One call of `buf_read`** into writable memory. -/
theorem buf_read_eq {srfb : SimpleReadFromBuffer} (hs : CopiesSlice srfb) {count o : ℕ}
    (ho : o ≤ 127) (hc : 0 < count) (b : Buf) :
    buf_read srfb count count o b =
      ⟨(min count (128 - o) : ℕ), (o + min count (128 - o) : ℕ),
        (b.toList.drop o).take (min count (128 - o))⟩ := by
  have hlen : b.toList.length = 128 := by simp
  have hfull := hs.full count count o b.toList (by omega) (by omega) (by omega) le_rfl
  rw [hlen] at hfull
  have hret : (srfb count count o b.toList).ret = ((min count (128 - o) : ℕ) : ℤ) := by
    rw [hfull]
    omega
  obtain ⟨h1, h2⟩ := hs.slice count count o b.toList (by omega) (by omega)
  unfold buf_read
  rw [if_neg (by omega)]
  simp only
  have hrange := hs.range count count o b.toList (by omega)
  rw [toS_toU hrange.1 hrange.2, h1, h2, hret, Int.toNat_natCast]
  simp

/-! ### Whole transfers -/

/-- **Many calls are one bounded copy.** The induction is on the data left:
a call that accepts nothing ends the loop, any other shortens it. -/
theorem send_eq : ∀ (fuel : ℕ) (rest : List UInt8) (o : ℕ) (b : Buf), rest.length < fuel →
    rest.length ≤ SSIZE_MAX →
    send fuel rest o b = some (((o + min rest.length (127 - o) : ℕ) : ℤ),
      overwrite b o (rest.take (127 - o)))
  | 0, rest, _, _, h, _ => by omega
  | fuel + 1, rest, o, b, h, hs => by
    unfold send
    by_cases hr : rest = []
    · subst hr
      simp
    rw [if_neg hr]
    have hpos : 0 < rest.length := List.length_pos_iff.mpr hr
    by_cases ho : o ≤ 127
    · rw [buf_write_eq ho hs le_rfl, Option.bind_some]
      set n := min (min rest.length 5) (127 - o) with hn
      by_cases hn0 : n = 0
      · -- the clamp left nothing to accept: the offset is 127
        have ho' : 127 - o = 0 := by omega
        simp [hn0, ho']
      · rw [if_neg (by push_cast; omega), Int.toNat_natCast,
          send_eq fuel (rest.drop n) (o + n) _ (by simp; omega) (by simp; omega)]
        have htake : rest.take (127 - o) = rest.take n ++ (rest.drop n).take (127 - (o + n)) := by
          rw [← List.take_add]
          congr 1
          omega
        have hlen : (rest.take n).length = n := by simp; omega
        have happ := overwrite_append b o (rest.take n) ((rest.drop n).take (127 - (o + n)))
        rw [hlen] at happ
        rw [htake, ← happ, List.length_drop]
        congr 3
        omega
    · rw [buf_write_past (by omega)]
      have ho' : 127 - o = 0 := by omega
      simp [ho']

theorem drain_eq {srfb : SimpleReadFromBuffer} (hs : CopiesSlice srfb) (b : Buf) :
    ∀ (fuel : ℕ) (cs : ℕ → ℕ) (o : ℕ), (∀ k, 0 < cs k) → o ≤ 128 → 128 - o < fuel →
      drain srfb fuel cs o b = some (b.toList.drop o)
  | 0, _, _, _, _, h => by omega
  | fuel + 1, cs, o, hc, ho, hf => by
    unfold drain
    by_cases h : o ≤ 127
    · have hpos := hc 0
      rw [buf_read_eq hs h hpos]
      simp only
      rw [if_neg (by omega), drain_eq hs b fuel _ _ (fun k => hc (k + 1)) (by omega) (by omega),
        Option.map_some, ← List.drop_drop, List.take_append_drop]
    · have ho' : o = 128 := by omega
      subst ho'
      have : b.toList.drop 128 = [] := List.drop_eq_nil_of_le (by simp)
      simp [buf_read]

/-! ### The contract -/

/-- **Whole-transfer correctness.** -/
theorem transfer {srfb : SimpleReadFromBuffer} (hs : CopiesSlice srfb) (b : Buf) :
    (∀ (o : ℕ) (d : List UInt8), d.length ≤ SSIZE_MAX →
      ∃ N, ∀ fuel, N ≤ fuel → ∃ b' : Buf,
        send fuel d o b = some (((o + min d.length (127 - o) : ℕ) : ℤ), b') ∧
        (∀ k (hd : k < d.length) (ho : k < 127 - o), b'[o + k] = d[k]) ∧
        (∀ j (hj : j < 128), (j < o ∨ o + min d.length (127 - o) ≤ j) → b'[j] = b[j])) ∧
    (∀ (buf : List UInt8) (count : ℕ) (off : ℤ), off ≤ 127 →
      (copy_from_user buf (clamp count off)).2 ≠ 0 →
      buf_write buf count off b = some ⟨-EFAULT, off, b⟩) ∧
    (∀ cs : ℕ → ℕ, (∀ k, 0 < cs k) →
      ∃ N, ∀ fuel, N ≤ fuel → drain srfb fuel cs 0 b = some b.toList) := by
  refine ⟨fun o d hd => ⟨d.length + 1, fun fuel hf => ?_⟩, fun buf count off ho hf => ?_,
    fun cs hc => ⟨129, fun fuel hf => ?_⟩⟩
  · refine ⟨_, send_eq fuel d o b (by omega) hd, fun k hk ho => ?_, fun j hj h => ?_⟩
    · rw [getElem_overwrite_of_mem b o _ (by simp; omega)]
      simp
    · refine getElem_overwrite_of_not_mem b o _ hj ?_
      simp only [List.length_take]
      omega
  · exact buf_write_fault ho hf b
  · exact drain_eq hs b fuel cs 0 hc (by omega) (by omega)

/-- From offset 125 of the zero buffer two of three bytes fit; a write from
memory that cannot be read fails; reads of seven bytes return the buffer. -/
theorem transfer_two :
    (∃ N, ∀ fuel, N ≤ fuel → ∃ b' : Buf,
      send fuel [65, 66, 67] (125 : ℕ) (Vector.replicate 128 0) = some (((127 : ℕ) : ℤ), b') ∧
        b'[125] = 65 ∧ b'[126] = 66 ∧ b'[127] = 0) ∧
    buf_write [] 3 0 (Vector.replicate 128 0) = some ⟨-EFAULT, 0, Vector.replicate 128 0⟩ ∧
    ∃ N, ∀ fuel, N ≤ fuel →
      drain readSlice fuel (fun _ => 7) 0 (Vector.replicate 128 0) =
        some (Vector.replicate 128 0 : Buf).toList := by
  obtain ⟨h1, h2, h3⟩ := transfer readSlice_copies (Vector.replicate 128 0)
  refine ⟨?_, h2 [] 3 0 (by decide) (by decide), h3 (fun _ => 7) (fun _ => by decide)⟩
  obtain ⟨N, h⟩ := h1 125 [65, 66, 67] (by decide)
  refine ⟨N, fun fuel hf => ?_⟩
  obtain ⟨b', hb, hin, hout⟩ := h fuel hf
  refine ⟨b', hb, hin 0 (by decide) (by decide), hin 1 (by decide) (by decide), ?_⟩
  rw [hout 127 (by decide) (by decide), Vector.getElem_replicate]

/-! ### The last byte -/

/-- A call that writes at `o` stores as many bytes as there are, up to five and
up to the end of the buffer, and at least one. -/
def Stores (buf : List UInt8) (count o : ℕ) (b : Buf) : Prop :=
  1 ≤ min (min count 5) (128 - o) ∧
    buf_write buf count o b = some ⟨(min (min count 5) (128 - o) : ℕ),
      (o + min (min count 5) (128 - o) : ℕ),
      overwrite b o (buf.take (min (min count 5) (128 - o)))⟩

/-- A client that writes all of `d` from `o` on comes to the end of it, or to
that of the buffer. -/
def Sends (d : List UInt8) (o : ℕ) (b : Buf) : Prop :=
  ∃ N, ∀ fuel, N ≤ fuel → send fuel d o b =
    some (((o + min d.length (128 - o) : ℕ) : ℤ), overwrite b o (d.take (128 - o)))

theorem stores_iff {buf : List UInt8} {count o : ℕ} (ho : o ≤ 127) (hpos : 0 < count)
    (hc : count ≤ SSIZE_MAX) (hb : (copy_from_user buf (clamp count o)).2 = 0) (b : Buf) :
    Stores buf count o b ↔ o + min count 5 ≤ 127 := by
  unfold Stores
  rw [buf_write_copied ho hc hb]
  constructor
  · rintro ⟨-, h⟩
    have hret := congrArg WriteOut.ret (Option.some.inj h)
    simp only [Nat.cast_inj] at hret
    omega
  · intro h
    have hn : min (min count 5) (127 - o) = min (min count 5) (128 - o) := by omega
    rw [hn]
    exact ⟨by omega, rfl⟩

theorem sends_iff {d : List UInt8} {o : ℕ} (ho : o ≤ 127) (hd : d.length ≤ SSIZE_MAX) (b : Buf) :
    Sends d o b ↔ o + d.length ≤ 127 := by
  constructor
  · rintro ⟨N, h⟩
    have hsend := h (max N (d.length + 1)) (Nat.le_max_left _ _)
    rw [send_eq _ d o b (by omega) hd] at hsend
    have hoff := (Prod.mk.inj (Option.some.inj hsend)).1
    simp only [Nat.cast_inj] at hoff
    omega
  · intro h
    refine ⟨d.length + 1, fun fuel hf => ?_⟩
    have hn : min d.length (127 - o) = min d.length (128 - o) := by omega
    have htake : d.take (127 - o) = d.take (128 - o) := by
      rw [List.take_of_length_le (by omega), List.take_of_length_le (by omega)]
    rw [send_eq fuel d o b (by omega) hd, hn, htake]

/-- **Every position that can be read can be written**, but for the last one: a
call stores all it may, and a client comes to its end, if and only if byte 127
is not among what they would write. -/
theorem writable_iff (b : Buf) :
    (∀ (o count : ℕ) (buf : List UInt8), o ≤ 127 → 0 < count → count ≤ SSIZE_MAX →
      (copy_from_user buf (clamp count o)).2 = 0 →
      (Stores buf count o b ↔ o + min count 5 ≤ 127)) ∧
    ∀ (o : ℕ) (d : List UInt8), o ≤ 127 → d.length ≤ SSIZE_MAX →
      (Sends d o b ↔ o + d.length ≤ 127) :=
  ⟨fun _ _ _ ho hpos hc hb => stores_iff ho hpos hc hb b, fun _ _ ho hd => sends_iff ho hd b⟩

/-- Three bytes at the start are stored. -/
theorem writable_first : Stores [65, 66, 67] 3 0 (Vector.replicate 128 0) :=
  ((writable_iff (Vector.replicate 128 0)).1 0 3 [65, 66, 67] (by decide) (by decide) (by decide)
    (by decide)).mpr (by decide)

/-- Byte 127 of the zero buffer is read, and a byte written there is not taken. -/
theorem last_byte : (buf_read readSlice 1 1 127 (Vector.replicate 128 0)).ret = 1 ∧
    buf_write [65] 1 127 (Vector.replicate 128 0) = some ⟨0, 127, Vector.replicate 128 0⟩ ∧
    ¬ Stores [65] 1 127 (Vector.replicate 128 0) := by
  have hleft : (copy_from_user [65] (clamp 1 (127 : ℕ))).2 = 0 := by decide
  refine ⟨?_, ?_, ?_⟩
  · have hread := buf_read_eq readSlice_copies (show 127 ≤ 127 by decide) (show 0 < 1 by decide)
      (Vector.replicate 128 0)
    rw [show ((127 : ℕ) : ℤ) = 127 from rfl] at hread
    rw [hread]
    rfl
  · have hwrite := buf_write_copied le_rfl (by decide) hleft (Vector.replicate 128 0)
    simpa using hwrite
  · rw [stores_iff le_rfl (by decide) (by decide) hleft]
    decide

end Buffer
end Pb173
