/-
# Chunk atomicity of the shared buffer (04, 06)

Any number of `buf_write` and `buf_read` calls, each with an offset cell of
its own, under `buf_mutex`; every store of `buf_write`'s loop, every
`mutex_lock` and every `mutex_unlock` is a step of its own, and the calls
interleave in any way (`Lock.step code`).

The byte-level system is the machine of `Lock.lean`, so every run of it is a
serial execution of whole calls in lock order. `code` is written from the
statements of the two functions; that a section run alone is the call
`buf_write` or `buf_read` of `Buffer.lean` is `call_eq`, and `chunk_atomic`
says what the readers see.
-/
import Pb173.Buffer
import Pb173.Lock

namespace Pb173
namespace Chunks

open CInt Buffer

/-- A call as the VFS passes it: the offset is not negative and the count of
a write fits in `ssize_t`. `buf` are the bytes that can be read at the
user's buffer, `room` the bytes that can be written there. -/
inductive Call
  | write (buf : List UInt8) (count off : ℕ) (h : count ≤ SSIZE_MAX)
  | read (room count off : ℕ)

def Call.isWrite : Call → Bool
  | .write .. => true
  | .read .. => false

/-- The locals of a call inside the critical section: `buf_write` has stored
the bytes below `i` of its `count`, and `cs` are the others. -/
inductive Local
  | write (off count i : ℕ) (cs : List UInt8)
  | read (room count off : ℕ)

/-- What a call takes out of the critical section. -/
inductive Left
  | write (off count : ℕ)
  | read (r : ReadOut)

variable {ι : Type*} (srfb : SimpleReadFromBuffer) (calls : ι → Call)

/-- The statements of `buf_write` and `buf_read` around and under the lock.
The shared state is `buffer`, or nothing after a store outside it. -/
def code : Lock.Code ι (Option Buf) Local Left ReadOut where
  enter i :=
    match calls i with
    | .write buf count off _ =>
      match prepare buf count off with
      | .inl cpy_buffer => .inl (.write off (clamp count off) 0 cpy_buffer)
      | .inr ret => .inr ⟨ret, off, []⟩
    | .read room count off =>
      if (off : ℤ) > 127 ∨ count = 0 then .inr ⟨0, off, []⟩ else .inl (.read room count off)
  body l x :=
    match l with
    | .write off count _ [] => (x, .inr (.write off count))
    | .write off count i (c :: cs) =>
      (x.bind fun b => store b (i + off) c, .inl (.write off count (i + 1) cs))
    | .read room count off =>
      match x with
      | some b => (x, .inr (.read (srfb room count off b.toList)))
      | none => (x, .inr (.read ⟨0, off, []⟩))
  exit
    | .write off count => ⟨toS 64 count, toS 64 (toU 64 off + count), []⟩
    | .read r => ⟨toS 64 (toU 64 r.ret), r.off, r.out⟩

/-- The critical section from a point on, run alone. -/
def exec : Local → Option Buf → Option Buf × Left
  | .write off count i cs, x => (x.bind (storeLoop off i cs), .write off count)
  | .read room count off, x =>
    match x with
    | some b => (x, .read (srfb room count off b.toList))
    | none => (x, .read ⟨0, off, []⟩)

theorem solves : Lock.Solves (code srfb calls) (exec srfb) := by
  rintro (⟨off, count, i, cs⟩ | ⟨room, count, off⟩) x
  · cases cs with
    | nil => cases x <;> simp [exec, code, storeLoop]
    | cons c cs => cases x <;> simp [exec, code, storeLoop]
  · cases x <;> rfl

/-! ### The calls, whole -/

/-- A call executed at once on the buffer. -/
def atomic : Call → Buf → Option Buf × ReadOut
  | .write buf count off _, b =>
    match buf_write buf count off b with
    | some w => (some w.buffer, ⟨w.ret, w.off, []⟩)
    | none => (none, ⟨0, off, []⟩)
  | .read room count off, b => (some b, buf_read srfb room count off b)

/-- The calls executed one after the other. -/
def serial (is : List ι) (b : Buf) : Option Buf :=
  is.foldl (fun x i => x.bind fun b => (atomic srfb (calls i) b).1) (some b)

/-- A write that the VFS lets through stores only inside the buffer. -/
theorem buf_write_isSome (buf : List UInt8) {count : ℕ} (h : count ≤ SSIZE_MAX) (off : ℕ)
    (b : Buf) : ∃ w, buf_write buf count off b = some w := by
  by_cases ho : off ≤ 127
  · by_cases hb : clamp count off ≤ buf.length
    · have hcl := clamp_eq ho h
      have hlen : (buf.take (clamp count off)).length ≤ clamp count off := List.length_take_le _ _
      have hl := storeLoop_eq off (buf.take (clamp count off)) 0 b (by omega)
      unfold buf_write
      rw [prepare_ok (by omega) hb]
      simp only
      rw [hl]
      exact ⟨_, rfl⟩
    · exact ⟨_, buf_write_fault (by omega) (by simp [copy_from_user]; omega) b⟩
  · exact ⟨_, buf_write_past (by omega) buf count b⟩

theorem atomic_isSome (c : Call) (b : Buf) : ∃ b', (atomic srfb c b).1 = some b' := by
  rcases c with ⟨buf, count, off, h⟩ | ⟨room, count, off⟩
  · obtain ⟨w, hw⟩ := buf_write_isSome buf h off b
    exact ⟨w.buffer, by simp [atomic, hw]⟩
  · exact ⟨b, rfl⟩

/-- A section run alone between its lock and unlock is the whole call. -/
theorem call_eq (i : ι) (b : Buf) :
    Lock.call (code srfb calls) (exec srfb) i (some b) = atomic srfb (calls i) b := by
  rcases hc : calls i with ⟨buf, count, off, h⟩ | ⟨room, count, off⟩
  · obtain ⟨w, hw⟩ := buf_write_isSome buf h off b
    simp only [Lock.call, code, hc, atomic, hw]
    unfold buf_write at hw
    rcases hp : prepare buf count off with cpy_buffer | ret
    · rw [hp] at hw
      simp only [Option.map_eq_some_iff] at hw
      obtain ⟨b', hb', rfl⟩ := hw
      simp only [exec, Option.bind_some, hb']
    · rw [hp] at hw
      obtain rfl := Option.some.inj hw
      rfl
  · simp only [Lock.call, code, hc, atomic, buf_read]
    split_ifs with h
    · rfl
    · rfl

theorem serial_concat (is : List ι) (i : ι) (b : Buf) :
    serial srfb calls (is ++ [i]) b =
      (serial srfb calls is b).bind fun b => (atomic srfb (calls i) b).1 := by
  simp [serial]

theorem serial_isSome (is : List ι) (b : Buf) : ∃ b', serial srfb calls is b = some b' := by
  induction is using List.reverseRecOn with
  | nil => exact ⟨b, rfl⟩
  | append_singleton is i ih =>
    obtain ⟨b', hb'⟩ := ih
    rw [serial_concat, hb']
    exact atomic_isSome srfb (calls i) b'

/-- The serial execution, as the machine of `Lock.lean` computes it. -/
theorem serial_eq (is : List ι) (b : Buf) :
    Lock.serial (code srfb calls) (exec srfb) is (some b) = serial srfb calls is b := by
  induction is using List.reverseRecOn with
  | nil => rfl
  | append_singleton is i ih =>
    obtain ⟨b', hb'⟩ := serial_isSome srfb calls is b
    rw [Lock.serial_concat, serial_concat, ih, hb', call_eq]
    rfl

/-- The writes that reach the lock. -/
def stores (i : ι) : Bool := (calls i).isWrite && ((code srfb calls).enter i).isLeft

theorem atomic_of_not_stores {i : ι} (h : stores srfb calls i = false) (b : Buf) :
    (atomic srfb (calls i) b).1 = some b := by
  rcases hc : calls i with ⟨buf, count, off, hv⟩ | ⟨room, count, off⟩
  · have hent : ((code srfb calls).enter i).isLeft = false := by
      simpa [stores, hc, Call.isWrite] using h
    rw [← hc, ← call_eq]
    rcases he : (code srfb calls).enter i with l | r
    · rw [he] at hent
      cases hent
    · simp [Lock.call, he]
  · rfl

theorem serial_filter (is : List ι) (b : Buf) :
    serial srfb calls (is.filter (stores srfb calls)) b = serial srfb calls is b := by
  induction is using List.reverseRecOn with
  | nil => rfl
  | append_singleton is i ih =>
    obtain ⟨b', hb'⟩ := serial_isSome srfb calls is b
    rw [List.filter_append, serial_concat, hb', Option.bind_some]
    by_cases hi : stores srfb calls i = true
    · rw [List.filter_singleton, hi, cond_true, serial_concat, ih, hb', Option.bind_some]
    · have hi' : stores srfb calls i = false := by simpa using hi
      rw [List.filter_singleton, hi', cond_false, List.append_nil, ih, hb',
        atomic_of_not_stores srfb calls hi']

/-- What `buf_read` delivers without a fault is a slice of the buffer. -/
theorem buf_read_slice {srfb : SimpleReadFromBuffer} (hs : CopiesSlice srfb)
    (room count off : ℕ) (b : Buf) (hr : 0 ≤ (buf_read srfb room count off b).ret) :
    (buf_read srfb room count off b).out =
      (b.toList.drop off).take (buf_read srfb room count off b).ret.toNat := by
  unfold buf_read at *
  split_ifs at * with h
  · rfl
  · have hrange := hs.range room count off b.toList (by simp)
    simp only at *
    rw [toS_toU hrange.1 hrange.2] at *
    exact (hs.slice room count off b.toList (by omega) hr).1

/-! ### Every interleaving -/

variable [DecidableEq ι]

/-- **Chunk atomicity.** In every run, a read that does not fault returned a
slice of the buffer that whole writes, in lock order, make of the initial
one; and when all calls have returned, the buffer and every result are those
of a serial execution that extends the lock order. -/
theorem chunk_atomic {srfb : SimpleReadFromBuffer} (hs : CopiesSlice srfb) (calls : ι → Call)
    (b₀ : Buf) {es : List (Lock.Ev ι)} {s : Lock.State ι (Option Buf) Local Left ReadOut}
    (h : Machine.run (Lock.step (code srfb calls)) (Lock.start (some b₀)) es = some s) :
    (∀ i room count off r, calls i = .read room count off → s.pc i = .done r → 0 ≤ r.ret →
      ∃ (ws : List ι) (b : Buf), ws.Sublist (Lock.locks es) ∧ ws.Nodup ∧
        (∀ w ∈ ws, (calls w).isWrite = true) ∧ serial srfb calls ws b₀ = some b ∧
        r.out = (b.toList.drop off).take r.ret.toNat) ∧
    ((∀ i, ∃ r, s.pc i = .done r) →
      ∃ (order : List ι) (b : Buf), order.Nodup ∧ (∀ i, i ∈ order) ∧
        (Lock.locks es).Sublist order ∧ s.shared = some b ∧ serial srfb calls order b₀ = some b ∧
        ∀ i r, s.pc i = .done r → ∃ pre post b', order = pre ++ i :: post ∧
          serial srfb calls pre b₀ = some b' ∧ r = (atomic srfb (calls i) b').2) := by
  have hh := Lock.hist_run (solves srfb calls) h
  have hdone : ∀ i r, s.pc i = .done r → ∃ pre post b',
      Lock.commits (code srfb calls) es = pre ++ i :: post ∧
        serial srfb calls pre b₀ = some b' ∧ r = (atomic srfb (calls i) b').2 := by
    intro i r hd
    obtain ⟨pre, post, hpp, hr⟩ := hh.of_done hd
    obtain ⟨b', hb'⟩ := serial_isSome srfb calls pre b₀
    rw [serial_eq, hb', call_eq] at hr
    exact ⟨pre, post, b', hpp, hb', hr⟩
  constructor
  · intro i room count off r hc hd hr
    obtain ⟨pre, post, b', hpp, hb', hr'⟩ := hdone i r hd
    refine ⟨pre.filter (stores srfb calls), b', ?_, ?_, fun w hw => ?_, ?_, ?_⟩
    · -- the writes before the read are among the calls that took the lock
      have hsub : pre.Sublist (Lock.commits (code srfb calls) es) := by
        rw [hpp]
        exact List.sublist_append_left _ _
      have hst : pre.filter (stores srfb calls) =
          (pre.filter fun i => ((code srfb calls).enter i).isLeft).filter
            fun i => (calls i).isWrite := by
        rw [List.filter_filter]
        rfl
      rw [hst, ← hh.order]
      exact List.filter_sublist.trans (hsub.filter _)
    · have hnd := hh.nodup
      rw [hpp] at hnd
      exact (List.nodup_append.mp hnd).1.filter _
    · have := (List.mem_filter.mp hw).2
      simp only [stores, Bool.and_eq_true] at this
      exact this.1
    · rw [serial_filter]
      exact hb'
    · rw [hc] at hr'
      subst hr'
      exact buf_read_slice hs room count off b' hr
  · intro hall
    obtain ⟨hsh, hmem⟩ := hh.complete hall
    obtain ⟨b, hb⟩ := serial_isSome srfb calls (Lock.commits (code srfb calls) es) b₀
    refine ⟨Lock.commits (code srfb calls) es, b, hh.nodup, hmem, ?_, ?_, hb, hdone⟩
    · rw [← hh.order]
      exact List.filter_sublist
    · rw [hsh, serial_eq, hb]

/-- A write of two bytes at offset 0, and a read of four from there. -/
def two : Bool → Call
  | false => .write [65, 66] 2 0 (by decide)
  | true => .read 4 4 0

/-- The read starts while the write is half done, and waits for its lock. -/
theorem chunk_atomic_two : ∃ s,
    Machine.run (Lock.step (code readSlice two)) (Lock.start (some (Vector.replicate 128 0)))
      [.enter false, .lock false, .body false, .enter true, .body false, .body false,
        .unlock false, .lock true, .body true, .unlock true, .exit true, .exit false] = some s ∧
    ∃ (order : List Bool) (b : Buf), order.Nodup ∧ (∀ i, i ∈ order) ∧ s.shared = some b ∧
      serial readSlice two order (Vector.replicate 128 0) = some b := by
  obtain ⟨s, hrun, hdone⟩ : ∃ s,
      Machine.run (Lock.step (code readSlice two)) (Lock.start (some (Vector.replicate 128 0)))
        [.enter false, .lock false, .body false, .enter true, .body false, .body false,
          .unlock false, .lock true, .body true, .unlock true, .exit true, .exit false] = some s ∧
      ∀ i, ∃ r, s.pc i = .done r :=
    ⟨_, rfl, fun i => by cases i <;> exact ⟨_, rfl⟩⟩
  obtain ⟨order, b, h1, h2, -, h3, h4, -⟩ :=
    (chunk_atomic readSlice_copies two (Vector.replicate 128 0) hrun).2 hdone
  exact ⟨s, hrun, order, b, h1, h2, h3, h4⟩

end Chunks
end Pb173
