/-
# The stamps of mem_buffer (06)

`my_init` writes into the start of every page of a 20 MB buffer a line with the
page's virtual and physical address. The loop stamps each page once, and every
line ends inside its page (`loop_eq`, `string_loop`). The physical address is
`pfn << PAGE_SHIFT`, which is shifted as an `unsigned long` and widened to a
`phys_addr_t` afterwards: it is the true one if and only if it fits in an
`unsigned long` (`stamped_iff`), which of a 64-bit machine is always so.
-/
import Pb173.CString
import Pb173.Hex
import Pb173.MyDevice

namespace Pb173
namespace Stamp

open MyDevice (chars)

/-! ### The loop -/

/-- The word size and the page size of a machine, with pages that divide the
buffer and have room for the line. -/
structure Arch where
  w : ℕ
  PAGE_SHIFT : ℕ
  word : w = 32 ∨ w = 64
  divides : 2 ^ PAGE_SHIFT ∣ 20971520
  line_fits : w / 4 + 14 ≤ 2 ^ PAGE_SHIFT

/-- `1UL << PAGE_SHIFT`. -/
def Arch.PAGE_SIZE (A : Arch) : ℕ := 2 ^ A.PAGE_SHIFT

/-- `x << PAGE_SHIFT` of an `unsigned long`. -/
def Arch.shl (A : Arch) (x : ℕ) : ℕ := (x <<< A.PAGE_SHIFT) % 2 ^ A.w

/-- `"%p : %llx\n"`; `%p` has two digits for each byte of a pointer. -/
def line (A : Arch) (p phys : ℕ) : List UInt8 :=
  hex (2 * (A.w / 8)) p ++ chars " : " ++ hex 1 phys ++ chars "\n"

/-- The memory, and where and how much has been written to it. -/
structure State where
  mem : UserMem
  stores : List (ℕ × ℕ)

/-- `snprintf(buf, size, ...)` of what prints as `text`. -/
def snprintf (s : State) (buf size : ℕ) (text : List UInt8) : State :=
  let d := text.take (size - 1) ++ [0]
  ⟨s.mem.poke buf d, s.stores ++ [(buf, d.length)]⟩

section Loop

variable (A : Arch) (vmalloc_to_pfn : ℕ → ℕ) (mem_buffer : ℕ)

/-- The body of the loop. -/
def stamp (i : ℕ) (s : State) : State :=
  let pfn := vmalloc_to_pfn (mem_buffer + i)
  let phys := A.shl pfn
  snprintf s (mem_buffer + i) A.PAGE_SIZE (line A (mem_buffer + i) phys)

/-- `for (i = 0; i < 20971520; i += PAGE_SIZE)`, from `i` on. -/
def loop : ℕ → ℕ → State → Option State
  | 0, _, _ => none
  | fuel + 1, i, s =>
    if i < 20971520 then
      loop fuel ((i + A.PAGE_SIZE) % 2 ^ A.w) (stamp A vmalloc_to_pfn mem_buffer i s)
    else some s

end Loop

/-! ### Reading a page -/

/-- The bytes of the page at `a`. -/
def page (A : Arch) (mem : UserMem) (a : ℕ) : List UInt8 :=
  (List.range A.PAGE_SIZE).map fun j => mem (a + j)

/-- The second number of a line, if it is one. -/
def second (line : List UInt8) : Option ℕ :=
  match line.dropWhile isHex with
  | 32 :: 58 :: 32 :: rest =>
    if rest.dropWhile isHex = chars "\n" then some (unhex (rest.takeWhile isHex)) else none
  | _ => none

/-- The number of pages. -/
def Arch.pages (A : Arch) : ℕ := 20971520 / A.PAGE_SIZE

section Line

variable (A : Arch) {p phys : ℕ}

theorem chars_newline : chars "\n" = [10] := by decide

theorem chars_colon : chars " : " = [32, 58, 32] := by decide

/-- **The second number** of a line is the physical address in it. -/
theorem second_line (p phys : ℕ) : second (line A p phys) = some phys := by
  have hdrop : (line A p phys).dropWhile isHex = [32, 58, 32] ++ (hex 1 phys ++ [10]) := by
    unfold line
    rw [chars_colon, chars_newline, List.append_assoc, List.append_assoc,
      List.dropWhile_append_of_pos fun _ h => isHex_of_mem_hex h]
    rfl
  have hrest : (hex 1 phys ++ [10]).dropWhile isHex = [10] := by
    rw [List.dropWhile_append_of_pos fun _ h => isHex_of_mem_hex h]
    rfl
  have hnumber : (hex 1 phys ++ [10]).takeWhile isHex = hex 1 phys := by
    rw [List.takeWhile_append_of_pos fun _ h => isHex_of_mem_hex h]
    exact List.append_nil _
  unfold second
  rw [hdrop]
  simp only [List.cons_append, List.nil_append]
  rw [hrest, hnumber, chars_newline, if_pos rfl, unhex_hex]

theorem line_ne_zero {c : UInt8} (h : c ∈ line A p phys) : c ≠ 0 := by
  have hdigit : ∀ k n, c ∈ hex k n → c ≠ 0 := by
    rintro k n hc rfl
    exact absurd (isHex_of_mem_hex hc) (by decide)
  unfold line at h
  rw [chars_colon, chars_newline] at h
  simp only [List.mem_append, List.mem_cons, List.not_mem_nil, or_false] at h
  rcases h with ((h | h) | h) | h
  · exact hdigit _ _ h
  · rintro rfl
    exact absurd h (by decide)
  · exact hdigit _ _ h
  · rintro rfl
    exact absurd h (by decide)

theorem length_line_lt (hp : p < 2 ^ A.w) (hphys : phys < 2 ^ 36) :
    (line A p phys).length < A.PAGE_SIZE := by
  have hfits := A.line_fits
  have hfirst : (hex (2 * (A.w / 8)) p).length ≤ A.w / 4 := by
    apply length_hex_le
    · omega
    · rcases A.word with hw | hw <;> rw [hw] at hp ⊢ <;> exact hp
  have hsecond : (hex 1 phys).length ≤ 9 := length_hex_le (by decide) hphys
  unfold Arch.PAGE_SIZE line
  rw [chars_colon, chars_newline]
  simp only [List.length_append, List.length_cons, List.length_nil]
  omega

end Line

/-! ### The pages -/

theorem Arch.PAGE_SIZE_pos (A : Arch) : 0 < A.PAGE_SIZE := Nat.two_pow_pos _

theorem Arch.pages_mul (A : Arch) : A.pages * A.PAGE_SIZE = 20971520 :=
  Nat.div_mul_cancel A.divides

theorem Arch.le_two_pow (A : Arch) : 2 ^ 32 ≤ 2 ^ A.w := by
  apply Nat.pow_le_pow_right (by decide)
  rcases A.word with hw | hw <;> omega

theorem Arch.page_le (A : Arch) {k : ℕ} (hk : k < A.pages) :
    k * A.PAGE_SIZE + A.PAGE_SIZE ≤ 20971520 := by
  calc k * A.PAGE_SIZE + A.PAGE_SIZE = (k + 1) * A.PAGE_SIZE := (Nat.succ_mul _ _).symm
    _ ≤ A.pages * A.PAGE_SIZE := Nat.mul_le_mul_right _ hk
    _ = 20971520 := A.pages_mul

theorem page_congr (A : Arch) {mem mem' : UserMem} {a : ℕ}
    (h : ∀ j < A.PAGE_SIZE, mem (a + j) = mem' (a + j)) : page A mem a = page A mem' a :=
  List.map_congr_left fun j hj => h j (List.mem_range.mp hj)

theorem page_poke (A : Arch) (mem : UserMem) (a : ℕ) {d : List UInt8}
    (hd : d.length ≤ A.PAGE_SIZE) : ∃ tail, page A (mem.poke a d) a = d ++ tail := by
  refine ⟨(page A (mem.poke a d) a).drop d.length, ?_⟩
  have htake : (page A (mem.poke a d) a).take d.length = d := by
    unfold page
    apply List.ext_getElem
    · simp only [List.length_take, List.length_map, List.length_range]
      omega
    · intro j hj hj'
      rw [List.getElem_take, List.getElem_map, List.getElem_range]
      exact poke_of_mem mem a d hj'
  calc page A (mem.poke a d) a
      = (page A (mem.poke a d) a).take d.length ++ (page A (mem.poke a d) a).drop d.length :=
        (List.take_append_drop _ _).symm
    _ = d ++ (page A (mem.poke a d) a).drop d.length := by rw [htake]

/-! ### The run of the loop -/

section Run

variable {A : Arch} {vmalloc_to_pfn : ℕ → ℕ} {mem_buffer : ℕ}

/-- The line of page `k`. -/
def text (A : Arch) (vmalloc_to_pfn : ℕ → ℕ) (mem_buffer k : ℕ) : List UInt8 :=
  line A (mem_buffer + k * A.PAGE_SIZE)
    (A.shl (vmalloc_to_pfn (mem_buffer + k * A.PAGE_SIZE)))

/-- The stamps of `n` pages from page `k` on. -/
def stamps (A : Arch) (vmalloc_to_pfn : ℕ → ℕ) (mem_buffer k n : ℕ) (s : State) : State :=
  (List.range' k n).foldl (fun s k => stamp A vmalloc_to_pfn mem_buffer (k * A.PAGE_SIZE) s) s

/-- The loop stamps the pages that are left, one after the other. -/
theorem loop_stamps : ∀ (n k fuel : ℕ) (s : State), k + n = A.pages → n < fuel →
    loop A vmalloc_to_pfn mem_buffer fuel (k * A.PAGE_SIZE) s =
      some (stamps A vmalloc_to_pfn mem_buffer k n s)
  | _, _, 0, _, _, h => by omega
  | 0, k, fuel + 1, s, hk, _ => by
    unfold loop
    have hend : k * A.PAGE_SIZE = 20971520 := by
      rw [show k = A.pages by omega, A.pages_mul]
    rw [if_neg (by omega)]
    rfl
  | n + 1, k, fuel + 1, s, hk, hf => by
    unfold loop
    have hle := A.page_le (show k < A.pages by omega)
    have hpos := A.PAGE_SIZE_pos
    have hword := A.le_two_pow
    have hnext : (k * A.PAGE_SIZE + A.PAGE_SIZE) % 2 ^ A.w = (k + 1) * A.PAGE_SIZE := by
      rw [Nat.mod_eq_of_lt (by omega), Nat.succ_mul]
    rw [if_pos (by omega), hnext, loop_stamps n (k + 1) fuel _ (by omega) (by omega)]
    rfl

theorem Arch.shift_le (A : Arch) : A.PAGE_SHIFT ≤ 36 := by
  by_contra hlt
  have hle : 2 ^ A.PAGE_SHIFT ≤ 20971520 := Nat.le_of_dvd (by decide) A.divides
  have hbig : 2 ^ 36 ≤ 2 ^ A.PAGE_SHIFT := Nat.pow_le_pow_right (by decide) (by omega)
  omega

/-- A physical address has up to 36 bits. -/
theorem mul_lt {x : ℕ} (hx : x < 2 ^ (36 - A.PAGE_SHIFT)) : x * 2 ^ A.PAGE_SHIFT < 2 ^ 36 := by
  calc x * 2 ^ A.PAGE_SHIFT < 2 ^ (36 - A.PAGE_SHIFT) * 2 ^ A.PAGE_SHIFT :=
        Nat.mul_lt_mul_of_pos_right hx A.PAGE_SIZE_pos
    _ = 2 ^ 36 := by rw [← Nat.pow_add, Nat.sub_add_cancel A.shift_le]

/-- The shift is exact if and only if the address fits in the word. -/
theorem shl_eq_iff (x : ℕ) : A.shl x = x * 2 ^ A.PAGE_SHIFT ↔ x * 2 ^ A.PAGE_SHIFT < 2 ^ A.w := by
  unfold Arch.shl
  rw [Nat.shiftLeft_eq]
  constructor
  · intro h
    rw [← h]
    exact Nat.mod_lt _ (Nat.two_pow_pos _)
  · exact Nat.mod_eq_of_lt

theorem shl_lt {x : ℕ} (hx : x < 2 ^ (36 - A.PAGE_SHIFT)) : A.shl x < 2 ^ 36 := by
  unfold Arch.shl
  rw [Nat.shiftLeft_eq]
  exact (Nat.mod_le _ _).trans_lt (mul_lt hx)

variable (hfits : mem_buffer + 20971520 ≤ 2 ^ A.w)
  (hpfn : ∀ k < A.pages,
    vmalloc_to_pfn (mem_buffer + k * A.PAGE_SIZE) < 2 ^ (36 - A.PAGE_SHIFT))

include hfits hpfn

theorem length_text_lt {k : ℕ} (hk : k < A.pages) :
    (text A vmalloc_to_pfn mem_buffer k).length < A.PAGE_SIZE := by
  have hle := A.page_le hk
  have hpos := A.PAGE_SIZE_pos
  exact length_line_lt A (by omega) (shl_lt (hpfn k hk))

/-- **One stamp** is the whole line. -/
theorem stamp_eq {k : ℕ} (hk : k < A.pages) (s : State) :
    stamp A vmalloc_to_pfn mem_buffer (k * A.PAGE_SIZE) s =
      ⟨s.mem.poke (mem_buffer + k * A.PAGE_SIZE) (text A vmalloc_to_pfn mem_buffer k ++ [0]),
        s.stores ++ [(mem_buffer + k * A.PAGE_SIZE,
          (text A vmalloc_to_pfn mem_buffer k).length + 1)]⟩ := by
  have hlt := length_text_lt hfits hpfn hk
  have htake : (text A vmalloc_to_pfn mem_buffer k).take (A.PAGE_SIZE - 1) =
      text A vmalloc_to_pfn mem_buffer k := List.take_of_length_le (by omega)
  have hstamp : stamp A vmalloc_to_pfn mem_buffer (k * A.PAGE_SIZE) s =
      snprintf s (mem_buffer + k * A.PAGE_SIZE) A.PAGE_SIZE
        (text A vmalloc_to_pfn mem_buffer k) := rfl
  rw [hstamp]
  unfold snprintf
  simp only [htake, List.length_append, List.length_singleton]

theorem stamp_frame {k : ℕ} (hk : k < A.pages) (s : State) {a : ℕ}
    (ha : a < mem_buffer + k * A.PAGE_SIZE ∨ mem_buffer + k * A.PAGE_SIZE + A.PAGE_SIZE ≤ a) :
    (stamp A vmalloc_to_pfn mem_buffer (k * A.PAGE_SIZE) s).mem a = s.mem a := by
  have hlt := length_text_lt hfits hpfn hk
  rw [stamp_eq hfits hpfn hk]
  apply poke_of_not_mem
  rw [List.length_append, List.length_singleton]
  omega

/-- **The stores of a run**: one for each page. -/
theorem stamps_stores : ∀ (n k : ℕ) (s : State), k + n ≤ A.pages →
    (stamps A vmalloc_to_pfn mem_buffer k n s).stores = s.stores ++
      (List.range' k n).map fun j => (mem_buffer + j * A.PAGE_SIZE,
        (text A vmalloc_to_pfn mem_buffer j).length + 1)
  | 0, _, s, _ => (List.append_nil s.stores).symm
  | n + 1, k, s, hk => by
    have ih := stamps_stores n (k + 1)
      (stamp A vmalloc_to_pfn mem_buffer (k * A.PAGE_SIZE) s) (by omega)
    have hstores := congrArg State.stores (stamp_eq hfits hpfn (show k < A.pages by omega) s)
    rw [hstores, List.append_assoc] at ih
    rw [List.range'_succ, List.map_cons]
    exact ih

/-- **The memory outside** of the pages stays as it was. -/
theorem stamps_frame : ∀ (n k : ℕ) (s : State) {a : ℕ}, k + n ≤ A.pages →
    (a < mem_buffer + k * A.PAGE_SIZE ∨ mem_buffer + (k + n) * A.PAGE_SIZE ≤ a) →
    (stamps A vmalloc_to_pfn mem_buffer k n s).mem a = s.mem a
  | 0, _, _, _, _, _ => rfl
  | n + 1, k, s, a, hk, ha => by
    have hmul : (k + (n + 1)) * A.PAGE_SIZE = (k + 1 + n) * A.PAGE_SIZE := by
      rw [Nat.add_comm n 1, Nat.add_assoc]
    have hnext : (k + 1) * A.PAGE_SIZE = k * A.PAGE_SIZE + A.PAGE_SIZE := Nat.succ_mul _ _
    have hmono : (k + 1) * A.PAGE_SIZE ≤ (k + 1 + n) * A.PAGE_SIZE :=
      Nat.mul_le_mul_right _ (Nat.le_add_right _ _)
    calc (stamps A vmalloc_to_pfn mem_buffer k (n + 1) s).mem a
        = (stamp A vmalloc_to_pfn mem_buffer (k * A.PAGE_SIZE) s).mem a :=
          stamps_frame n (k + 1) _ (by omega) (by omega)
      _ = s.mem a := stamp_frame hfits hpfn (by omega) s (by omega)

/-- **Each page** starts with its line. -/
theorem stamps_page : ∀ (n k : ℕ) (s : State) {j : ℕ}, k + n ≤ A.pages → k ≤ j → j < k + n →
    ∃ tail, page A (stamps A vmalloc_to_pfn mem_buffer k n s).mem (mem_buffer + j * A.PAGE_SIZE) =
      text A vmalloc_to_pfn mem_buffer j ++ 0 :: tail
  | 0, _, _, _, _, _, _ => by omega
  | n + 1, k, s, j, hk, hkj, hj => by
    by_cases hfirst : j = k
    · subst hfirst
      have hnext : (j + 1) * A.PAGE_SIZE = j * A.PAGE_SIZE + A.PAGE_SIZE := Nat.succ_mul _ _
      have hlt := length_text_lt hfits hpfn (show j < A.pages by omega)
      obtain ⟨tail, htail⟩ := page_poke A s.mem (mem_buffer + j * A.PAGE_SIZE)
        (d := text A vmalloc_to_pfn mem_buffer j ++ [0])
        (by rw [List.length_append, List.length_singleton]; omega)
      refine ⟨tail, ?_⟩
      -- the stamps that follow are in other pages
      have hlater : page A (stamps A vmalloc_to_pfn mem_buffer j (n + 1) s).mem
          (mem_buffer + j * A.PAGE_SIZE) =
          page A (stamp A vmalloc_to_pfn mem_buffer (j * A.PAGE_SIZE) s).mem
            (mem_buffer + j * A.PAGE_SIZE) :=
        page_congr A fun r hr => stamps_frame hfits hpfn n (j + 1) _ (by omega) (by omega)
      rw [hlater, stamp_eq hfits hpfn (by omega), htail, List.append_assoc]
      rfl
    · exact stamps_page n (k + 1) _ (by omega) (by omega) (by omega)

/-- **The stamps.** The loop ends, with one store in each page, which does not
leave it, and none outside of the buffer. Each page starts with a line, and its
second number is the physical address of the page if and only if that fits in
an `unsigned long`; one of 64 bits has room for it. -/
theorem stamped_iff (mem : UserMem) :
    ∃ s, (∃ N, ∀ fuel, N ≤ fuel →
        loop A vmalloc_to_pfn mem_buffer fuel 0 ⟨mem, []⟩ = some s) ∧
      s.stores = (List.range A.pages).map (fun k => (mem_buffer + k * A.PAGE_SIZE,
        (text A vmalloc_to_pfn mem_buffer k).length + 1)) ∧
      (∀ k < A.pages, (text A vmalloc_to_pfn mem_buffer k).length + 1 ≤ A.PAGE_SIZE) ∧
      (∀ a, a < mem_buffer ∨ mem_buffer + 20971520 ≤ a → s.mem a = mem a) ∧
      (∀ k < A.pages,
        string (page A s.mem (mem_buffer + k * A.PAGE_SIZE)) =
          some (text A vmalloc_to_pfn mem_buffer k) ∧
        (second (text A vmalloc_to_pfn mem_buffer k) =
            some (vmalloc_to_pfn (mem_buffer + k * A.PAGE_SIZE) * 2 ^ A.PAGE_SHIFT) ↔
          vmalloc_to_pfn (mem_buffer + k * A.PAGE_SIZE) * 2 ^ A.PAGE_SHIFT < 2 ^ A.w)) ∧
      (A.w = 64 → ∀ k < A.pages,
        vmalloc_to_pfn (mem_buffer + k * A.PAGE_SIZE) * 2 ^ A.PAGE_SHIFT < 2 ^ A.w) := by
  have hall : 0 + A.pages ≤ A.pages := by omega
  refine ⟨stamps A vmalloc_to_pfn mem_buffer 0 A.pages ⟨mem, []⟩,
    ⟨A.pages + 1, fun fuel hf => ?_⟩, ?_, fun k hk => length_text_lt hfits hpfn hk,
    fun a ha => ?_, fun k hk => ⟨?_, ?_⟩, fun hw k hk => ?_⟩
  · have hloop : loop A vmalloc_to_pfn mem_buffer fuel (0 * A.PAGE_SIZE) ⟨mem, []⟩ =
        some (stamps A vmalloc_to_pfn mem_buffer 0 A.pages ⟨mem, []⟩) :=
      loop_stamps A.pages 0 fuel ⟨mem, []⟩ (Nat.zero_add _) hf
    rwa [Nat.zero_mul] at hloop
  · rw [stamps_stores hfits hpfn A.pages 0 _ hall, List.range_eq_range']
    rfl
  · apply stamps_frame hfits hpfn A.pages 0 _ hall
    rw [Nat.zero_mul, Nat.zero_add, A.pages_mul]
    exact ha
  · obtain ⟨tail, htail⟩ := stamps_page hfits hpfn A.pages 0 ⟨mem, []⟩ hall (Nat.zero_le k)
      (by omega)
    rw [htail]
    exact string_append fun h => line_ne_zero A h rfl
  · unfold text
    rw [second_line, Option.some_inj, shl_eq_iff]
  · rw [hw]
    exact (mul_lt (hpfn k hk)).trans (by decide)

end Run

theorem page_divides : 2 ^ 12 ∣ 20971520 := by decide

/-- Page frames above 4 GB on a 64-bit machine. -/
theorem stamped_high : ∃ s : State,
    (∃ N, ∀ fuel, N ≤ fuel → loop ⟨64, 12, Or.inr rfl, page_divides, by decide⟩
      (fun _ => 2 ^ 20) 4096 fuel 0 ⟨fun _ => 0, []⟩ = some s) ∧
    (string (page ⟨64, 12, Or.inr rfl, page_divides, by decide⟩ s.mem 4096)).bind second =
      some (2 ^ 32) := by
  let A : Arch := ⟨64, 12, Or.inr rfl, page_divides, by decide⟩
  let pfn : ℕ → ℕ := fun _ => 2 ^ 20
  have hfits : 4096 + 20971520 ≤ 2 ^ A.w := by decide
  have hpfn : ∀ k < A.pages, pfn (4096 + k * A.PAGE_SIZE) < 2 ^ (36 - A.PAGE_SHIFT) :=
    fun _ _ => show 2 ^ 20 < 2 ^ (36 - 12) by decide
  obtain ⟨s, hloop, -, -, -, hpages, hwide⟩ := stamped_iff hfits hpfn fun _ => 0
  have h0 : 0 < A.pages := by decide
  obtain ⟨hstring, hsecond⟩ := hpages 0 h0
  have hnumber : second (text A pfn 4096 0) = some (2 ^ 20 * 2 ^ 12) :=
    hsecond.mpr (hwide rfl 0 h0)
  refine ⟨s, hloop, ?_⟩
  rw [Nat.zero_mul] at hstring
  rw [hstring, Option.bind_some, hnumber]
  norm_num

/-- On a 32-bit machine their address is given as 0. -/
theorem shifted_out : 2 ^ 20 < 2 ^ (36 - 12) ∧ ∃ s : State,
    (∃ N, ∀ fuel, N ≤ fuel → loop ⟨32, 12, Or.inl rfl, page_divides, by decide⟩
      (fun _ => 2 ^ 20) 0xf8000000 fuel 0 ⟨fun _ => 0, []⟩ = some s) ∧
    (string (page ⟨32, 12, Or.inl rfl, page_divides, by decide⟩ s.mem 0xf8000000)).bind second =
      some 0 := by
  let A : Arch := ⟨32, 12, Or.inl rfl, page_divides, by decide⟩
  let pfn : ℕ → ℕ := fun _ => 2 ^ 20
  have hfits : 0xf8000000 + 20971520 ≤ 2 ^ A.w := by decide
  have hpfn : ∀ k < A.pages, pfn (0xf8000000 + k * A.PAGE_SIZE) < 2 ^ (36 - A.PAGE_SHIFT) :=
    fun _ _ => show 2 ^ 20 < 2 ^ (36 - 12) by decide
  have hfuel : ∀ fuel, A.pages + 1 ≤ fuel →
      loop A pfn 0xf8000000 fuel (0 * A.PAGE_SIZE) ⟨fun _ => 0, []⟩ =
        some (stamps A pfn 0xf8000000 0 A.pages ⟨fun _ => 0, []⟩) :=
    fun fuel hf => loop_stamps A.pages 0 fuel _ (Nat.zero_add _) hf
  rw [Nat.zero_mul] at hfuel
  obtain ⟨tail, htail⟩ := stamps_page hfits hpfn A.pages 0 ⟨fun _ => 0, []⟩ (by omega)
    le_rfl (by decide)
  rw [Nat.zero_mul] at htail
  have hnul : (0 : UInt8) ∉ text A pfn 0xf8000000 0 := fun h => line_ne_zero A h rfl
  have hnumber : second (text A pfn 0xf8000000 0) =
      some (A.shl (pfn (0xf8000000 + 0 * A.PAGE_SIZE))) := second_line A _ _
  have hwraps : A.shl (2 ^ 20) = 0 := by
    show (2 ^ 20 <<< 12) % 2 ^ 32 = 0
    rw [Nat.shiftLeft_eq]
    norm_num
  refine ⟨by decide, _, ⟨_, hfuel⟩, ?_⟩
  rw [htail, string_append hnul, Option.bind_some, hnumber]
  exact congrArg some hwraps

end Stamp
end Pb173
