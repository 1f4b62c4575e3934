/-
# The device lists of 08

`my_init` walks through the PCI devices and records each of them in a list;
`my_exit` walks through the devices again and compares: first the devices
present with the list, then the list with the devices present, and last it
gives the list up. A device is a pointer, whose fields `dev` gives; two
devices may have one address, one after the other. `pci_get_device` moves a
reference along with the cursor.

The first comparison reports the devices present that were not recorded
(`plugged_report`). The second one tests its flag after each device of the
system and prints that device. What it prints for a recorded device is
therefore all that comes before the first match (`unplugged_eq`).
-/
import Pb173.Cursor
import Pb173.Kernel
import Mathlib.Data.List.TakeWhile
import Mathlib.Algebra.Order.BigOperators.Group.List

namespace Pb173
namespace Devices

/-- What the module reads of a `struct pci_dev`. -/
structure pci_dev where
  domain : ℤ
  number : BitVec 8
  devfn : BitVec 8
  vendor : BitVec 16
  device : BitVec 16
deriving DecidableEq

def PCI_SLOT (devfn : BitVec 8) : BitVec 8 := (devfn >>> 3) &&& 0x1f
def PCI_FUNC (devfn : BitVec 8) : BitVec 8 := devfn &&& 0x07

/-- The comparison of `my_exit`, `domain:bus:slot.func`. -/
def same (a b : pci_dev) : Bool :=
  a.domain == b.domain && a.number == b.number
    && PCI_SLOT a.devfn == PCI_SLOT b.devfn && PCI_FUNC a.devfn == PCI_FUNC b.devfn

/-- A line `vendor:device` of the log. -/
def line (a : pci_dev) : BitVec 16 × BitVec 16 := (a.vendor, a.device)

/-- The PCI devices of the system, in the order `pci_get_device` finds them. -/
structure Bus (P : Type*) where
  devs : List P
  nodup : devs.Nodup

/-- A node of `pdev_list`, with its address. -/
structure pdev_struct (P : Type*) where
  node : ℕ
  pdev : P

/-- The module: the references it took less those it dropped, the list, the
nodes allocated so far, those freed, and the lines printed. -/
structure State (P : Type*) where
  refs : P → ℤ
  pdev_list : List (pdev_struct P)
  nodes : ℕ
  freed : List ℕ
  printed : List (BitVec 16 × BitVec 16)

def start {P : Type*} : State P := ⟨fun _ => 0, [], 0, [], []⟩

section Model

variable {P : Type*} [DecidableEq P]

def pci_dev_get : Option P → State P → State P
  | none, s => s
  | some q, s => { s with refs := Function.update s.refs q (s.refs q + 1) }

def pci_dev_put : Option P → State P → State P
  | none, s => s
  | some q, s => { s with refs := Function.update s.refs q (s.refs q - 1) }

/-- The references a move of the cursor takes and drops. -/
def touch (q q' : Option P) (s : State P) : State P := pci_dev_put q (pci_dev_get q' s)

/-- `pci_get_device(PCI_ANY_ID, PCI_ANY_ID, q)`. -/
def pci_get_device (bus : Bus P) (q : Option P) (s : State P) : Option P × State P :=
  (Cursor.next bus.devs q, touch q (Cursor.next bus.devs q) s)

/-- One device of `my_init`; `kmalloc n` tells whether the `n`-th allocation
succeeds. -/
def record (kmalloc : ℕ → Bool) (pdev : P) (s : State P) : State P × Option ℤ :=
  if kmalloc s.nodes then
    let s := pci_dev_get (some pdev) s
    ({ s with nodes := s.nodes + 1, pdev_list := ⟨s.nodes, pdev⟩ :: s.pdev_list }, none)
  else (s, some (- EIO))

/-- `my_init`; `register` is what `pci_register_driver` returns. -/
def my_init (bus : Bus P) (kmalloc : ℕ → Bool) (register : ℤ) (s : State P) :
    Option (ℤ × State P) :=
  (Cursor.loop (pci_get_device bus) (record kmalloc) (bus.devs.length + 1) none
    { s with pdev_list := [] }).map fun r => (r.2.getD register, r.1)

variable (dev : P → pci_dev)

def printk (pdev : P) (s : State P) : State P :=
  { s with printed := s.printed ++ [line (dev pdev)] }

/-- `found` after the walk through `pdev_list`. -/
def listed (pdev : P) (s : State P) : Bool :=
  s.pdev_list.foldl (fun found p => if same (dev pdev) (dev p.pdev) then true else found) false

/-- One device of the first comparison of `my_exit`. -/
def examine (pdev : P) (s : State P) : State P × Option Empty :=
  (if !listed dev pdev s then printk dev pdev s else s, none)

/-- The first comparison of `my_exit`. -/
def plugged (bus : Bus P) (s : State P) : Option (State P) :=
  (Cursor.loop (pci_get_device bus) (examine dev) (bus.devs.length + 1) none s).map Prod.fst

/-- One device of the inner loop of the second comparison, for the recorded
device `p`. The flag is tested here, inside the loop. -/
def compare (p : P) (pdev : P) (s : Bool × State P) : (Bool × State P) × Option Empty :=
  let found := if same (dev pdev) (dev p) then true else s.1
  ((found, if !found then printk dev pdev s.2 else s.2), none)

/-- The inner loop: the cursor starts from `NULL`, which the loop before left. -/
def search (bus : Bus P) (p : P) (s : State P) : Option (State P) :=
  (Cursor.loop (fun q s => ((pci_get_device bus q s.2).1, s.1, (pci_get_device bus q s.2).2))
    (compare dev p) (bus.devs.length + 1) none (false, s)).map fun r => r.1.2

/-- The second comparison of `my_exit`. -/
def unplugged (bus : Bus P) (s : State P) : Option (State P) :=
  s.pdev_list.foldlM (fun s p => search dev bus p.pdev s) s

/-- The last loop of `my_exit`: `pci_dev_put`, `list_del`, `kfree`. -/
def clear (s : State P) : State P :=
  s.pdev_list.foldl (fun s p =>
    { pci_dev_put (some p.pdev) s with
      pdev_list := s.pdev_list.filter fun n => n.node ≠ p.node
      freed := s.freed ++ [p.node] }) s

/-- `my_exit`; unregistering the driver changes nothing here. -/
def my_exit (bus : Bus P) (s : State P) : Option (State P) := do
  let s ← plugged dev bus s
  let s ← unplugged dev bus s
  return clear s

/-- What the second comparison prints for the recorded device `p`: the devices
before the first match. -/
def shown (present : List P) (p : P) : List (BitVec 16 × BitVec 16) :=
  (present.takeWhile fun q => !same (dev q) (dev p)).map fun q => line (dev q)

/-- The report meant: the recorded devices of which no device present has the
address. -/
def gone (recorded present : List P) : List (BitVec 16 × BitVec 16) :=
  (recorded.filter fun p => !present.any fun q => same (dev q) (dev p)).map fun p => line (dev p)

/-- The first device present has the address of `p`, or it is the only one and
has its identifiers. -/
def Heads (present : List P) (p : P) : Prop :=
  ∃ q rest, present = q :: rest ∧
    (same (dev q) (dev p) = true ∨ rest = [] ∧ line (dev q) = line (dev p))

end Model

/-! ### The loops -/

section Loops

variable {P : Type*} [DecidableEq P]

@[simp] theorem touch_printed (q q' : Option P) (s : State P) :
    (touch q q' s).printed = s.printed := by
  cases q <;> cases q' <;> rfl

@[simp] theorem touch_pdev_list (q q' : Option P) (s : State P) :
    (touch q q' s).pdev_list = s.pdev_list := by
  cases q <;> cases q' <;> rfl

variable (dev : P → pci_dev)

/-- What one device does to the flag and to the log. -/
def mark (p : P) (r : Bool × List (BitVec 16 × BitVec 16)) (pdev : P) :
    Bool × List (BitVec 16 × BitVec 16) :=
  if same (dev pdev) (dev p) || r.1 then (true, r.2) else (false, r.2 ++ [line (dev pdev)])

omit [DecidableEq P] in
theorem mark_true (p : P) : ∀ (l : List P) (out : List (BitVec 16 × BitVec 16)),
    l.foldl (mark dev p) (true, out) = (true, out)
  | [], _ => rfl
  | q :: l, out => by
    have hq : mark dev p (true, out) q = (true, out) := by simp [mark]
    rw [List.foldl_cons, hq, mark_true p l out]

omit [DecidableEq P] in
theorem mark_false (p : P) : ∀ (l : List P) (out : List (BitVec 16 × BitVec 16)),
    (l.foldl (mark dev p) (false, out)).2 = out ++ shown dev l p
  | [], out => by simp [shown]
  | q :: l, out => by
    by_cases hq : same (dev q) (dev p) = true
    · have hm : mark dev p (false, out) q = (true, out) := by simp [mark, hq]
      rw [List.foldl_cons, hm, mark_true]
      simp [shown, hq]
    · have hm : mark dev p (false, out) q = (false, out ++ [line (dev q)]) := by simp [mark, hq]
      rw [List.foldl_cons, hm, mark_false p l]
      simp [shown, hq]

omit [DecidableEq P] in
theorem compare_mark (p q : P) (r : Bool × State P) :
    ((compare dev p q r).1.1, (compare dev p q r).1.2.printed) =
      mark dev p (r.1, r.2.printed) q := by
  unfold compare mark
  by_cases hq : same (dev q) (dev p) = true
  · simp [hq]
  · rcases r with ⟨_ | _, s⟩ <;> simp [hq, printk]

/-- The inner loop ends, having printed what comes before the first match. -/
theorem search_eq (bus : Bus P) (p : P) (s : State P) : ∃ t, search dev bus p s = some t ∧
    t.printed = s.printed ++ shown dev bus.devs p := by
  have hl := Cursor.loop_eq_walk _ (fun q q' r => (r.1, touch q q' r.2)) (compare dev p) bus.nodup
    (fun _ _ => rfl) (false, s)
  have hv := Cursor.walk_view (fun q q' r => (r.1, touch q q' r.2)) (compare dev p)
    (fun r => (r.1, r.2.printed)) (mark dev p) (fun q q' r => by simp)
    (fun q r => ⟨rfl, compare_mark dev p q r⟩) bus.devs none (false, s)
  refine ⟨_, by rw [search]; exact congrArg _ hl, ?_⟩
  rw [← mark_false dev p bus.devs s.printed, ← hv.2]

/-- The second comparison ends, having printed for each recorded device what
comes before its first match. -/
theorem unplugged_eq (bus : Bus P) : ∀ (l : List (pdev_struct P)) (s : State P),
    ∃ t, l.foldlM (fun s p => search dev bus p.pdev s) s = some t ∧
      t.printed = s.printed ++ l.flatMap fun p => shown dev bus.devs p.pdev
  | [], s => ⟨s, rfl, by simp⟩
  | p :: l, s => by
    obtain ⟨u, hu, hup⟩ := search_eq dev bus p.pdev s
    obtain ⟨t, ht, htp⟩ := unplugged_eq bus l u
    refine ⟨t, by rw [List.foldlM_cons, hu]; exact ht, ?_⟩
    rw [htp, hup, List.flatMap_cons, List.append_assoc]

/-- The first comparison ends, and leaves the list alone. -/
theorem plugged_eq (bus : Bus P) (s : State P) : ∃ t, plugged dev bus s = some t ∧
    t.pdev_list = s.pdev_list := by
  have hl := Cursor.loop_eq_walk (pci_get_device bus) touch (examine dev) bus.nodup (fun _ _ => rfl) s
  have hv := Cursor.walk_view touch (examine dev) State.pdev_list (fun l _ => l)
    (fun q q' r => by simp) (fun q r => ⟨rfl, by unfold examine; split <;> rfl⟩) bus.devs none s
  refine ⟨_, by rw [plugged]; exact congrArg _ hl, ?_⟩
  rw [hv.2]
  exact List.foldl_fixed _

/-! ### What `my_init` records -/

theorem record_walk (kmalloc : ℕ → Bool) : ∀ (l : List P) (q : Option P) (s t : State P)
    (r : Option ℤ), Cursor.walk touch (record kmalloc) q l s = (t, r) →
    r = some (- EIO) ∨ r = none ∧
      t.pdev_list.map (·.pdev) = l.reverse ++ s.pdev_list.map (·.pdev)
  | [], q, s, t, r, h => by
    obtain ⟨rfl, rfl⟩ := Prod.mk.inj h
    exact .inr ⟨rfl, by simp⟩
  | x :: l, q, s, t, r, h => by
    set u := touch q (some x) s with hu
    have hul : u.pdev_list = s.pdev_list := touch_pdev_list q (some x) s
    by_cases hk : kmalloc u.nodes = true
    · have hb : record kmalloc x u = ({ pci_dev_get (some x) u with
          nodes := u.nodes + 1, pdev_list := ⟨u.nodes, x⟩ :: u.pdev_list }, none) := if_pos hk
      simp only [Cursor.walk, ← hu, hb] at h
      rcases record_walk kmalloc l _ _ t r h with hr | ⟨hr, ht⟩
      · exact .inl hr
      · refine .inr ⟨hr, ?_⟩
        rw [ht, List.map_cons, hul]
        simp
    · have hb : record kmalloc x u = (u, some (- EIO)) := if_neg hk
      simp only [Cursor.walk, ← hu, hb] at h
      exact .inl (Prod.mk.inj h).2.symm

/-- If the module loads, it has recorded every device, the last one first. -/
theorem my_init_eq {bus : Bus P} {kmalloc : ℕ → Bool} {register : ℤ} {s : State P}
    (h : my_init bus kmalloc register start = some (0, s)) :
    s.pdev_list.map (·.pdev) = bus.devs.reverse := by
  have hl := Cursor.loop_eq_walk (pci_get_device bus) touch (record kmalloc) bus.nodup (fun _ _ => rfl)
    (start : State P)
  rcases hw : Cursor.walk touch (record kmalloc) none bus.devs (start : State P) with ⟨t, r⟩
  rw [hw] at hl
  unfold my_init at h
  rw [show ({ start with pdev_list := [] } : State P) = start from rfl, hl] at h
  obtain ⟨hr, rfl⟩ := Prod.mk.inj (Option.some.inj h)
  rcases record_walk kmalloc _ _ _ _ _ hw with rfl | ⟨rfl, ht⟩
  · cases hr
  · rw [ht]
    exact List.append_nil _

/-! ### The two reports -/

/-- Lists of which each part of one is no longer than that of the other are
equal only part by part. -/
theorem flatMap_eq_iff {α β : Type*} {f g : α → List β} : ∀ {l : List α},
    (∀ a ∈ l, (g a).length ≤ (f a).length) →
    (l.flatMap f = l.flatMap g ↔ ∀ a ∈ l, f a = g a)
  | [], _ => by simp
  | a :: l, hle => by
    have ha := hle a List.mem_cons_self
    have hl : ∀ b ∈ l, (g b).length ≤ (f b).length := fun b hb => hle b (List.mem_cons_of_mem _ hb)
    have hsum : (l.flatMap g).length ≤ (l.flatMap f).length := by
      rw [List.length_flatMap, List.length_flatMap]
      exact List.sum_le_sum hl
    rw [List.flatMap_cons, List.flatMap_cons, List.forall_mem_cons, ← flatMap_eq_iff hl]
    constructor
    · intro h
      have hlen := congrArg List.length h
      rw [List.length_append, List.length_append] at hlen
      exact List.append_inj h (by omega)
    · rintro ⟨h1, h2⟩
      rw [h1, h2]

/-- What should be printed for one recorded device. -/
def wanted (present : List P) (p : P) : List (BitVec 16 × BitVec 16) :=
  if present.any fun q => same (dev q) (dev p) then [] else [line (dev p)]

omit [DecidableEq P] in
theorem gone_eq (present : List P) : ∀ recorded : List P,
    gone dev recorded present = recorded.flatMap (wanted dev present)
  | [] => rfl
  | p :: l => by
    rw [List.flatMap_cons, ← gone_eq present l]
    unfold gone wanted
    by_cases hp : (present.any fun q => same (dev q) (dev p)) = true
    · simp [hp]
    · simp [hp]

omit [DecidableEq P] in
theorem wanted_le (q : P) (rest : List P) (p : P) :
    (wanted dev (q :: rest) p).length ≤ (shown dev (q :: rest) p).length := by
  unfold wanted shown
  by_cases hq : same (dev q) (dev p) = true
  · simp [hq]
  · rw [List.takeWhile_cons_of_pos (by simpa using hq)]
    split <;> simp

omit [DecidableEq P] in
/-- One recorded device is reported as meant exactly if the loop meets its
match at once, or meets nothing but its like. -/
theorem shown_eq_wanted_iff (q : P) (rest : List P) (p : P) :
    shown dev (q :: rest) p = wanted dev (q :: rest) p ↔ Heads dev (q :: rest) p := by
  have hh : Heads dev (q :: rest) p ↔
      same (dev q) (dev p) = true ∨ rest = [] ∧ line (dev q) = line (dev p) := by
    constructor
    · rintro ⟨q', rest', he, h⟩
      obtain ⟨rfl, rfl⟩ := List.cons.inj he
      exact h
    · exact fun h => ⟨q, rest, rfl, h⟩
  rw [hh]
  unfold wanted shown
  by_cases hq : same (dev q) (dev p) = true
  · simp [hq]
  · rw [List.takeWhile_cons_of_pos (by simpa using hq)]
    by_cases hr : (rest.any fun q => same (dev q) (dev p)) = true
    · have hne : rest ≠ [] := by
        rintro rfl
        cases hr
      simp [hq, hr, hne]
    · have hall : (rest.takeWhile fun q => !same (dev q) (dev p)) = rest := by
        rw [List.takeWhile_eq_self_iff]
        simpa using hr
      simp [hq, hr, hall, and_comm]

omit [DecidableEq P] in
/-- The reports agree exactly if each recorded device is reported as meant. -/
theorem report_eq_iff (present recorded : List P) :
    recorded.flatMap (shown dev present) = gone dev recorded present ↔
      ∀ p ∈ recorded, Heads dev present p := by
  rw [gone_eq]
  rcases present with _ | ⟨q, rest⟩
  · have hs : recorded.flatMap (shown dev []) = [] :=
      List.flatMap_eq_nil_iff.mpr fun _ _ => rfl
    have hh : ∀ p, ¬ Heads dev [] p := by
      rintro p ⟨q, rest, he, -⟩
      cases he
    rw [hs]
    rcases recorded with _ | ⟨p, l⟩
    · simp
    · constructor
      · intro h
        cases h
      · exact fun h => absurd (h p List.mem_cons_self) (hh p)
  · rw [flatMap_eq_iff fun p _ => wanted_le dev q rest p]
    exact forall₂_congr fun p _ => shown_eq_wanted_iff dev q rest p

/-- **The second comparison** of `my_exit` reports the recorded devices that
are gone exactly if, for each recorded device, the first device present has
its address, or is the only one and has its identifiers. -/
theorem unplugged_iff (bus₀ bus : Bus P) {kmalloc : ℕ → Bool} {register : ℤ} {s : State P}
    (h : my_init bus₀ kmalloc register start = some (0, s)) :
    ∃ s₁ s₂, plugged dev bus s = some s₁ ∧ unplugged dev bus s₁ = some s₂ ∧
      my_exit dev bus s = some (clear s₂) ∧
      (s₂.printed = s₁.printed ++ gone dev (s.pdev_list.map (·.pdev)) bus.devs ↔
        ∀ p ∈ bus₀.devs, Heads dev bus.devs p) := by
  obtain ⟨s₁, h1, hl⟩ := plugged_eq dev bus s
  obtain ⟨s₂, h2, hp⟩ := unplugged_eq dev bus s₁.pdev_list s₁
  refine ⟨s₁, s₂, h1, h2, by simp [my_exit, h1, unplugged, h2], ?_⟩
  have hflat : s₁.pdev_list.flatMap (fun p => shown dev bus.devs p.pdev) =
      (s.pdev_list.map (·.pdev)).flatMap (shown dev bus.devs) := by
    rw [hl, List.flatMap_map]
  rw [hp, hflat, List.append_cancel_left_eq, report_eq_iff, my_init_eq h]
  simp only [List.mem_reverse]

/-! ### The first report -/

/-- `domain:bus:devfn`. -/
def pci_dev.address (a : pci_dev) : ℤ × BitVec 8 × BitVec 8 := (a.domain, a.number, a.devfn)

theorem slot_func (x : BitVec 8) : x.toNat = (PCI_SLOT x).toNat * 8 + (PCI_FUNC x).toNat := by
  have hx := x.isLt
  have hs : (PCI_SLOT x).toNat = x.toNat / 8 % 32 := by
    show (x.toNat >>> 3) &&& 31 = _
    rw [Nat.shiftRight_eq_div_pow, Nat.and_two_pow_sub_one_eq_mod _ 5]
  have hf : (PCI_FUNC x).toNat = x.toNat % 8 := by
    show x.toNat &&& 7 = _
    rw [Nat.and_two_pow_sub_one_eq_mod _ 3]
  omega

theorem devfn_eq_iff (x y : BitVec 8) :
    PCI_SLOT x = PCI_SLOT y ∧ PCI_FUNC x = PCI_FUNC y ↔ x = y := by
  constructor
  · rintro ⟨hs, hf⟩
    apply BitVec.eq_of_toNat_eq
    rw [slot_func x, slot_func y, hs, hf]
  · rintro rfl
    exact ⟨rfl, rfl⟩

theorem same_iff (a b : pci_dev) : same a b = true ↔ a.address = b.address := by
  unfold same pci_dev.address
  simp only [Bool.and_eq_true, beq_iff_eq, Prod.mk.injEq, and_assoc, devfn_eq_iff]

/-- The report meant: the devices present at whose address none was recorded. -/
def fresh (recorded present : List P) : List (BitVec 16 × BitVec 16) :=
  (present.filter fun q => ∀ p ∈ recorded, (dev q).address ≠ (dev p).address).map fun q =>
    line (dev q)

omit [DecidableEq P] in
theorem fresh_singleton (recorded : List P) (q : P) : fresh dev recorded [q] =
    if ∀ p ∈ recorded, (dev q).address ≠ (dev p).address then [line (dev q)] else [] := by
  unfold fresh
  rw [List.filter_singleton]
  by_cases h : ∀ p ∈ recorded, (dev q).address ≠ (dev p).address
  · rw [if_pos h, decide_eq_true h]
    rfl
  · rw [if_neg h, decide_eq_false h]
    rfl

/-- What one device present adds to the log. -/
def report (recorded : List P) (out : List (BitVec 16 × BitVec 16)) (q : P) :
    List (BitVec 16 × BitVec 16) :=
  out ++ fresh dev recorded [q]

omit [DecidableEq P] in
theorem foldl_report (recorded : List P) : ∀ (l : List P) (out : List (BitVec 16 × BitVec 16)),
    l.foldl (report dev recorded) out = out ++ fresh dev recorded l
  | [], out => by simp [fresh]
  | q :: l, out => by
    rw [List.foldl_cons, foldl_report recorded l, report, List.append_assoc]
    congr 1
    unfold fresh
    rw [← List.map_append, ← List.filter_append, List.singleton_append]

omit [DecidableEq P] in
theorem listed_iff (q : P) (s : State P) : listed dev q s = true ↔
    ∃ p ∈ s.pdev_list.map (·.pdev), (dev q).address = (dev p).address := by
  have hfold : ∀ (l : List (pdev_struct P)) (found : Bool),
      l.foldl (fun found p => if same (dev q) (dev p.pdev) then true else found) found = true ↔
        found = true ∨ ∃ p ∈ l.map (·.pdev), (dev q).address = (dev p).address := by
    intro l
    induction l with
    | nil => simp
    | cons p l ih =>
      intro found
      rw [List.foldl_cons, ih, List.map_cons, List.exists_mem_cons_iff]
      by_cases hp : same (dev q) (dev p.pdev) = true
      · simp [hp, (same_iff _ _).mp hp]
      · have hne : ¬ (dev q).address = (dev p.pdev).address :=
          fun h => hp ((same_iff _ _).mpr h)
        simp [hp, hne]
  simpa [listed] using hfold s.pdev_list false

omit [DecidableEq P] in
theorem examine_printed (q : P) (s : State P) : ((examine dev q s).1).printed =
    report dev (s.pdev_list.map (·.pdev)) s.printed q := by
  have hl := listed_iff dev q s
  unfold examine report
  rw [fresh_singleton]
  by_cases hq : listed dev q s = true
  · obtain ⟨p, hp, ha⟩ := hl.mp hq
    have hno : ¬ ∀ p ∈ s.pdev_list.map (·.pdev), (dev q).address ≠ (dev p).address :=
      fun h => h p hp ha
    rw [if_neg hno, List.append_nil, hq]
    rfl
  · have hall : ∀ p ∈ s.pdev_list.map (·.pdev), (dev q).address ≠ (dev p).address :=
      fun p hp ha => hq (hl.mpr ⟨p, hp, ha⟩)
    rw [if_pos hall, Bool.eq_false_of_not_eq_true hq]
    rfl

theorem foldl_snd {α β γ : Type*} (g : α → β → γ → β) : ∀ (l : List γ) (r : α × β),
    (l.foldl (fun r c => (r.1, g r.1 r.2 c)) r) = (r.1, l.foldl (g r.1) r.2)
  | [], _ => rfl
  | c :: l, r => foldl_snd g l (r.1, g r.1 r.2 c)

/-- **The first comparison** of `my_exit` reports the devices present that were
not recorded, in the order of the enumeration. -/
theorem plugged_report (bus₀ bus : Bus P) {kmalloc : ℕ → Bool} {register : ℤ} {s : State P}
    (h : my_init bus₀ kmalloc register start = some (0, s)) :
    (∃ s₁, plugged dev bus s = some s₁ ∧
      s₁.printed = s.printed ++ fresh dev bus₀.devs bus.devs) ∧
    ∀ a b : pci_dev, PCI_SLOT a.devfn = PCI_SLOT b.devfn ∧ PCI_FUNC a.devfn = PCI_FUNC b.devfn ↔
      a.devfn = b.devfn := by
  refine ⟨?_, fun a b => devfn_eq_iff a.devfn b.devfn⟩
  have hl := Cursor.loop_eq_walk (pci_get_device bus) touch (examine dev) bus.nodup (fun _ _ => rfl) s
  have hv := Cursor.walk_view touch (examine dev) (fun s => (s.pdev_list.map (·.pdev), s.printed))
    (fun r q => (r.1, report dev r.1 r.2 q)) (fun q q' r => by simp)
    (fun q r => ⟨rfl, Prod.ext (by unfold examine; split <;> rfl) (examine_printed dev q r)⟩)
    bus.devs none s
  refine ⟨_, by rw [plugged]; exact congrArg _ hl, ?_⟩
  have hp := congrArg Prod.snd hv.2
  rw [foldl_snd, my_init_eq h, foldl_report] at hp
  refine hp.trans ?_
  unfold fresh
  simp only [List.mem_reverse]

end Loops

/-- Two devices on one bus. -/
def slots : Fin 2 → pci_dev := fun i => ⟨0, 0, if i = 0 then 0x08 else 0x10, 0x18ec, 0xc058⟩

def both : Bus (Fin 2) := ⟨[0, 1], by decide⟩

/-- With both still present, the first one is reported gone. -/
theorem unplugged_both : ∃ s s₁ s₂,
    my_init both (fun _ => true) 0 start = some (0, s) ∧ plugged slots both s = some s₁ ∧
      unplugged slots both s₁ = some s₂ ∧ gone slots (s.pdev_list.map (·.pdev)) both.devs = [] ∧
      s₂.printed ≠ s₁.printed ++ gone slots (s.pdev_list.map (·.pdev)) both.devs := by
  refine ⟨_, _, _, rfl, rfl, rfl, ?_, ?_⟩ <;> decide

/-- The first one has gone, and a card of its kind is found in the other slot: the
line for it is the one meant. -/
theorem unplugged_one : ∃ s, my_init ⟨[0], by decide⟩ (fun _ => true) 0 start = some (0, s) ∧
    ∃ s₁ s₂, plugged slots ⟨[1], by decide⟩ s = some s₁ ∧
      unplugged slots ⟨[1], by decide⟩ s₁ = some s₂ ∧
      my_exit slots ⟨[1], by decide⟩ s = some (clear s₂) ∧
      s₂.printed = s₁.printed ++ gone slots (s.pdev_list.map (·.pdev)) [1] ∧
      gone slots (s.pdev_list.map (·.pdev)) [1] ≠ [] := by
  obtain ⟨s, hs, hgone⟩ : ∃ s,
      my_init ⟨[0], by decide⟩ (fun _ => true) 0 (start : State (Fin 2)) = some (0, s) ∧
        gone slots (s.pdev_list.map (·.pdev)) [1] ≠ [] := ⟨_, rfl, by decide⟩
  obtain ⟨s₁, s₂, h₁, h₂, hexit, hiff⟩ :=
    unplugged_iff slots ⟨[0], by decide⟩ ⟨[1], by decide⟩ hs
  have hheads : ∀ p ∈ [0], Heads slots [1] p := by
    intro p hp
    obtain rfl := List.mem_singleton.mp hp
    exact ⟨1, [], rfl, .inr ⟨rfl, rfl⟩⟩
  exact ⟨s, hs, s₁, s₂, h₁, h₂, hexit, hiff.mpr hheads, hgone⟩

/-- The second one recorded alone: the first one is reported as new. -/
theorem plugged_one : ∃ s, my_init ⟨[1], by decide⟩ (fun _ => true) 0 start = some (0, s) ∧
    (∃ s₁, plugged slots both s = some s₁ ∧
      s₁.printed = s.printed ++ fresh slots [1] both.devs) ∧
    ∀ a b : pci_dev, PCI_SLOT a.devfn = PCI_SLOT b.devfn ∧ PCI_FUNC a.devfn = PCI_FUNC b.devfn ↔
      a.devfn = b.devfn := by
  obtain ⟨s, hs⟩ : ∃ s, my_init ⟨[1], by decide⟩ (fun _ => true) 0 (start : State (Fin 2)) =
      some (0, s) := ⟨_, rfl⟩
  exact ⟨s, hs, plugged_report slots ⟨[1], by decide⟩ both hs⟩

end Devices
end Pb173
