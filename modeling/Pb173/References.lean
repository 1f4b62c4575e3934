/-
# The references and the list of 08

`pci_get_device` drops the reference on the device it is given and takes one
on the device it returns, so that a loop holds one reference on the device
under its cursor. `my_init` takes one more for each node of the list, and
`my_exit` drops it with the node. At every cursor the module holds as many
references on a device as it has nodes for it, and one more under the cursor
(`Balanced`): each device that `my_exit` looks at is held while it does, and
nothing is left at the end (`balance`).
-/
import Pb173.Devices
import Mathlib.Data.List.Perm.Basic
import Mathlib.Data.List.Range

namespace Pb173
namespace Devices

section References

variable {P : Type*} [DecidableEq P]

theorem refs_get (q : Option P) (s : State P) (p : P) :
    (pci_dev_get q s).refs p = s.refs p + if q = some p then 1 else 0 := by
  rcases q with _ | x
  · simp [pci_dev_get]
  · by_cases hx : x = p
    · simp [pci_dev_get, hx]
    · simp [pci_dev_get, hx, Function.update_of_ne (Ne.symm hx)]

theorem refs_put (q : Option P) (s : State P) (p : P) :
    (pci_dev_put q s).refs p = s.refs p - if q = some p then 1 else 0 := by
  rcases q with _ | x
  · simp [pci_dev_put]
  · by_cases hx : x = p
    · simp [pci_dev_put, hx]
    · simp [pci_dev_put, hx, Function.update_of_ne (Ne.symm hx)]

@[simp] theorem touch_nodes (q q' : Option P) (s : State P) :
    (touch q q' s).nodes = s.nodes := by
  cases q <;> cases q' <;> rfl

@[simp] theorem touch_freed (q q' : Option P) (s : State P) :
    (touch q q' s).freed = s.freed := by
  cases q <;> cases q' <;> rfl

/-! ### The balance -/

/-- A reference for each node, and one under the cursor. -/
def Balanced (q : Option P) (s : State P) : Prop :=
  ∀ p, s.refs p = (s.pdev_list.map (·.pdev)).count p + if q = some p then 1 else 0

/-- The nodes on the list and those freed are the nodes allocated. -/
def Accounted (s : State P) : Prop :=
  (s.freed ++ s.pdev_list.map (·.node)).Perm (List.range s.nodes)

/-- The module holds the devices of its list, and the one under the cursor. -/
def Held (q : P) (s : State P) : Prop := 1 ≤ s.refs q ∧ ∀ n ∈ s.pdev_list, 1 ≤ s.refs n.pdev

theorem Balanced.listed {q : Option P} {s : State P} (h : Balanced q s) {n : pdev_struct P}
    (hn : n ∈ s.pdev_list) : 1 ≤ s.refs n.pdev := by
  have hc := List.count_pos_iff.mpr (List.mem_map_of_mem (f := fun n => n.pdev) hn)
  rw [h n.pdev]
  split_ifs <;> omega

theorem Balanced.held {q : P} {s : State P} (h : Balanced (some q) s) : Held q s := by
  refine ⟨?_, fun n hn => h.listed hn⟩
  rw [h q, if_pos rfl]
  omega

theorem Balanced.touch {q : Option P} {s : State P} (h : Balanced q s) (q' : Option P) :
    Balanced q' (touch q q' s) := by
  intro p
  rw [touch_pdev_list, Devices.touch, refs_put, refs_get, h p]
  omega

/-- A loop that leaves the list and the references alone. -/
theorem Balanced.of_eq {q : Option P} {s t : State P} (h : Balanced q s) (hr : t.refs = s.refs)
    (hl : t.pdev_list = s.pdev_list) : Balanced q t := by
  intro p
  rw [hr, hl, h p]

/-- What the loops of `my_exit` keep. -/
def Kept (s₀ : State P) (q : Option P) (s : State P) : Prop :=
  Balanced q s ∧ s.pdev_list = s₀.pdev_list ∧ s.nodes = s₀.nodes ∧ s.freed = s₀.freed

theorem Kept.get {s₀ s : State P} {q : Option P} (h : Kept s₀ q s) (bus : Bus P) :
    Kept s₀ (pci_get_device bus q s).1 (pci_get_device bus q s).2 := by
  obtain ⟨hb, hl, hn, hf⟩ := h
  exact ⟨hb.touch _, (touch_pdev_list _ _ s).trans hl, (touch_nodes _ _ s).trans hn,
    (touch_freed _ _ s).trans hf⟩

variable (dev : P → pci_dev)

theorem Kept.print {s₀ s : State P} {q : Option P} (h : Kept s₀ q s) (x : P) :
    Kept s₀ q (printk dev x s) := ⟨h.1.of_eq rfl rfl, h.2⟩

theorem plugged_kept (bus : Bus P) {s : State P} (hb : Balanced none s) :
    Cursor.Along (pci_get_device bus) (examine dev) Held (bus.devs.length + 1) none s ∧
      ∃ t, plugged dev bus s = some t ∧ Kept s none t := by
  have hbody : ∀ x u, Kept s (some x) u → Kept s (some x) (examine dev x u).1 := by
    intro x u h
    unfold examine
    split
    · exact h.print dev x
    · exact h
  obtain ⟨h1, h2⟩ := Cursor.loop_inv (J := Kept s) (fun q u h => h.get bus) hbody
    (bus.devs.length + 1) none s ⟨hb, rfl, rfl, rfl⟩
  refine ⟨h1.mono fun x u h => h.1.held, ?_⟩
  obtain ⟨t, ht, -⟩ := plugged_eq dev bus s
  refine ⟨t, ht, ?_⟩
  obtain ⟨⟨t', r⟩, hl, rfl⟩ := Option.map_eq_some_iff.mp ht
  rcases r with _ | ⟨⟨⟩⟩
  exact h2 t' hl

/-- `Held` at every round of the inner loop. -/
def searchAlong (bus : Bus P) (p : P) (s : State P) : Prop :=
  Cursor.Along (fun q s => ((pci_get_device bus q s.2).1, s.1, (pci_get_device bus q s.2).2))
    (compare dev p) (fun x r => Held x r.2) (bus.devs.length + 1) none (false, s)

/-- `Held` at every round of the second comparison. -/
def unpluggedAlong (bus : Bus P) : List (pdev_struct P) → State P → Prop
  | [], _ => True
  | p :: l, s => searchAlong dev bus p.pdev s ∧
    ∀ t, search dev bus p.pdev s = some t → unpluggedAlong bus l t

theorem search_kept (bus : Bus P) (p : P) {s₀ s : State P} (hk : Kept s₀ none s) :
    searchAlong dev bus p s ∧ ∃ t, search dev bus p s = some t ∧ Kept s₀ none t := by
  have hbody : ∀ x (r : Bool × State P), Kept s₀ (some x) r.2 →
      Kept s₀ (some x) (compare dev p x r).1.2 := by
    intro x r h
    unfold compare
    simp only
    split_ifs
    · exact h.print dev x
    · exact h
    · exact h.print dev x
    · exact h
  obtain ⟨h1, h2⟩ := Cursor.loop_inv (J := fun q r => Kept s₀ q r.2)
    (g := fun q s => ((pci_get_device bus q s.2).1, s.1, (pci_get_device bus q s.2).2))
    (fun q r h => h.get bus) hbody (bus.devs.length + 1) none (false, s) hk
  refine ⟨h1.mono fun x r h => h.1.held, ?_⟩
  obtain ⟨t, ht, -⟩ := search_eq dev bus p s
  refine ⟨t, ht, ?_⟩
  obtain ⟨⟨t', r⟩, hl, rfl⟩ := Option.map_eq_some_iff.mp ht
  rcases r with _ | ⟨⟨⟩⟩
  exact h2 t' hl

theorem unplugged_kept (bus : Bus P) (s₀ : State P) : ∀ (l : List (pdev_struct P)) (s : State P),
    Kept s₀ none s → unpluggedAlong dev bus l s ∧
      ∃ t, l.foldlM (fun s p => search dev bus p.pdev s) s = some t ∧ Kept s₀ none t
  | [], s, hk => ⟨trivial, s, rfl, hk⟩
  | p :: l, s, hk => by
    obtain ⟨h1, u, hu, hku⟩ := search_kept dev bus p.pdev hk
    obtain ⟨h2, t, ht, hkt⟩ := unplugged_kept bus s₀ l u hku
    refine ⟨⟨h1, fun u' hu' => ?_⟩, t, ?_, hkt⟩
    · obtain rfl := Option.some.inj (hu.symm.trans hu')
      exact h2
    · rw [List.foldlM_cons, hu]
      exact ht

/-! ### The list is given up -/

/-- One round of the last loop of `my_exit`. -/
def clearOne (s : State P) (p : pdev_struct P) : State P :=
  { pci_dev_put (some p.pdev) s with
    pdev_list := s.pdev_list.filter fun n => n.node ≠ p.node
    freed := s.freed ++ [p.node] }

/-- The device is held at every round of the last loop. -/
def clearAlong : List (pdev_struct P) → State P → Prop
  | [], _ => True
  | p :: l, s => 1 ≤ s.refs p.pdev ∧ clearAlong l (clearOne s p)

theorem clearOne_keeps {p : pdev_struct P} {l : List (pdev_struct P)} {s : State P}
    (hl : s.pdev_list = p :: l) (hb : Balanced none s) (ha : Accounted s) :
    (clearOne s p).pdev_list = l ∧ Balanced none (clearOne s p) ∧ Accounted (clearOne s p) := by
  have hnd : (s.freed ++ s.pdev_list.map (·.node)).Nodup := ha.nodup_iff.mpr (List.nodup_range)
  rw [hl, List.map_cons] at hnd
  have hlist : (clearOne s p).pdev_list = l := by
    show s.pdev_list.filter _ = l
    rw [hl, List.filter_cons_of_neg (by simp), List.filter_eq_self]
    intro n hn
    have hp := (List.nodup_cons.mp (List.nodup_append.mp hnd).2.1).1
    apply decide_eq_true
    intro he
    exact hp (he ▸ List.mem_map_of_mem (f := fun n => n.node) hn)
  refine ⟨hlist, fun q => ?_, ?_⟩
  · rw [hlist]
    show (pci_dev_put (some p.pdev) s).refs q = _
    rw [refs_put, hb q, hl, List.map_cons, List.count_cons]
    by_cases hq : p.pdev = q
    · simp [hq]
    · simp [hq]
  · unfold Accounted
    rw [hlist]
    show (s.freed ++ [p.node] ++ l.map (·.node)).Perm (List.range s.nodes)
    unfold Accounted at ha
    rw [hl, List.map_cons] at ha
    rw [List.append_assoc]
    exact ha

/-- The last loop drops what is held for the list, and frees each node. -/
theorem clear_keeps : ∀ (l : List (pdev_struct P)) (s : State P), s.pdev_list = l →
    Balanced none s → Accounted s → clearAlong l s ∧
      (l.foldl clearOne s).pdev_list = [] ∧ Balanced none (l.foldl clearOne s) ∧
      Accounted (l.foldl clearOne s)
  | [], s, hl, hb, ha => ⟨trivial, hl, hb, ha⟩
  | p :: l, s, hl, hb, ha => by
    obtain ⟨hl', hb', ha'⟩ := clearOne_keeps hl hb ha
    obtain ⟨h1, h2⟩ := clear_keeps l (clearOne s p) hl' hb' ha'
    exact ⟨⟨hb.listed (hl ▸ List.mem_cons_self), h1⟩, h2⟩

/-! ### A whole life -/

/-- Every device is held while `my_exit` looks at it. -/
structure ExitHeld (bus : Bus P) (s : State P) : Prop where
  plugged : Cursor.Along (pci_get_device bus) (examine dev) Held (bus.devs.length + 1) none s
  unplugged : ∀ t, Devices.plugged dev bus s = some t → unpluggedAlong dev bus t.pdev_list t
  clear : ∀ t u, Devices.plugged dev bus s = some t → Devices.unplugged dev bus t = some u →
    clearAlong u.pdev_list u

theorem my_exit_keeps (bus : Bus P) {s : State P} (hb : Balanced none s) (ha : Accounted s) :
    ExitHeld dev bus s ∧ ∃ t, my_exit dev bus s = some t ∧ (∀ p, t.refs p = 0) ∧
      t.pdev_list = [] ∧ t.freed.Perm (List.range s.nodes) := by
  obtain ⟨h1, t, ht, hkt⟩ := plugged_kept dev bus hb
  obtain ⟨h2, u, hu, hbu, hlu, hnu, hfu⟩ := unplugged_kept dev bus s t.pdev_list t hkt
  have hau : Accounted u := by
    unfold Accounted
    rw [hlu, hnu, hfu]
    exact ha
  obtain ⟨h3, hnil, hbal, hacc⟩ := clear_keeps u.pdev_list u rfl hbu hau
  have hnodes : ∀ (l : List (pdev_struct P)) (s : State P), (l.foldl clearOne s).nodes = s.nodes := by
    intro l
    induction l with
    | nil => exact fun _ => rfl
    | cons p l ih => exact fun s => ih (clearOne s p)
  refine ⟨⟨h1, fun t' ht' => ?_, fun t' u' ht' hu' => ?_⟩, u.pdev_list.foldl clearOne u, ?_, ?_, hnil,
    ?_⟩
  · obtain rfl := Option.some.inj (ht.symm.trans ht')
    exact h2
  · obtain rfl := Option.some.inj (ht.symm.trans ht')
    obtain rfl := Option.some.inj (hu.symm.trans hu')
    exact h3
  · simp [my_exit, ht, unplugged, hu]
    rfl
  · intro p
    rw [hbal p, hnil]
    simp
  · unfold Accounted at hacc
    rw [hnil, hnodes, hnu] at hacc
    simpa using hacc

/-! ### What `my_init` takes -/

/-- A round of `my_init` takes a reference for the node that it adds. -/
theorem record_keeps (kmalloc : ℕ → Bool) {x : P} {s : State P} (hb : Balanced (some x) s)
    (ha : Accounted s) :
    Balanced (some x) (record kmalloc x s).1 ∧ Accounted (record kmalloc x s).1 := by
  unfold record
  split
  · refine ⟨fun p => ?_, ?_⟩
    · show (pci_dev_get (some x) s).refs p = ((x :: s.pdev_list.map (·.pdev)).count p : ℕ) + _
      rw [refs_get, hb p, List.count_cons]
      by_cases hx : x = p
      · simp [hx]
      · simp [hx]
    · show (s.freed ++ s.nodes :: s.pdev_list.map (·.node)).Perm (List.range (s.nodes + 1))
      have hmid : (s.freed ++ s.nodes :: s.pdev_list.map (·.node)).Perm
          (s.nodes :: List.range s.nodes) := List.perm_middle.trans (ha.cons _)
      rw [List.range_succ]
      exact hmid.trans (List.perm_append_singleton _ _).symm
  · exact ⟨hb, ha⟩

/-- When nothing fails `my_init` returns 0, every node it allocated being on
the list with a reference. -/
theorem my_init_keeps (bus : Bus P) :
    ∃ s : State P, my_init bus (fun _ => true) 0 start = some (0, s) ∧ Balanced none s ∧
      Accounted s := by
  have hl := Cursor.loop_eq_walk (pci_get_device bus) touch (record fun _ => true) bus.nodup
    (fun _ _ => rfl) (start : State P)
  have hv := Cursor.walk_view touch (record fun _ => true) (fun _ => ()) (fun _ _ => ())
    (fun _ _ _ => rfl) (fun x s => ⟨rfl, rfl⟩) bus.devs none (start : State P)
  have hinv := Cursor.loop_inv (g := pci_get_device bus) (b := record fun _ => true)
    (J := fun q s => Balanced q s ∧ Accounted s)
    (fun q s h => ⟨h.1.touch _, by
      unfold Accounted pci_get_device
      rw [touch_freed, touch_pdev_list, touch_nodes]
      exact h.2⟩)
    (fun x s h => record_keeps _ h.1 h.2) (bus.devs.length + 1) none start
    ⟨fun p => by simp [start], .refl _⟩
  rcases hw : Cursor.walk touch (record fun _ => true) none bus.devs (start : State P) with ⟨s, r⟩
  rw [hw] at hl hv
  obtain rfl : r = none := hv.1
  refine ⟨s, ?_, hinv.2 s hl⟩
  unfold my_init
  rw [show ({ start with pdev_list := [] } : State P) = start from rfl, hl]
  rfl

/-- **The references over a life of the module**, the devices present at its
end being any. -/
theorem balance (bus₀ bus : Bus P) : ∃ s, my_init bus₀ (fun _ => true) 0 start = some (0, s) ∧
    (∀ p, s.refs p = if p ∈ bus₀.devs then 1 else 0) ∧ ExitHeld dev bus s ∧
    ∃ t, my_exit dev bus s = some t ∧ (∀ p, t.refs p = 0) ∧ t.pdev_list = [] ∧
      t.freed.Perm (List.range s.nodes) := by
  obtain ⟨s, hs, hb, ha⟩ := my_init_keeps bus₀
  refine ⟨s, hs, fun p => ?_, my_exit_keeps dev bus hb ha⟩
  have hnd : bus₀.devs.reverse.Nodup := List.nodup_reverse.mpr bus₀.nodup
  rw [hb p, my_init_eq hs, hnd.count]
  simp

/-! ### A load that fails -/

/-- Nothing is left of a load: no reference, and no node that was not freed. -/
structure Clean (s : State P) : Prop where
  refs : ∀ p, s.refs p = 0
  freed : s.freed.Perm (List.range s.nodes)

/-- What `my_init` keeps at every cursor. -/
def Loading (q : Option P) (s : State P) : Prop := Balanced q s ∧ Accounted s ∧ s.freed = []

theorem Loading.get {q : Option P} {s : State P} (h : Loading q s) (bus : Bus P) :
    Loading (pci_get_device bus q s).1 (pci_get_device bus q s).2 := by
  obtain ⟨hb, ha, hf⟩ := h
  refine ⟨hb.touch _, ?_, (touch_freed _ _ s).trans hf⟩
  unfold Accounted pci_get_device
  rw [touch_freed, touch_pdev_list, touch_nodes]
  exact ha

theorem Loading.record {kmalloc : ℕ → Bool} {x : P} {s : State P} (h : Loading (some x) s) :
    Loading (some x) (Devices.record kmalloc x s).1 := by
  obtain ⟨hb, ha⟩ := record_keeps kmalloc h.1 h.2.1
  refine ⟨hb, ha, ?_⟩
  have hf := h.2.2
  unfold Devices.record
  split
  · exact hf
  · exact hf

/-- The loop is left early exactly if an allocation fails. -/
theorem record_walk_none (kmalloc : ℕ → Bool) : ∀ (l : List P) (q : Option P) (s : State P),
    (Cursor.walk touch (record kmalloc) q l s).2 = none ↔
      ∀ i, i < l.length → kmalloc (s.nodes + i) = true
  | [], q, s => by simp [Cursor.walk]
  | x :: l, q, s => by
    set u := touch q (some x) s with hu
    have hn : u.nodes = s.nodes := touch_nodes q (some x) s
    by_cases hk : kmalloc u.nodes = true
    · have hb : record kmalloc x u = ({ pci_dev_get (some x) u with
          nodes := u.nodes + 1, pdev_list := ⟨u.nodes, x⟩ :: u.pdev_list }, none) := if_pos hk
      simp only [Cursor.walk, ← hu, hb]
      rw [record_walk_none kmalloc l, List.length_cons]
      simp only [hn] at hk ⊢
      constructor
      · rintro h (_ | i) hi
        · exact hk
        · have hi' := h i (by omega)
          rwa [Nat.add_assoc, Nat.add_comm 1 i] at hi'
      · intro h i hi
        have hi' := h (i + 1) (by omega)
        rwa [Nat.add_assoc, Nat.add_comm 1 i]
    · have hb : record kmalloc x u = (u, some (- EIO)) := if_neg hk
      simp only [Cursor.walk, ← hu, hb]
      refine iff_of_false (by simp) fun h => hk ?_
      rw [hn]
      exact h 0 (by simp)

/-- A loop that is left early keeps the reference of its cursor. -/
theorem Loading.not_clean {x : P} {s : State P} (h : Loading (some x) s) : ¬ Clean s := by
  intro hclean
  have hx := hclean.refs x
  rw [h.1 x, if_pos rfl] at hx
  omega

/-- A loop that has come to its end keeps what it has recorded. -/
theorem Loading.clean_iff {s : State P} (h : Loading none s) : Clean s ↔ s.pdev_list = [] := by
  obtain ⟨hb, ha, hf⟩ := h
  constructor
  · intro hclean
    have hnone : s.pdev_list.map (·.pdev) = [] := by
      rw [List.eq_nil_iff_forall_not_mem]
      intro p hp
      have hpos := List.count_pos_iff.mpr hp
      have h0 := hb p
      rw [hclean.refs p, if_neg (by simp)] at h0
      omega
    exact List.map_eq_nil_iff.mp hnone
  · intro hnil
    refine ⟨fun p => ?_, ?_⟩
    · rw [hb p, hnil]
      simp
    · unfold Accounted at ha
      rwa [hnil, List.map_nil, List.append_nil] at ha

/-- **A load that fails** leaves nothing behind exactly if there is no PCI
device; it does not fail if every allocation and the registration succeed. -/
theorem failed_load_iff (bus : Bus P) (kmalloc : ℕ → Bool) (register : ℤ) :
    ∃ e s, my_init bus kmalloc register start = some (e, s) ∧ ((e ≠ 0 → Clean s) ↔
      bus.devs = [] ∨ register = 0 ∧ ∀ i, i < bus.devs.length → kmalloc i = true) := by
  have hl := Cursor.loop_eq_walk (pci_get_device bus) touch (record kmalloc) bus.nodup
    (fun _ _ => rfl) (start : State P)
  have hstart : Loading none (start : State P) := ⟨fun p => by simp [start], .refl _, rfl⟩
  have hend := (Cursor.loop_inv (b := record kmalloc) (fun q s (h : Loading q s) => h.get bus)
    (fun x s h => h.record) (bus.devs.length + 1) none start hstart).2
  have hleft := Cursor.loop_inv_left (b := record kmalloc)
    (fun q s (h : Loading q s) => h.get bus) (fun x s h => h.record) (bus.devs.length + 1) none
    start hstart
  have hnone := record_walk_none kmalloc bus.devs none (start : State P)
  simp only [show (start : State P).nodes = 0 from rfl, Nat.zero_add] at hnone
  rcases hw : Cursor.walk touch (record kmalloc) none bus.devs (start : State P) with ⟨s, r⟩
  rw [hw] at hl hnone
  have hinit : my_init bus kmalloc register start = some (r.getD register, s) := by
    unfold my_init
    rw [show ({ start with pdev_list := [] } : State P) = start from rfl, hl]
    rfl
  refine ⟨_, s, hinit, ?_⟩
  have hrec := record_walk kmalloc _ _ _ _ _ hw
  rcases r with _ | err
  · -- every device has been recorded
    have hlist : s.pdev_list.map (·.pdev) = bus.devs.reverse := by
      rcases hrec with hr | ⟨-, ht⟩
      · cases hr
      · exact ht.trans (List.append_nil _)
    have hdevs : s.pdev_list = [] ↔ bus.devs = [] := by
      rw [← List.map_eq_nil_iff, hlist, List.reverse_eq_nil_iff]
    show (register ≠ 0 → Clean s) ↔ _
    rw [(hend s hl).clean_iff, hdevs]
    have hall := hnone.mp rfl
    by_cases hreg : register = 0
    · exact iff_of_true (fun hne => absurd hreg hne) (.inr ⟨hreg, hall⟩)
    · exact ⟨fun h => .inl (h hreg), fun h _ => h.resolve_right fun hr => hreg hr.1⟩
  · -- the loop has been left with the cursor on a device
    obtain ⟨x, hloading⟩ := hleft s err hl
    have herr : err ≠ 0 := by
      rcases hrec with hr | ⟨hr, -⟩
      · obtain rfl := Option.some.inj hr
        decide
      · cases hr
    refine iff_of_false (fun hclean => hloading.not_clean (hclean herr)) ?_
    rintro (hdevs | ⟨-, hall⟩)
    · rw [hdevs] at hw
      cases hw
    · cases hnone.mpr hall

end References

/-- One device, and no memory for its node: the reference of the cursor stays. -/
theorem failed_load_one : ∃ s, my_init (⟨[()], by decide⟩ : Bus Unit) (fun _ => false) 0 start =
    some (- EIO, s) ∧ s.refs () = 1 ∧ ¬ Clean s := by
  obtain ⟨s, hs⟩ : ∃ s, my_init (⟨[()], by decide⟩ : Bus Unit) (fun _ => false) 0 start =
      some (- EIO, s) := ⟨_, rfl⟩
  have hrefs : s.refs () = 1 := by
    obtain ⟨-, rfl⟩ := Prod.mk.inj (Option.some.inj hs)
    rfl
  exact ⟨s, hs, hrefs, fun h => absurd ((h.refs ()).symm.trans hrefs) (by decide)⟩

end Devices
end Pb173
