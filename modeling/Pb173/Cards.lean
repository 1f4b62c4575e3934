/-
# Several cards (11/homework)

The driver core calls `my_probe` and `my_remove` one after the other, a card
is bound from a probe that returned 0 to its remove, and in between come
interrupts and calls of `my_mmap`. Each call is one event here.

Of the module's globals, `task` points to the tasklet of the card probed
last. So the first `my_remove` among several bound cards frees the tasklet of
another card, or leaves the others without one; where a card is removed only
when it is the only one bound, the log is a ledger in which every allocation
is freed once and by its own card (`owned_iff`).
-/
import Pb173.Calls
import Pb173.Machine
import Pb173.Pages

namespace Pb173
namespace Cards

open Dma

/-- The module, whether it is loaded, whether `my_device` and `my_driver` are
registered, and the bound cards. -/
structure State (D : Type*) where
  mod : Driver D
  loaded : Bool
  misc : Bool
  driver : Bool
  bound : List D

def start {D : Type*} : State D := ⟨Dma.loaded, false, false, false, []⟩

/-- A call, with what the kernel and the card answer. -/
inductive Ev (A : Pages.Arch) (D : Type*)
  | my_init (misc_register pci_register_driver : ℤ)
  | probe (pdev : D) (as : List Answer)
  | remove (pdev : D)
  | irq (i : ℕ) (read : Reg → BitVec 32)
  | mmap (vma : Pages.Vma A) (remap_pfn_range : ℤ)

section Machine

variable {A : Pages.Arch} {D : Type*} [DecidableEq D]

/-- `my_init` ignores what `misc_register` returns. `my_mmap` writes to no
variable of the module. -/
def step (s : State D) : Ev A D → Option (State D)
  | .my_init misc_register pci_register_driver =>
    if s.loaded then none
    else some { s with
      loaded := true, misc := misc_register = 0, driver := pci_register_driver = 0 }
  | .probe pdev as =>
    if s.driver ∧ pdev ∉ s.bound then
      (my_probe pdev as s.mod).map fun (r : ℤ × Driver D) =>
        { s with mod := r.2, bound := if r.1 = 0 then s.bound ++ [pdev] else s.bound }
    else none
  | .remove pdev =>
    if pdev ∈ s.bound then
      some { s with mod := my_remove pdev s.mod, bound := s.bound.filter fun d => d ≠ pdev }
    else none
  | .irq i read =>
    match s.mod.irq[i]? with
    | none => none
    | some (_, p) => some { s with mod := my_handler p read s.mod }
  | .mmap _ _ => if s.misc then some s else none

/-- What a call can do; a probe that fails leaves what it has made so far. -/
inductive Step (s : State D) : Ev A D → State D → Prop
  | my_init {misc_register pci_register_driver : ℤ} :
    Step s (.my_init misc_register pci_register_driver) { s with
      loaded := true, misc := misc_register = 0, driver := pci_register_driver = 0 }
  | probe {d : D} {as : List Answer} {l : Locals} {m : Driver D} (hd : d ∉ s.bound)
    (hs : stopAt as probe_code = none) (hf : Frame s.mod d 11 l m) :
    Step s (.probe d as) { s with mod := m, bound := s.bound ++ [d] }
  | probe_error {d : D} {as : List Answer} {st : Probe} {rest : List Probe} {l : Locals}
    {m : Driver D} (hd : d ∉ s.bound) (hs : stopAt as probe_code = some st)
    (hfall : st.fallible = true) (hsuf : st :: rest <:+ probe_code)
    (hf : Frame s.mod d (stage (st :: rest)) l m) :
    Step s (.probe d as) { s with mod := st.giveUp m }
  | remove {d : D} (hd : d ∈ s.bound) :
    Step s (.remove d) { s with
      mod := my_remove d s.mod, bound := s.bound.filter fun x => x ≠ d }
  | irq {i : ℕ} {read : Reg → BitVec 32} {p : Ptr} :
    Step s (.irq i read) { s with mod := my_handler p read s.mod }
  | mmap {vma : Pages.Vma A} {r : ℤ} : Step s (.mmap vma r) s

theorem Step.of_step {s t : State D} {e : Ev A D} (h : step s e = some t) : Step s e t := by
  cases e with
  | my_init misc_register pci_register_driver =>
    simp only [step] at h
    split_ifs at h
    obtain rfl := Option.some.inj h
    exact .my_init
  | probe d as =>
    simp only [step] at h
    split_ifs at h with hd
    obtain ⟨⟨r, m⟩, hr, rfl⟩ := Option.map_eq_some_iff.mp h
    rcases my_probe_spec hr with ⟨hs, rfl, l, hf⟩ | ⟨st, rest, l, m', hs, hfall, hsuf, hne, hf, rfl⟩
    · exact .probe hd.2 hs hf
    · simp only [if_neg hne]
      exact .probe_error hd.2 hs hfall hsuf hf
  | remove d =>
    simp only [step] at h
    split_ifs at h with hd
    obtain rfl := Option.some.inj h
    exact .remove hd
  | irq i read =>
    simp only [step] at h
    split at h
    · cases h
    · obtain rfl := Option.some.inj h
      exact .irq
  | mmap vma r =>
    simp only [step] at h
    split_ifs at h
    obtain rfl := Option.some.inj h
    exact .mmap

end Machine

/-! ### The handler keeps the allocations -/

section Handler

variable {D : Type*}

/-- The contents of tasklets may differ. -/
structure Keeps (m m' : Driver D) : Prop where
  get : ∀ a, m'.heap.get a = m.heap.get a ∨ ∃ d x y,
    m.heap.get a = some (d, .tasklet x) ∧ m'.heap.get a = some (d, .tasklet y)
  next : m'.heap.next = m.heap.next
  log : m'.log = m.log
  task : m'.task = m.task
  dma : m'.dma_virt_addr = m.dma_virt_addr
  drvdata : m'.drvdata = m.drvdata

theorem Keeps.refl (m : Driver D) : Keeps m m := ⟨fun _ => .inl rfl, rfl, rfl, rfl, rfl, rfl⟩

theorem Keeps.trans {m m' m'' : Driver D} (h : Keeps m m') (h' : Keeps m' m'') : Keeps m m'' := by
  refine ⟨fun a => ?_, h'.next.trans h.next, h'.log.trans h.log, h'.task.trans h.task,
    h'.dma.trans h.dma, h'.drvdata.trans h.drvdata⟩
  rcases h'.get a with he | ⟨d, x, y, hx, hy⟩
  · rw [he]
    exact h.get a
  · rcases h.get a with he | ⟨d', x', y', hx', hy'⟩
    · exact .inr ⟨d, x, y, he ▸ hx, hy⟩
    · obtain ⟨rfl, -⟩ := Prod.mk.inj (Option.some.inj (hy'.symm.trans hx))
      exact .inr ⟨d', x', y, hx', hy⟩

theorem Keeps.fault (m : Driver D) (f : Fault) : Keeps m (m.fault f) :=
  ⟨fun _ => .inl rfl, rfl, rfl, rfl, rfl, rfl⟩

theorem Keeps.tasklet_init (m : Driver D) (t : Ptr) (data : Ptr × ℕ) :
    Keeps m (m.tasklet_init t data) := by
  unfold Driver.tasklet_init
  split
  · next d x ht =>
    refine ⟨fun a => ?_, rfl, rfl, rfl, rfl, rfl⟩
    by_cases ha : a = t
    · subst ha
      exact .inr ⟨d, x, data, ht, Heap.get_set_self ht⟩
    · exact .inl (m.heap.get_set_of_ne ha)
  · exact Keeps.fault m _

theorem keeps_handler (m : Driver D) (p virt : Ptr) : ∀ act : Act,
    Keeps m (m.handler p virt act).2
  | .load => by
    simp only [Driver.handler]
    split
    · exact Keeps.refl m
    · exact Keeps.fault m _
  | .readl _ => by
    simp only [Driver.handler, Driver.use]
    split
    · exact Keeps.refl m
    · exact Keeps.fault m _
  | .writel v r => by
    simp only [Driver.handler, Driver.writel]
    split
    · exact ⟨fun _ => .inl rfl, rfl, rfl, rfl, rfl, rfl⟩
    · exact Keeps.fault m _
  | .tasklet_init => by
    simp only [Driver.handler]
    split
    · exact Keeps.tasklet_init m _ _
    · exact Keeps.fault m _
  | .tasklet_schedule => by
    simp only [Driver.handler, Driver.tasklet_schedule]
    split
    · exact ⟨fun _ => .inl rfl, rfl, rfl, rfl, rfl, rfl⟩
    · exact Keeps.fault m _
  | .ret _ => Keeps.refl m

theorem keeps_runHandler (p : Ptr) (read : Reg → BitVec 32) :
    ∀ (k : ℕ) (pc : Handler) (virt : Ptr) (m : Driver D), Keeps m (runHandler p read k pc virt m)
  | 0, _, _, m => Keeps.refl m
  | k + 1, pc, virt, m => by
    rw [runHandler]
    have h := keeps_handler m p virt pc.act
    split
    · exact h
    · exact h.trans (keeps_runHandler p read k _ _ _)

theorem Keeps.get_of_ne {m m' : Driver D} (h : Keeps m m') {a : Ptr} {o : D × Obj}
    (ha : m.heap.get a = some o) (hk : o.2.kind ≠ .tasklet) : m'.heap.get a = some o := by
  rcases h.get a with he | ⟨d, x, y, hx, -⟩
  · rw [he, ha]
  · obtain rfl := Option.some.inj (hx.symm.trans ha)
    exact absurd rfl hk

theorem Keeps.get_tasklet {m m' : Driver D} (h : Keeps m m') {a : Ptr} {d : D} {x : Ptr × ℕ}
    (ha : m.heap.get a = some (d, .tasklet x)) : ∃ y, m'.heap.get a = some (d, .tasklet y) := by
  rcases h.get a with he | ⟨d', x', y, hx, hy⟩
  · exact ⟨x, he.trans ha⟩
  · obtain ⟨rfl, -⟩ := Prod.mk.inj (Option.some.inj (hx.symm.trans ha))
    exact ⟨y, hy⟩

theorem Keeps.get_none {m m' : Driver D} (h : Keeps m m') {a : Ptr}
    (ha : m.heap.get a = none) : m'.heap.get a = none := by
  rcases h.get a with he | ⟨d, x, y, hx, -⟩
  · rw [he, ha]
  · rw [ha] at hx
    cases hx

theorem Keeps.is {m m' : Driver D} (h : Keeps m m') {k : Kind} {a : Ptr} (ha : m.Is k a) :
    m'.Is k a := by
  unfold Driver.Is at *
  rcases h.get a with he | ⟨d, x, y, hx, hy⟩
  · rw [he, ha]
  · rw [hx] at ha
    rw [hy, ← ha]
    rfl

end Handler

/-! ### The ledger -/

section Ledger

variable {D : Type*}

/-- The devices whose remove freed `a`. -/
def freers (a : Ptr) (log : List (Entry D)) : List D :=
  log.filterMap fun
    | .free d b => if b = a then some d else none
    | _ => none

/-- Everything allocated for a card is freed once, and by the remove of that
card; `task` points to a tasklet while a card is bound; and nothing is left
when none is. -/
structure Owned [DecidableEq D] (s : State D) : Prop where
  freed : ∀ pre d k a post, s.mod.log = pre ++ .alloc d k a :: post →
    freers a s.mod.log = if .remove d ∈ post then [d] else []
  task : ∀ d ∈ s.bound, s.mod.Is .tasklet s.mod.task
  clean : s.bound = [] → ∀ a, s.mod.heap.get a = none

/-- Every allocation of the log is freed. -/
def Closed (log : List (Entry D)) : Prop :=
  ∀ pre d k a post, log = pre ++ .alloc d k a :: post → .remove d ∈ post ∧ freers a log = [d]

/-- What an entry says of the addresses. -/
def Below (n : Ptr) : Entry D → Prop
  | .alloc _ _ a => a < n
  | .free _ a => a < n
  | _ => True

/-- An entry of a call of `my_probe` that allocates from `n` on. -/
def Opens (n : Ptr) : Entry D → Prop
  | .probe _ => True
  | .alloc _ _ a => n ≤ a
  | _ => False

theorem split_append {xs ys pre post : List (Entry D)} {e : Entry D}
    (h : xs ++ ys = pre ++ e :: post) :
    (∃ post', xs = pre ++ e :: post' ∧ post = post' ++ ys) ∨
      ∃ pre', ys = pre' ++ e :: post ∧ pre = xs ++ pre' := by
  rcases List.append_eq_append_iff.mp h with ⟨as, rfl, h2⟩ | ⟨bs, rfl, h2⟩
  · exact .inr ⟨as, h2, rfl⟩
  · rcases bs with _ | ⟨b, bs⟩
    · exact .inr ⟨[], by simpa using h2.symm, by simp⟩
    · obtain ⟨rfl, rfl⟩ := List.cons.inj h2
      exact .inl ⟨bs, rfl, rfl⟩

theorem freers_append (a : Ptr) (xs ys : List (Entry D)) :
    freers a (xs ++ ys) = freers a xs ++ freers a ys := List.filterMap_append

theorem freers_below {a n : Ptr} (ha : n ≤ a) {xs : List (Entry D)} (h : ∀ e ∈ xs, Below n e) :
    freers a xs = [] := by
  rw [freers, List.filterMap_eq_nil_iff]
  intro e he
  have hb := h e he
  cases e with
  | free d b =>
    exact if_neg (Nat.ne_of_lt (Nat.lt_of_lt_of_le hb ha))
  | _ => rfl

theorem freers_opens (a : Ptr) {n : Ptr} {xs : List (Entry D)} (h : ∀ e ∈ xs, Opens n e) :
    freers a xs = [] := by
  rw [freers, List.filterMap_eq_nil_iff]
  intro e he
  have hb := h e he
  cases e with
  | free d b => exact hb.elim
  | _ => rfl

theorem entries_opens (d : D) {n k : Ptr} (h : n ≤ k) : ∀ e ∈ entries d k, Opens n e := by
  intro e he
  simp only [entries, List.mem_cons, List.not_mem_nil, or_false] at he
  rcases he with rfl | rfl | rfl | rfl | rfl
  · trivial
  · exact h
  · exact Nat.le_add_right_of_le h
  · exact Nat.le_add_right_of_le h
  · exact Nat.le_add_right_of_le h

variable {old new : List (Entry D)} {n : Ptr}

/-- A closed ledger, and allocations after it. -/
structure Ledger (n : Ptr) (old new : List (Entry D)) : Prop where
  closed : Closed old
  below : ∀ e ∈ old, Below n e
  opens : ∀ e ∈ new, Opens n e

theorem Ledger.freed [DecidableEq D] (h : Ledger n old new) {pre post : List (Entry D)}
    {d : D} {k : Kind} {a : Ptr} (he : old ++ new = pre ++ .alloc d k a :: post) :
    freers a (old ++ new) = if .remove d ∈ post then [d] else [] := by
  rw [freers_append, freers_opens a h.opens, List.append_nil]
  rcases split_append he with ⟨post', hc, rfl⟩ | ⟨pre', ho, rfl⟩
  · obtain ⟨hr, hf⟩ := h.closed _ _ _ _ _ hc
    rw [if_pos (List.mem_append_left _ hr), hf]
  · have hr : Entry.remove d ∉ post := fun hr => h.opens (.remove d) (by rw [ho]; simp [hr])
    have ha : n ≤ a := h.opens (.alloc d k a) (by rw [ho]; simp)
    rw [if_neg hr, freers_below ha h.below]

theorem Ledger.append (h : Ledger n old new) {more : List (Entry D)}
    (hm : ∀ e ∈ more, Opens n e) : Ledger n old (new ++ more) := by
  refine ⟨h.closed, h.below, fun e he => ?_⟩
  rcases List.mem_append.mp he with he | he
  · exact h.opens e he
  · exact hm e he

/-- What a remove logs that frees what was last allocated. -/
def closing (d : D) (n : Ptr) : List (Entry D) :=
  [.remove d, .free d n, .free d (n + 3), .free d (n + 1), .free d (n + 2)]

theorem freers_closing_of_lt (d : D) {a : Ptr} (ha : a < n) : freers a (closing d n) = [] := by
  have h0 := Nat.ne_of_gt ha
  have h1 := Nat.ne_of_gt (Nat.lt_add_right 1 ha)
  have h2 := Nat.ne_of_gt (Nat.lt_add_right 2 ha)
  have h3 := Nat.ne_of_gt (Nat.lt_add_right 3 ha)
  simp [freers, closing, h0, h1, h2, h3]

theorem freers_closing_of_mem {d e : D} {k : Kind} {a : Ptr}
    (h : Entry.alloc e k a ∈ entries d n) : e = d ∧ freers a (closing d n) = [d] := by
  simp only [entries, List.mem_cons, reduceCtorEq, Entry.alloc.injEq, List.not_mem_nil, or_false,
    false_or] at h
  rcases h with ⟨rfl, -, rfl⟩ | ⟨rfl, -, rfl⟩ | ⟨rfl, -, rfl⟩ | ⟨rfl, -, rfl⟩ <;>
    exact ⟨rfl, by simp [freers, closing]⟩

/-- The card whose allocations were the last is removed: the ledger closes. -/
theorem Ledger.close {d : D} (h : Ledger n old (entries d n)) :
    Ledger (n + 4) (old ++ entries d n ++ closing d n) [] := by
  refine ⟨fun pre e k a post he => ?_, fun e he => ?_, fun e he => by cases he⟩
  · rw [freers_append, freers_append, freers_opens a h.opens, List.append_nil]
    rcases split_append he with ⟨post', h1, rfl⟩ | ⟨pre', h1, rfl⟩
    · rcases split_append h1 with ⟨post'', hc, rfl⟩ | ⟨pre', ho, rfl⟩
      · obtain ⟨hr, hf⟩ := h.closed _ _ _ _ _ hc
        have ha : a < n := h.below (.alloc e k a) (by rw [hc]; simp)
        refine ⟨by simp [hr], ?_⟩
        rw [hf, freers_closing_of_lt d ha, List.append_nil]
      · have hmem : Entry.alloc e k a ∈ entries d n := by rw [ho]; simp
        obtain ⟨rfl, hf⟩ := freers_closing_of_mem hmem
        refine ⟨by simp [closing], ?_⟩
        rw [freers_below (h.opens _ hmem) h.below, hf, List.nil_append]
    · have hmem : Entry.alloc e k a ∈ closing d n := by rw [h1]; simp
      simp [closing] at hmem
  · rcases List.mem_append.mp he with he | he
    · rcases List.mem_append.mp he with he | he
      · have hb := h.below e he
        cases e with
        | alloc _ _ a | free _ a => exact Nat.lt_add_right 4 hb
        | _ => trivial
      · simp only [entries, List.mem_cons, List.not_mem_nil, or_false] at he
        rcases he with rfl | rfl | rfl | rfl | rfl <;> simp [Below]
    · simp only [closing, List.mem_cons, List.not_mem_nil, or_false] at he
      rcases he with rfl | rfl | rfl | rfl | rfl <;> simp [Below]

end Ledger

/-! ### Runs -/

section Runs

variable {A : Pages.Arch} {D : Type*} [DecidableEq D]

/-- A call that the ownership of allocations is about: no failed probe, and no
`my_mmap`. -/
def Plain : Ev A D → Prop
  | .probe _ as => stopAt as probe_code = none
  | .mmap _ _ => False
  | _ => True

/-- A card is removed only when no other one is bound. -/
def Sole (s : State D) (e : Ev A D) : Prop := ∀ d, e = .remove d → s.bound = [d]

/-- The only bound card is the one probed last, and what is allocated is its
own. -/
structure One (s : State D) (d : D) (n : Ptr) (old : List (Entry D)) : Prop where
  bound : s.bound = [d]
  log : s.mod.log = old ++ entries d n
  ledger : Ledger n old (entries d n)
  next : s.mod.heap.next = n + 4
  pos : n ≠ NULL
  task : s.mod.task = n
  drvdata : s.mod.drvdata d = n + 2
  tasklet : ∃ x, s.mod.heap.get n = some (d, .tasklet x)
  bar : s.mod.heap.get (n + 1) = some (d, .bar)
  help : ∃ h, s.mod.heap.get (n + 2) = some (d, .help h) ∧ h.virt = n + 1 ∧ h.dma_virt = n + 3
  page : s.mod.heap.get (n + 3) = some (d, .page)
  only : ∀ a < n, s.mod.heap.get a = none

/-- The states that the calls reach while cards are removed alone. -/
inductive Books : State D → Prop
  | none {s : State D} (bound : s.bound = []) (ledger : Ledger s.mod.heap.next s.mod.log [])
      (task : s.mod.task = NULL) (empty : ∀ a, s.mod.heap.get a = none) : Books s
  | one {s : State D} {d : D} {n : Ptr} {old : List (Entry D)} (h : One s d n old) : Books s
  | many {s : State D} {n : Ptr} {old new : List (Entry D)} (bound : 2 ≤ s.bound.length)
      (log : s.mod.log = old ++ new) (ledger : Ledger n old new) (next : n ≤ s.mod.heap.next)
      (task : s.mod.Is .tasklet s.mod.task) : Books s

theorem Books.owned {s : State D} (h : Books s) : Owned s := by
  cases h with
  | none bound ledger task empty =>
    refine ⟨fun pre d k a post he => ?_, fun d hd => ?_, fun _ => empty⟩
    · rw [← List.append_nil s.mod.log] at he ⊢
      exact ledger.freed he
    · rw [bound] at hd
      cases hd
  | @one d n old h =>
    refine ⟨fun pre d k a post he => ?_, fun _ _ => ?_, fun hb => ?_⟩
    · rw [h.log] at he ⊢
      exact h.ledger.freed he
    · obtain ⟨x, hx⟩ := h.tasklet
      rw [h.task]
      exact Driver.is_of_get hx
    · rw [h.bound] at hb
      cases hb
  | many bound log ledger next task =>
    refine ⟨fun pre d k a post he => ?_, fun _ _ => task, fun hb => ?_⟩
    · rw [log] at he ⊢
      exact ledger.freed he
    · rw [hb] at bound
      cases bound

omit [DecidableEq D] in
theorem One.books {s : State D} {d : D} {n : Ptr} {old : List (Entry D)} (h : One s d n old) :
    ∃ new, s.mod.log = old ++ new ∧ Ledger n old new ∧ n ≤ s.mod.heap.next :=
  ⟨_, h.log, h.ledger, by rw [h.next]; exact Nat.le_add_right _ _⟩

theorem books_first {s : State D} (hb : s.bound = [])
    (hl : Ledger s.mod.heap.next s.mod.log []) (he : ∀ a, s.mod.heap.get a = none) {d : D}
    {l : Locals} {m : Driver D} (hf : Frame s.mod d 11 l m) :
    One { s with mod := m, bound := s.bound ++ [d] } d s.mod.heap.next s.mod.log := by
  obtain ⟨h, hp, -, hv, hg⟩ := hf.help (by decide)
  refine ⟨?_, hf.log, hl.append (entries_opens d le_rfl), hf.next, s.mod.heap.next_pos.ne', hf.task,
    ?_, ⟨_, hf.tasklet (by decide)⟩, hf.bar (by decide), ⟨h, hp, hv (by decide), hg (by decide)⟩,
    hf.page (by decide), fun a ha => (hf.old a ha).trans (he a)⟩
  · show s.bound ++ [d] = [d]
    rw [hb]
    rfl
  · show m.drvdata d = _
    rw [hf.drvdata, if_pos (by decide), Function.update_self]

theorem One.removed {s : State D} {d : D} {n : Ptr} {old : List (Entry D)} (h : One s d n old) :
    Books { s with mod := my_remove d s.mod, bound := s.bound.filter fun x => x ≠ d } := by
  obtain ⟨p, hp, hv, hg⟩ := h.help
  obtain ⟨x, hx⟩ := h.tasklet
  rw [← h.drvdata] at hp
  have hr := my_remove_spec hp (by rw [hv]; exact h.bar) (by rw [hg]; exact h.page)
    (.inr ⟨_, by rw [h.task]; exact hx, rfl⟩)
  refine .none ?_ ?_ hr.task fun a => ?_
  · show s.bound.filter _ = []
    rw [h.bound]
    simp
  · have hlog : (my_remove d s.mod).log = old ++ entries d n ++ closing d n := by
      rw [hr.log, h.log, h.task, if_neg h.pos, hv, hg, h.drvdata]
      rfl
    show Ledger (my_remove d s.mod).heap.next (my_remove d s.mod).log []
    rw [hr.next, h.next, hlog]
    exact h.ledger.close
  · show (my_remove d s.mod).heap.get a = none
    rw [hr.get, h.task, hv, hg, h.drvdata]
    split_ifs with ha
    · rfl
    · rcases Nat.lt_or_ge a n with hlt | hge
      · exact h.only a hlt
      · apply s.mod.heap.fresh
        rw [h.next]
        have h0 : a ≠ n ∧ a ≠ n + 3 ∧ a ≠ n + 1 ∧ a ≠ n + 2 := by simpa using ha
        obtain ⟨h0, h3, h1, h2⟩ := h0
        omega

omit [DecidableEq D] in
/-- The handler, and what does not touch the module, keep the books. -/
theorem Books.keep {s t : State D} (h : Books s) (hk : Keeps s.mod t.mod)
    (hb : t.bound = s.bound) : Books t := by
  cases h with
  | none bound ledger task empty =>
    refine .none (hb.trans bound) ?_ (hk.task.trans task) fun a => hk.get_none (empty a)
    rw [hk.next, hk.log]
    exact ledger
  | @one d n old h =>
    obtain ⟨x, hx⟩ := h.tasklet
    obtain ⟨p, hp, hpg⟩ := h.help
    exact .one ⟨hb.trans h.bound, hk.log.trans h.log, h.ledger, hk.next.trans h.next, h.pos,
      hk.task.trans h.task, (congrFun hk.drvdata d).trans h.drvdata, hk.get_tasklet hx,
      hk.get_of_ne h.bar (by simp [Obj.kind]), ⟨p, hk.get_of_ne hp (by simp [Obj.kind]), hpg⟩,
      hk.get_of_ne h.page (by simp [Obj.kind]), fun a ha => hk.get_none (h.only a ha)⟩
  | @many n old new bound log ledger next task =>
    refine .many (hb ▸ bound) (hk.log.trans log) ledger (hk.next ▸ next) ?_
    rw [hk.task]
    exact hk.is task

theorem books_next {s : State D} {n : Ptr} {old new : List (Entry D)} (hb : s.bound ≠ [])
    (hlog : s.mod.log = old ++ new) (hl : Ledger n old new) (hn : n ≤ s.mod.heap.next) {d : D}
    {l : Locals} {m : Driver D} (hf : Frame s.mod d 11 l m) :
    Books { s with mod := m, bound := s.bound ++ [d] } := by
  refine .many ?_ ?_ (hl.append (entries_opens d hn)) ?_ ?_
  · rw [List.length_append]
    exact Nat.succ_le_succ (List.length_pos_iff.mpr hb)
  · show m.log = _
    rw [hf.log, hlog, List.append_assoc]
    rfl
  · show n ≤ m.heap.next
    rw [hf.next]
    exact Nat.le_add_right_of_le hn
  · show m.Is .tasklet m.task
    rw [hf.task]
    exact Driver.is_of_get (hf.tasklet (by decide))

/-- **One call** keeps the books, if it does not remove a card among others. -/
theorem books_step {s t : State D} {e : Ev A D} (hi : Books s) (hp : Plain e) (hc : Sole s e)
    (h : step s e = some t) : Books t := by
  cases Step.of_step h with
  | my_init => exact hi.keep (Keeps.refl _) rfl
  | probe hd hs hf =>
    cases hi with
    | none bound ledger task empty => exact .one (books_first bound ledger empty hf)
    | @one d' n old h =>
      obtain ⟨new, hlog, hl, hn⟩ := h.books
      exact books_next (by rw [h.bound]; simp) hlog hl hn hf
    | @many n old new bound log ledger next task =>
      refine books_next (fun hb => ?_) log ledger next hf
      rw [hb] at bound
      cases bound
  | @probe_error d as _ _ _ _ _ hs =>
    rw [show stopAt as probe_code = none from hp] at hs
    cases hs
  | @remove d hd =>
    have hb := hc d rfl
    cases hi with
    | none bound ledger task empty =>
      rw [bound] at hb
      cases hb
    | @one d' n old hone =>
      obtain rfl : d' = d := by simpa [hone.bound] using hb
      exact hone.removed
    | many bound log ledger next task =>
      rw [hb] at bound
      simp at bound
  | irq => exact hi.keep (keeps_runHandler _ _ _ _ _ _) rfl
  | mmap => exact hp.elim

theorem exec_task (d : D) (l : Held) (m : Driver D) : ∀ st : Remove, st ≠ .clear_task →
    (st.exec d l m).2.task = m.task
  | .clear_task, h => absurd rfl h
  | .printk, _ | .if_task, _ | .pci_get_drvdata, _ | .free_irq, _ | .pci_release_region, _
  | .pci_disable_device, _ => rfl
  | .tasklet_kill, _ => by
    simp only [Remove.exec, Driver.tasklet_kill, Driver.use]
    split_ifs <;> rfl
  | .kfree_task, _ => by
    simp only [Remove.exec, Driver.release]
    split_ifs <;> rfl
  | .del_timer_sync, _ => by
    simp only [Remove.exec, Driver.del_timer_sync, Driver.use]
    split_ifs <;> rfl
  | .kfree_p, _ => by
    simp only [Remove.exec, Driver.release]
    split_ifs <;> rfl
  | .dma_free_coherent, _ => by
    simp only [Remove.exec, Driver.release]
    split
    · split_ifs <;> rfl
    · rfl
  | .iounmap, _ => by
    simp only [Remove.exec, Driver.release]
    split
    · split_ifs <;> rfl
    · rfl

theorem runRemove_task (d : D) : ∀ (rest : List Remove) (l : Held) (m : Driver D),
    Remove.clear_task ∉ rest → (runRemove d rest l m).task = m.task
  | [], _, _, _ => rfl
  | st :: rest, l, m, h => by
    have hst : st ≠ .clear_task := fun he => h (he ▸ List.mem_cons_self)
    have hrest : Remove.clear_task ∉ rest := fun hm => h (List.mem_cons_of_mem _ hm)
    rw [runRemove, runRemove_task d rest _ _ hrest, exec_task d l m st hst]

theorem my_remove_task (d : D) (m : Driver D) : (my_remove d m).task = NULL := by
  set m₁ := (Remove.tasklet_kill.exec d ⟨decide (m.task ≠ NULL), NULL⟩ (m.note (.remove d))).2
  set m₂ := (Remove.kfree_task.exec d ⟨decide (m.task ≠ NULL), NULL⟩ m₁).2 with h₂
  have ht : m₂.task = m.task := by
    rw [h₂, exec_task _ _ _ _ (by decide), exec_task _ _ _ _ (by decide)]
    rfl
  have hr : my_remove d m = runRemove d tail_code ⟨decide (m.task ≠ NULL), NULL⟩
      (if decide (m.task ≠ NULL) then { m₂ with task := NULL } else m₂) := rfl
  rw [hr, runRemove_task _ _ _ _ (by decide)]
  by_cases hn : m.task = NULL
  · rw [if_neg (by simp [hn]), ht, hn]
  · rw [if_pos (by simp [hn])]

theorem bound_nodup {s : State D} {es : List (Ev A D)}
    (h : Machine.run step start es = some s) : s.bound.Nodup := by
  refine Machine.run_inv step (fun s => s.bound.Nodup) List.nodup_nil ?_ h
  intro s e t hi he
  cases Step.of_step he with
  | @probe d as l m hd =>
    refine List.nodup_append.mpr ⟨hi, List.nodup_singleton d, ?_⟩
    intro a ha b hb hab
    rw [List.mem_singleton] at hb
    exact hd (hb ▸ hab ▸ ha)
  | remove => exact hi.filter _
  | my_init | probe_error | irq | mmap => exact hi

/-- **Ownership among several cards** holds in every state of a run exactly
if every card is removed while it is the only one bound. -/
theorem owned_iff {es : List (Ev A D)} {s : State D} (h : Machine.run step start es = some s)
    (hp : ∀ e ∈ es, Plain e) :
    Machine.Visits step Owned start es ↔ Machine.Always step Sole start es := by
  constructor
  · rintro hv pre e hpre u hu d rfl
    obtain ⟨t, ht⟩ := Machine.run_through step hpre h
    obtain ⟨u', hu', he⟩ := (Machine.run_concat_eq_some step).mp ht
    obtain rfl := Option.some.inj (hu.symm.trans hu')
    have hown := hv _ hpre t ht
    simp only [step] at he
    split_ifs at he with hd
    obtain rfl := Option.some.inj he
    -- `task` is null now, so no card may be bound any more
    have hall : ∀ x ∈ u.bound, x = d := by
      intro x hx
      by_contra hne
      have hlive := hown.task x (List.mem_filter.mpr ⟨hx, by simpa using hne⟩)
      simp only [my_remove_task] at hlive
      unfold Driver.Is at hlive
      rw [show NULL = 0 from rfl, Heap.null] at hlive
      cases hlive
    have hnd := bound_nodup hu
    rcases hb : u.bound with _ | ⟨x, _ | ⟨y, l⟩⟩ <;> rw [hb] at hd hall hnd
    · cases hd
    · rw [hall x List.mem_cons_self]
    · have hx := hall x List.mem_cons_self
      have hy := hall y (List.mem_cons_of_mem _ List.mem_cons_self)
      rw [hx, hy] at hnd
      simp at hnd
  · intro hc
    have hc' : Machine.Always step (fun s e => Sole s e ∧ Plain e) start es := by
      intro pre e hpre u hu
      exact ⟨hc pre e hpre u hu, hp e (hpre.subset (by simp))⟩
    have hv := Machine.visits_of_always (P := Books)
      (.none rfl ⟨fun pre d k a post he => (by simp [start, Dma.loaded] at he),
        fun e he => (by cases he), fun e he => (by cases he)⟩ rfl fun _ => rfl)
      (fun _ _ _ hi hce he => books_step hi hce.2 hce.1 he) hc'
    exact fun pre hpre u hu => (hv pre hpre u hu).owned

end Runs

/-! ### Two cards -/

/-- The answers to a `my_probe` in which nothing fails. -/
def success : List Answer := List.replicate probe_code.length ⟨0, 0⟩

/-- The card probed last is removed first. -/
def overlap {D : Type} (c d : D) : List (Ev Pages.amd64 D) :=
  [.my_init 0 0, .probe c success, .probe d success, .remove d]

set_option maxRecDepth 4000 in
/-- The card still bound is left without a tasklet, its own being lost. -/
theorem owned_overlap : ∃ s, Machine.run step start (overlap (0 : Fin 2) 1) = some s ∧
    s.bound = [0] ∧ s.mod.task = NULL ∧ ¬ Owned s := by
  refine ⟨_, rfl, rfl, rfl, fun h => ?_⟩
  have := h.task 0 List.mem_cons_self
  revert this
  decide

/-- One card after the other, with an interrupt of the first one. -/
def turns {D : Type} (c d : D) : List (Ev Pages.amd64 D) :=
  [.my_init 0 0, .probe c success, .irq 0 fun _ => 0x100, .remove c, .probe d success]

/-- The first card is the only one bound when it is removed. -/
theorem owned_turns : ∃ s, Machine.run step start (turns (0 : Fin 2) 1) = some s ∧
    Machine.Visits step Owned start (turns (0 : Fin 2) 1) := by
  obtain ⟨s, hs⟩ : ∃ s, Machine.run step start (turns (0 : Fin 2) 1) = some s := ⟨_, rfl⟩
  have hplain : ∀ e ∈ turns (0 : Fin 2) 1, Plain e := by
    intro e he
    simp only [turns, List.mem_cons, List.not_mem_nil, or_false] at he
    rcases he with rfl | rfl | rfl | rfl | rfl <;> trivial
  have hremove : Machine.Always step
      (fun s e => (match e with | .remove d => decide (s.bound = [d]) | _ => true) = true)
      start (turns (0 : Fin 2) 1) := by
    decide +kernel
  have hsole : Machine.Always step Sole start (turns (0 : Fin 2) 1) := by
    rintro pre e hp u hu d rfl
    exact of_decide_eq_true (hremove pre _ hp u hu)
  exact ⟨s, hs, (owned_iff hs hplain).mpr hsole⟩

end Cards
end Pb173
