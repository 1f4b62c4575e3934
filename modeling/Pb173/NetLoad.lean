/-
# The load and the unload of 12

`my_init` publishes the misc device first, then allocates the network device
and registers it with the network core; `my_write` uses `ndev` without
looking at it. A call of `my_write` is a list of statements that goes on
beside those of `my_init`; `my_exit` starts when no call is in progress, and
no call is made while it runs, as an open file holds on to the module.
`my_write` finds a registered device, and a failed `my_init` leaves nothing
behind, if and only if no call is made before `register_netdev` has returned
0, that does not fail, and `alloc_etherdev` fails only where `misc_register`
has failed (`loaded_iff`).
-/
import Pb173.Heap
import Pb173.Kernel
import Pb173.Life

namespace Pb173
namespace NetLoad

/-- The statements of `my_write`. -/
inductive Write
  | netdev_alloc_skb
  | set_len
  | copy_from_user
  | eth_type_trans
  | netif_rx
deriving DecidableEq

def my_write : List Write :=
  [.netdev_alloc_skb, .set_len, .copy_from_user, .eth_type_trans, .netif_rx]

/-- What the module has made: the heap is that of the `net_device`s, each with
whether it is registered; `writes` are the calls of `my_write` in progress. -/
structure Driver where
  misc : Bool
  ndev : Ptr
  heap : Heap Bool
  writes : List (List Write)

inductive Init
  | init_kfifo
  | misc_register
  | alloc_etherdev
  | set_name
  | set_netdev_ops
  | random_ether_addr
  | netdev_priv
  | setup_timer
  | register_netdev
deriving DecidableEq

def my_init : List Init :=
  [.init_kfifo, .misc_register, .alloc_etherdev, .set_name, .set_netdev_ops, .random_ether_addr,
    .netdev_priv, .setup_timer, .register_netdev]

/-- A statement of `my_init`, `err` being what the kernel answers. Those
between `alloc_etherdev` and `register_netdev` write to the device. -/
def Init.exec (err : ℤ) (m : Driver) : Init → Option ℤ × Driver
  | .misc_register => (none, if err = 0 then { m with misc := true } else m)
  | .alloc_etherdev =>
    if err ≠ 0 then (some (- EIO), { m with ndev := NULL })
    else (none, { m with ndev := m.heap.next, heap := m.heap.alloc false })
  | .register_netdev =>
    if err ≠ 0 then (some (- EIO), m) else (none, { m with heap := m.heap.set m.ndev true })
  | _ => (none, m)

inductive Exit
  | misc_deregister
  | unregister_netdev
  | free_netdev
deriving DecidableEq

def my_exit : List Exit := [.misc_deregister, .unregister_netdev, .free_netdev]

def Exit.exec (m : Driver) : Exit → Driver
  | .misc_deregister => { m with misc := false }
  | .unregister_netdev => { m with heap := m.heap.set m.ndev false }
  | .free_netdev => { m with heap := m.heap.free m.ndev }

/-- A user calls `my_write`, or the `i`-th call executes a statement; with `ok`
it goes on, otherwise it returns, or is killed by its use of NULL. -/
inductive Call
  | write
  | advance (i : ℕ) (ok : Bool)

def Call.exec (p : Life.Phase Init Exit) (m : Driver) : Call → Option Driver
  | .write =>
    if m.misc ∧ p.ending = false then some { m with writes := m.writes ++ [my_write] } else none
  | .advance i ok =>
    match m.writes[i]? with
    | none => none
    | some (_ :: rest) => some { m with
        writes := if ok then m.writes.set i rest else m.writes.eraseIdx i }
    | some [] => some { m with writes := m.writes.eraseIdx i }

def pb173 : Life.Module Driver Init Exit Call ℤ where
  init := my_init
  exit := my_exit
  exec st err m := st.exec err m
  undo x m := x.exec m
  call p k m := k.exec p m
  pinned m := !m.writes.isEmpty

abbrev State := Life.State Driver Init Exit
abbrev Ev := Life.Ev Call ℤ

def start : State := ⟨⟨false, NULL, Heap.empty, []⟩, .fresh⟩

abbrev step : State → Ev → Option State := Life.step pb173

/-! ### The load and what it leaves -/

/-- `ndev` is a device registered with the network core. -/
def Driver.Up (m : Driver) : Prop := m.heap.get m.ndev = some true

/-- `my_write` runs only with a registered device, and a failed `my_init`
leaves neither the misc device nor a network device. -/
structure Loaded (s : State) : Prop where
  write : s.mod.writes ≠ [] → s.mod.Up
  failed : ∀ err, s.phase = .failed err → s.mod.misc = false ∧ ∀ a, s.mod.heap.get a = none

/-- `register_netdev` has returned 0, and `my_exit` has not started. -/
def up : Life.Phase Init Exit → Prop
  | .initing rest => .register_netdev ∉ rest
  | .live => True
  | _ => False

def Init.Spares (err : ℤ) (m : Driver) : Init → Prop
  | .alloc_etherdev => err = 0 ∨ m.misc = false
  | .register_netdev => err = 0
  | _ => True

/-- `my_write` is called after `register_netdev` has returned 0, which does not
fail, and `alloc_etherdev` fails only where `misc_register` has failed. -/
def Spares (s : State) : Ev → Prop
  | .init err => s.phase.atInit fun st => st.Spares err s.mod
  | .call .write => (Call.write.exec s.phase s.mod).isSome = true → up s.phase
  | _ => True

/-! ### The invariant -/

/-- `alloc_etherdev` has not been executed. -/
def early : Life.Phase Init Exit → Prop
  | .fresh => True
  | .initing rest => .alloc_etherdev ∈ rest
  | _ => False

structure Inv (p : Life.Phase Init Exit) (m : Driver) : Prop where
  up : p.ending = false → (up p ↔ m.Up)
  quiet : p.ending = true → m.writes = []
  early : early p → ∀ a, m.heap.get a = none
  allocated : ∀ rest, p = .initing rest → .alloc_etherdev ∉ rest → ∃ b, m.heap.get m.ndev = some b

theorem init_order : ∀ l ∈ my_init.tails, ∀ st ∈ l.head?,
    (st ≠ .alloc_etherdev → (.alloc_etherdev ∈ l.tail ↔ .alloc_etherdev ∈ l)) ∧
    (st ≠ .register_netdev → (.register_netdev ∈ l.tail ↔ .register_netdev ∈ l)) ∧
    (st = .alloc_etherdev → .alloc_etherdev ∉ l.tail ∧ .register_netdev ∈ l.tail) ∧
    (st = .register_netdev → .register_netdev ∉ l.tail ∧ .alloc_etherdev ∉ l) := by decide

/-- The registration of the misc device is not looked at. -/
theorem exec_misc_register (err : ℤ) (m : Driver) : ∃ misc,
    Init.exec err m .misc_register = (none, { m with misc := misc }) := by
  by_cases he : err = 0
  · exact ⟨true, by rw [Init.exec, if_pos he]⟩
  · exact ⟨m.misc, by rw [Init.exec, if_neg he]⟩

section Invariant

variable {m : Driver} {p q : Life.Phase Init Exit}

theorem Init.keeps {st : Init} {rest : List Init} {err : ℤ} (hc : st :: rest <:+ my_init)
    (h : Inv (.initing (st :: rest)) m) :
    Inv (Life.after rest (st.exec err m).1) (st.exec err m).2 := by
  obtain ⟨h1, h2, h3, h4⟩ := init_order _ ((List.mem_tails _ _).mpr hc) st rfl
  -- a statement that leaves the heap and `ndev` as they are
  have hskip : ∀ m' : Driver, st ≠ .alloc_etherdev → st ≠ .register_netdev → m'.heap = m.heap →
      m'.ndev = m.ndev → Inv (.initing rest) m' := by
    rintro ⟨misc, ndev, heap, writes⟩ ha hr rfl rfl
    refine ⟨fun _ => ?_, nofun, fun hr => h.early ((h1 ha).mp hr), fun rest' hp hno => ?_⟩
    · exact (not_congr (h2 hr)).trans (h.up rfl)
    · cases hp
      exact h.allocated _ rfl fun hm => hno ((h1 ha).mpr hm)
  cases st with
  | alloc_etherdev =>
    by_cases he : err ≠ 0
    · simp only [Init.exec, if_pos he]
      refine ⟨fun _ => iff_of_false id fun hu => ?_, nofun, False.elim,
        nofun⟩
      cases m.heap.null.symm.trans hu
    · simp only [Init.exec, if_neg he]
      obtain ⟨ha, hr⟩ := h3 rfl
      refine ⟨fun _ => iff_of_false (fun hno => hno hr) fun hu => ?_, nofun,
        fun hm => absurd hm ha, fun _ _ _ => ⟨false, Heap.get_alloc_self _⟩⟩
      cases (Heap.get_alloc_self m.heap).symm.trans hu
  | register_netdev =>
    obtain ⟨hr, ha⟩ := h4 rfl
    obtain ⟨b, hb⟩ := h.allocated _ rfl ha
    by_cases he : err ≠ 0
    · simp only [Init.exec, if_pos he]
      refine ⟨fun _ => iff_of_false id fun hu => ?_, nofun, False.elim,
        nofun⟩
      exact (h.up rfl).mpr hu List.mem_cons_self
    · simp only [Init.exec, if_neg he]
      have hset : (m.heap.set m.ndev true).get m.ndev = some true := Heap.get_set_self hb
      exact ⟨fun _ => iff_of_true hr hset, nofun,
        fun hm => absurd (List.mem_cons_of_mem _ hm) ha, fun _ _ _ => ⟨true, hset⟩⟩
  | misc_register =>
    obtain ⟨misc, he⟩ := exec_misc_register err m
    rw [he]
    exact hskip _ (by simp) (by simp) rfl rfl
  | _ => exact hskip _ (by simp) (by simp) rfl rfl

theorem write_spec {m' : Driver} (h : Call.exec p m .write = some m') :
    p.ending = false ∧ m' = { m with writes := m.writes ++ [my_write] } := by
  simp only [Call.exec] at h
  split_ifs at h with hw
  exact ⟨hw.2, (Option.some.inj h).symm⟩

theorem advance_spec {m' : Driver} {i : ℕ} {ok : Bool} (h : Call.exec p m (.advance i ok) = some m') :
    m.writes ≠ [] ∧ ∃ writes, m' = { m with writes := writes } := by
  simp only [Call.exec] at h
  rcases hx : m.writes[i]? with _ | _ | ⟨st, rest⟩ <;> rw [hx] at h
  · cases h
  all_goals
    refine ⟨fun hw => ?_, _, (Option.some.inj h).symm⟩
    rw [hw] at hx
    cases hx

theorem keeps : Life.Keeps pb173 Inv where
  load m h := ⟨fun _ => (iff_of_false (fun hno => hno (by decide)) id).trans (h.up rfl), nofun,
    fun _ => h.early trivial, fun _ hp hno => by
      cases hp
      exact absurd (by decide) hno⟩
  init st rest err m hc h := Init.keeps hc h
  loaded m h := ⟨fun _ => (iff_of_true trivial List.not_mem_nil).trans (h.up rfl),
    nofun, False.elim, nofun⟩
  unload m hp h := ⟨nofun, fun _ => by simpa [pb173] using hp, False.elim,
    nofun⟩
  exit x rest m hc h := ⟨nofun, fun _ => by
      rw [← h.quiet rfl]
      cases x <;> rfl, False.elim, nofun⟩
  unloaded m h := ⟨nofun, fun _ => h.quiet rfl, False.elim, nofun⟩
  call p k m m' hcall h := by
    cases k with
    | write =>
      obtain ⟨hend, rfl⟩ := write_spec hcall
      exact ⟨h.up, fun he => (by rw [hend] at he; cases he), h.early, h.allocated⟩
    | advance i ok =>
      obtain ⟨hne, writes, rfl⟩ := advance_spec (p := p) hcall
      exact ⟨h.up, fun he => absurd (h.quiet he) hne, h.early, h.allocated⟩

/-! ### Each step -/

theorem Init.clean_iff {st : Init} {rest : List Init} {err : ℤ} (hc : st :: rest <:+ my_init)
    (hi : Inv (.initing (st :: rest)) m) (hs : Loaded ⟨m, .initing (st :: rest)⟩) :
    Loaded ⟨(st.exec err m).2, Life.after rest (st.exec err m).1⟩ ↔ st.Spares err m := by
  obtain ⟨-, -, h3, h4⟩ := init_order _ ((List.mem_tails _ _).mpr hc) st rfl
  -- nothing is called before the device is registered
  have hidle : .register_netdev ∈ st :: rest → m.writes = [] := by
    intro hr
    by_contra hne
    exact (hi.up rfl).mpr (hs.write hne) hr
  cases st with
  | alloc_etherdev =>
    have hw := hidle (List.mem_cons_of_mem _ (h3 rfl).2)
    by_cases he : err ≠ 0
    · simp only [Init.exec, if_pos he]
      constructor
      · intro h
        exact .inr (h.failed (- EIO) rfl).1
      · rintro (h0 | hm)
        · exact absurd h0 he
        · exact ⟨fun hne => absurd hw hne, fun _ _ => ⟨hm, hi.early List.mem_cons_self⟩⟩
    · simp only [Init.exec, if_neg he]
      exact iff_of_true ⟨fun hne => absurd hw hne, nofun⟩ (.inl (not_not.mp he))
  | register_netdev =>
    have hw := hidle List.mem_cons_self
    by_cases he : err ≠ 0
    · simp only [Init.exec, if_pos he]
      refine iff_of_false (fun h => ?_) he
      obtain ⟨b, hb⟩ := hi.allocated _ rfl (h4 rfl).2
      cases ((h.failed (- EIO) rfl).2 m.ndev).symm.trans hb
    · simp only [Init.exec, if_neg he]
      exact iff_of_true ⟨fun hne => absurd hw hne, nofun⟩ (not_not.mp he)
  | misc_register =>
    obtain ⟨misc, he⟩ := exec_misc_register err m
    rw [he]
    exact iff_of_true ⟨hs.write, nofun⟩ trivial
  | _ => exact iff_of_true ⟨hs.write, nofun⟩ trivial

theorem step_iff {s t : State} {e : Ev} (hi : Life.Coded pb173 s.phase ∧ Inv s.phase s.mod)
    (hs : Loaded s) (he : step s e = some t) : Loaded t ↔ Spares s e := by
  obtain ⟨hc, hi⟩ := hi
  cases Life.Step.of_step he with
  | load m => exact iff_of_true ⟨hs.write, nofun⟩ trivial
  | init m err st rest => exact Init.clean_iff hc hi hs
  | loaded m err => exact iff_of_true ⟨hs.write, nofun⟩ trivial
  | unload m _ => exact iff_of_true ⟨hs.write, nofun⟩ trivial
  | exit m x rest =>
    refine iff_of_true ⟨fun hne => absurd ?_ hne, nofun⟩ trivial
    show (x.exec m).writes = []
    rw [← hi.quiet rfl]
    cases x <;> rfl
  | unloaded m => exact iff_of_true ⟨hs.write, nofun⟩ trivial
  | call m m' p k hcall =>
    cases k with
    | write =>
      obtain ⟨hend, rfl⟩ := write_spec hcall
      have hsome : (Call.write.exec p m).isSome = true := Option.isSome_iff_exists.mpr ⟨_, hcall⟩
      constructor
      · intro h _
        exact (hi.up hend).mpr (h.write (by simp))
      · intro h
        have hup := h hsome
        refine ⟨fun _ => (hi.up hend).mp hup, fun err hp => ?_⟩
        obtain rfl : p = .failed err := hp
        exact hup.elim
    | advance i ok =>
      obtain ⟨hne, writes, rfl⟩ := advance_spec (p := p) hcall
      exact iff_of_true ⟨fun _ => hs.write hne, hs.failed⟩ trivial

end Invariant

/-- **The load and the unload**: on every run `my_write` finds a registered
device and a failed load leaves nothing, if and only if every step spares
that. -/
theorem loaded_iff (es : List Ev) :
    Machine.Visits step Loaded start es ↔ Machine.Always step Spares start es := by
  refine Machine.visits_iff_always (I := fun s : State => Life.Coded pb173 s.phase ∧ Inv s.phase s.mod)
    (fun s e t hi he => keeps.step hi he) (fun s e t hi hs he => step_iff hi hs he)
    (fun s e hi he => ?_) es start
    ⟨trivial, fun _ => iff_of_false id (by unfold Driver.Up; decide), nofun, fun _ _ => rfl,
      nofun⟩
    ⟨fun hne => absurd rfl hne, nofun⟩
  rcases e with _ | err | _ | _ | ⟨⟨⟩ | ⟨i, ok⟩⟩
  case init => exact Life.atInit_of_none he _
  case call.write =>
    intro h
    simp only [Life.step, Option.map_eq_none_iff] at he
    rw [show Call.write.exec s.phase s.mod = none from he] at h
    cases h
  all_goals trivial

/-- A user writes as soon as the misc device is registered. -/
def writeEarly : List Ev := .load :: List.replicate 2 (.init 0) ++ [.call .write]

theorem write_early : ¬ Machine.Visits step Loaded start writeEarly := by
  intro h
  obtain ⟨s, hs⟩ : ∃ s, Machine.run step start writeEarly = some s := ⟨_, rfl⟩
  have hw := (h _ (List.prefix_refl _) s hs).write
  obtain rfl := Option.some.inj hs
  exact absurd (hw (by decide)) (by unfold Driver.Up; decide)

end NetLoad
end Pb173
