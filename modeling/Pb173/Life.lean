/-
# The life of a module

A module is loaded by running its init, statement by statement, and unloaded
by running its exit. A statement of init may leave with an error, and then
exit never runs. Between any two statements its users may call in, wherever
it lets them. `Step` lists what can happen; what holds of the module in each
phase of its life is an invariant of the runs if each statement and each
call keeps it (`Keeps.step`).
-/
import Pb173.Machine
import Mathlib.Data.Int.Init

namespace Pb173
namespace Life

/-- Where a module is in its life. -/
inductive Phase (ι ξ : Type*)
  | fresh
  | initing (rest : List ι)
  | live
  | failed (err : ℤ)
  | exiting (rest : List ξ)
  | gone
deriving DecidableEq

/-- Exit is running, or has run. -/
def Phase.ending {ι ξ : Type*} : Phase ι ξ → Bool
  | .exiting _ | .gone => true
  | _ => false

/-- `c` of the statement of init that is next. -/
def Phase.atInit {ι ξ : Type*} (c : ι → Prop) : Phase ι ξ → Prop
  | .initing (st :: _) => c st
  | _ => True

/-- `c` of the statement of exit that is next. -/
def Phase.atExit {ι ξ : Type*} (c : ξ → Prop) : Phase ι ξ → Prop
  | .exiting (x :: _) => c x
  | _ => True

/-- A module with the statements `ι` of its init and `ξ` of its exit, and the
calls `κ` of its users; `α` is what the kernel answers to a statement. -/
structure Module (σ ι ξ κ α : Type*) where
  init : List ι
  exit : List ξ
  /-- A statement of init, and the error it leaves with. -/
  exec : ι → α → σ → Option ℤ × σ
  undo : ξ → σ → σ
  /-- A call, if it can be made. -/
  call : Phase ι ξ → κ → σ → Option σ
  /-- A user holds on to the module, and exit does not start. -/
  pinned : σ → Bool

structure State (σ ι ξ : Type*) where
  mod : σ
  phase : Phase ι ξ

inductive Ev (κ α : Type*)
  | load
  | init (a : α)
  | unload
  | exit
  | call (k : κ)

section Step

variable {σ ι ξ κ α : Type*} (M : Module σ ι ξ κ α)

/-- Where a statement of init leads. -/
def after (rest : List ι) : Option ℤ → Phase ι ξ
  | none => .initing rest
  | some err => .failed err

def step (s : State σ ι ξ) : Ev κ α → Option (State σ ι ξ)
  | .load =>
    match s.phase with
    | .fresh => some { s with phase := .initing M.init }
    | _ => none
  | .init a =>
    match s.phase with
    | .initing [] => some { s with phase := .live }
    | .initing (st :: rest) => some ⟨(M.exec st a s.mod).2, after rest (M.exec st a s.mod).1⟩
    | _ => none
  | .unload =>
    match s.phase with
    | .live => if M.pinned s.mod then none else some { s with phase := .exiting M.exit }
    | _ => none
  | .exit =>
    match s.phase with
    | .exiting [] => some { s with phase := .gone }
    | .exiting (x :: rest) => some ⟨M.undo x s.mod, .exiting rest⟩
    | _ => none
  | .call k => (M.call s.phase k s.mod).map fun m => { s with mod := m }

/-- What can happen. -/
inductive Step : State σ ι ξ → Ev κ α → State σ ι ξ → Prop
  | load (m : σ) : Step ⟨m, .fresh⟩ .load ⟨m, .initing M.init⟩
  | init (m : σ) (a : α) (st : ι) (rest : List ι) :
    Step ⟨m, .initing (st :: rest)⟩ (.init a) ⟨(M.exec st a m).2, after rest (M.exec st a m).1⟩
  | loaded (m : σ) (a : α) : Step ⟨m, .initing []⟩ (.init a) ⟨m, .live⟩
  | unload (m : σ) (h : M.pinned m = false) : Step ⟨m, .live⟩ .unload ⟨m, .exiting M.exit⟩
  | exit (m : σ) (x : ξ) (rest : List ξ) :
    Step ⟨m, .exiting (x :: rest)⟩ .exit ⟨M.undo x m, .exiting rest⟩
  | unloaded (m : σ) : Step ⟨m, .exiting []⟩ .exit ⟨m, .gone⟩
  | call (m m' : σ) (p : Phase ι ξ) (k : κ) (h : M.call p k m = some m') :
    Step ⟨m, p⟩ (.call k) ⟨m', p⟩

variable {M}

theorem Step.of_step {s t : State σ ι ξ} {e : Ev κ α} (h : step M s e = some t) : Step M s e t := by
  obtain ⟨m, p⟩ := s
  cases e with
  | load =>
    cases p <;> simp only [step, reduceCtorEq] at h
    obtain rfl := Option.some.inj h
    exact .load m
  | init a =>
    rcases p with _ | ⟨_ | ⟨st, rest⟩⟩ | _ | _ | _ | _ <;> simp only [step, reduceCtorEq] at h
    · obtain rfl := Option.some.inj h
      exact .loaded m a
    · obtain rfl := Option.some.inj h
      exact .init m a st rest
  | unload =>
    cases p <;> simp only [step, reduceCtorEq] at h
    split_ifs at h with hp
    obtain rfl := Option.some.inj h
    exact .unload m (by simpa using hp)
  | exit =>
    rcases p with _ | _ | _ | _ | ⟨_ | ⟨x, rest⟩⟩ | _ <;> simp only [step, reduceCtorEq] at h
    · obtain rfl := Option.some.inj h
      exact .unloaded m
    · obtain rfl := Option.some.inj h
      exact .exit m x rest
  | call k =>
    obtain ⟨m', hm, rfl⟩ := Option.map_eq_some_iff.mp h
    exact .call m m' p k hm

theorem atInit_of_none {s : State σ ι ξ} {a : α} (h : step M s (.init a) = none) (c : ι → Prop) :
    s.phase.atInit c := by
  obtain ⟨m, p⟩ := s
  rcases p with _ | ⟨_ | ⟨st, rest⟩⟩ | _ | _ | _ | _
  case initing.cons => cases h
  all_goals trivial

theorem atExit_of_none {s : State σ ι ξ} (h : step M s .exit = none) (c : ξ → Prop) :
    s.phase.atExit c := by
  obtain ⟨m, p⟩ := s
  rcases p with _ | _ | _ | _ | ⟨_ | ⟨x, rest⟩⟩ | _
  case exiting.cons => cases h
  all_goals trivial

/-- What is left of init or of exit is its end. -/
def Coded (M : Module σ ι ξ κ α) : Phase ι ξ → Prop
  | .initing rest => rest <:+ M.init
  | .exiting rest => rest <:+ M.exit
  | _ => True

/-- `I` is kept by every statement and every call. -/
structure Keeps (M : Module σ ι ξ κ α) (I : Phase ι ξ → σ → Prop) : Prop where
  load : ∀ m, I .fresh m → I (.initing M.init) m
  init : ∀ st rest a m, st :: rest <:+ M.init → I (.initing (st :: rest)) m →
    I (after rest (M.exec st a m).1) (M.exec st a m).2
  loaded : ∀ m, I (.initing []) m → I .live m
  unload : ∀ m, M.pinned m = false → I .live m → I (.exiting M.exit) m
  exit : ∀ x rest m, x :: rest <:+ M.exit → I (.exiting (x :: rest)) m → I (.exiting rest) (M.undo x m)
  unloaded : ∀ m, I (.exiting []) m → I .gone m
  call : ∀ p k m m', M.call p k m = some m' → I p m → I p m'

/-- **A step** keeps what every statement and every call keeps. -/
theorem Keeps.step {I : Phase ι ξ → σ → Prop} (hk : Keeps M I) {s t : State σ ι ξ} {e : Ev κ α}
    (hi : Coded M s.phase ∧ I s.phase s.mod) (h : Life.step M s e = some t) :
    Coded M t.phase ∧ I t.phase t.mod := by
  obtain ⟨hc, hi⟩ := hi
  cases Step.of_step h with
  | load m => exact ⟨List.suffix_refl _, hk.load m hi⟩
  | init m a st rest =>
    have hi' := hk.init st rest a m hc hi
    refine ⟨?_, hi'⟩
    show Coded M (after rest (M.exec st a m).1)
    rcases (M.exec st a m).1 with _ | err
    · exact (List.suffix_cons st rest).trans hc
    · trivial
  | loaded m a => exact ⟨trivial, hk.loaded m hi⟩
  | unload m hp => exact ⟨List.suffix_refl _, hk.unload m hp hi⟩
  | exit m x rest => exact ⟨(List.suffix_cons x rest).trans hc, hk.exit x rest m hc hi⟩
  | unloaded m => exact ⟨trivial, hk.unloaded m hi⟩
  | call m m' p k hcall => exact ⟨hc, hk.call p k m m' hcall hi⟩

end Step

end Life
end Pb173
