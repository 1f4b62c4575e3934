/-
# Machines and their runs

A machine is a partial step function on labelled events: `step s e = none`
when `e` cannot happen in `s`. All the choice is in the events, so a run is
a list of events and `run` computes where it leads. What holds of every run
is proved by `run_hist`, an induction in which the invariant may speak of
the events so far; `Always` and `Visits` say that every step, or every
state, of a run satisfies a condition, and `run_hist_of` carries an
invariant through the runs whose steps all satisfy one. Two machines whose
steps return something are compared by their traces (`trace_eq_iff`).
-/
import Mathlib.Data.List.Infix
import Mathlib.Data.List.Induction

namespace Pb173
namespace Machine

section Run

variable {σ ε : Type*} (step : σ → ε → Option σ)

/-- The state after the events, if each of them could happen. -/
def run : σ → List ε → Option σ
  | s, [] => some s
  | s, e :: es => (step s e).bind fun t => run t es

@[simp] theorem run_nil (s : σ) : run step s [] = some s := rfl

theorem run_cons (s : σ) (e : ε) (es : List ε) :
    run step s (e :: es) = (step s e).bind fun t => run step t es := rfl

theorem run_append (s : σ) : ∀ es fs : List ε,
    run step s (es ++ fs) = (run step s es).bind fun t => run step t fs := by
  intro es fs
  induction es generalizing s with
  | nil => rfl
  | cons e es ih =>
    simp only [List.cons_append, run_cons]
    cases step s e with
    | none => rfl
    | some t => exact ih t

theorem run_concat (s : σ) (es : List ε) (e : ε) :
    run step s (es ++ [e]) = (run step s es).bind fun t => step t e := by
  rw [run_append]
  congr 1
  funext t
  simp [run_cons]

theorem run_concat_eq_some {s u : σ} {es : List ε} {e : ε} :
    run step s (es ++ [e]) = some u ↔ ∃ t, run step s es = some t ∧ step t e = some u := by
  rw [run_concat, Option.bind_eq_some_iff]

/-- A run passes through a state after each of its prefixes. -/
theorem run_through {s u : σ} {pre es : List ε} (hp : pre <+: es) (h : run step s es = some u) :
    ∃ t, run step s pre = some t := by
  obtain ⟨post, rfl⟩ := hp
  rw [run_append, Option.bind_eq_some_iff] at h
  obtain ⟨t, ht, -⟩ := h
  exact ⟨t, ht⟩

/-- **Induction over runs.** What holds at the start and is kept by every
step, given the events so far, holds after every run. -/
theorem run_hist {s₀ : σ} (I : List ε → σ → Prop) (h0 : I [] s₀)
    (hs : ∀ es s e t, run step s₀ es = some s → I es s → step s e = some t → I (es ++ [e]) t) :
    ∀ es s, run step s₀ es = some s → I es s := by
  intro es
  induction es using List.reverseRecOn with
  | nil =>
    intro s h
    cases h
    exact h0
  | append_singleton es e ih =>
    intro t h
    obtain ⟨s, h1, h2⟩ := (run_concat_eq_some step).mp h
    exact hs es s e t h1 (ih s h1) h2

/-- An invariant of the states alone. -/
theorem run_inv {s₀ : σ} (I : σ → Prop) (h0 : I s₀)
    (hs : ∀ s e t, I s → step s e = some t → I t) {es : List ε} {s : σ}
    (h : run step s₀ es = some s) : I s :=
  run_hist step (fun _ => I) h0 (fun _ s e t _ => hs s e t) es s h

/-- A machine that does what another one does, seen through `f`, runs as it does. -/
theorem run_map {τ : Type*} {step' : τ → ε → Option τ} (f : σ → τ)
    (h : ∀ s e t, step s e = some t → step' (f s) e = some (f t)) :
    ∀ (es : List ε) (s t : σ), run step s es = some t → run step' (f s) es = some (f t)
  | [], _, _, hs => by
    obtain rfl := Option.some.inj hs
    rfl
  | e :: es, s, t, hs => by
    obtain ⟨u, hu, hs⟩ := Option.bind_eq_some_iff.mp hs
    rw [run_cons, h s e u hu]
    exact run_map f h es u t hs

/-! ### Conditions on the steps and on the states of a run -/

/-- Every step of the run is taken from a state that satisfies `c`. -/
def Always (c : σ → ε → Prop) (s₀ : σ) (es : List ε) : Prop :=
  ∀ pre e, pre ++ [e] <+: es → ∀ s, run step s₀ pre = some s → c s e

/-- Every state of the run satisfies `P`. -/
def Visits (P : σ → Prop) (s₀ : σ) (es : List ε) : Prop :=
  ∀ pre, pre <+: es → ∀ s, run step s₀ pre = some s → P s

variable {step}

theorem Always.mono {c : σ → ε → Prop} {s₀ : σ} {pre es : List ε}
    (h : Always step c s₀ es) (hp : pre <+: es) : Always step c s₀ pre :=
  fun p e hpe => h p e (hpe.trans hp)

theorem Always.last {c : σ → ε → Prop} {s₀ s : σ} {es : List ε} {e : ε}
    (h : Always step c s₀ (es ++ [e])) (hs : run step s₀ es = some s) : c s e :=
  h es e (List.prefix_refl _) s hs

theorem Always.concat {c : σ → ε → Prop} {s₀ : σ} {es : List ε} {e : ε}
    (h : Always step c s₀ es) (he : ∀ s, run step s₀ es = some s → c s e) :
    Always step c s₀ (es ++ [e]) := by
  intro pre f hp s hs
  rcases List.prefix_concat_iff.mp hp with heq | hp
  · obtain ⟨rfl, hf⟩ := List.append_inj' heq rfl
    cases hf
    exact he s hs
  · exact h pre f hp s hs

theorem always_nil {c : σ → ε → Prop} {s₀ : σ} : Always step c s₀ [] := by
  intro pre e hp
  exact absurd (List.prefix_nil.mp hp) (by simp)

theorem always_cons {c : σ → ε → Prop} {s₀ : σ} {e : ε} {es : List ε} :
    Always step c s₀ (e :: es) ↔ c s₀ e ∧ ∀ t, step s₀ e = some t → Always step c t es := by
  constructor
  · intro h
    refine ⟨h [] e (by simp) s₀ rfl, fun t ht pre f hp s hs => ?_⟩
    refine h (e :: pre) f (List.cons_prefix_cons.mpr ⟨rfl, hp⟩) s ?_
    rw [run_cons, ht]
    exact hs
  · rintro ⟨he, h⟩ (_ | ⟨e', pre⟩) f hp s hs
    · obtain ⟨rfl, -⟩ := List.cons_prefix_cons.mp hp
      obtain rfl := Option.some.inj hs
      exact he
    · obtain ⟨rfl, hpre⟩ := List.cons_prefix_cons.mp hp
      rw [run_cons, Option.bind_eq_some_iff] at hs
      obtain ⟨t, ht, hs⟩ := hs
      exact h t ht pre f hpre s hs

/-- The condition is checked along the run. -/
instance decidableAlways {c : σ → ε → Prop} [∀ s e, Decidable (c s e)] :
    ∀ (s : σ) (es : List ε), Decidable (Always step c s es)
  | _, [] => isTrue always_nil
  | s, e :: es =>
    match ht : step s e with
    | none => decidable_of_iff (c s e) (by rw [always_cons, ht]; simp)
    | some t =>
      have : Decidable (Always step c t es) := decidableAlways t es
      decidable_of_iff (c s e ∧ Always step c t es) (by rw [always_cons, ht]; simp)

theorem visits_cons {P : σ → Prop} {s₀ : σ} {e : ε} {es : List ε} :
    Visits step P s₀ (e :: es) ↔ P s₀ ∧ ∀ t, step s₀ e = some t → Visits step P t es := by
  constructor
  · intro h
    refine ⟨h [] (List.nil_prefix) s₀ rfl, fun t ht pre hp s hs => ?_⟩
    refine h (e :: pre) (List.cons_prefix_cons.mpr ⟨rfl, hp⟩) s ?_
    rw [run_cons, ht]
    exact hs
  · rintro ⟨h0, h⟩ (_ | ⟨e', pre⟩) hp s hs
    · obtain rfl := Option.some.inj hs
      exact h0
    · obtain ⟨rfl, hpre⟩ := List.cons_prefix_cons.mp hp
      rw [run_cons, Option.bind_eq_some_iff] at hs
      obtain ⟨t, ht, hs⟩ := hs
      exact h t ht pre hpre s hs

/-- A condition that says of each step whether `P` survives it, `I` being an
invariant, says of each run whether `P` holds all along. -/
theorem visits_iff_always {I P : σ → Prop} {c : σ → ε → Prop}
    (hI : ∀ s e t, I s → step s e = some t → I t)
    (hc : ∀ s e t, I s → P s → step s e = some t → (P t ↔ c s e))
    (hn : ∀ s e, I s → step s e = none → c s e) :
    ∀ (es : List ε) (s : σ), I s → P s → (Visits step P s es ↔ Always step c s es)
  | [], s, _, hp => by
    refine ⟨fun _ => always_nil, fun _ pre hpre u hu => ?_⟩
    obtain rfl := List.prefix_nil.mp hpre
    obtain rfl := Option.some.inj hu
    exact hp
  | e :: es, s, hi, hp => by
    rw [visits_cons, always_cons]
    rcases he : step s e with _ | t
    · exact ⟨fun _ => ⟨hn s e hi he, fun t ht => (by cases ht)⟩,
        fun _ => ⟨hp, fun t ht => (by cases ht)⟩⟩
    have ih := visits_iff_always hI hc hn es t (hI s e t hi he)
    constructor
    · rintro ⟨-, h⟩
      have ht : P t := h t rfl [] (List.nil_prefix) t rfl
      refine ⟨(hc s e t hi hp he).mp ht, fun u hu => ?_⟩
      obtain rfl := Option.some.inj hu
      exact (ih ht).mp (h t rfl)
    · rintro ⟨hce, h⟩
      refine ⟨hp, fun u hu => ?_⟩
      obtain rfl := Option.some.inj hu
      exact (ih ((hc s e t hi hp he).mpr hce)).mpr (h t rfl)

/-- Conditions that agree where an invariant holds agree on the runs. -/
theorem always_congr {I : σ → Prop} {c d : σ → ε → Prop} {s₀ : σ} (h0 : I s₀)
    (hI : ∀ s e t, I s → step s e = some t → I t) (hcd : ∀ s e, I s → (c s e ↔ d s e))
    (es : List ε) : Always step c s₀ es ↔ Always step d s₀ es := by
  have hinv : ∀ pre s, run step s₀ pre = some s → I s := fun _ _ hs => run_inv step I h0 hI hs
  constructor
  · intro h pre e hp s hs
    exact (hcd s e (hinv pre s hs)).mp (h pre e hp s hs)
  · intro h pre e hp s hs
    exact (hcd s e (hinv pre s hs)).mpr (h pre e hp s hs)

/-- **Induction over the runs whose steps all satisfy a condition.** -/
theorem run_hist_of {s₀ : σ} (c : σ → ε → Prop) (I : List ε → σ → Prop) (h0 : I [] s₀)
    (hs : ∀ es s e t, run step s₀ es = some s → I es s → c s e → step s e = some t →
      I (es ++ [e]) t)
    {es : List ε} {s : σ} (h : run step s₀ es = some s) (hc : Always step c s₀ es) : I es s := by
  refine run_hist step (fun es s => Always step c s₀ es → I es s) (fun _ => h0) ?_ es s h hc
  intro es s e t hr ih he hc
  exact hs es s e t hr (ih (hc.mono (List.prefix_append _ _))) (hc.last hr) he

/-- An invariant of the states alone, on the runs whose steps all satisfy a
condition: it holds in every state of the run. -/
theorem visits_of_always {s₀ : σ} {c : σ → ε → Prop} {P : σ → Prop} (h0 : P s₀)
    (hs : ∀ s e t, P s → c s e → step s e = some t → P t)
    {es : List ε} (hc : Always step c s₀ es) : Visits step P s₀ es := by
  intro pre hp s hr
  exact run_hist_of c (fun _ => P) h0 (fun _ s e t _ => hs s e t) hr (hc.mono hp)

end Run

/-! ### What the steps return -/

section Trace

variable {σ ε α : Type*}

/-- What a machine whose steps return something returns; `none` ends the run. -/
def trace (f : σ → ε → Option α) (next : α → σ) : σ → List ε → List (Option α)
  | _, [] => []
  | s, e :: es =>
    match f s e with
    | none => [none]
    | some o => some o :: trace f next (next o) es

variable {f g : σ → ε → Option α} {next : α → σ}

theorem trace_cons {s : σ} {e : ε} {o : α} (h : f s e = some o) (es : List ε) :
    trace f next s (e :: es) = some o :: trace f next (next o) es := by
  rw [trace, h]

theorem head?_trace (s : σ) (e : ε) (es : List ε) :
    (trace f next s (e :: es)).head? = some (f s e) := by
  unfold trace
  cases f s e <;> rfl

/-- **Two machines return the same**, where the second one never ends its run,
if and only if each event makes them return the same. -/
theorem trace_eq_iff {I : σ → Prop} {c : ε → Prop}
    (hg : ∀ s e, I s → ∃ o, g s e = some o ∧ I (next o))
    (hc : ∀ s e, I s → (f s e = g s e ↔ c e)) :
    ∀ (es : List ε) (s : σ), I s → (trace f next s es = trace g next s es ↔ ∀ e ∈ es, c e)
  | [], _, _ => by simp [trace]
  | e :: es, s, hs => by
    obtain ⟨o, ho, hi⟩ := hg s e hs
    have ih := trace_eq_iff hg hc es (next o) hi
    rw [List.forall_mem_cons, ← hc s e hs, ← ih]
    constructor
    · intro h
      have hhead : f s e = g s e := by
        have heads := congrArg List.head? h
        rw [head?_trace, head?_trace] at heads
        exact Option.some.inj heads
      have hf := hhead.trans ho
      rw [trace_cons hf, trace_cons ho] at h
      exact ⟨hhead, (List.cons.inj h).2⟩
    · rintro ⟨hhead, htail⟩
      rw [trace_cons (hhead.trans ho), trace_cons ho, htail]

end Trace

/-! ### Two machines side by side -/

section Prod

variable {σ τ ε δ : Type*}

/-- Two machines that share nothing: an event moves one of them. -/
def prodStep (f : σ → ε → Option σ) (g : τ → δ → Option τ) :
    σ × τ → ε ⊕ δ → Option (σ × τ)
  | (s, t), .inl e => (f s e).map fun s' => (s', t)
  | (s, t), .inr d => (g t d).map fun t' => (s, t')

/-- The events of the left machine. -/
def lefts : List (ε ⊕ δ) → List ε := List.filterMap Sum.getLeft?

/-- The events of the right machine. -/
def rights : List (ε ⊕ δ) → List δ := List.filterMap Sum.getRight?

theorem lefts_concat (es : List (ε ⊕ δ)) (e : ε ⊕ δ) : lefts (es ++ [e]) = lefts es ++ lefts [e] :=
  List.filterMap_append

theorem rights_concat (es : List (ε ⊕ δ)) (e : ε ⊕ δ) :
    rights (es ++ [e]) = rights es ++ rights [e] := List.filterMap_append

/-- A run of the pair is a run of each machine. -/
theorem run_prod (f : σ → ε → Option σ) (g : τ → δ → Option τ) :
    ∀ (es : List (ε ⊕ δ)) (s s' : σ) (t t' : τ),
      run (prodStep f g) (s, t) es = some (s', t') →
      run f s (lefts es) = some s' ∧ run g t (rights es) = some t'
  | [], s, s', t, t', h => by
    cases h
    exact ⟨rfl, rfl⟩
  | .inl e :: es, s, s', t, t', h => by
    simp only [run_cons, prodStep, Option.bind_eq_some_iff, Option.map_eq_some_iff] at h
    obtain ⟨-, ⟨u, hu, rfl⟩, h⟩ := h
    obtain ⟨h1, h2⟩ := run_prod f g es u s' t t' h
    refine ⟨?_, h2⟩
    show run f s (e :: lefts es) = some s'
    rw [run_cons, hu]
    exact h1
  | .inr d :: es, s, s', t, t', h => by
    simp only [run_cons, prodStep, Option.bind_eq_some_iff, Option.map_eq_some_iff] at h
    obtain ⟨-, ⟨u, hu, rfl⟩, h⟩ := h
    obtain ⟨h1, h2⟩ := run_prod f g es s s' u t' h
    refine ⟨h1, ?_⟩
    show run g t (d :: rights es) = some t'
    rw [run_cons, hu]
    exact h2

end Prod

/-! ### Code -/

/-- What comes after a statement in code. -/
def follow {S : Type*} [DecidableEq S] (code : List S) (st : S) : List S :=
  (code.dropWhile fun x => x ≠ st).tail

/-- In code without repetitions the rest is told by the statement before it. -/
theorem eq_follow {S : Type*} [DecidableEq S] {code rest : List S} {st : S} (hnd : code.Nodup)
    (h : st :: rest <:+ code) : rest = follow code st := by
  obtain ⟨pre, rfl⟩ := h
  have hpre : ∀ x ∈ pre, decide (x ≠ st) = true := by
    intro x hx
    apply decide_eq_true
    exact (List.nodup_append.mp hnd).2.2 x hx st List.mem_cons_self
  rw [follow, List.dropWhile_append_of_pos hpre, List.dropWhile_cons_of_neg (by simp),
    List.tail_cons]

end Machine
end Pb173
