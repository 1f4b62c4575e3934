/-
# Proof outlines

A program is a list of statements. Each acts on a state that the program shares
with its environment, whose steps come in any number between two statements. A
statement goes on to the next one, is done again, or ends the program.

An outline (`Outline`) gives an assertion to each point of a program: the
environment keeps it, the statement behind it leads to the next one, and it
implies what is wanted there, `A` at every point and `B st` before a statement
`st`. Outlines of the parts of a program make one of the whole (`Outline.append`),
and in every run what is wanted holds at the point that is reached
(`Outline.sound`).
-/
import Pb173.Machine

namespace Pb173

/-- After a statement. -/
inductive Then
  | next | again | stop
deriving DecidableEq

section Outline

variable {S α σ ε : Type*} (exec : S → α → σ → Option (σ × Then)) (env : σ → ε → Option σ)

/-- What is left of the program `st :: rest` after `st`. -/
def Then.left (st : S) (rest : List S) : Then → List S
  | .next => rest
  | .again => st :: rest
  | .stop => []

/-- A statement, with what it is answered, or a step of the environment. -/
def outlineStep : List S × σ → α ⊕ ε → Option (List S × σ)
  | ([], _), .inl _ => none
  | (st :: rest, x), .inl a => (exec st a x).map fun r => (r.2.left st rest, r.1)
  | (p, x), .inr e => (env x e).map fun y => (p, y)

theorem outlineStep_env (p : List S) (x : σ) (e : ε) :
    outlineStep exec env (p, x) (.inr e) = (env x e).map fun y => (p, y) := by
  cases p <;> rfl

/-- The environment keeps `P`. -/
def Stable (P : σ → Prop) : Prop := ∀ x e y, P x → env x e = some y → P y

/-- Where a statement leads from `P`: to `Q`, to itself, or to the end `F`. -/
def Leads (st : S) (P Q F : σ → Prop) : Prop :=
  ∀ x a y k, P x → exec st a x = some (y, k) →
    match k with
    | .next => Q y
    | .again => P y
    | .stop => F y

variable (A : σ → Prop) (B : S → σ → Prop) (F : σ → Prop)

/-- An outline of a program from `P` to `Q`; a statement that ends it leads
to `F`. -/
inductive Outline : (σ → Prop) → List S → (σ → Prop) → Prop
  | nil {P : σ → Prop} (hs : Stable env P) (ha : ∀ x, P x → A x) : Outline P [] P
  | cons {P Q R : σ → Prop} {st : S} {rest : List S} (hs : Stable env P) (ha : ∀ x, P x → A x)
    (hb : ∀ x, P x → B st x) (hl : Leads exec st P Q F) (h : Outline Q rest R) :
    Outline P (st :: rest) R

variable {exec env A B F}

theorem Outline.append {P Q R : σ → Prop} {p q : List S} (h : Outline exec env A B F P p Q)
    (h' : Outline exec env A B F Q q R) : Outline exec env A B F P (p ++ q) R := by
  induction h with
  | nil => exact h'
  | cons hs ha hb hl _ ih => exact .cons hs ha hb hl (ih h')

theorem Outline.same {P : σ → Prop} (hs : Stable env P) (ha : ∀ x, P x → A x) :
    ∀ {p : List S}, (∀ st ∈ p, ∀ x, P x → B st x) → (∀ st ∈ p, Leads exec st P P F) →
      Outline exec env A B F P p P
  | [], _, _ => .nil hs ha
  | st :: _, hb, hl =>
    .cons hs ha (hb st List.mem_cons_self) (hl st List.mem_cons_self)
      (Outline.same hs ha (fun u hu => hb u (List.mem_cons_of_mem _ hu))
        fun u hu => hl u (List.mem_cons_of_mem _ hu))

theorem Outline.one {P Q : σ → Prop} {st : S} (hs : Stable env P) (hs' : Stable env Q)
    (ha : ∀ x, P x → A x) (ha' : ∀ x, Q x → A x) (hb : ∀ x, P x → B st x)
    (hl : Leads exec st P Q F) : Outline exec env A B F P [st] Q :=
  .cons hs ha hb hl (.nil hs' ha')

/-- What is known of a program in the middle of a run: it is on its way to `Q`, or has
ended in `F`. -/
def OnTheWay (exec : S → α → σ → Option (σ × Then)) (env : σ → ε → Option σ) (A : σ → Prop)
    (B : S → σ → Prop) (F Q : σ → Prop) (s : List S × σ) : Prop :=
  (∃ P, P s.2 ∧ Outline exec env A B F P s.1 Q) ∨ (s.1 = [] ∧ F s.2)

theorem OnTheWay.step {Q : σ → Prop} (hF : Stable env F) {s t : List S × σ} {e : α ⊕ ε}
    (h : OnTheWay exec env A B F Q s) (he : outlineStep exec env s e = some t) :
    OnTheWay exec env A B F Q t := by
  obtain ⟨p, x⟩ := s
  rcases e with a | e
  · rcases p with _ | ⟨st, rest⟩
    · cases he
    · obtain ⟨⟨y, k⟩, hy, rfl⟩ := Option.map_eq_some_iff.mp he
      rcases h with ⟨P, hP, ho⟩ | ⟨hnil, -⟩
      · cases ho with
        | cons hs ha hb hl ho =>
          have hlead := hl x a y k hP hy
          cases k with
          | next => exact .inl ⟨_, hlead, ho⟩
          | again => exact .inl ⟨P, hlead, .cons hs ha hb hl ho⟩
          | stop => exact .inr ⟨rfl, hlead⟩
      · cases hnil
  · rw [outlineStep_env] at he
    obtain ⟨y, hy, rfl⟩ := Option.map_eq_some_iff.mp he
    rcases h with ⟨P, hP, ho⟩ | ⟨hnil, hf⟩
    · have hs : Stable env P := by cases ho <;> assumption
      exact .inl ⟨P, hs x e y hP hy, ho⟩
    · exact .inr ⟨hnil, hF x e y hf hy⟩

/-- **Outlines are sound.** In every run `A` holds, and `B` of the statement that
is next, and a program that is through has come to `Q` or ended in `F`. -/
theorem Outline.sound {P Q : σ → Prop} {p : List S} (h : Outline exec env A B F P p Q)
    (hF : Stable env F) (hFA : ∀ x, F x → A x) {x : σ} (hP : P x) {es : List (α ⊕ ε)}
    {s : List S × σ} (hr : Machine.run (outlineStep exec env) (p, x) es = some s) :
    A s.2 ∧ (∀ st rest, s.1 = st :: rest → B st s.2) ∧ (s.1 = [] → Q s.2 ∨ F s.2) := by
  have hway := Machine.run_inv _ (OnTheWay exec env A B F Q) (.inl ⟨P, hP, h⟩)
    (fun _ _ _ hi he => hi.step hF he) hr
  obtain ⟨q, y⟩ := s
  rcases hway with ⟨P', hP', ho⟩ | ⟨hnil, hf⟩
  · cases ho with
    | nil _ ha => exact ⟨ha y hP', nofun, fun _ => .inl hP'⟩
    | cons hs ha hb _ _ =>
      refine ⟨ha y hP', fun st rest he => ?_, nofun⟩
      obtain ⟨rfl, -⟩ := List.cons.inj he
      exact hb y hP'
  · refine ⟨hFA y hf, fun st rest he => ?_, fun _ => .inr hf⟩
    rw [show q = [] from hnil] at he
    cases he

theorem outline_suffix {p : List S} {x : σ} {es : List (α ⊕ ε)} {s : List S × σ}
    (h : Machine.run (outlineStep exec env) (p, x) es = some s) : s.1 <:+ p := by
  refine Machine.run_inv _ (fun s : List S × σ => s.1 <:+ p) List.suffix_rfl
    (fun s e t hi he => ?_) h
  obtain ⟨q, y⟩ := s
  rcases e with a | e
  · rcases q with _ | ⟨st, rest⟩
    · cases he
    · obtain ⟨⟨z, k⟩, -, rfl⟩ := Option.map_eq_some_iff.mp he
      cases k with
      | next => exact (List.suffix_cons st rest).trans hi
      | again => exact hi
      | stop => exact List.nil_suffix
  · rw [outlineStep_env] at he
    obtain ⟨z, -, rfl⟩ := Option.map_eq_some_iff.mp he
    exact hi

end Outline

end Pb173
