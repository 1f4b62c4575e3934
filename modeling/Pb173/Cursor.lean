/-
# Loops over a cursor

`while ((q = get(q))) body` walks through a list without holding it: the
cursor is the last element seen, and `get` finds the one after it, perhaps
doing something to the state on the way. The body may leave the loop. If no
element occurs twice, the loop ends and does what a recursion over the list
does (`loop_eq_walk`), and what a body that never leaves folds, the loop
folds over the list (`walk_view`). What each move and each round keeps holds
whenever the body is entered (`loop_inv`).
-/
import Mathlib.Data.List.Nodup

namespace Pb173
namespace Cursor

section Next

variable {P : Type*} [DecidableEq P]

/-- The element after the cursor, or the first one. -/
def next (l : List P) : Option P → Option P
  | none => l.head?
  | some q => (l.dropWhile fun x => decide (x ≠ q)).tail.head?

/-- The cursor is on the last element of `pre`. -/
theorem next_append {pre rest : List P} (hnd : (pre ++ rest).Nodup) :
    next (pre ++ rest) pre.getLast? = rest.head? := by
  rcases List.eq_nil_or_concat pre with rfl | ⟨pre, q, rfl⟩
  · rfl
  · rw [List.concat_eq_append] at hnd ⊢
    have hq : ∀ x ∈ pre, decide (x ≠ q) = true := by
      intro x hx
      rw [List.append_assoc] at hnd
      apply decide_eq_true
      rintro rfl
      exact List.disjoint_of_nodup_append hnd hx (by simp)
    rw [List.getLast?_concat]
    show ((pre ++ [q] ++ rest).dropWhile _).tail.head? = _
    rw [List.append_assoc, List.dropWhile_append_of_pos hq]
    simp

end Next

section Loop

variable {P σ ρ : Type*}

/-- The loop, for at most `k` moves: the state it leaves and what it returned,
if its body did; `none` if the moves ran out. -/
def loop (get : Option P → σ → Option P × σ) (body : P → σ → σ × Option ρ) :
    ℕ → Option P → σ → Option (σ × Option ρ)
  | 0, _, _ => none
  | k + 1, q, s =>
    match get q s with
    | (none, s) => some (s, none)
    | (some q, s) =>
      match body q s with
      | (s, some r) => some (s, some r)
      | (s, none) => loop get body k (some q) s

/-- The same walk, along the list: `touch q q'` is what moving the cursor from
`q` to `q'` does to the state. -/
def walk (touch : Option P → Option P → σ → σ) (body : P → σ → σ × Option ρ) :
    Option P → List P → σ → σ × Option ρ
  | q, [], s => (touch q none s, none)
  | q, x :: rest, s =>
    match body x (touch q (some x) s) with
    | (s, some r) => (s, some r)
    | (s, none) => walk touch body (some x) rest s

/-- `I` holds whenever the body is entered. -/
def Along (get : Option P → σ → Option P × σ) (body : P → σ → σ × Option ρ) (I : P → σ → Prop) :
    ℕ → Option P → σ → Prop
  | 0, _, _ => True
  | k + 1, q, s =>
    match get q s with
    | (none, _) => True
    | (some q, s) => I q s ∧
      match body q s with
      | (_, some _) => True
      | (s, none) => Along get body I k (some q) s

variable {g : Option P → σ → Option P × σ} {b : P → σ → σ × Option ρ}

/-- **Induction over a loop.** `J` holds of the cursor and the state, after
each move and after each round. -/
theorem loop_inv {J : Option P → σ → Prop} (hget : ∀ q s, J q s → J (g q s).1 (g q s).2)
    (hbody : ∀ x s, J (some x) s → J (some x) (b x s).1) :
    ∀ (k : ℕ) (q : Option P) (s : σ), J q s → Along g b (fun x => J (some x)) k q s ∧
      ∀ t, loop g b k q s = some (t, none) → J none t
  | 0, _, _, _ => ⟨trivial, fun t h => by cases h⟩
  | k + 1, q, s, hs => by
    have hg := hget q s hs
    rcases hq : g q s with ⟨_ | x, u⟩ <;> rw [hq] at hg <;> simp only [Along, loop, hq]
    · refine ⟨trivial, fun t h => ?_⟩
      obtain ⟨rfl, -⟩ := Prod.mk.inj (Option.some.inj h)
      exact hg
    · have hb := hbody x u hg
      rcases hx : b x u with ⟨v, _ | r⟩ <;> rw [hx] at hb
      · obtain ⟨h1, h2⟩ := loop_inv hget hbody k (some x) v hb
        exact ⟨⟨hg, h1⟩, h2⟩
      · exact ⟨⟨hg, trivial⟩, fun t h => by cases h⟩

/-- The same, of a loop that its body leaves. -/
theorem loop_inv_left {J : Option P → σ → Prop} (hget : ∀ q s, J q s → J (g q s).1 (g q s).2)
    (hbody : ∀ x s, J (some x) s → J (some x) (b x s).1) :
    ∀ (k : ℕ) (q : Option P) (s : σ), J q s →
      ∀ t r, loop g b k q s = some (t, some r) → ∃ x, J (some x) t
  | 0, _, _, _, _, _, h => by cases h
  | k + 1, q, s, hs, t, r, h => by
    have hg := hget q s hs
    rcases hq : g q s with ⟨_ | x, u⟩ <;> rw [hq] at hg <;> simp only [loop, hq] at h
    · cases h
    · have hb := hbody x u hg
      rcases hx : b x u with ⟨v, _ | r'⟩ <;> rw [hx] at hb <;> simp only [hx] at h
      · exact loop_inv_left hget hbody k (some x) v hb t r h
      · obtain ⟨rfl, -⟩ := Prod.mk.inj (Option.some.inj h)
        exact ⟨x, hb⟩

theorem Along.mono {I I' : P → σ → Prop} (hI : ∀ x s, I x s → I' x s) :
    ∀ {k : ℕ} {q : Option P} {s : σ}, Along g b I k q s → Along g b I' k q s
  | 0, _, _, _ => trivial
  | k + 1, q, s, h => by
    unfold Along at h ⊢
    rcases hq : g q s with ⟨_ | x, u⟩ <;> rw [hq] at h
    · trivial
    · refine ⟨hI x u h.1, ?_⟩
      have h2 := h.2
      rcases hx : b x u with ⟨v, _ | r⟩ <;> rw [hx] at h2
      · exact Along.mono hI h2
      · trivial

variable [DecidableEq P] {l : List P} (get : Option P → σ → Option P × σ)
  (touch : Option P → Option P → σ → σ) (body : P → σ → σ × Option ρ)

theorem loop_eq_walk_of (hnd : l.Nodup)
    (hget : ∀ q s, get q s = (next l q, touch q (next l q) s)) :
    ∀ (rest pre : List P) (k : ℕ) (s : σ), pre ++ rest = l → rest.length < k →
      loop get body k pre.getLast? s = some (walk touch body pre.getLast? rest s)
  | rest, pre, 0, s, _, hk => by omega
  | [], pre, k + 1, s, hl, _ => by
    have hn : next l pre.getLast? = none := by
      subst hl
      exact next_append hnd
    simp only [loop, walk, hget, hn]
  | x :: rest, pre, k + 1, s, hl, hk => by
    have hn : next l pre.getLast? = some x := by
      subst hl
      exact next_append hnd
    simp only [loop, walk, hget, hn]
    have ih := loop_eq_walk_of hnd hget rest (pre ++ [x]) k
    rw [List.getLast?_concat] at ih
    rcases body x (touch pre.getLast? (some x) s) with ⟨t, _ | r⟩
    · exact ih t (by simpa using hl) (by simpa using hk)
    · rfl

/-- **The loop ends**, and does what the walk along the list does. -/
theorem loop_eq_walk (hnd : l.Nodup)
    (hget : ∀ q s, get q s = (next l q, touch q (next l q) s)) (s : σ) :
    loop get body (l.length + 1) none s = some (walk touch body none l s) :=
  loop_eq_walk_of get touch body hnd hget l [] _ s rfl (Nat.lt_succ_self _)

omit [DecidableEq P] in
/-- What the moves leave alone and the body only folds. -/
theorem walk_view {τ : Type*} (view : σ → τ) (f : τ → P → τ)
    (ht : ∀ q q' s, view (touch q q' s) = view s)
    (hb : ∀ x s, (body x s).2 = none ∧ view (body x s).1 = f (view s) x) :
    ∀ (l : List P) (q : Option P) (s : σ),
      (walk touch body q l s).2 = none ∧
        view (walk touch body q l s).1 = l.foldl f (view s)
  | [], q, s => ⟨rfl, ht q none s⟩
  | x :: rest, q, s => by
    obtain ⟨h1, h2⟩ := hb x (touch q (some x) s)
    rw [ht] at h2
    rcases hr : body x (touch q (some x) s) with ⟨t, r⟩
    rw [hr] at h1 h2
    simp only at h1 h2
    subst h1
    simp only [walk, hr, List.foldl_cons, ← h2]
    exact walk_view view f ht hb rest (some x) t

end Loop

end Cursor
end Pb173
