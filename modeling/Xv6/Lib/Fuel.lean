import Mathlib.Order.Basic

/-!
# Computations with a bound

A function that loops or recurses is given a bound `k` on its rounds, and has no result when it
takes more. It is *stable* if a larger bound does not change a result, and it *halts* with `P` if
there is a bound with which it has a result that satisfies `P`.

A result may also be an error, which ends what would come next (`andThen`).
-/

namespace Xv6

variable {α β ε : Type*} {f : ℕ → Option α} {P Q : α → Prop} {k j : ℕ} {x : α}

/-- A result stays with a larger bound. -/
def Stable (f : ℕ → Option α) : Prop := ∀ ⦃k j x⦄, k ≤ j → f k = some x → f j = some x

/-- There is a result with some bound, and it is `P`. -/
def Halts (f : ℕ → Option α) (P : α → Prop) : Prop := ∃ k x, f k = some x ∧ P x

theorem stable_of_succ (h : ∀ k x, f k = some x → f (k + 1) = some x) : Stable f := by
  intro k j x hkj hk
  induction hkj with
  | refl => exact hk
  | step _ ih => exact h _ x ih

theorem Stable.eq {y : α} (hf : Stable f) (hx : f k = some x) (hy : f j = some y) : x = y :=
  Option.some.inj ((hf (Nat.le_max_left k j) hx).symm.trans (hf (Nat.le_max_right k j) hy))

theorem Halts.imp (h : Halts f P) (hPQ : ∀ x, P x → Q x) : Halts f Q := by
  obtain ⟨k, x, hk, hx⟩ := h
  exact ⟨k, x, hk, hPQ x hx⟩

/-- The result has the property with every bound. -/
theorem Halts.of_eq_some (h : Halts f P) (hf : Stable f) (hk : f k = some x) : P x := by
  obtain ⟨j, y, hj, hy⟩ := h
  rw [hf.eq hk hj]
  exact hy

/-- Every bound is large enough from some point on. -/
theorem Halts.eventually (h : Halts f P) (hf : Stable f) :
    ∃ k₀ x, P x ∧ ∀ k, k₀ ≤ k → f k = some x := by
  obtain ⟨k₀, x, hk₀, hx⟩ := h
  exact ⟨k₀, x, hx, fun k hk => hf hk hk₀⟩

/-- A function that spends one round before. -/
theorem Halts.succ {g : ℕ → Option α} (h : Halts f P) (hg : ∀ k, g (k + 1) = f k) : Halts g P := by
  obtain ⟨k, x, hk, hx⟩ := h
  exact ⟨k + 1, x, (hg k).trans hk, hx⟩

theorem halts_of_eq (k : ℕ) (hk : f k = some x) (hx : P x) : Halts f P := ⟨k, x, hk, hx⟩

/-! ## Errors -/

/-- `f` on the result of `m`, if it is not an error. -/
def andThen (m : Option (Except ε α)) (f : α → Option (Except ε β)) : Option (Except ε β) :=
  match m with
  | none => none
  | some (.error e) => some (.error e)
  | some (.ok a) => f a

@[simp] theorem andThen_ok {a : α} {f : α → Option (Except ε β)} :
    andThen (some (.ok a)) f = f a := rfl

/-- More results before and after give more results. -/
theorem andThen_imp {m m' : Option (Except ε α)} {f f' : α → Option (Except ε β)}
    {x : Except ε β} (hm : ∀ y, m = some y → m' = some y)
    (hf : ∀ a y, f a = some y → f' a = some y) (h : andThen m f = some x) :
    andThen m' f' = some x := by
  match m, h with
  | some (.error e), h => rw [hm _ rfl]; exact h
  | some (.ok a), h => rw [hm _ rfl]; exact hf a x h

theorem Stable.andThen {f : ℕ → Option (Except ε α)} {g : ℕ → α → Option (Except ε β)}
    (hf : Stable f) (hg : ∀ a, Stable (g · a)) : Stable fun k => andThen (f k) (g k) := by
  intro k j x hkj
  exact andThen_imp (fun _ => hf hkj) fun a _ => hg a hkj

theorem Halts.andThen {f : ℕ → Option (Except ε α)} {g : ℕ → α → Option (Except ε β)}
    {P : Except ε α → Prop} {Q : Except ε β → Prop} (h : Halts f P) (hf : Stable f)
    (hg : ∀ a, Stable (g · a)) (hok : ∀ a, P (.ok a) → Halts (g · a) Q)
    (herror : ∀ e, P (.error e) → Q (.error e)) : Halts (fun k => andThen (f k) (g k)) Q := by
  obtain ⟨k, x, hk, hx⟩ := h
  cases x with
  | error e => exact ⟨k, .error e, by dsimp only; rw [hk]; rfl, herror e hx⟩
  | ok a =>
    obtain ⟨j, y, hj, hy⟩ := hok a hx
    refine ⟨max k j, y, ?_, hy⟩
    dsimp only
    rw [hf (Nat.le_max_left k j) hk]
    exact hg a (Nat.le_max_right k j) hj

end Xv6
