import Mathlib.Logic.Basic

/-!
# Programs that change a state and can fail

`wp x Q E s`: run from the state `s`, the program `x` returns and `Q` holds of its result and the
state it leaves, or it fails and `E` holds of its failure. With `E` false this is total
correctness, with `E` true partial correctness.

* `wp_bind`, `wp_pure`, ...: the programs built with `do`, one construct at a time;
* `wp_forM`: a loop over a list, by an invariant on the rest of the list.
-/

namespace Xv6

/-- A program on states `σ` that can fail with an `ε`. -/
abbrev Prog (σ ε : Type) := StateT σ (Except ε)

namespace Prog

variable {σ ε α β : Type} {x : Prog σ ε α} {f : α → Prog σ ε β} {P Q : α → σ → Prop}
  {E E' : ε → Prop} {s s' : σ} {a : α}

/-- Changes the state. -/
def update (g : σ → σ) : Prog σ ε Unit := fun s => .ok ((), g s)

/-- Run from `s`, the program ends with `Q`, or fails with `E`. -/
def wp (x : Prog σ ε α) (Q : α → σ → Prop) (E : ε → Prop) (s : σ) : Prop :=
  match x s with
  | .ok (a, s') => Q a s'
  | .error e => E e

theorem wp_of_ok (h : x s = .ok (a, s')) (hQ : Q a s') : wp x Q E s := by rwa [wp, h]

/-- What a run that returns leaves. -/
theorem of_wp (h : wp x Q E s) (hx : x s = .ok (a, s')) : Q a s' := by rwa [wp, hx] at h

/-- A program that cannot fail returns. -/
theorem exists_ok (h : wp x Q (fun _ => False) s) : ∃ a s', x s = .ok (a, s') ∧ Q a s' := by
  rw [wp] at h
  match hx : x s with
  | .ok (a, s') => rw [hx] at h; exact ⟨a, s', rfl, h⟩
  | .error e => rw [hx] at h; exact h.elim

theorem wp_mono (h : wp x P E s) (hQ : ∀ a s', P a s' → Q a s') (hE : ∀ e, E e → E' e) :
    wp x Q E' s := by
  rw [wp] at h ⊢
  match hx : x s with
  | .ok (a, s') => rw [hx] at h; exact hQ a s' h
  | .error e => rw [hx] at h; exact hE e h

theorem wp_imp (h : wp x P E s) (hQ : ∀ a s', P a s' → Q a s') : wp x Q E s :=
  wp_mono h hQ fun _ => id

/-! ## One construct at a time -/

@[simp] theorem wp_pure : wp (pure a : Prog σ ε α) Q E s ↔ Q a s := Iff.rfl

@[simp] theorem wp_get {Q : σ → σ → Prop} : wp (get : Prog σ ε σ) Q E s ↔ Q s s := Iff.rfl

@[simp] theorem wp_update {g : σ → σ} {Q : Unit → σ → Prop} :
    wp (update g : Prog σ ε Unit) Q E s ↔ Q () (g s) := Iff.rfl

@[simp] theorem wp_bind {Q : β → σ → Prop} :
    wp (x >>= f) Q E s ↔ wp x (fun a s' => wp (f a) Q E s') E s := by
  have h : (x >>= f) s = (x s).bind fun p => f p.1 p.2 := rfl
  rw [wp, wp, h]
  cases x s <;> rfl

theorem wp_ite {c : Prop} [Decidable c] {y : Prog σ ε α} (hx : c → wp x Q E s)
    (hy : ¬c → wp y Q E s) : wp (if c then x else y) Q E s := by
  by_cases h : c
  · rw [if_pos h]; exact hx h
  · rw [if_neg h]; exact hy h

/-- A loop over a list, by an invariant on the part of the list that is left. -/
theorem wp_forM {f : α → Prog σ ε PUnit} {I : List α → σ → Prop}
    (h : ∀ a l s, I (a :: l) s → wp (f a) (fun _ s' => I l s') E s) :
    ∀ (l : List α) (s : σ), I l s → wp (l.forM f) (fun _ s' => I [] s') E s
  | [], _, hI => hI
  | a :: l, s, hI => wp_bind.mpr (wp_imp (h a l s hI) fun _ s' hs' => wp_forM h l s' hs')

end Prog

end Xv6
