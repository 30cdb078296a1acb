import Mathlib.Logic.Basic

/-!
# Transition systems

A transition system steps from state to state by *actions*: its step function
gives the next state, or nothing when the action is not possible. A run is a
sequence of steps; `Path ok` restricts it to the steps that meet a condition
`ok` on the state before the step and its action, so that `Reachable ok` are
the states reached by the runs whose steps all meet it.

* `Reachable.invariant`: what holds initially and is kept by every step holds
  of every reachable state;
* `exec`: a run as a computation, `path_of_exec` the path it takes;
* `withGhost`: the system observed by a *ghost* that never acts on it, to talk
  about the past of a run.
-/

/-- A transition system, deterministic once the action is chosen. -/
structure TransitionSystem (σ α : Type*) where
  /-- The initial states. -/
  init : σ → Prop
  /-- The step of an action, if it is possible. -/
  step : σ → α → Option σ

namespace TransitionSystem

variable {σ α γ : Type*} (S : TransitionSystem σ α)

/-- The condition every step meets. -/
def Any : σ → α → Prop := fun _ _ => True

instance (s : σ) (a : α) : Decidable (Any s a) := .isTrue trivial

/-- A run from `s` to `s'` whose steps all meet `ok`. -/
inductive Path (ok : σ → α → Prop) (s : σ) : σ → Prop
  | refl : Path ok s s
  | step {t u : σ} {a : α} : Path ok s t → ok t a → S.step t a = some u → Path ok s u

/-- The states reached by the runs whose steps all meet `ok`. -/
inductive Reachable (ok : σ → α → Prop) : σ → Prop
  | init {s : σ} : S.init s → Reachable ok s
  | step {s s' : σ} {a : α} : Reachable ok s → ok s a → S.step s a = some s' → Reachable ok s'

/-- The run of a list of actions, as long as they meet `ok`. -/
def exec (ok : σ → α → Prop) [∀ s a, Decidable (ok s a)] : σ → List α → Option σ
  | s, [] => some s
  | s, a :: as => if ok s a then (S.step s a).bind fun s' => exec ok s' as else none

variable {S} {ok : σ → α → Prop}

/-- What holds initially and is kept by every step holds of every reachable state. -/
theorem Reachable.invariant {I : σ → Prop} (hinit : ∀ s, S.init s → I s)
    (hstep : ∀ s a s', I s → ok s a → S.step s a = some s' → I s') {s : σ}
    (hs : S.Reachable ok s) : I s := by
  induction hs with
  | init h => exact hinit _ h
  | step _ ha hst ih => exact hstep _ _ _ ih ha hst

/-- What holds at the start of a run and is kept by its steps holds along it. -/
theorem Path.invariant {I : σ → Prop}
    (hstep : ∀ s a s', I s → ok s a → S.step s a = some s' → I s') {s t : σ}
    (hp : S.Path ok s t) (hs : I s) : I t := by
  induction hp with
  | refl => exact hs
  | step _ ha hst ih => exact hstep _ _ _ ih ha hst

/-- A weaker condition admits more runs. -/
theorem Reachable.mono {ok' : σ → α → Prop} (h : ∀ s a, ok s a → ok' s a) {s : σ}
    (hs : S.Reachable ok s) : S.Reachable ok' s := by
  induction hs with
  | init h => exact .init h
  | step _ ha hst ih => exact .step ih (h _ _ ha) hst

/-- The states of a run from a reachable state are reachable. -/
theorem Path.reachable {s t : σ} (hp : S.Path ok s t) (hs : S.Reachable ok s) :
    S.Reachable ok t := by
  induction hp with
  | refl => exact hs
  | step _ ha hst ih => exact .step ih ha hst

theorem Path.trans {s t u : σ} (h₁ : S.Path ok s t) (h₂ : S.Path ok t u) : S.Path ok s u := by
  induction h₂ with
  | refl => exact h₁
  | step _ ha hst ih => exact .step ih ha hst

section Exec

variable [∀ s a, Decidable (ok s a)]

/-- A computed run is a run. -/
theorem path_of_exec {s t : σ} {as : List α} (h : S.exec ok s as = some t) : S.Path ok s t := by
  induction as generalizing s with
  | nil => cases h; exact .refl
  | cons a as ih =>
    simp only [exec] at h
    by_cases hok : ok s a
    case neg => rw [if_neg hok] at h; cases h
    rw [if_pos hok] at h
    obtain ⟨u, hu, h⟩ := Option.bind_eq_some_iff.1 h
    exact (Path.step .refl hok hu).trans (ih h)

theorem exists_path {P : σ → Bool} {s : σ} {as : List α} (h : (S.exec ok s as).any P) :
    ∃ t, S.Path ok s t ∧ P t := by
  obtain ⟨h, hP⟩ := (Option.any_eq_true_iff_get P _).1 h
  exact ⟨_, path_of_exec (Option.some_get h).symm, hP⟩

/-- A computed run ends in a reachable state. -/
theorem exists_reachable {P : σ → Bool} {s : σ} {as : List α} (hs : S.init s)
    (h : (S.exec ok s as).any P) : ∃ t, S.Reachable ok t ∧ P t := by
  obtain ⟨t, ht, hP⟩ := exists_path h
  exact ⟨t, ht.reachable (.init hs), hP⟩

/-- A computed run, and a step from its end. -/
theorem exists_reachable_step {P : σ → σ → Bool} {s : σ} {as : List α} {a : α} (hs : S.init s)
    (h : (S.exec ok s as).any fun t => (S.step t a).any (P t)) :
    ∃ t t', S.Reachable ok t ∧ S.step t a = some t' ∧ P t t' := by
  obtain ⟨t, ht, h⟩ := exists_reachable hs h
  obtain ⟨h, hP⟩ := (Option.any_eq_true_iff_get (P t) _).1 h
  exact ⟨t, _, ht, (Option.some_get h).symm, hP⟩

end Exec

/-! ## Ghosts -/

/-- The system with a ghost, started by `g₀` and updated by `upd` at every
    step, from what the step did. -/
def withGhost (S : TransitionSystem σ α) (g₀ : σ → γ) (upd : σ → α → σ → γ → γ) :
    TransitionSystem (σ × γ) α where
  init x := S.init x.1 ∧ x.2 = g₀ x.1
  step x a := (S.step x.1 a).map fun s' => (s', upd x.1 a s' x.2)

variable {g₀ : σ → γ} {upd : σ → α → σ → γ → γ}

theorem withGhost_step {x y : σ × γ} {a : α} :
    (S.withGhost g₀ upd).step x a = some y ↔
      S.step x.1 a = some y.1 ∧ y.2 = upd x.1 a y.1 x.2 := by
  obtain ⟨s', g'⟩ := y
  simp only [withGhost, Option.map_eq_some_iff, Prod.mk.injEq]
  constructor
  · rintro ⟨u, hu, rfl, rfl⟩
    exact ⟨hu, rfl⟩
  · rintro ⟨hu, rfl⟩
    exact ⟨s', hu, rfl, rfl⟩

/-- The ghost does not act: forgetting it gives a run of the system. -/
theorem Reachable.forget {ok : σ × γ → α → Prop} {x : σ × γ}
    (hx : (S.withGhost g₀ upd).Reachable ok x) :
    S.Reachable Any x.1 := by
  induction hx with
  | init h => exact .init h.1
  | step _ _ hst ih => exact .step ih trivial (withGhost_step.1 hst).1

end TransitionSystem
