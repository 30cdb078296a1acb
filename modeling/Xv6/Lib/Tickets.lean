import Mathlib.Algebra.BigOperators.Group.List.Basic
import Mathlib.Algebra.GroupWithZero.Nat
import Mathlib.Order.Interval.Finset.Nat

/-!
# Tickets

A list of participants hold consecutive tickets, from `0` on: each as many as
its weight, in the order of the list. `holder w l r` is the participant that
holds the ticket `r`, found by a running sum of the weights.

* `holder_eq_some_iff`: a participant holds the tickets from the sum of the
  weights `before` it, as many as its weight;
* `exists_holder`: every ticket below the total is held;
* `card_holder`: a participant holds as many tickets as its weight.
-/

namespace Tickets

variable {ι : Type*} [DecidableEq ι]

/-- The sum of the weights before the participant `p` of a list. -/
def before (w : ι → ℕ) (p : ι) : List ι → ℕ
  | [] => 0
  | q :: l => if q = p then 0 else w q + before w p l

/-- The running sum of the weights at the participant `p`. -/
def upTo (w : ι → ℕ) (l : List ι) (p : ι) : ℕ := before w p l + w p

/-- The participant that holds the ticket `r`: the first at which the running sum
    passes it. -/
def holder (w : ι → ℕ) (l : List ι) (r : ℕ) : Option ι := l.find? fun p => r < upTo w l p

variable {w : ι → ℕ} {l : List ι} {p q : ι} {r : ℕ}

@[simp] theorem upTo_cons_self : upTo w (p :: l) p = w p := by simp [upTo, before]

theorem upTo_cons_of_ne (h : q ≠ p) : upTo w (q :: l) p = w q + upTo w l p := by
  simp [upTo, before, h, Nat.add_assoc]

omit [DecidableEq ι] in
theorem notMem_of_nodup {l₁ l₂ : List ι} (hl : (l₁ ++ p :: l₂).Nodup) : p ∉ l₁ := fun h =>
  (List.nodup_append.1 hl).2.2 p h p (by simp) rfl

theorem before_append (hp : p ∉ l) (l' : List ι) :
    before w p (l ++ p :: l') = (l.map w).sum := by
  induction l with
  | nil => simp [before]
  | cons q l ih =>
    simp only [List.mem_cons, not_or] at hp
    simp [before, Ne.symm hp.1, ih hp.2]

theorem upTo_le_sum (hp : p ∈ l) : upTo w l p ≤ (l.map w).sum := by
  induction l with
  | nil => cases hp
  | cons q l ih =>
    simp only [List.map_cons, List.sum_cons]
    by_cases h : q = p
    · subst h; simp
    · rw [upTo_cons_of_ne h]
      have := ih ((List.mem_cons.1 hp).resolve_left (Ne.symm h))
      omega

/-- The running sums of those before `p` are at most the sum before `p`. -/
theorem upTo_le_before {l₁ l₂ : List ι} (hl : (l₁ ++ p :: l₂).Nodup) (hq : q ∈ l₁) :
    upTo w (l₁ ++ p :: l₂) q ≤ before w p (l₁ ++ p :: l₂) := by
  have hp : p ∉ l₁ := notMem_of_nodup hl
  rw [before_append hp]
  refine le_trans (le_of_eq ?_) (upTo_le_sum hq)
  clear hp
  induction l₁ with
  | nil => cases hq
  | cons s l ih =>
    rw [List.cons_append]
    by_cases h : s = q
    · subst h; simp
    · rw [upTo_cons_of_ne h, upTo_cons_of_ne h,
        ih (List.nodup_cons.1 hl).2 ((List.mem_cons.1 hq).resolve_left (Ne.symm h))]

/-- A participant holds the tickets between its running sums. -/
theorem holder_eq_some_iff (hl : l.Nodup) :
    holder w l r = some p ↔ p ∈ l ∧ before w p l ≤ r ∧ r < upTo w l p := by
  simp only [holder, List.find?_eq_some_iff_append, decide_eq_true_eq, Bool.not_eq_eq_eq_not,
    Bool.not_true, decide_eq_false_iff_not, not_lt]
  constructor
  · rintro ⟨hr, l₁, l₂, rfl, hlt⟩
    refine ⟨by simp, ?_, hr⟩
    have hp : p ∉ l₁ := notMem_of_nodup hl
    rw [before_append hp]
    -- The sum before `p` is the running sum of the last one before it.
    rcases List.eq_nil_or_concat' l₁ with rfl | ⟨l, q, rfl⟩
    · simp
    · have h := hlt q (by simp)
      rw [List.append_assoc, List.singleton_append] at h hl
      have hq : q ∉ l := notMem_of_nodup hl
      rw [upTo, before_append hq] at h
      simpa using h
  · rintro ⟨hp, hle, hr⟩
    obtain ⟨l₁, l₂, rfl⟩ := List.append_of_mem hp
    exact ⟨hr, l₁, l₂, rfl, fun q hq => (upTo_le_before hl hq).trans hle⟩

/-- Every ticket below the total is held. -/
theorem exists_holder (hl : l.Nodup) (hr : r < (l.map w).sum) : ∃ p, holder w l r = some p := by
  rw [← Option.isSome_iff_exists, holder, List.find?_isSome]
  rcases List.eq_nil_or_concat' l with rfl | ⟨l, q, rfl⟩
  · simp at hr
  · have hq : q ∉ l := notMem_of_nodup hl
    refine ⟨q, by simp, ?_⟩
    rw [upTo, before_append hq]
    simpa using hr

/-- A participant holds as many of the tickets as its weight. -/
theorem card_holder (hl : l.Nodup) (hp : p ∈ l) :
    ((Finset.range (l.map w).sum).filter fun r => holder w l r = some p).card = w p := by
  have h : ((Finset.range (l.map w).sum).filter fun r => holder w l r = some p) =
      Finset.Ico (before w p l) (upTo w l p) := by
    ext r
    have := upTo_le_sum (w := w) hp
    simp only [Finset.mem_filter, Finset.mem_range, Finset.mem_Ico, holder_eq_some_iff hl, hp,
      true_and]
    omega
  rw [h, Nat.card_Ico, upTo, Nat.add_sub_cancel_left]

end Tickets
