import Mathlib.Algebra.Order.BigOperators.Group.Finset
import Mathlib.Data.Int.CardIntervalMod
import Mathlib.Dynamics.PeriodicPts.Lemmas
import Mathlib.Tactic.Ring

/-!
# Linear congruential generators modulo a power of two

The generator `x ↦ a * x + c`, modulo `2 ^ k`, with `a` one more than a multiple
of four and `c` odd, goes through all the residues before it returns to one
(`minimalPeriod_lcg`): `2 ^ j` of its steps add an odd multiple of `2 ^ j`
(`iterate_affine`). So a run of `2 ^ k` draws takes every residue once
(`card_iterate`), and the remainders of the residues by `d` are spread evenly
(`card_mod_bounds`).
-/

namespace Lcg

open Function

variable {a c k : ℕ}

/-- A step of the generator. -/
def lcg (a c k x : ℕ) : ℕ := (a * x + c) % 2 ^ k

/-- `2 ^ j` steps, before the reduction: an affine map whose multiplier is `1`
    modulo `2 ^ (j + 2)` and whose increment is an odd multiple of `2 ^ j`. -/
theorem iterate_affine (ha : a % 4 = 1) (hc : c % 2 = 1) (j : ℕ) :
    ∃ s t, ∀ x, (fun y => a * y + c)^[2 ^ j] x =
      (1 + 2 ^ (j + 2) * t) * x + 2 ^ j * (2 * s + 1) := by
  induction j with
  | zero =>
    refine ⟨c / 2, a / 4, fun x => ?_⟩
    have h₁ : a = 1 + 4 * (a / 4) := by omega
    have h₂ : c = 2 * (c / 2) + 1 := by omega
    simp only [pow_zero, iterate_one, zero_add, one_mul]
    norm_num
    rw [← h₁, ← h₂]
  | succ j ih =>
    obtain ⟨s, t, h⟩ := ih
    -- Two runs of `2 ^ j` steps: the multiplier is squared, the increment almost doubled.
    refine ⟨s + 2 ^ j * t * (2 * s + 1), t + 2 ^ (j + 1) * t ^ 2, fun x => ?_⟩
    rw [pow_succ, mul_two, iterate_add_apply, h, h]
    ring

/-- The reduction can be made at the end. -/
theorem iterate_lcg_modEq (n x : ℕ) :
    (lcg a c k)^[n] x ≡ (fun y => a * y + c)^[n] x [MOD 2 ^ k] := by
  induction n with
  | zero => rfl
  | succ n ih =>
    rw [iterate_succ_apply', iterate_succ_apply']
    exact (Nat.mod_modEq _ _).trans ((ih.mul_left a).add_right c)

theorem iterate_lcg_lt {x : ℕ} (hx : x < 2 ^ k) (n : ℕ) : (lcg a c k)^[n] x < 2 ^ k := by
  cases n with
  | zero => exact hx
  | succ n =>
    rw [iterate_succ_apply']
    exact Nat.mod_lt _ (by positivity)

theorem iterate_lcg_eq_iff {x y n : ℕ} (hx : x < 2 ^ k) (hy : y < 2 ^ k) :
    (lcg a c k)^[n] x = y ↔ (fun z => a * z + c)^[n] x ≡ y [MOD 2 ^ k] := by
  have h := iterate_lcg_modEq (a := a) (c := c) (k := k) n x
  constructor
  · rintro rfl
    exact h.symm
  · intro hm
    exact (h.trans hm).eq_of_lt_of_lt (iterate_lcg_lt hx n) hy

/-- `2 ^ j` steps come back to where they started only if `j` is at least `k`. -/
theorem isPeriodicPt_lcg_iff (ha : a % 4 = 1) (hc : c % 2 = 1) {j x : ℕ} (hx : x < 2 ^ k) :
    IsPeriodicPt (lcg a c k) (2 ^ j) x ↔ k ≤ j := by
  obtain ⟨s, t, h⟩ := iterate_affine ha hc j
  have hodd : Nat.Coprime (2 ^ k) (2 * (2 * t * x + s) + 1) :=
    Nat.Coprime.pow_left k (by simp)
  calc IsPeriodicPt (lcg a c k) (2 ^ j) x
      ↔ x ≡ x + 2 ^ j * (2 * (2 * t * x + s) + 1) [MOD 2 ^ k] := by
        rw [IsPeriodicPt, IsFixedPt, iterate_lcg_eq_iff hx hx, h, Nat.ModEq.comm]
        ring_nf
    _ ↔ 2 ^ k ∣ 2 ^ j * (2 * (2 * t * x + s) + 1) := by
        rw [Nat.modEq_iff_dvd' (Nat.le_add_right _ _), Nat.add_sub_cancel_left]
    _ ↔ k ≤ j := by
        rw [hodd.dvd_mul_right, Nat.pow_dvd_pow_iff_le_right (by norm_num)]

/-- The generator has full period. -/
theorem minimalPeriod_lcg (ha : a % 4 = 1) (hc : c % 2 = 1) {x : ℕ} (hx : x < 2 ^ k) :
    minimalPeriod (lcg a c k) x = 2 ^ k := by
  cases k with
  | zero =>
    rw [pow_zero, minimalPeriod_eq_one_iff_isFixedPt]
    obtain rfl : x = 0 := by simpa using hx
    simp [IsFixedPt, lcg, Nat.mod_one]
  | succ k =>
    refine minimalPeriod_eq_prime_pow (p := 2) ?_ ((isPeriodicPt_lcg_iff ha hc hx).2 le_rfl)
    rw [isPeriodicPt_lcg_iff ha hc hx]
    omega

/-- A run of `2 ^ k` draws takes every residue once. -/
theorem card_iterate (ha : a % 4 = 1) (hc : c % 2 = 1) {x : ℕ} (hx : x < 2 ^ k)
    (P : ℕ → Prop) [DecidablePred P] :
    ((Finset.range (2 ^ k)).filter fun i => P ((lcg a c k)^[i + 1] x)).card =
      ((Finset.range (2 ^ k)).filter P).card := by
  have hy : lcg a c k x < 2 ^ k := iterate_lcg_lt hx 1
  have hinj : Set.InjOn (fun i => (lcg a c k)^[i + 1] x) (Finset.range (2 ^ k)) := by
    intro i hi j hj h
    have := iterate_injOn_Iio_minimalPeriod (f := lcg a c k) (x := lcg a c k x)
    rw [minimalPeriod_lcg ha hc hy] at this
    exact this (by simpa using hi) (by simpa using hj) h
  have himage : (Finset.range (2 ^ k)).image (fun i => (lcg a c k)^[i + 1] x) =
      Finset.range (2 ^ k) := by
    refine Finset.eq_of_subset_of_card_le (fun y hy => ?_) ?_
    · obtain ⟨i, -, rfl⟩ := Finset.mem_image.1 hy
      exact Finset.mem_range.2 (iterate_lcg_lt hx _)
    · rw [Finset.card_image_of_injOn hinj]
  conv_rhs => rw [← himage, Finset.filter_image]
  rw [Finset.card_image_of_injOn (hinj.mono (Finset.coe_subset.2 (Finset.filter_subset _ _)))]

/-! ## Remainders -/

variable {d n r : ℕ}

/-- The numbers below `n` of remainder `r` by `d`. -/
theorem card_mod (hr : r < d) : ((Finset.range n).filter fun x => x % d = r).card =
    n / d + if r < n % d then 1 else 0 := by
  have h := Nat.count_modEq_card n (by omega : 0 < d) r
  rw [Nat.count_eq_card_filter_range] at h
  simpa [Nat.ModEq, Nat.mod_eq_of_lt hr] using h

/-- As many of the numbers below `n` have a remainder in `P` as there are such
    remainders, up to one turn. -/
theorem card_mod_bounds (hd : 0 < d) (P : ℕ → Prop) [DecidablePred P] :
    ((Finset.range d).filter P).card * (n / d) ≤
        ((Finset.range n).filter fun x => P (x % d)).card ∧
      ((Finset.range n).filter fun x => P (x % d)).card ≤
        ((Finset.range d).filter P).card * ((n + d - 1) / d) := by
  have hcard : ((Finset.range n).filter fun x => P (x % d)).card =
      ∑ r ∈ (Finset.range d).filter P, ((Finset.range n).filter fun x => x % d = r).card := by
    rw [Finset.card_eq_sum_card_fiberwise (f := (· % d)) (t := (Finset.range d).filter P)]
    · refine Finset.sum_congr rfl fun r hr => ?_
      rw [Finset.filter_filter]
      refine congrArg Finset.card (Finset.filter_congr fun x _ => ?_)
      constructor
      · exact And.right
      · rintro rfl
        exact ⟨(Finset.mem_filter.1 hr).2, rfl⟩
    · intro x hx
      simp only [Finset.coe_filter, Finset.mem_range, Set.mem_ofPred_eq] at hx ⊢
      exact ⟨Nat.mod_lt x hd, hx.2⟩
  rw [hcard]
  constructor
  · rw [← smul_eq_mul]
    refine Finset.card_nsmul_le_sum _ _ _ fun r hr => ?_
    rw [card_mod (by simpa using (Finset.mem_filter.1 hr).1)]
    omega
  · rw [← smul_eq_mul]
    refine Finset.sum_le_card_nsmul _ _ _ fun r hr => ?_
    rw [card_mod (by simpa using (Finset.mem_filter.1 hr).1)]
    split_ifs with h
    · have hn : n + d - 1 = n % d - 1 + d * (n / d + 1) := by
        have := Nat.mod_add_div n d
        rw [Nat.mul_add]
        omega
      rw [hn, Nat.add_mul_div_left _ _ hd]
      exact Nat.le_add_left _ _
    · exact Nat.div_le_div_right (by omega)

end Lcg
