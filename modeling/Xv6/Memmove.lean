import Mathlib.Data.UInt
import Mathlib.Logic.Function.Basic
import Mathlib.Tactic.Ring

/-!
# Moving memory

The kernel (`string.c`) and the user library (`ulib.c`) have a `memmove` each. Both copy byte by
byte, upwards or downwards, but they choose the direction by different tests: the kernel goes down
only if the destination begins inside of the source, and the library whenever the source is not
above the destination.

Addresses are 32-bit words, so that the loops are stated for all of them: a copy upwards is right
unless the destination begins inside of the source (`copyUp_apply`), and one downwards unless the
source begins inside of the destination (`copyDown_apply`). Regions that do not wrap around meet the
condition of the direction that is taken.
-/

namespace Xv6.Memmove

open Function

/-- The bytes of an address space. -/
abbrev Mem := UInt32 → UInt8

/-- `while(n-- > 0) *d++ = *s++`. -/
def copyUp (m : Mem) (d s : UInt32) : ℕ → Mem
  | 0 => m
  | n + 1 => copyUp (Function.update m d (m s)) (d + 1) (s + 1) n

/-- `while(n-- > 0) *--d = *--s`. -/
def copyDown (m : Mem) (d s : UInt32) : ℕ → Mem
  | 0 => m
  | n + 1 => copyDown (Function.update m (d - 1) (m (s - 1))) (d - 1) (s - 1) n

/-- `memmove` of the kernel: what it returns, and the memory. -/
def memmove (m : Mem) (dst src n : UInt32) : UInt32 × Mem :=
  if src < dst ∧ src + n > dst then (dst, copyDown m (dst + n) (src + n) n.toNat)
  else (dst, copyUp m dst src n.toNat)

/-- `memmove` of the user library. A negative `n` moves the pointers, but no byte. -/
def Ulib.memmove (m : Mem) (vdst vsrc : UInt32) (n : Int32) : UInt32 × Mem :=
  if vsrc > vdst then (vdst, copyUp m vdst vsrc n.toNatClampNeg)
  else (vdst, copyDown m (vdst + n.toUInt32) (vsrc + n.toUInt32) n.toNatClampNeg)

/-- The `n` bytes at `dst` are those that were at `src`, and all others are as before. -/
structure Moved (m : Mem) (dst src : UInt32) (n : ℕ) (m' : Mem) : Prop where
  moved : ∀ i < n, m' (dst + .ofNat i) = m (src + .ofNat i)
  kept : ∀ a : UInt32, a.toNat < dst.toNat ∨ dst.toNat + n ≤ a.toNat → m' a = m a

/-! ## The loops -/

open scoped UInt32.CommRing

variable {m : Mem} {d s : UInt32} {n : ℕ}

theorem toNat_ofNat_lt {i : ℕ} (h : i < 2 ^ 32) : (UInt32.ofNat i).toNat = i :=
  UInt32.toNat_ofNat_of_lt' h

/-- The bytes before `a` in a region that begins one later. -/
theorem toNat_sub_succ {a : UInt32} (h : a ≠ d) : (a - (d + 1)).toNat = (a - d).toNat - 1 := by
  have hne : (a - d).toNat ≠ 0 := fun h0 => h (sub_eq_zero.1 (UInt32.toNat_inj.1 h0))
  rw [show a - (d + 1) = a - d - 1 by ring]
  generalize a - d = x at hne
  have hx := x.toNat_lt
  rw [UInt32.toNat_sub_of_le _ _ (UInt32.le_iff_toNat_le.2 (by rw [UInt32.toNat_one]; omega))]
  rfl

/-- Copied upwards, the source is read before it is overwritten. -/
theorem copyUp_apply (hn : n ≤ 2 ^ 32) (h : n ≤ (d - s).toNat ∨ d = s) (a : UInt32) :
    copyUp m d s n a = if (a - d).toNat < n then m (s + (a - d)) else m a := by
  induction n generalizing m d s with
  | zero => rfl
  | succ n ih =>
    rw [copyUp, ih (by omega) (by
      rw [show d + 1 - (s + 1) = d - s by ring, add_left_inj]
      exact h.imp_left (by omega))]
    by_cases ha : a = d
    · subst ha
      have hlast : (a - (a + 1)).toNat = 2 ^ 32 - 1 := by
        rw [show a - (a + 1) = -1 by ring]
        rfl
      rw [hlast, if_neg (by omega), update_self, if_pos (by simp), sub_self, add_zero]
    · have hpos : (a - d).toNat ≠ 0 := fun h0 => ha (sub_eq_zero.1 (UInt32.toNat_inj.1 h0))
      rw [toNat_sub_succ ha, show s + 1 + (a - (d + 1)) = s + (a - d) by ring,
        update_of_ne ha]
      by_cases hlt : (a - d).toNat < n + 1
      · rw [if_pos (by omega), if_pos hlt, update_of_ne]
        intro hread
        rcases h with h | h
        · rw [← eq_sub_of_add_eq' hread] at h
          omega
        · rw [h, add_eq_left] at hread
          exact ha (by rw [h, ← sub_eq_zero, hread])
      · rw [if_neg (by omega), if_neg hlt]

/-- Copied downwards from the ends of the regions, as well. -/
theorem copyDown_apply (hn : n < 2 ^ 32) (h : n ≤ (s - d).toNat ∨ s = d) (a : UInt32) :
    copyDown m (d + .ofNat n) (s + .ofNat n) n a =
      if (a - d).toNat < n then m (s + (a - d)) else m a := by
  induction n generalizing m with
  | zero => rfl
  | succ n ih =>
    have hlast : ∀ p : UInt32, p + .ofNat (n + 1) - 1 = p + .ofNat n := fun p => by
      rw [UInt32.ofNat_add, ← add_assoc]
      exact add_sub_cancel_right _ _
    have htoNat : (UInt32.ofNat n).toNat = n := toNat_ofNat_lt (by omega)
    rw [copyDown, hlast, hlast, ih (by omega) (h.imp_left (by omega))]
    by_cases ha : a - d = .ofNat n
    · obtain rfl : a = d + .ofNat n := (sub_eq_iff_eq_add'.1 ha)
      rw [ha, htoNat, if_neg (by omega), if_pos (by omega), update_self]
    · have hne : (a - d).toNat ≠ n := fun hn => ha (UInt32.toNat_inj.1 (hn.trans htoNat.symm))
      rw [update_of_ne (a := a) fun h => ha (sub_eq_iff_eq_add'.2 h)]
      by_cases hlt : (a - d).toNat < n
      · rw [if_pos hlt, if_pos (by omega), update_of_ne]
        intro hread
        rcases h with h | h
        · have hback : s - d = .ofNat n - (a - d) := by
            rw [sub_eq_sub_iff_add_eq_add, hread, add_comm]
          rw [hback, UInt32.toNat_sub_of_le _ _ (UInt32.le_iff_toNat_le.2 (by omega)), htoNat] at h
          omega
        · rw [h] at hread
          exact ha (add_left_cancel hread)
      · rw [if_neg hlt, if_neg (by omega)]

/-! ## Regions that do not wrap around -/

theorem toNat_sub_eq (a : UInt32) : (a - d).toNat = (2 ^ 32 - d.toNat + a.toNat) % 2 ^ 32 :=
  UInt32.toNat_sub a d

/-- The two loops leave what `Moved` says. -/
theorem moved_of_apply {m' : Mem} (hd : d.toNat + n ≤ 2 ^ 32) (hn : n < 2 ^ 32)
    (h : ∀ a, m' a = if (a - d).toNat < n then m (s + (a - d)) else m a) : Moved m d s n m' where
  moved i hi := by
    have hi' : (UInt32.ofNat i).toNat = i := toNat_ofNat_lt (by omega)
    rw [h, add_sub_cancel_left, hi', if_pos hi]
  kept a ha := by
    have hlt := a.toNat_lt
    rw [h, toNat_sub_eq, if_neg (by omega)]

theorem Moved.unique {m₁ m₂ : Mem} (hd : d.toNat + n ≤ 2 ^ 32) (h₁ : Moved m d s n m₁)
    (h₂ : Moved m d s n m₂) : m₁ = m₂ := by
  funext a
  by_cases ha : d.toNat ≤ a.toNat ∧ a.toNat < d.toNat + n
  · have hadd : a = d + .ofNat (a.toNat - d.toNat) := by
      rw [← UInt32.toNat_inj, UInt32.toNat_add, toNat_ofNat_lt (by omega)]
      have hlt := a.toNat_lt
      omega
    rw [hadd, h₁.moved _ (by omega), h₂.moved _ (by omega)]
  · rw [h₁.kept a (by omega), h₂.kept a (by omega)]

theorem moved_memmove (m : Mem) {dst src n : UInt32} (hsrc : src.toNat + n.toNat ≤ 2 ^ 32)
    (hdst : dst.toNat + n.toNat ≤ 2 ^ 32) : Moved m dst src n.toNat (memmove m dst src n).2 := by
  have hn := n.toNat_lt
  refine moved_of_apply hdst hn fun a => ?_
  rw [memmove]
  split
  next h =>
    have hlt := UInt32.lt_iff_toNat_lt.1 h.1
    have := copyDown_apply (m := m) (d := dst) (s := src) hn (.inl (by rw [toNat_sub_eq]; omega)) a
    rwa [UInt32.ofNat_toNat] at this
  next h =>
    rw [not_and_or, UInt32.lt_iff_toNat_lt, gt_iff_lt, UInt32.lt_iff_toNat_lt,
      UInt32.toNat_add] at h
    refine copyUp_apply hn.le ?_ a
    rw [or_iff_not_imp_right, ← UInt32.toNat_inj, toNat_sub_eq]
    omega

theorem moved_ulib (m : Mem) {dst src : UInt32} {n : Int32}
    (hsrc : src.toNat + n.toNatClampNeg ≤ 2 ^ 32) (hdst : dst.toNat + n.toNatClampNeg ≤ 2 ^ 32) :
    Moved m dst src n.toNatClampNeg (Ulib.memmove m dst src n).2 := by
  have hn : n.toNatClampNeg < 2 ^ 32 := n.toNatClampNeg_lt.trans (by decide)
  refine moved_of_apply hdst hn fun a => ?_
  rw [Ulib.memmove]
  split
  next h =>
    have hlt := UInt32.lt_iff_toNat_lt.1 h
    exact copyUp_apply hn.le (.inl (by rw [toNat_sub_eq]; omega)) a
  next h =>
    rw [gt_iff_lt, UInt32.lt_iff_toNat_lt] at h
    by_cases h0 : 0 ≤ n
    · have hcast : n.toUInt32 = .ofNat n.toNatClampNeg := by
        rw [← UInt32.toNat_inj, toNat_ofNat_lt hn, Int32.toNat_toUInt32_of_le h0]
      rw [hcast]
      refine copyDown_apply hn ?_ a
      rw [or_iff_not_imp_right, ← UInt32.toNat_inj, toNat_sub_eq]
      omega
    · have hzero : n.toNatClampNeg = 0 := by
        rw [← Nat.le_zero, ← Nat.not_lt, Int32.toNatClampNeg_pos_iff]
        exact fun hpos => h0 (Int32.le_of_lt hpos)
      rw [hzero]
      rfl

/-- Both move the bytes whatever the overlap, and so they agree where both have the number as an
    argument. -/
theorem memmove_overlap_safe (m : Mem) (dst src : UInt32) :
    (∀ n : UInt32, src.toNat + n.toNat ≤ 2 ^ 32 → dst.toNat + n.toNat ≤ 2 ^ 32 →
      Moved m dst src n.toNat (memmove m dst src n).2) ∧
    (∀ n : Int32, src.toNat + n.toNatClampNeg ≤ 2 ^ 32 → dst.toNat + n.toNatClampNeg ≤ 2 ^ 32 →
      Moved m dst src n.toNatClampNeg (Ulib.memmove m dst src n).2) ∧
    ∀ n : Int32, 0 ≤ n → src.toNat + n.toNatClampNeg ≤ 2 ^ 32 →
      dst.toNat + n.toNatClampNeg ≤ 2 ^ 32 →
      memmove m dst src n.toUInt32 = Ulib.memmove m dst src n := by
  refine ⟨fun n => moved_memmove m, fun n => moved_ulib m, fun n h0 hsrc hdst => ?_⟩
  have hmem : (memmove m dst src n.toUInt32).2 = (Ulib.memmove m dst src n).2 := by
    refine Moved.unique hdst ?_ (moved_ulib m hsrc hdst)
    have hn := Int32.toNat_toUInt32_of_le h0
    rw [← hn] at hsrc hdst ⊢
    exact moved_memmove m hsrc hdst
  refine Prod.ext ?_ hmem
  rw [memmove, Ulib.memmove]
  split <;> split <;> rfl

/-- Three bytes moved up by one. -/
theorem memmove_overlap_safe_three :
    Moved (fun a => .ofNat a.toNat) 0x1001 0x1000 3
      (memmove (fun a => .ofNat a.toNat) 0x1001 0x1000 3).2 :=
  (memmove_overlap_safe (fun a => .ofNat a.toNat) 0x1001 0x1000).1 3 (by decide) (by decide)

end Xv6.Memmove
