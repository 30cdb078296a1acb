import Mathlib.Data.Nat.Bitwise
import Xv6.Vm.Exec

/-!
# What page directories map and hold

The entries of a directory (`Pgdir.pte?`), its page tables and the pages it holds
(`Pgdir.pages`), under the updates that `vm.c` makes to it, and what the functions of `vm.c` make
of its entries. Which pages they take and give back is in `Xv6.Vm.Owned`.
-/

namespace Xv6.Vm

open Function

/-- The pages of the address space. -/
abbrev NPAGES : ℕ := 1048576

/-- The pages of user memory, below `KERNBASE`. -/
abbrev NUSER : ℕ := 524288

/-! ## Words -/

theorem and_mask {x j : ℕ} (hx : x < 2 ^ 32) (hj : j ≤ 32) :
    x &&& ((2 ^ (32 - j) - 1) <<< j) = 2 ^ j * (x / 2 ^ j) := by
  refine Nat.eq_of_testBit_eq fun i => ?_
  rw [Nat.testBit_and, Nat.testBit_shiftLeft, Nat.testBit_two_pow_sub_one,
    Nat.testBit_two_pow_mul, Nat.testBit_div_two_pow]
  by_cases hi : j ≤ i
  · simp only [hi, decide_true, Bool.true_and, Nat.sub_add_cancel]
    by_cases h32 : i < 32
    · simp [show i - j < 32 - j by omega]
    · have hlt : x < 2 ^ i := hx.trans_le (Nat.pow_le_pow_right (by decide) (by omega))
      simp [Nat.testBit_lt_two_pow hlt]
  · simp [hi]

theorem toNat_pgRoundDown (a : UInt32) : (pgRoundDown a).toNat = 4096 * (a.toNat / 4096) := by
  rw [pgRoundDown, UInt32.toNat_and]
  exact and_mask (j := 12) a.toNat_lt (by decide)

/-- The address of the next page. -/
theorem toNat_nextPage {a : UInt32} (h : a.toNat < 2147483648) :
    (pgRoundDown a + PGSIZE).toNat = 4096 * (a.toNat / 4096) + 4096 := by
  rw [UInt32.toNat_add, toNat_pgRoundDown]
  exact Nat.mod_eq_of_lt (by change _ + 4096 < _; omega)

theorem toNat_and_not_three (a : UInt32) : (a &&& ~~~3).toNat = 4 * (a.toNat / 4) := by
  rw [UInt32.toNat_and]
  exact and_mask (j := 2) a.toNat_lt (by decide)

theorem toNat_pgRoundUp {sz : UInt32} (h : sz ≤ KERNBASE) :
    (pgRoundUp sz).toNat = 4096 * npages sz := by
  have h' : sz.toNat ≤ 2147483648 := UInt32.le_iff_toNat_le.1 h
  have hadd : (sz + (PGSIZE - 1)).toNat = sz.toNat + 4095 := by
    rw [UInt32.toNat_add]
    exact Nat.mod_eq_of_lt (by change sz.toNat + 4095 < _; omega)
  have := toNat_pgRoundDown (sz + (PGSIZE - 1))
  rw [hadd] at this
  exact this

theorem pageOf_pgRoundUp {sz : UInt32} (h : sz ≤ KERNBASE) : pageOf (pgRoundUp sz) = npages sz := by
  rw [pageOf, toNat_pgRoundUp h]
  exact Nat.mul_div_cancel_left _ (by decide)

theorem npages_le {sz : UInt32} (h : sz ≤ KERNBASE) : npages sz ≤ NUSER := by
  have h' : sz.toNat ≤ 2147483648 := UInt32.le_iff_toNat_le.1 h
  unfold npages NUSER
  omega

theorem npages_mono {sz sz' : UInt32} (h : sz ≤ sz') : npages sz ≤ npages sz' := by
  have h' := UInt32.le_iff_toNat_le.1 h
  unfold npages
  omega

/-! ## Entries -/

theorem pdx_ptx_injective {a b : ℕ} (ha : a < NPAGES) (hb : b < NPAGES) (hd : pdx a = pdx b)
    (ht : ptx a = ptx b) : a = b := by
  simp only [pdx, ptx, Fin.ofNat, Fin.mk.injEq, NPDENTRIES, NPTENTRIES, NPAGES] at *
  omega

theorem exists_page (i : Fin NPDENTRIES) (j : Fin NPTENTRIES) :
    ∃ b < NPAGES, pdx b = i ∧ ptx b = j := by
  refine ⟨i.val * 1024 + j.val, ?_, ?_, ?_⟩
  · have := i.isLt; have := j.isLt; simp only [NPAGES, NPDENTRIES, NPTENTRIES] at *; omega
  · have := i.isLt; have := j.isLt
    simp only [pdx, Fin.ofNat, Fin.ext_iff, NPDENTRIES, NPTENTRIES] at *; omega
  · have := j.isLt
    simp only [ptx, Fin.ofNat, Fin.ext_iff, NPTENTRIES] at *; omega

namespace Pgdir

variable {d : Pgdir} {a b : ℕ} {x : Option Pte} {v : Addr}

theorem pte?_setPte (h : (d.pde (pdx a)).isSome) (ha : a < NPAGES) (hb : b < NPAGES) :
    (d.setPte a x).pte? b = if b = a then x else d.pte? b := by
  obtain ⟨t, ht⟩ := Option.isSome_iff_exists.1 h
  simp only [setPte, pte?, ht]
  by_cases hd : pdx b = pdx a
  · rw [hd, update_self, ht]
    simp only [Option.bind_some]
    by_cases htx : ptx b = ptx a
    · rw [if_pos (pdx_ptx_injective hb ha hd htx), htx, update_self]
    · have hne : b ≠ a := fun he => htx (he ▸ rfl)
      rw [update_of_ne htx, if_neg hne]
  · have hne : b ≠ a := fun he => hd (he ▸ rfl)
    rw [update_of_ne hd, if_neg hne]

/-- A directory has a page table at the index `i`. -/
def hasTab (d : Pgdir) (i : Fin NPDENTRIES) : Bool := (d.pde i).isSome

theorem hasTab_setPte (d : Pgdir) (a : ℕ) (x : Option Pte) (i : Fin NPDENTRIES) :
    (d.setPte a x).hasTab i = d.hasTab i := by
  unfold setPte
  split
  · rfl
  · rename_i t ht
    by_cases hi : i = pdx a
    · simp [hasTab, hi, ht]
    · simp [hasTab, update_of_ne hi]

theorem page_setPte (d : Pgdir) (a : ℕ) (x : Option Pte) : (d.setPte a x).page = d.page := by
  unfold setPte
  split <;> rfl

theorem pte?_addTab (h : d.pde (pdx a) = none) (b : ℕ) : (d.addTab a v).pte? b = d.pte? b := by
  unfold addTab pte?
  by_cases hd : pdx b = pdx a
  · simp [hd, h]
  · simp [update_of_ne hd]

theorem hasTab_addTab (d : Pgdir) (a : ℕ) (v : Addr) (i : Fin NPDENTRIES) :
    (d.addTab a v).hasTab i = (decide (i = pdx a) || d.hasTab i) := by
  by_cases hi : i = pdx a
  · simp [hasTab, addTab, hi]
  · simp [hasTab, addTab, hi]

theorem hasTab_of_pte? (h : (d.pte? a).isSome) : d.hasTab (pdx a) := by
  unfold pte? at h
  cases hd : d.pde (pdx a) with
  | none => rw [hd] at h; cases h
  | some t => rw [hasTab, hd]; rfl

end Pgdir

/-! ## Pages -/

/-- The page an entry maps. -/
def mapped (x : Option Pte) : Multiset Addr := x.elim 0 fun p => {p.page}

@[simp] theorem mapped_none : mapped none = 0 := rfl
@[simp] theorem mapped_some (p : Pte) : mapped (some p) = {p.page} := rfl

/-- The pages a page table holds: its own, and those it maps. -/
def Pgtab.pages (t : Pgtab) : Multiset Addr := t.page ::ₘ held (fun p => {p.page}) t.pte

namespace Pgdir

variable {d : Pgdir} {a b : ℕ} {x : Option Pte} {v : Addr}

/-- The pages a directory holds: its own, and those of its page tables. -/
def pages (d : Pgdir) : Multiset Addr := d.page ::ₘ held Pgtab.pages d.pde

theorem pages_mk (v : Addr) : ({ page := v } : Pgdir).pages = {v} := by
  simp only [pages, held_none]
  rfl

theorem pages_addTab (h : d.pde (pdx a) = none) : (d.addTab a v).pages = v ::ₘ d.pages := by
  have hu := held_update (t := d.pde) (h := Pgtab.pages) (pdx a) (some { page := v })
  have hv : Pgtab.pages { page := v } = {v} := by simp only [Pgtab.pages, held_none]; rfl
  rw [h] at hu
  simp only [Option.elim_none, Option.elim_some, add_zero, hv] at hu
  rw [pages, pages, addTab, hu, Multiset.cons_swap, Multiset.add_comm, Multiset.singleton_add]

theorem pages_setPte (h : d.hasTab (pdx a)) :
    (d.setPte a x).pages + mapped (d.pte? a) = d.pages + mapped x := by
  obtain ⟨t, ht⟩ := Option.isSome_iff_exists.1 h
  have hd := held_update (t := d.pde) (h := Pgtab.pages) (pdx a)
    (some { t with pte := update t.pte (ptx a) x })
  have htab : held (fun p => {p.page}) (update t.pte (ptx a) x) + mapped (t.pte (ptx a)) =
      held (fun p => {p.page}) t.pte + mapped x := held_update (ptx a) x
  simp only [ht, Option.elim_some, Pgtab.pages, ← Multiset.singleton_add] at hd
  simp only [setPte, pte?, ht, Option.bind_some, pages, ← Multiset.singleton_add]
  generalize held Pgtab.pages (update d.pde _ _) = A at hd ⊢
  generalize held Pgtab.pages d.pde = B at hd ⊢
  generalize held (fun p : Pte => {p.page}) (update t.pte _ _) = P at hd htab
  generalize held (fun p : Pte => {p.page}) t.pte = Q at hd htab
  -- Both sides are compared after the pages of the table are added to them.
  refine add_right_cancel (b := {t.page} + Q) ?_
  calc {d.page} + A + mapped (t.pte (ptx a)) + ({t.page} + Q)
      = {d.page} + (A + ({t.page} + Q)) + mapped (t.pte (ptx a)) := by abel
    _ = {d.page} + B + {t.page} + (P + mapped (t.pte (ptx a))) := by rw [hd]; abel
    _ = {d.page} + B + mapped x + ({t.page} + Q) := by rw [htab]; abel

end Pgdir

/-! ## Walks -/

section Walks

variable {d d' : Pgdir} {a b fuel stop : ℕ} {v : Addr} {u : Bool} {k k' : Kmem}

theorem walkpgdir_eq (d : Pgdir) (a : ℕ) :
    walkpgdir d a = if d.hasTab (pdx a) then some (d.pte? a) else none := by
  cases hd : d.pde (pdx a) <;> simp [walkpgdir, Pgdir.hasTab, Pgdir.pte?, hd]

/-- `walkpgdir` changes no entry, and only adds page tables. -/
structure Widens (d d' : Pgdir) : Prop where
  pte? : ∀ b, d'.pte? b = d.pte? b
  hasTab : ∀ i, d.hasTab i → d'.hasTab i

theorem widens_walk (d : Pgdir) (a : ℕ) (k : Kmem) : Widens d (walkpgdirAlloc d a k).2.1 := by
  unfold walkpgdirAlloc
  split_ifs with hd hk
  · exact ⟨fun _ => rfl, fun _ h => h⟩
  · exact ⟨fun _ => rfl, fun _ h => h⟩
  · refine ⟨Pgdir.pte?_addTab (by simpa using hd), fun i h => ?_⟩
    simp [Pgdir.hasTab_addTab, h]

/-- `walkpgdir` that succeeds has a page table for the page. -/
theorem hasTab_walk (h : (walkpgdirAlloc d a k).1) (i : Fin NPDENTRIES) :
    (walkpgdirAlloc d a k).2.1.hasTab i ↔ d.hasTab i ∨ i = pdx a := by
  unfold walkpgdirAlloc at h ⊢
  split_ifs at h ⊢ with hd hk
  · refine ⟨.inl, ?_⟩
    rintro (hi | rfl)
    · exact hi
    · exact hd
  · simp [Pgdir.hasTab_addTab, or_comm]

/-- `mappages` of one page sets its entry, which was absent, or leaves all entries as they
    are. -/
theorem mappages_cases {r : Bool} (h : mappages d a v u k = some (r, d', k')) (ha : a < NPAGES) :
    r = true ∧ d.pte? a = none ∧
    (∀ b < NPAGES, d'.pte? b = if b = a then some ⟨v, u⟩ else d.pte? b) ∧
        (∀ i, d.hasTab i → d'.hasTab i) ∨
      r = false ∧ Widens d d' := by
  have hw := widens_walk d a k
  have ht := hasTab_walk (d := d) (a := a) (k := k)
  unfold mappages at h
  generalize walkpgdirAlloc d a k = x at h hw ht
  obtain ⟨_ | _, d₁, k₁⟩ := x
  · obtain ⟨rfl, rfl, rfl⟩ := (by simpa using h : false = r ∧ d₁ = d' ∧ k₁ = k')
    exact .inr ⟨rfl, hw⟩
  · simp only [Option.ite_none_left_eq_some, Option.some.injEq, Prod.mk.injEq] at h
    obtain ⟨hn, rfl, rfl, rfl⟩ := h
    have hn : d₁.pte? a = none := by simpa using hn
    refine .inl ⟨rfl, (hw.pte? a).symm.trans hn, fun b hb => ?_, fun i hi => ?_⟩
    · rw [Pgdir.pte?_setPte ((ht rfl _).2 (.inr rfl)) ha hb, hw.pte?]
    · rw [Pgdir.hasTab_setPte]; exact hw.hasTab i hi

theorem mappages_ne_none (h : d.pte? a = none) : mappages d a v u k ≠ none := by
  have hw := widens_walk d a k
  unfold mappages
  generalize walkpgdirAlloc d a k = x at hw
  obtain ⟨_ | _, d₁, k₁⟩ := x
  · simp
  · simp [(hw.pte? a).trans h]

/-- `deallocuvm` clears the entries from the page `a` to the page `stop`, and keeps the others
    and the page tables. -/
theorem deallocLoop_spec (h : deallocLoop stop fuel a d k = some (d', k')) (hf : stop ≤ a + fuel)
    (hs : stop ≤ NPAGES) :
    (∀ b < NPAGES, d'.pte? b = if a ≤ b ∧ b < stop then none else d.pte? b) ∧
      (∀ i, d'.hasTab i = d.hasTab i) ∧ d'.page = d.page := by
  induction fuel generalizing a d k with
  | zero =>
    obtain ⟨rfl, rfl⟩ := (by simpa [deallocLoop] using h : d = d' ∧ k = k')
    exact ⟨fun b hb => (if_neg (by omega)).symm, fun _ => rfl, rfl⟩
  | succ fuel ih =>
    rw [deallocLoop] at h
    split_ifs at h with ha
    · obtain ⟨rfl, rfl⟩ := (by simpa using h : d = d' ∧ k = k')
      exact ⟨fun b hb => (if_neg (by omega)).symm, fun _ => rfl, rfl⟩
    rw [walkpgdir_eq] at h
    by_cases htab : d.hasTab (pdx a)
    · rw [if_pos htab] at h
      cases hp : d.pte? a with
      | none =>
        -- The entry is absent already.
        rw [hp] at h
        obtain ⟨hpte, hrest⟩ := ih h (by omega)
        refine ⟨fun b hb => ?_, hrest⟩
        rw [hpte b hb]
        by_cases hba : b = a
        · subst hba; simp [hp]
        · have : (a + 1 ≤ b ∧ b < stop) ↔ (a ≤ b ∧ b < stop) := by omega
          simp only [this]
      | some p =>
        rw [hp] at h
        simp only at h
        split_ifs at h
        obtain ⟨k₁, hk, h⟩ := Option.bind_eq_some_iff.1 h
        obtain ⟨hpte, htabs, hpage⟩ := ih h (by omega)
        refine ⟨fun b hb => ?_, fun i => (htabs i).trans (Pgdir.hasTab_setPte _ _ _ _),
          hpage.trans (Pgdir.page_setPte _ _ _)⟩
        rw [hpte b hb, Pgdir.pte?_setPte htab (by omega) hb]
        by_cases hba : b = a
        · subst hba; simp [Nat.lt_of_not_le ha]
        · have : (a + 1 ≤ b ∧ b < stop) ↔ (a ≤ b ∧ b < stop) := by omega
          simp only [this, if_neg hba]
    · -- Without a page table, all entries up to the next one are absent.
      rw [if_neg htab] at h
      obtain ⟨hpte, hrest⟩ := ih h (by simp only [NPTENTRIES]; omega)
      refine ⟨fun b hb => ?_, hrest⟩
      rw [hpte b hb]
      by_cases hlt : a ≤ b ∧ b < (a / NPTENTRIES + 1) * NPTENTRIES
      · have hpdx : pdx b = pdx a := by
          simp only [pdx, Fin.ofNat, Fin.mk.injEq, NPTENTRIES] at hlt ⊢
          have : b / 1024 = a / 1024 := by omega
          rw [this]
        have hnone : d.pte? b = none := by
          cases hd : d.pte? b with
          | none => rfl
          | some p =>
            have := Pgdir.hasTab_of_pte? (d := d) (a := b) (by rw [hd]; rfl)
            rw [hpdx] at this
            exact absurd this htab
        simp [hnone]
      · have : ((a / NPTENTRIES + 1) * NPTENTRIES ≤ b ∧ b < stop) ↔ (a ≤ b ∧ b < stop) := by
          simp only [NPTENTRIES] at hlt ⊢
          omega
        simp only [this]

end Walks

end Xv6.Vm
