import Xv6.Uvm.Basic

/-!
# Page tables without their flags

The functions of `Xv6.Uvm` do what those of `Xv6.Vm` do on the directories without the flags and
without the mappings of kernel memory (`Pgdir.erase`). What is known of the pages that these take
and give back is so for them as well.
-/

namespace Xv6.Uvm

open Vm Kmem Function

/-! ## Words -/

theorem P2V_V2P (v : Addr) : P2V (V2P v) = v := UInt32.sub_add_cancel v KERNBASE

theorem V2P_P2V (pa : UInt32) : V2P (P2V pa) = pa := UInt32.add_sub_cancel pa KERNBASE

theorem or_eq_self {x y : UInt32} (h : x &&& y = y) : x ||| y = x := by
  rw [← h, ← UInt32.toBitVec_inj, UInt32.toBitVec_or, UInt32.toBitVec_and]
  ext i hi
  rw [BitVec.getElem_or, BitVec.getElem_and]
  cases x.toBitVec[i] <;> simp

theorem or_and_of_disjoint {x y z : UInt32} (h : y &&& z = 0) : (x ||| y) &&& z = x &&& z := by
  rw [← UInt32.toBitVec_inj, UInt32.toBitVec_and] at h
  rw [← UInt32.toBitVec_inj, UInt32.toBitVec_and, UInt32.toBitVec_and, UInt32.toBitVec_or]
  ext i hi
  have hyz : (y.toBitVec[i] && z.toBitVec[i]) = false := by
    rw [← BitVec.getElem_and]
    simp [h]
  rw [BitVec.getElem_and, BitVec.getElem_and, BitVec.getElem_or, Bool.and_or_distrib_right, hyz,
    Bool.or_false]

/-! ## Entries -/

namespace Pte

/-- A page table entry without the flags but `PTE_U`. -/
def erase (p : Pte) : Vm.Pte := ⟨P2V p.pa, p.flags &&& PTE_U ≠ 0⟩

theorem erase_of (v : Addr) (perm : UInt32) :
    (of (V2P v) perm).erase = ⟨v, decide (perm &&& PTE_U ≠ 0)⟩ := by
  rw [erase, of, P2V_V2P, or_and_of_disjoint (by decide)]

/-- The entry with the flags of another. -/
theorem of_flags (pa : UInt32) (p : Pte) : (of pa p.flags).flags = p.flags := or_eq_self p.present

end Pte

/-- A page table without flags, and without entries if it is one of kernel memory. -/
def Pgtab.erase (i : Fin NPDENTRIES) (t : Pgtab) : Vm.Pgtab where
  page := t.page
  pte j := if i.val < 512 then (t.pte j).map Pte.erase else none

namespace Pgdir

variable {d : Pgdir} {a b : ℕ} {x : Option Pte} {v : Addr}

/-- The directory as in `Xv6.Vm`. -/
def erase (d : Pgdir) : Vm.Pgdir where
  page := d.page
  pde i := (d.pde i).map (Pgtab.erase i)

/-- Whether there is a page table at an index. -/
def hasTab (d : Pgdir) (i : Fin NPDENTRIES) : Bool := (d.pde i).isSome

theorem hasTab_erase (d : Pgdir) (i : Fin NPDENTRIES) : d.erase.hasTab i = d.hasTab i :=
  Option.isSome_map

theorem pdx_lt_iff (ha : a < NPAGES) : (pdx a).val < 512 ↔ a < NUSER := by
  simp only [pdx, Fin.ofNat, NPDENTRIES, NPTENTRIES, NPAGES, NUSER] at *
  omega

theorem pte?_erase (d : Pgdir) (ha : a < NPAGES) :
    d.erase.pte? a = if a < NUSER then (d.pte? a).map Pte.erase else none := by
  rw [Vm.Pgdir.pte?, pte?, erase]
  dsimp only
  cases d.pde (pdx a) with
  | none => simp
  | some t => simp [Pgtab.erase, pdx_lt_iff ha]

theorem pte?_erase_of_lt (d : Pgdir) (ha : a < NUSER) :
    d.erase.pte? a = (d.pte? a).map Pte.erase := by
  rw [pte?_erase d (ha.trans (by decide)), if_pos ha]

theorem pte?_setPte (h : d.hasTab (pdx a)) (ha : a < NPAGES) (hb : b < NPAGES) :
    (d.setPte a x).pte? b = if b = a then x else d.pte? b := by
  obtain ⟨t, ht⟩ := Option.isSome_iff_exists.1 h
  simp only [setPte, pte?, ht]
  by_cases hd : pdx b = pdx a
  · rw [hd, update_self, ht]
    simp only [Option.bind_some]
    by_cases htx : ptx b = ptx a
    · rw [if_pos (pdx_ptx_injective hb ha hd htx), htx, update_self]
    · have hne : b ≠ a := fun he => htx (he ▸ rfl)
      rw [update_of_ne htx, if_neg hne]
  · have hne : b ≠ a := fun he => hd (he ▸ rfl)
    rw [update_of_ne hd, if_neg hne]

theorem pte?_addTab (h : d.pde (pdx a) = none) (b : ℕ) : (d.addTab a v).pte? b = d.pte? b := by
  rw [addTab, pte?, pte?]
  by_cases hd : pdx b = pdx a
  · simp [hd, h]
  · simp [update_of_ne hd]

theorem hasTab_setPte (d : Pgdir) (a : ℕ) (x : Option Pte) (i : Fin NPDENTRIES) :
    (d.setPte a x).hasTab i = d.hasTab i := by
  rw [setPte]
  split
  · rfl
  · rename_i t ht
    by_cases hi : i = pdx a
    · simp [hasTab, hi, ht]
    · simp [hasTab, update_of_ne hi]

theorem hasTab_of_pte? (h : (d.pte? a).isSome) : d.hasTab (pdx a) := by
  rw [pte?] at h
  cases hd : d.pde (pdx a) with
  | none => rw [hd] at h; cases h
  | some t => rw [hasTab, hd]; rfl

theorem erase_addTab (d : Pgdir) (a : ℕ) (v : Addr) :
    (d.addTab a v).erase = d.erase.addTab a v := by
  rw [addTab, erase, Vm.Pgdir.addTab, erase]
  congr 1
  funext i
  by_cases hi : i = pdx a
  · subst hi
    simp [Pgtab.erase]
  · simp [update_of_ne hi]

theorem erase_setPte (d : Pgdir) (x : Option Pte) (ha : a < NPAGES) : (d.setPte a x).erase =
    if a < NUSER then d.erase.setPte a (x.map Pte.erase) else d.erase := by
  rw [setPte]
  cases ht : d.pde (pdx a) with
  | none => simp [Vm.Pgdir.setPte, erase, ht]
  | some t =>
    simp only [erase, Vm.Pgdir.setPte, ht, Option.map_some]
    by_cases hu : a < NUSER
    · rw [if_pos hu]
      congr 1
      funext i
      by_cases hi : i = pdx a
      · subst hi
        have hlt := (pdx_lt_iff ha).2 hu
        simp only [update_self, Option.map_some, Pgtab.erase, hlt, if_true]
        congr 2
        funext j
        by_cases hj : j = ptx a
        · subst hj; simp
        · simp [update_of_ne hj]
      · simp [update_of_ne hi]
    · rw [if_neg hu]
      congr 1
      funext i
      by_cases hi : i = pdx a
      · subst hi
        have hnlt : ¬(pdx a).val < 512 := fun h => hu ((pdx_lt_iff ha).1 h)
        simp [Pgtab.erase, hnlt, ht]
      · simp [update_of_ne hi]

end Pgdir

variable {T F : Multiset Addr} {v : Addr} {d d' : Pgdir} {m m' : Ram} {a b n fuel stop : ℕ}
  {pa perm oldsz newsz s : UInt32} {r : Bool} {l : List ℕ}

/-! ## Walks -/

theorem walkpgdir_eq (d : Pgdir) (a : ℕ) :
    walkpgdir d a = if d.hasTab (pdx a) then some (d.pte? a) else none := by
  cases hd : d.pde (pdx a) <;> simp [walkpgdir, Pgdir.hasTab, Pgdir.pte?, hd]

theorem walkpgdir_erase (d : Pgdir) (ha : a < NUSER) :
    Vm.walkpgdir d.erase a = (walkpgdir d a).map (Option.map Pte.erase) := by
  rw [Vm.walkpgdir_eq, walkpgdir_eq, Pgdir.hasTab_erase, Pgdir.pte?_erase_of_lt d ha]
  split_ifs <;> rfl

theorem erase_walkpgdirAlloc (d : Pgdir) (a : ℕ) (m : Ram) :
    Vm.walkpgdirAlloc d.erase a m.kmem = ((walkpgdirAlloc d a m).1,
      (walkpgdirAlloc d a m).2.1.erase, (walkpgdirAlloc d a m).2.2.kmem) := by
  rw [Vm.walkpgdirAlloc, walkpgdirAlloc, ← Vm.Pgdir.hasTab, Pgdir.hasTab_erase, Pgdir.hasTab]
  by_cases htab : (d.pde (pdx a)).isSome
  · rw [if_pos htab, if_pos htab]
  · rw [if_neg htab, if_neg htab]
    by_cases hk : (Vm.kalloc m.kmem).1 = 0
    · rw [if_pos hk, if_pos (show m.kalloc.1 = 0 from hk)]
      rfl
    · rw [if_neg hk, if_neg (show m.kalloc.1 ≠ 0 from hk), Pgdir.erase_addTab]
      rfl

/-- `walkpgdir` writes no page that was in use. -/
theorem page_walkpgdirAlloc (d : Pgdir) (a : ℕ) (m : Ram) :
    (walkpgdirAlloc d a m).2.2.page = m.page := by
  rw [walkpgdirAlloc]
  split_ifs <;> rfl

theorem pte?_walkpgdirAlloc (d : Pgdir) (a : ℕ) (m : Ram) (b : ℕ) :
    (walkpgdirAlloc d a m).2.1.pte? b = d.pte? b := by
  rw [walkpgdirAlloc]
  split_ifs with htab
  · rfl
  · rfl
  · exact Pgdir.pte?_addTab (by simpa using htab) b

theorem hasTab_walkpgdirAlloc (h : (walkpgdirAlloc d a m).1) :
    (walkpgdirAlloc d a m).2.1.hasTab (pdx a) := by
  rw [walkpgdirAlloc] at h ⊢
  split_ifs at h ⊢ with htab hk
  · exact htab
  · simp [Pgdir.hasTab, Pgdir.addTab]

/-! ## Mapping a page -/

theorem mappages_one (d : Pgdir) (a : ℕ) (pa perm : UInt32) (m : Ram) :
    mappages d a 1 pa perm m = match walkpgdirAlloc d a m with
      | (false, d, m) => some (false, d, m)
      | (true, d, m) =>
        if (d.pte? a).isSome then none else some (true, d.setPte a (some (.of pa perm)), m) := rfl

theorem erase_mappages (d : Pgdir) (v : Addr) (perm : UInt32) (m : Ram) (ha : a < NUSER) :
    (mappages d a 1 (V2P v) perm m).map (Prod.map id (Prod.map Pgdir.erase id)) =
      Ram.mappages d.erase a v (perm &&& PTE_U ≠ 0) m := by
  have hw := erase_walkpgdirAlloc d a m
  have hpage := page_walkpgdirAlloc d a m
  rw [mappages_one, Ram.mappages, Vm.mappages, hw]
  generalize walkpgdirAlloc d a m = x at hpage
  obtain ⟨_ | _, d₁, k₁, c₁⟩ := x
  · obtain rfl : c₁ = m.page := hpage
    rfl
  · obtain rfl : c₁ = m.page := hpage
    dsimp only
    rw [Pgdir.pte?_erase_of_lt d₁ ha, Option.isSome_map]
    split_ifs
    · rfl
    · simp only [Option.map_some, Prod.map, id_eq]
      rw [Pgdir.erase_setPte d₁ _ (ha.trans (by decide)), if_pos ha, Option.map_some, Pte.erase_of]

/-- `mappages` of one page sets its entry, which was absent, or leaves all entries as they
    are. It writes no page that was in use. -/
theorem mappages_cases (h : mappages d a 1 pa perm m = some (r, d', m')) (ha : a < NPAGES) :
    m'.page = m.page ∧ (r = true ∧ d.pte? a = none ∧
        (∀ b < NPAGES, d'.pte? b = if b = a then some (.of pa perm) else d.pte? b) ∨
      r = false ∧ ∀ b, d'.pte? b = d.pte? b) := by
  have hpage := page_walkpgdirAlloc d a m
  have hpte := pte?_walkpgdirAlloc d a m
  have htab := hasTab_walkpgdirAlloc (d := d) (a := a) (m := m)
  rw [mappages_one] at h
  generalize walkpgdirAlloc d a m = x at h hpage hpte htab
  obtain ⟨_ | _, d₁, m₁⟩ := x
  · obtain ⟨rfl, rfl, rfl⟩ := (by simpa using h : false = r ∧ d₁ = d' ∧ m₁ = m')
    exact ⟨hpage, .inr ⟨rfl, hpte⟩⟩
  · simp only [Option.ite_none_left_eq_some, Option.some.injEq, Prod.mk.injEq] at h
    obtain ⟨hn, rfl, rfl, rfl⟩ := h
    have hn : d₁.pte? a = none := by simpa using hn
    refine ⟨hpage, .inl ⟨rfl, (hpte a).symm.trans hn, fun b hb => ?_⟩⟩
    rw [Pgdir.pte?_setPte (htab rfl) ha hb, hpte]

/-! ## Unmapping -/

theorem erase_deallocLoop (fuel a : ℕ) (d : Pgdir) (m : Ram) (hs : stop ≤ NUSER) :
    (deallocLoop stop fuel a d m).map (Prod.map Pgdir.erase id) =
      Vm.deallocLoop stop fuel a d.erase m := by
  induction fuel generalizing a d m with
  | zero => rfl
  | succ fuel ih =>
    rw [deallocLoop, Vm.deallocLoop]
    split_ifs with ha
    · rfl
    have ha : a < NUSER := (not_le.1 ha).trans_le hs
    rw [walkpgdir_erase d ha]
    cases walkpgdir d a with
    | none => exact ih ..
    | some x =>
      cases x with
      | none => exact ih ..
      | some p =>
        simp only [Option.map_some, Pte.erase, V2P_P2V]
        split_ifs
        · rfl
        · rw [Option.map_bind]
          refine congrArg _ (funext fun m => ?_)
          have hset : (d.setPte a none).erase = d.erase.setPte a none := by
            rw [Pgdir.erase_setPte d none (ha.trans (by decide)), if_pos ha]
            rfl
          dsimp only [Function.comp]
          rw [ih, hset]

theorem erase_deallocuvm (d : Pgdir) (newsz : UInt32) (m : Ram) (ho : oldsz ≤ KERNBASE) :
    (deallocuvm d oldsz newsz m).map (Prod.map id (Prod.map Pgdir.erase id)) =
      Vm.deallocuvm d.erase oldsz newsz m := by
  rw [deallocuvm, Vm.deallocuvm]
  split_ifs
  · rfl
  · rw [← erase_deallocLoop _ _ _ _ (npages_le ho), Option.map_map, Option.map_map]
    rfl

/-- `deallocuvm` clears the entries from the page `a` to the page `stop`, and keeps the others. -/
theorem pte?_deallocLoop (h : deallocLoop stop fuel a d m = some (d', m')) (hf : stop ≤ a + fuel)
    (hs : stop ≤ NPAGES) :
    ∀ b < NPAGES, d'.pte? b = if a ≤ b ∧ b < stop then none else d.pte? b := by
  induction fuel generalizing a d m with
  | zero =>
    obtain ⟨rfl, rfl⟩ := (by simpa [deallocLoop] using h : d = d' ∧ m = m')
    exact fun b hb => (if_neg (by omega)).symm
  | succ fuel ih =>
    rw [deallocLoop] at h
    split_ifs at h with ha
    · obtain ⟨rfl, rfl⟩ := (by simpa using h : d = d' ∧ m = m')
      exact fun b hb => (if_neg (by omega)).symm
    rw [walkpgdir_eq] at h
    by_cases htab : d.hasTab (pdx a)
    · rw [if_pos htab] at h
      -- the page `a` itself is cleared, or has no entry
      have hstep {d₁ : Pgdir} (hd₁ : ∀ b < NPAGES, d₁.pte? b = if b = a then none else d.pte? b)
          (hih : ∀ b < NPAGES, d'.pte? b = if a + 1 ≤ b ∧ b < stop then none else d₁.pte? b) :
          ∀ b < NPAGES, d'.pte? b = if a ≤ b ∧ b < stop then none else d.pte? b := by
        intro b hb
        rw [hih b hb, hd₁ b hb]
        by_cases hba : b = a
        · subst hba
          simp [Nat.lt_of_not_le ha]
        · have hiff : (a + 1 ≤ b ∧ b < stop) ↔ (a ≤ b ∧ b < stop) := by omega
          simp only [hiff, if_neg hba]
      cases hp : d.pte? a with
      | none =>
        rw [hp] at h
        refine hstep (fun b hb => ?_) (ih h (by omega))
        split_ifs with hba
        · rw [hba, hp]
        · rfl
      | some p =>
        rw [hp] at h
        simp only at h
        split_ifs at h
        obtain ⟨m₁, -, h⟩ := Option.bind_eq_some_iff.1 h
        exact hstep (fun b hb => Pgdir.pte?_setPte htab (by omega) hb) (ih h (by omega))
    · -- Without a page table, all entries up to the next one are absent.
      rw [if_neg htab] at h
      have hih := ih h (by simp only [NPTENTRIES]; omega)
      intro b hb
      rw [hih b hb]
      by_cases hlt : a ≤ b ∧ b < (a / NPTENTRIES + 1) * NPTENTRIES
      · have hpdx : pdx b = pdx a := by
          simp only [pdx, Fin.ofNat, Fin.mk.injEq, NPTENTRIES] at hlt ⊢
          have : b / 1024 = a / 1024 := by omega
          rw [this]
        have hnone : d.pte? b = none := by
          rw [← Option.not_isSome_iff_eq_none]
          exact fun hsome => htab (hpdx ▸ Pgdir.hasTab_of_pte? hsome)
        simp [hnone]
      · have hiff : ((a / NPTENTRIES + 1) * NPTENTRIES ≤ b ∧ b < stop) ↔ (a ≤ b ∧ b < stop) := by
          simp only [NPTENTRIES] at hlt ⊢
          omega
        simp only [hiff]

theorem pte?_deallocuvm (h : deallocuvm d oldsz newsz m = some (s, d', m'))
    (ho : oldsz ≤ KERNBASE) :
    ∀ b < NPAGES, d'.pte? b = if npages newsz ≤ b ∧ b < npages oldsz then none else d.pte? b := by
  rw [deallocuvm] at h
  split_ifs at h with hle
  · obtain ⟨-, rfl, -⟩ := (by simpa using h : oldsz = s ∧ d = d' ∧ m = m')
    intro b _
    have := npages_mono hle
    rw [if_neg (by omega)]
  · obtain ⟨⟨d₁, m₁⟩, hloop, he⟩ := Option.map_eq_some_iff.1 h
    obtain ⟨-, rfl, rfl⟩ := (by simpa using he : newsz = s ∧ d₁ = d' ∧ m₁ = m')
    have hn : newsz ≤ KERNBASE := UInt32.le_trans (UInt32.le_of_lt (UInt32.not_le.1 hle)) ho
    rw [pageOf_pgRoundUp hn] at hloop
    exact pte?_deallocLoop hloop (by omega) ((npages_le ho).trans (by decide))

end Xv6.Uvm
