import Mathlib.Algebra.BigOperators.Fin
import Xv6.Vm.Tables

/-!
# The pages that the functions of vm.c take and give back

For each function, what is owned before and after it, the pages `F` of others being left
alone: a function that succeeds keeps what it was given and the pages it took are those of the
directory it returns, and one that fails has given back what it took.
-/

namespace Xv6.Vm

open Kmem

variable {T F own : Multiset Addr} {v : Addr} {k k' : Kmem} {d d' : Pgdir} {a b fuel stop : ℕ}
  {u r : Bool}

/-! ## Mapping -/

theorem owns_walk (h : Owns T k (d.pages + F)) :
    Owns T (walkpgdirAlloc d a k).2.2 ((walkpgdirAlloc d a k).2.1.pages + F) := by
  unfold walkpgdirAlloc
  rcases h.kalloc with ⟨hk, ho⟩ | ⟨hk, ho⟩
  · split_ifs
    · exact h
    · exact ho
  · rw [if_neg hk]
    split_ifs with hd
    · exact h
    · refine ho.of_eq ?_
      rw [Pgdir.pages_addTab (by simpa using hd), Multiset.cons_add]

/-- `mappages` passes the page to the directory, or leaves it to the caller. -/
theorem owns_mappages (h : Owns T k (d.pages + (v ::ₘ F)))
    (hm : mappages d a v u k = some (r, d', k')) :
    Owns T k' (d'.pages + if r then F else v ::ₘ F) := by
  have ho := owns_walk (a := a) h
  have ht := hasTab_walk (d := d) (a := a) (k := k)
  unfold mappages at hm
  generalize walkpgdirAlloc d a k = x at hm ho ht
  obtain ⟨_ | _, d₁, k₁⟩ := x
  · obtain ⟨rfl, rfl, rfl⟩ := (by simpa using hm : false = r ∧ d₁ = d' ∧ k₁ = k')
    exact ho
  · simp only [Option.ite_none_left_eq_some, Option.some.injEq, Prod.mk.injEq] at hm
    obtain ⟨hn, rfl, rfl, rfl⟩ := hm
    have hn : d₁.pte? a = none := by simpa using hn
    refine ho.of_eq ?_
    have := Pgdir.pages_setPte (d := d₁) (a := a) (x := some ⟨v, u⟩) ((ht rfl _).2 (.inr rfl))
    rw [hn, mapped_none, add_zero, mapped_some] at this
    rw [if_pos rfl, this, add_assoc, Multiset.singleton_add]

/-! ## Unmapping -/

theorem exists_deallocLoop (stop fuel a : ℕ) (h : Owns T k (d.pages + F)) : ∃ d' k',
    deallocLoop stop fuel a d k = some (d', k') ∧ Owns T k' (d'.pages + F) := by
  induction fuel generalizing a d k with
  | zero => exact ⟨d, k, rfl, h⟩
  | succ fuel ih =>
    rw [deallocLoop, walkpgdir_eq]
    split_ifs with hs htab
    · exact ⟨d, k, rfl, h⟩
    · cases hp : d.pte? a with
      | none => exact ih _ h
      | some p =>
        have hpages := Pgdir.pages_setPte (x := none) htab
        rw [hp, mapped_some, mapped_none, add_zero] at hpages
        -- The page of the entry is freed, and the others are kept.
        have ho : Owns T k (p.page ::ₘ ((d.setPte a none).pages + F)) := h.of_eq (by
          rw [← hpages, add_right_comm, Multiset.add_comm _ {p.page}, Multiset.singleton_add])
        obtain ⟨k₁, hk, ho₁⟩ := ho.kfree
        obtain ⟨d', k', hd, ho'⟩ := ih (a + 1) ho₁
        refine ⟨d', k', ?_, ho'⟩
        have hv := (ho.isPage_of_mem (v := p.page) (by simp)).v2p_ne_zero
        simp only [if_neg hv, HasPages.kfree, hk, Option.bind_some]
        exact hd
    · exact ih _ h

/-- `deallocuvm` clears the entries of the pages from `newsz` to `oldsz`, and frees them. -/
theorem exists_deallocuvm (oldsz newsz : UInt32) (h : Owns T k (d.pages + F))
    (ho : oldsz ≤ KERNBASE) (hlt : newsz < oldsz) : ∃ d' k',
    deallocuvm d oldsz newsz k = some (newsz, d', k') ∧ Owns T k' (d'.pages + F) ∧
      (∀ b < NPAGES, d'.pte? b =
        if npages newsz ≤ b ∧ b < npages oldsz then none else d.pte? b) ∧
      (∀ i, d'.hasTab i = d.hasTab i) ∧ d'.page = d.page := by
  have hn : newsz ≤ KERNBASE := UInt32.le_trans (UInt32.le_of_lt hlt) ho
  have hle := npages_le ho
  obtain ⟨d', k', hd, hown⟩ := exists_deallocLoop (npages oldsz)
    (npages oldsz - npages newsz) (npages newsz) h
  refine ⟨d', k', ?_, hown, deallocLoop_spec hd (by omega)
    (by simp only [NPAGES, NUSER] at *; omega)⟩
  rw [deallocuvm, if_neg (UInt32.not_le.2 hlt), pageOf_pgRoundUp hn, hd]
  rfl

/-- The pages of the page tables. -/
def tabPages (d : Pgdir) (l : List (Fin NPDENTRIES)) : List Addr :=
  l.filterMap fun i => (d.pde i).map Pgtab.page

theorem exists_freeTabs {l : List (Fin NPDENTRIES)}
    (h : Owns T k ((tabPages d l : Multiset Addr) + F)) :
    ∃ k', freeTabs d l k = some k' ∧ Owns T k' F := by
  induction l generalizing k with
  | nil => exact ⟨k, rfl, h.of_eq (by simp [tabPages])⟩
  | cons i l ih =>
    rw [freeTabs]
    cases hd : d.pde i with
    | none => exact ih (h.of_eq (by simp [tabPages, hd]))
    | some t =>
      have ho : Owns T k (t.page ::ₘ ((tabPages d l : Multiset Addr) + F)) :=
        h.of_eq (by simp [tabPages, hd, ← Multiset.cons_coe])
      obtain ⟨k₁, hk, ho₁⟩ := ho.kfree
      obtain ⟨k', hk', ho'⟩ := ih ho₁
      exact ⟨k', by simp [hk, hk'], ho'⟩

/-- A directory without entries holds its own page and those of its page tables. -/
theorem pages_of_empty (h : ∀ b < NPAGES, d.pte? b = none) :
    d.pages = d.page ::ₘ (tabPages d (List.finRange _) : Multiset Addr) := by
  have hpte : ∀ i t, d.pde i = some t → t.pages = {t.page} := fun i t ht => by
    have hnone : t.pte = fun _ => none := by
      funext j
      obtain ⟨b, hb, rfl, rfl⟩ := exists_page i j
      simpa [Pgdir.pte?, ht] using h b hb
    rw [Pgtab.pages, hnone, held_none]
    rfl
  have hlist : ∀ l : List (Fin NPDENTRIES),
      (l.map fun i => (d.pde i).elim 0 Pgtab.pages).sum = (tabPages d l : Multiset Addr) := by
    intro l
    induction l with
    | nil => rfl
    | cons i l ih =>
      rw [List.map_cons, List.sum_cons, ih]
      cases hd : d.pde i with
      | none => simp [tabPages, hd]
      | some t => simp [tabPages, hd, hpte i t hd, ← Multiset.cons_coe]
  rw [Pgdir.pages, held, Fin.sum_univ_def, hlist]

/-- `freevm` gives all pages of a directory back, if it has no entries for kernel memory. -/
theorem exists_freevm (h : Owns T k (d.pages + F))
    (hk : ∀ b < NPAGES, NUSER ≤ b → d.pte? b = none) :
    ∃ k', freevm d k = some k' ∧ Owns T k' F := by
  obtain ⟨d', k₁, hd, ho, hpte, -, -⟩ := exists_deallocuvm KERNBASE 0 h
    (UInt32.le_refl _) (by decide)
  have hempty : ∀ b < NPAGES, d'.pte? b = none := fun b hb => by
    rw [hpte b hb]
    split_ifs with hlt
    · rfl
    · refine hk b hb (not_lt.1 fun hu => hlt ⟨?_, ?_⟩)
      · simp [npages]
      · exact hu
  rw [pages_of_empty hempty, Multiset.cons_add, ← Multiset.add_cons] at ho
  obtain ⟨k₂, hk₂, ho₂⟩ := exists_freeTabs ho
  obtain ⟨k₃, hk₃, ho₃⟩ := ho₂.kfree
  refine ⟨k₃, ?_, ho₃⟩
  simp only [freevm, hd, hk₂, hk₃, Option.bind_some]

/-! ## Kernel memory -/

/-- What `setupkvm` maps: no entry changes, and the page tables at `l` are added to those that
    are there. -/
theorem mapKernel_spec {l : List ℕ} (h : Owns T k (d.pages + F)) (hl : ∀ i ∈ l, i < NPDENTRIES)
    (hm : mapKernel l d k = (r, d', k')) :
    Owns T k' (d'.pages + F) ∧ Widens d d' ∧
      (r = true → ∀ i : Fin NPDENTRIES, d'.hasTab i ↔ d.hasTab i ∨ i.val ∈ l) := by
  induction l generalizing d k with
  | nil =>
    obtain ⟨rfl, rfl, rfl⟩ := (by simpa [mapKernel] using hm : true = r ∧ d = d' ∧ k = k')
    exact ⟨h, ⟨fun _ => rfl, fun _ h => h⟩, fun _ i => by simp⟩
  | cons j l ih =>
    have ho := owns_walk (a := j * NPTENTRIES) h
    have hw := widens_walk d (j * NPTENTRIES) k
    have ht := hasTab_walk (d := d) (a := j * NPTENTRIES) (k := k)
    rw [mapKernel] at hm
    generalize walkpgdirAlloc d (j * NPTENTRIES) k = x at hm ho hw ht
    obtain ⟨_ | _, d₁, k₁⟩ := x
    · obtain ⟨rfl, rfl, rfl⟩ := (by simpa using hm : false = r ∧ d₁ = d' ∧ k₁ = k')
      exact ⟨ho, hw, nofun⟩
    · obtain ⟨ho', hw', htab⟩ := ih ho (fun i hi => hl i (List.mem_cons_of_mem _ hi)) hm
      refine ⟨ho', ⟨fun b => (hw'.pte? b).trans (hw.pte? b), fun i hi =>
        hw'.hasTab i (hw.hasTab i hi)⟩, fun hr i => ?_⟩
      have hj : i = pdx (j * NPTENTRIES) ↔ i.val = j := by
        have := hl j List.mem_cons_self
        simp only [pdx, Fin.ofNat, Fin.ext_iff, NPTENTRIES, NPDENTRIES] at *
        omega
      rw [htab hr i, ht rfl i, hj, List.mem_cons, or_assoc]

theorem kmapPdx_lt : ∀ i ∈ kmapPdx, i < NPDENTRIES := by decide

/-- `setupkvm` gives a directory without entries, whose page tables are those of the kernel
    mappings, or gives everything back. -/
theorem setupkvm_spec {x : Option Pgdir} (h : Owns T k F) (hs : setupkvm k = some (x, k')) :
    Owns T k' (x.elim 0 Pgdir.pages + F) ∧ ∀ d, x = some d → (∀ b, d.pte? b = none) ∧
      ∀ i : Fin NPDENTRIES, d.hasTab i ↔ i.val ∈ kmapPdx := by
  unfold setupkvm at hs
  rcases h.kalloc with ⟨hk, ho⟩ | ⟨hk, ho⟩
  · rw [if_pos hk] at hs
    obtain ⟨rfl, rfl⟩ := (by simpa using hs : none = x ∧ (kalloc k).2 = k')
    exact ⟨ho.of_eq (by simp), nofun⟩
  · rw [if_neg hk] at hs
    have ho₁ : Owns T (kalloc k).2 (Pgdir.pages { page := (kalloc k).1 } + F) :=
      ho.of_eq (by rw [Pgdir.pages_mk, Multiset.singleton_add])
    generalize hm : mapKernel kmapPdx { page := (kalloc k).1 } (kalloc k).2 = y at hs
    obtain ⟨r, d₁, k₁⟩ := y
    obtain ⟨ho₂, hw, htab⟩ := mapKernel_spec ho₁ kmapPdx_lt hm
    cases r with
    | false =>
      obtain ⟨k₂, hk₂, he⟩ := Option.map_eq_some_iff.1 hs
      obtain ⟨rfl, rfl⟩ := (by simpa using he : none = x ∧ k₂ = k')
      obtain ⟨k₃, hk₃, ho₃⟩ := exists_freevm ho₂ fun b _ _ => hw.pte? b
      obtain rfl := Option.some.inj (hk₂.symm.trans hk₃)
      exact ⟨ho₃.of_eq (by simp), nofun⟩
    | true =>
      obtain ⟨rfl, rfl⟩ := (by simpa using hs : some d₁ = x ∧ k₁ = k')
      refine ⟨ho₂.of_eq (by rw [Option.elim_some]), fun d hd => ?_⟩
      obtain rfl := Option.some.inj hd
      refine ⟨hw.pte?, fun i => (htab rfl i).trans ?_⟩
      exact or_iff_right (by simp [Pgdir.hasTab])

/-! ## User memory -/

/-- Only entries from the page `lo` to the page `hi` change, and no page table is lost. -/
structure Within (d d' : Pgdir) (lo hi : ℕ) : Prop where
  pte? : ∀ b < NPAGES, b < lo ∨ hi ≤ b → d'.pte? b = d.pte? b
  hasTab : ∀ i, d.hasTab i → d'.hasTab i

theorem Within.refl (d : Pgdir) (lo hi : ℕ) : Within d d lo hi := ⟨fun _ _ _ => rfl, fun _ h => h⟩

theorem Within.trans {d₁ d₂ : Pgdir} {lo hi : ℕ} (h : Within d d₁ lo hi) (h' : Within d₁ d₂ lo hi) :
    Within d d₂ lo hi :=
  ⟨fun b hb hlo => (h'.pte? b hb hlo).trans (h.pte? b hb hlo), fun i hi => h'.hasTab i
    (h.hasTab i hi)⟩

/-- `allocuvm` takes back the pages it mapped when it fails. -/
theorem exists_undo {oldsz newsz : UInt32} (h : Owns T k (d.pages + F)) (hn : newsz < KERNBASE)
    (hlt : oldsz < newsz) : ∃ d' k', deallocuvm d newsz oldsz k = some (oldsz, d', k') ∧
      Owns T k' (d'.pages + F) ∧ Within d d' (npages oldsz) (npages newsz) ∧
      ∀ b, npages oldsz ≤ b → b < npages newsz → d'.pte? b = none := by
  obtain ⟨d', k', hd, ho, hpte, htab, -⟩ := exists_deallocuvm newsz oldsz h (UInt32.le_of_lt hn) hlt
  refine ⟨d', k', hd, ho, ⟨fun b hb hout => ?_, fun i hi => (htab i).trans hi⟩, fun b hlo hhi => ?_⟩
  · rw [hpte b hb, if_neg (by omega)]
  · have hle := npages_le (UInt32.le_of_lt hn)
    rw [hpte b (by simp only [NPAGES, NUSER] at *; omega), if_pos ⟨hlo, hhi⟩]

theorem allocLoop_spec {oldsz newsz s : UInt32} {l : List ℕ} (h : Owns T k (d.pages + F))
    (hn : newsz < KERNBASE) (hl : ∀ a ∈ l, npages oldsz ≤ a ∧ a < npages newsz)
    (hr : allocLoop oldsz newsz l d k = some (s, d', k')) :
    Owns T k' (d'.pages + F) ∧ Within d d' (npages oldsz) (npages newsz) ∧
      (s = newsz ∧ (∀ b < NPAGES, (d'.pte? b).isSome ↔ (d.pte? b).isSome ∨ b ∈ l) ∨
        s = 0 ∧ ∀ b, npages oldsz ≤ b → b < npages newsz → d'.pte? b = none) := by
  induction l generalizing d k with
  | nil =>
    obtain ⟨rfl, rfl, rfl⟩ := (by simpa [allocLoop] using hr : newsz = s ∧ d = d' ∧ k = k')
    exact ⟨h, .refl _ _ _, .inl ⟨rfl, by simp⟩⟩
  | cons a l ih =>
    obtain ⟨hlo, hhi⟩ := hl a List.mem_cons_self
    have hlt : oldsz < newsz := by
      refine UInt32.not_le.1 fun hle => ?_
      have := npages_mono hle
      omega
    have ha : a < NPAGES := by
      have := npages_le (UInt32.le_of_lt hn)
      simp only [NPAGES, NUSER] at *
      omega
    simp only [allocLoop, HasPages.kalloc, HasPages.kfree, HasPages.memset, HasPages.mappages]
      at hr
    rcases h.kalloc with ⟨hk, ho⟩ | ⟨hk, ho⟩
    · rw [if_pos hk] at hr
      obtain ⟨d₁, k₁, hd, ho₁, hw, hnone⟩ := exists_undo ho hn hlt
      rw [hd] at hr
      obtain ⟨rfl, rfl, rfl⟩ := (by simpa using hr : 0 = s ∧ d₁ = d' ∧ k₁ = k')
      exact ⟨ho₁, hw, .inr ⟨rfl, hnone⟩⟩
    rw [if_neg hk] at hr
    obtain ⟨⟨r, d₁, k₁⟩, hm, hr⟩ := Option.bind_eq_some_iff.1 hr
    have ho₁ := owns_mappages (F := F) (ho.of_eq (Multiset.add_cons _ _ _)) hm
    rcases mappages_cases hm ha with ⟨rfl, hnone, hpte, htab⟩ | ⟨rfl, hw⟩
    · have hw₁ : Within d d₁ (npages oldsz) (npages newsz) :=
        ⟨fun b hb hout => by rw [hpte b hb, if_neg (by omega)], htab⟩
      obtain ⟨ho', hw', hcase⟩ := ih (by simpa using ho₁)
        (fun a ha => hl a (List.mem_cons_of_mem _ ha)) hr
      refine ⟨ho', hw₁.trans hw', hcase.imp_left fun ⟨hs, hmap⟩ => ⟨hs, fun b hb => ?_⟩⟩
      rw [hmap b hb, hpte b hb, List.mem_cons]
      by_cases hba : b = a <;> simp [hba]
    · have hw₁ : Within d d₁ (npages oldsz) (npages newsz) :=
        ⟨fun b _ _ => hw.pte? b, hw.hasTab⟩
      obtain ⟨d₂, k₂, hd, ho₂, hw₂, hnone⟩ := exists_undo ho₁ hn hlt
      rw [if_neg (by simp), Multiset.add_cons] at ho₂
      obtain ⟨k₃, hk₃, ho₃⟩ := ho₂.kfree
      simp only [hd, hk₃, Option.bind_some, Option.map_some, Option.some.injEq, Prod.mk.injEq] at hr
      obtain ⟨rfl, rfl, rfl⟩ := hr
      exact ⟨ho₃, hw₁.trans hw₂, .inr ⟨rfl, hnone⟩⟩

/-- What `allocuvm` from `oldsz` to `newsz` makes of a directory. -/
inductive Allocs (d : Pgdir) (oldsz newsz : UInt32) : UInt32 → Pgdir → Prop
  /-- There is no room, or no memory. -/
  | fail {d' : Pgdir} (hw : Within d d' (npages oldsz) (npages newsz))
      (hn : newsz < KERNBASE → ∀ b, npages oldsz ≤ b → b < npages newsz → d'.pte? b = none)
      (hd : KERNBASE ≤ newsz → d' = d) : Allocs d oldsz newsz 0 d'
  | keep (h : newsz < oldsz) : Allocs d oldsz newsz oldsz d
  | grow {d' : Pgdir} (ho : oldsz ≤ newsz) (hn : newsz < KERNBASE)
      (hw : Within d d' (npages oldsz) (npages newsz))
      (hp : ∀ b < NPAGES, (d'.pte? b).isSome ↔
        (d.pte? b).isSome ∨ npages oldsz ≤ b ∧ b < npages newsz) : Allocs d oldsz newsz newsz d'

theorem allocuvm_spec {oldsz newsz s : UInt32} (h : Owns T k (d.pages + F))
    (hr : allocuvm d oldsz newsz k = some (s, d', k')) :
    Owns T k' (d'.pages + F) ∧ Allocs d oldsz newsz s d' := by
  unfold allocuvm at hr
  split_ifs at hr with hn ho
  · obtain ⟨rfl, rfl, rfl⟩ := (by simpa using hr : 0 = s ∧ d = d' ∧ k = k')
    exact ⟨h, .fail (.refl _ _ _) (fun hlt => absurd hn (UInt32.not_le.2 hlt)) fun _ => rfl⟩
  · obtain ⟨rfl, rfl, rfl⟩ := (by simpa using hr : oldsz = s ∧ d = d' ∧ k = k')
    exact ⟨h, .keep ho⟩
  · have hn := UInt32.not_le.1 hn
    have ho := UInt32.not_lt.1 ho
    rw [pageOf_pgRoundUp (UInt32.le_trans ho (UInt32.le_of_lt hn))] at hr
    have hmem : ∀ b, b ∈ List.range' (npages oldsz) (npages newsz - npages oldsz) ↔
        npages oldsz ≤ b ∧ b < npages newsz := fun b => by
      rw [List.mem_range'_1]
      omega
    obtain ⟨hown, hw, ⟨rfl, hp⟩ | ⟨rfl, hnone⟩⟩ :=
      allocLoop_spec h hn (fun a ha => (hmem a).1 ha) hr
    · exact ⟨hown, .grow ho hn hw fun b hb => (hp b hb).trans (or_congr_right (hmem b))⟩
    · exact ⟨hown, .fail hw (fun _ => hnone) fun hle => absurd hn (UInt32.not_lt.2 hle)⟩

/-! ## Copying -/

/-- A directory without entries for kernel memory, which `freevm` can free. -/
def Pgdir.Kern (d : Pgdir) : Prop := ∀ b < NPAGES, NUSER ≤ b → d.pte? b = none

/-- `copyuvm` gives a directory with entries for the pages it copies, or gives everything back. -/
theorem copyLoop_spec {l : List ℕ} {c : Pgdir} {x : Option Pgdir} (h : Owns T k (c.pages + F))
    (hc : c.Kern) (hl : ∀ a ∈ l, a < NUSER) (hr : copyLoop d l c k = some (x, k')) :
    Owns T k' (x.elim 0 Pgdir.pages + F) ∧ ∀ c', x = some c' →
      ∀ b < NPAGES, (c'.pte? b).isSome ↔ (c.pte? b).isSome ∨ b ∈ l := by
  induction l generalizing c k with
  | nil =>
    obtain ⟨rfl, rfl⟩ := (by simpa [copyLoop] using hr : some c = x ∧ k = k')
    refine ⟨h.of_eq (by rw [Option.elim_some]), fun c' hc' b _ => ?_⟩
    obtain rfl := Option.some.inj hc'
    simp
  | cons a l ih =>
    have ha : a < NPAGES := (hl a List.mem_cons_self).trans (by decide)
    rw [copyLoop, walkpgdir_eq] at hr
    split_ifs at hr
    cases hp : d.pte? a with
    | none => rw [hp] at hr; cases hr
    | some p =>
      rw [hp] at hr
      simp only at hr
      rcases h.kalloc with ⟨hk, ho⟩ | ⟨hk, ho⟩
      · rw [if_pos hk] at hr
        obtain ⟨k₁, hk₁, ho₁⟩ := exists_freevm ho hc
        rw [hk₁] at hr
        obtain ⟨rfl, rfl⟩ := (by simpa using hr : none = x ∧ k₁ = k')
        exact ⟨ho₁.of_eq (by simp), nofun⟩
      rw [if_neg hk] at hr
      obtain ⟨⟨r, c₁, k₁⟩, hm, hr⟩ := Option.bind_eq_some_iff.1 hr
      have ho₁ := owns_mappages (F := F) (ho.of_eq (Multiset.add_cons _ _ _)) hm
      rcases mappages_cases hm ha with ⟨rfl, -, hpte, -⟩ | ⟨rfl, hw⟩
      · have hc₁ : c₁.Kern := fun b hb hu => by
          have hne : b ≠ a := fun he => absurd (hl a List.mem_cons_self) (he ▸ not_lt.2 hu)
          rw [hpte b hb, if_neg hne, hc b hb hu]
        obtain ⟨ho', hmap⟩ := ih (by simpa using ho₁) hc₁
          (fun a ha => hl a (List.mem_cons_of_mem _ ha)) hr
        refine ⟨ho', fun c' hc' b hb => ?_⟩
        rw [hmap c' hc' b hb, hpte b hb, List.mem_cons]
        by_cases hba : b = a <;> simp [hba]
      · rw [if_neg (by simp), Multiset.add_cons] at ho₁
        obtain ⟨k₂, hk₂, ho₂⟩ := ho₁.kfree
        obtain ⟨k₃, hk₃, ho₃⟩ := exists_freevm ho₂ fun b hb hu => (hw.pte? b).trans (hc b hb hu)
        simp only [hk₂, hk₃, Option.bind_some, Option.map_some, Option.some.injEq,
          Prod.mk.injEq] at hr
        obtain ⟨rfl, rfl⟩ := hr
        exact ⟨ho₃.of_eq (by simp), nofun⟩

theorem copyuvm_spec {sz : UInt32} {x : Option Pgdir} (h : Owns T k F) (hsz : sz ≤ KERNBASE)
    (hr : copyuvm d sz k = some (x, k')) :
    Owns T k' (x.elim 0 Pgdir.pages + F) ∧ ∀ c, x = some c →
      ∀ b < NPAGES, (c.pte? b).isSome ↔ b < npages sz := by
  unfold copyuvm at hr
  obtain ⟨⟨_ | c, k₁⟩, hs, hr⟩ := Option.bind_eq_some_iff.1 hr
  · obtain ⟨rfl, rfl⟩ := (by simpa using hr : none = x ∧ k₁ = k')
    exact ⟨(setupkvm_spec h hs).1, nofun⟩
  · obtain ⟨ho, hc⟩ := setupkvm_spec h hs
    obtain ⟨hpte, -⟩ := hc c rfl
    have hle := npages_le hsz
    obtain ⟨ho', hmap⟩ := copyLoop_spec (ho.of_eq (by rw [Option.elim_some])) (fun b _ _ => hpte b)
      (fun a ha => (List.mem_range.1 ha).trans_le hle) hr
    refine ⟨ho', fun c' hc' b hb => ?_⟩
    rw [hmap c' hc' b hb, hpte b, List.mem_range]
    simp

/-- `copyuvm` does not panic if the pages it copies are there. -/
theorem copyLoop_ne_none {l : List ℕ} {c : Pgdir} (h : Owns T k (c.pages + F)) (hc : c.Kern)
    (hl : ∀ a ∈ l, a < NUSER ∧ (d.pte? a).isSome ∧ c.pte? a = none) (hn : l.Nodup) :
    copyLoop d l c k ≠ none := by
  induction l generalizing c k with
  | nil => simp [copyLoop]
  | cons a l ih =>
    obtain ⟨hlt, hd, hca⟩ := hl a List.mem_cons_self
    obtain ⟨p, hp⟩ := Option.isSome_iff_exists.1 hd
    have ha : a < NPAGES := hlt.trans (by decide)
    rw [copyLoop, walkpgdir_eq, if_pos (Pgdir.hasTab_of_pte? hd), hp]
    simp only
    rcases h.kalloc with ⟨hk, ho⟩ | ⟨hk, ho⟩
    · rw [if_pos hk]
      obtain ⟨k₁, hk₁, -⟩ := exists_freevm ho hc
      simp [hk₁]
    rw [if_neg hk]
    obtain ⟨⟨r, c₁, k₁⟩, hm⟩ := Option.ne_none_iff_exists'.1
      (mappages_ne_none (v := (kalloc k).1) (u := p.user) (k := (kalloc k).2) hca)
    rw [hm, Option.bind_some]
    have ho₁ := owns_mappages (F := F) (ho.of_eq (Multiset.add_cons _ _ _)) hm
    rcases mappages_cases hm ha with ⟨rfl, -, hpte, -⟩ | ⟨rfl, hw⟩
    · have hne : ∀ b ∈ l, b ≠ a := fun b hb he => (List.nodup_cons.1 hn).1 (he ▸ hb)
      refine ih (by simpa using ho₁) (fun b hb hu => ?_) (fun b hb => ?_) (List.nodup_cons.1 hn).2
      · rw [hpte b hb, if_neg (by omega), hc b hb hu]
      · obtain ⟨h₁, h₂, h₃⟩ := hl b (List.mem_cons_of_mem _ hb)
        exact ⟨h₁, h₂, by rw [hpte b (h₁.trans (by decide)), if_neg (hne b hb), h₃]⟩
    · rw [if_neg (by simp), Multiset.add_cons] at ho₁
      obtain ⟨k₂, hk₂, ho₂⟩ := ho₁.kfree
      obtain ⟨k₃, hk₃, -⟩ := exists_freevm ho₂ fun b hb hu => (hw.pte? b).trans (hc b hb hu)
      simp [hk₂, hk₃]

theorem setupkvm_ne_none (h : Owns T k F) : setupkvm k ≠ none := by
  unfold setupkvm
  rcases h.kalloc with ⟨hk, -⟩ | ⟨hk, ho⟩
  · simp [hk]
  rw [if_neg hk]
  have ho₁ : Owns T (kalloc k).2 (Pgdir.pages { page := (kalloc k).1 } + F) :=
    ho.of_eq (by rw [Pgdir.pages_mk, Multiset.singleton_add])
  generalize hm : mapKernel kmapPdx { page := (kalloc k).1 } (kalloc k).2 = y
  obtain ⟨_ | _, d₁, k₁⟩ := y
  · obtain ⟨ho₂, hw, -⟩ := mapKernel_spec ho₁ kmapPdx_lt hm
    obtain ⟨k₂, hk₂, -⟩ := exists_freevm ho₂ fun b _ _ => hw.pte? b
    simp [hk₂]
  · simp

theorem copyuvm_ne_none {sz : UInt32} (h : Owns T k F) (hsz : sz ≤ KERNBASE)
    (hd : ∀ a < npages sz, (d.pte? a).isSome) : copyuvm d sz k ≠ none := by
  obtain ⟨⟨_ | c, k₁⟩, hs⟩ := Option.ne_none_iff_exists'.1 (setupkvm_ne_none h)
  · simp [copyuvm, hs]
  · obtain ⟨ho, hc⟩ := setupkvm_spec h hs
    obtain ⟨hpte, -⟩ := hc c rfl
    have hle := npages_le hsz
    rw [copyuvm, hs]
    refine copyLoop_ne_none (ho.of_eq (by rw [Option.elim_some])) (fun b _ _ => hpte b)
      (fun a ha => ?_) List.nodup_range
    rw [List.mem_range] at ha
    exact ⟨ha.trans_le hle, hd a ha, hpte a⟩

end Xv6.Vm
