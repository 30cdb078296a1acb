import Mathlib.Data.Finset.Card
import Xv6.Uvm.Alloc

/-!
# Copying user memory

`setupkvm` makes the mappings of kernel memory page by page; what it takes is what it would take to
make the page tables one by one, as in `Xv6.Vm` (`erase_mapKernel`). `copyuvm` gives a directory
with the same pages, in frames that were free, or gives everything back (`copyuvm_exact`).
-/

namespace Xv6.Uvm

open Vm Kmem

variable {T F own : Multiset Addr} {v : Addr} {k : Kmem} {c c' d d' : Pgdir} {m m' : Ram}
  {a b n fuel stop : ℕ} {pa perm sz oldsz newsz s : UInt32} {r : Bool} {l : List ℕ}
  {x : Option Pgdir}

/-! ## Page tables of kernel memory -/

section Tables

variable {i : ℕ} {l₁ l₂ : List ℕ}

/-- Two lists of indices with which `mapKernel` does the same. -/
def SameTabs (l₁ l₂ : List ℕ) : Prop := ∀ d k, Vm.mapKernel l₁ d k = Vm.mapKernel l₂ d k

theorem mapKernel_append (l₁ l₂ : List ℕ) (d : Vm.Pgdir) (k : Kmem) :
    Vm.mapKernel (l₁ ++ l₂) d k = match Vm.mapKernel l₁ d k with
      | (false, d, k) => (false, d, k)
      | (true, d, k) => Vm.mapKernel l₂ d k := by
  induction l₁ generalizing d k with
  | nil => rfl
  | cons i l₁ ih =>
    rw [List.cons_append, Vm.mapKernel, Vm.mapKernel]
    generalize Vm.walkpgdirAlloc d (i * NPTENTRIES) k = y
    obtain ⟨_ | _, d₁, k₁⟩ := y
    · rfl
    · exact ih ..

theorem SameTabs.append {l₁' l₂' : List ℕ} (h₁ : SameTabs l₁ l₁') (h₂ : SameTabs l₂ l₂') :
    SameTabs (l₁ ++ l₂) (l₁' ++ l₂') := fun d k => by
  rw [mapKernel_append, mapKernel_append, h₁]
  generalize Vm.mapKernel l₁' d k = y
  obtain ⟨_ | _, d₁, k₁⟩ := y
  · rfl
  · exact h₂ ..

/-- A page table that is there is found. -/
theorem sameTabs_cons_self (i : ℕ) (l : List ℕ) : SameTabs (i :: i :: l) (i :: l) := fun d k => by
  rw [Vm.mapKernel, Vm.mapKernel]
  have htab := Vm.hasTab_walk (d := d) (a := i * NPTENTRIES) (k := k)
  generalize Vm.walkpgdirAlloc d (i * NPTENTRIES) k = y at htab
  obtain ⟨_ | _, d₁, k₁⟩ := y
  · rfl
  · have hsome : (d₁.pde (pdx (i * NPTENTRIES))).isSome := (htab rfl _).2 (.inr rfl)
    dsimp only
    rw [Vm.mapKernel, Vm.walkpgdirAlloc, if_pos hsome]

/-- Page by page, the same page tables are come to as one by one. -/
theorem sameTabs_range' (a n : ℕ) : SameTabs ((List.range' a (n + 1)).map (· / NPTENTRIES))
    (List.range' (a / NPTENTRIES) ((a + n) / NPTENTRIES + 1 - a / NPTENTRIES)) := by
  induction n generalizing a with
  | zero =>
    have hone : (a + 0) / NPTENTRIES + 1 - a / NPTENTRIES = 1 := Nat.add_sub_cancel_left _ _
    rw [hone]
    exact fun _ _ => rfl
  | succ n ih =>
    have hcons : SameTabs ([a / NPTENTRIES] ++ (List.range' (a + 1) (n + 1)).map (· / NPTENTRIES))
      ([a / NPTENTRIES] ++ List.range' ((a + 1) / NPTENTRIES)
        ((a + 1 + n) / NPTENTRIES + 1 - (a + 1) / NPTENTRIES)) :=
        .append (fun _ _ => rfl) (ih (a + 1))
    have hend : a + 1 + n = a + (n + 1) := by omega
    rw [hend] at hcons
    obtain ⟨c, hc⟩ : ∃ c, (a + (n + 1)) / NPTENTRIES + 1 - (a + 1) / NPTENTRIES = c + 1 := by
      refine ⟨(a + (n + 1)) / NPTENTRIES - (a + 1) / NPTENTRIES, ?_⟩
      have := Nat.div_le_div_right (c := NPTENTRIES) (show a + 1 ≤ a + (n + 1) by omega)
      omega
    by_cases hsame : (a + 1) / NPTENTRIES = a / NPTENTRIES
    · rw [hc, hsame] at hcons
      rw [← hsame, hc, hsame]
      refine fun d k => (hcons d k).trans ?_
      rw [List.range'_succ]
      exact sameTabs_cons_self _ _ d k
    · have hnext : (a + 1) / NPTENTRIES = a / NPTENTRIES + 1 := by
        simp only [NPTENTRIES] at *
        omega
      rw [hnext] at hcons hc
      have hlen : (a + (n + 1)) / NPTENTRIES + 1 - a / NPTENTRIES = c + 1 + 1 := by omega
      rw [hlen, List.range'_succ]
      rw [hc] at hcons
      exact hcons

/-- The page tables of the pages that `setupkvm` maps. -/
def kmapTabs (l : List Kmap) : List ℕ :=
  l.flatMap fun k => (List.range' k.first k.count).map (· / NPTENTRIES)

theorem sameTabs_kmap : SameTabs (kmapTabs kmap) kmapPdx := by
  have h₁ : SameTabs ((List.range' 524288 256).map (· / NPTENTRIES)) (List.range' 512 1) :=
    sameTabs_range' 524288 255
  have h₂ : SameTabs ((List.range' 524544 9).map (· / NPTENTRIES)) (List.range' 512 1) :=
    sameTabs_range' 524544 8
  have h₃ : SameTabs ((List.range' 524553 57079).map (· / NPTENTRIES)) (List.range' 512 56) :=
    sameTabs_range' 524553 57078
  have h₄ : SameTabs ((List.range' 1040384 8192).map (· / NPTENTRIES)) (List.range' 1016 8) :=
    sameTabs_range' 1040384 8191
  have hnil : SameTabs [] [] := fun _ _ => rfl
  exact h₁.append (h₂.append (h₃.append (h₄.append hnil)))

end Tables

theorem walkpgdirAlloc_congr {e : Vm.Pgdir} (h : pdx a = pdx b) (k : Kmem) :
    Vm.walkpgdirAlloc e a k = Vm.walkpgdirAlloc e b k := by
  rw [Vm.walkpgdirAlloc, Vm.walkpgdirAlloc, Vm.Pgdir.addTab, Vm.Pgdir.addTab, h]

theorem pdx_div_mul (a : ℕ) : pdx (a / NPTENTRIES * NPTENTRIES) = pdx a := by
  simp only [pdx, NPTENTRIES]
  rw [Nat.mul_div_cancel _ (by decide)]

/-! ## Kernel memory -/

/-- `mappages` of pages of kernel memory that are not mapped. -/
theorem mapLoop_kernel (d : Pgdir) (m : Ram) (pa perm : UInt32) {l : List ℕ}
    (hl : ∀ a ∈ l, NUSER ≤ a ∧ a < NPAGES ∧ d.pte? a = none) (hn : l.Nodup) :
    ∃ r d' m', mapLoop perm l pa d m = some (r, d', m') ∧ m'.page = m.page ∧
      Vm.mapKernel (l.map (· / NPTENTRIES)) d.erase m.kmem = (r, d'.erase, m'.kmem) ∧
      (∀ b < NPAGES, b ∉ l → d'.pte? b = d.pte? b) ∧
      (r = true → ∀ j (hj : j < l.length),
        d'.pte? l[j] = some (.of (pa + PGSIZE * UInt32.ofNat j) perm)) := by
  induction l generalizing d m pa with
  | nil => exact ⟨true, d, m, rfl, rfl, rfl, fun _ _ _ => rfl, fun _ j hj => absurd hj (by simp)⟩
  | cons a l ih =>
    obtain ⟨hlo, hhi, hnone⟩ := hl a List.mem_cons_self
    obtain ⟨hal, hn⟩ := List.nodup_cons.1 hn
    have hw := erase_walkpgdirAlloc d a m
    have hpage := page_walkpgdirAlloc d a m
    have hpte := pte?_walkpgdirAlloc d a m
    have htab := hasTab_walkpgdirAlloc (d := d) (a := a) (m := m)
    rw [mapLoop, List.map_cons, Vm.mapKernel, walkpgdirAlloc_congr (pdx_div_mul a), hw]
    generalize walkpgdirAlloc d a m = y at hpage hpte htab
    obtain ⟨_ | _, d₁, m₁⟩ := y
    · exact ⟨false, d₁, m₁, rfl, hpage, rfl, fun b _ _ => hpte b, by simp⟩
    dsimp only at hpage hpte htab ⊢
    have hset (b : ℕ) (hb : b < NPAGES) : (d₁.setPte a (some (.of pa perm))).pte? b =
        if b = a then some (.of pa perm) else d.pte? b := by
      rw [Pgdir.pte?_setPte (htab rfl) hhi hb, hpte]
    have herase : (d₁.setPte a (some (.of pa perm))).erase = d₁.erase := by
      rw [Pgdir.erase_setPte d₁ _ hhi, if_neg (not_lt.2 hlo)]
    rw [if_neg (by simp [hpte a, hnone])]
    obtain ⟨r, d', m', hr, hpage', hmap, hold, hnew⟩ := ih (d₁.setPte a (some (.of pa perm))) m₁
      (pa + PGSIZE) (fun b hb => by
        obtain ⟨hblo, hbhi, hb'⟩ := hl b (List.mem_cons_of_mem _ hb)
        have hba : b ≠ a := fun he => hal (he ▸ hb)
        exact ⟨hblo, hbhi, by rw [hset b hbhi, if_neg hba, hb']⟩) hn
    rw [herase] at hmap
    refine ⟨r, d', m', hr, hpage'.trans hpage, hmap, fun b hb hbl => ?_, fun hrt j hj => ?_⟩
    · obtain ⟨hba, hbl⟩ := List.ne_and_not_mem_of_not_mem_cons hbl
      rw [hold b hb hbl, hset b hb, if_neg hba]
    · cases j with
      | zero =>
        rw [List.getElem_cons_zero, hold a hhi hal, hset a hhi, if_pos rfl]
        simp
      | succ j =>
        have hstep : pa + PGSIZE + PGSIZE * UInt32.ofNat j = pa + PGSIZE * UInt32.ofNat
            (j + 1) := by
          have hone : PGSIZE * UInt32.ofNat 1 = PGSIZE := by decide
          rw [UInt32.ofNat_add, UInt32.mul_add, hone, UInt32.add_comm (PGSIZE * _),
            UInt32.add_assoc]
        rw [List.getElem_cons_succ, hnew hrt j (by simpa using hj), hstep]

/-- The page `b` is in the mapping. -/
def Kmap.Has (k : Kmap) (b : ℕ) : Prop := k.first ≤ b ∧ b < k.first + k.count

instance (k : Kmap) (b : ℕ) : Decidable (k.Has b) := inferInstanceAs (Decidable (_ ∧ _))

/-- The entry of the page `b`, which is in the mapping. -/
def Kmap.pte (k : Kmap) (b : ℕ) : Pte :=
  .of (k.physStart + PGSIZE * UInt32.ofNat (b - k.first)) k.perm

/-- The entries of kernel memory that `setupkvm` makes. -/
def kernelPte (ks : List Kmap) (b : ℕ) : Option Pte :=
  (ks.find? fun k => k.Has b).map fun k => k.pte b

/-- Mappings of kernel memory, in ascending order. -/
structure Sorted (ks : List Kmap) : Prop where
  kernel : ∀ k ∈ ks, NUSER ≤ k.first ∧ k.first + k.count ≤ NPAGES
  below : ks.Pairwise fun k k' => k.first + k.count ≤ k'.first

theorem sorted_kmap : Sorted kmap := ⟨by decide, by decide⟩

theorem mapKernel_spec {ks : List Kmap} (hs : Sorted ks) (d : Pgdir) (m : Ram)
    (hnone : ∀ k ∈ ks, ∀ b, k.Has b → d.pte? b = none) :
    ∃ r d' m', mapKernel ks d m = some (r, d', m') ∧ m'.page = m.page ∧
      Vm.mapKernel (kmapTabs ks) d.erase m.kmem = (r, d'.erase, m'.kmem) ∧
      (∀ b < NUSER, d'.pte? b = d.pte? b) ∧
      (r = true → ∀ b < NPAGES, d'.pte? b = (kernelPte ks b).or (d.pte? b)) := by
  induction ks generalizing d m with
  | nil => exact ⟨true, d, m, rfl, rfl, rfl, fun _ _ => rfl, fun _ _ _ => rfl⟩
  | cons k ks ih =>
    obtain ⟨hlo, hhi⟩ := hs.kernel k List.mem_cons_self
    obtain ⟨hbelow, hpair⟩ := List.pairwise_cons.1 hs.below
    have hmem (b : ℕ) : b ∈ List.range' k.first k.count ↔ k.Has b := List.mem_range'_1
    obtain ⟨r, d₁, m₁, hr, hpage, hmap, hold, hnew⟩ := mapLoop_kernel d m k.physStart k.perm
      (l := List.range' k.first k.count) (fun a ha => by
        have ha' := (hmem a).1 ha
        exact ⟨hlo.trans ha'.1, ha'.2.trans_le hhi, hnone k List.mem_cons_self a ha'⟩)
          List.nodup_range'
    rw [mapKernel, mappages, hr, Option.bind_some, kmapTabs, List.flatMap_cons, mapKernel_append,
      hmap]
    have huser (b : ℕ) (hb : b < NUSER) : d₁.pte? b = d.pte? b :=
      hold b (hb.trans (by decide)) fun h => absurd ((hmem b).1 h).1 (by omega)
    cases r with
    | false => exact ⟨false, d₁, m₁, rfl, hpage, rfl, huser, nofun⟩
    | true =>
      obtain ⟨r, d', m', hr', hpage', hmap', huser', hnew'⟩ := ih
        ⟨fun k' hk' => hs.kernel k' (List.mem_cons_of_mem _ hk'), hpair⟩ d₁ m₁
        (fun k' hk' b hb => by
          have hk := hbelow k' hk'
          have hle := (hs.kernel k' (List.mem_cons_of_mem _ hk')).2
          rw [hold b (hb.2.trans_le hle) fun h => absurd ((hmem b).1 h).2 (by have := hb.1; omega)]
          exact hnone k' (List.mem_cons_of_mem _ hk') b hb)
      refine ⟨r, d', m', hr', hpage'.trans hpage, hmap', fun b hb => (huser' b hb).trans
        (huser b hb),
        fun hrt b hb => ?_⟩
      rw [hnew' hrt b hb, kernelPte, kernelPte]
      by_cases hkb : k.Has b
      · -- no other mapping has the page
        have hfind : ks.find? (fun k => decide (k.Has b)) = none := by
          rw [List.find?_eq_none]
          intro k' hk' hb'
          have hk := hbelow k' hk'
          have h₁ := hkb.2
          have h₂ := (of_decide_eq_true hb').1
          omega
        obtain ⟨j, rfl⟩ := Nat.exists_eq_add_of_le hkb.1
        have hj : j < (List.range' k.first k.count).length := by
          rw [List.length_range']
          have := hkb.2
          omega
        have hentry := hnew rfl j hj
        rw [List.getElem_range', Nat.one_mul] at hentry
        rw [hfind, List.find?_cons_of_pos (by simpa using hkb), hentry]
        simp [Kmap.pte]
      · rw [List.find?_cons_of_neg (by simpa using hkb), hold b hb fun h => hkb ((hmem b).1 h)]

/-! ## Freeing -/

theorem erase_freeTabs (d : Pgdir) (l : List (Fin NPDENTRIES)) (m : Ram) :
    (freeTabs d l m).map Ram.kmem = Vm.freeTabs d.erase l m.kmem := by
  induction l generalizing m with
  | nil => rfl
  | cons i l ih =>
    have hpde : d.erase.pde i = (d.pde i).map (Pgtab.erase i) := rfl
    rw [freeTabs, Vm.freeTabs, hpde]
    cases d.pde i with
    | none => exact ih m
    | some t =>
      dsimp only [Option.map_some, Pgtab.erase]
      rw [← Ram.erase_kfree, Option.map_bind, Option.bind_map]
      exact congrArg _ (funext ih)

theorem erase_freevm (d : Pgdir) (m : Ram) :
    (freevm d m).map Ram.kmem = Vm.freevm d.erase m.kmem := by
  rw [freevm, Vm.freevm, ← Ram.erase_deallocuvm, ← erase_deallocuvm d 0 m (UInt32.le_refl _),
    Option.map_bind, Option.bind_map, Option.bind_map]
  refine congrArg _ (funext fun y => ?_)
  dsimp only [Function.comp, Prod.map, id_eq]
  rw [← erase_freeTabs, Option.map_bind, Option.bind_map]
  exact congrArg _ (funext fun m₂ => Ram.erase_kfree ..)

theorem page_freeTabs {l : List (Fin NPDENTRIES)} (h : freeTabs d l m = some m')
    (hv : ∀ i, d.tabPage i ≠ some v) : m'.page v = m.page v := by
  induction l generalizing m with
  | nil =>
    obtain rfl := Option.some.inj h
    rfl
  | cons i l ih =>
    rw [freeTabs] at h
    cases ht : d.pde i with
    | none =>
      rw [ht] at h
      exact ih h
    | some t =>
      rw [ht] at h
      obtain ⟨m₁, hfree, h⟩ := Option.bind_eq_some_iff.1 h
      have hne : v ≠ t.page := fun he => hv i (by rw [Pgdir.tabPage, ht, he]; rfl)
      rw [ih h, Ram.page_kfree hfree hne]

/-- `freevm` writes to no page but those of the directory. -/
theorem page_freevm (h : freevm d m = some m') (hv : v ∉ d.pages) : m'.page v = m.page v := by
  rw [Pgdir.mem_pages_iff, not_or, not_or] at hv
  obtain ⟨hpage, htab, hmap⟩ := hv
  obtain ⟨⟨s, d₁, m₁⟩, hd, h⟩ := Option.bind_eq_some_iff.1 h
  obtain ⟨m₂, hfree, h⟩ := Option.bind_eq_some_iff.1 h
  obtain ⟨hpage₁, htab₁⟩ := tabPage_deallocuvm hd
  have hram : Vm.deallocuvm d.erase KERNBASE 0 m = some (s, d₁.erase, m₁) := by
    rw [← erase_deallocuvm d 0 m (UInt32.le_refl _), hd]
    rfl
  have h₁ : m₁.page v = m.page v := by
    refine Ram.page_deallocuvm hram (UInt32.le_refl _) fun b p _ hb hp => ?_
    have hb : b < NUSER := hb
    rw [Pgdir.pte?_erase_of_lt d hb] at hp
    obtain ⟨q, hq, rfl⟩ := Option.map_eq_some_iff.1 hp
    exact fun he => hmap ⟨b, hb, q, hq, he⟩
  have h₂ : m₂.page v = m₁.page v :=
    page_freeTabs hfree fun i hi => htab ⟨i, (htab₁ i).symm.trans hi⟩
  rw [Ram.page_kfree h (hpage₁ ▸ hpage), h₂, h₁]

/-- A page of a directory is not free, and in nobody else's hands. -/
theorem notMem_pages (h : Owns T k (d.pages + F)) (hv : v ∈ T → v ∈ F) : v ∉ d.pages := fun hm => by
  have hin : v ∈ T := h.mem (Multiset.mem_add.2 (.inl hm))
  exact Multiset.disjoint_left.1 (Multiset.nodup_add.1 h.nodup_own).2.2 hm (hv hin)

/-- `freevm` gives the pages of a directory back. -/
theorem freevm_spec (h : Owns T m.kmem (d.pages + F)) : ∃ m', freevm d m = some m' ∧
    Owns T m'.kmem F ∧ ∀ v, (v ∈ T → v ∈ F) → m'.page v = m.page v := by
  have hkern : d.erase.Kern := fun b hb hu => by
    rw [Pgdir.pte?_erase d hb, if_neg (not_lt.2 hu)]
  obtain ⟨k, hk, ho⟩ := exists_freevm h hkern
  obtain ⟨m', hm', rfl⟩ := Option.map_eq_some_iff.1 ((erase_freevm d m).trans hk)
  exact ⟨m', hm', ho, fun v hv => page_freevm hm' (notMem_pages h hv)⟩

/-! ## A new directory -/

/-- What `setupkvm` gives. -/
structure Blank (d : Pgdir) : Prop where
  user : ∀ b < NUSER, d.pte? b = none
  kernel : ∀ b, NUSER ≤ b → b < NPAGES → d.pte? b = kernelPte kmap b
  tabs : ∀ i : Fin NPDENTRIES, d.hasTab i ↔ i.val ∈ kmapPdx

theorem erase_mapKernel (v : Addr) (m : Ram) : ∃ r d' m',
    mapKernel kmap { page := v } m = some (r, d', m') ∧ m'.page = m.page ∧
      Vm.mapKernel kmapPdx { page := v } m.kmem = (r, d'.erase, m'.kmem) ∧
      (r = true → (∀ b < NUSER, d'.pte? b = none) ∧
        ∀ b, NUSER ≤ b → b < NPAGES → d'.pte? b = kernelPte kmap b) := by
  obtain ⟨r, d', m', hr, hpage, hmap, huser, hnew⟩ :=
    mapKernel_spec sorted_kmap { page := v } m fun _ _ _ _ => rfl
  rw [sameTabs_kmap] at hmap
  refine ⟨r, d', m', hr, hpage, hmap, fun hrt => ⟨huser, fun b _ hb => ?_⟩⟩
  rw [hnew hrt b hb]
  exact Option.or_none

/-- `setupkvm` gives a directory with the mappings of kernel memory, or gives everything back. It
    writes to no page that was not free. -/
theorem setupkvm_spec (h : Owns T m.kmem F) : ∃ x m', setupkvm m = some (x, m') ∧
    Owns T m'.kmem (x.elim 0 Pgdir.pages + F) ∧ (∀ v, (v ∈ T → v ∈ F) → m'.page v = m.page v) ∧
    ∀ d, x = some d → Blank d := by
  rw [setupkvm]
  rcases h.kalloc with ⟨hk, ho⟩ | ⟨hk, ho⟩
  · rw [if_pos (show m.kalloc.1 = 0 from hk)]
    exact ⟨none, m.kalloc.2, rfl, ho.of_eq (by simp), fun _ _ => rfl, nofun⟩
  rw [if_neg (show m.kalloc.1 ≠ 0 from hk)]
  obtain ⟨r, d', m', hr, hpage, hmap, hpte⟩ := erase_mapKernel m.kalloc.1 m.kalloc.2
  have ho₁ : Owns T m.kalloc.2.kmem (({ page := m.kalloc.1 } : Vm.Pgdir).pages + F) :=
    ho.of_eq (by rw [Vm.Pgdir.pages_mk, Multiset.singleton_add]; rfl)
  obtain ⟨ho₂, -, htabs⟩ := Vm.mapKernel_spec ho₁ kmapPdx_lt hmap
  rw [hr, Option.bind_some]
  cases r with
  | true =>
    refine ⟨some d', m', rfl, ho₂.of_eq (by rw [Option.elim_some]; rfl),
      fun v _ => by rw [hpage]; rfl,
      fun d hd => ?_⟩
    obtain rfl := Option.some.inj hd
    obtain ⟨huser, hkernel⟩ := hpte rfl
    refine ⟨huser, hkernel, fun i => ?_⟩
    rw [← Pgdir.hasTab_erase, htabs rfl i]
    exact or_iff_right Bool.false_ne_true
  | false =>
    obtain ⟨m₃, hm₃, ho₃, hpage₃⟩ := freevm_spec (d := d') ho₂
    refine ⟨none, m₃, by simp only [hm₃, Option.map_some], ho₃.of_eq (by simp), fun v hv => ?_,
      nofun⟩
    rw [hpage₃ v hv, hpage]
    rfl

/-- What `setupkvm` takes is what it takes in `Xv6.Vm`. -/
theorem erase_setupkvm (m : Ram) :
    (setupkvm m).map (Prod.map (Option.map Pgdir.erase) Ram.kmem) = Vm.setupkvm m.kmem := by
  rw [setupkvm, Vm.setupkvm]
  by_cases hk : (Vm.kalloc m.kmem).1 = 0
  · rw [if_pos (show m.kalloc.1 = 0 from hk), if_pos hk]
    rfl
  rw [if_neg (show m.kalloc.1 ≠ 0 from hk), if_neg hk]
  obtain ⟨r, d', m', hr, -, hmap, -⟩ := erase_mapKernel m.kalloc.1 m.kalloc.2
  replace hmap : Vm.mapKernel kmapPdx { page := (Vm.kalloc m.kmem).1 } (Vm.kalloc m.kmem).2 =
    (r, d'.erase, m'.kmem) := hmap
  rw [hr, Option.bind_some, hmap]
  cases r with
  | true => rfl
  | false =>
    dsimp only
    rw [← erase_freevm, Option.map_map, Option.map_map]
    rfl

/-! ## Copying -/

theorem exists_mappages (h : d.pte? a = none) (pa perm : UInt32) (m : Ram) :
    ∃ r d' m', mappages d a 1 pa perm m = some (r, d', m') := by
  have hpte := pte?_walkpgdirAlloc d a m
  rw [mappages_one]
  generalize walkpgdirAlloc d a m = y at hpte
  obtain ⟨_ | _, d₁, m₁⟩ := y
  · exact ⟨false, d₁, m₁, rfl⟩
  · refine ⟨true, _, m₁, if_neg ?_⟩
    rw [hpte a, h]
    nofun

/-- `mappages` passes the page to the directory, or leaves it to the caller. -/
theorem owns_mappages (h : Owns T m.kmem (d.pages + (v ::ₘ F))) (ha : a < NUSER)
    (hm : mappages d a 1 (V2P v) perm m = some (r, d', m')) :
    Owns T m'.kmem (d'.pages + if r then F else v ::ₘ F) ∧ d.pages ≤ d'.pages := by
  have hvm : Vm.mappages d.erase a v (perm &&& PTE_U ≠ 0) m.kmem = some (r, d'.erase, m'.kmem) := by
    rw [← Ram.erase_mappages, ← erase_mappages d v perm m ha, hm]
    rfl
  exact ⟨Vm.owns_mappages h hvm, Ram.pages_le_mappages hvm⟩

/-- What `copyuvm` copies the page `b` of `d` to: a page of `c` with the same flags and
    contents. -/
def Copied (d c : Pgdir) (m m' : Ram) (b : ℕ) : Prop :=
  ∃ p q, d.pte? b = some p ∧ c.pte? b = some q ∧ q.flags = p.flags ∧
    m'.page (P2V q.pa) = m.page (P2V p.pa)

theorem copyLoop_spec (h : Owns T m.kmem (c.pages + F)) (hn : l.Nodup)
    (hl : ∀ a ∈ l, a < NUSER ∧ c.pte? a = none ∧
      ∃ p, d.pte? a = some p ∧ (P2V p.pa ∈ T → P2V p.pa ∈ F)) :
    ∃ x m', copyLoop d l c m = some (x, m') ∧ Owns T m'.kmem (x.elim 0 Pgdir.pages + F) ∧
      (∀ v, (v ∈ T → v ∈ F) → m'.page v = m.page v) ∧
      ∀ c', x = some c' → (∀ v ∈ c.pages, m'.page v = m.page v) ∧
        (∀ b < NPAGES, b ∉ l → c'.pte? b = c.pte? b) ∧ ∀ b ∈ l, Copied d c' m m' b := by
  induction l generalizing c m with
  | nil =>
    refine ⟨some c, m, rfl, h.of_eq (by rw [Option.elim_some]), fun _ _ => rfl, fun c' hc' => ?_⟩
    obtain rfl := Option.some.inj hc'
    exact ⟨fun _ _ => rfl, fun _ _ _ => rfl, nofun⟩
  | cons a l ih =>
    obtain ⟨hau, hnone, p, hp, hpF⟩ := hl a List.mem_cons_self
    obtain ⟨hal, hn⟩ := List.nodup_cons.1 hn
    have ha : a < NPAGES := hau.trans (by decide)
    rw [copyLoop, walkpgdir_eq, if_pos (Pgdir.hasTab_of_pte? (by rw [hp]; rfl)), hp]
    dsimp only
    rcases h.kalloc with ⟨hk, ho⟩ | ⟨hk, ho⟩
    · rw [if_pos (show m.kalloc.1 = 0 from hk)]
      obtain ⟨m₁, hm₁, ho₁, hpage⟩ := freevm_spec (m := m.kalloc.2) ho
      exact ⟨none, m₁, by rw [hm₁]; rfl, ho₁.of_eq (by simp), hpage, nofun⟩
    rw [if_neg (show m.kalloc.1 ≠ 0 from hk)]
    -- the page is in nobody's hands
    obtain ⟨hfresh, -⟩ := Multiset.nodup_cons.1 ho.nodup_own
    have hmem : m.kalloc.1 ∈ T := ho.mem (Multiset.mem_cons_self _ _)
    have hnotF : m.kalloc.1 ∉ F := fun hF => hfresh (Multiset.mem_add.2 (.inr hF))
    have hcopy {v : Addr} (hv : v ≠ m.kalloc.1) :
        (copyPage m.kalloc.2 m.kalloc.1 (P2V p.pa)).page v = m.page v := Function.update_of_ne hv ..
    have hframe {v : Addr} (hv : v ∈ T → v ∈ F) : v ≠ m.kalloc.1 :=
      fun he => hnotF (he ▸ hv (he ▸ hmem))
    obtain ⟨r, c₁, m₁, hm⟩ := exists_mappages hnone (V2P m.kalloc.1) p.flags
      (copyPage m.kalloc.2 m.kalloc.1 (P2V p.pa))
    obtain ⟨ho₁, hle⟩ := owns_mappages (F := F) (ho.of_eq (Multiset.add_cons _ _ _)) hau hm
    obtain ⟨hpage, ⟨rfl, -, hpte⟩ | ⟨rfl, hpte⟩⟩ := mappages_cases hm ha
    · have hbl {b : ℕ} (hb : b ∈ l) : b ≠ a := fun he => hal (he ▸ hb)
      obtain ⟨x, m', hr, ho', hpage', hx⟩ := ih (by simpa using ho₁) hn (fun b hb => by
        obtain ⟨hbu, hbn, hbp⟩ := hl b (List.mem_cons_of_mem _ hb)
        exact ⟨hbu, by rw [hpte b (hbu.trans (by decide)), if_neg (hbl hb), hbn], hbp⟩)
      refine ⟨x, m', by rw [hm]; exact hr, ho', fun v hv => ?_, fun c' hc' => ?_⟩
      · rw [hpage' v hv, hpage, hcopy (hframe hv)]
      obtain ⟨hkept, hold, hnew⟩ := hx c' hc'
      have hself : c₁.pte? a = some (.of (V2P m.kalloc.1) p.flags) := by rw [hpte a ha, if_pos rfl]
      refine ⟨fun v hv => ?_, fun b hb hbl' => ?_, fun b hb => ?_⟩
      · have hne : v ≠ m.kalloc.1 := fun he => hfresh (Multiset.mem_add.2 (.inl (he ▸ hv)))
        rw [hkept v (Multiset.mem_of_le hle hv), hpage, hcopy hne]
      · obtain ⟨hba, hbl'⟩ := List.ne_and_not_mem_of_not_mem_cons hbl'
        rw [hold b hb hbl', hpte b hb, if_neg hba]
      · rcases List.mem_cons.1 hb with rfl | hb
        · refine ⟨p, .of (V2P m.kalloc.1) p.flags, hp, (hold b ha hal).trans hself,
            Pte.of_flags _ p, ?_⟩
          rw [hkept _ (Pgdir.mem_pages_iff.2 (.inr (.inr ⟨b, hau, _, hself, rfl⟩))), hpage]
          exact (congrArg _ (P2V_V2P _)).trans (Function.update_self ..)
        · obtain ⟨q, q', hq, hq', hflags, hbytes⟩ := hnew b hb
          obtain ⟨-, -, q₁, hq₁, hqF⟩ := hl b (List.mem_cons_of_mem _ hb)
          obtain rfl := Option.some.inj (hq.symm.trans hq₁)
          exact ⟨q, q', hq, hq', hflags, by rw [hbytes, hpage, hcopy (hframe hqF)]⟩
    · rw [if_neg (by simp), Multiset.add_cons] at ho₁
      obtain ⟨k₂, hk₂, ho₂⟩ := ho₁.kfree
      obtain ⟨m₂, hm₂, rfl⟩ := Option.map_eq_some_iff.1 ((Ram.erase_kfree m₁ _).trans hk₂)
      obtain ⟨m₃, hm₃, ho₃, hpage₃⟩ := freevm_spec (m := m₂) ho₂
      refine ⟨none, m₃, ?_, ho₃.of_eq (by simp), fun v hv => ?_, nofun⟩
      · have hm₂ : m₁.kfree m.kalloc.1 = some m₂ := hm₂
        simp only [hm, Option.bind_some, hm₂, hm₃, Option.map_some]
      · rw [hpage₃ v hv, Ram.page_kfree hm₂ (hframe hv), hpage, hcopy (hframe hv)]

/-- With memory for a page and a page table in every round, the loop gets to its end. -/
theorem exists_copyLoop {n : ℕ} (hh : Has m.kmem (n + 2 * l.length)) (hn : l.Nodup)
    (hl : ∀ a ∈ l, a < NUSER ∧ c.pte? a = none ∧ (d.pte? a).isSome) :
    ∃ c' m', copyLoop d l c m = some (some c', m') := by
  induction l generalizing c m with
  | nil => exact ⟨c, m, rfl⟩
  | cons a l ih =>
    obtain ⟨hau, hnone, hsome⟩ := hl a List.mem_cons_self
    obtain ⟨p, hp⟩ := Option.isSome_iff_exists.1 hsome
    obtain ⟨hal, hn⟩ := List.nodup_cons.1 hn
    have ha : a < NPAGES := hau.trans (by decide)
    obtain ⟨hk, hh⟩ := hh.kalloc (n := n + 2 * l.length + 1)
    obtain ⟨e, k', hvm, hh, -⟩ := hh.mappages (d := c.erase) (a := a) (v := m.kalloc.1)
      (u := p.flags &&& PTE_U ≠ 0) (by rw [Pgdir.pte?_erase_of_lt c hau, hnone]; rfl)
    -- the call of `mappages` on the copied page is that of `Xv6.Vm` without the contents
    have hmap := erase_mappages c m.kalloc.1 p.flags (copyPage m.kalloc.2 m.kalloc.1 (P2V p.pa)) hau
    rw [Ram.mappages, show (copyPage m.kalloc.2 m.kalloc.1 (P2V p.pa)).kmem =
      (Vm.kalloc m.kmem).2 from rfl, hvm] at hmap
    obtain ⟨⟨r, c₁, m₁⟩, hm, he⟩ := Option.map_eq_some_iff.1 hmap
    obtain ⟨rfl, -, rfl⟩ := (by simpa using he : r = true ∧ c₁.erase = e ∧ m₁ = _)
    obtain ⟨-, ⟨-, -, hpte⟩ | ⟨hno, -⟩⟩ := mappages_cases hm ha
    swap
    · cases hno
    obtain ⟨c', m', hr⟩ := ih (m := ⟨k', _⟩) (c := c₁) hh hn fun b hb => by
      obtain ⟨hbu, hbn, hbs⟩ := hl b (List.mem_cons_of_mem _ hb)
      have hba : b ≠ a := fun hba => hal (hba ▸ hb)
      exact ⟨hbu, by rw [hpte b (hbu.trans (by decide)), if_neg hba, hbn], hbs⟩
    refine ⟨c', m', ?_⟩
    rw [copyLoop, walkpgdir_eq, if_pos (Pgdir.hasTab_of_pte? hsome), hp]
    dsimp only
    rw [if_neg (show m.kalloc.1 ≠ 0 from hk), hm]
    exact hr

theorem copyLoop_append (d : Pgdir) (l₁ l₂ : List ℕ) (c : Pgdir) (m : Ram) :
    copyLoop d (l₁ ++ l₂) c m = (copyLoop d l₁ c m).bind fun
      | (none, m) => some (none, m)
      | (some c, m) => copyLoop d l₂ c m := by
  induction l₁ generalizing c m with
  | nil => rfl
  | cons a l₁ ih =>
    rw [List.cons_append, copyLoop, copyLoop]
    rcases walkpgdir d a with _ | _ | p
    · rfl
    · rfl
    dsimp only
    split_ifs with hmem
    · cases freevm c m.kalloc.2 <;> rfl
    cases mappages c a 1 (V2P m.kalloc.1) p.flags (copyPage m.kalloc.2 m.kalloc.1 (P2V p.pa)) with
    | none => rfl
    | some y =>
      obtain ⟨_ | _, c₁, m₁⟩ := y
      · simp only [Option.bind_some]
        cases m₁.kfree m.kalloc.1 with
        | none => rfl
        | some m₂ => simp only [Option.bind_some]; cases freevm c₁ m₂ <;> rfl
      · exact ih c₁ m₁

/-- The number of a page of physical memory. -/
theorem frame_lt (h : IsPage v) : (V2P v).toNat / 4096 < 57344 := by
  have := UInt32.lt_iff_toNat_lt.1 h.2.2
  have hstop : PHYSTOP.toNat = 57344 * 4096 := by decide
  omega

theorem frame_inj {w : Addr} (hv : IsPage v) (hw : IsPage w)
    (h : (V2P v).toNat / 4096 = (V2P w).toNat / 4096) : v = w := by
  have hmod {u : Addr} (hu : IsPage u) : (V2P u).toNat % 4096 = 0 := by
    have h0 := congrArg UInt32.toNat hu.1
    have hlo := UInt32.le_iff_toNat_le.1 hu.2.1
    rw [UInt32.toNat_mod, (by decide : PGSIZE.toNat = 4096),
      (by decide : (0 : UInt32).toNat = 0)] at h0
    rw [(by decide : kernelEnd.toNat = 2148625808)] at hlo
    rw [V2P, UInt32.toNat_sub_of_le _ _ (UInt32.le_iff_toNat_le.2 (by
      rw [(by decide : KERNBASE.toNat = 2147483648)]; omega)),
        (by decide : KERNBASE.toNat = 2147483648)]
    omega
  have hv' := hmod hv
  have hw' := hmod hw
  have heq : V2P v = V2P w := UInt32.toNat_inj.1 (by omega)
  rw [← P2V_V2P v, ← P2V_V2P w, heq]

/-- The pages of user memory are mapped once. -/
theorem frame_ne (h : Owns T k (d.pages + F)) (ha : a < NUSER) (hb : b < NUSER) (hab : b ≠ a)
    {p q : Pte} (hp : d.pte? a = some p) (hq : d.pte? b = some q) : P2V q.pa ≠ P2V p.pa := by
  have hN : NUSER ≤ NPAGES := by decide
  have hp' : d.erase.pte? a = some p.erase := by rw [Pgdir.pte?_erase_of_lt d ha, hp]; rfl
  have hq' : d.erase.pte? b = some q.erase := by rw [Pgdir.pte?_erase_of_lt d hb, hq]; rfl
  have hne : q.erase.page ≠ p.erase.page :=
    page_ne h (ha.trans_le hN) (hb.trans_le hN) hab hp' hq'
  exact hne

/-- There is less physical memory than user memory. -/
theorem exists_unmapped (h : Owns T k (c.pages + F)) : ∃ b < NUSER, c.pte? b = none := by
  by_contra hall
  push Not at hall
  have : Nonempty Pte := ⟨.of 0 0⟩
  choose! q hq using fun b (hb : b < NUSER) => Option.ne_none_iff_exists'.1 (hall b hb)
  have hpage {b : ℕ} (hb : b < NUSER) : IsPage (P2V (q b).pa) := h.isPage_of_mem
    (Multiset.mem_add.2 (.inl (Pgdir.mem_pages_iff.2 (.inr (.inr ⟨b, hb, _, hq b hb, rfl⟩)))))
  -- as many frames as there are pages
  obtain ⟨a, ha, b, hb, hab, he⟩ := Finset.exists_ne_map_eq_of_card_lt_of_maps_to
    (s := Finset.range NUSER) (t := Finset.range 57344)
    (f := fun b => (V2P (P2V (q b).pa)).toNat / 4096)
    (by rw [Finset.card_range, Finset.card_range]; decide)
    (fun b hb => Finset.mem_coe.2 (Finset.mem_range.2 (frame_lt (hpage (Finset.mem_range.1 hb)))))
  rw [Finset.mem_range] at ha hb
  exact frame_ne h ha hb (Ne.symm hab) (hq a ha) (hq b hb) (frame_inj (hpage hb) (hpage ha) he.symm)

/-- The directory `c` is a copy of the first `n` pages of `d`, in frames that were free. -/
structure CopyOf (n : ℕ) (d c : Pgdir) (m m' : Ram) : Prop where
  copied : ∀ b < n, Copied d c m m' b
  fresh : ∀ b < n, ∀ q, c.pte? b = some q → Free m.kmem (P2V q.pa) ∧ ¬Free m'.kmem (P2V q.pa)
  ne : ∀ a < n, ∀ b < n, b ≠ a → ∀ p q, c.pte? a = some p → c.pte? b = some q → q.pa ≠ p.pa
  user : ∀ b < NUSER, n ≤ b → c.pte? b = none
  kernel : ∀ b, NUSER ≤ b → b < NPAGES → c.pte? b = kernelPte kmap b

/-- What is known of the copy when the loop over all the pages is done. -/
theorem copyOf_of_loop (h : Owns T m.kmem own) (ho : Owns T m'.kmem (c'.pages + own))
    (hblank : Blank c) (hn : n ≤ NUSER)
    (hold : ∀ b < NPAGES, b ∉ List.range n → c'.pte? b = c.pte? b)
    (hnew : ∀ b ∈ List.range n, Copied d c' m m' b) : CopyOf n d c' m m' := by
  have hN : NUSER ≤ NPAGES := by decide
  refine ⟨fun b hb => hnew b (List.mem_range.2 hb), fun b hb q hq => ?_,
    fun a ha b hb hab p q hp hq => ?_, fun b hb hnb => ?_, fun b hu hb => ?_⟩
  · have hmem : P2V q.pa ∈ c'.pages :=
      Pgdir.mem_pages_iff.2 (.inr (.inr ⟨b, hb.trans_le hn, q, hq, rfl⟩))
    have hin : P2V q.pa ∈ T := ho.mem (Multiset.mem_add.2 (.inl hmem))
    refine ⟨(free_iff h).2 ⟨hin, Multiset.disjoint_left.1 (Multiset.nodup_add.1 ho.nodup_own).2.2
      hmem⟩,
      fun hfree => ((free_iff ho).1 hfree).2 (Multiset.mem_add.2 (.inl hmem))⟩
  · exact fun he => frame_ne ho (ha.trans_le hn) (hb.trans_le hn) hab hp hq (congrArg P2V he)
  · rw [hold b (hb.trans_le hN) (by simpa using hnb), hblank.user b hb]
  · rw [hold b hb (by simpa using hn.trans hu), hblank.kernel b hu hb]

/-- `copyuvm` copies every page of the process to a frame that was free, with its flags, or gives
    all that it took back. No page in use is written to. With free memory for the kernel's page
    tables and for a page and a page table for each page, there is a copy. -/
theorem copyuvm_exact (h : Owns T m.kmem own)
    (hd : ∀ b < npages sz, ∃ p, d.pte? b = some p ∧ ¬Free m.kmem (P2V p.pa)) : ∃ x m',
    copyuvm d sz m = some (x, m') ∧ (∀ v, ¬Free m.kmem v → m'.page v = m.page v) ∧
      (match x with
        | none => ∀ v, Free m'.kmem v ↔ Free m.kmem v
        | some c => CopyOf (npages sz) d c m m') ∧
      (Has m.kmem (2 * npages sz + 67) → x.isSome) := by
  have huse {v : Addr} : ¬Free m.kmem v ↔ (v ∈ T → v ∈ own) := by
    rw [free_iff h, not_and, not_not]
  have hsame {m' : Ram} (ho : Owns T m'.kmem own) (v : Addr) : Free m'.kmem v ↔ Free m.kmem v := by
    rw [free_iff ho, free_iff h]
  obtain ⟨x, m₁, hx, ho₁, hpage₁, hblank⟩ := setupkvm_spec h
  rw [copyuvm, hx, Option.bind_some]
  cases x with
  | none =>
    refine ⟨none, m₁, rfl, fun v hv => hpage₁ v (huse.1 hv), hsame (by simpa using ho₁),
      fun hh => ?_⟩
    obtain ⟨e, k', hvm, -⟩ := hh.setupkvm
    have he := erase_setupkvm m
    rw [hx, hvm] at he
    cases he
  | some c =>
    have hblank := hblank c rfl
    have hsrc {b : ℕ} (hb : b < npages sz) : ∃ p, d.pte? b = some p ∧
        (P2V p.pa ∈ T → P2V p.pa ∈ own) := by
      obtain ⟨p, hp, hfree⟩ := hd b hb
      exact ⟨p, hp, huse.1 hfree⟩
    -- the pages that are there to be copied, and those that are above
    obtain ⟨y, m', hy, ho', hpage', hloop⟩ :=
      copyLoop_spec (d := d) (l := List.range (min (npages sz) NUSER))
      ho₁ List.nodup_range fun b hb => by
        obtain ⟨hb, hbu⟩ := lt_min_iff.1 (List.mem_range.1 hb)
        exact ⟨hbu, hblank.user b hbu, hsrc hb⟩
    have hpage (v : Addr) (hv : ¬Free m.kmem v) : m'.page v = m.page v := by
      rw [hpage' v (huse.1 hv), hpage₁ v (huse.1 hv)]
    have hsplit : List.range (npages sz) = List.range (min (npages sz) NUSER) ++
        List.range' NUSER (npages sz - NUSER) := by
      rcases le_total (npages sz) NUSER with hle | hle
      · rw [min_eq_left hle, Nat.sub_eq_zero_of_le hle, List.range'_zero, List.append_nil]
      · have happ := List.range'_append_1 (s := 0) (m := NUSER) (n := npages sz - NUSER)
        rw [Nat.zero_add, Nat.add_sub_cancel' hle] at happ
        rw [min_eq_right hle, List.range_eq_range', List.range_eq_range', happ]
    simp only [hsplit, copyLoop_append, hy, Option.bind_some]
    cases y with
    | none =>
      refine ⟨none, m', rfl, hpage, hsame (by simpa using ho'), fun hh => ?_⟩
      obtain ⟨e, k', hvm, hh⟩ := hh.setupkvm
      have he := erase_setupkvm m
      rw [hx, hvm] at he
      obtain ⟨-, rfl⟩ := (by simpa using he : c.erase = e ∧ m₁.kmem = k')
      obtain ⟨c', m'', hr⟩ := exists_copyLoop (d := d) (c := c) (n := 0)
        (l := List.range (min (npages sz) NUSER)) (hh.mono (by rw [List.length_range]; omega))
        List.nodup_range fun b hb => by
          obtain ⟨hb, hbu⟩ := lt_min_iff.1 (List.mem_range.1 hb)
          obtain ⟨p, hp, -⟩ := hsrc hb
          exact ⟨hbu, hblank.user b hbu, by rw [hp]; rfl⟩
      rw [hy] at hr
      cases hr
    | some c' =>
      obtain ⟨-, hold, hnew⟩ := hloop c' rfl
      have hle : npages sz ≤ NUSER := by
        by_contra hgt
        obtain ⟨b, hb, hnone⟩ := exists_unmapped ho'
        obtain ⟨-, q, -, hq, -⟩ := hnew b (List.mem_range.2 (by omega))
        rw [hq] at hnone
        cases hnone
      rw [min_eq_left hle] at hold hnew
      rw [Nat.sub_eq_zero_of_le hle]
      refine ⟨some c', m', rfl, hpage, copyOf_of_loop h ho' hblank hle hold fun b hb => ?_, fun _ =>
        rfl⟩
      obtain ⟨p, q, hp, hq, hflags, hbytes⟩ := hnew b hb
      obtain ⟨p', hp', hfree⟩ := hd b (List.mem_range.1 hb)
      obtain rfl := Option.some.inj (hp.symm.trans hp')
      exact ⟨p, q, hp, hq, hflags, hbytes.trans (hpage₁ _ (huse.1 hfree))⟩

/-- A directory with one page, which the process cannot read. -/
def guardDir (page tab v : Addr) : Pgdir :=
  Pgdir.setPte (Pgdir.addTab { page := page } 0 tab) 0 (some (.of (V2P v) PTE_W))

/-- A process with that directory is copied. -/
theorem copyuvm_exact_guard : ∃ d m c m' p q, copyuvm d 4096 m = some (some c, m') ∧
    d.pte? 0 = some p ∧ c.pte? 0 = some q ∧ q.flags = PTE_W ||| PTE_P ∧ p.flags = q.flags ∧
    q.pa ≠ p.pa ∧ m'.page (P2V q.pa) = m.page (P2V p.pa) ∧ m.page (P2V p.pa) 0 = 7 := by
  obtain ⟨k, ho, hh⟩ := exists_kinit
  -- the directory, its page table and the page
  obtain ⟨h₁, hh₁⟩ := hh.kalloc
  obtain ⟨h0, -⟩ | ⟨-, ho₁⟩ := ho.kalloc
  · exact absurd h0 h₁
  obtain ⟨h₂, hh₂⟩ := hh₁.kalloc
  obtain ⟨h0, -⟩ | ⟨-, ho₂⟩ := ho₁.kalloc
  · exact absurd h0 h₂
  obtain ⟨h₃, hh₃⟩ := hh₂.kalloc
  obtain ⟨h0, -⟩ | ⟨-, ho₃⟩ := ho₂.kalloc
  · exact absurd h0 h₃
  generalize (Vm.kalloc (Vm.kalloc (Vm.kalloc k).2).2).2 = k₃ at ho₃ hh₃
  generalize (Vm.kalloc (Vm.kalloc (Vm.kalloc k).2).2).1 = v at ho₃
  have hpte : (guardDir (Vm.kalloc k).1 (Vm.kalloc (Vm.kalloc k).2).1 v).pte? 0 =
      some (.of (V2P v) PTE_W) := rfl
  generalize guardDir _ _ v = d at hpte
  have huse : ¬Free k₃ v := fun hf => ((free_iff ho₃).1 hf).2 (Multiset.mem_cons_self _ _)
  have hsrc (b : ℕ) (hb : b < npages 4096) : ∃ p, d.pte? b = some p ∧ ¬Free k₃ (P2V p.pa) := by
    have hone : npages 4096 = 1 := by decide
    obtain rfl : b = 0 := by omega
    exact ⟨_, hpte, by rwa [Pte.of, P2V_V2P]⟩
  obtain ⟨x, m', hr, -, hx, hsome⟩ := copyuvm_exact (m := ⟨k₃, fun _ _ => 7⟩) ho₃ hsrc
  obtain ⟨c, rfl⟩ := Option.isSome_iff_exists.1 (hsome (hh₃.mono (by decide)))
  obtain ⟨p, q, hp, hq, hflags, hbytes⟩ := hx.copied 0 (by decide)
  obtain rfl := Option.some.inj (hpte.symm.trans hp)
  refine ⟨d, _, c, m', _, q, hr, hpte, hq, hflags, hflags.symm, fun he => ?_, hbytes, rfl⟩
  obtain ⟨hfree, -⟩ := hx.fresh 0 (by decide) q hq
  rw [he, Pte.of, P2V_V2P] at hfree
  exact huse hfree

end Xv6.Uvm
