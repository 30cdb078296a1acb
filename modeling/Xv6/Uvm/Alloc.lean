import Xv6.Uvm.Erase

/-!
# Growing user memory

`allocuvm` maps all the pages it is asked for, or none (`allocuvm_undoes`): whichever calls of
`kalloc` fail, those for the pages or those for their page tables, it takes back what it has mapped.
The page tables it has made may stay.
-/

namespace Xv6.Uvm

open Vm Kmem

variable {T F own : Multiset Addr} {v : Addr} {k : Kmem} {d d' : Pgdir} {m m' : Ram}
  {a b fuel stop : ℕ} {pa perm oldsz newsz s : UInt32} {r : Bool} {l : List ℕ}

/-! ## The free list -/

/-- The page `v` is on the free list. -/
def Free (k : Kmem) (v : Addr) : Prop :=
  ∃ l : List Addr, Linked k.next k.freelist l 0 ∧ 0 ∉ l ∧ v ∈ l

/-- The pages that are not in use are free. -/
theorem free_iff (h : Owns T k own) : Free k v ↔ v ∈ T ∧ v ∉ own := by
  obtain ⟨l, hl, hT⟩ := h.split
  have h0 : 0 ∉ l := fun hm => (h.isPage 0 (hT ▸ Multiset.mem_add.2 (.inl hm))).ne_zero rfl
  have hdisj := (Multiset.nodup_add.1 (hT ▸ h.nodup : ((l : Multiset Addr) + own).Nodup)).2.2
  constructor
  · rintro ⟨l', hl', h0', hv⟩
    obtain rfl := hl'.unique hl h0' h0
    exact ⟨hT ▸ Multiset.mem_add.2 (.inl hv), Multiset.disjoint_left.1 hdisj hv⟩
  · rintro ⟨hv, hown⟩
    rw [← hT] at hv
    exact ⟨l, hl, h0, (Multiset.mem_add.1 hv).resolve_right hown⟩

/-! ## Page tables -/

theorem mem_held {α ι : Type} [Fintype ι] {h : α → Multiset Addr} {t : ι → Option α} :
    v ∈ held h t ↔ ∃ i x, t i = some x ∧ v ∈ h x := by
  rw [held, Multiset.mem_sum]
  constructor
  · rintro ⟨i, -, hi⟩
    cases ht : t i with
    | none => rw [ht] at hi; exact absurd hi (Multiset.notMem_zero v)
    | some x => rw [ht] at hi; exact ⟨i, x, ht, hi⟩
  · rintro ⟨i, x, ht, hv⟩
    exact ⟨i, Finset.mem_univ i, by rw [ht]; exact hv⟩

namespace Pgdir

/-- The page of the page table at the index `i`. -/
def tabPage (d : Pgdir) (i : Fin NPDENTRIES) : Option Addr := (d.pde i).map Pgtab.page

/-- The pages of a directory: its own, those of its page tables, and those it maps in user
    memory. -/
def pages (d : Pgdir) : Multiset Addr := d.erase.pages

theorem mem_pages_iff : v ∈ d.pages ↔
    v = d.page ∨ (∃ i, d.tabPage i = some v) ∨ ∃ b < NUSER, ∃ p, d.pte? b = some p ∧
    P2V p.pa = v := by
  rw [pages, Vm.Pgdir.pages, Multiset.mem_cons, mem_held]
  refine or_congr_right ⟨?_, ?_⟩
  · rintro ⟨i, t, ht, hv⟩
    obtain ⟨t₀, ht₀, rfl⟩ := Option.map_eq_some_iff.1 ht
    rw [Vm.Pgtab.pages, Multiset.mem_cons, mem_held] at hv
    rcases hv with rfl | ⟨j, p, hp, hv⟩
    · exact .inl ⟨i, by rw [tabPage, ht₀]; rfl⟩
    · obtain ⟨b, hb, rfl, rfl⟩ := exists_page i j
      have hp' : d.erase.pte? b = some p := by rw [Vm.Pgdir.pte?, ht]; exact hp
      rw [pte?_erase d hb] at hp'
      split_ifs at hp' with hu
      obtain ⟨q, hq, rfl⟩ := Option.map_eq_some_iff.1 hp'
      exact .inr ⟨b, hu, q, hq, (Multiset.mem_singleton.1 hv).symm⟩
  · rintro (⟨i, hi⟩ | ⟨b, hb, p, hp, rfl⟩)
    · obtain ⟨t, ht, rfl⟩ := Option.map_eq_some_iff.1 hi
      exact ⟨i, t.erase i, Option.map_eq_some_iff.2 ⟨t, ht, rfl⟩, Multiset.mem_cons_self _ _⟩
    · have hp' : d.erase.pte? b = some p.erase := by rw [pte?_erase_of_lt d hb, hp]; rfl
      obtain ⟨t, ht, hp'⟩ := Option.bind_eq_some_iff.1 hp'
      refine ⟨pdx b, t, ht, Multiset.mem_cons_of_mem (mem_held.2 ⟨ptx b, _, hp', ?_⟩)⟩
      exact Multiset.mem_singleton_self _

end Pgdir

/-- `d'` is `d` with other entries, and more page tables. -/
structure Extends (d d' : Pgdir) : Prop where
  page : d'.page = d.page
  tab : ∀ i v, d.tabPage i = some v → d'.tabPage i = some v

theorem Extends.refl (d : Pgdir) : Extends d d := ⟨rfl, fun _ _ h => h⟩

theorem Extends.trans {d₁ : Pgdir} (h : Extends d d₁) (h' : Extends d₁ d') : Extends d d' :=
  ⟨h'.page.trans h.page, fun i v hv => h'.tab i v (h.tab i v hv)⟩

theorem tabPage_setPte (d : Pgdir) (a : ℕ) (x : Option Pte) (i : Fin NPDENTRIES) :
    (d.setPte a x).tabPage i = d.tabPage i := by
  rw [Pgdir.setPte]
  cases ht : d.pde (pdx a) with
  | none => rfl
  | some t =>
    dsimp only [Pgdir.tabPage]
    by_cases hi : i = pdx a
    · subst hi
      rw [Function.update_self, ht]
      rfl
    · rw [Function.update_of_ne hi]

theorem page_setPte (d : Pgdir) (a : ℕ) (x : Option Pte) : (d.setPte a x).page = d.page := by
  rw [Pgdir.setPte]
  split <;> rfl

theorem extends_setPte (d : Pgdir) (a : ℕ) (x : Option Pte) : Extends d (d.setPte a x) :=
  ⟨page_setPte d a x, fun i _ hv => (tabPage_setPte d a x i).trans hv⟩

theorem extends_walkpgdirAlloc (d : Pgdir) (a : ℕ) (m : Ram) :
    Extends d (walkpgdirAlloc d a m).2.1 := by
  rw [walkpgdirAlloc]
  split_ifs with htab
  · exact .refl d
  · exact .refl d
  · refine ⟨rfl, fun i v hv => ?_⟩
    have hi : i ≠ pdx a := fun hi => by
      rw [Pgdir.tabPage, hi, Option.not_isSome_iff_eq_none.1 htab] at hv
      cases hv
    dsimp only [Pgdir.tabPage, Pgdir.addTab]
    rw [Function.update_of_ne hi]
    exact hv

theorem extends_mapLoop (h : mapLoop perm l pa d m = some (r, d', m')) : Extends d d' := by
  induction l generalizing pa d m with
  | nil =>
    obtain ⟨-, rfl, -⟩ := (by simpa [mapLoop] using h : true = r ∧ d = d' ∧ m = m')
    exact .refl d
  | cons a l ih =>
    have hw := extends_walkpgdirAlloc d a m
    rw [mapLoop] at h
    generalize walkpgdirAlloc d a m = x at h hw
    obtain ⟨_ | _, d₁, m₁⟩ := x
    · obtain ⟨-, rfl, -⟩ := (by simpa using h : false = r ∧ d₁ = d' ∧ m₁ = m')
      exact hw
    · dsimp only at h hw
      split_ifs at h
      exact (hw.trans (extends_setPte ..)).trans (ih h)

/-- `deallocuvm` changes no page table. -/
theorem tabPage_deallocLoop (h : deallocLoop stop fuel a d m = some (d', m')) :
    d'.page = d.page ∧ ∀ i, d'.tabPage i = d.tabPage i := by
  induction fuel generalizing a d m with
  | zero =>
    obtain ⟨rfl, -⟩ := (by simpa [deallocLoop] using h : d = d' ∧ m = m')
    exact ⟨rfl, fun _ => rfl⟩
  | succ fuel ih =>
    rw [deallocLoop] at h
    split_ifs at h
    · obtain ⟨rfl, -⟩ := (by simpa using h : d = d' ∧ m = m')
      exact ⟨rfl, fun _ => rfl⟩
    rcases hw : walkpgdir d a with _ | _ | p
    · rw [hw] at h
      exact ih h
    · rw [hw] at h
      exact ih h
    · rw [hw] at h
      dsimp only at h
      split_ifs at h
      obtain ⟨m₁, -, h⟩ := Option.bind_eq_some_iff.1 h
      obtain ⟨hpage, htab⟩ := ih h
      exact ⟨hpage.trans (page_setPte ..), fun i => (htab i).trans (tabPage_setPte ..)⟩

theorem tabPage_deallocuvm (h : deallocuvm d oldsz newsz m = some (s, d', m')) :
    d'.page = d.page ∧ ∀ i, d'.tabPage i = d.tabPage i := by
  rw [deallocuvm] at h
  split_ifs at h
  · obtain ⟨-, rfl, -⟩ := (by simpa using h : oldsz = s ∧ d = d' ∧ m = m')
    exact ⟨rfl, fun _ => rfl⟩
  · obtain ⟨⟨d₁, m₁⟩, hloop, he⟩ := Option.map_eq_some_iff.1 h
    obtain ⟨-, rfl, -⟩ := (by simpa using he : newsz = s ∧ d₁ = d' ∧ m₁ = m')
    exact tabPage_deallocLoop hloop

theorem extends_deallocuvm (h : deallocuvm d oldsz newsz m = some (s, d', m')) : Extends d d' := by
  obtain ⟨hpage, htab⟩ := tabPage_deallocuvm h
  exact ⟨hpage, fun i _ hv => (htab i).trans hv⟩

/-! ## The loop -/

theorem erase_allocLoop (hl : ∀ a ∈ l, a < NUSER) (hn : newsz ≤ KERNBASE) (d : Pgdir) (m : Ram) :
    (allocLoop oldsz newsz l d m).map (Prod.map id (Prod.map Pgdir.erase id)) =
      Vm.allocLoop oldsz newsz l d.erase m := by
  induction l generalizing d m with
  | nil => rfl
  | cons a l ih =>
    have huser : decide ((PTE_W ||| PTE_U) &&& PTE_U ≠ 0) = true := by decide
    simp only [allocLoop, Vm.allocLoop, Vm.HasPages.kalloc, Vm.HasPages.kfree,
      Vm.HasPages.memset, Vm.HasPages.mappages]
    split_ifs
    · rw [← erase_deallocuvm _ _ _ hn, Option.map_map, Option.map_map]
      rfl
    · have hmap := erase_mappages d m.kalloc.1 (PTE_W ||| PTE_U) (m.kalloc.2.memset m.kalloc.1 0)
        (hl a List.mem_cons_self)
      rw [huser] at hmap
      rw [← hmap, Option.map_bind, Option.bind_map]
      refine congrArg _ (funext fun x => ?_)
      obtain ⟨_ | _, d₁, m₁⟩ := x
      · dsimp only [Function.comp, Prod.map, id_eq]
        rw [← erase_deallocuvm _ _ _ hn, Option.map_bind, Option.bind_map]
        refine congrArg _ (funext fun y => ?_)
        obtain ⟨_, d₂, m₂⟩ := y
        exact Option.map_map ..
      · exact ih (fun b hb => hl b (List.mem_cons_of_mem _ hb)) d₁ m₁

theorem erase_allocuvm (d : Pgdir) (oldsz newsz : UInt32) (m : Ram) :
    (allocuvm d oldsz newsz m).map (Prod.map id (Prod.map Pgdir.erase id)) =
      Vm.allocuvm d.erase oldsz newsz m := by
  rw [allocuvm, Vm.allocuvm]
  split_ifs with hn
  · rfl
  · rfl
  · have hle : newsz ≤ KERNBASE := UInt32.le_of_lt (UInt32.not_le.1 hn)
    refine erase_allocLoop (fun a ha => ?_) hle d m
    rw [List.mem_range'_1] at ha
    have := npages_le hle
    omega

/-- What `allocuvm` makes of the entries: the pages in `l` get one with the permissions of user
    memory, or the entries of all the pages to be mapped are cleared. -/
theorem pte?_allocLoop (hn : newsz < KERNBASE) (hl : ∀ a ∈ l, npages oldsz ≤ a ∧ a < npages newsz)
    (hr : allocLoop oldsz newsz l d m = some (s, d', m')) :
    Extends d d' ∧ (s = newsz ∧ (∀ b < NPAGES, b ∉ l → d'.pte? b = d.pte? b) ∧
        (∀ b ∈ l, ∃ v, d'.pte? b = some (.of v (PTE_W ||| PTE_U))) ∨
      s = 0 ∧ ∀ b < NPAGES, d'.pte? b =
        if npages oldsz ≤ b ∧ b < npages newsz then none else d.pte? b) := by
  induction l generalizing d m with
  | nil =>
    obtain ⟨rfl, rfl, rfl⟩ := (by simpa [allocLoop] using hr : newsz = s ∧ d = d' ∧ m = m')
    exact ⟨.refl d, .inl ⟨rfl, fun _ _ _ => rfl, nofun⟩⟩
  | cons a l ih =>
    obtain ⟨hlo, hhi⟩ := hl a List.mem_cons_self
    have hle : newsz ≤ KERNBASE := UInt32.le_of_lt hn
    have ha : a < NPAGES := hhi.trans_le ((npages_le hle).trans (by decide))
    simp only [allocLoop] at hr
    split_ifs at hr
    · obtain ⟨⟨s₁, d₁, m₁⟩, hd, he⟩ := Option.map_eq_some_iff.1 hr
      obtain ⟨rfl, rfl, -⟩ := (by simpa using he : 0 = s ∧ d₁ = d' ∧ m₁ = m')
      exact ⟨extends_deallocuvm hd, .inr ⟨rfl, pte?_deallocuvm hd hle⟩⟩
    obtain ⟨⟨r, d₁, m₁⟩, hm, hr⟩ := Option.bind_eq_some_iff.1 hr
    have hext := extends_mapLoop hm
    obtain ⟨-, ⟨rfl, hnone, hpte⟩ | ⟨rfl, hpte⟩⟩ := mappages_cases hm ha
    · obtain ⟨hext', hcase⟩ := ih (fun b hb => hl b (List.mem_cons_of_mem _ hb)) hr
      refine ⟨hext.trans hext', hcase.imp (fun ⟨hs, hold, hnew⟩ => ⟨hs, fun b hb hbl => ?_,
        fun b hb => ?_⟩) fun ⟨hs, hback⟩ => ⟨hs, fun b hb => ?_⟩⟩
      · obtain ⟨hba, hbl⟩ := List.ne_and_not_mem_of_not_mem_cons hbl
        rw [hold b hb hbl, hpte b hb, if_neg hba]
      · by_cases hbl : b ∈ l
        · exact hnew b hbl
        · obtain rfl := (List.mem_cons.1 hb).resolve_right hbl
          exact ⟨_, by rw [hold b ha hbl, hpte b ha, if_pos rfl]⟩
      · rw [hback b hb, hpte b hb]
        by_cases hba : b = a
        · subst hba
          rw [if_pos ⟨hlo, hhi⟩, if_pos ⟨hlo, hhi⟩]
        · rw [if_neg hba]
    · obtain ⟨⟨s₂, d₂, m₂⟩, hd, hr⟩ := Option.bind_eq_some_iff.1 hr
      obtain ⟨m₃, -, he⟩ := Option.map_eq_some_iff.1 hr
      obtain ⟨rfl, rfl, -⟩ := (by simpa using he : 0 = s ∧ d₂ = d' ∧ m₃ = m')
      refine ⟨hext.trans (extends_deallocuvm hd), .inr ⟨rfl, fun b hb => ?_⟩⟩
      rw [pte?_deallocuvm hd hle b hb, hpte b]

/-! ## All or nothing -/

namespace Pgdir

/-- The first `n` pages of user memory are mapped, and no others. -/
def MapsUser (d : Pgdir) (n : ℕ) : Prop := ∀ b < NUSER, (d.pte? b).isSome ↔ b < n

theorem MapsUser.layout (h : d.MapsUser (npages s)) (hs : s < KERNBASE) : Layout d.erase s := by
  refine ⟨hs, fun b hb => ?_⟩
  have hle := npages_le (UInt32.le_of_lt hs)
  rw [pte?_erase d hb]
  split_ifs with hu
  · rw [Option.isSome_map, h b hu]
  · simp only [Option.isSome_none, Bool.false_eq_true, false_iff]
    omega

end Pgdir

/-- The translation of the page `a`, and what is in it, are as before. -/
def Kept (d d' : Pgdir) (m m' : Ram) (a : ℕ) : Prop :=
  d'.pte? a = d.pte? a ∧ ∀ p, d.pte? a = some p → m'.page (P2V p.pa) = m.page (P2V p.pa)

/-- The page `a` is clear, and the process can read and write it. -/
def Fresh (d : Pgdir) (m : Ram) (a : ℕ) : Prop :=
  ∃ p, d.pte? a = some p ∧ p.flags = PTE_P ||| PTE_W ||| PTE_U ∧ m.page (P2V p.pa) = Bytes.zero

theorem allocuvm_of_layout (h : Owns T m.kmem (d.pages + F)) (hd : d.MapsUser (npages oldsz))
    (hle : oldsz ≤ newsz) (hn : newsz < KERNBASE) : ∃ s d' m',
    allocuvm d oldsz newsz m = some (s, d', m') ∧ Owns T m'.kmem (d'.pages + F) ∧
      Extends d d' ∧
      (s = newsz ∧ d'.MapsUser (npages newsz) ∧ (∀ a < npages oldsz, Kept d d' m m' a) ∧
          (∀ a, npages oldsz ≤ a → a < npages newsz → Fresh d' m' a) ∨
        s = 0 ∧ ∀ a < NUSER, Kept d d' m m' a) := by
  have hlay := hd.layout (UInt32.lt_of_le_of_lt hle hn)
  have hN := npages_le (UInt32.le_of_lt hn)
  have hmono := npages_mono hle
  have hN' : NUSER ≤ NPAGES := by decide
  obtain ⟨s, e', m', hram, hcase⟩ := Ram.allocuvm_spec h hlay hle
  obtain ⟨⟨s', d', m''⟩, hr, he⟩ := Option.map_eq_some_iff.1 ((erase_allocuvm ..).trans hram)
  obtain ⟨rfl, rfl, rfl⟩ := (by simpa using he : s' = s ∧ d'.erase = e' ∧ m'' = m')
  have hown : Owns T m''.kmem (d'.erase.pages + F) := by
    have hvm := Ram.erase_allocuvm d.erase oldsz newsz m
    rw [hram] at hvm
    exact (Vm.allocuvm_spec h hvm.symm).1
  have hloop := hr
  rw [allocuvm, if_neg (UInt32.not_le.2 hn), if_neg (UInt32.not_lt.2 hle),
    pageOf_pgRoundUp (UInt32.le_of_lt hlay.lt)] at hloop
  have hmem (a : ℕ) : a ∈ List.range' (npages oldsz) (npages newsz - npages oldsz) ↔
      npages oldsz ≤ a ∧ a < npages newsz := by
    rw [List.mem_range'_1]
    omega
  obtain ⟨hext, hpte⟩ := pte?_allocLoop hn (fun a ha => (hmem a).1 ha) hloop
  -- what the entries were is known with their flags, and what the pages hold without them
  have hkept {a : ℕ} (ha : a < NUSER) (hp : d'.pte? a = d.pte? a)
      (hk : Vm.Kept d.erase d'.erase m m'' a) : Kept d d' m m'' a :=
    ⟨hp, fun p hd => hk.2 p.erase (by rw [Pgdir.pte?_erase_of_lt d ha, hd]; rfl)⟩
  refine ⟨s', d', m'', hr, hown, hext, ?_⟩
  obtain ⟨rfl, hk⟩ | ⟨rfl, hmaps, hk, hclear⟩ := hcase
  · obtain ⟨h0, hold, hnew⟩ | ⟨-, hback⟩ := hpte
    · -- there was nothing to map
      have hz : npages newsz = 0 := by rw [← h0]; rfl
      have hnil (b : ℕ) : b ∉ List.range' (npages oldsz) (npages newsz - npages oldsz) := by
        rw [hmem]
        omega
      exact .inr ⟨rfl, fun a ha => hkept ha (hold a (by omega) (hnil a)) (hk a (by omega))⟩
    · refine .inr ⟨rfl, fun a ha => hkept ha ?_ (hk a (by omega))⟩
      rw [hback a (by omega)]
      split_ifs with hin
      · exact (Option.not_isSome_iff_eq_none.1 (by rw [hd a ha]; omega)).symm
      · rfl
  · obtain ⟨-, hold, hnew⟩ | ⟨h0, hback⟩ := hpte
    · refine .inl ⟨rfl, fun b hb => ?_, fun a ha => hkept (by omega) ?_ (hk a ha),
        fun a hlo hhi => ?_⟩
      · have := hmaps b (by omega)
        rwa [Pgdir.pte?_erase_of_lt d' hb, Option.isSome_map] at this
      · exact hold a (by omega) (by rw [hmem]; omega)
      · obtain ⟨v, hv⟩ := hnew a ((hmem a).2 ⟨hlo, hhi⟩)
        obtain ⟨p, hp, -, hzero⟩ := hclear a hlo hhi
        rw [Pgdir.pte?_erase_of_lt d' (by omega), hv, Option.map_some, Option.some_inj] at hp
        subst hp
        exact ⟨_, hv, (by decide : PTE_W ||| PTE_U ||| PTE_P = PTE_P ||| PTE_W ||| PTE_U), hzero⟩
    · -- the size 0 is the one that was asked for
      have hz : npages s' = 0 := by rw [h0]; rfl
      refine .inl ⟨rfl, fun b hb => ?_, fun a ha => absurd ha (by omega),
        fun a _ hhi => absurd hhi (by omega)⟩
      have := hmaps b (by omega)
      rwa [Pgdir.pte?_erase_of_lt d' hb, Option.isSome_map] at this

/-- `allocuvm` of a directory that maps the pages below `oldsz` maps those below `newsz`, or fails
    and leaves the memory of the process as it was: what it took is free again, but for the new page
    tables. -/
theorem allocuvm_undoes (h : Owns T m.kmem (d.pages + F)) (hd : d.MapsUser (npages oldsz))
    (hle : oldsz ≤ newsz) (hn : newsz < KERNBASE) : ∃ s d' m',
    allocuvm d oldsz newsz m = some (s, d', m') ∧
      (s = newsz ∧ d'.MapsUser (npages newsz) ∧ (∀ a < npages oldsz, Kept d d' m m' a) ∧
          (∀ a, npages oldsz ≤ a → a < npages newsz → Fresh d' m' a) ∨
        s = 0 ∧ (∀ a < NUSER, Kept d d' m m' a) ∧
          ∀ v, Free m.kmem v → Free m'.kmem v ∨ ∃ i, d.tabPage i = none ∧
          d'.tabPage i = some v) := by
  obtain ⟨s, d', m', hr, hown, hext, hcase⟩ := allocuvm_of_layout h hd hle hn
  refine ⟨s, d', m', hr, hcase.imp_right fun ⟨hs, hk⟩ => ⟨hs, hk, fun v hv => ?_⟩⟩
  obtain ⟨hT, hv⟩ := (free_iff h).1 hv
  rw [free_iff hown]
  by_cases hv' : v ∈ d'.pages + F
  · refine .inr ?_
    have hd' : v ∈ d'.pages :=
      (Multiset.mem_add.1 hv').resolve_right fun hF => hv (Multiset.mem_add.2 (.inr hF))
    have hnot : v ∉ d.pages := fun hm => hv (Multiset.mem_add.2 (.inl hm))
    rw [Pgdir.mem_pages_iff, not_or, not_or] at hnot
    obtain ⟨hpage, htab, hmap⟩ := hnot
    rcases Pgdir.mem_pages_iff.1 hd' with rfl | ⟨i, hi⟩ | ⟨b, hb, p, hp, rfl⟩
    · exact absurd hext.page hpage
    · cases ht : d.tabPage i with
      | none => exact ⟨i, ht, hi⟩
      | some w =>
        obtain rfl := Option.some.inj ((hext.tab i w ht).symm.trans hi)
        exact absurd ⟨i, ht⟩ htab
    · exact absurd ⟨b, hb, p, (hk b hb).1 ▸ hp, rfl⟩ hmap
  · exact .inl ⟨hT, hv'⟩

/-- Two free pages. -/
def twoPages : Ram where
  kmem := { freelist := 0x80401000, next := fun v => if v = 0x80401000 then 0x80402000 else 0 }
  page _ := Bytes.zero

/-- They are taken for a page and its page table. If two pages are asked for, there is none for the
    second, and the first is freed again. -/
theorem allocuvm_undoes_twoPages : ∃ d₁ m₁ d₂ m₂,
    allocuvm { page := 0x80400000 } 0 4096 twoPages = some (4096, d₁, m₁) ∧ Fresh d₁ m₁ 0 ∧
    allocuvm { page := 0x80400000 } 0 8192 twoPages = some (0, d₂, m₂) ∧
    d₂.tabPage 0 = some 0x80402000 ∧ Free m₂.kmem 0x80401000 ∧ ∀ a < NUSER, d₂.pte? a = none := by
  have hpages : ({ page := 0x80400000 } : Pgdir).pages = {0x80400000} := Vm.Pgdir.pages_mk _
  have hown : Owns ↑[(0x80401000 : Addr), 0x80402000, 0x80400000] twoPages.kmem
      (({ page := 0x80400000 } : Pgdir).pages + 0) :=
    ⟨by decide, fun v hv => by
      obtain rfl | rfl | rfl : v = 0x80401000 ∨ v = 0x80402000 ∨ v = 0x80400000 := by simpa using hv
      all_goals decide, [0x80401000, 0x80402000], ⟨rfl, rfl, rfl⟩, by rw [hpages]; decide⟩
  have hmaps : ({ page := 0x80400000 } : Pgdir).MapsUser (npages 0) := fun b _ => by
    simp [Pgdir.pte?, npages]
  have hone : (0 : UInt32) ≤ 4096 := by decide
  have htwo : (0 : UInt32) ≤ 8192 := by decide
  obtain ⟨s₁, d₁, m₁, hr₁, hcase₁⟩ := allocuvm_undoes hown hmaps hone (by decide)
  obtain ⟨s₂, d₂, m₂, hr₂, hcase₂⟩ := allocuvm_undoes hown hmaps htwo (by decide)
  have hgrows : (allocuvm { page := 0x80400000 } 0 4096 twoPages).all fun x =>
      decide (x.1 = 4096) := by
    decide +kernel
  have hfails : (allocuvm { page := 0x80400000 } 0 8192 twoPages).all fun x =>
      decide (x.1 = 0 ∧ ∀ i, x.2.1.tabPage i = if i = 0 then some 0x80402000 else none) := by
    decide +kernel
  rw [hr₁] at hgrows
  rw [hr₂] at hfails
  obtain rfl := of_decide_eq_true hgrows
  obtain ⟨rfl, htab⟩ := of_decide_eq_true hfails
  obtain ⟨-, -, -, hfresh⟩ | ⟨h0, -⟩ := hcase₁
  swap
  · exact absurd h0 (by decide)
  obtain ⟨h0, -⟩ | ⟨-, hk, hfree⟩ := hcase₂
  · exact absurd h0 (by decide)
  refine ⟨d₁, m₁, d₂, m₂, hr₁, hfresh 0 (by decide) (by decide), hr₂, htab 0, ?_,
    fun a ha => (hk a ha).1⟩
  refine (hfree 0x80401000
    ⟨[0x80401000, 0x80402000], ⟨rfl, rfl, rfl⟩, by decide, by decide⟩).resolve_right ?_
  rintro ⟨i, -, hi⟩
  rw [htab i] at hi
  split_ifs at hi
  exact absurd (Option.some.inj hi) (by decide)

end Xv6.Uvm
