import Xv6.Lib.Bytes
import Xv6.Vm.Pages

/-!
# Growing and shrinking a process

`growproc` with the contents of the pages: `kfree` fills a page with ones, and `allocuvm` clears the
pages it maps. Without the contents, the functions are those of `vm.c` as they are elsewhere
(`Ram.erase_allocuvm`).

`growproc` does all that it is asked for, or nothing, unless it is to take all the memory of a
process, or more than that (`growproc_all_or_nothing_iff`). If it is to take exactly all, it does
so, but the new size 0 is taken for a failure. If it is to take more, the new size wraps around to
one above the old, and `deallocuvm` returns the old size for success.
-/

namespace Xv6.Vm

open Kmem

/-- The allocator, and the contents of the pages. The link of a free page is in the allocator, and
    the contents of page tables are in the directories. -/
structure Ram where
  kmem : Kmem
  page : Addr → Bytes

namespace Ram

/-- `memset` of a whole page. -/
def memset (m : Ram) (v : Addr) (x : UInt8) : Ram :=
  { m with page := Function.update m.page v fun _ => x }

/-- A page is freed, and filled with 1s. -/
def kfree (m : Ram) (v : Addr) : Option Ram :=
  (Vm.kfree m.kmem v).map fun k => { m.memset v 1 with kmem := k }

/-- A page, with what is in it. -/
def kalloc (m : Ram) : Addr × Ram := ((Vm.kalloc m.kmem).1, { m with kmem := (Vm.kalloc m.kmem).2 })

/-- `mappages` of one page. -/
def mappages (d : Pgdir) (a : ℕ) (pa : Addr) (user : Bool) (m : Ram) :
    Option (Bool × Pgdir × Ram) :=
  (Vm.mappages d a pa user m.kmem).map fun (r, d, k) => (r, d, { m with kmem := k })

instance : HasPages Ram := ⟨kalloc, kfree, memset, mappages⟩

/-- `growproc` of a process with the directory `d` and the size `sz`. -/
def growproc (n : Int32) (d : Pgdir) (sz : UInt32) (m : Ram) :
    Option (Int32 × Pgdir × UInt32 × Ram) :=
  if n > 0 then
    (allocuvm d sz (sz + n.toUInt32) m).map fun (sz', d, m) =>
      if sz' = 0 then (-1, d, sz, m) else (0, d, sz', m)
  else if n < 0 then
    (deallocuvm d sz (sz + n.toUInt32) m).map fun (sz', d, m) =>
      if sz' = 0 then (-1, d, sz, m) else (0, d, sz', m)
  else some (0, d, sz, m)

/-! ## Without the contents -/

variable {T F own : Multiset Addr} {v : Addr} {m m' : Ram} {d d' : Pgdir} {a b fuel stop : ℕ}
  {oldsz newsz s sz sz' : UInt32} {l : List ℕ}

theorem erase_kfree (m : Ram) (v : Addr) : (m.kfree v).map kmem = Vm.kfree m.kmem v := by
  rw [kfree, Option.map_map]
  exact Option.map_id'

theorem erase_deallocLoop (stop fuel a : ℕ) (d : Pgdir) (m : Ram) :
    (deallocLoop stop fuel a d m).map (Prod.map id kmem) =
      deallocLoop stop fuel a d m.kmem := by
  induction fuel generalizing a d m with
  | zero => rfl
  | succ fuel ih =>
    rw [deallocLoop, deallocLoop]
    split_ifs with hstop
    · rfl
    · cases walkpgdir d a with
      | none => exact ih ..
      | some x =>
        cases x with
        | none => exact ih ..
        | some p =>
          dsimp only [HasPages.kfree]
          split_ifs with hp
          · rfl
          · rw [← erase_kfree, Option.map_bind, Option.bind_map]
            exact congrArg _ (funext fun m => ih ..)

theorem erase_deallocuvm (d : Pgdir) (oldsz newsz : UInt32) (m : Ram) :
    (deallocuvm d oldsz newsz m).map (Prod.map id (Prod.map id kmem)) =
      deallocuvm d oldsz newsz m.kmem := by
  rw [deallocuvm, deallocuvm]
  split_ifs
  · rfl
  · rw [← erase_deallocLoop, Option.map_map, Option.map_map]
    rfl

theorem erase_mappages (d : Pgdir) (a : ℕ) (pa : Addr) (user : Bool) (m : Ram) :
    (mappages d a pa user m).map (Prod.map id (Prod.map id kmem)) =
      Vm.mappages d a pa user m.kmem := by
  rw [mappages, Option.map_map]
  exact Option.map_id'

theorem erase_allocLoop (oldsz newsz : UInt32) (l : List ℕ) (d : Pgdir) (m : Ram) :
    (allocLoop oldsz newsz l d m).map (Prod.map id (Prod.map id kmem)) =
      allocLoop oldsz newsz l d m.kmem := by
  induction l generalizing d m with
  | nil => rfl
  | cons a l ih =>
    simp only [allocLoop, HasPages.kalloc, HasPages.kfree, HasPages.memset, HasPages.mappages]
    by_cases hmem : (Vm.kalloc m.kmem).1 = 0
    · rw [if_pos (show m.kalloc.1 = 0 from hmem), if_pos hmem,
        ← show m.kalloc.2.kmem = (Vm.kalloc m.kmem).2 from rfl, ← erase_deallocuvm,
        Option.map_map, Option.map_map]
      rfl
    · rw [if_neg (show m.kalloc.1 ≠ 0 from hmem), if_neg hmem,
        ← show (m.kalloc.2.memset m.kalloc.1 0).kmem = (Vm.kalloc m.kmem).2 from rfl,
        ← show m.kalloc.1 = (Vm.kalloc m.kmem).1 from rfl, ← erase_mappages,
        Option.map_bind, Option.bind_map]
      refine congrArg _ (funext fun x => ?_)
      obtain ⟨_ | _, d₁, m₁⟩ := x
      · change Option.map _ ((deallocuvm d₁ newsz oldsz m₁).bind _) =
          (Vm.deallocuvm d₁ newsz oldsz m₁.kmem).bind _
        rw [← erase_deallocuvm, Option.map_bind, Option.bind_map]
        refine congrArg _ (funext fun y => ?_)
        obtain ⟨_, d₂, m₂⟩ := y
        change Option.map _ (Option.map _ (m₂.kfree _)) = Option.map _ (Vm.kfree m₂.kmem _)
        rw [← erase_kfree, Option.map_map, Option.map_map]
        rfl
      · exact ih ..

theorem erase_allocuvm (d : Pgdir) (oldsz newsz : UInt32) (m : Ram) :
    (allocuvm d oldsz newsz m).map (Prod.map id (Prod.map id kmem)) =
      allocuvm d oldsz newsz m.kmem := by
  rw [allocuvm, allocuvm]
  split_ifs
  · rfl
  · rfl
  · exact erase_allocLoop ..

/-! ## Contents -/

theorem pages_le_walk (d : Pgdir) (a : ℕ) (k : Kmem) :
    d.pages ≤ (walkpgdirAlloc d a k).2.1.pages := by
  rw [walkpgdirAlloc]
  split_ifs with htab hk
  · exact le_rfl
  · exact le_rfl
  · rw [Pgdir.pages_addTab (by simpa using htab)]
    exact Multiset.le_cons_self _ _

/-- `mappages` takes no page away. -/
theorem pages_le_mappages {u r : Bool} {k k' : Kmem}
    (h : Vm.mappages d a v u k = some (r, d', k')) : d.pages ≤ d'.pages := by
  have hw := pages_le_walk d a k
  have ht := hasTab_walk (d := d) (a := a) (k := k)
  rw [Vm.mappages] at h
  generalize walkpgdirAlloc d a k = x at h hw ht
  obtain ⟨_ | _, d₁, k₁⟩ := x
  · obtain ⟨-, rfl, -⟩ := (by simpa using h : false = r ∧ d₁ = d' ∧ k₁ = k')
    exact hw
  · simp only [Option.ite_none_left_eq_some, Option.some.injEq, Prod.mk.injEq] at h
    obtain ⟨hn, -, rfl, -⟩ := h
    have hset := Pgdir.pages_setPte (d := d₁) (a := a) (x := some ⟨v, u⟩) ((ht rfl _).2 (.inr rfl))
    rw [Option.not_isSome_iff_eq_none.1 hn, mapped_none, add_zero] at hset
    rw [hset]
    exact hw.trans (Multiset.le_add_right _ _)

theorem page_kfree (h : m.kfree v = some m') {w : Addr} (hw : w ≠ v) : m'.page w = m.page w := by
  obtain ⟨k, -, rfl⟩ := Option.map_eq_some_iff.1 h
  exact Function.update_of_ne hw ..

/-- Only the pages that were mapped are freed. -/
theorem page_deallocLoop (hr : deallocLoop stop fuel a d m = some (d', m')) (hs : stop ≤ NPAGES)
    (hv : ∀ b p, a ≤ b → b < stop → d.pte? b = some p → p.page ≠ v) : m'.page v = m.page v := by
  induction fuel generalizing a d m with
  | zero =>
    obtain ⟨-, rfl⟩ := Prod.mk.inj (Option.some.inj hr)
    rfl
  | succ fuel ih =>
    rw [deallocLoop, walkpgdir_eq] at hr
    split_ifs at hr with hstop htab
    · obtain ⟨-, rfl⟩ := Prod.mk.inj (Option.some.inj hr)
      rfl
    · cases hp : d.pte? a with
      | none =>
        rw [hp] at hr
        exact ih hr fun b p hb => hv b p (by omega)
      | some p =>
        rw [hp] at hr
        dsimp only at hr
        split_ifs at hr with hpage
        obtain ⟨m₁, hfree, hr⟩ := Option.bind_eq_some_iff.1 hr
        have hne : v ≠ p.page := (hv a p le_rfl (by omega) hp).symm
        refine (ih hr fun b q hb hlt hq => ?_).trans (page_kfree hfree hne)
        rw [Pgdir.pte?_setPte htab (by omega) (by omega), if_neg (by omega)] at hq
        exact hv b q (by omega) hlt hq
    · have hnext : a ≤ (a / NPTENTRIES + 1) * NPTENTRIES := by simp only [NPTENTRIES]; omega
      exact ih hr fun b p hb => hv b p (hnext.trans hb)

theorem page_deallocuvm (hr : deallocuvm d oldsz newsz m = some (s, d', m')) (ho : oldsz ≤ KERNBASE)
    (hv : ∀ b p, npages newsz ≤ b → b < npages oldsz → d.pte? b = some p → p.page ≠ v) :
    m'.page v = m.page v := by
  rw [deallocuvm] at hr
  split_ifs at hr with hle
  · obtain ⟨-, -, rfl⟩ := (by simpa using hr : oldsz = s ∧ d = d' ∧ m = m')
    rfl
  · obtain ⟨⟨d₁, m₁⟩, hloop, he⟩ := Option.map_eq_some_iff.1 hr
    obtain ⟨-, rfl, rfl⟩ := (by simpa using he : newsz = s ∧ d₁ = d' ∧ m₁ = m')
    have hn : newsz ≤ KERNBASE := UInt32.le_trans (UInt32.le_of_lt (UInt32.not_le.1 hle)) ho
    rw [pageOf_pgRoundUp hn] at hloop
    exact page_deallocLoop hloop ((npages_le ho).trans (by decide)) hv

/-- What `allocuvm` makes of the contents: if it gives a size, the pages it has mapped are clear,
    and nothing else has changed; and if it fails, what was mapped before is as it was. -/
theorem page_allocLoop (h : Owns T m.kmem (d.pages + F)) (hn : newsz < KERNBASE)
    (hl : ∀ a ∈ l, npages oldsz ≤ a ∧ a < npages newsz)
    (hr : allocLoop oldsz newsz l d m = some (s, d', m')) :
    s = newsz ∧ (∀ b < NPAGES, ∀ p, d.pte? b = some p → d'.pte? b = some p) ∧
        (∀ v ∈ d.pages + F, m'.page v = m.page v) ∧
        (∀ b ∈ l, ∃ p, d'.pte? b = some p ∧ p.user ∧ m'.page p.page = Bytes.zero) ∨
      s = 0 ∧ ∀ v ∈ d.pages + F, (∀ b p, npages oldsz ≤ b → b < npages newsz → d.pte? b = some p →
        p.page ≠ v) → m'.page v = m.page v := by
  induction l generalizing d m with
  | nil =>
    obtain ⟨rfl, rfl, rfl⟩ := (by simpa [allocLoop] using hr : newsz = s ∧ d = d' ∧ m = m')
    exact .inl ⟨rfl, fun _ _ _ hp => hp, fun _ _ => rfl, by simp⟩
  | cons a l ih =>
    obtain ⟨hlo, hhi⟩ := hl a List.mem_cons_self
    have hle : newsz ≤ KERNBASE := UInt32.le_of_lt hn
    have ha : a < NPAGES := by
      have := npages_le hle
      simp only [NPAGES, NUSER] at *
      omega
    simp only [allocLoop, HasPages.kalloc, HasPages.kfree, HasPages.memset, HasPages.mappages]
      at hr
    rcases h.kalloc with ⟨hk, ho⟩ | ⟨hk, ho⟩
    · rw [if_pos (show m.kalloc.1 = 0 from hk)] at hr
      obtain ⟨⟨s₁, d₁, m₁⟩, hd, he⟩ := Option.map_eq_some_iff.1 hr
      obtain ⟨rfl, rfl, rfl⟩ := (by simpa using he : 0 = s ∧ d₁ = d' ∧ m₁ = m')
      exact .inr ⟨rfl, fun v _ hv => (page_deallocuvm hd hle hv :)⟩
    -- the page is in nobody's hands
    have hfresh {v : Addr} (hv : v ∈ d.pages + F) : v ≠ m.kalloc.1 := fun he =>
      (Multiset.nodup_cons.1 ho.nodup_own).1 (he ▸ hv)
    have hclear {v : Addr} (hv : v ∈ d.pages + F) :
        (m.kalloc.2.memset m.kalloc.1 0).page v = m.page v :=
      Function.update_of_ne (hfresh hv) ..
    rw [if_neg (show m.kalloc.1 ≠ 0 from hk)] at hr
    obtain ⟨⟨r, d₁, m₁⟩, hm, hr⟩ := Option.bind_eq_some_iff.1 hr
    obtain ⟨⟨r', d₁', k₁⟩, hmap, he⟩ := Option.map_eq_some_iff.1 hm
    obtain ⟨rfl, rfl, rfl⟩ := (by simpa using he : r' = r ∧ d₁' = d₁ ∧ _ = m₁)
    replace hmap : Vm.mappages d a (Vm.kalloc m.kmem).1 true (Vm.kalloc m.kmem).2 =
      some (r', d₁', k₁) := hmap
    have ho₁ := owns_mappages (F := F) (ho.of_eq (Multiset.add_cons _ _ _)) hmap
    have hmem {v : Addr} (hv : v ∈ d.pages + F) : v ∈ d₁'.pages + F :=
      Multiset.mem_of_le (Multiset.add_le_add_right (pages_le_mappages hmap)) hv
    rcases mappages_cases hmap ha with ⟨rfl, hnone, hpte, -⟩ | ⟨rfl, hw⟩
    · have hnew : d₁'.pte? a = some ⟨m.kalloc.1, true⟩ := by rw [hpte a ha, if_pos rfl]; rfl
      have hold {b : ℕ} (hb : b < NPAGES) {p : Pte} (hp : d.pte? b = some p) :
          d₁'.pte? b = some p := by
        have hba : b ≠ a := fun he => by rw [he, hnone] at hp; cases hp
        rw [hpte b hb, if_neg hba, hp]
      obtain ⟨rfl, hkept, hpage, hzero⟩ | ⟨rfl, hpage⟩ := ih (by simpa using ho₁)
        (fun b hb => hl b (List.mem_cons_of_mem _ hb)) hr
      · refine .inl ⟨rfl, fun b hb p hp => hkept b hb p (hold hb hp),
          fun v hv => (hpage v (hmem hv)).trans (hclear hv), ?_⟩
        intro b hb
        rcases List.mem_cons.1 hb with rfl | hb
        · refine ⟨_, hkept b ha _ hnew, rfl, ?_⟩
          rw [hpage _ (Multiset.mem_add.2 (.inl (mem_pages hnew)))]
          exact Function.update_self ..
        · exact hzero b hb
      · refine .inr ⟨rfl, fun v hv hout => (hpage v (hmem hv) ?_).trans (hclear hv)⟩
        intro b p hlo' hhi' hp
        have hb : b < NPAGES := hhi'.trans_le ((npages_le hle).trans (by decide))
        rw [hpte b hb] at hp
        split_ifs at hp with hba
        · obtain rfl := Option.some.inj hp
          exact (hfresh hv).symm
        · exact hout b p hlo' hhi' hp
    · obtain ⟨⟨s₂, d₂, m₂⟩, hd, hr⟩ := Option.bind_eq_some_iff.1 hr
      obtain ⟨m₃, hfree, he⟩ := Option.map_eq_some_iff.1 hr
      obtain ⟨rfl, rfl, rfl⟩ := (by simpa using he : 0 = s ∧ d₂ = d' ∧ m₃ = m')
      refine .inr ⟨rfl, fun v hv hout => ?_⟩
      rw [page_kfree hfree (hfresh hv), page_deallocuvm hd hle fun b p hlo' hhi' hp =>
        hout b p hlo' hhi' ((hw.pte? b).symm.trans hp)]
      exact hclear hv

end Ram

/-! ## All or nothing -/

variable {T F : Multiset Addr} {k k' : Kmem} {m m' : Ram} {d d' : Pgdir} {a b : ℕ}
  {oldsz newsz s sz sz' : UInt32} {l : List ℕ} {n r : Int32}

theorem allocLoop_ne_none (h : Owns T k (d.pages + F)) (hn : newsz < KERNBASE)
    (hl : ∀ a ∈ l, npages oldsz ≤ a ∧ a < npages newsz ∧ d.pte? a = none) (hnd : l.Nodup) :
    allocLoop oldsz newsz l d k ≠ none := by
  induction l generalizing d k with
  | nil => exact Option.some_ne_none _
  | cons a l ih =>
    obtain ⟨hlo, hhi, hnone⟩ := hl a List.mem_cons_self
    have hlt : oldsz < newsz := by
      refine UInt32.not_le.1 fun hle => ?_
      have := npages_mono hle
      omega
    have hsmall {b : ℕ} (hb : b < npages newsz) : b < NPAGES :=
      hb.trans_le ((npages_le (UInt32.le_of_lt hn)).trans (by decide))
    simp only [allocLoop, HasPages.kalloc, HasPages.kfree, HasPages.memset, HasPages.mappages]
    rcases h.kalloc with ⟨hk, ho⟩ | ⟨hk, ho⟩
    · obtain ⟨d₁, k₁, hd, -⟩ := exists_undo ho hn hlt
      rw [if_pos hk, hd]
      exact Option.some_ne_none _
    obtain ⟨⟨r, d₁, k₁⟩, hm⟩ := Option.ne_none_iff_exists'.1
      (mappages_ne_none (v := (kalloc k).1) (u := true) (k := (kalloc k).2) hnone)
    have ho₁ := owns_mappages (F := F) (ho.of_eq (Multiset.add_cons _ _ _)) hm
    rw [if_neg hk, hm, Option.bind_some]
    rcases mappages_cases hm (hsmall hhi) with ⟨rfl, -, hpte, -⟩ | ⟨rfl, -⟩
    · refine ih (by simpa using ho₁) (fun b hb => ?_) hnd.of_cons
      obtain ⟨hlo', hhi', hb'⟩ := hl b (List.mem_cons_of_mem _ hb)
      have hba : b ≠ a := fun he => (List.nodup_cons.1 hnd).1 (he ▸ hb)
      exact ⟨hlo', hhi', by rw [hpte b (hsmall hhi'), if_neg hba, hb']⟩
    · obtain ⟨d₂, k₂, hd, ho₂, -⟩ := exists_undo ho₁ hn hlt
      rw [if_neg (by simp), Multiset.add_cons] at ho₂
      obtain ⟨k₃, hk₃, -⟩ := ho₂.kfree
      simp [hd, hk₃]

/-- The pages of a directory are mapped once. -/
theorem page_ne (h : Owns T k (d.pages + F)) (ha : a < NPAGES) (hb : b < NPAGES) (hab : b ≠ a)
    {p q : Pte} (hp : d.pte? a = some p) (hq : d.pte? b = some q) : q.page ≠ p.page := by
  have htab : d.hasTab (pdx a) := Pgdir.hasTab_of_pte? (hp ▸ rfl)
  have hset := Pgdir.pages_setPte (x := none) htab
  rw [hp, mapped_some, mapped_none, add_zero] at hset
  have hnodup := (Multiset.nodup_add.1 h.nodup_own).1
  rw [← hset, Multiset.add_comm, Multiset.singleton_add, Multiset.nodup_cons] at hnodup
  have hq' : (d.setPte a none).pte? b = some q := by
    rw [Pgdir.pte?_setPte htab ha hb, if_neg hab, hq]
  exact fun he => hnodup.1 (he ▸ mem_pages hq')

/-- The page `a` of the process is as it was. -/
def Kept (d d' : Pgdir) (m m' : Ram) (a : ℕ) : Prop :=
  d'.pte? a = d.pte? a ∧ ∀ p, d.pte? a = some p → m'.page p.page = m.page p.page

/-- `growproc` has moved the end of the memory by `n`: the pages that were added are clear. -/
structure Grew (n : Int32) (d d' : Pgdir) (sz sz' : UInt32) (m m' : Ram) : Prop where
  size : (sz'.toNat : ℤ) = sz.toNat + n.toInt
  maps : d'.Maps (npages sz')
  kept : ∀ a < npages sz, a < npages sz' → Kept d d' m m' a
  clear : ∀ a, npages sz ≤ a → a < npages sz' →
    ∃ p, d'.pte? a = some p ∧ p.user ∧ m'.page p.page = Bytes.zero

/-- `growproc` does what it is asked for, or it fails and does nothing. -/
def AllOrNothing (n : Int32) (d : Pgdir) (sz : UInt32) (m : Ram) : Prop :=
  ∃ r d' sz' m', Ram.growproc n d sz m = some (r, d', sz', m') ∧
    (r = 0 ∧ Grew n d d' sz sz' m m' ∨ r = -1 ∧ sz' = sz ∧ ∀ a < NPAGES, Kept d d' m m' a)

theorem kept_self (d : Pgdir) (m : Ram) (a : ℕ) : Kept d d m m a := ⟨rfl, fun _ _ => rfl⟩

/-- The two ranges of an `int`, as the `uint` it becomes. -/
theorem toInt_cases (n : Int32) :
    0 ≤ n ∧ n.toInt = n.toUInt32.toNat ∧ n.toUInt32.toNat < 2147483648 ∨
      n < 0 ∧ n.toInt = n.toUInt32.toNat - 4294967296 ∧ 2147483648 ≤ n.toUInt32.toNat := by
  have he : n.toUInt32.toNat = n.toBitVec.toNat := rfl
  have ht : n.toInt = n.toBitVec.toInt := rfl
  have hlt := n.toBitVec.isLt
  rw [Int32.le_iff_toInt_le, Int32.lt_iff_toInt_lt, Int32.toInt_zero, ht, he,
    BitVec.toInt_eq_toNat_cond]
  split_ifs <;> omega

/-- `allocuvm` of a process grows its memory, or fails and leaves it as it was. -/
theorem Ram.allocuvm_spec (h : Owns T m.kmem (d.pages + F)) (hl : Layout d sz)
    (hle : sz ≤ newsz) : ∃ s d' m', allocuvm d sz newsz m = some (s, d', m') ∧
      (s = 0 ∧ (∀ a < NPAGES, Kept d d' m m' a) ∨
        s = newsz ∧ d'.Maps (npages newsz) ∧ (∀ a < npages sz, Kept d d' m m' a) ∧
        ∀ a, npages sz ≤ a → a < npages newsz →
          ∃ p, d'.pte? a = some p ∧ p.user ∧ m'.page p.page = Bytes.zero) := by
  rw [allocuvm]
  split_ifs with hn hlt
  · exact ⟨0, d, m, rfl, .inl ⟨rfl, fun a _ => kept_self d m a⟩⟩
  · exact absurd hle (UInt32.not_le.2 hlt)
  have hn : newsz < KERNBASE := UInt32.not_le.1 hn
  have hN := npages_le (UInt32.le_of_lt hn)
  have hN' : NUSER ≤ NPAGES := by decide
  have hmono := npages_mono hle
  rw [pageOf_pgRoundUp (UInt32.le_of_lt hl.lt)]
  -- the pages to map are those that were not mapped
  have hmem (a : ℕ) : a ∈ List.range' (npages sz) (npages newsz - npages sz) ↔
      npages sz ≤ a ∧ a < npages newsz := by
    rw [List.mem_range'_1]
    omega
  have hnone {a : ℕ} (hlo : npages sz ≤ a) (hhi : a < npages newsz) : d.pte? a = none := by
    rw [← Option.not_isSome_iff_eq_none, hl.maps a (by omega)]
    omega
  have hnodup : (List.range' (npages sz) (npages newsz - npages sz)).Nodup := List.nodup_range'
  generalize List.range' (npages sz) (npages newsz - npages sz) = l at hmem hnodup
  obtain ⟨⟨s, d', m'⟩, hr⟩ : ∃ x, allocLoop sz newsz l d m = some x := by
    refine Option.ne_none_iff_exists'.1 fun he => ?_
    have herase := erase_allocLoop sz newsz l d m
    rw [he] at herase
    refine allocLoop_ne_none h hn (fun a ha => ?_) hnodup herase.symm
    obtain ⟨hlo, hhi⟩ := (hmem a).1 ha
    exact ⟨hlo, hhi, hnone hlo hhi⟩
  have hr' : Vm.allocLoop sz newsz l d m.kmem = some (s, d', m'.kmem) := by
    rw [← erase_allocLoop, hr]
    rfl
  obtain ⟨-, hwithin, hspec⟩ := allocLoop_spec h hn (fun a ha => (hmem a).1 ha) hr'
  have hown {a : ℕ} {p : Pte} (hp : d.pte? a = some p) : p.page ∈ d.pages + F :=
    Multiset.mem_add.2 (.inl (mem_pages hp))
  refine ⟨s, d', m', hr, ?_⟩
  obtain ⟨hs, hkept, hpage, hzero⟩ | ⟨rfl, hpage⟩ :=
    page_allocLoop h hn (fun a ha => (hmem a).1 ha) hr
  · have hold {a : ℕ} (ha : a < npages sz) : Kept d d' m m' a := by
      obtain ⟨p, hp⟩ := Option.isSome_iff_exists.1 ((hl.maps a (by omega)).2 ha)
      refine ⟨by rw [hp, hkept a (by omega) p hp], fun q hq => hpage _ (hown hq)⟩
    refine .inr ⟨hs, fun a ha => ?_, fun a => hold, fun a hlo hhi => hzero a
      ((hmem a).2 ⟨hlo, hhi⟩)⟩
    by_cases hlo : a < npages sz
    · rw [(hold hlo).1, hl.maps a ha]
      omega
    by_cases hhi : a < npages newsz
    · obtain ⟨p, hp, -⟩ := hzero a ((hmem a).2 ⟨by omega, hhi⟩)
      simp [hp, hhi]
    · rw [hwithin.pte? a ha (.inr (by omega)), hl.maps a ha]
      omega
  · refine .inl ⟨rfl, fun a ha => ⟨?_, fun p hp => hpage _ (hown hp) fun b q hlo hhi hq => ?_⟩⟩
    · by_cases hin : npages sz ≤ a ∧ a < npages newsz
      · -- what was mapped is taken back
        rw [hnone hin.1 hin.2]
        obtain ⟨h0, hmaps⟩ | ⟨-, hback⟩ := hspec
        · rw [← h0] at hin
          exact absurd hin.2 (by simp [npages])
        · exact hback a hin.1 hin.2
      · exact hwithin.pte? a ha (by omega)
    · rw [hnone hlo hhi] at hq
      cases hq

/-- `growproc` that is to add memory. -/
theorem allOrNothing_of_pos (h : Owns T m.kmem (d.pages + F)) (hl : Layout d sz) (hn : 0 < n) :
    AllOrNothing n d sz m := by
  have hsz : sz.toNat < 2147483648 := UInt32.lt_iff_toNat_lt.1 hl.lt
  obtain ⟨-, hint, hlt⟩ | ⟨hneg, -⟩ := toInt_cases n
  · have hadd : (sz + n.toUInt32).toNat = sz.toNat + n.toUInt32.toNat := by
      rw [UInt32.toNat_add]
      omega
    obtain ⟨s, d', m', hr, hcase⟩ := Ram.allocuvm_spec h hl
      (show sz ≤ sz + n.toUInt32 from UInt32.le_iff_toNat_le.2 (by omega))
    have hne : sz + n.toUInt32 ≠ 0 := add_ne_zero_of_pos hn hl.lt
    rw [AllOrNothing, Ram.growproc, if_pos hn, hr]
    obtain ⟨rfl, hkept⟩ | ⟨rfl, hmaps, hkept, hclear⟩ := hcase
    · exact ⟨-1, d', sz, m', rfl, .inr ⟨rfl, rfl, hkept⟩⟩
    · refine ⟨0, d', sz + n.toUInt32, m', by simp [hne], .inl ⟨rfl, ?_, hmaps, ?_, hclear⟩⟩
      · rw [hadd, hint]
        push_cast
        rfl
      · exact fun a ha _ => hkept a ha
  · exact absurd hneg (Int32.lt_asymm hn)

/-- `deallocuvm` of a process takes the pages above `newsz`, and leaves the others. -/
theorem Ram.deallocuvm_spec (h : Owns T m.kmem (d.pages + F)) (hl : Layout d sz)
    (hlt : newsz < sz) : ∃ d' m', deallocuvm d sz newsz m = some (newsz, d', m') ∧
      d'.Maps (npages newsz) ∧ ∀ a < npages newsz, Kept d d' m m' a := by
  have hsz : sz ≤ KERNBASE := UInt32.le_of_lt hl.lt
  have hmono := npages_mono (UInt32.le_of_lt hlt)
  have hN := npages_le hsz
  have hN' : NUSER ≤ NPAGES := by decide
  obtain ⟨d', k', hd, -, hpte, -⟩ := exists_deallocuvm sz newsz h hsz hlt
  rw [← erase_deallocuvm] at hd
  obtain ⟨⟨s, d₁, m'⟩, hr, he⟩ := Option.map_eq_some_iff.1 hd
  obtain ⟨rfl, rfl, rfl⟩ := (by simpa using he : s = newsz ∧ d₁ = d' ∧ m'.kmem = k')
  refine ⟨d₁, m', hr, fun a ha => ?_, fun a ha => ⟨?_, fun p hp => ?_⟩⟩
  · rw [hpte a ha]
    split_ifs with hin
    · simp [hin.1]
    · rw [hl.maps a ha]
      omega
  · rw [hpte a (by omega), if_neg (by omega)]
  · refine page_deallocuvm hr hsz fun b q hlo hhi hq => ?_
    exact page_ne h (by omega) (by omega) (by omega) hp hq

/-- `growproc` that is to take a part of the memory. -/
theorem allOrNothing_of_neg (h : Owns T m.kmem (d.pages + F)) (hl : Layout d sz) (hn : n < 0)
    (hpos : 0 < (sz.toNat : ℤ) + n.toInt) : AllOrNothing n d sz m := by
  obtain ⟨h0, -⟩ | ⟨-, hint, hge⟩ := toInt_cases n
  · exact absurd hn (Int32.not_lt.2 h0)
  have hadd : ((sz + n.toUInt32).toNat : ℤ) = sz.toNat + n.toInt := by
    have := n.toUInt32.toNat_lt
    have := sz.toNat_lt
    rw [UInt32.toNat_add]
    omega
  have hlt : sz + n.toUInt32 < sz :=
    UInt32.lt_iff_toNat_lt.2 (by have := n.toUInt32.toNat_lt; omega)
  have hne : sz + n.toUInt32 ≠ 0 := fun h0 => by
    rw [h0, UInt32.toNat_zero] at hadd
    omega
  obtain ⟨d', m', hr, hmaps, hkept⟩ := Ram.deallocuvm_spec h hl hlt
  refine ⟨0, d', sz + n.toUInt32, m', ?_, .inl ⟨rfl, hadd, hmaps, fun a _ => hkept a, ?_⟩⟩
  · rw [Ram.growproc, if_neg (Int32.lt_asymm hn), if_pos hn, hr]
    simp [hne]
  · have := npages_mono (UInt32.le_of_lt hlt)
    omega

/-- `growproc` that is to take all the memory, or more. -/
theorem not_allOrNothing (h : Owns T m.kmem (d.pages + F)) (hl : Layout d sz) (h0 : sz ≠ 0)
    (hneg : (sz.toNat : ℤ) + n.toInt ≤ 0) : ¬AllOrNothing n d sz m := by
  have hsz : 0 < sz.toNat := Nat.pos_of_ne_zero fun he => h0 (UInt32.toNat_inj.1 he)
  have hsz' : sz.toNat < 2147483648 := UInt32.lt_iff_toNat_lt.1 hl.lt
  obtain ⟨-, hint, -⟩ | ⟨hn, hint, hge⟩ := toInt_cases n
  · omega
  have := n.toUInt32.toNat_lt
  rintro ⟨r, d', sz', m', hr, hcase⟩
  rw [Ram.growproc, if_neg (Int32.lt_asymm hn), if_pos hn] at hr
  by_cases hall : sz + n.toUInt32 = 0
  · -- all pages are gone
    obtain ⟨d₁, m₁, hd, hmaps, -⟩ : ∃ d₁ m₁, deallocuvm d sz 0 m = some (0, d₁, m₁) ∧ _ :=
      Ram.deallocuvm_spec h hl (UInt32.lt_iff_toNat_lt.2 hsz)
    rw [hall, hd] at hr
    obtain ⟨rfl, rfl, rfl, rfl⟩ := (by simpa using hr : -1 = r ∧ d₁ = d' ∧ sz = sz' ∧ m₁ = m')
    obtain ⟨h0, -⟩ | ⟨-, -, hkept⟩ := hcase
    · cases h0
    · have hpage : (d.pte? 0).isSome := (hl.maps 0 (by decide)).2 (by rw [npages]; omega)
      rw [← (hkept 0 (by decide)).1, hmaps 0 (by decide)] at hpage
      exact absurd hpage (by decide)
  · -- the new size has wrapped around
    have hwrap : sz ≤ sz + n.toUInt32 := by
      have hne : (sz + n.toUInt32).toNat ≠ 0 := fun he => hall (UInt32.toNat_inj.1 he)
      rw [UInt32.le_iff_toNat_le]
      rw [UInt32.toNat_add] at hne ⊢
      omega
    rw [deallocuvm, if_pos hwrap] at hr
    obtain ⟨rfl, rfl, rfl, rfl⟩ :=
      (by simpa [h0] using hr : 0 = r ∧ d = d' ∧ sz = sz' ∧ m = m')
    obtain ⟨-, hgrew⟩ | ⟨h1, -⟩ := hcase
    · have := hgrew.size
      omega
    · cases h1

/-- `growproc` of a process without memory, or that is to change nothing. -/
theorem allOrNothing_of_zero (hl : Layout d sz) (hn : n ≤ 0) (h0 : sz = 0 ∨ n = 0) :
    AllOrNothing n d sz m := by
  by_cases hz : n = 0
  · subst hz
    refine ⟨0, d, sz, m, rfl, .inl ⟨rfl, by simp, hl.maps, fun a _ _ => kept_self d m a, ?_⟩⟩
    omega
  · obtain rfl := h0.resolve_right hz
    have hlt : n < 0 := Int32.lt_of_le_of_ne hn hz
    refine ⟨-1, d, 0, m, ?_, .inr ⟨rfl, rfl, fun a _ => kept_self d m a⟩⟩
    rw [Ram.growproc, if_neg (Int32.lt_asymm hlt), if_pos hlt, deallocuvm,
      if_pos (UInt32.le_iff_toNat_le.2 (Nat.zero_le _))]
    rfl

/-- `growproc` does all that it is asked for or nothing, whichever calls of `kalloc` fail, exactly
    if the process has no memory, or some is to be left. -/
theorem growproc_all_or_nothing_iff (h : Owns T m.kmem (d.pages + F)) (hl : Layout d sz) :
    AllOrNothing n d sz m ↔ sz = 0 ∨ 0 < (sz.toNat : ℤ) + n.toInt := by
  constructor
  · intro hall
    by_contra hcon
    obtain ⟨h0, hneg⟩ := not_or.1 hcon
    exact not_allOrNothing h hl h0 (not_lt.1 hneg) hall
  · intro hcond
    by_cases hpos : 0 < n
    · exact allOrNothing_of_pos h hl hpos
    have hn : n ≤ 0 := Int32.not_lt.1 hpos
    by_cases h0 : sz = 0 ∨ n = 0
    · exact allOrNothing_of_zero hl hn h0
    · obtain ⟨hsz, hz⟩ := not_or.1 h0
      exact allOrNothing_of_neg h hl (Int32.lt_of_le_of_ne hn hz) (hcond.resolve_left hsz)

/-- The first process, which has one page. -/
theorem exists_initproc : ∃ s d F, system.init s ∧ (s.proc initproc).pgdir = some d ∧
    (s.proc initproc).sz = PGSIZE ∧ Owns kinitPages s.kmem (d.pages + F) ∧ Layout d PGSIZE := by
  obtain ⟨s, hb, h, -, hst, hsz⟩ := boot_spec 2 (by decide)
  have hlive : (s.proc initproc).Live := by rw [Proc.Live, hst]; decide
  obtain ⟨d, hd, hl, -⟩ := h.space initproc hlive
  exact ⟨s, d, _, ⟨2, by decide, hb⟩, hd, hsz,
    (h.detach hlive hd).owns.of_eq (add_comm d.pages _), hsz ▸ hl⟩

/-- The first process takes a page, whatever is in memory. -/
theorem growproc_all_or_nothing_initproc : ∃ s d, system.init s ∧
    (s.proc initproc).pgdir = some d ∧ (s.proc initproc).sz = PGSIZE ∧
    ∀ page, AllOrNothing 4096 d PGSIZE ⟨s.kmem, page⟩ := by
  obtain ⟨s, d, F, hs, hd, hsz, ho, hl⟩ := exists_initproc
  exact ⟨s, d, hs, hd, hsz, fun page =>
    (growproc_all_or_nothing_iff (m := ⟨s.kmem, page⟩) ho hl).2 (.inr (by decide))⟩

/-- The first process gives its only page back: the page is freed, and `growproc` fails. -/
theorem growproc_takes_all : ∃ s d, system.init s ∧ (s.proc initproc).pgdir = some d ∧
    (s.proc initproc).sz = PGSIZE ∧ ∀ page, ¬AllOrNothing (-4096) d PGSIZE ⟨s.kmem, page⟩ := by
  obtain ⟨s, d, F, hs, hd, hsz, ho, hl⟩ := exists_initproc
  exact ⟨s, d, hs, hd, hsz, fun page =>
    not_allOrNothing (m := ⟨s.kmem, page⟩) ho hl (by decide) (by decide)⟩

end Xv6.Vm
