import Xv6.Vm.Conserve

/-!
# Booting the system

With enough free pages the functions of `vm.c` do not fail (`Has.setupkvm`, `Has.allocuvm`), so
that the system starts: `boot_spec` gives the state in which the first process
runs, and what is free then.
-/

namespace Xv6.Vm

open Kmem

variable {T F : Multiset Addr} {k k' : Kmem} {d d' : Pgdir} {a b n : ℕ} {v : Addr} {u : Bool}
  {P : Pgdir → UInt32 → Prop} {s : Sys}

/-! ## Enough memory -/

namespace Kmem

theorem Has.walk (h : Has k (n + 1)) (d : Pgdir) (a : ℕ) :
    (walkpgdirAlloc d a k).1 = true ∧ Has (walkpgdirAlloc d a k).2.2 n := by
  obtain ⟨hk, hn⟩ := h.kalloc
  unfold walkpgdirAlloc
  rw [if_neg hk]
  split_ifs
  · exact ⟨rfl, h.mono n.le_succ⟩
  · exact ⟨rfl, hn⟩

theorem Has.mapKernel {l : List ℕ} (h : Has k (n + l.length)) :
    ∃ d' k', Vm.mapKernel l d k = (true, d', k') ∧ Has k' n := by
  induction l generalizing d k with
  | nil => exact ⟨d, k, rfl, h⟩
  | cons i l ih =>
    obtain ⟨hw, hn⟩ := h.walk (n := n + l.length) d (i * NPTENTRIES)
    rw [Vm.mapKernel]
    generalize walkpgdirAlloc d (i * NPTENTRIES) k = x at hw hn
    obtain ⟨_ | _, d₁, k₁⟩ := x
    · cases hw
    · exact ih hn

theorem Has.setupkvm (h : Has k (n + 67)) :
    ∃ d k', Vm.setupkvm k = some (some d, k') ∧ Has k' n := by
  obtain ⟨hk, hn⟩ := h.kalloc (n := n + 66)
  obtain ⟨d, k', hm, hn'⟩ := hn.mapKernel (l := kmapPdx) (d := { page := (Vm.kalloc k).1 })
  refine ⟨d, k', ?_, hn'⟩
  rw [Vm.setupkvm, if_neg hk, hm]

theorem Has.mappages (h : Has k (n + 1)) (hp : d.pte? a = none) :
    ∃ d' k', Vm.mappages d a v u k = some (true, d', k') ∧ Has k' n ∧
      ∀ i, d'.hasTab i ↔ d.hasTab i ∨ i = pdx a := by
  obtain ⟨hw, hn⟩ := h.walk d a
  have hpte := (widens_walk d a k).pte? a
  have htab := hasTab_walk hw
  unfold Vm.mappages
  generalize walkpgdirAlloc d a k = x at hw hn hpte htab
  obtain ⟨_ | _, d₁, k₁⟩ := x
  · cases hw
  · refine ⟨d₁.setPte a (some ⟨v, u⟩), k₁, ?_, hn, fun i => ?_⟩
    · simp only at hpte
      simp [hpte, hp]
    · rw [Pgdir.hasTab_setPte]
      exact htab i

/-- What a loop that maps the pages `l` does to a directory. -/
structure Mapped (d d' : Pgdir) (l : List ℕ) : Prop where
  hasTab : ∀ i, d'.hasTab i → d.hasTab i ∨ ∃ b ∈ l, i = pdx b
  user : ∀ b ∈ l, ∃ q, d'.pte? b = some q ∧ q.user
  pte? : ∀ b < NPAGES, b ∉ l → d'.pte? b = d.pte? b

theorem Has.allocLoop (oldsz newsz : UInt32) {l : List ℕ} (h : Has k (n + 2 * l.length))
    (hl : ∀ b ∈ l, b < NPAGES ∧ d.pte? b = none) (hn : l.Nodup) :
    ∃ d' k', Vm.allocLoop oldsz newsz l d k = some (newsz, d', k') ∧ Has k' n ∧ Mapped d d' l := by
  induction l generalizing d k with
  | nil => exact ⟨d, k, rfl, h, fun i hi => .inl hi, by simp, fun _ _ _ => rfl⟩
  | cons a l ih =>
    obtain ⟨hal, hn⟩ := List.nodup_cons.1 hn
    obtain ⟨ha, hp⟩ := hl a List.mem_cons_self
    rw [List.length_cons, Nat.mul_succ, ← add_assoc] at h
    obtain ⟨hk, h₁⟩ := h.kalloc
    obtain ⟨d₁, k₁, hm, h₂, ht₁⟩ := h₁.mappages (v := (Vm.kalloc k).1) (u := true) hp
    obtain ⟨-, -, hpte, -⟩ | ⟨hf, -⟩ := mappages_cases hm ha
    · have hne : ∀ b, b ∉ a :: l → b ≠ a := fun b hb he => hb (he ▸ List.mem_cons_self)
      have hl₁ : ∀ b ∈ l, b < NPAGES ∧ d₁.pte? b = none := fun b hb => by
        obtain ⟨hb', hpb⟩ := hl b (List.mem_cons_of_mem _ hb)
        have hba : b ≠ a := fun he => hal (he ▸ hb)
        exact ⟨hb', by rw [hpte b hb', if_neg hba, hpb]⟩
      obtain ⟨d', k', hr, h', hmap⟩ := ih h₂ hl₁ hn
      refine ⟨d', k', ?_, h', fun i hi => ?_, fun b hb => ?_, fun b hb hbl => ?_⟩
      · simp only [Vm.allocLoop, HasPages.kalloc, HasPages.memset, HasPages.mappages, if_neg hk, hm,
          Option.bind_some]
        exact hr
      · rw [List.exists_mem_cons_iff, ← or_assoc, ← ht₁]
        exact hmap.hasTab i hi
      · rcases List.mem_cons.1 hb with rfl | hb
        · exact ⟨⟨(Vm.kalloc k).1, true⟩, by rw [hmap.pte? b ha hal, hpte b ha, if_pos rfl], rfl⟩
        · exact hmap.user b hb
      · rw [hmap.pte? b hb fun hm => hbl (List.mem_cons_of_mem _ hm), hpte b hb,
          if_neg (hne b hbl)]
    · cases hf

theorem Has.allocuvm (oldsz newsz : UInt32) (h : Has k (n + 2 * npages newsz))
    (hn : newsz < KERNBASE) (ho : oldsz ≤ newsz)
    (hp : ∀ b, npages oldsz ≤ b → b < npages newsz → d.pte? b = none) :
    ∃ d' k', Vm.allocuvm d oldsz newsz k = some (newsz, d', k') ∧ Has k' n ∧
      Mapped d d' (List.range' (npages oldsz) (npages newsz - npages oldsz)) := by
  have hle := npages_le (UInt32.le_of_lt hn)
  rw [Vm.allocuvm, if_neg (UInt32.not_le.2 hn), if_neg (UInt32.not_lt.2 ho),
    pageOf_pgRoundUp (UInt32.le_trans ho (UInt32.le_of_lt hn))]
  refine Has.allocLoop oldsz newsz (h.mono ?_) (fun b hb => ?_) List.nodup_range'
  · rw [List.length_range']
    omega
  · rw [List.mem_range'_1] at hb
    exact ⟨by simp only [NPAGES, NUSER] at *; omega, hp b hb.1 (by omega)⟩

end Kmem

/-! ## The pages of the allocator -/

/-- The pages handed to `kfree` by `kinit1` and `kinit2`. -/
def kinitPages : Multiset Addr := ((kinit1 : Multiset Addr) + kinit2)

theorem kinit_eq : kinit1 ++ kinit2 =
    (List.range' 524567 57065).map fun i => (i * 4096).toUInt32 := by
  have h₁ : kinit1 = (List.range' 524567 745).map fun i => (i * 4096).toUInt32 := rfl
  have h₂ : kinit2 = (List.range' (524567 + 745) 56320).map fun i => (i * 4096).toUInt32 := rfl
  rw [h₁, h₂, ← List.map_append, List.range'_append_1]

theorem toNat_page {i : ℕ} (h : i < NPAGES) : (i * 4096).toUInt32.toNat = i * 4096 := by
  rw [Nat.toUInt32, UInt32.toNat_ofNat']
  simp only [NPAGES] at h
  omega

theorem isPage_page {i : ℕ} (hlo : 524567 ≤ i) (hhi : i < 581632) :
    IsPage (i * 4096).toUInt32 := by
  have hi := toNat_page (i := i) (by simp only [NPAGES]; omega)
  refine ⟨?_, ?_, ?_⟩
  · rw [← UInt32.toNat_inj, UInt32.toNat_mod, hi]
    change i * 4096 % 4096 = 0
    omega
  · rw [UInt32.le_iff_toNat_le, hi]
    change 2148625808 ≤ _
    omega
  · rw [UInt32.lt_iff_toNat_lt, V2P, UInt32.toNat_sub_of_le, hi]
    · change i * 4096 - 2147483648 < 234881024
      omega
    · rw [UInt32.le_iff_toNat_le, hi]
      change 2147483648 ≤ _
      omega

theorem isPage_of_mem_kinitPages (h : v ∈ kinitPages) : IsPage v := by
  rw [kinitPages, Multiset.coe_add, Multiset.mem_coe, kinit_eq, List.mem_map] at h
  obtain ⟨i, hi, rfl⟩ := h
  rw [List.mem_range'_1] at hi
  exact isPage_page hi.1 hi.2

theorem nodup_kinitPages : kinitPages.Nodup := by
  rw [kinitPages, Multiset.coe_add, Multiset.coe_nodup, kinit_eq]
  refine List.Nodup.map_on (fun i hi j hj h => ?_) List.nodup_range'
  rw [List.mem_range'_1] at hi hj
  have h := congrArg UInt32.toNat h
  rw [toNat_page (by simp only [NPAGES]; omega), toNat_page (by simp only [NPAGES]; omega)] at h
  omega

theorem card_kinit2 : (kinit2 : Multiset Addr).card = 56320 := by
  rw [Multiset.coe_card, kinit2, pagesOf, List.length_map, List.length_range']
  rfl

theorem card_kinitPages : kinitPages.card = 57065 := by
  rw [kinitPages, Multiset.coe_add, Multiset.coe_card, kinit_eq, List.length_map,
    List.length_range']

/-- Before `kinit1`, every page is in use. -/
theorem owns_start : Owns kinitPages {} kinitPages :=
  ⟨nodup_kinitPages, fun _ => isPage_of_mem_kinitPages, [], rfl, by simp⟩

/-- After `kinit2`, every page is free. -/
theorem exists_kinit : ∃ k, Owns kinitPages k 0 ∧ Has k 57065 := by
  have hall : kinitPages = ((kinit1 ++ kinit2 : List Addr) : Multiset Addr) + 0 := by
    rw [kinitPages, Multiset.coe_add, add_zero]
  obtain ⟨k, -, ho, hd⟩ := (owns_start.of_eq hall.symm).freerange
  exact ⟨k, ho, ho.has hd (by rw [Multiset.card_zero, card_kinitPages])⟩

/-! ## Booting -/

theorem startothers_spec {m : ℕ} (hh : Has s.kmem (m + n))
    (h : Owns T s.kmem ((s.apStacks.map ofAddr).sum + F)) :
    ∃ k l, startothers n s = { s with kmem := k, apStacks := l } ∧ Has k m ∧
      Owns T k ((l.map ofAddr).sum + F) := by
  induction n generalizing s with
  | zero => exact ⟨s.kmem, s.apStacks, rfl, hh, h⟩
  | succ n ih =>
    obtain ⟨hk, hh₁⟩ := hh.kalloc (n := m + n)
    obtain ⟨h0, -⟩ | ⟨-, ho⟩ := h.kalloc
    · exact absurd h0 hk
    refine ih
      (s := { s with kmem := (kalloc s.kmem).2, apStacks := (kalloc s.kmem).1 :: s.apStacks })
      hh₁ (ho.of_eq ?_)
    rw [List.map_cons, List.sum_cons, ofAddr_of_ne hk, add_assoc, Multiset.singleton_add]

theorem inituvm_spec (hh : Has k (n + 2)) (h : Owns T k (d.pages + F))
    (hp : ∀ b, d.pte? b = none) : ∃ d' k', inituvm d k = some (d', k') ∧ Has k' n ∧
      Owns T k' (d'.pages + F) ∧ Layout d' PGSIZE := by
  obtain ⟨hk, hh₁⟩ := hh.kalloc
  obtain ⟨h0, -⟩ | ⟨-, ho⟩ := h.kalloc
  · exact absurd h0 hk
  obtain ⟨d', k', hm, hh', -⟩ := hh₁.mappages (v := (kalloc k).1) (u := true) (hp 0)
  have ho' := owns_mappages (F := F) (ho.of_eq (Multiset.add_cons _ _ _)) hm
  refine ⟨d', k', ?_, hh', by simpa using ho', by decide, fun b hb => ?_⟩
  · rw [inituvm, if_neg hk, hm]
    rfl
  · rcases mappages_cases hm (by decide) with ⟨-, -, hpte, -⟩ | ⟨hf, -⟩
    · rw [hpte b hb, hp b]
      have : npages PGSIZE = 1 := by decide
      rw [this]
      split_ifs with hb0 <;> simp [hb0]
    · cases hf

theorem Inv.mono {Q : Pgdir → UInt32 → Prop} (h : Inv P T F s) (hPQ : ∀ d sz, P d sz → Q d sz) :
    Inv Q T F s :=
  ⟨h.owns, fun p hp => (h.space p hp).imp fun _ hd => ⟨hd.1, hPQ _ _ hd.2⟩, h.kstack, h.files⟩

/-- A system without processes. -/
theorem inv_empty {l : List Addr} {x : Option Pgdir}
    (h : Owns T k (x.elim 0 Pgdir.pages + (l.map ofAddr).sum)) :
    Inv P T 0 { kmem := k, kpgdir := x, apStacks := l } := by
  have hpages : pipePages (fun _ => {}) = ∅ := rfl
  refine ⟨h.of_eq ?_, fun p hp => absurd rfl hp.1, fun _ _ => rfl, fun _ _ => rfl, nofun, ?_⟩
  · rw [add_zero, Sys.owned, hpages, held]
    simp [Proc.owned, ofAddr, Sys.bootPages]
  · rw [hpages]
    simp

/-- The first process, in an empty system. -/
theorem userinit_spec (h : Inv P T 0 s) (hs : s.proc = fun _ => {}) (hh : Has s.kmem (n + 70))
    (hP : ∀ d, Layout d PGSIZE → P d PGSIZE) :
    ∃ s', userinit s = some s' ∧ Inv P T 0 s' ∧ Has s'.kmem n ∧
      (s'.proc initproc).state = .runnable ∧ (s'.proc initproc).sz = PGSIZE := by
  obtain ⟨hk, hh₁⟩ := hh.kalloc (n := n + 69)
  have hfind : slots.find? (fun p => decide ((s.proc p).state = .unused)) = some initproc := by
    rw [hs]
    decide
  have hs₁ : allocproc s = (some initproc, { s with kmem := (kalloc s.kmem).2 }.modify initproc
      fun q => { q with state := .embryo, kstack := (kalloc s.kmem).1 }) := by
    rw [allocproc, hfind]
    simp only [if_neg hk]
  obtain ⟨h₁, hp⟩ := inv_allocproc h hs₁
  obtain ⟨-, hst, -, -⟩ := hp initproc rfl
  obtain ⟨d, k₁, hd, hh₂⟩ := hh₁.setupkvm (n := n + 2)
  rw [userinit, hs₁]
  generalize hgen : { s with kmem := (kalloc s.kmem).2 }.modify initproc
      (fun q => { q with state := .embryo, kstack := (kalloc s.kmem).1 }) = s₁ at h₁ hst
  have hkmem : s₁.kmem = (kalloc s.kmem).2 := by rw [← hgen]; rfl
  rw [← hkmem] at hd
  obtain ⟨ho, hd'⟩ := setupkvm_spec h₁.owns hd
  obtain ⟨d', k', hi, hh', ho', hl⟩ := inituvm_spec hh₂ (ho.of_eq (by rw [Option.elim_some]))
    (hd' d rfl).1
  have hnot : ¬(s₁.proc initproc).Live := fun hl => hl.2 hst
  simp only [hd, hi, Option.bind_some, Option.map_some]
  refine ⟨_, rfl, h₁.move (y := d'.pages) (ho'.of_eq ?_) ?_ (fun _ => ⟨d', rfl, hP d' hl⟩)
    (by simp),
    hh', ?_, ?_⟩
  · rw [add_zero, add_comm]
  · rw [Proc.owned_of_not_live hnot, add_zero]
    exact Proc.owned_of_live ⟨by simp, by simp⟩ rfl
  · simp [Sys.modify]
  · simp [Sys.modify]

/-- The system starts, with most of the memory free. -/
theorem boot_spec (ncpu : ℕ) (hn : ncpu ≤ NCPU) :
    ∃ s, boot ncpu = some s ∧ Inv (fun d sz => Layout d sz ∧ sz ≠ 0) kinitPages 0 s ∧
      Has s.kmem 56000 ∧ (s.proc initproc).state = .runnable ∧
      (s.proc initproc).sz = PGSIZE := by
  obtain ⟨k₁, hk₁, ho₁, hd₁⟩ := owns_start.freerange (l := kinit1)
  have hh₁ : Has k₁ 745 := ho₁.has hd₁ (by rw [card_kinit2, card_kinitPages])
  obtain ⟨d, k₂, hs, hh₂⟩ := hh₁.setupkvm (n := 678)
  obtain ⟨ho₂, -⟩ := setupkvm_spec ho₁ hs
  obtain ⟨k₃, l, hso, hh₃, ho₃⟩ := startothers_spec (s := { kmem := k₂, kpgdir := some d })
    (m := 671) (n := ncpu - 1) (F := d.pages + (kinit2 : Multiset Addr))
    (hh₂.mono (by simp only [NCPU] at hn; omega)) (ho₂.of_eq (by simp))
  have hcard := hh₃.le_card ho₃
  have ho₃' : Owns kinitPages k₃ ((kinit2 : Multiset Addr) + (d.pages + (l.map ofAddr).sum)) :=
    ho₃.of_eq (by abel)
  obtain ⟨k₄, hk₄, ho₄, hd₄⟩ := ho₃'.freerange
  have hh₄ : Has k₄ 56070 := ho₄.has (hd₄.trans hh₃.deny) (by
    simp only [Multiset.card_add, card_kinit2, card_kinitPages] at hcard ⊢
    omega)
  obtain ⟨s, hs', hinv, hh, hst, hsz⟩ := userinit_spec
    (P := fun d sz => Layout d sz ∧ sz ≠ 0) (inv_empty (k := k₄) (x := some d) (l := l)
      (ho₄.of_eq (by rw [Option.elim_some]))) rfl hh₄ fun d hl => ⟨hl, by decide⟩
  refine ⟨s, ?_, hinv, hh, hst, hsz⟩
  rw [boot, hk₁, Option.bind_some, hs, Option.bind_some]
  simp only [hso, hk₄, Option.bind_some]
  exact hs'

end Xv6.Vm
