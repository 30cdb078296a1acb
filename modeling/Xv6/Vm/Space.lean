import Xv6.Vm.Owned

/-!
# The address space of a process

The size `sz` of a process and its page directory are kept in step by different functions:
`Layout d sz` says that they agree, the pages below `sz` being those that are mapped.
`exec` that succeeds sets up such a space (`exec_spec`), `fork` copies it (`copyuvm_spec`), and
`growproc` keeps it, except when it shrinks a process to nothing (`growproc_spec`): `deallocuvm`
then returns the new size 0, which is taken for its failure.

`exec` writes the arguments of the new program with `copyout`, which only writes to the pages
of the new directory if it returns (`owns_copyoutLoop`).
-/

namespace Xv6.Vm

open Kmem

variable {T F own : Multiset Addr} {v : Addr} {k k' : Kmem} {d d' : Pgdir} {a b : ℕ}
  {sz sz' oldsz newsz s : UInt32}

/-- The first `n` pages are mapped, and no others. -/
def Pgdir.Maps (d : Pgdir) (n : ℕ) : Prop := ∀ b < NPAGES, (d.pte? b).isSome ↔ b < n

/-- The pages below `sz` are mapped, and no others. -/
structure Layout (d : Pgdir) (sz : UInt32) : Prop where
  lt : sz < KERNBASE
  maps : d.Maps (npages sz)

theorem Pgdir.Maps.kern {n : ℕ} (h : d.Maps n) (hn : n ≤ NUSER) : d.Kern := fun b hb hu => by
  rw [← Option.not_isSome_iff_eq_none, h b hb]
  omega

theorem Layout.kern (h : Layout d sz) : d.Kern := h.maps.kern (npages_le (UInt32.le_of_lt h.lt))

/-! ## Growing and shrinking -/

theorem Allocs.hasTab (h : Allocs d oldsz newsz s d') (i : Fin NPDENTRIES) (hi : d.hasTab i) :
    d'.hasTab i := by
  cases h with
  | fail hw => exact hw.hasTab i hi
  | keep => exact hi
  | grow _ _ hw => exact hw.hasTab i hi

theorem Allocs.kern (h : Allocs d oldsz newsz s d') (hd : d.Kern) : d'.Kern := fun b hb hu => by
  cases h with
  | fail hw _ hK =>
    by_cases hn : newsz < KERNBASE
    · rw [hw.pte? b hb (.inr ((npages_le (UInt32.le_of_lt hn)).trans hu)), hd b hb hu]
    · rw [hK (UInt32.not_lt.1 hn), hd b hb hu]
  | keep => exact hd b hb hu
  | grow _ hn hw =>
    rw [hw.pte? b hb (.inr ((npages_le (UInt32.le_of_lt hn)).trans hu)), hd b hb hu]

/-- `allocuvm` of a directory that maps the pages below `oldsz`. -/
theorem Allocs.maps (h : Allocs d oldsz newsz s d') (hd : d.Maps (npages oldsz)) :
    s = 0 ∧ d'.Maps (npages oldsz) ∨ s = oldsz ∧ newsz < oldsz ∧ d' = d ∨
      s = newsz ∧ Layout d' newsz := by
  cases h with
  | fail hw hn hK =>
    refine .inl ⟨rfl, fun b hb => ?_⟩
    by_cases hlt : newsz < KERNBASE
    · by_cases hin : npages oldsz ≤ b ∧ b < npages newsz
      · simp [hn hlt b hin.1 hin.2, hin.1]
      · rw [hw.pte? b hb (by omega), hd b hb]
    · rw [hK (UInt32.not_lt.1 hlt), hd b hb]
  | keep hlt => exact .inr (.inl ⟨rfl, hlt, rfl⟩)
  | grow ho hn hw hp =>
    refine .inr (.inr ⟨rfl, hn, fun b hb => ?_⟩)
    have := npages_mono ho
    rw [hp b hb, hd b hb]
    omega

/-- `growproc` calls `allocuvm` or `deallocuvm`, and takes the size 0 for a failure. -/
theorem growproc_cases {n r : Int32} (hr : growproc n d sz k = some (r, d', sz', k')) :
    (∃ s, (n > 0 ∧ allocuvm d sz (sz + n.toUInt32) k = some (s, d', k') ∨
        n < 0 ∧ deallocuvm d sz (sz + n.toUInt32) k = some (s, d', k')) ∧
      (s = 0 ∧ r = -1 ∧ sz' = sz ∨ s ≠ 0 ∧ r = 0 ∧ sz' = s)) ∨
    n = 0 ∧ r = 0 ∧ d' = d ∧ sz' = sz ∧ k' = k := by
  have hif : ∀ {s : UInt32} {d₁ : Pgdir} {k₁ : Kmem},
      (if s = 0 then (-1, d₁, sz, k₁) else (0, d₁, s, k₁)) = (r, d', sz', k') →
      d₁ = d' ∧ k₁ = k' ∧ (s = 0 ∧ r = -1 ∧ sz' = sz ∨ s ≠ 0 ∧ r = 0 ∧ sz' = s) := by
    intro s d₁ k₁ h
    split_ifs at h with h0
    · obtain ⟨rfl, rfl, rfl, rfl⟩ := (by simpa using h : -1 = r ∧ d₁ = d' ∧ sz = sz' ∧ k₁ = k')
      exact ⟨rfl, rfl, .inl ⟨h0, rfl, rfl⟩⟩
    · obtain ⟨rfl, rfl, rfl, rfl⟩ := (by simpa using h : 0 = r ∧ d₁ = d' ∧ s = sz' ∧ k₁ = k')
      exact ⟨rfl, rfl, .inr ⟨h0, rfl, rfl⟩⟩
  unfold growproc at hr
  split_ifs at hr with hpos hneg
  · obtain ⟨⟨s, d₁, k₁⟩, ha, he⟩ := Option.map_eq_some_iff.1 hr
    obtain ⟨rfl, rfl, hs⟩ := hif he
    exact .inl ⟨s, .inl ⟨hpos, ha⟩, hs⟩
  · obtain ⟨⟨s, d₁, k₁⟩, ha, he⟩ := Option.map_eq_some_iff.1 hr
    obtain ⟨rfl, rfl, hs⟩ := hif he
    exact .inl ⟨s, .inr ⟨hneg, ha⟩, hs⟩
  · obtain ⟨rfl, rfl, rfl, rfl⟩ := (by simpa using hr : 0 = r ∧ d = d' ∧ sz = sz' ∧ k = k')
    exact .inr ⟨Int32.le_antisymm (Int32.not_lt.1 hpos) (Int32.not_lt.1 hneg), rfl, rfl, rfl, rfl⟩

/-- What `deallocuvm` makes of a directory. -/
theorem deallocuvm_spec (h : Owns T k (d.pages + F)) (ho : oldsz ≤ KERNBASE)
    (hr : deallocuvm d oldsz newsz k = some (s, d', k')) :
    Owns T k' (d'.pages + F) ∧ (oldsz ≤ newsz ∧ s = oldsz ∧ d' = d ∨
      newsz < oldsz ∧ s = newsz ∧ ∀ b < NPAGES, d'.pte? b =
        if npages newsz ≤ b ∧ b < npages oldsz then none else d.pte? b) := by
  by_cases hle : oldsz ≤ newsz
  · rw [deallocuvm, if_pos hle] at hr
    obtain ⟨rfl, rfl, rfl⟩ := (by simpa using hr : oldsz = s ∧ d = d' ∧ k = k')
    exact ⟨h, .inl ⟨hle, rfl, rfl⟩⟩
  · have hlt := UInt32.not_le.1 hle
    obtain ⟨d₁, k₁, hd, hown, hpte, -, -⟩ := exists_deallocuvm oldsz newsz h ho hlt
    obtain ⟨rfl, rfl, rfl⟩ := (by simpa using hd.symm.trans hr : newsz = s ∧ d₁ = d' ∧ k₁ = k')
    exact ⟨hown, .inr ⟨hlt, rfl, hpte⟩⟩

/-- `growproc` takes and gives back pages, and leaves kernel memory alone. -/
theorem owns_growproc {n r : Int32} (h : Owns T k (d.pages + F)) (hd : d.Kern)
    (hsz : sz < KERNBASE) (hr : growproc n d sz k = some (r, d', sz', k')) :
    Owns T k' (d'.pages + F) ∧ d'.Kern ∧ sz' < KERNBASE := by
  rcases growproc_cases hr with ⟨s, hcall, hs⟩ | ⟨-, -, rfl, rfl, rfl⟩
  · have hspec : Owns T k' (d'.pages + F) ∧ d'.Kern ∧ (s = 0 ∨ s < KERNBASE) := by
      rcases hcall with ⟨-, ha⟩ | ⟨-, ha⟩
      · obtain ⟨ho, hal⟩ := allocuvm_spec h ha
        refine ⟨ho, hal.kern hd, ?_⟩
        cases hal with
        | fail => exact .inl rfl
        | keep => exact .inr hsz
        | grow _ hn => exact .inr hn
      · obtain ⟨ho, ⟨-, rfl, rfl⟩ | ⟨hlt, rfl, hpte⟩⟩ := deallocuvm_spec h (UInt32.le_of_lt hsz) ha
        · exact ⟨ho, hd, .inr hsz⟩
        · refine ⟨ho, fun b hb hu => ?_, .inr (UInt32.lt_trans hlt hsz)⟩
          rw [hpte b hb]
          split_ifs
          · rfl
          · exact hd b hb hu
    rcases hs with ⟨-, -, rfl⟩ | ⟨h0, -, rfl⟩
    · exact ⟨hspec.1, hspec.2.1, hsz⟩
    · exact ⟨hspec.1, hspec.2.1, hspec.2.2.resolve_left h0⟩
  · exact ⟨h, hd, hsz⟩

theorem toNat_of_pos {n : Int32} (hn : 0 < n) :
    0 < n.toUInt32.toNat ∧ n.toUInt32.toNat < 2147483648 := by
  have h : 0 < n.toBitVec.toInt := by simpa using Int32.lt_iff_toInt_lt.1 hn
  have he : n.toUInt32.toNat = n.toBitVec.toNat := rfl
  have := n.toBitVec.isLt
  rw [BitVec.toInt_eq_toNat_cond] at h
  rw [he]
  split_ifs at h <;> omega

/-- The size of a process does not wrap around when it grows. -/
theorem add_ne_zero_of_pos {n : Int32} (hn : 0 < n) (hsz : sz < KERNBASE) :
    sz + n.toUInt32 ≠ 0 := fun h0 => by
  have hadd : (sz + n.toUInt32).toNat = 0 := by rw [h0]; rfl
  have hlt : sz.toNat < 2147483648 := UInt32.lt_iff_toNat_lt.1 hsz
  have := toNat_of_pos hn
  rw [UInt32.toNat_add] at hadd
  omega

/-- `growproc(n)` of a process keeps its memory and its size in step exactly if it does not
    shrink it to nothing. -/
theorem growproc_spec {n r : Int32} (h : Owns T k (d.pages + F)) (hl : Layout d sz) (h0 : sz ≠ 0)
    (hr : growproc n d sz k = some (r, d', sz', k')) :
    Layout d' sz' ∧ sz' ≠ 0 ↔ ¬(n < 0 ∧ sz + n.toUInt32 = 0) := by
  rcases growproc_cases hr with ⟨s, ⟨hn, ha⟩ | ⟨hn, ha⟩, hs⟩ | ⟨hn, -, rfl, rfl, rfl⟩
  · -- The process grows, or keeps what it has.
    refine iff_of_true ?_ fun h => Int32.lt_asymm hn h.1
    obtain ⟨-, hal⟩ := allocuvm_spec h ha
    rcases hal.maps hl.maps with ⟨rfl, hm⟩ | ⟨rfl, -, rfl⟩ | ⟨rfl, hl'⟩
    · obtain ⟨-, -, rfl⟩ | ⟨h', -⟩ := hs
      · exact ⟨⟨hl.lt, hm⟩, h0⟩
      · exact absurd rfl h'
    · obtain ⟨h', -⟩ | ⟨-, -, rfl⟩ := hs
      · exact absurd h' h0
      · exact ⟨hl, h0⟩
    · obtain ⟨h', -⟩ | ⟨h', -, rfl⟩ := hs
      · exact absurd h' (add_ne_zero_of_pos hn hl.lt)
      · exact ⟨hl', h'⟩
  · obtain ⟨-, ⟨hle, rfl, rfl⟩ | ⟨hlt, rfl, hpte⟩⟩ := deallocuvm_spec h (UInt32.le_of_lt hl.lt) ha
    · -- The new size has wrapped around.
      obtain ⟨h', -⟩ | ⟨-, -, rfl⟩ := hs
      · exact absurd h' h0
      · refine iff_of_true ⟨hl, h0⟩ fun h => h0 ?_
        rw [h.2] at hle
        exact UInt32.le_zero_iff.1 hle
    · have hmaps : d'.Maps (npages (sz + n.toUInt32)) := fun b hb => by
        have := npages_mono (UInt32.le_of_lt hlt)
        rw [hpte b hb]
        split_ifs with hin
        · simp [hin.1]
        · rw [hl.maps b hb]; omega
      obtain ⟨h', -, rfl⟩ | ⟨h', -, rfl⟩ := hs
      · -- The pages are freed, and the size stays.
        refine iff_of_false (fun hbad => ?_) (not_not.2 ⟨hn, h'⟩)
        have h₁ := (hmaps 0 (by decide)).symm.trans (hbad.1.maps 0 (by decide))
        rw [h'] at h₁
        have hpos : 0 < npages sz' := by
          have : sz'.toNat ≠ 0 := fun h => h0 (UInt32.toNat_inj.1 h)
          unfold npages
          omega
        exact absurd (h₁.2 hpos) (by decide)
      · exact iff_of_true ⟨⟨UInt32.lt_trans hlt hl.lt, hmaps⟩, h'⟩ fun h => h' h.2
  · refine iff_of_true ⟨hl, h0⟩ fun h => ?_
    rw [hn] at h
    exact absurd h.1 (by decide)

/-! ## Arguments -/

/-- The page of an entry is one of the pages of the directory. -/
theorem mem_pages {p : Pte} (h : d.pte? a = some p) : p.page ∈ d.pages := by
  have hp := Pgdir.pages_setPte (d := d) (a := a) (x := none)
    (Pgdir.hasTab_of_pte? (by rw [h]; rfl))
  rw [h, mapped_some, mapped_none, add_zero] at hp
  rw [← hp]
  exact Multiset.mem_add.2 (.inr (Multiset.mem_singleton_self _))

theorem pageOf_pgRoundDown (va : UInt32) : pageOf (pgRoundDown va) = pageOf va := by
  rw [pageOf, toNat_pgRoundDown, Nat.mul_div_cancel_left _ (by decide)]
  rfl

theorem toNat_sub_pgRoundDown (va : UInt32) : (va - pgRoundDown va).toNat = va.toNat % 4096 := by
  have hdown := toNat_pgRoundDown va
  rw [UInt32.toNat_sub_of_le _ _ (UInt32.le_iff_toNat_le.2 (by omega)), hdown]
  omega

theorem uva2ka_of_hasTab (h : d.hasTab (pdx a)) :
    uva2ka d a = some ((d.pte? a).elim 0 fun p => if p.user then p.page else 0) := by
  rw [uva2ka, walkpgdir_eq, if_pos h, Option.map_some]

/-- What `uva2ka` gives is 0, or a page of the directory. -/
theorem uva2ka_mem (h : uva2ka d a = some v) (h0 : v ≠ 0) : v ∈ d.pages := by
  obtain ⟨x, hx, rfl⟩ := Option.map_eq_some_iff.1 h
  rw [walkpgdir_eq] at hx
  split_ifs at hx
  obtain rfl := Option.some.inj hx
  cases hp : d.pte? a with
  | none => rw [hp] at h0; exact absurd rfl h0
  | some p =>
    rw [hp, Option.elim_some] at h0
    rw [Option.elim_some]
    split_ifs at h0 ⊢
    · exact mem_pages hp
    · exact absurd rfl h0

section Copyout

variable {va : UInt32} {fuel len : ℕ} {byte : ℕ → UInt8}

/-- A round of `copyout` for a page with a page table. -/
theorem copyoutLoop_succ (hlen : len ≠ 0) (hpa : uva2ka d (pageOf va) = some v) :
    copyoutLoop d (fuel + 1) va len byte k = (Logged.mk (some v) [.lookup (pageOf va) true]).bind
      fun v => if v = 0 then .of (some (false, k)) else
        (Logged.mk (some (memmove k v (va.toNat % 4096) (min (4096 - va.toNat % 4096) len) byte))
          [.write va (min (4096 - va.toNat % 4096) len)]).bind fun k =>
            copyoutLoop d fuel (pgRoundDown va + PGSIZE) (len - min (4096 - va.toNat % 4096) len)
              (fun j => byte (min (4096 - va.toNat % 4096) len + j)) k := by
  have hwalk : (walkpgdir d (pageOf va)).isSome := by
    rw [← Option.isSome_map, ← uva2ka, hpa]
    rfl
  rw [copyoutLoop]
  simp only [toNat_sub_pgRoundDown, pageOf_pgRoundDown, if_neg hlen, hpa, hwalk]

/-- If `copyout` returns, it has written to pages of the directory only. -/
theorem owns_copyoutLoop {r : Bool} (h : Owns T k (d.pages + F))
    (hr : (copyoutLoop d fuel va len byte k).result = some (r, k')) : Owns T k' (d.pages + F) := by
  have hdone {r' : Bool} (he : some (r', k) = some (r, k')) : Owns T k' (d.pages + F) :=
    (Prod.mk.inj (Option.some.inj he)).2 ▸ h
  induction fuel generalizing va len byte k with
  | zero => exact hdone hr
  | succ fuel ih =>
    rw [copyoutLoop] at hr
    dsimp only at hr
    split_ifs at hr with hlen
    · exact hdone hr
    rw [Logged.result_bind] at hr
    obtain ⟨pa0, hpa, hr⟩ := Option.bind_eq_some_iff.1 hr
    split_ifs at hr with h0
    · exact hdone hr
    · have ho := h.poke (Multiset.mem_add.2 (.inl (uva2ka_mem hpa h0)))
        (firstWord (k.next pa0) (va - pgRoundDown va).toNat
          (min (4096 - (va - pgRoundDown va).toNat) len) byte)
      exact ih ho hr fun he => (Prod.mk.inj (Option.some.inj he)).2 ▸ ho

end Copyout

theorem owns_pushArgs {ustack : List UInt32} {sp : UInt32} {l : List Arg}
    {x : Option (List UInt32 × UInt32)} (h : Owns T k (d.pages + F))
    (hr : (pushArgs d l ustack sp k).result = some (x, k')) : Owns T k' (d.pages + F) := by
  induction l generalizing ustack sp k with
  | nil => exact (Prod.mk.inj (Option.some.inj hr)).2 ▸ h
  | cons a l ih =>
    rw [pushArgs] at hr
    dsimp only at hr
    split_ifs at hr with hmax
    · exact (Prod.mk.inj (Option.some.inj hr)).2 ▸ h
    rw [Logged.result_bind] at hr
    obtain ⟨⟨_ | _, k₁⟩, hcopy, hr⟩ := Option.bind_eq_some_iff.1 hr
    · exact (Prod.mk.inj (Option.some.inj hr)).2 ▸ owns_copyoutLoop h hcopy
    · exact ih (owns_copyoutLoop h hcopy) hr

theorem owns_pushStack {argv : List Arg} {r : Bool} (h : Owns T k (d.pages + F))
    (hr : (pushStack d argv sz k).result = some (r, k')) : Owns T k' (d.pages + F) := by
  rw [pushStack, Logged.result_bind] at hr
  obtain ⟨⟨_ | ⟨u, sp⟩, k₁⟩, hargs, hr⟩ := Option.bind_eq_some_iff.1 hr
  · exact (Prod.mk.inj (Option.some.inj hr)).2 ▸ owns_pushArgs h hargs
  · exact owns_copyoutLoop (owns_pushArgs h hargs) hr

/-! ## Programs -/

/-- A directory in which `exec` may build a space and which it can free. -/
structure Building (d : Pgdir) : Prop where
  kern : d.Kern
  tabs : ∀ i : Fin NPDENTRIES, i.val ∈ kmapPdx → d.hasTab i

theorem Building.of_allocs (h : Building d) (ha : Allocs d oldsz newsz s d') : Building d' :=
  ⟨ha.kern h.kern, fun i hi => ha.hasTab i (h.tabs i hi)⟩

theorem loadSegs_spec {l : List Proghdr} {x : Option UInt32} (h : Owns T k (d.pages + F))
    (hb : Building d) (hl : Layout d sz) (hr : loadSegs l d sz k = some (x, d', k')) :
    Owns T k' (d'.pages + F) ∧ Building d' ∧ ∀ sz', x = some sz' → Layout d' sz' := by
  -- On the way to `bad`, nothing is claimed of the size.
  have hbad : ∀ {d₁ : Pgdir} {k₁ : Kmem}, Owns T k₁ (d₁.pages + F) → Building d₁ →
      some (none, d₁, k₁) = some (x, d', k') →
      Owns T k' (d'.pages + F) ∧ Building d' ∧ ∀ sz', x = some sz' → Layout d' sz' := by
    intro d₁ k₁ ho hb he
    obtain ⟨rfl, rfl, rfl⟩ := (by simpa using he : none = x ∧ d₁ = d' ∧ k₁ = k')
    exact ⟨ho, hb, nofun⟩
  induction l generalizing d sz k with
  | nil =>
    obtain ⟨rfl, rfl, rfl⟩ := (by simpa [loadSegs] using hr : some sz = x ∧ d = d' ∧ k = k')
    exact ⟨h, hb, fun sz' he => Option.some.inj he ▸ hl⟩
  | cons ph l ih =>
    rw [loadSegs] at hr
    split at hr
    · exact hbad h hb hr
    split at hr
    · exact ih h hb hl hr
    split at hr
    · exact hbad h hb hr
    split at hr
    · exact hbad h hb hr
    obtain ⟨⟨s, d₁, k₁⟩, ha, hr⟩ := Option.bind_eq_some_iff.1 hr
    obtain ⟨ho, hal⟩ := allocuvm_spec h ha
    have hb₁ := hb.of_allocs hal
    simp only at hr
    split_ifs at hr with h0
    · exact hbad ho hb₁ hr
    · exact hbad ho hb₁ hr
    obtain ⟨b, -, hr⟩ := Option.bind_eq_some_iff.1 hr
    cases b
    · exact hbad ho hb₁ hr
    · refine ih ho hb₁ ?_ hr
      rcases hal.maps hl.maps with ⟨rfl, -⟩ | ⟨rfl, -, rfl⟩ | ⟨rfl, hl'⟩
      · exact absurd rfl h0
      · exact hl
      · exact hl'

theorem npages_pgRoundUp (h : sz ≤ KERNBASE) : npages (pgRoundUp sz) = npages sz := by
  rw [npages, toNat_pgRoundUp h]
  omega

/-- `clearpteu` changes no page and no mapping, and no other entry. -/
theorem clearpteu_spec (h : clearpteu d a = some d') (ha : a < NPAGES) : d'.pages = d.pages ∧
    (∀ b < NPAGES, (d'.pte? b).isSome = (d.pte? b).isSome) ∧ (∀ i, d'.hasTab i = d.hasTab i) ∧
    ∀ b < NPAGES, b ≠ a → d'.pte? b = d.pte? b := by
  obtain ⟨x, hx, rfl⟩ := Option.map_eq_some_iff.1 h
  rw [walkpgdir_eq] at hx
  split_ifs at hx with ht
  obtain rfl := Option.some.inj hx
  refine ⟨?_, fun b hb => ?_, Pgdir.hasTab_setPte d a _, fun b hb hba => ?_⟩
  · have hp := Pgdir.pages_setPte (x := (d.pte? a).map fun p => { p with user := false }) ht
    have hm : mapped ((d.pte? a).map fun p => { p with user := false }) = mapped (d.pte? a) := by
      cases d.pte? a <;> rfl
    rw [hm] at hp
    exact add_right_cancel hp
  · rw [Pgdir.pte?_setPte ht ha hb]
    split_ifs with hba
    · rw [hba, Option.isSome_map]
    · rfl
  · rw [Pgdir.pte?_setPte ht ha hb, if_neg hba]

theorem execStack_spec {p : Program} {x : Option UInt32} (h : Owns T k (d.pages + F))
    (hb : Building d) (hl : Layout d sz) (hr : (execStack p d sz k).result = some (x, d', k')) :
    Owns T k' (d'.pages + F) ∧ d'.Kern ∧
      ∀ sz', x = some sz' → Layout d' sz' ∧ sz' ≠ 0 := by
  have hsz : sz ≤ KERNBASE := UInt32.le_of_lt hl.lt
  have hup : (pgRoundUp sz).toNat ≤ 2147483648 := by
    have := npages_le hsz
    rw [toNat_pgRoundUp hsz]
    simp only [NUSER] at this
    omega
  have hadd : (pgRoundUp sz + 2 * PGSIZE).toNat = (pgRoundUp sz).toNat + 8192 := by
    rw [UInt32.toNat_add]
    exact Nat.mod_eq_of_lt (by change _ + 8192 < _; omega)
  have hmaps : d.Maps (npages (pgRoundUp sz)) := npages_pgRoundUp hsz ▸ hl.maps
  rw [execStack, Logged.result_bind, Logged.result_of] at hr
  obtain ⟨⟨s, d₁, k₁⟩, ha, hr⟩ := Option.bind_eq_some_iff.1 hr
  obtain ⟨ho, hal⟩ := allocuvm_spec h ha
  have hb₁ := hb.of_allocs hal
  dsimp only at hr
  split_ifs at hr with h0
  · obtain ⟨rfl, rfl, rfl⟩ := (by simpa [Logged.of] using hr : none = x ∧ d₁ = d' ∧ k₁ = k')
    exact ⟨ho, hb₁.kern, nofun⟩
  have hl₁ : Layout d₁ s := by
    rcases hal.maps hmaps with ⟨rfl, -⟩ | ⟨-, hlt, -⟩ | ⟨rfl, hl'⟩
    · exact absurd rfl h0
    · have := UInt32.lt_iff_toNat_lt.1 hlt
      omega
    · exact hl'
  rw [Logged.result_bind, Logged.result_of] at hr
  obtain ⟨d₂, hc, hr⟩ := Option.bind_eq_some_iff.1 hr
  obtain ⟨hpages, hsome, -, -⟩ := clearpteu_spec hc (by
    have := (s - 2 * PGSIZE).toNat_lt
    simp only [pageOf, NPAGES]
    omega)
  have hl₂ : Layout d₂ s := ⟨hl₁.lt, fun b hb => by rw [hsome b hb, hl₁.maps b hb]⟩
  rw [Logged.result_bind] at hr
  obtain ⟨⟨r, k₂⟩, hpush, hr⟩ := Option.bind_eq_some_iff.1 hr
  have ho₂ := owns_pushStack (ho.of_eq (by rw [hpages])) hpush
  cases r with
  | false =>
    obtain ⟨rfl, rfl, rfl⟩ := (by simpa [Logged.of] using hr : none = x ∧ d₂ = d' ∧ k₂ = k')
    exact ⟨ho₂, hl₂.kern, nofun⟩
  | true =>
    obtain ⟨rfl, rfl, rfl⟩ := (by simpa [Logged.of] using hr : some s = x ∧ d₂ = d' ∧ k₂ = k')
    exact ⟨ho₂, hl₂.kern, fun sz' he => Option.some.inj he ▸ ⟨hl₂, h0⟩⟩

/-- `exec` sets up a new space and frees the old one, or leaves everything as it was. -/
theorem exec_spec {p : Program} {old : Pgdir} {r : Int32} (h : Owns T k (old.pages + F))
    (hold : old.Kern) (hr : (exec p old oldsz k).result = some (r, d', sz', k')) :
    Owns T k' (d'.pages + F) ∧
      (r = -1 ∧ d' = old ∧ sz' = oldsz ∨ r = 0 ∧ Layout d' sz' ∧ sz' ≠ 0) := by
  have hfail : ∀ {k₁ : Kmem}, Owns T k₁ (old.pages + F) →
      some (-1, old, oldsz, k₁) = some (r, d', sz', k') → Owns T k' (d'.pages + F) ∧
      (r = -1 ∧ d' = old ∧ sz' = oldsz ∨ r = 0 ∧ Layout d' sz' ∧ sz' ≠ 0) := by
    intro k₁ ho he
    obtain ⟨rfl, rfl, rfl, rfl⟩ := (by simpa using he :
      -1 = r ∧ old = d' ∧ oldsz = sz' ∧ k₁ = k')
    exact ⟨ho, .inl ⟨rfl, rfl, rfl⟩⟩
  -- `bad` frees the new directory.
  have hbad : ∀ {d₁ : Pgdir} {k₁ : Kmem}, Owns T k₁ (d₁.pages + (old.pages + F)) → d₁.Kern →
      (freevm d₁ k₁).map (fun k => (-1, old, oldsz, k)) = some (r, d', sz', k') →
      Owns T k' (d'.pages + F) ∧
        (r = -1 ∧ d' = old ∧ sz' = oldsz ∨ r = 0 ∧ Layout d' sz' ∧ sz' ≠ 0) := by
    intro d₁ k₁ ho hk he
    obtain ⟨k₂, hk₂, ho₂⟩ := exists_freevm ho hk
    rw [hk₂] at he
    exact hfail ho₂ he
  unfold exec at hr
  split_ifs at hr
  · exact hfail h hr
  rw [Logged.result_bind, Logged.result_of] at hr
  obtain ⟨⟨_ | d, k₁⟩, hs, hr⟩ := Option.bind_eq_some_iff.1 hr
  · exact hfail ((setupkvm_spec h hs).1.of_eq (by simp)) hr
  obtain ⟨ho, hd⟩ := setupkvm_spec h hs
  obtain ⟨hpte, htab⟩ := hd d rfl
  rw [Option.elim_some] at ho
  have hbuild : Building d := ⟨fun b _ _ => hpte b, fun i hi => (htab i).2 hi⟩
  have hempty : Layout d 0 := ⟨by decide, fun b _ => by simp [hpte b, npages]⟩
  rw [Logged.result_bind, Logged.result_of] at hr
  obtain ⟨⟨_ | sz, d₁, k₂⟩, hseg, hr⟩ := Option.bind_eq_some_iff.1 hr
  · obtain ⟨ho₁, hb₁, -⟩ := loadSegs_spec ho hbuild hempty hseg
    exact hbad ho₁ hb₁.kern hr
  obtain ⟨ho₁, hb₁, hl₁⟩ := loadSegs_spec ho hbuild hempty hseg
  rw [Logged.result_bind] at hr
  obtain ⟨⟨_ | s, d₂, k₃⟩, hst, hr⟩ := Option.bind_eq_some_iff.1 hr
  · obtain ⟨ho₂, hk₂, -⟩ := execStack_spec ho₁ hb₁ (hl₁ sz rfl) hst
    exact hbad ho₂ hk₂ hr
  obtain ⟨ho₂, -, hl₂⟩ := execStack_spec ho₁ hb₁ (hl₁ sz rfl) hst
  obtain ⟨k₄, hk₄, ho₄⟩ := exists_freevm (ho₂.of_eq (add_left_comm _ _ _)) hold
  simp only [Logged.of, hk₄, Option.map_some, Option.some.injEq, Prod.mk.injEq] at hr
  obtain ⟨rfl, rfl, rfl, rfl⟩ := hr
  exact ⟨ho₄, .inr ⟨rfl, hl₂ s rfl⟩⟩

/-! ## Pointers -/

/-- The pages of a range that `argptr` lets pass are mapped. -/
theorem mapped_of_argptr {i : UInt32} {size : Int32} (hl : Layout d sz) (h : argptr sz i size)
    {x : ℕ} (hx : i.toNat ≤ x) (hlt : x < i.toNat + size.toUInt32.toNat) :
    (d.pte? (x / 4096)).isSome := by
  obtain ⟨hpos, hi, hend⟩ : 0 ≤ size ∧ i < sz ∧ i + size.toUInt32 ≤ sz := by
    simpa [argptr, Int32.not_lt, UInt32.not_le, UInt32.not_lt] using h
  have hsz := UInt32.lt_iff_toNat_lt.1 hl.lt
  have hi := UInt32.lt_iff_toNat_lt.1 hi
  have hend := UInt32.le_iff_toNat_le.1 hend
  have hsize : size.toUInt32.toNat < 2147483648 := by
    rcases Int32.lt_or_eq_of_le hpos with hlt | rfl
    · exact (toNat_of_pos hlt).2
    · decide
  -- Neither of the two is above `KERNBASE`, so that their sum does not wrap.
  rw [UInt32.toNat_add, Nat.mod_eq_of_lt (by change sz.toNat < 2147483648 at hsz; omega)] at hend
  change sz.toNat < 2147483648 at hsz
  rw [hl.maps _ (by simp only [NPAGES]; omega), npages]
  omega

end Xv6.Vm
