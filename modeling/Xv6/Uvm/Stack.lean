import Xv6.Uvm.Exec

/-!
# The arguments of a program

What `exec` puts on the stack of the new image: the strings one below the other, the pointers to
them, and the words below (`Image.pushStack_spec`). An argument that does not fit is not copied,
wherever the stack pointer gets to: below the stack there is a page that cannot be used, and above
user memory the entries are the kernel's, or there is no page table. Whatever `exec` copies is
copied to pages of the new image (`Kernel.pushStack_same`).
-/

namespace Xv6.Uvm

open Vm Kmem

variable {T F : Multiset Addr} {k : Kmem} {d d' : Pgdir} {m m' : Ram} {f : Bytes} {g : File}
  {a b fuel len used : ℕ} {va sp sz s : UInt32} {x : Arg} {l : List Arg} {hs : List Proghdr}

/-! ## The new image -/

theorem kernelPte_user {q : Pte} (h : kernelPte kmap b = some q) : q.flags &&& PTE_U = 0 := by
  obtain ⟨k, hk, rfl⟩ := Option.map_eq_some_iff.1 h
  have hperm : ∀ k ∈ kmap, (k.perm ||| PTE_P) &&& PTE_U = 0 := by decide
  exact hperm k (List.mem_of_find?_eq_some hk)

/-- The memory of a program before its arguments are pushed: the stack is the page below `sz`, and
    the process cannot use the page below that one. -/
structure Image (d : Pgdir) (sz : UInt32) : Prop where
  lt : sz < KERNBASE
  maps : d.MapsUser (npages sz)
  kernel : Kernel d
  aligned : sz.toNat % 4096 = 0
  two_le : 8192 ≤ sz.toNat
  guard : ∃ q, d.pte? (npages sz - 2) = some q ∧ q.flags &&& PTE_U = 0
  stack : ∃ q, d.pte? (npages sz - 1) = some q ∧ q.flags &&& PTE_U ≠ 0

theorem clear_user (x : UInt32) : ((x &&& ~~~PTE_U) ||| PTE_P) &&& PTE_U = 0 := by
  rw [or_and_of_disjoint (by decide), UInt32.and_assoc, (by decide : ~~~PTE_U &&& PTE_U = 0),
    UInt32.and_zero]

/-- Without the flags, `clearpteu` is that of `Xv6.Vm`. -/
theorem erase_clearpteu (d : Pgdir) (ha : a < NUSER) :
    (clearpteu d a).map Pgdir.erase = Vm.clearpteu d.erase a := by
  have hN : a < NPAGES := ha.trans (by decide)
  rw [clearpteu, Vm.clearpteu, walkpgdir_erase d ha, Option.map_map, Option.map_map]
  refine congrArg (fun g => (walkpgdir d a).map g) (funext fun x => ?_)
  dsimp only [Function.comp]
  rw [Pgdir.erase_setPte d _ hN, if_pos ha, Option.map_map, Option.map_map]
  refine congrArg (fun g => d.erase.setPte a (x.map g)) (funext fun q => ?_)
  dsimp only [Function.comp, Pte.of, Pte.erase]
  rw [clear_user, decide_eq_false (not_not.2 rfl)]

theorem clearpteu_spec {q : Pte} (hq : d.pte? a = some q) (ha : a < NUSER) : ∃ d',
    clearpteu d a = some d' ∧ d'.pages = d.pages ∧ (∀ i, d'.hasTab i = d.hasTab i) ∧
      ∀ b < NPAGES, d'.pte? b = if b = a then some (.of q.pa (q.flags &&& ~~~PTE_U)) else d.pte?
      b := by
  have hN : a < NPAGES := ha.trans (by decide)
  have htab : d.hasTab (pdx a) := Pgdir.hasTab_of_pte? (by rw [hq]; rfl)
  have hc : clearpteu d a = some (d.setPte a (some (.of q.pa (q.flags &&& ~~~PTE_U)))) := by
    rw [clearpteu, walkpgdir_eq, if_pos htab, hq]
    rfl
  have hvm := erase_clearpteu d ha
  rw [hc] at hvm
  exact ⟨_, hc, (Vm.clearpteu_spec hvm.symm hN).1, Pgdir.hasTab_setPte d a _,
    fun b hb => Pgdir.pte?_setPte htab hN hb⟩

/-- After the segments, `exec` maps two pages, or fails. -/
theorem stack_ready (h : Loaded g hs d sz m) (ho : Owns T m.kmem (d.pages + F)) : ∃ s d₁ m',
    allocuvm d (pgRoundUp sz) (pgRoundUp sz + 2 * PGSIZE) m = some (s, d₁, m') ∧
      Owns T m'.kmem (d₁.pages + F) ∧ Same T F m m' ∧ (s ≠ 0 → ∃ d',
        clearpteu d₁ (pageOf (s - 2 * PGSIZE)) = some d' ∧ d'.pages = d₁.pages ∧ Image d' s) := by
  have hle := UInt32.le_of_lt h.lt
  have hup := toNat_pgRoundUp hle
  have hN := npages_le hle
  have hadd : (pgRoundUp sz + 2 * PGSIZE).toNat = 4096 * npages sz + 8192 := by
    simp only [NUSER] at hN
    rw [UInt32.toNat_add, hup]
    exact Nat.mod_eq_of_lt (by change _ + 8192 < _; omega)
  by_cases hlt : pgRoundUp sz < KERNBASE
  · obtain ⟨s, d₁, m', hr, ho', hsame, hs⟩ := allocuvm_spec ho
      (by rw [npages_pgRoundUp hle]; exact h.maps) hlt h.kernel (pgRoundUp sz + 2 * PGSIZE)
    refine ⟨s, d₁, m', hr, ho', hsame, fun h0 => ?_⟩
    obtain ⟨hmax, hsk, hk, hmaps, -, hfresh⟩ := hs h0
    rw [npages_pgRoundUp hle] at hfresh
    have hs' : s.toNat = 4096 * npages sz + 8192 := by omega
    have hnp : npages s = npages sz + 2 := by rw [npages, hs']; omega
    have hNs := npages_le (UInt32.le_of_lt hsk)
    have hguard : pageOf (s - 2 * PGSIZE) = npages sz := by
      have hsub : (s - 2 * PGSIZE).toNat = s.toNat - 8192 :=
        UInt32.toNat_sub_of_le _ _ (UInt32.le_iff_toNat_le.2 (by change 8192 ≤ _; omega))
      rw [pageOf, hsub, hs']
      omega
    obtain ⟨q, hq, -⟩ := hfresh (npages sz) le_rfl (by omega)
    obtain ⟨q', hq', hflags, -⟩ := hfresh (npages sz + 1) (by omega) (by omega)
    obtain ⟨d', hc, hpages, htabs, hpte⟩ := clearpteu_spec hq (by omega)
    have hN' : NUSER < NPAGES := by decide
    refine ⟨d', by rw [hguard]; exact hc, hpages, hsk, fun b hb => ?_,
      ⟨fun b hu hb => ?_, fun i hi => ?_⟩,
      by omega, by omega, ⟨.of q.pa (q.flags &&& ~~~PTE_U), ?_, clear_user q.flags⟩, ⟨q', ?_, ?_⟩⟩
    · rw [hpte b (by omega)]
      split_ifs with hba
      · simp only [Option.isSome_some, hba, true_iff]
        omega
      · exact hmaps b hb
    · rw [hpte b hb, if_neg (by omega), hk.pte b hu hb]
    · rw [htabs, hk.tabs i hi]
    · rw [hnp, Nat.add_sub_cancel, hpte _ (by omega), if_pos rfl]
    · rw [hnp, show npages sz + 2 - 1 = npages sz + 1 from rfl, hpte _ (by omega),
        if_neg (by omega), hq']
    · rw [hflags]
      decide
  · refine ⟨0, d, m, if_pos ?_, ho, .refl m, fun h0 => absurd rfl h0⟩
    have hge := UInt32.le_iff_toNat_le.1 (UInt32.not_lt.1 hlt)
    rw [UInt32.le_iff_toNat_le, hadd]
    omega

/-! ## Copies -/

theorem copyoutLoop_succ (hlen : 0 < len) : copyoutLoop d (fuel + 1) va len f m =
    (uva2ka d (pageOf va)).bind fun pa0 =>
      if pa0 = 0 then some (false, m)
      else copyoutLoop d fuel (pgRoundDown va + PGSIZE) (len - min (4096 - va.toNat % 4096) len)
        (f.drop (min (4096 - va.toNat % 4096) len))
        (memmove m pa0 (va.toNat % 4096) (min (4096 - va.toNat % 4096) len) f) := by
  rw [copyoutLoop]
  simp only [toNat_sub_pgRoundDown, pageOf_pgRoundDown, if_neg hlen.ne']

theorem uva2ka_of_pte? {q : Pte} (hq : d.pte? a = some q) :
    uva2ka d a = some (if q.flags &&& PTE_U = 0 then 0 else P2V q.pa) := by
  rw [uva2ka, walkpgdir_eq, if_pos (Pgdir.hasTab_of_pte? (by rw [hq]; rfl)), hq]
  rfl

/-- Kernel memory cannot be used. -/
theorem Kernel.uva2ka (h : Kernel d) (hu : NUSER ≤ a) (ha : a < NPAGES) (htab : d.hasTab (pdx a)) :
    uva2ka d a = some 0 := by
  rw [Uvm.uva2ka, walkpgdir_eq, if_pos htab, h.pte a hu ha]
  cases hq : kernelPte kmap a with
  | none => rfl
  | some q => exact congrArg some (if_pos (kernelPte_user hq))

/-- What `uva2ka` gives is 0, or a page of user memory. -/
theorem Kernel.uva2ka_mem (h : Kernel d) (ha : a < NPAGES) {v : Addr} (hv : Uvm.uva2ka d a = some v)
    (h0 : v ≠ 0) : v ∈ d.pages := by
  have htab : d.hasTab (pdx a) := by
    by_contra hno
    rw [Uvm.uva2ka, walkpgdir_eq, if_neg hno] at hv
    cases hv
  by_cases hu : NUSER ≤ a
  · rw [h.uva2ka hu ha htab] at hv
    exact absurd (Option.some.inj hv).symm h0
  cases hq : d.pte? a with
  | none =>
    rw [Uvm.uva2ka, walkpgdir_eq, if_pos htab, hq] at hv
    exact absurd (Option.some.inj hv).symm h0
  | some q =>
    rw [uva2ka_of_pte? hq] at hv
    split_ifs at hv
    · exact absurd (Option.some.inj hv).symm h0
    · exact Pgdir.mem_pages_iff.2 (.inr (.inr ⟨a, not_le.1 hu, q, hq, Option.some.inj hv⟩))

/-- A page of the new image is written to. -/
theorem same_memmove {w : Addr} (ho : Owns T k (d.pages + F)) (hw : w ∈ d.pages) (off n : ℕ)
    (f : Bytes) : Same T F m (memmove m w off n f) := fun v hv => by
  have hne : v ≠ w := fun he => notMem_pages ho hv (he ▸ hw)
  rw [memmove]
  exact Function.update_of_ne hne ..

/-- If `copyout` returns, it has written to pages of the new image only. -/
theorem Kernel.copyoutLoop_same {r : Bool} (h : Kernel d) (ho : Owns T m.kmem (d.pages + F))
    (hr : copyoutLoop d fuel va len f m = some (r, m')) : m'.kmem = m.kmem ∧ Same T F m m' := by
  induction fuel generalizing va len f m with
  | zero =>
    obtain ⟨-, rfl⟩ := Prod.mk.inj (Option.some.inj hr)
    exact ⟨rfl, .refl m⟩
  | succ fuel ih =>
    obtain rfl | hlen := Nat.eq_zero_or_pos len
    · obtain ⟨-, rfl⟩ := Prod.mk.inj (Option.some.inj hr)
      exact ⟨rfl, .refl m⟩
    rw [copyoutLoop_succ hlen] at hr
    obtain ⟨v, hv, hr⟩ := Option.bind_eq_some_iff.1 hr
    split_ifs at hr with h0
    · obtain ⟨-, rfl⟩ := Prod.mk.inj (Option.some.inj hr)
      exact ⟨rfl, .refl m⟩
    have ha : pageOf va < NPAGES := by
      have := va.toNat_lt
      simp only [pageOf, NPAGES]
      omega
    obtain ⟨hk, hsame⟩ := ih (m := memmove m v _ _ f) ho hr
    exact ⟨hk, (same_memmove ho (h.uva2ka_mem ha hv h0) _ _ _).trans hsame⟩

theorem Kernel.pushArgs_same {y : Option (List UInt32 × UInt32)} {ustack : List UInt32}
    (h : Kernel d)
    (ho : Owns T m.kmem (d.pages + F)) (hr : pushArgs d l ustack sp m = some (y, m')) :
    m'.kmem = m.kmem ∧ Same T F m m' := by
  induction l generalizing ustack sp m with
  | nil =>
    obtain ⟨-, rfl⟩ := Prod.mk.inj (Option.some.inj hr)
    exact ⟨rfl, .refl m⟩
  | cons x l ih =>
    rw [pushArgs] at hr
    dsimp only at hr
    split_ifs at hr
    · obtain ⟨-, rfl⟩ := Prod.mk.inj (Option.some.inj hr)
      exact ⟨rfl, .refl m⟩
    obtain ⟨⟨r, m₁⟩, hcopy, hr⟩ := Option.bind_eq_some_iff.1 hr
    obtain ⟨hk, hsame⟩ := h.copyoutLoop_same ho hcopy
    cases r with
    | false =>
      obtain ⟨-, rfl⟩ := Prod.mk.inj (Option.some.inj hr)
      exact ⟨hk, hsame⟩
    | true =>
      obtain ⟨hk', hsame'⟩ := ih (hk ▸ ho) hr
      exact ⟨hk'.trans hk, hsame.trans hsame'⟩

/-- The arguments are written to pages of the new image only. -/
theorem Kernel.pushStack_same {y : Option UInt32} (h : Kernel d) (ho : Owns T m.kmem (d.pages + F))
    (hr : pushStack d l sz m = some (y, m')) : m'.kmem = m.kmem ∧ Same T F m m' := by
  obtain ⟨⟨_ | ⟨ptrs, sp⟩, m₁⟩, hpush, hr⟩ := Option.bind_eq_some_iff.1 hr
  · obtain ⟨-, rfl⟩ := Prod.mk.inj (Option.some.inj hr)
    exact h.pushArgs_same ho hpush
  · obtain ⟨hk, hsame⟩ := h.pushArgs_same ho hpush
    obtain ⟨⟨r, m₂⟩, hcopy, he⟩ := Option.map_eq_some_iff.1 hr
    obtain ⟨hk', hsame'⟩ := h.copyoutLoop_same (hk ▸ ho) hcopy
    obtain rfl : m₂ = m' := by cases r <;> exact (Prod.mk.inj he).2
    exact ⟨hk'.trans hk, hsame.trans hsame'⟩

namespace Image

theorem npages_eq (h : Image d sz) : 4096 * npages sz = sz.toNat := by
  have := h.aligned
  rw [npages]
  omega

/-- Within the stack, everything is copied. -/
theorem copyout_stack (h : Image d sz) (f : Bytes) (ho : Owns T m.kmem (d.pages + F))
    (hlo : sz.toNat ≤ va.toNat + 4096) (hlen : 0 < len) (hhi : va.toNat + len ≤ sz.toNat) : ∃ m',
    copyout d va len f m = some (true, m') ∧ ∀ a, a / 4096 < NUSER → byteAt d m' a =
      if va.toNat ≤ a ∧ a < va.toNat + len then some (f (a - va.toNat)) else byteAt d m a := by
  have hn := h.npages_eq
  have htwo := h.two_le
  have hN := npages_le (UInt32.le_of_lt h.lt)
  obtain ⟨q, hq, hu⟩ := h.stack
  have hmem : P2V q.pa ∈ d.pages :=
    Pgdir.mem_pages_iff.2 (.inr (.inr ⟨_, by omega, q, hq, rfl⟩))
  have hva : pageOf va = npages sz - 1 := by rw [pageOf]; omega
  have hoff : va.toNat % 4096 = va.toNat - 4096 * (npages sz - 1) := by omega
  have hne : P2V q.pa ≠ 0 := (ho.isPage_of_mem (Multiset.mem_add.2 (.inl hmem))).ne_zero
  obtain ⟨fuel, rfl⟩ := Nat.exists_eq_add_one.2 hlen
  refine ⟨memmove m (P2V q.pa) (va.toNat % 4096) (fuel + 1) f, ?_, fun a ha => ?_⟩
  · have hmin : min (4096 - va.toNat % 4096) (fuel + 1) = fuel + 1 := by omega
    rw [copyout, copyoutLoop_succ hlen, hva, uva2ka_of_pte? hq, if_neg hu, Option.bind_some,
      if_neg hne, hmin, Nat.sub_self]
    cases fuel with
    | zero => rfl
    | succ fuel => rw [copyoutLoop, if_pos rfl]
  · rw [memmove, byteAt_update ho (by omega) hq ha]
    by_cases hab : a / 4096 = npages sz - 1
    · rw [if_pos hab]
      by_cases hin : va.toNat ≤ a ∧ a < va.toNat + (fuel + 1)
      · rw [if_pos hin, Bytes.store_inside (by omega) (by omega)]
        congr 2
        omega
      · rw [if_neg hin, Bytes.store_outside (by omega), byteAt, hab, hq]
        rfl
    · rw [if_neg hab, if_neg (by omega)]

/-- From a page below the stack, the copy does not get past the page that cannot be used. -/
theorem copyoutLoop_below (h : Image d sz) (hfuel : len ≤ fuel) (hlen : 0 < len)
    (hlo : va.toNat + 4096 < sz.toNat) (hhi : sz.toNat < va.toNat + len + 8192) :
    ∃ m', copyoutLoop d fuel va len f m = some (false, m') := by
  induction fuel generalizing va len f m with
  | zero => omega
  | succ fuel ih =>
    have hn := h.npages_eq
    have hsz : sz.toNat < 2147483648 := UInt32.lt_iff_toNat_lt.1 h.lt
    have hN := npages_le (UInt32.le_of_lt h.lt)
    have hpage : pageOf va < npages sz := by rw [pageOf]; omega
    obtain ⟨q, hq⟩ := Option.isSome_iff_exists.1 ((h.maps _ (by omega)).2 hpage)
    rw [copyoutLoop_succ hlen, uva2ka_of_pte? hq, Option.bind_some]
    by_cases h0 : (if q.flags &&& PTE_U = 0 then 0 else P2V q.pa) = 0
    · rw [if_pos h0]
      exact ⟨m, rfl⟩
    -- this is not the page that cannot be used, which is yet to come
    have hnot : pageOf va ≠ npages sz - 2 := fun he => by
      obtain ⟨q', hq', hu'⟩ := h.guard
      rw [he, hq'] at hq
      exact h0 (if_pos (Option.some.inj hq ▸ hu'))
    have hnext := toNat_nextPage (a := va) (by omega)
    rw [pageOf] at hnot
    have hmin : min (4096 - va.toNat % 4096) len = 4096 - va.toNat % 4096 := by omega
    rw [if_neg h0, hmin]
    exact ih (by omega) (by omega) (by omega) (by omega)

/-- Kernel memory is not copied to, and elsewhere above user memory there is no page table. -/
theorem copyoutLoop_high (h : Image d sz) (hva : 0x80000000 ≤ va.toNat) (hlen : 0 < len)
    (hfuel : 0 < fuel) :
    copyoutLoop d fuel va len f m = none ∨ copyoutLoop d fuel va len f m = some (false, m) := by
  obtain ⟨fuel, rfl⟩ := Nat.exists_eq_add_one.2 hfuel
  have hlt := va.toNat_lt
  rw [copyoutLoop_succ hlen]
  by_cases htab : d.hasTab (pdx (pageOf va))
  · rw [h.kernel.uva2ka (by simp only [pageOf, NUSER]; omega) (by simp only [pageOf, NPAGES]; omega)
      htab, Option.bind_some, if_pos rfl]
    exact .inr rfl
  · rw [uva2ka, walkpgdir_eq, if_neg htab]
    exact .inl rfl

/-- An argument that fits on the stack. -/
theorem push_fits (h : Image d sz) (ho : Owns T m.kmem (d.pages + F))
    (hsp : sp.toNat + used = sz.toNat) (h4 : used % 4 = 0) (hx : x.len.toNat < 2147483648)
    (hfits : used + x.room ≤ 4096) : ∃ sp' m', (sp - (x.len + 1)) &&& ~~~3 = sp' ∧
      sp'.toNat + (used + x.room) = sz.toNat ∧
      copyout d sp' (x.len.toNat + 1) x.byte m = some (true, m') ∧
      ∀ a, a / 4096 < NUSER → byteAt d m' a =
        if sp'.toNat ≤ a ∧ a < sp'.toNat + (x.len.toNat + 1) then some (x.byte (a - sp'.toNat))
        else byteAt d m a := by
  have haligned := h.aligned
  have htwo := h.two_le
  have hlt := sz.toNat_lt
  have hsp' : ((sp - (x.len + 1)) &&& ~~~3).toNat = _ := toNat_sub_room (by omega) hx
  have hroom := x.lt_room
  generalize (sp - (x.len + 1)) &&& ~~~3 = sp' at hsp'
  have hsum : sp'.toNat + (used + x.room) = sz.toNat := by omega
  have hlen : 0 < x.len.toNat + 1 := Nat.succ_pos _
  have hend : sp'.toNat + (x.len.toNat + 1) ≤ sz.toNat := by omega
  obtain ⟨m', hcopy, hbyte⟩ := h.copyout_stack x.byte ho (by omega) hlen hend
  exact ⟨sp', m', rfl, hsum, hcopy, hbyte⟩

/-- An argument that does not fit on the stack is not copied. If the stack pointer does not wrap
    around, `copyout` fails. -/
theorem push_fails (h : Image d sz) (hsp : sp.toNat + used = sz.toNat) (h4 : used % 4 = 0)
    (hused : used ≤ 4096) (hx : x.len.toNat < 2147483648) (hfits : 4096 < used + x.room) :
    (used + x.room ≤ sz.toNat → ∃ m',
      copyout d ((sp - (x.len + 1)) &&& ~~~3) (x.len.toNat + 1) x.byte m = some (false, m')) ∧
    ∀ m', copyout d ((sp - (x.len + 1)) &&& ~~~3) (x.len.toNat + 1) x.byte m ≠ some (true, m') := by
  have haligned := h.aligned
  have htwo := h.two_le
  have hlt : sz.toNat < 2147483648 := UInt32.lt_iff_toNat_lt.1 h.lt
  have hsp' : ((sp - (x.len + 1)) &&& ~~~3).toNat = _ := toNat_sub_room (by omega) hx
  have hroom := x.lt_room
  generalize (sp - (x.len + 1)) &&& ~~~3 = sp' at hsp'
  have hbelow (hwrap : used + x.room ≤ sz.toNat) : ∃ m',
      copyoutLoop d (x.len.toNat + 1) sp' (x.len.toNat + 1) x.byte m = some (false, m') :=
    h.copyoutLoop_below le_rfl (by omega) (by omega) (by omega)
  refine ⟨hbelow, fun m' he => ?_⟩
  rw [copyout] at he
  by_cases hwrap : used + x.room ≤ sz.toNat
  · obtain ⟨m₁, hm₁⟩ := hbelow hwrap
    rw [hm₁] at he
    cases he
  · obtain hr | hr : copyoutLoop d (x.len.toNat + 1) sp' (x.len.toNat + 1) x.byte m = none ∨
        copyoutLoop d (x.len.toNat + 1) sp' (x.len.toNat + 1) x.byte m = some (false, m) :=
      h.copyoutLoop_high (by omega) (Nat.succ_pos _) (Nat.succ_pos _)
    all_goals
      rw [hr] at he
      cases he

end Image

/-! ## Strings -/

/-- Arguments with their addresses are in the memory from `sp` to `sz`, each below the one
    before. -/
structure Strings (d : Pgdir) (m : Ram) (sz sp : ℕ) (w : List (UInt32 × Arg)) : Prop where
  aligned : ∀ y ∈ w, y.1.toNat % 4 = 0
  within : ∀ y ∈ w, sp ≤ y.1.toNat ∧ y.1.toNat + y.2.len.toNat < sz
  byte : ∀ y ∈ w, ∀ j ≤ y.2.len.toNat, byteAt d m (y.1.toNat + j) = some (y.2.byte j)
  below : w.Pairwise fun y z => z.1.toNat + z.2.len.toNat < y.1.toNat

variable {w : List (UInt32 × Arg)}

theorem strings_nil (d : Pgdir) (m : Ram) (sz sp : ℕ) : Strings d m sz sp [] :=
  ⟨nofun, nofun, nofun, .nil⟩

/-- What is written below does not change the strings. -/
theorem Strings.keep {sz sp : ℕ} (h : Strings d m sz sp w)
    (hkeep : ∀ a, sp ≤ a → a < sz → byteAt d m' a = byteAt d m a) : Strings d m' sz sp w :=
  ⟨h.aligned, h.within, fun y hy j hj => by
    obtain ⟨hlo, hhi⟩ := h.within y hy
    rw [hkeep _ (by omega) (by omega), h.byte y hy j hj], h.below⟩

theorem Strings.snoc {sz sp : ℕ} {sp' : UInt32} (h : Strings d m sz sp w) (h4 : sp'.toNat % 4 = 0)
    (hsp : sp'.toNat + x.len.toNat < sp) (hsz : sp ≤ sz)
    (hbyte : ∀ j ≤ x.len.toNat, byteAt d m (sp'.toNat + j) = some (x.byte j)) :
    Strings d m sz sp'.toNat (w ++ [(sp', x)]) where
  aligned := List.forall_mem_append.2 ⟨h.aligned, List.forall_mem_singleton.2 h4⟩
  within := List.forall_mem_append.2 ⟨fun y hy => by have := h.within y hy; omega,
    List.forall_mem_singleton.2 ⟨le_rfl, by dsimp only; omega⟩⟩
  byte := List.forall_mem_append.2 ⟨h.byte, List.forall_mem_singleton.2 hbyte⟩
  below := List.pairwise_append.2 ⟨h.below, List.pairwise_singleton _ _, fun y hy z hz => by
    obtain rfl := List.mem_singleton.1 hz
    have := h.within y hy
    dsimp only
    omega⟩

/-- The word at the user address `a`. -/
def wordAt (d : Pgdir) (m : Ram) (a : ℕ) : Option UInt32 :=
  (byteAt d m a).bind fun b₀ => (byteAt d m (a + 1)).bind fun b₁ =>
    (byteAt d m (a + 2)).bind fun b₂ => (byteAt d m (a + 3)).map fun b₃ =>
      (Bytes.ofList [b₀, b₁, b₂, b₃]).u32

theorem wordAt_eq (h : ∀ k < 4, byteAt d m (a + k) = some (f k)) : wordAt d m a = some f.u32 := by
  have h₀ := h 0 (by omega)
  rw [Nat.add_zero] at h₀
  rw [wordAt, h₀, h 1 (by omega), h 2 (by omega), h 3 (by omega)]
  rfl

theorem u32_wordBytes (ws : List UInt32) (i : ℕ) :
    ((wordBytes ws).drop (4 * i)).u32 = ws.getD i 0 := by
  have hagree : Bytes.Agree 4 ((wordBytes ws).drop (4 * i)) (Bytes.of32 (ws.getD i 0)) := by
    intro k hk
    rw [Bytes.drop_apply, wordBytes, show (4 * i + k) / 4 = i by omega, show (4 * i + k) % 4 =
      k by omega]
  rw [hagree.u32, Bytes.u32_of32]

/-- What a program finds on its stack: a return address, the number of its arguments, and the
    address `u` of the pointers to them, which are those of `w`. -/
structure ArgsAt (d : Pgdir) (m : Ram) (sz esp : ℕ) (u : UInt32) (w : List (UInt32 × Arg)) :
    Prop where
  pc : wordAt d m esp = some 0xffffffff
  argc : wordAt d m (esp + 4) = some w.length.toUInt32
  argv : wordAt d m (esp + 8) = some u
  ptr : ∀ i y, w[i]? = some y → wordAt d m (u.toNat + 4 * i) = some y.1
  null : wordAt d m (u.toNat + 4 * w.length) = some 0
  aligned : ∀ y ∈ w, y.1.toNat % 4 = 0
  string : ∀ y ∈ w, ∀ j ≤ y.2.len.toNat, byteAt d m (y.1.toNat + j) = some (y.2.byte j)
  /-- The words, the pointers and the strings, by their addresses and lengths, are on the stack page
      and apart. -/
  within : ∀ r ∈ (esp, 12) :: (u.toNat, 4 * (w.length + 1)) ::
      w.map fun y => (y.1.toNat, y.2.len.toNat + 1), sz ≤ r.1 + 4096 ∧ r.1 + r.2 ≤ sz
  apart : ((esp, 12) :: (u.toNat, 4 * (w.length + 1)) ::
      w.map fun y => (y.1.toNat, y.2.len.toNat + 1)).Pairwise fun r r' =>
    r.1 + r.2 ≤ r'.1 ∨ r'.1 + r'.2 ≤ r.1

theorem wordAt_congr (h : ∀ k < 4, byteAt d m' (a + k) = byteAt d m (a + k)) :
    wordAt d m' a = wordAt d m a := by
  have h₀ := h 0 (by omega)
  rw [Nat.add_zero] at h₀
  rw [wordAt, wordAt, h₀, h 1 (by omega), h 2 (by omega), h 3 (by omega)]

theorem ArgsAt.congr {sz esp : ℕ} {u : UInt32} (h : ArgsAt d m sz esp u w)
    (hkeep : ∀ a < sz, byteAt d m' a = byteAt d m a) : ArgsAt d m' sz esp u w := by
  have hin := h.within
  rw [List.forall_mem_cons, List.forall_mem_cons, List.forall_mem_map] at hin
  obtain ⟨hesp, hu, hw⟩ := hin
  dsimp only at hesp hu
  have hword {a : ℕ} (ha : a + 4 ≤ sz) : wordAt d m' a = wordAt d m a :=
    wordAt_congr fun k hk => hkeep _ (by omega)
  refine ⟨?_, ?_, ?_, fun i y hy => ?_, ?_, h.aligned, fun y hy j hj => ?_, h.within, h.apart⟩
  · rw [hword (by omega), h.pc]
  · rw [hword (by omega), h.argc]
  · rw [hword (by omega), h.argv]
  · have hi : i < w.length := (List.getElem?_eq_some_iff.1 hy).1
    rw [hword (by omega), h.ptr i y hy]
  · rw [hword (by omega), h.null]
  · have := hw y hy
    dsimp only at this
    rw [hkeep _ (by omega), h.string y hy j hj]

/-- What is in the pages of a directory is what is in user memory. -/
theorem byteAt_congr (ha : a / 4096 < NUSER) (h : ∀ v ∈ d.pages, m'.page v = m.page v) :
    byteAt d m' a = byteAt d m a := by
  rw [byteAt, byteAt]
  cases hq : d.pte? (a / 4096) with
  | none => rw [Option.map_none, Option.map_none]
  | some q =>
    have hmem : P2V q.pa ∈ d.pages := Pgdir.mem_pages_iff.2 (.inr (.inr ⟨_, ha, q, hq, rfl⟩))
    rw [Option.map_some, Option.map_some, h _ hmem]

namespace Image

/-- The loop over the arguments: if it gets to its end, they are on the stack. -/
theorem pushArgs_spec (h : Image d sz) (ho : Owns T m.kmem (d.pages + F))
    (hl : ∀ x ∈ l, x.len.toNat < 2147483648) (hw : w.length ≤ MAXARG)
    (hstr : Strings d m sz.toNat sp.toNat w) (hsp : sp.toNat + used = sz.toNat) (h4 : used % 4 = 0)
    (hused : used ≤ 4096) {ptrs : List UInt32} {sp' : UInt32}
    (hr : pushArgs d l (w.map Prod.fst) sp m = some (some (ptrs, sp'), m')) :
    ∃ w' used', ptrs = w'.map Prod.fst ∧ w'.map Prod.snd = w.map Prod.snd ++ l ∧
      w'.length ≤ MAXARG ∧ Strings d m' sz.toNat sp'.toNat w' ∧ sp'.toNat + used' = sz.toNat ∧
      used' % 4 = 0 ∧ used' ≤ 4096 := by
  induction l generalizing w sp used m with
  | nil =>
    refine ⟨w, used, ?_⟩
    obtain ⟨⟨rfl, rfl⟩, rfl⟩ := (by simpa [pushArgs] using hr :
      (w.map Prod.fst = ptrs ∧ sp = sp') ∧ m = m')
    exact ⟨rfl, (List.append_nil _).symm, hw, hstr, hsp, h4, hused⟩
  | cons x l ih =>
    obtain ⟨hx, hl'⟩ := List.forall_mem_cons.1 hl
    have hroom := x.lt_room
    have haligned := h.aligned
    rw [pushArgs, List.length_map] at hr
    by_cases hmax : MAXARG ≤ w.length
    · rw [if_pos hmax] at hr
      cases hr
    rw [if_neg hmax] at hr
    obtain ⟨⟨r, m₂⟩, hcopy, hr⟩ := Option.bind_eq_some_iff.1 hr
    by_cases hfits : used + x.room ≤ 4096
    · obtain ⟨sp₁, m₁, hsp₁, hsum, hcopy', hbyte⟩ := h.push_fits ho hsp h4 hx hfits
      have hk := (h.kernel.copyoutLoop_same ho hcopy').1
      have hsz : sz.toNat < 2147483648 := UInt32.lt_iff_toNat_lt.1 h.lt
      have hstr' : Strings d m₁ sz.toNat sp₁.toNat (w ++ [(sp₁, x)]) := by
        refine (hstr.keep fun a hlo hhi => ?_).snoc (by omega) (by omega) (by omega) fun j hj => ?_
        · rw [hbyte a (by simp only [NUSER]; omega), if_neg (by omega)]
        · rw [hbyte _ (by simp only [NUSER]; omega), if_pos (by omega), Nat.add_sub_cancel_left]
      subst hsp₁
      obtain ⟨rfl, rfl⟩ := Prod.mk.inj (Option.some.inj (hcopy'.symm.trans hcopy))
      obtain ⟨w', used', hptrs, hargs, hrest⟩ := @ih m₁ (used + x.room) _ (w ++ [(_, x)]) (hk ▸ ho)
        hl' (by rw [List.length_append, List.length_singleton]; omega) hstr' hsum (by omega) hfits
        (by rw [List.map_append]; exact hr)
      refine ⟨w', used', hptrs, ?_, hrest⟩
      rw [hargs, List.map_append, List.append_assoc]
      rfl
    · cases r with
      | false => cases hr
      | true => exact absurd hcopy ((h.push_fails hsp h4 hused hx (by omega)).2 m₂)

theorem toNat_argc {n : ℕ} (hn : n ≤ MAXARG) : n.toUInt32.toNat = n := by
  rw [Nat.toUInt32, UInt32.toNat_ofNat']
  simp only [MAXARG] at hn
  omega

/-- The stack pointer goes down by some words. -/
theorem toNat_sub_words {n : ℕ} (sp x : UInt32) (hx : x.toNat = n) (hn : n ≤ 36)
    (h : 4 * n ≤ sp.toNat) :
    (sp - x * 4).toNat = sp.toNat - 4 * n := by
  have hmul : (x * 4).toNat = 4 * n := by
    rw [UInt32.toNat_mul, hx]
    change n * 4 % 4294967296 = _
    omega
  rw [UInt32.toNat_sub_of_le _ _ (UInt32.le_iff_toNat_le.2 (by omega)), hmul]

/-- What is on the stack when the words are below the strings. -/
theorem argsAt {esp : UInt32} (hw : w.length ≤ MAXARG)
    (hstr : Strings d m sz.toNat sp.toNat w) (hesp : esp.toNat + 4 * (w.length + 4) = sp.toNat)
    (hlo : sz.toNat ≤ esp.toNat + 4096) (hhi : sp.toNat ≤ sz.toNat)
    (hbyte : ∀ j < 4 * (w.length + 4), byteAt d m (esp.toNat + j) =
      some (wordBytes (stackWords (w.map Prod.fst) sp) j)) :
    ArgsAt d m sz.toNat esp.toNat (sp - (w.length.toUInt32 + 1) * 4) w := by
  have hword (i : ℕ) (hi : i < w.length + 4) : wordAt d m (esp.toNat + 4 * i) =
      some ((stackWords (w.map Prod.fst) sp).getD i 0) := by
    rw [← u32_wordBytes]
    refine wordAt_eq fun k hk => ?_
    rw [Nat.add_assoc, hbyte _ (by omega), Bytes.drop_apply]
  have hnext (i : ℕ) : (stackWords (w.map Prod.fst) sp).getD (i + 3) 0 =
      (w.map Prod.fst ++ [0]).getD i 0 := rfl
  have hargc := toNat_argc hw
  have hu : (sp - (w.length.toUInt32 + 1) * 4).toNat = esp.toNat + 12 := by
    simp only [MAXARG] at hw
    have hone : (w.length.toUInt32 + 1).toNat = w.length + 1 := by
      rw [UInt32.toNat_add, hargc]
      exact Nat.mod_eq_of_lt (by change _ + 1 < _; omega)
    rw [toNat_sub_words sp _ hone (by omega) (by omega)]
    omega
  have hlen : (w.map Prod.fst).length = w.length := List.length_map ..
  refine ⟨?_, ?_, ?_, fun i y hy => ?_, ?_, hstr.aligned, hstr.byte, ?_, ?_⟩
  · exact hword 0 (by omega)
  · have := hword 1 (by omega)
    rwa [stackWords, hlen] at this
  · have := hword 2 (by omega)
    rwa [stackWords, hlen] at this
  · have hi : i < w.length := (List.getElem?_eq_some_iff.1 hy).1
    rw [hu, show esp.toNat + 12 + 4 * i = esp.toNat + 4 * (i + 3) by omega, hword _ (by omega),
      hnext,
      List.getD_eq_getElem?_getD, List.getElem?_append_left (by omega), List.getElem?_map, hy]
    rfl
  · rw [hu, show esp.toNat + 12 + 4 * w.length = esp.toNat + 4 * (w.length + 3) by omega,
      hword _ (by omega), hnext, List.getD_eq_getElem?_getD, List.getElem?_append_right (by omega),
      hlen, Nat.sub_self]
    rfl
  · rw [List.forall_mem_cons, List.forall_mem_cons, List.forall_mem_map, hu]
    refine ⟨by dsimp only; omega, by dsimp only; omega, fun y hy => ?_⟩
    have := hstr.within y hy
    dsimp only
    omega
  · rw [List.pairwise_cons, List.pairwise_cons, List.forall_mem_cons, List.pairwise_map, hu]
    refine ⟨⟨.inl (by dsimp only; omega), ?_⟩, ?_, hstr.below.imp fun h => .inr h⟩
    all_goals
      refine List.forall_mem_map.2 fun y hy => .inl ?_
      have := hstr.within y hy
      dsimp only
      omega

/-- The words are copied to the stack below the strings, or they do not fit. -/
theorem copy_words (h : Image d sz) (ho : Owns T m.kmem (d.pages + F))
    (hw : w.length ≤ MAXARG) (hstr : Strings d m sz.toNat sp.toNat w)
    (hsp : sp.toNat + used = sz.toNat) (hused : used ≤ 4096) : ∃ r m' esp,
    sp - (3 + w.length.toUInt32 + 1) * 4 = esp ∧ esp.toNat = sp.toNat - 4 * (w.length + 4) ∧
      copyout d esp (4 * (stackWords (w.map Prod.fst) sp).length)
        (wordBytes (stackWords (w.map Prod.fst) sp)) m = some (r, m') ∧
      (sz.toNat ≤ esp.toNat + 4096 → r = true) ∧ (r = true →
        ArgsAt d m' sz.toNat esp.toNat (sp - (w.length.toUInt32 + 1) * 4) w) := by
  have htwo := h.two_le
  have hsz : sz.toNat < 2147483648 := UInt32.lt_iff_toNat_lt.1 h.lt
  have hlen : (stackWords (w.map Prod.fst) sp).length = w.length + 4 := by
    simp [stackWords]
  have hw' : w.length ≤ 32 := hw
  have hfour : (3 + w.length.toUInt32 + 1).toNat = w.length + 4 := by
    rw [UInt32.toNat_add, UInt32.toNat_add, toNat_argc hw]
    change ((3 + w.length) % 4294967296 + 1) % 4294967296 = _
    omega
  have hesp := toNat_sub_words sp _ hfour (by omega) (by omega)
  generalize sp - (3 + w.length.toUInt32 + 1) * 4 = esp at hesp
  rw [hlen]
  have hpos : 0 < 4 * (w.length + 4) := by omega
  by_cases hstack : sz.toNat ≤ esp.toNat + 4096
  · obtain ⟨m', hcopy, hbyte⟩ := h.copyout_stack (wordBytes (stackWords (w.map Prod.fst) sp)) ho
      hstack hpos (by omega)
    refine ⟨true, m', esp, rfl, hesp, hcopy, fun _ => rfl, fun _ => ?_⟩
    refine argsAt hw (hstr.keep fun a hlo hhi => ?_) (by omega) hstack (by omega) fun j hj => ?_
    · rw [hbyte a (by simp only [NUSER]; omega), if_neg (by omega)]
    · rw [hbyte _ (by simp only [NUSER]; omega), if_pos (by omega), Nat.add_sub_cancel_left]
  · obtain ⟨m', hcopy⟩ : ∃ m', copyoutLoop d (4 * (w.length + 4)) esp (4 * (w.length + 4))
        (wordBytes (stackWords (w.map Prod.fst) sp)) m = some (false, m') :=
      h.copyoutLoop_below le_rfl hpos (by omega) (by omega)
    exact ⟨false, m', esp, rfl, hesp, hcopy, fun hin => absurd hin hstack, nofun⟩

/-- `exec` from the arguments on: if it gets to its end, they can be read back. -/
theorem pushStack_spec (h : Image d sz) (ho : Owns T m.kmem (d.pages + F))
    (hl : ∀ x ∈ l, x.len.toNat < 2147483648) {esp : UInt32}
    (hr : pushStack d l sz m = some (some esp, m')) :
    ∃ u w, w.map Prod.snd = l ∧ ArgsAt d m' sz.toNat esp.toNat u w := by
  obtain ⟨⟨_ | ⟨ptrs, sp⟩, m₁⟩, hpush, hr⟩ := Option.bind_eq_some_iff.1 hr
  · cases hr
  have hk := (h.kernel.pushArgs_same ho hpush).1
  obtain ⟨w, used, rfl, hl', hw, hstr, hsp, -, hused⟩ := h.pushArgs_spec ho hl (Nat.zero_le _)
    (strings_nil d m sz.toNat sz.toNat) (Nat.add_zero _) rfl (Nat.zero_le _) hpush
  obtain ⟨⟨r, m₂⟩, hcopy, he⟩ := Option.map_eq_some_iff.1 hr
  obtain ⟨r', m₂', esp', hesp, -, hcopy', -, hat⟩ := h.copy_words (hk ▸ ho) hw hstr hsp hused
  rw [List.length_map, hesp] at hcopy he
  obtain ⟨rfl, rfl⟩ := Prod.mk.inj (Option.some.inj (hcopy'.symm.trans hcopy))
  cases r' with
  | false => cases he
  | true =>
    obtain ⟨rfl, rfl⟩ := (by simpa using he : esp' = esp ∧ m₂' = m')
    exact ⟨_, w, hl', hat rfl⟩

/-- Arguments that fit on the stack are pushed. -/
theorem pushArgs_fits (h : Image d sz) (ho : Owns T m.kmem (d.pages + F))
    (hl : ∀ x ∈ l, x.len.toNat < 2147483648) (ustack : List UInt32)
    (hn : ustack.length + l.length ≤ MAXARG) (hsp : sp.toNat + used = sz.toNat) (h4 : used % 4 = 0)
    (hfit : used + (l.map Arg.room).sum ≤ 4096) : ∃ ptrs sp' m',
    pushArgs d l ustack sp m = some (some (ptrs, sp'), m') ∧
      sp'.toNat + (used + (l.map Arg.room).sum) = sz.toNat := by
  induction l generalizing ustack sp used m with
  | nil => exact ⟨ustack, sp, m, rfl, by simpa using hsp⟩
  | cons x l ih =>
    rw [List.map_cons, List.sum_cons] at hfit ⊢
    rw [List.length_cons] at hn
    have hroom := x.lt_room
    obtain ⟨sp', m₁, hsp', hsum, hcopy, -⟩ := h.push_fits ho hsp h4
      (hl x List.mem_cons_self) (by omega)
    have hk := (h.kernel.copyoutLoop_same ho hcopy).1
    obtain ⟨ptrs, sp'', m', hr, hend⟩ := @ih m₁ (used + x.room) sp' (hk ▸ ho)
      (fun y hy => hl y (List.mem_cons_of_mem _ hy)) (ustack ++ [sp'])
      (by rw [List.length_append, List.length_singleton]; omega) hsum (by omega) (by omega)
    refine ⟨ptrs, sp'', m', ?_, by omega⟩
    subst hsp'
    rw [pushArgs, if_neg (by omega)]
    dsimp only
    rw [hcopy, Option.bind_some]
    exact hr

theorem pushStack_fits (h : Image d sz) (ho : Owns T m.kmem (d.pages + F))
    (hl : ∀ x ∈ l, x.len.toNat < 2147483648) (hn : l.length ≤ MAXARG)
    (hfit : (l.map Arg.room).sum + 4 * (l.length + 4) ≤ 4096) :
    ∃ esp m', pushStack d l sz m = some (some esp, m') := by
  have htwo := h.two_le
  obtain ⟨ptrs, sp, m₁, hpush, hsp⟩ := h.pushArgs_fits (m := m) ho hl []
    (by simpa using hn) (Nat.add_zero _) rfl (by omega)
  have hk := (h.kernel.pushArgs_same ho hpush).1
  obtain ⟨w, used, rfl, hw', hw, hstr, hsp', -, hused⟩ := h.pushArgs_spec ho hl (Nat.zero_le _)
    (strings_nil d m sz.toNat sz.toNat) (Nat.add_zero _) rfl (Nat.zero_le _) hpush
  obtain ⟨r, m', esp, hesp, hval, hcopy, hfits, -⟩ := h.copy_words (hk ▸ ho) hw hstr hsp' hused
  have hlen : w.length = l.length := by
    have := congrArg List.length hw'
    simpa using this
  obtain rfl := hfits (by omega)
  refine ⟨esp, m', ?_⟩
  rw [pushStack, hpush, Option.bind_some]
  dsimp only
  rw [List.length_map, hesp, hcopy]
  rfl

end Image

end Xv6.Uvm
