import Xv6.Vm.Grow

/-!
# Where the arguments of a program go

The stack pointer goes down by the length of each argument, and wraps around at 0. If it gets to an
address between the kernel's memory and the devices, there is no page table for it, which `uva2ka`
does not check. Everywhere else, `exec` looks up pages that have a page table, and if it succeeds,
it has written to the stack of the new image only. This is so exactly if no argument, after some
that fit on the stack, ends in that range (`exec_args_iff`).
-/

namespace Xv6.Vm

open Kmem TransitionSystem

/-- The lookups of a record are of pages with a page table. -/
def Present (log : List Access) : Prop := ∀ a r, Access.lookup a r ∈ log → r = true

/-! ## The new image -/

theorem mem_kmapPdx {i : ℕ} : i ∈ kmapPdx ↔ 512 ≤ i ∧ i < 568 ∨ 1016 ≤ i ∧ i < 1024 := by
  simp only [kmapPdx, kmap, List.flatMap_cons, List.flatMap_nil, List.append_nil, List.mem_append,
    List.mem_range'_1]
  omega

/-- The memory of a program before its arguments are pushed: the stack is the page below `sz`, and
    the process cannot use the page below that one. There are page tables for the image, for the
    kernel's memory and for the devices, and for nothing between. -/
structure Image (d : Pgdir) (sz : UInt32) : Prop extends Layout d sz where
  tabs : ∀ i : Fin NPDENTRIES, i.val ∈ kmapPdx → d.hasTab i
  aligned : sz.toNat % 4096 = 0
  two_le : 8192 ≤ sz.toNat
  guard : ∃ p, d.pte? (npages sz - 2) = some p ∧ p.user = false
  stack : ∃ p, d.pte? (npages sz - 1) = some p ∧ p.user ∧ p.page ≠ 0
  hole : ∀ i : Fin NPDENTRIES, 568 ≤ i.val → i.val < 1016 → d.hasTab i = false

variable {T F : Multiset Addr} {d d' : Pgdir} {va sp sz : UInt32} {k : Kmem} {a fuel len : ℕ}
  {byte : ℕ → UInt8} {log : List Access}

namespace Image

theorem npages_eq (h : Image d sz) : 4096 * npages sz = sz.toNat := by
  have := h.aligned
  rw [npages]
  omega

theorem hasTab (h : Image d sz) (ha : a < npages sz) : d.hasTab (pdx a) := by
  have hle := npages_le (UInt32.le_of_lt h.lt)
  exact Pgdir.hasTab_of_pte? ((h.maps a (by simp only [NUSER, NPAGES] at *; omega)).2 ha)

/-- Between the kernel's memory and the devices there are no page tables. -/
theorem hasTab_iff (h : Image d sz) (hva : 0x80000000 ≤ va.toNat) :
    d.hasTab (pdx (pageOf va)) ↔ ¬(0x8E000000 ≤ va.toNat ∧ va.toNat < 0xFE000000) := by
  have hlt := va.toNat_lt
  have hval : (pdx (pageOf va)).val = va.toNat / 4194304 := by
    simp only [pdx, pageOf, Fin.ofNat, NPDENTRIES, NPTENTRIES]
    omega
  by_cases hin : 0x8E000000 ≤ va.toNat ∧ va.toNat < 0xFE000000
  · rw [h.hole _ (by omega) (by omega)]
    simp [hin]
  · exact iff_of_true (h.tabs _ (mem_kmapPdx.2 (by omega))) hin

/-! ## Copies -/

/-- Within the stack, everything is copied. -/
theorem copyout_stack (h : Image d sz) (hlo : sz.toNat ≤ va.toNat + 4096) (hlen : 0 < len)
    (hhi : va.toNat + len ≤ sz.toNat) : ∃ k', copyout d va len byte k =
      ⟨some (true, k'), [.lookup (npages sz - 1) true, .write va len]⟩ := by
  obtain ⟨p, hp, hu, hpage⟩ := h.stack
  have hn := h.npages_eq
  have htwo := h.two_le
  have hva : pageOf va = npages sz - 1 := by rw [pageOf]; omega
  have huva : uva2ka d (pageOf va) = some p.page := by
    rw [hva, uva2ka_of_hasTab (h.hasTab (by omega)), hp, Option.elim_some, if_pos hu]
  obtain ⟨fuel, rfl⟩ := Nat.exists_eq_add_one.2 hlen
  have hmin : min (4096 - va.toNat % 4096) (fuel + 1) = fuel + 1 := by omega
  -- nothing is left after one round
  have hend (va : UInt32) (byte : ℕ → UInt8) (k : Kmem) :
      copyoutLoop d fuel va 0 byte k = .of (some (true, k)) := by
    cases fuel <;> rfl
  rw [copyout, copyoutLoop_succ hlen.ne' huva, hmin, Nat.sub_self, hva]
  simp only [Logged.bind, if_neg hpage, hend]
  exact ⟨_, rfl⟩

/-- From a page below the stack, the copy does not get past the page that cannot be used. -/
theorem copyoutLoop_below (h : Image d sz) (hfuel : len ≤ fuel)
    (hlen : 0 < len) (hlo : va.toNat + 4096 < sz.toNat) (hhi : sz.toNat < va.toNat + len + 8192) :
    ∃ k' log, copyoutLoop d fuel va len byte k = ⟨some (false, k'), log⟩ ∧ Present log := by
  induction fuel generalizing va len byte k with
  | zero => omega
  | succ fuel ih =>
    have hn := h.npages_eq
    have hsz : sz.toNat < 2147483648 := UInt32.lt_iff_toNat_lt.1 h.lt
    have htab : d.hasTab (pdx (pageOf va)) := h.hasTab (by rw [pageOf]; omega)
    have hlook : Present [.lookup (pageOf va) true] := by simp [Present]
    obtain ⟨v, huva⟩ : ∃ v, uva2ka d (pageOf va) = some v := ⟨_, uva2ka_of_hasTab htab⟩
    rw [copyoutLoop_succ hlen.ne' huva]
    by_cases h0 : v = 0
    · simp only [Logged.bind, if_pos h0]
      exact ⟨k, _, rfl, hlook⟩
    -- this is not the page that cannot be used, which is yet to come
    have hne : pageOf va ≠ npages sz - 2 := fun he => by
      obtain ⟨p, hp, hu⟩ := h.guard
      rw [uva2ka_of_hasTab htab, he, hp, Option.elim_some, hu] at huva
      exact h0 (Option.some.inj huva).symm
    have hnext := toNat_nextPage (a := va) (by omega)
    rw [pageOf] at hne
    have hmin : min (4096 - va.toNat % 4096) len = 4096 - va.toNat % 4096 := by omega
    rw [hmin]
    obtain ⟨k', log, hr, hlog⟩ := @ih (pgRoundDown va + PGSIZE)
      (memmove k v (va.toNat % 4096) (4096 - va.toNat % 4096) byte) (len - (4096 - va.toNat % 4096))
      (fun j => byte (4096 - va.toNat % 4096 + j)) (by omega) (by omega) (by omega) (by omega)
    simp only [Logged.bind, if_neg h0, hr]
    exact ⟨k', _, rfl, by simpa [Present] using hlog⟩

/-- In the upper half of the address space, nothing can be copied. -/
theorem copyout_high (h : Image d sz) (hva : 0x80000000 ≤ va.toNat) (hlen : 0 < len) :
    copyout d va len byte k = ⟨if d.hasTab (pdx (pageOf va)) then some (false, k) else none,
      [.lookup (pageOf va) (d.hasTab (pdx (pageOf va)))]⟩ := by
  obtain ⟨fuel, rfl⟩ := Nat.exists_eq_add_one.2 hlen
  by_cases htab : d.hasTab (pdx (pageOf va))
  · have h0 : uva2ka d (pageOf va) = some 0 := by
      have hlt := va.toNat_lt
      rw [uva2ka_of_hasTab htab, h.kern _ (by simp only [pageOf, NPAGES]; omega)
        (by simp only [pageOf, NUSER]; omega)]
      rfl
    rw [copyout, copyoutLoop_succ hlen.ne' h0, htab]
    rfl
  · have hwalk : walkpgdir d (pageOf va) = none := by rw [walkpgdir_eq, if_neg htab]
    rw [Bool.not_eq_true] at htab
    rw [copyout, copyoutLoop, pageOf_pgRoundDown, uva2ka, hwalk, htab]
    rfl

end Image

/-! ## Arguments -/

/-- What an argument takes of the stack. -/
def Arg.room (x : Arg) : ℕ := 4 * ((x.len.toNat + 4) / 4)

/-- The bytes and the nul of an argument, rounded up. -/
theorem Arg.lt_room (x : Arg) :
    x.len.toNat < x.room ∧ x.room ≤ x.len.toNat + 4 ∧ x.room % 4 = 0 := by
  rw [Arg.room]
  omega

/-- No argument, after some that fit on the stack, puts the stack pointer between the kernel's
    memory and the devices; `used` is what the arguments before have taken. -/
def Clear (sz : ℕ) : ℕ → List Arg → Prop
  | _, [] => True
  | used, x :: l =>
    (used ≤ 4096 → ¬(sz + 0x2000000 < used + x.room ∧ used + x.room ≤ sz + 0x72000000)) ∧
      Clear sz (used + x.room) l

/-- The writes of a record are to the stack. -/
def InStack (sz : UInt32) (log : List Access) : Prop :=
  ∀ va n, Access.write va n ∈ log → sz.toNat ≤ va.toNat + 4096 ∧ va.toNat + n ≤ sz.toNat

variable {x : Arg} {l : List Arg} {used : ℕ} {ustack : List UInt32}

theorem Present.append {log' : List Access} (h : Present log) (h' : Present log') :
    Present (log ++ log') := fun a r hr =>
  (List.mem_append.1 hr).elim (h a r) (h' a r)

theorem InStack.append {log' : List Access} (h : InStack sz log) (h' : InStack sz log') :
    InStack sz (log ++ log') := fun va n hw =>
  (List.mem_append.1 hw).elim (h va n) (h' va n)

theorem clear_of_lt {n : ℕ} (h : 4096 < used) : Clear n used l := by
  induction l generalizing used with
  | nil => trivial
  | cons x l ih => exact ⟨fun hle => absurd hle (by omega), ih (by omega)⟩

/-- The stack pointer after an argument. -/
theorem toNat_sub_room (hsp : sp.toNat % 4 = 0) (hx : x.len.toNat < 2147483648) :
    ((sp - (x.len + 1)) &&& ~~~3).toNat = (sp.toNat + 4294967296 - x.room) % 4294967296 := by
  have hlt := sp.toNat_lt
  have hlen : (x.len + 1).toNat = x.len.toNat + 1 := by
    rw [UInt32.toNat_add]
    exact Nat.mod_eq_of_lt (by change _ + 1 < _; omega)
  rw [toNat_and_not_three, UInt32.toNat_sub, hlen, Arg.room]
  omega

namespace Image

/-- An argument that fits on the stack. -/
theorem push_fits (h : Image d sz) (hsp : sp.toNat + used = sz.toNat) (h4 : used % 4 = 0)
    (hx : x.len.toNat < 2147483648) (hfits : used + x.room ≤ 4096) :
    ∃ sp' k' log, (sp - (x.len + 1)) &&& ~~~3 = sp' ∧ sp'.toNat + (used + x.room) = sz.toNat ∧
      copyout d sp' (x.len.toNat + 1) x.byte k = ⟨some (true, k'), log⟩ ∧ Present log ∧
      InStack sz log := by
  have haligned := h.aligned
  have htwo := h.two_le
  have hlt := sz.toNat_lt
  have hsp' : ((sp - (x.len + 1)) &&& ~~~3).toNat = _ := toNat_sub_room (by omega) hx
  have hroom := x.lt_room
  generalize (sp - (x.len + 1)) &&& ~~~3 = sp' at hsp'
  have hsum : sp'.toNat + (used + x.room) = sz.toNat := by omega
  obtain ⟨k', hcopy⟩ : ∃ k', copyout d sp' (x.len.toNat + 1) x.byte k = ⟨some (true, k'), _⟩ :=
    h.copyout_stack (by omega) (by omega) (by omega)
  refine ⟨sp', k', _, rfl, hsum, hcopy, by simp [Present], fun va n hw => ?_⟩
  obtain ⟨rfl, rfl⟩ : va = sp' ∧ n = x.len.toNat + 1 := by simpa using hw
  omega

/-- An argument that does not fit on the stack. -/
theorem push_fails (h : Image d sz) (hsp : sp.toNat + used = sz.toNat) (h4 : used % 4 = 0)
    (hused : used ≤ 4096) (hx : x.len.toNat < 2147483648) (hfits : 4096 < used + x.room) :
    if sz.toNat + 0x2000000 < used + x.room ∧ used + x.room ≤ sz.toNat + 0x72000000 then
      ∃ log, copyout d ((sp - (x.len + 1)) &&& ~~~3) (x.len.toNat + 1) x.byte k = ⟨none, log⟩ ∧
        ¬Present log
    else ∃ k' log, copyout d ((sp - (x.len + 1)) &&& ~~~3) (x.len.toNat + 1) x.byte k =
      ⟨some (false, k'), log⟩ ∧ Present log := by
  have haligned := h.aligned
  have htwo := h.two_le
  have hlt : sz.toNat < 2147483648 := UInt32.lt_iff_toNat_lt.1 h.lt
  have hsp' : ((sp - (x.len + 1)) &&& ~~~3).toNat = _ := toNat_sub_room (by omega) hx
  have hroom := x.lt_room
  generalize (sp - (x.len + 1)) &&& ~~~3 = sp' at hsp'
  by_cases hwrap : used + x.room ≤ sz.toNat
  · rw [if_neg (by omega)]
    exact h.copyoutLoop_below le_rfl (by omega) (by omega) (by omega)
  have hhigh : 0x80000000 ≤ sp'.toNat := by omega
  have htab := h.hasTab_iff hhigh
  rw [h.copyout_high hhigh (Nat.succ_pos _)]
  split_ifs with hhole hno hno
  · exact absurd hhole (by rw [htab] at hno; omega)
  · rw [Bool.not_eq_true] at hno
    exact ⟨_, rfl, fun hlog => by simpa [hno] using hlog _ _ (List.mem_singleton_self _)⟩
  · exact ⟨k, _, rfl, fun a r hr => by
      obtain ⟨-, rfl⟩ : a = _ ∧ r = _ := by simpa using hr
      exact hno⟩
  · exact absurd (htab.2 (by omega)) hno

/-- The loop over the arguments: if no argument gets to where there is no page table, all lookups
    are of pages that have one, and if all arguments are copied, they are on the stack. -/
theorem pushArgs_clear (h : Image d sz) (hsp : sp.toNat + used = sz.toNat) (h4 : used % 4 = 0)
    (hused : used ≤ 4096) (hl : ∀ x ∈ l, x.len.toNat < 2147483648)
    (hargc : ustack.length + l.length < MAXARG) (hc : Clear sz.toNat used l) :
    ∃ r k' log, pushArgs d l ustack sp k = ⟨some (r, k'), log⟩ ∧ Present log ∧
      ∀ u sp', r = some (u, sp') → InStack sz log ∧ u.length < MAXARG ∧
        sp'.toNat ≤ sz.toNat ∧ sz.toNat ≤ sp'.toNat + 4096 := by
  induction l generalizing sp used ustack k with
  | nil =>
    refine ⟨_, _, _, rfl, by simp [Present], ?_⟩
    rintro u sp' ⟨⟩
    refine ⟨by simp [InStack], by simpa using hargc, by omega, by omega⟩
  | cons x l ih =>
    obtain ⟨hx, hl'⟩ := List.forall_mem_cons.1 hl
    have hroom := x.lt_room
    rw [List.length_cons] at hargc
    rw [pushArgs, if_neg (by omega)]
    by_cases hfits : used + x.room ≤ 4096
    · obtain ⟨sp', k₁, log, hsp', hsum, hcopy, hlog, hin⟩ := h.push_fits (k := k) hsp h4 hx hfits
      obtain ⟨r, k', log', hr, hlog', hres⟩ := @ih sp' k₁ (used + x.room) (ustack ++ [sp'])
        hsum (by omega) hfits hl' (by rw [List.length_append, List.length_singleton]; omega) hc.2
      subst hsp'
      simp only [hcopy, Logged.bind, hr]
      exact ⟨r, k', log ++ log', rfl, hlog.append hlog', fun u sp' he =>
        ⟨hin.append (hres u sp' he).1, (hres u sp' he).2⟩⟩
    · -- this argument does not fit: `copyout` fails, as there is a page table
      have hcase := h.push_fails (k := k) hsp h4 hused hx (by omega)
      rw [if_neg (hc.1 hused)] at hcase
      obtain ⟨k', log, hcopy, hlog⟩ := hcase
      simp only [hcopy, Logged.bind]
      exact ⟨none, k', _, rfl, hlog.append (by simp [Logged.of, Present]), by simp⟩

/-- And if one does, its page is looked up, and the kernel is stopped. -/
theorem pushArgs_not_clear (h : Image d sz) (hsp : sp.toNat + used = sz.toNat) (h4 : used % 4 = 0)
    (hused : used ≤ 4096) (hl : ∀ x ∈ l, x.len.toNat < 2147483648)
    (hargc : ustack.length + l.length < MAXARG) (hc : ¬Clear sz.toNat used l) :
    ∃ log, pushArgs d l ustack sp k = ⟨none, log⟩ ∧ ¬Present log := by
  induction l generalizing sp used ustack k with
  | nil => exact absurd trivial hc
  | cons x l ih =>
    obtain ⟨hx, hl'⟩ := List.forall_mem_cons.1 hl
    have hroom := x.lt_room
    rw [List.length_cons] at hargc
    rw [pushArgs, if_neg (by omega)]
    by_cases hfits : used + x.room ≤ 4096
    · obtain ⟨sp', k₁, log, hsp', hsum, hcopy, -, -⟩ := h.push_fits (k := k) hsp h4 hx hfits
      have hc' : ¬Clear sz.toNat (used + x.room) l := fun hc' =>
        hc ⟨fun _ => by omega, hc'⟩
      obtain ⟨log', hr, hlog⟩ := @ih sp' k₁ (used + x.room) (ustack ++ [sp']) hsum (by omega) hfits hl'
        (by rw [List.length_append, List.length_singleton]; omega) hc'
      subst hsp'
      simp only [hcopy, Logged.bind, hr]
      exact ⟨log ++ log', rfl, fun hp => hlog fun a r hr => hp a r (List.mem_append_right _ hr)⟩
    · have hcase := h.push_fails (k := k) hsp h4 hused hx (by omega)
      have hhole : sz.toNat + 0x2000000 < used + x.room ∧
          used + x.room ≤ sz.toNat + 0x72000000 := by
        by_contra hno
        exact hc ⟨fun _ => hno, clear_of_lt (by omega)⟩
      rw [if_pos hhole] at hcase
      obtain ⟨log, hcopy, hlog⟩ := hcase
      simp only [hcopy, Logged.bind]
      exact ⟨log, rfl, hlog⟩

theorem pushStack_clear (h : Image d sz) (hl : ∀ y ∈ l, y.len.toNat < 2147483648)
    (hargc : l.length < MAXARG) (hc : Clear sz.toNat 0 l) :
    ∃ r k' log, pushStack d l sz k = ⟨some (r, k'), log⟩ ∧ Present log ∧
      (r = true → InStack sz log) := by
  obtain ⟨r, k₁, log, hargs, hlog, hres⟩ : ∃ r k' log, pushArgs d l [] sz k = ⟨some (r, k'), log⟩ ∧
      _ :=
    h.pushArgs_clear (Nat.add_zero _) rfl (Nat.zero_le _) hl (by simpa using hargc) hc
  rw [pushStack, hargs]
  obtain _ | ⟨u, sp⟩ := r
  · exact ⟨false, k₁, _, rfl, hlog.append (by simp [Logged.of, Present]), by simp⟩
  obtain ⟨hin, hu, hhi, hlo⟩ := hres u sp rfl
  have htwo := h.two_le
  -- the words are below the arguments
  have hva : (sp - (3 + u.length.toUInt32 + 1) * 4).toNat + 4 * (u.length + 4) = sp.toNat := by
    have hu' : u.length < 32 := hu
    have hargc : u.length.toUInt32.toNat = u.length := by
      rw [Nat.toUInt32, UInt32.toNat_ofNat']
      omega
    have hmul : ((3 + u.length.toUInt32 + 1) * 4).toNat = 4 * (u.length + 4) := by
      rw [UInt32.toNat_mul, UInt32.toNat_add, UInt32.toNat_add, hargc]
      change (((3 + u.length) % 4294967296 + 1) % 4294967296) * 4 % 4294967296 = _
      omega
    rw [UInt32.toNat_sub_of_le _ _ (UInt32.le_iff_toNat_le.2 (by omega)), hmul]
    omega
  have hwords : 4 * ([0xffffffff, u.length.toUInt32, sp - (u.length.toUInt32 + 1) * 4] ++ u ++
      [0] : List UInt32).length = 4 * (u.length + 4) := by
    simp only [List.length_append, List.length_cons, List.length_nil]
    omega
  dsimp only [Logged.bind]
  rw [hwords]
  generalize wordBytes _ = byte
  generalize sp - (3 + u.length.toUInt32 + 1) * 4 = va at hva
  by_cases hstack : sz.toNat ≤ va.toNat + 4096
  · obtain ⟨k', hcopy⟩ : ∃ k', copyout d va (4 * (u.length + 4)) byte k₁ = ⟨some (true, k'), _⟩ :=
      h.copyout_stack hstack (by omega) (by omega)
    rw [hcopy]
    refine ⟨_, _, _, rfl, hlog.append (by simp [Present]), fun _ => hin.append fun va' n hw => ?_⟩
    obtain ⟨rfl, rfl⟩ : va' = va ∧ n = 4 * (u.length + 4) := by simpa using hw
    omega
  · obtain ⟨k', log', hcopy, hlog'⟩ : ∃ k' log', copyoutLoop d (4 * (u.length + 4)) va
        (4 * (u.length + 4)) byte k₁ = ⟨some (false, k'), log'⟩ ∧ Present log' :=
      h.copyoutLoop_below le_rfl (by omega) (by omega) (by omega)
    rw [copyout, hcopy]
    exact ⟨_, _, _, rfl, hlog.append hlog', by simp⟩

theorem pushStack_not_clear (h : Image d sz) (hl : ∀ y ∈ l, y.len.toNat < 2147483648)
    (hargc : l.length < MAXARG) (hc : ¬Clear sz.toNat 0 l) :
    ∃ log, pushStack d l sz k = ⟨none, log⟩ ∧ ¬Present log := by
  obtain ⟨log, hargs, hlog⟩ : ∃ log, pushArgs d l [] sz k = ⟨none, log⟩ ∧ ¬Present log :=
    h.pushArgs_not_clear (Nat.add_zero _) rfl (Nat.zero_le _) hl (by simpa using hargc) hc
  rw [pushStack, hargs]
  exact ⟨log, rfl, hlog⟩

end Image

/-! ## Programs that load -/

variable {x : Program} {old : Pgdir} {oldsz s newsz : UInt32} {k' : Kmem} {l : List Proghdr}

/-- The end of the segments of a program that are loaded, if it is above `sz`. -/
def segEnd : List Proghdr → UInt32 → UInt32
  | [], sz => sz
  | ph :: l, sz =>
    if ph.load = false ∨ ph.vaddr + ph.memsz < sz then segEnd l sz
    else segEnd l (ph.vaddr + ph.memsz)

/-- The size of the image: the segments, a page that cannot be used, and the stack. -/
def Program.size (x : Program) : UInt32 := pgRoundUp (segEnd x.phs 0) + 2 * PGSIZE

/-- `exec` gets as far as its arguments, with the directory `d` and the size `sz`. -/
def Loads (x : Program) (k : Kmem) (d : Pgdir) (sz : UInt32) (k' : Kmem) : Prop :=
  x.found ∧ x.header ∧ ∃ d₀ k₀ s d₁ k₁ d₂, setupkvm k = some (some d₀, k₀) ∧
    loadSegs x.phs d₀ 0 k₀ = some (some s, d₁, k₁) ∧
    allocuvm d₁ (pgRoundUp s) (pgRoundUp s + 2 * PGSIZE) k₁ = some (sz, d₂, k') ∧ sz ≠ 0 ∧
    clearpteu d₂ (pageOf (sz - 2 * PGSIZE)) = some d

theorem hasTab_mappages {v : Addr} {u r : Bool} (hm : mappages d a v u k = some (r, d', k'))
    {i : Fin NPDENTRIES} (hi : i ≠ pdx a) : d'.hasTab i = d.hasTab i := by
  have hwalk : (walkpgdirAlloc d a k).2.1.hasTab i = d.hasTab i := by
    rw [walkpgdirAlloc]
    split_ifs
    · rfl
    · rfl
    · simp [Pgdir.hasTab_addTab, hi]
  rw [mappages] at hm
  generalize walkpgdirAlloc d a k = y at hm hwalk
  obtain ⟨_ | _, d₁, k₁⟩ := y
  · obtain ⟨-, rfl, -⟩ := (by simpa using hm : false = r ∧ d₁ = d' ∧ k₁ = k')
    exact hwalk
  · simp only [Option.ite_none_left_eq_some, Option.some.injEq, Prod.mk.injEq] at hm
    obtain ⟨-, -, rfl, -⟩ := hm
    rw [Pgdir.hasTab_setPte]
    exact hwalk

/-- New page tables are for the pages that are mapped. -/
theorem allocLoop_tabs {l : List ℕ} (hr : allocLoop oldsz newsz l d k = some (s, d', k'))
    (hs : s ≠ 0) : s = newsz ∧ ∀ i, (∀ a ∈ l, i ≠ pdx a) → d'.hasTab i = d.hasTab i := by
  induction l generalizing d k with
  | nil =>
    obtain ⟨rfl, rfl, -⟩ := (by simpa [allocLoop] using hr : newsz = s ∧ d = d' ∧ k = k')
    exact ⟨rfl, fun _ _ => rfl⟩
  | cons a l ih =>
    simp only [allocLoop] at hr
    split_ifs at hr with hk
    · obtain ⟨y, -, he⟩ := Option.map_eq_some_iff.1 hr
      exact absurd (congrArg Prod.fst he).symm hs
    · obtain ⟨⟨r, d₁, k₁⟩, hm, hr⟩ := Option.bind_eq_some_iff.1 hr
      cases r with
      | false =>
        obtain ⟨y, -, hr⟩ := Option.bind_eq_some_iff.1 hr
        obtain ⟨k₂, -, he⟩ := Option.map_eq_some_iff.1 hr
        exact absurd (congrArg Prod.fst he).symm hs
      | true =>
        obtain ⟨hsz, htab⟩ := ih hr
        refine ⟨hsz, fun i hi => ?_⟩
        rw [htab i fun b hb => hi b (List.mem_cons_of_mem _ hb)]
        exact hasTab_mappages hm (hi a List.mem_cons_self)

theorem allocuvm_tabs (hr : allocuvm d oldsz newsz k = some (s, d', k')) (hs : s ≠ 0) :
    s = (if newsz < oldsz then oldsz else newsz) ∧
      ∀ i : Fin NPDENTRIES, 512 ≤ i.val → d'.hasTab i = d.hasTab i := by
  rw [allocuvm] at hr
  by_cases hn : KERNBASE ≤ newsz
  · rw [if_pos hn] at hr
    exact absurd (congrArg Prod.fst (Option.some.inj hr)).symm hs
  rw [if_neg hn] at hr
  by_cases hlt : newsz < oldsz
  · rw [if_pos hlt] at hr ⊢
    obtain ⟨rfl, rfl, -⟩ := (by simpa using hr : oldsz = s ∧ d = d' ∧ k = k')
    exact ⟨rfl, fun _ _ => rfl⟩
  · rw [if_neg hlt] at hr ⊢
    obtain ⟨hsz, htab⟩ := allocLoop_tabs hr hs
    refine ⟨hsz, fun i hi => htab i fun a ha he => ?_⟩
    have hle := npages_le (UInt32.le_of_lt (UInt32.not_le.1 hn))
    rw [List.mem_range'_1] at ha
    rw [he] at hi
    simp only [pdx, Fin.ofNat, NPDENTRIES, NPTENTRIES, NUSER] at hi hle
    omega

theorem loadSegs_tabs (hr : loadSegs l d sz k = some (some s, d', k')) :
    s = segEnd l sz ∧ ∀ i : Fin NPDENTRIES, 512 ≤ i.val → d'.hasTab i = d.hasTab i := by
  induction l generalizing d sz k with
  | nil =>
    obtain ⟨rfl, rfl, -⟩ := (by simpa [loadSegs] using hr : sz = s ∧ d = d' ∧ k = k')
    exact ⟨rfl, fun _ _ => rfl⟩
  | cons ph l ih =>
    rw [loadSegs] at hr
    rw [segEnd]
    split at hr
    · cases hr
    by_cases hload : ph.load = false
    · rw [if_pos hload] at hr
      rw [if_pos (.inl hload)]
      exact ih hr
    rw [if_neg hload] at hr
    split at hr
    · cases hr
    split at hr
    · cases hr
    obtain ⟨⟨s₁, d₁, k₁⟩, ha, hr⟩ := Option.bind_eq_some_iff.1 hr
    dsimp only at hr
    split_ifs at hr with h0
    · cases hr
    · cases hr
    obtain ⟨_ | _, -, hr⟩ := Option.bind_eq_some_iff.1 hr
    · cases hr
    obtain ⟨hsz, htab⟩ := allocuvm_tabs ha h0
    obtain ⟨hs, htab'⟩ := ih hr
    refine ⟨?_, fun i hi => (htab' i hi).trans (htab i hi)⟩
    rw [hs, hsz]
    by_cases hlt : ph.vaddr + ph.memsz < sz
    · rw [if_pos hlt, if_pos (.inr hlt)]
    · rw [if_neg hlt, if_neg (not_or.2 ⟨hload, hlt⟩)]

/-- The pages that `allocuvm` maps can be used. -/
theorem allocuvm_user (ho : Owns T k (d.pages + F)) (hl : Layout d sz) (hle : sz ≤ newsz)
    (hr : allocuvm d sz newsz k = some (s, d', k')) (hs : s ≠ 0) (hlo : npages sz ≤ a)
    (hhi : a < npages newsz) : ∃ p, d'.pte? a = some p ∧ p.user := by
  obtain ⟨s₁, d₁, m₁, hram, hcase⟩ := Ram.allocuvm_spec (m := ⟨k, fun _ => Bytes.zero⟩) ho hl hle
  have herase := Ram.erase_allocuvm d sz newsz ⟨k, fun _ => Bytes.zero⟩
  rw [hram, hr] at herase
  obtain ⟨rfl, rfl, -⟩ := (by simpa using herase : s₁ = s ∧ d₁ = d' ∧ m₁.kmem = k')
  obtain ⟨h0, -⟩ | ⟨-, -, -, hclear⟩ := hcase
  · exact absurd h0 hs
  · obtain ⟨p, hp, hu, -⟩ := hclear a hlo hhi
    exact ⟨p, hp, hu⟩

theorem Loads.image (h : Loads x k d sz k') (ho : Owns T k F) :
    Image d sz ∧ Owns T k' (d.pages + F) ∧ sz = x.size := by
  obtain ⟨-, -, d₀, k₀, s, d₁, k₁, d₂, hsetup, hload, halloc, h0, hclear⟩ := h
  obtain ⟨ho₀, hd₀⟩ := setupkvm_spec ho hsetup
  obtain ⟨hpte, htab⟩ := hd₀ d₀ rfl
  rw [Option.elim_some] at ho₀
  have hbuild : Building d₀ := ⟨fun b _ _ => hpte b, fun i hi => (htab i).2 hi⟩
  have hempty : Layout d₀ 0 := ⟨by decide, fun b _ => by simp [hpte b, npages]⟩
  obtain ⟨ho₁, hb₁, hl₁⟩ := loadSegs_spec ho₀ hbuild hempty hload
  obtain ⟨hs, htab₁⟩ := loadSegs_tabs hload
  have hl₁ := hl₁ s rfl
  have hsz : s ≤ KERNBASE := UInt32.le_of_lt hl₁.lt
  have hup := toNat_pgRoundUp hsz
  have hle := npages_le hsz
  simp only [NUSER] at hle
  have hadd : (pgRoundUp s + 2 * PGSIZE).toNat = 4096 * npages s + 8192 := by
    rw [UInt32.toNat_add, hup]
    exact Nat.mod_eq_of_lt (by change _ + 8192 < _; omega)
  have hgrow : pgRoundUp s ≤ pgRoundUp s + 2 * PGSIZE :=
    UInt32.le_iff_toNat_le.2 (by rw [hadd, hup]; omega)
  obtain ⟨hnew, htab₂⟩ := allocuvm_tabs halloc h0
  rw [if_neg (UInt32.not_lt.2 hgrow)] at hnew
  obtain ⟨ho₂, hal⟩ := allocuvm_spec ho₁ halloc
  have hmaps : d₁.Maps (npages (pgRoundUp s)) := (npages_pgRoundUp hsz).symm ▸ hl₁.maps
  obtain ⟨rfl, -⟩ | ⟨-, hlt, -⟩ | ⟨-, hl₂⟩ := hal.maps hmaps
  · exact absurd rfl h0
  · exact absurd hgrow (UInt32.not_le.2 hlt)
  rw [← hnew] at hl₂ hadd hgrow
  have hnp : npages sz = npages s + 2 := by rw [npages, hadd]; omega
  have hl₁' : Layout d₁ (pgRoundUp s) := ⟨UInt32.lt_of_le_of_lt hgrow hl₂.lt, hmaps⟩
  have hguard : pageOf (sz - 2 * PGSIZE) = npages s := by
    have hsub : (sz - 2 * PGSIZE).toNat = sz.toNat - 8192 :=
      UInt32.toNat_sub_of_le _ _ (UInt32.le_iff_toNat_le.2 (by change 8192 ≤ _; omega))
    rw [pageOf, hsub, hadd]
    omega
  rw [hguard] at hclear
  have hsmall {b : ℕ} (hb : b ≤ npages s + 1) : b < NPAGES := by simp only [NPAGES]; omega
  obtain ⟨hpages, hsome, htab₃, hother⟩ := clearpteu_spec hclear (hsmall (Nat.le_succ _))
  have hown : Owns T k' (d.pages + F) := ho₂.of_eq (by rw [hpages])
  refine ⟨⟨⟨hl₂.lt, fun b hb => ?_⟩, fun i hi => ?_, ?_, ?_, ?_, ?_, fun i hlo hhi => ?_⟩, hown, ?_⟩
  · rw [hsome b hb, hl₂.maps b hb]
  · rw [htab₃]
    exact hal.hasTab i (hb₁.tabs i hi)
  · omega
  · omega
  · obtain ⟨p, hp, -⟩ := allocuvm_user ho₁ hl₁' (hnew ▸ hgrow) halloc h0 (a := npages s)
      (by rw [npages_pgRoundUp hsz]) (by rw [← hnew, hnp]; omega)
    obtain ⟨y, hy, rfl⟩ := Option.map_eq_some_iff.1 hclear
    rw [walkpgdir_eq] at hy
    split_ifs at hy with htab
    obtain rfl := Option.some.inj hy
    rw [hnp, Nat.add_sub_cancel]
    refine ⟨{ p with user := false }, ?_, rfl⟩
    rw [Pgdir.pte?_setPte htab (hsmall (Nat.le_succ _)) (hsmall (Nat.le_succ _)), if_pos rfl, hp]
    rfl
  · obtain ⟨p, hp, hu⟩ := allocuvm_user ho₁ hl₁' (hnew ▸ hgrow) halloc h0 (a := npages s + 1)
      (by rw [npages_pgRoundUp hsz]; omega) (by rw [← hnew, hnp]; omega)
    rw [hnp, show npages s + 2 - 1 = npages s + 1 from rfl]
    refine ⟨p, (hother _ (hsmall le_rfl) (by omega)).trans hp, hu, ?_⟩
    exact (ho₂.isPage_of_mem (Multiset.mem_add.2 (.inl (mem_pages hp)))).ne_zero
  · rw [htab₃, htab₂ i (by omega), htab₁ i (by omega), Bool.eq_false_iff]
    exact fun ht => absurd (mem_kmapPdx.1 ((htab i).1 ht)) (by omega)
  · rw [hnew, hs]
    rfl

/-! ## Safety -/

/-- `exec` returns, has looked up pages with a page table only, and has failed or written to the
    stack of the new image only. -/
def ArgsSafe (x : Program) (old : Pgdir) (oldsz : UInt32) (k : Kmem) : Prop :=
  Present (exec x old oldsz k).log ∧ ∃ r d sz k', (exec x old oldsz k).result =
  some (r, d, sz, k') ∧
    (r = -1 ∨ InStack sz (exec x old oldsz k).log)

/-- What is left to do after a program was loaded. -/
theorem Loads.exec_eq (h : Loads x k d sz k') :
    exec x old oldsz k = (pushStack d x.argv sz k').bind fun
      | (false, k) => .of ((freevm d k).map fun k => ((-1 : Int32), old, oldsz, k))
      | (true, k) => .of ((freevm old k).map fun k => (0, d, sz, k)) := by
  obtain ⟨hfound, hheader, d₀, k₀, s, d₁, k₁, d₂, hsetup, hload, halloc, h0, hclear⟩ := h
  rw [exec, if_neg (by simp [hfound, hheader]), hsetup]
  simp only [Logged.of_some_bind, hload, execStack, halloc, if_neg h0, hclear]
  generalize pushStack d x.argv sz k' = y
  obtain ⟨_ | ⟨_ | _, k₂⟩, log⟩ := y
  · rfl
  · simp [Logged.bind, Logged.of]
  · simp [Logged.bind, Logged.of]

section

variable (ho : Owns T k (old.pages + F)) (hload : Loads x k d sz k')
  (hargc : x.argv.length < MAXARG) (hsz : oldsz < KERNBASE)
  (hargs : ∀ y ∈ x.argv, y.len < oldsz)

include hsz hargs in
theorem len_lt (y : Arg) (hy : y ∈ x.argv) : y.len.toNat < 2147483648 :=
  (UInt32.lt_iff_toNat_lt.1 (hargs y hy)).trans (UInt32.lt_iff_toNat_lt.1 hsz)

include ho hload hargc hsz hargs

theorem argsSafe_of_clear (hold : old.Kern) (hc : Clear x.size.toNat 0 x.argv) :
    ArgsSafe x old oldsz k := by
  obtain ⟨himage, ho', rfl⟩ := hload.image ho
  obtain ⟨r, k₁, log, hpush, hlog, hin⟩ : ∃ r k₁ log, pushStack d x.argv x.size k' = _ ∧ _ :=
    himage.pushStack_clear (len_lt hsz hargs) hargc hc
  have ho₁ := owns_pushStack ho' (congrArg Logged.result hpush)
  rw [ArgsSafe, hload.exec_eq, hpush]
  cases r with
  | false =>
    obtain ⟨k₂, hfree, -⟩ := exists_freevm ho₁ himage.kern
    refine ⟨by simpa [Logged.bind, Logged.of] using hlog, -1, old, oldsz, k₂, ?_, .inl rfl⟩
    simp [Logged.bind, hfree]
  | true =>
    obtain ⟨k₂, hfree, -⟩ := exists_freevm (ho₁.of_eq (add_left_comm _ _ _)) hold
    refine ⟨by simpa [Logged.bind, Logged.of] using hlog, 0, d, x.size, k₂, ?_,
      .inr (by simpa [Logged.bind, Logged.of] using hin rfl)⟩
    simp [Logged.bind, hfree]

/-- The kernel is stopped at the lookup of a page that has no page table. -/
theorem exec_of_not_clear (hc : ¬Clear x.size.toNat 0 x.argv) :
    ¬Present (exec x old oldsz k).log ∧ (exec x old oldsz k).result = none := by
  obtain ⟨himage, -, rfl⟩ := hload.image ho
  obtain ⟨log, hpush, hlog⟩ : ∃ log, pushStack d x.argv x.size k' = ⟨none, log⟩ ∧ _ :=
    himage.pushStack_not_clear (len_lt hsz hargs) hargc hc
  rw [hload.exec_eq, hpush]
  exact ⟨hlog, rfl⟩

/-- For every program that loads, and all arguments below the size of the caller. -/
theorem exec_args_iff (hold : old.Kern) :
    ArgsSafe x old oldsz k ↔ Clear x.size.toNat 0 x.argv := by
  refine ⟨fun hsafe => ?_, argsSafe_of_clear ho hload hargc hsz hargs hold⟩
  by_contra hc
  exact (exec_of_not_clear ho hload hargc hsz hargs hc).1 hsafe.1

end

/-- A process with more than 32 MiB, after it was given the memory by `growproc`. -/
theorem exists_large : ∃ s d F, system.Reachable Any s ∧ (s.proc initproc).pgdir = some d ∧
    (s.proc initproc).sz = 0x2005000 ∧ Owns kinitPages s.kmem (d.pages + F) ∧ d.Kern ∧
    Has s.kmem 100 := by
  obtain ⟨s₀, hb, h, hh, hst, hsz⟩ := boot_spec 2 (by decide)
  obtain ⟨s, hs, hst', hsz', hh'⟩ := exists_growproc (n := 100) (p := initproc)
    (m := 0x2004000) h hst (by decide) (by rw [hsz]; decide) (by rw [hsz]; decide) (by
      rw [hsz]
      exact hh.mono (by decide))
  have hinv : Inv _ kinitPages 0 s := inv_step spaces_layout h (sound_growproc (by decide)) hs
  have hlive : (s.proc initproc).Live := by rw [Proc.Live, hst']; decide
  obtain ⟨d, hd, hl, -⟩ := hinv.space initproc hlive
  refine ⟨s, d, _, .step (.init ⟨2, by decide, hb⟩) trivial hs, hd, ?_,
    (hinv.detach hlive hd).owns.of_eq (add_comm d.pages _), hl.kern, hh'⟩
  rw [hsz', hsz]
  decide

/-- A program without segments loads. -/
theorem exists_loads {own : Multiset Addr} (l : List Arg) (ho : Owns T k own) (hh : Has k 100) :
    ∃ d k', Loads { argv := l } k d 8192 k' := by
  obtain ⟨d₀, k₀, d₁, k₁, d₂, hsetup, halloc, hclear, -⟩ := exists_image ho hh
  exact ⟨d₂, k₁, rfl, rfl, d₀, k₀, 0, d₀, k₀, d₁, hsetup, rfl, halloc, by decide, hclear⟩

/-- An argument that does not fit on the stack: `exec` fails without a wrong lookup. -/
theorem exec_args_long : ∃ s d, system.Reachable Any s ∧ (s.proc initproc).pgdir = some d ∧
    (s.proc initproc).sz = 0x2005000 ∧
    ∀ y : Arg, y.len = 8191 → ArgsSafe { argv := [y] } d 0x2005000 s.kmem := by
  obtain ⟨s, d, F, hs, hd, hsz, ho, hkern, hh⟩ := exists_large
  refine ⟨s, d, hs, hd, hsz, fun y hy => ?_⟩
  obtain ⟨d', k', hload⟩ := exists_loads [y] ho hh
  have hroom : y.room = 8192 := by rw [Arg.room, hy]; decide
  refine (exec_args_iff ho hload (show 1 < 32 by decide) (by decide) (by simp [hy]) hkern).2
    ⟨?_, trivial⟩
  rw [hroom]
  omega

/-- An argument that puts the stack pointer of an empty program to `0xFDFFF000`. -/
def wildArg : Arg where
  len := 0x2002FFF
  byte j := if j < 0x2002FFF then 97 else 0
  ne_nul j hj := by
    rw [if_pos (show j < 0x2002FFF from hj)]
    decide
  nul := if_neg (by decide)

/-- An argument of 33566719 characters is looked up where there is no page table, and the kernel is
    stopped. -/
theorem exec_looks_up_hole : ∃ s d, system.Reachable Any s ∧ (s.proc initproc).pgdir = some d ∧
    (s.proc initproc).sz = 0x2005000 ∧ ¬ArgsSafe { argv := [wildArg] } d 0x2005000 s.kmem ∧
    ¬Present (exec { argv := [wildArg] } d 0x2005000 s.kmem).log ∧
    (exec { argv := [wildArg] } d 0x2005000 s.kmem).result = none := by
  obtain ⟨s, d, F, hs, hd, hsz, ho, hkern, hh⟩ := exists_large
  obtain ⟨d', k', hload⟩ := exists_loads [wildArg] ho hh
  have hstop : ¬Present (exec { argv := [wildArg] } d 0x2005000 s.kmem).log ∧ _ :=
    exec_of_not_clear ho hload (show 1 < 32 by decide) (by decide) (by simp; decide)
      fun hc => hc.1 (by decide) (by decide)
  exact ⟨s, d, hs, hd, hsz, fun hsafe => hstop.1 hsafe.1, hstop⟩

end Xv6.Vm
