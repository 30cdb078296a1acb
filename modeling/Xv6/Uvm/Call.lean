import Xv6.Uvm.Stack

/-!
# The result of `exec`

`exec` loads a program, puts its arguments on the stack and gives the new image to the process, or
frees what it has made (`exec_cases`). When it returns 0, the arguments can be read back from the
new memory, at the stack pointer in the trap frame: their number, the pointers to them and the
strings, apart from each other and on the stack page (`exec_args_roundtrip`). When it returns -1,
wherever it has failed, the caller, the free memory, the inode and the log are as they were
(`exec_undoes`).
-/

namespace Xv6.Uvm

open Vm Kmem Function

variable {T F : Multiset Addr} {p : Caller} {d : Pgdir} {m m' : Ram} {f : Bytes} {g : File}
  {a b : ℕ} {sz : UInt32} {l : List Arg}

/-! ## Kernel memory -/

theorem byte_write (m : Ram) (a n : ℕ) (f : Bytes) (hb : b < 4294967296) :
    (m.write a n f).byte b = if a ≤ b ∧ b < a + n then f (b - a) else m.byte b := by
  have hpage : (UInt32.ofNat (b / 4096 * 4096)).toNat + b % 4096 = b := by
    rw [UInt32.toNat_ofNat']
    omega
  rw [Ram.byte, Ram.write]
  dsimp only
  rw [hpage]
  refine if_congr ?_ rfl rfl
  omega

/-- A write does not change the pages it does not touch. -/
theorem page_write {v : Addr} {n : ℕ} (h : v.toNat + 4096 ≤ a ∨ a + n ≤ v.toNat) :
    (m.write a n f).page v = m.page v := by
  funext k
  rw [Ram.write]
  exact if_neg (by omega)

theorem u32_write_self (m : Ram) (x : UInt32) (h : a + 4 ≤ 4294967296) :
    ((m.write a 4 (Bytes.of32 x)).read a).u32 = x := by
  have hagree : Bytes.Agree 4 ((m.write a 4 (Bytes.of32 x)).read a) (Bytes.of32 x) := fun k hk => by
    rw [Ram.read, byte_write _ _ _ _ (by omega), if_pos (by omega), Nat.add_sub_cancel_left]
  rw [hagree.u32, Bytes.u32_of32]

theorem u32_write_of_disjoint {n : ℕ} (h : b + 4 ≤ a ∨ a + n ≤ b) (hb : b + 4 ≤ 4294967296) :
    ((m.write a n f).read b).u32 = (m.read b).u32 := by
  refine Bytes.Agree.u32 fun k hk => ?_
  rw [Ram.read, Ram.read, byte_write _ _ _ _ (by omega), if_neg (by omega)]

/-- Two states of memory with the same bytes at an address. -/
theorem u32_congr (h : ∀ k < 4, m'.byte (a + k) = m.byte (a + k)) :
    (m'.read a).u32 = (m.read a).u32 := Bytes.Agree.u32 h

/-- The process table is not in the allocator's memory. -/
theorem not_isPage_proc (p : Caller) (hb : b < p.proc + 152) :
    ¬IsPage (UInt32.ofNat (b / 4096 * 4096)) := by
  have hslot := p.slot.isLt
  rw [Caller.proc] at hb
  simp only [NPROC] at hslot
  intro h
  have hge := UInt32.le_iff_toNat_le.1 h.2.1
  rw [UInt32.toNat_ofNat', (by decide : kernelEnd.toNat = 2148625808)] at hge
  omega

theorem kernelEnd_le {v : Addr} (h : IsPage v) :
    2148625808 ≤ v.toNat ∧ v.toNat + 4096 ≤ 2382364672 ∧
    v.toNat % 4096 = 0 := by
  obtain ⟨hmod, hge, hlt⟩ := h
  have hmod : v.toNat % 4096 = 0 :=
    (UInt32.toNat_mod v PGSIZE).symm.trans (congrArg UInt32.toNat hmod)
  have hge : 2148625808 ≤ v.toNat := UInt32.le_iff_toNat_le.1 hge
  have hsub : (V2P v).toNat = v.toNat - 2147483648 :=
    UInt32.toNat_sub_of_le _ _ (UInt32.le_iff_toNat_le.2 (by change 2147483648 ≤ _; omega))
  have hlt : v.toNat - 2147483648 < 234881024 := hsub ▸ UInt32.lt_iff_toNat_lt.1 hlt
  omega

theorem page_kstack {v : Addr} (h : IsPage v) (hb : b < 4096) :
    UInt32.ofNat ((v.toNat + b) / 4096 * 4096) = v := by
  have := kernelEnd_le h
  rw [← UInt32.toNat_inj, UInt32.toNat_ofNat']
  omega

theorem proc_lt (p : Caller) : p.proc + 152 ≤ 2148619540 := by
  have hslot := p.slot.isLt
  rw [Caller.proc]
  simp only [NPROC] at hslot
  omega

/-! ## The end of `exec` -/

/-- `exec` has given the new image to the process. -/
theorem commit_spec (p : Caller) (path : List UInt8) (entry sz sp : UInt32) {c : State}
    (ho : Owns T c.ram.kmem (d.pages + (c.pgdir.pages + F))) (hp : p.kstack ∈ F) : ∃ s',
    commit p path entry d sz sp c = some (0, s') ∧ s'.pgdir = d ∧ p.sz s'.ram = sz ∧
      p.esp s'.ram = sp ∧ ∀ v ∈ d.pages, s'.ram.page v = c.ram.page v := by
  have hin : p.kstack ∈ d.pages + (c.pgdir.pages + F) :=
    Multiset.mem_add.2 (.inr (Multiset.mem_add.2 (.inr hp)))
  have hks := kernelEnd_le (ho.isPage_of_mem hin)
  have hproc := proc_lt p
  have htf : p.tf = p.kstack.toNat + 4020 := rfl
  rw [commit]
  generalize hm₁ : ((safestrcpy (p.proc + 108) (last path) c.ram).write (p.proc + 4) 4
    (Bytes.of32 d.page)) = m₁
  have hk₁ : m₁.kmem = c.ram.kmem := by rw [← hm₁]; rfl
  obtain ⟨m', hm', ho', hsame⟩ := freevm_spec (d := c.pgdir) (F := d.pages + F)
    (m := ((m₁.write p.proc 4 (Bytes.of32 sz)).write (p.tf + 56) 4 (Bytes.of32 entry)).write
      (p.tf + 68) 4 (Bytes.of32 sp))
    (show Owns T m₁.kmem _ from hk₁ ▸ ho.of_eq (add_left_comm _ _ _))
  rw [hm']
  refine ⟨_, rfl, rfl, ?_, ?_, fun v hv => ?_⟩
  · have hback : p.sz m' = p.sz (((m₁.write p.proc 4 (Bytes.of32 sz)).write (p.tf + 56) 4
        (Bytes.of32 entry)).write (p.tf + 68) 4 (Bytes.of32 sp)) := u32_congr fun k hk => by
      refine congrFun (hsame _ fun hT => ?_) _
      exact absurd (ho.isPage _ hT) (not_isPage_proc p (by omega))
    rw [hback, Caller.sz, u32_write_of_disjoint (by omega) (by omega),
      u32_write_of_disjoint (by omega) (by omega), u32_write_self _ _ (by omega)]
  · have hback : p.esp m' = p.esp (((m₁.write p.proc 4 (Bytes.of32 sz)).write (p.tf + 56) 4
        (Bytes.of32 entry)).write (p.tf + 68) 4 (Bytes.of32 sp)) := u32_congr fun k hk => by
      refine congrFun (hsame _ fun hT => ?_) _
      rw [htf, Nat.add_assoc, Nat.add_assoc, page_kstack (ho.isPage_of_mem hin) (by omega)]
      exact Multiset.mem_add.2 (.inr hp)
    rw [hback, Caller.esp, u32_write_self _ _ (by omega)]
  · have hv' := kernelEnd_le (ho.isPage_of_mem (Multiset.mem_add.2 (.inl hv)))
    have hne : v.toNat ≠ p.kstack.toNat := fun he => by
      obtain ⟨-, -, hdisj⟩ := Multiset.nodup_add.1 ho.nodup_own
      exact Multiset.disjoint_left.1 hdisj hv
        (UInt32.toNat_inj.1 he ▸ Multiset.mem_add.2 (.inr hp))
    rw [hsame v fun _ => Multiset.mem_add.2 (.inl hv), page_write (by omega), page_write (by omega),
      page_write (by omega), ← hm₁, page_write (by omega), safestrcpy, page_write (by omega)]

/-! ## The whole call -/

/-- `exec` gets as far as its arguments, with the directory `d` and the size `sz`. -/
def Loads (g : File) (m : Ram) (d : Pgdir) (sz : UInt32) (m' : Ram) : Prop :=
  ∃ s d₁ m₁ d₂, loadProg g m = some (.ok (s, d₁), m₁) ∧
    allocuvm d₁ (pgRoundUp s) (pgRoundUp s + 2 * PGSIZE) m₁ = some (sz, d₂, m') ∧ sz ≠ 0 ∧
    clearpteu d₂ (pageOf (sz - 2 * PGSIZE)) = some d

theorem Loads.image (h : Loads g m d sz m') (ho : Owns T m.kmem F) :
    Image d sz ∧ Owns T m'.kmem (d.pages + F) ∧ Same T F m m' := by
  obtain ⟨s, d₁, m₁, d₂, hload, halloc, h0, hclear⟩ := h
  obtain ⟨x, m₁', hload', ho₁, hsame₁, hloaded⟩ := loadProg_spec ho g
  obtain ⟨rfl, rfl⟩ := Prod.mk.inj (Option.some.inj (hload'.symm.trans hload))
  obtain ⟨sz', d₂', m₂, halloc', ho₂, hsame₂, hready⟩ := stack_ready (hloaded s d₁ rfl) ho₁
  obtain ⟨rfl, he⟩ := Prod.mk.inj (Option.some.inj (halloc'.symm.trans halloc))
  obtain ⟨rfl, rfl⟩ := Prod.mk.inj he
  obtain ⟨d', hclear', hpages, himage⟩ := hready h0
  obtain rfl := Option.some.inj (hclear'.symm.trans hclear)
  exact ⟨himage, ho₂.of_eq (by rw [hpages]), hsame₁.trans hsame₂⟩

/-- A program loads if it does in `Xv6.Vm`, where only the pages are counted. -/
theorem exists_loads {e : Vm.Pgdir} {k' : Kmem} (ho : Owns T m.kmem F)
    (h : Vm.Loads (g.program l) m.kmem e sz k') : ∃ d m', Loads g m d sz m' := by
  obtain ⟨-, hheader, d₀, k₀, s, d₁, k₁, d₂, hsetup, hload, halloc, h0, -⟩ := h
  obtain ⟨hread, hmagic⟩ := of_decide_eq_true hheader
  obtain ⟨d, m₁, hprog, rfl, rfl⟩ := exists_loadProg hread hmagic hsetup hload
  obtain ⟨x, m₁', hprog', ho₁, -, hloaded⟩ := loadProg_spec ho g
  obtain ⟨rfl, rfl⟩ := Prod.mk.inj (Option.some.inj (hprog'.symm.trans hprog))
  obtain ⟨sz', d₂', m₂, halloc', -, -, hready⟩ := stack_ready (hloaded s d rfl) ho₁
  have hsz := erase_allocuvm_kmem d (pgRoundUp s) (pgRoundUp s + 2 * PGSIZE) m₁'
  rw [halloc, halloc'] at hsz
  obtain rfl : sz' = sz := (Prod.mk.inj (Option.some.inj hsz)).1
  obtain ⟨d', hclear, -⟩ := hready h0
  exact ⟨d', m₂, s, d, m₁', d₂', hprog, halloc', h0, hclear⟩

/-- The inode and the log are as they were when `exec` has released them. -/
theorem release {c : State} {ip : ℕ} (m : Ram) (hlock : c.locked ip = false) :
    endOp (iunlockput ip { iget ip (beginOp c) with
      locked := update c.locked ip true, ram := m }) = { c with ram := m } := by
  rw [endOp, iunlockput, iget, beginOp]
  simp only [update_self, update_idem, Nat.add_sub_cancel,
    update_eq_self]
  rw [← hlock, update_eq_self]

variable {fs : Fs} {path : List UInt8} {c c' : State} {ip : ℕ} {r : Int32}

/-- The directory is freed at `bad`. -/
theorem free_dir {y : Option Pgdir} (ho : Owns T m.kmem (y.elim 0 Pgdir.pages + F)) : ∃ m',
    (y.elim (some m) fun d => freevm d m) = some m' ∧ Owns T m'.kmem F ∧ Same T F m m' := by
  cases y with
  | none => exact ⟨m, rfl, by simpa using ho, .refl m⟩
  | some d =>
    obtain ⟨m', hm', ho', hsame⟩ := freevm_spec (m := m) (d := d) ho
    exact ⟨m', hm', ho', hsame⟩

/-- `exec` of a file: a program that loads gets its arguments, and any other fails. -/
theorem exec_cases (ho : Owns T c.ram.kmem F) (hip : fs.namei path = some ip)
    (hlock : c.locked ip = false) (p : Caller) (l : List Arg) :
    (∃ d sz m₁, Loads (fs.file ip) c.ram d sz m₁ ∧ exec fs p path l c =
      (pushStack d l sz m₁).bind fun
        | (none, m) => (freevm d m).map fun m => (-1, { c with ram := m })
        | (some sp, m) => commit p path (fs.file ip).elfhdr.entry d sz sp { c with ram := m }) ∨
    (∀ d sz m₁, ¬Loads (fs.file ip) c.ram d sz m₁) ∧ ∃ m, exec fs p path l c =
      some (-1, { c with ram := m }) ∧ Owns T m.kmem F ∧ Same T F c.ram m := by
  have hilock : ilock ip (iget ip (beginOp c)) =
      some { iget ip (beginOp c) with locked := update c.locked ip true } := if_neg (by
    rw [show (iget ip (beginOp c)).locked = c.locked from rfl, hlock]
    exact Bool.false_ne_true)
  obtain ⟨x, m₁, hload, ho₁, hsame₁, hloaded⟩ := loadProg_spec ho (fs.file ip)
  have hload' : loadProg (fs.file ip) (iget ip (beginOp c)).ram = some (x, m₁) := hload
  rw [exec, hip]
  dsimp only
  rw [hilock, Option.bind_some]
  dsimp only
  rw [hload', Option.bind_some]
  obtain y | ⟨s, d₁⟩ := x
  · -- the header, the page directory or the segments
    obtain ⟨m₂, hfree, ho₂, hsame₂⟩ := free_dir (y := y) ho₁
    refine .inr ⟨?_, m₂, ?_, ho₂, hsame₁.trans hsame₂⟩
    · rintro d sz m' ⟨s, d₁, m₁', d₂, hok, -⟩
      cases Option.some.inj (hload.symm.trans hok)
    · dsimp only [bad]
      rw [hfree, Option.map_some, Option.elim_some, release _ hlock]
  dsimp only
  rw [release _ hlock]
  obtain ⟨sz, d₂, m₂, halloc, ho₂, hsame₂, hready⟩ := stack_ready (hloaded s d₁ rfl) ho₁
  rw [execStack, halloc]
  dsimp only [Option.bind_some]
  by_cases h0 : sz = 0
  · -- there is no memory for the stack
    obtain ⟨m₃, hfree, ho₃, hsame₃⟩ := free_dir (y := some d₂) ho₂
    refine .inr ⟨?_, m₃, ?_, ho₃, (hsame₁.trans hsame₂).trans hsame₃⟩
    · rintro d sz' m' ⟨s', d₁', m₁', d₂', hok, halloc', h0', -⟩
      obtain ⟨he, rfl⟩ := Prod.mk.inj (Option.some.inj (hload.symm.trans hok))
      obtain ⟨rfl, rfl⟩ := (by simpa using he : s = s' ∧ d₁ = d₁')
      exact h0' ((Prod.mk.inj (Option.some.inj (halloc.symm.trans halloc'))).1 ▸ h0)
    · rw [if_pos h0, Option.bind_some]
      dsimp only [bad]
      rw [hfree]
      rfl
  · obtain ⟨d', hclear, -, -⟩ := hready h0
    refine .inl ⟨d', sz, m₂, ⟨s, d₁, m₁, d₂, hload, halloc, h0, hclear⟩, ?_⟩
    rw [if_neg h0, hclear, Option.bind_some, Option.bind_map]
    refine congrArg _ (funext fun y => ?_)
    obtain ⟨_ | sp, m₃⟩ := y
    · rfl
    · rfl

/-- Reading back the arguments: when `exec` returns 0, the stack pointer in the trap frame is the
    address of a stack with them. -/
theorem exec_args_roundtrip (ho : Owns T c.ram.kmem (c.pgdir.pages + F)) (hp : p.kstack ∈ F)
    (hl : ∀ x ∈ l, x.len.toNat < 2147483648) (hr : exec fs p path l c = some (0, c')) :
    ∃ u w, w.map Prod.snd = l ∧
      ArgsAt c'.pgdir c'.ram (p.sz c'.ram).toNat (p.esp c'.ram).toNat u w := by
  cases hip : fs.namei path with
  | none =>
    rw [exec, hip] at hr
    exact absurd (Prod.mk.inj (Option.some.inj hr)).1 (by decide)
  | some ip =>
    by_cases hlock : c.locked ip
    · rw [exec, hip] at hr
      dsimp only at hr
      rw [ilock, if_pos (show (iget ip (beginOp c)).locked ip from hlock)] at hr
      cases hr
    rw [Bool.not_eq_true] at hlock
    obtain ⟨d, sz, m₁, hloads, hexec⟩ | ⟨-, m, hexec, -⟩ := exec_cases ho hip hlock p l
    · obtain ⟨himage, ho₁, -⟩ := hloads.image ho
      rw [hexec] at hr
      obtain ⟨⟨y, m₂⟩, hpush, hr⟩ := Option.bind_eq_some_iff.1 hr
      have hk := (himage.kernel.pushStack_same ho₁ hpush).1
      cases y with
      | none =>
        obtain ⟨m₃, -, he⟩ := Option.map_eq_some_iff.1 hr
        exact absurd (Prod.mk.inj he).1 (by decide)
      | some sp =>
        obtain ⟨u, w, hw, hat⟩ := himage.pushStack_spec ho₁ hl hpush
        obtain ⟨c'', hcommit, hdir, hsz, hesp, hpage⟩ := commit_spec p path
          (fs.file ip).elfhdr.entry sz sp (c := { c with ram := m₂ }) (hk ▸ ho₁) hp
        obtain rfl := (Prod.mk.inj (Option.some.inj (hcommit.symm.trans hr))).2
        refine ⟨u, w, hw, ?_⟩
        rw [hsz, hesp, hdir]
        have hlt : sz.toNat < 2147483648 := UInt32.lt_iff_toNat_lt.1 himage.lt
        exact hat.congr fun a ha => byteAt_congr (by simp only [NUSER]; omega) hpage
    · rw [hexec] at hr
      exact absurd (Prod.mk.inj (Option.some.inj hr)).1 (by decide)

/-! ## When `exec` fails -/

/-- The caller, the free memory, the inode and the log are as they were. -/
structure Undone (p : Caller) (c c' : State) : Prop where
  dir : c'.pgdir = c.pgdir
  pgdir : p.pgdir c'.ram = p.pgdir c.ram
  sz : p.sz c'.ram = p.sz c.ram
  trapframe : p.trapframe c'.ram = p.trapframe c.ram
  name : p.name c'.ram = p.name c.ram
  free : ∀ v, Free c'.ram.kmem v ↔ Free c.ram.kmem v
  ref : c'.ref = c.ref
  locked : c'.locked = c.locked
  outstanding : c'.outstanding = c.outstanding

/-- If the memory in use is the same, so is what is known of the caller. -/
theorem undone_of_same (ho : Owns T c.ram.kmem (c.pgdir.pages + F)) (hp : p.kstack ∈ F)
    (ho' : Owns T m.kmem (c.pgdir.pages + F)) (hsame : Same T (c.pgdir.pages + F) c.ram m) :
    Undone p c { c with ram := m } := by
  have hin : p.kstack ∈ c.pgdir.pages + F := Multiset.mem_add.2 (.inr hp)
  have hproc {b : ℕ} (hb : b < p.proc + 152) : m.byte b = c.ram.byte b :=
    congrFun (hsame _ fun hT => absurd (ho.isPage _ hT) (not_isPage_proc p hb)) _
  refine ⟨rfl, u32_congr fun k hk => hproc (by omega), u32_congr fun k hk => hproc (by omega),
    funext fun k => ?_, funext fun k => hproc (by omega), fun v => ?_, rfl, rfl, rfl⟩
  · have hpage := page_kstack (b := 4020 + k) (ho.isPage_of_mem hin) (by omega)
    rw [← Nat.add_assoc] at hpage
    refine congrFun (hsame _ fun _ => ?_) _
    rw [Caller.tf, hpage]
    exact hin
  · rw [free_iff ho', free_iff ho]

/-- Whatever the path, the file and the arguments are, and whichever calls of `kalloc` fail, an
    `exec` that returns -1 has changed nothing. -/
theorem exec_undoes (ho : Owns T c.ram.kmem (c.pgdir.pages + F)) (hp : p.kstack ∈ F)
    (hr : exec fs p path l c = some (-1, c')) : Undone p c c' := by
  cases hip : fs.namei path with
  | none =>
    rw [exec, hip] at hr
    obtain rfl := (Prod.mk.inj (Option.some.inj hr)).2
    exact undone_of_same ho hp ho (.refl _)
  | some ip =>
    by_cases hlock : c.locked ip
    · rw [exec, hip] at hr
      dsimp only at hr
      rw [ilock, if_pos (show (iget ip (beginOp c)).locked ip from hlock)] at hr
      cases hr
    rw [Bool.not_eq_true] at hlock
    obtain ⟨d, sz, m₁, hloads, hexec⟩ | ⟨-, m, hexec, ho', hsame⟩ := exec_cases ho hip hlock p l
    · -- the program was loaded: what is written after this is written to the new image
      obtain ⟨himage, ho₁, hsame₁⟩ := hloads.image ho
      rw [hexec] at hr
      obtain ⟨⟨y, m₂⟩, hpush, hr⟩ := Option.bind_eq_some_iff.1 hr
      obtain ⟨hk, hsame₂⟩ := himage.kernel.pushStack_same ho₁ hpush
      cases y with
      | none =>
        obtain ⟨m₃, hfree, he⟩ := Option.map_eq_some_iff.1 hr
        obtain ⟨m₃', hfree', ho₃, hsame₃⟩ := freevm_spec (m := m₂) (hk ▸ ho₁)
        obtain rfl := Option.some.inj (hfree'.symm.trans hfree)
        obtain rfl := (Prod.mk.inj he).2
        exact undone_of_same ho hp ho₃ ((hsame₁.trans hsame₂).trans hsame₃)
      | some esp =>
        obtain ⟨c'', hcommit, -⟩ := commit_spec p path (fs.file ip).elfhdr.entry sz esp
          (c := { c with ram := m₂ }) (hk ▸ ho₁) hp
        exact absurd (Prod.mk.inj (Option.some.inj (hcommit.symm.trans hr))).1 (by decide)
    · rw [hexec] at hr
      obtain rfl := (Prod.mk.inj (Option.some.inj hr)).2
      exact undone_of_same ho hp ho' hsame

/-! ## A process -/

/-- A process with more than 32 MiB of memory, in a system with free memory. -/
theorem exists_process :
    ∃ k old kstack, Owns kinitPages k (Pgdir.pages old + {kstack}) ∧ Has k 100 ∧
    old.MapsUser (npages 0x2005000) := by
  obtain ⟨k, ho, hh⟩ := exists_kinit
  obtain ⟨hne, hh₁⟩ := hh.kalloc
  obtain ⟨h0, -⟩ | ⟨-, ho₁⟩ := ho.kalloc
  · exact absurd h0 hne
  obtain ⟨e₀, k₀, hsetup, hh₀⟩ := (hh₁.mono (show 50000 + 67 ≤ 57064 by decide)).setupkvm
  obtain ⟨x, m₀, hx, ho₀, -, hblank⟩ := setupkvm_spec (m := ⟨(kalloc k).2, fun _ => Bytes.zero⟩) ho₁
  have herase := erase_setupkvm ⟨(kalloc k).2, fun _ => Bytes.zero⟩
  rw [hx] at herase
  obtain ⟨he, hk⟩ := Prod.mk.inj (Option.some.inj (herase.trans hsetup))
  obtain ⟨d₀, rfl, rfl⟩ := Option.map_eq_some_iff.1 he
  have hblank := hblank d₀ rfl
  replace hk : m₀.kmem = k₀ := hk
  have hlarge : (0 : UInt32) < KERNBASE := by decide
  obtain ⟨s, d, m, halloc, ho₂, -, hs⟩ := allocuvm_spec (d := d₀) ho₀
    (fun b hb => by simp [hblank.user b hb, npages]) hlarge hblank.toKernel 0x2005000
  have hpages : 100 + 2 * npages 0x2005000 ≤ 50000 := by decide
  have hN : npages 0x2005000 ≤ NUSER := by decide
  obtain ⟨d', k', hvm, hh', -⟩ := (hh₀.mono hpages).allocuvm (d := d₀.erase) 0 0x2005000 (by decide)
    (by decide) fun b _ hb => by
      rw [Pgdir.pte?_erase_of_lt d₀ (hb.trans_le hN), hblank.user b (hb.trans_le hN)]
      rfl
  have herase' := erase_allocuvm_kmem d₀ 0 0x2005000 m₀
  rw [halloc, hk, hvm] at herase'
  obtain ⟨rfl, -, rfl⟩ := (by simpa using herase' : s = 0x2005000 ∧ d.erase = d' ∧ m.kmem = k')
  obtain ⟨-, -, -, hmaps, -⟩ := hs (by decide)
  exact ⟨m.kmem, d, (kalloc k).1, ho₂, hh', hmaps⟩

/-- An ELF file without program headers. -/
def emptyProg : File where
  size := 52
  byte := Bytes.ofList [0x7f, 0x45, 0x4c, 0x46]

/-- A file system with that file only. -/
def emptyFs : Fs where
  namei _ := some 1
  file _ := emptyProg

/-- The argument `a`. -/
def oneChar : Arg where
  len := 1
  byte j := if j < 1 then 97 else 0
  ne_nul j hj := by
    rw [if_pos (show j < 1 from hj)]
    decide
  nul := if_neg (by decide)

theorem program_emptyProg (l : List Arg) : emptyProg.program l = { argv := l } := by
  have hheader : decide (emptyProg.readi 0 52 = 52 ∧ emptyProg.elfhdr.magic = ELF_MAGIC) =
    true := by decide
  have hnum : emptyProg.elfhdr.phnum.toNat = 0 := by decide
  rw [File.program, hheader, hnum]
  rfl

/-- The argument is on the stack of the new program. -/
theorem exec_args_roundtrip_oneChar : ∃ p c c' u w, exec emptyFs p [97] [oneChar] c = some (0, c') ∧
    w.map Prod.snd = [oneChar] ∧
    ArgsAt c'.pgdir c'.ram (p.sz c'.ram).toNat (p.esp c'.ram).toNat u w := by
  obtain ⟨k, old, kstack, ho, hh, -⟩ := exists_process
  let p : Caller := ⟨0, kstack⟩
  let c : State := ⟨⟨k, fun _ => Bytes.zero⟩, old, 0, fun _ => 0, fun _ => false⟩
  have ho : Owns kinitPages c.ram.kmem (c.pgdir.pages + {kstack}) := ho
  have hp : p.kstack ∈ ({kstack} : Multiset Addr) := Multiset.mem_singleton_self _
  have hl : ∀ x ∈ [oneChar], x.len.toNat < 2147483648 := by decide
  obtain ⟨e, k', hvm⟩ := Vm.exists_loads [oneChar] ho hh
  obtain ⟨d, m₁, hloads⟩ := exists_loads (g := emptyProg) (l := [oneChar]) ho
    (by rw [program_emptyProg]; exact hvm)
  have hip : emptyFs.namei [97] = some 1 := rfl
  obtain ⟨d, sz, m₁, hloads, hexec⟩ | ⟨hno, -⟩ := exec_cases (c := c) ho hip rfl p [oneChar]
  swap
  · exact absurd hloads (hno _ _ _)
  obtain ⟨himage, ho₁, -⟩ := hloads.image ho
  obtain ⟨esp, m₂, hpush⟩ := himage.pushStack_fits ho₁ hl (by decide) (by decide)
  have hk := (himage.kernel.pushStack_same ho₁ hpush).1
  obtain ⟨c', hcommit, -⟩ :=
    commit_spec p [97] emptyProg.elfhdr.entry sz esp (c := { c with ram := m₂ })
    (hk ▸ ho₁) hp
  have hr : exec emptyFs p [97] [oneChar] c = some (0, c') := by
    rw [hexec, hpush, Option.bind_some]
    exact hcommit
  obtain ⟨u, w, hw, hat⟩ := exec_args_roundtrip ho hp hl hr
  exact ⟨p, c, c', u, w, hr, hw, hat⟩

/-- An argument of one page. -/
def pageArg : Arg where
  len := 4096
  byte j := if j < 4096 then 97 else 0
  ne_nul j hj := by
    rw [if_pos (show j < 4096 from hj)]
    decide
  nul := if_neg (by decide)

/-- It does not fit on the stack: `exec` fails when the program is loaded. -/
theorem exec_undoes_pageArg : ∃ p c c', exec emptyFs p [97] [pageArg] c = some (-1, c') ∧
    Undone p c c' := by
  obtain ⟨k, old, kstack, ho, hh, -⟩ := exists_process
  let p : Caller := ⟨0, kstack⟩
  let c : State := ⟨⟨k, fun _ => Bytes.zero⟩, old, 0, fun _ => 0, fun _ => false⟩
  have ho : Owns kinitPages c.ram.kmem (c.pgdir.pages + {kstack}) := ho
  obtain ⟨e, k', hvm⟩ := Vm.exists_loads [pageArg] ho hh
  obtain ⟨d, m₁, hloads⟩ := exists_loads (g := emptyProg) (l := [pageArg]) ho
    (by rw [program_emptyProg]; exact hvm)
  have hip : emptyFs.namei [97] = some 1 := rfl
  obtain ⟨d, sz, m₁, hloads, hexec⟩ | ⟨hno, -⟩ := exec_cases (c := c) ho hip rfl p [pageArg]
  swap
  · exact absurd hloads (hno _ _ _)
  obtain ⟨himage, ho₁, -⟩ := hloads.image ho
  have hroom : pageArg.room = 4100 := by decide
  have htwo := himage.two_le
  obtain ⟨m₂, hcopy⟩ := (himage.push_fails (m := m₁) (x := pageArg) (Nat.add_zero _) rfl
    (Nat.zero_le _) (by decide) (by omega)).1 (by omega)
  have hpush : pushStack d [pageArg] sz m₁ = some (none, m₂) := by
    rw [pushStack, pushArgs, if_neg (by decide)]
    dsimp only
    rw [hcopy]
    rfl
  have hk := (himage.kernel.pushStack_same ho₁ hpush).1
  obtain ⟨m₃, hfree, -⟩ := freevm_spec (m := m₂) (hk ▸ ho₁)
  have hr : exec emptyFs p [97] [pageArg] c = some (-1, { c with ram := m₃ }) := by
    rw [hexec, hpush, Option.bind_some]
    dsimp only
    rw [hfree]
    rfl
  exact ⟨p, c, _, hr, exec_undoes ho (Multiset.mem_singleton_self _) hr⟩

end Xv6.Uvm
