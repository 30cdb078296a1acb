import Xv6.Vm.Boot

/-!
# Runs of the system

* `pages_conserved`: no page is lost and none is freed twice, in whatever way the calls of `kalloc`
  fail;
* `address_space`: if `growproc` is never called to shrink a process to nothing, the memory of a
  process is what its size says. `growproc_frees_all` is the run that shows that this is needed.
-/

namespace Xv6.Vm

open Kmem TransitionSystem

variable {P : Pgdir → UInt32 → Prop} {T : Multiset Addr} {s s' : Sys} {p : Slot} {n : ℕ}

/-! ## Conservation -/

/-- Every page of the allocator is on the free list once, or in use once. -/
def Conserved (s : Sys) : Prop :=
  ∃ l : List Addr, Linked s.kmem.next s.kmem.freelist l 0 ∧
    ∀ v ∈ kinitPages, l.count v + s.owned.count v = 1

theorem Inv.conserved (h : Inv P kinitPages 0 s) : Conserved s := by
  obtain ⟨l, hl, hT⟩ := h.owns.split
  refine ⟨l, hl, fun v hv => ?_⟩
  rw [add_zero] at hT
  rw [← Multiset.coe_count, ← Multiset.count_add, hT]
  exact Multiset.count_eq_one_of_mem nodup_kinitPages hv

/-- A directory and a size with which the functions of `vm.c` lose no page. -/
theorem spaces_kern : Spaces (fun d sz => d.Kern ∧ sz < KERNBASE) fun _ _ => True where
  kern h := h
  copy h hc := ⟨hc.kern (npages_le (UInt32.le_of_lt h.2)), h.2⟩
  layout h _ := ⟨h.kern, h.lt⟩
  grow ho h _ hg := (owns_growproc ho h.1 h.2 hg).2

/-- A directory and a size that are in step. -/
theorem spaces_layout : Spaces (fun d sz => Layout d sz ∧ sz ≠ 0)
    fun sz n => ¬(n < 0 ∧ sz + n.toUInt32 = 0) where
  kern h := ⟨h.1.kern, h.1.lt⟩
  copy h hc := ⟨⟨h.1.lt, hc⟩, h.2⟩
  layout h h0 := ⟨h, h0⟩
  grow ho h hn hg := (growproc_spec ho h.1 h.2 hg).2 hn

theorem inv_init (h : system.init s) : Inv (fun d sz => Layout d sz ∧ sz ≠ 0) kinitPages 0 s := by
  obtain ⟨ncpu, hn, hb⟩ := h
  obtain ⟨s₀, hb₀, hinv, -⟩ := boot_spec ncpu hn
  obtain rfl := Option.some.inj (hb.symm.trans hb₀)
  exact hinv

/-- In every run, no page is lost and none is freed twice. -/
theorem pages_conserved (hs : system.Reachable Any s) : Conserved s := by
  refine Inv.conserved (P := fun d sz => d.Kern ∧ sz < KERNBASE) ?_
  refine hs.invariant (I := fun s => Inv _ kinitPages 0 s) (fun s h => ?_) fun s a s' h _ hr => ?_
  · exact (inv_init h).mono fun d sz hd => ⟨hd.1.kern, hd.1.lt⟩
  · exact inv_step spaces_kern h (fun _ _ => trivial) hr

/-- `growproc` does not shrink a process to nothing. -/
def Sound (s : Sys) (a : Act) : Prop :=
  ∀ n, a.op = .growproc n → ¬(n < 0 ∧ (s.proc a.p).sz + n.toUInt32 = 0)

theorem sound_growproc {m : Int32} (hm : 0 < m) {deny : List Bool} :
    Sound s ⟨p, .growproc m, deny⟩ := by
  intro n hn hlt
  cases hn
  exact Int32.lt_asymm hm hlt.1

/-- A process grows, if there is memory. -/
theorem exists_growproc (h : Inv (fun d sz => Layout d sz ∧ sz ≠ 0) T 0 s)
    (hp : (s.proc p).state = .runnable) {m : Int32} (hm : 0 < m)
    (hlt : (s.proc p).sz + m.toUInt32 < KERNBASE) (hle : (s.proc p).sz ≤ (s.proc p).sz + m.toUInt32)
    (hh : Has s.kmem (n + 2 * npages ((s.proc p).sz + m.toUInt32))) :
    ∃ s', s.step ⟨p, .growproc m, []⟩ = some s' ∧ (s'.proc p).state = .runnable ∧
      (s'.proc p).sz = (s.proc p).sz + m.toUInt32 ∧ Has s'.kmem n := by
  obtain ⟨d, hd, hl, h0⟩ := h.space p (by rw [Proc.Live, hp]; decide)
  have hdeny : Has { s.kmem with deny := [] } (n + 2 * npages ((s.proc p).sz + m.toUInt32)) :=
    ⟨rfl, hh.free⟩
  obtain ⟨d', k', ha, hh', -⟩ := hdeny.allocuvm (d := d) _ _ hlt hle fun b hb hb' => by
    have := npages_le (UInt32.le_of_lt hlt)
    rw [← Option.not_isSome_iff_eq_none, hl.maps b (by simp only [NPAGES, NUSER] at *; omega)]
    omega
  refine ⟨s.setSpace p (0, d', (s.proc p).sz + m.toUInt32, k'), ?_, ?_, ?_, hh'⟩
  · simp only [Sys.step, hp, if_true, Op.run, hd, Option.bind_some, growproc, hm, ha,
      Option.map_some,
      if_neg (add_ne_zero_of_pos hm hl.lt)]
    rfl
  · simp [Sys.setSpace, Sys.modify, hp]
  · simp [Sys.setSpace, Sys.modify]

/-- The first process grows by a page. -/
theorem pages_conserved_grow : ∃ s, system.Reachable Any s ∧
    (s.proc initproc).sz = 8192 ∧ Conserved s := by
  obtain ⟨s₀, hb, h, hh, hst, hsz⟩ := boot_spec 2 (by decide)
  have hr : system.Reachable Any s₀ := .init ⟨2, by decide, hb⟩
  obtain ⟨s₁, hs₁, -, hsz₁, -⟩ := exists_growproc (n := 0) (p := initproc) (m := 4096) h hst
    (by decide) (by rw [hsz]; decide) (by rw [hsz]; decide) (by
      rw [hsz]
      exact hh.mono (by decide))
  have hr₁ : system.Reachable Any s₁ := .step hr trivial hs₁
  exact ⟨s₁, hr₁, by rw [hsz₁, hsz]; decide, pages_conserved hr₁⟩

/-! ## A program without segments -/

variable {F own : Multiset Addr} {k : Kmem}

/-- The image of a program without segments: a page that it cannot use and its stack. -/
theorem exists_image (h : Owns T k own) (hh : Has k 100) : ∃ d k₁ d₁ k₂ d₂,
    setupkvm k = some (some d, k₁) ∧ allocuvm d 0 8192 k₁ = some (8192, d₁, k₂) ∧
      clearpteu d₁ 0 = some d₂ ∧ Owns T k₂ (d₂.pages + own) ∧
      ∃ q, d₂.pte? 1 = some q ∧ q.user := by
  obtain ⟨d, k₁, hs, hh₁⟩ := hh.setupkvm (n := 33)
  obtain ⟨ho₁, hd⟩ := setupkvm_spec h hs
  obtain ⟨hpte, -⟩ := hd d rfl
  rw [Option.elim_some] at ho₁
  obtain ⟨d₁, k₂, ha, -, hmap⟩ := (hh₁.mono (m := 0 + 2 * npages 8192) (by decide)).allocuvm
    (d := d) 0 8192 (by decide) (by decide) fun b _ _ => hpte b
  have hrange : List.range' (npages 0) (npages 8192 - npages 0) = [0, 1] := by decide
  rw [hrange] at hmap
  obtain ⟨ho₂, -⟩ := allocuvm_spec ho₁ ha
  obtain ⟨q₀, hq₀, -⟩ := hmap.user 0 (by decide)
  obtain ⟨q, hq, hu⟩ := hmap.user 1 (by decide)
  obtain ⟨d₂, hc⟩ : ∃ d₂, clearpteu d₁ 0 = some d₂ := by
    rw [clearpteu, walkpgdir_eq, if_pos (Pgdir.hasTab_of_pte? (hq₀ ▸ rfl))]
    exact ⟨_, rfl⟩
  obtain ⟨hpages, -, -, hother⟩ := clearpteu_spec hc (by decide)
  exact ⟨d, k₁, d₁, k₂, d₂, hs, ha, hc, ho₂.of_eq (by rw [hpages]), q,
    by rw [hother 1 (by decide) (by decide), hq], hu⟩

/-- Without arguments, `exec` succeeds. -/
theorem exec_nil (old : Pgdir) (oldsz : UInt32) (h : Owns T k (old.pages + F)) (hold : old.Kern)
    (hh : Has k 100) : ∃ d k', (exec {} old oldsz k).result = some (0, d, 8192, k') := by
  obtain ⟨d, k₁, d₁, k₂, d₂, hs, ha, hc, ho, q, hq, hu⟩ := exists_image h hh
  have hmem := mem_pages hq
  have hne : q.page ≠ 0 := (ho.isPage_of_mem (Multiset.mem_add.2 (.inl hmem))).ne_zero
  have huva : uva2ka d₂ (pageOf 8176) = some q.page := by
    rw [(by decide : pageOf 8176 = 1), uva2ka_of_hasTab (Pgdir.hasTab_of_pte? (hq ▸ rfl)), hq,
      Option.elim_some, if_pos hu]
  -- The words of the stack are in its page.
  have hcopy (byte : ℕ → UInt8) : (copyoutLoop d₂ 16 8176 16 byte k₂).result =
      some (true, memmove k₂ q.page 4080 16 byte) := by
    rw [copyoutLoop_succ (by decide) huva, Logged.result_bind, Option.bind_some, if_neg hne]
    rfl
  obtain ⟨k₃, hpush⟩ : ∃ k₃, (pushStack d₂ [] 8192 k₂).result = some (true, k₃) := ⟨_, hcopy _⟩
  have h0 : pgRoundUp 0 = 0 := by decide
  have h8192 : (0 : UInt32) + 2 * PGSIZE = 8192 := by decide
  have hguard : pageOf (8192 - 2 * PGSIZE) = 0 := by decide
  have hstack : (execStack {} d 0 k₁).result = some (some 8192, d₂, k₃) := by
    rw [execStack]
    simp only [h0, h8192, ha, Logged.of_some_bind, hguard, hc]
    rw [if_neg (by decide), Logged.result_bind, hpush]
    rfl
  obtain ⟨k', hk', -⟩ := exists_freevm ((owns_pushStack ho hpush).of_eq (add_left_comm _ _ _)) hold
  refine ⟨d₂, k', ?_⟩
  rw [exec, if_neg (by simp), hs]
  simp only [loadSegs, Logged.of_some_bind, Logged.result_bind, hstack, Option.bind_some,
    Logged.result_of, hk', Option.map_some]

/-! ## Address spaces -/

theorem inv_of_reachable (hs : system.Reachable Sound s) :
    Inv (fun d sz => Layout d sz ∧ sz ≠ 0) kinitPages 0 s :=
  hs.invariant (fun _ h => inv_init h) fun _ _ _ h ha hr => inv_step spaces_layout h ha hr

/-- In every run with such calls, the memory of a process is what its size says; `copyuvm` copies
    it without a panic, whichever calls of `kalloc` fail, and what `argptr` lets pass is mapped. -/
theorem address_space (hs : system.Reachable Sound s) (hp : (s.proc p).Live) :
    ∃ d, (s.proc p).pgdir = some d ∧ Layout d (s.proc p).sz ∧
      (∀ deny, copyuvm d (s.proc p).sz { s.kmem with deny := deny } ≠ none) ∧
      ∀ i size, argptr (s.proc p).sz i size → ∀ x : ℕ, i.toNat ≤ x →
        x < i.toNat + size.toUInt32.toNat → (d.pte? (x / 4096)).isSome := by
  have h := inv_of_reachable hs
  obtain ⟨d, hd, hl, -⟩ := h.space p hp
  refine ⟨d, hd, hl, fun deny => ?_, fun i size hi x => mapped_of_argptr hl hi⟩
  have ho : Owns kinitPages { s.kmem with deny := deny } (s.owned + 0) :=
    ⟨h.owns.nodup, h.owns.isPage, h.owns.split⟩
  have hle := npages_le (UInt32.le_of_lt hl.lt)
  exact copyuvm_ne_none ho (UInt32.le_of_lt hl.lt) fun a ha =>
    (hl.maps a (by simp only [NPAGES, NUSER] at *; omega)).2 ha

/-- The first process executes a program. -/
theorem exists_exec (h : Inv (fun d sz => Layout d sz ∧ sz ≠ 0) T 0 s)
    (hp : (s.proc p).state = .runnable) (hh : Has s.kmem 100) :
    ∃ s', s.step ⟨p, .exec {}, []⟩ = some s' ∧ (s'.proc p).state = .runnable ∧
      (s'.proc p).sz = 8192 := by
  have hlive : (s.proc p).Live := by rw [Proc.Live, hp]; decide
  obtain ⟨d, hd, hl, -⟩ := h.space p hlive
  have ho := (h.detach hlive hd).owns.of_eq (add_comm d.pages _)
  obtain ⟨d', k', he⟩ := exec_nil (k := { s.kmem with deny := [] }) d (s.proc p).sz
    ⟨ho.nodup, ho.isPage, ho.split⟩ hl.kern ⟨rfl, hh.free⟩
  refine ⟨s.setSpace p (0, d', 8192, k'), ?_, ?_, ?_⟩
  · simp only [Sys.step, hp, if_true, Op.run, hd, Option.bind_some, he, Option.map_some]
    rw [if_pos (by simp)]
    rfl
  · simp [Sys.setSpace, Sys.modify, hp]
  · simp [Sys.setSpace, Sys.modify]

/-- A process that was set up by `exec`. -/
theorem exists_executed : ∃ s₀ s, system.init s₀ ∧ s₀.step ⟨initproc, .exec {}, []⟩ = some s ∧
    system.Reachable Sound s ∧ (s.proc initproc).state = .runnable ∧
    (s.proc initproc).sz = 8192 := by
  obtain ⟨s₀, hb, h, hh, hst, hsz⟩ := boot_spec 2 (by decide)
  obtain ⟨s, hs, hst', hsz'⟩ := exists_exec (p := initproc) h hst (hh.mono (by decide))
  have hr : system.Reachable Sound s := by
    refine .step (.init ⟨2, by decide, hb⟩) (fun n hn => ?_) hs
    cases hn
  exact ⟨s₀, s, ⟨2, by decide, hb⟩, hs, hr, hst', hsz'⟩

/-- The stack of a program is mapped. -/
theorem address_space_exec : ∃ s d, system.Reachable Sound s ∧ (s.proc initproc).sz = 8192 ∧
    (s.proc initproc).pgdir = some d ∧ Layout d 8192 := by
  obtain ⟨s₀, s, -, -, hr, hst, hsz⟩ := exists_executed
  obtain ⟨d, hd, hl, -, -⟩ := address_space (p := initproc) hr
    (by rw [Proc.Live, hst]; decide)
  exact ⟨s, d, hr, hsz, hd, hsz ▸ hl⟩

/-- A process set up by `exec` calls `growproc(-sz)`: it has no memory any more, but keeps its
    size. -/
theorem growproc_frees_all : ∃ s₀ s s' d, system.init s₀ ∧
    s₀.step ⟨initproc, .exec {}, []⟩ = some s ∧
    s.step ⟨initproc, .growproc (-8192), []⟩ = some s' ∧
    (s'.proc initproc).sz = 8192 ∧ (s'.proc initproc).pgdir = some d ∧ d.pte? 0 = none := by
  obtain ⟨s₀, s, h₀, hs, hr, hst, hsz⟩ := exists_executed
  have h := inv_of_reachable hr
  have hlive : (s.proc initproc).Live := by rw [Proc.Live, hst]; decide
  obtain ⟨d, hd, -⟩ := h.space initproc hlive
  have ho := (h.detach hlive hd).owns.of_eq (add_comm d.pages _)
  obtain ⟨d', k', he, -, hpte, -⟩ := exists_deallocuvm (k := { s.kmem with deny := [] })
    8192 0 ⟨ho.nodup, ho.isPage, ho.split⟩ (by decide) (by decide)
  refine ⟨s₀, s, s.setSpace initproc (-1, d', 8192, k'), d', h₀, hs, ?_, ?_, ?_, ?_⟩
  · have hsub : (8192 : UInt32) + (-8192 : Int32).toUInt32 = 0 := by decide
    have hneg : ¬(-8192 : Int32) > 0 ∧ (-8192 : Int32) < 0 := by decide
    simp only [Sys.step, hst, if_true, Op.run, hd, Option.bind_some, growproc, hsz, hsub,
      if_neg hneg.1, if_pos hneg.2, he, Option.map_some]
    rfl
  · simp [Sys.setSpace, Sys.modify]
  · simp [Sys.setSpace, Sys.modify]
  · rw [hpte 0 (by decide), if_pos (by decide)]

end Xv6.Vm
