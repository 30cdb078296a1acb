import Xv6.Mmu.Basic
import Xv6.Lib.Fuel

/-!
# Freeing a range of pages

`deallocuvm` goes over the pages of a range, and where a page table is missing it goes on behind the
4 MB of that table. This comes to the same as to look at every page (`deallocuvm_exact`). The frames
have to be pages that `kfree` accepts: any other is a panic, not only the frame 0
(`deallocuvm_panics`).
-/

namespace Xv6.Mmu

open Vm (V2P P2V pgRoundUp npages toNat_pgRoundUp)

/-- What follows a call, if it does not panic. -/
def andThen (x : Except String Machine) (f : Machine → Option (Except String Machine)) :
    Option (Except String Machine) :=
  match x with
  | .error e => some (.error e)
  | .ok s => f s

/-- The loop of `deallocuvm`, from the address `a` on, with a bound on its rounds. -/
def deallocLoop (pgdir oldsz : UInt32) : ℕ → UInt32 → Machine → Option (Except String Machine)
  | 0, _, _ => none
  | k + 1, a, s =>
    if a < oldsz then
      match s.walkpgdir pgdir a false with
      | (none, s) => deallocLoop pgdir oldsz k (PGADDR (PDX a + 1) 0 0 - PGSIZE + PGSIZE) s
      | (some pte, s) =>
        if s.load pte &&& PTE_P ≠ 0 then
          let pa := PTE_ADDR (s.load pte)
          if pa = 0 then some (.error "kfree")
          else andThen (s.kfree (P2V pa)) fun s =>
            deallocLoop pgdir oldsz k (a + PGSIZE) (s.store pte 0)
        else deallocLoop pgdir oldsz k (a + PGSIZE) s
    else some (.ok s)

/-- The size that is returned, and the memory. -/
def deallocuvm (s : Machine) (pgdir oldsz newsz : UInt32) (k : ℕ) :
    Option (Except String (UInt32 × Machine)) :=
  if oldsz ≤ newsz then some (.ok (oldsz, s))
  else (deallocLoop pgdir oldsz k (pgRoundUp newsz) s).map fun r => r.map fun s => (newsz, s)

variable {s t : Machine} {pgdir oldsz newsz T w : UInt32} {lo hi n k : ℕ}

/-- The kernel address of the page that an entry maps. -/
def frame (pte : UInt32) : UInt32 := P2V (PTE_ADDR pte)

/-- The entries of the pages from `lo` to `n` that are present. -/
def present (s : Machine) (pgdir : UInt32) (lo n : ℕ) : List UInt32 :=
  (List.range' lo (n - lo)).filterMap (s.pte? pgdir)

/-- The pages that are mapped for the user are pages that `kfree` accepts, and not pages of the
    directory. -/
structure UserPages (s : Machine) (pgdir : UInt32) : Prop where
  isPage : ∀ n < 2 ^ 19, ∀ w, s.pte? pgdir n = some w → Vm.IsPage (frame w)
  ne_dir : ∀ n < 2 ^ 19, ∀ w, s.pte? pgdir n = some w → frame w ≠ pgdir
  ne_table : ∀ n < 2 ^ 19, ∀ w, s.pte? pgdir n = some w →
    ∀ i < 1024, s.table pgdir i ≠ some (frame w)

/-- The frame 0 is the page at `KERNBASE`, which is in the kernel. -/
theorem UserPages.addr_ne_zero (h : UserPages s pgdir) (hn : n < 2 ^ 19)
    (hw : s.pte? pgdir n = some w) : PTE_ADDR w ≠ 0 := fun h0 => by
  have hpage := h.isPage n hn w hw
  rw [frame, h0] at hpage
  exact absurd hpage (by decide)

/-- The pages from `lo` to `n` have been freed and their entries are 0, and all else is as in
    `s`. -/
structure Cleared (s : Machine) (pgdir : UInt32) (lo n : ℕ) (t : Machine) : Prop where
  dir : t.page pgdir = s.page pgdir
  tables : ∀ i < 1024, ∀ T, s.table pgdir i = some T → ∀ j < 1024, t.page T j =
    if lo ≤ 1024 * i + j ∧ 1024 * i + j < n ∧ (s.pte? pgdir (1024 * i + j)).isSome then 0
    else s.page T j
  free : t.free = ((present s pgdir lo n).map frame).reverse ++ s.free
  rest : ∀ v, v ≠ pgdir → (∀ i < 1024, s.table pgdir i ≠ some v) →
    v ∉ (present s pgdir lo n).map frame → t.page v = s.page v

/-! ## One page -/

theorem cleared_refl : Cleared s pgdir lo lo s where
  dir := rfl
  tables i _ T _ j _ := by rw [if_neg (by omega)]
  free := by rw [present, Nat.sub_self]; rfl
  rest _ _ _ _ := rfl

theorem present_succ (h : lo ≤ n) :
    present s pgdir lo (n + 1) = present s pgdir lo n ++ (s.pte? pgdir n).toList := by
  rw [present, present, show n + 1 - lo = n - lo + 1 by omega, List.range'_concat,
    List.filterMap_append, Nat.one_mul, Nat.add_sub_of_le h]
  congr 1

theorem Cleared.table_eq (h : Cleared s pgdir lo n t) (i : ℕ) :
    t.table pgdir i = s.table pgdir i := by
  rw [Machine.table, Machine.table, h.dir]

/-- A page that is not present needs no work. -/
theorem Cleared.skip (h : Cleared s pgdir lo n t) (hle : lo ≤ n) (hnone : s.pte? pgdir n = none) :
    Cleared s pgdir lo (n + 1) t := by
  have hpresent : present s pgdir lo (n + 1) = present s pgdir lo n := by
    rw [present_succ hle, hnone]
    exact List.append_nil _
  refine ⟨h.dir,
    fun i hi T hT j hj => ?_, by rw [hpresent]; exact h.free, by rw [hpresent]; exact h.rest⟩
  rw [h.tables i hi T hT j hj]
  refine if_congr ⟨fun hc => ⟨hc.1, by omega, hc.2.2⟩, fun hc => ⟨hc.1, ?_, hc.2.2⟩⟩ rfl rfl
  by_contra hlt
  have heq : 1024 * i + j = n := by omega
  rw [heq, hnone] at hc
  exact absurd hc.2.2 (by simp)

theorem Cleared.skip_to (h : Cleared s pgdir lo n t) (hle : lo ≤ n) {m : ℕ} (hm : n ≤ m)
    (hnone : ∀ q, n ≤ q → q < m → s.pte? pgdir q = none) : Cleared s pgdir lo m t := by
  induction m, hm using Nat.le_induction with
  | base => exact h
  | succ m hm ih =>
    refine (ih fun q hq hlt => hnone q hq (by omega)).skip (by omega) (hnone m hm (by omega))

/-- The page is freed and its entry is cleared. -/
theorem Cleared.free_page (h : Cleared s pgdir lo n t) (hle : lo ≤ n) (hn : n < 2 ^ 19)
    (htree : s.Tree pgdir) (huser : UserPages s pgdir) (hT : s.table pgdir (n / 1024) = some T)
    (hw : s.pte? pgdir n = some w) : ∃ t', t.kfree (frame w) = .ok t' ∧
      Cleared s pgdir lo (n + 1) (t'.store (T, n % 1024) 0) := by
  obtain ⟨t', ht', hfree, hkeep⟩ := t.kfree_ok (huser.isPage n hn w hw)
  have hpresent : present s pgdir lo (n + 1) = present s pgdir lo n ++ [w] := by
    rw [present_succ hle, hw]
    rfl
  have hTdir : T ≠ pgdir := fun heq => htree.ne_dir _ (by omega) (heq ▸ hT)
  have hpage : ∀ v, v ≠ T → v ≠ frame w →
      (t'.store (T, n % 1024) 0).page v = t.page v := fun v hvT hvw => by
    rw [Machine.page_store_of_ne hvT, hkeep v hvw]
  refine ⟨t', ht', ?_, fun i hi T' hT' j hj => ?_, ?_, fun v hdir htable hfreed => ?_⟩
  · rw [hpage pgdir hTdir.symm (huser.ne_dir n hn w hw).symm, h.dir]
  · have hT'w : T' ≠ frame w := fun heq => huser.ne_table n hn w hw i hi (heq ▸ hT')
    by_cases hi' : i = n / 1024
    · subst hi'
      obtain rfl := Option.some.inj (hT.symm.trans hT')
      rw [Machine.page_store_self, hkeep T hT'w]
      by_cases hj' : j = n % 1024
      · have heq : 1024 * (n / 1024) + j = n := by omega
        rw [heq, hj', Function.update_self, if_pos ⟨hle, by omega, by rw [hw]; rfl⟩]
      · rw [Function.update_of_ne hj', h.tables _ hi T hT j hj]
        exact if_congr ⟨fun hc => ⟨hc.1, by omega, hc.2.2⟩, fun hc => ⟨hc.1, by omega, hc.2.2⟩⟩ rfl
          rfl
    · have hne : T' ≠ T := fun heq => hi' (htree.inj i hi _ (by omega) T (heq ▸ hT') hT)
      rw [hpage T' hne hT'w, h.tables i hi T' hT' j hj]
      exact if_congr ⟨fun hc => ⟨hc.1, by omega, hc.2.2⟩, fun hc => ⟨hc.1, by omega, hc.2.2⟩⟩ rfl
        rfl
  · change t'.free = _
    rw [hfree, h.free, hpresent, List.map_append, List.reverse_append]
    rfl
  · rw [hpresent, List.map_append, List.mem_append, not_or] at hfreed
    rw [hpage v (fun heq => htable _ (by omega) (heq ▸ hT))
      (fun heq => hfreed.2 (by rw [heq]; simp)),
      h.rest v hdir htable hfreed.1]

/-! ## The loop -/

theorem stable_deallocLoop (a : UInt32) (t : Machine) :
    Stable fun k => deallocLoop pgdir oldsz k a t := by
  refine stable_of_succ fun k x h => ?_
  induction k generalizing a t with
  | zero => cases h
  | succ k ih =>
    rw [deallocLoop] at h ⊢
    split at h
    next ha =>
      rw [if_pos ha]
      split at h
      next t' hwalk => exact ih _ _ h
      next pte t' hwalk =>
        dsimp only at h ⊢
        split at h
        next hp =>
          rw [if_pos hp]
          split at h
          next h0 => rw [if_pos h0]; exact h
          next h0 =>
            rw [if_neg h0]
            generalize t'.kfree (P2V (PTE_ADDR (t'.load pte))) = y at h ⊢
            cases y with
            | error e => exact h
            | ok t₁ => exact ih _ _ h
        next hp =>
          rw [if_neg hp]
          exact ih _ _ h
    next ha =>
      rw [if_neg ha]
      exact h

/-- The page behind those of the page table that is missing. -/
theorem PGADDR_next (hn : n < 2 ^ 19) :
    PGADDR (PDX (addr n) + 1) 0 0 - PGSIZE + PGSIZE = addr ((n / 1024 + 1) * 1024) := by
  rw [UInt32.sub_add_cancel, ← UInt32.toNat_inj, toNat_addr (by omega), PGADDR, UInt32.toNat_or,
    UInt32.toNat_or, UInt32.toNat_shiftLeft, UInt32.toNat_add, PDX_addr (by omega)]
  change ((n / 1024 + 1) % 2 ^ 32) <<< 22 % 2 ^ 32 ||| 0 ||| 0 = _
  rw [Nat.or_zero, Nat.or_zero, Nat.shiftLeft_eq]
  omega

theorem addr_lt_iff (hn : n < 2 ^ 20) : addr n < oldsz ↔ n < npages oldsz := by
  rw [UInt32.lt_iff_toNat_lt, toNat_addr hn, npages]
  omega

theorem deallocLoop_eq (htree : s.Tree pgdir) (huser : UserPages s pgdir) (hold : oldsz ≤ KERNBASE)
    (hlo : lo ≤ n) (hn : n ≤ 2 ^ 19) (h : Cleared s pgdir lo (min n (npages oldsz)) t)
    (hk : npages oldsz - n < k) :
    ∃ s', deallocLoop pgdir oldsz k (addr n) t = some (.ok s') ∧
      Cleared s pgdir lo (npages oldsz) s' := by
  have hhi := Vm.npages_le hold
  simp only [Vm.NUSER] at hhi
  induction k generalizing n t with
  | zero => omega
  | succ k ih =>
    rw [deallocLoop]
    by_cases hlt : n < npages oldsz
    · rw [if_pos ((addr_lt_iff (by omega)).2 hlt)]
      rw [Nat.min_eq_left hlt.le] at h
      have hsucc : min (n + 1) (npages oldsz) = n + 1 := Nat.min_eq_left hlt
      cases hT : s.table pgdir (n / 1024) with
      | none =>
        rw [Machine.walkpgdir_none (by rw [h.table_eq, hT]) (by omega)]
        dsimp only
        rw [PGADDR_next (by omega)]
        refine ih (by omega) (by omega) (h.skip_to hlo (by omega) fun q hq hq' => ?_) (by omega)
        have hdiv : q / 1024 = n / 1024 := by omega
        rw [Machine.pte?, hdiv, hT]
        rfl
      | some T =>
        rw [Machine.walkpgdir_of_table (by rw [h.table_eq, hT]) (by omega)]
        have hload : t.load (T, n % 1024) = s.page T (n % 1024) := by
          rw [Machine.load, h.tables (n / 1024) (by omega) T hT _ (by omega), if_neg (by omega)]
        have hpte := Machine.pte?_of_table hT
        dsimp only
        rw [hload, show addr n + PGSIZE = addr (n + 1) from addr_succ n]
        split
        next hp =>
          rw [if_pos hp] at hpte
          obtain ⟨t', ht', hclear⟩ := h.free_page hlo (by omega) htree huser hT hpte
          rw [frame] at ht'
          rw [if_neg (huser.addr_ne_zero (by omega) hpte), ht']
          refine ih (by omega) (by omega) ?_ (by omega)
          rw [hsucc]
          exact hclear
        next hp =>
          rw [if_neg hp] at hpte
          refine ih (by omega) (by omega) ?_ (by omega)
          rw [hsucc]
          exact h.skip hlo hpte
    · rw [if_neg ((addr_lt_iff (by omega)).not.2 hlt)]
      rw [Nat.min_eq_right (by omega)] at h
      exact ⟨t, rfl, h⟩

/-! ## The whole range -/

theorem Cleared.pte?_eq (h : Cleared s pgdir lo hi t) (hn : n < 2 ^ 20) :
    t.pte? pgdir n = if lo ≤ n ∧ n < hi then none else s.pte? pgdir n := by
  cases hT : s.table pgdir (n / 1024) with
  | none =>
    rw [Machine.pte?, Machine.pte?, h.table_eq, hT]
    split_ifs <;> rfl
  | some T =>
    have heq : 1024 * (n / 1024) + n % 1024 = n := Nat.div_add_mod n 1024
    have hentry := h.tables (n / 1024) (by omega) T hT (n % 1024) (by omega)
    rw [heq] at hentry
    rw [Machine.pte?_of_table (by rw [h.table_eq, hT])]
    by_cases hin : lo ≤ n ∧ n < hi
    · rw [if_pos hin]
      cases hp : s.pte? pgdir n with
      | none =>
        rw [hp, if_neg (by simp)] at hentry
        rw [hentry, ← Machine.pte?_of_table hT, hp]
      | some w =>
        rw [hp, if_pos ⟨hin.1, hin.2, rfl⟩] at hentry
        rw [hentry]
        exact if_neg (by decide)
    · have hout : ¬(lo ≤ n ∧ n < hi ∧ (s.pte? pgdir n).isSome) := fun hc => hin ⟨hc.1, hc.2.1⟩
      rw [if_neg hout] at hentry
      rw [if_neg hin, hentry, ← Machine.pte?_of_table hT]

/-- No page is mapped twice. -/
def Unshared (s : Machine) (pgdir : UInt32) : Prop :=
  ∀ m < 2 ^ 19, ∀ n < 2 ^ 19, ∀ w w', s.pte? pgdir m = some w → s.pte? pgdir n = some w' →
    frame w = frame w' → m = n

theorem nodup_present (h : Unshared s pgdir) (hhi : hi ≤ 2 ^ 19) :
    ((present s pgdir lo hi).map frame).Nodup := by
  rw [List.Nodup, List.pairwise_map, present, List.pairwise_filterMap]
  refine List.Pairwise.imp_of_mem (fun {m n} hm hn hne w hw w' hw' heq => hne ?_)
    List.nodup_range'
  rw [List.mem_range'_1] at hm hn
  exact h m (by omega) n (by omega) w w' hw hw' heq

/-- The frames of the pages in the range that are present are freed, each once, their entries are
    cleared, and no other entry and no other translation changes. -/
theorem deallocuvm_exact (s : Machine) (pgdir oldsz newsz : UInt32) (htree : s.Tree pgdir)
    (huser : UserPages s pgdir) (hlt : newsz < oldsz) (hle : oldsz ≤ KERNBASE) :
    ∃ s', (∃ k₀, ∀ k ≥ k₀, deallocuvm s pgdir oldsz newsz k = some (.ok (newsz, s'))) ∧
      Cleared s pgdir (npages newsz) (npages oldsz) s' ∧
      (Unshared s pgdir → ((present s pgdir (npages newsz) (npages oldsz)).map frame).Nodup) ∧
      ∀ n < 2 ^ 20, s'.pte? pgdir n =
        if npages newsz ≤ n ∧ n < npages oldsz then none else s.pte? pgdir n := by
  have hnew : newsz ≤ KERNBASE := UInt32.le_trans (UInt32.le_of_lt hlt) hle
  have hmono := Vm.npages_mono (UInt32.le_of_lt hlt)
  have hhi := Vm.npages_le hle
  simp only [Vm.NUSER] at hhi
  have hstart : pgRoundUp newsz = addr (npages newsz) := by
    rw [← UInt32.toNat_inj, toNat_pgRoundUp hnew, toNat_addr (by omega)]
  have hbegin : Cleared s pgdir (npages newsz) (min (npages newsz) (npages oldsz)) s := by
    rw [Nat.min_eq_left hmono]
    exact cleared_refl
  obtain ⟨s', hs', hcleared⟩ := deallocLoop_eq (k := npages oldsz - npages newsz + 1)
    (n := npages newsz) htree huser hle le_rfl (by omega) hbegin (by omega)
  refine ⟨s', ⟨npages oldsz - npages newsz + 1, fun k hk => ?_⟩, hcleared,
    fun h => nodup_present h hhi, fun n hn => hcleared.pte?_eq hn⟩
  have hloop : deallocLoop pgdir oldsz k (addr (npages newsz)) s = some (.ok s') :=
    stable_deallocLoop _ _ hk hs'
  rw [deallocuvm, if_neg (UInt32.not_le.2 hlt), hstart, hloop]
  rfl

/-- A directory with one page table, for the first 4 MB, and one entry in it, that of the second
    page. -/
def onePage (pte : UInt32) : Machine where
  page v j :=
    if v = 0x80200000 ∧ j = 0 then 0x201007 else if v = 0x80201000 ∧ j = 1 then pte else 0
  free := []

theorem table_onePage (pte : UInt32) (i : ℕ) :
    (onePage pte).table 0x80200000 i = if i = 0 then some 0x80201000 else none := by
  rw [Machine.table]
  by_cases hi : i = 0
  · subst hi
    have hpde : (onePage pte).page 0x80200000 0 = 0x201007 := by simp [onePage]
    rw [hpde]
    decide
  · simp [onePage, hi]

theorem pte?_onePage {pte : UInt32} (h : (onePage pte).pte? 0x80200000 n = some w) :
    n = 1 ∧ w = pte := by
  have hentry : (onePage pte).page 0x80201000 (n % 1024) = if n % 1024 = 1 then pte else 0 := by
    rw [onePage]
    dsimp only
    rw [if_neg (fun hc => absurd hc.1 (by decide))]
    simp
  rw [Machine.pte?, table_onePage] at h
  split_ifs at h with hdiv
  · rw [Option.bind_some, hentry] at h
    by_cases hmod : n % 1024 = 1
    · rw [if_pos hmod] at h
      split_ifs at h
      exact ⟨by omega, (Option.some.inj h).symm⟩
    · rw [if_neg hmod, if_neg (by decide)] at h
      cases h
  · cases h

theorem tree_onePage (pte : UInt32) : (onePage pte).Tree 0x80200000 where
  ne_dir i _ := by
    rw [table_onePage]
    split_ifs <;> decide
  inj i _ j _ t hi hj := by
    rw [table_onePage] at hi hj
    split_ifs at hi hj with h₁ h₂
    omega

theorem userPages_onePage : UserPages (onePage 0x300007) 0x80200000 where
  isPage n _ w hw := by
    rw [(pte?_onePage hw).2]
    decide
  ne_dir n _ w hw := by
    rw [(pte?_onePage hw).2]
    decide
  ne_table n _ w hw i _ := by
    rw [(pte?_onePage hw).2, table_onePage]
    split_ifs <;> decide

/-- 8 MB and a page are freed, with one page table and one page. -/
theorem deallocuvm_exact_onePage : ∃ s', (∃ k₀, ∀ k ≥ k₀,
      deallocuvm (onePage 0x300007) 0x80200000 0x801000 0 k = some (.ok (0, s'))) ∧
    s'.pte? 0x80200000 1 = none ∧ s'.free = [0x80300000] := by
  obtain ⟨s', hk, hclear, -, hpte⟩ := deallocuvm_exact (onePage 0x300007) 0x80200000 0x801000 0
    (tree_onePage _) userPages_onePage (by decide) (by decide)
  have hpresent : present (onePage 0x300007) 0x80200000 (npages 0) (npages 0x801000) =
      [0x300007] := by decide +kernel
  refine ⟨s', hk, (hpte 1 (by decide)).trans (if_pos (by decide)), ?_⟩
  rw [hclear.free, hpresent]
  rfl

/-- A page of the kernel is mapped for the user. Its frame is not 0, but `kfree` does not take
    it. -/
theorem deallocuvm_panics : (onePage 0x1007).Tree 0x80200000 ∧
    (∀ n w, (onePage 0x1007).pte? 0x80200000 n = some w → PTE_ADDR w ≠ 0) ∧
    ∃ k₀, ∀ k ≥ k₀, deallocuvm (onePage 0x1007) 0x80200000 8192 0 k = some (.error "kfree") := by
  have hloop : deallocLoop 0x80200000 8192 2 0 (onePage 0x1007) = some (.error "kfree") := by
    rfl
  refine ⟨tree_onePage _, fun n w hw => ?_, 2, fun k hk => ?_⟩
  · rw [(pte?_onePage hw).2]
    decide
  · have hk : deallocLoop 0x80200000 8192 k (pgRoundUp 0) (onePage 0x1007) = _ :=
      stable_deallocLoop _ _ hk hloop
    rw [deallocuvm, if_neg (by decide), hk]
    rfl

end Xv6.Mmu
