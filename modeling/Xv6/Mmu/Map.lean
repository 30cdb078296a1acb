import Xv6.Mmu.Basic
import Xv6.Lib.Fuel

/-!
# Mapping a range of pages

`mappages` goes from the page of the first address of a range to that of the last one, and makes the
page tables that are missing. It compares the pages for equality, so that the range may end at the
end of the address space. Either all pages of the range are mapped, or there is no page left for a
page table and those before are (`mappages_exact`).
-/

namespace Xv6.Mmu

open Function

open Vm (V2P P2V pgRoundDown toNat_pgRoundDown)

/-- The loop of `mappages`, from the address `a` on, with a bound on its rounds: what it returns,
    and the memory. -/
def mapLoop (pgdir last perm : UInt32) :
    ℕ → UInt32 → UInt32 → Machine → Option (Except String (Int32 × Machine))
  | 0, _, _, _ => none
  | k + 1, a, pa, s =>
    match s.walkpgdir pgdir a true with
    | (none, s) => some (.ok (-1, s))
    | (some pte, s) =>
      if s.load pte &&& PTE_P ≠ 0 then some (.error "remap")
      else
        let s := s.store pte (pa ||| perm ||| PTE_P)
        if a = last then some (.ok (0, s))
        else mapLoop pgdir last perm k (a + PGSIZE) (pa + PGSIZE) s

/-- `mappages`, with a bound on its rounds. -/
def mappages (s : Machine) (pgdir va size pa perm : UInt32) (k : ℕ) :
    Option (Except String (Int32 × Machine)) :=
  mapLoop pgdir (pgRoundDown (va + size - 1)) perm k (pgRoundDown va) pa s

/-- The pages that `kalloc` returns are in no use. -/
structure Fresh (s : Machine) (pgdir : UInt32) : Prop where
  nodup : s.free.Nodup
  aligned : ∀ v ∈ s.free, v.toNat % 4096 = 0
  ne_zero : ∀ v ∈ s.free, v ≠ 0
  ne_dir : ∀ v ∈ s.free, v ≠ pgdir
  ne_table : ∀ v ∈ s.free, ∀ i < 1024, s.table pgdir i ≠ some v

variable {s t : Machine} {pgdir T v x pa perm last : UInt32} {i j m n k D first : ℕ}
    {l : List UInt32}

/-! ## Entries -/

namespace Machine

theorem table_store (hT : T ≠ pgdir) (i : ℕ) :
    (s.store (T, j) x).table pgdir i = s.table pgdir i := by
  rw [table, table, page_store_of_ne hT.symm]

theorem Tree.store (h : s.Tree pgdir) (hT : T ≠ pgdir) : (s.store (T, j) x).Tree pgdir where
  ne_dir i hi := by
    rw [table_store hT]
    exact h.ne_dir i hi
  inj i hi j hj t := by
    rw [table_store hT, table_store hT]
    exact h.inj i hi j hj t

/-- To write an entry that is present changes the translation of one page. -/
theorem pte?_store (h : s.Tree pgdir) (hn : n < 2 ^ 20) (hm : m < 2 ^ 20)
    (hT : s.table pgdir (n / 1024) = some T) (hx : x &&& PTE_P ≠ 0) :
    (s.store (T, n % 1024) x).pte? pgdir m = if m = n then some x else s.pte? pgdir m := by
  have hTdir : T ≠ pgdir := fun heq => h.ne_dir _ (by omega) (heq ▸ hT)
  rw [pte?, table_store hTdir, pte?]
  cases hT' : s.table pgdir (m / 1024) with
  | none =>
    have hmn : m ≠ n := fun heq => by rw [heq, hT] at hT'; cases hT'
    rw [if_neg hmn]
    rfl
  | some T' =>
    rw [Option.bind_some, Option.bind_some]
    by_cases hdiv : m / 1024 = n / 1024
    · obtain rfl : T' = T := by
        rw [hdiv, hT] at hT'
        exact (Option.some.inj hT').symm
      rw [page_store_self]
      by_cases hmod : m % 1024 = n % 1024
      · rw [hmod, update_self, if_pos hx, if_pos (by omega)]
      · rw [update_of_ne hmod, if_neg (show m ≠ n by omega)]
    · have hne : T' ≠ T := fun heq => hdiv (h.inj _ (by omega) _ (by omega) T (heq ▸ hT') hT)
      rw [page_store_of_ne hne, if_neg (show m ≠ n by omega)]

/-! ## Page tables -/

/-- The page `v` becomes the page table for the directory index `i`. -/
def addTable (s : Machine) (pgdir : UInt32) (i : ℕ) (v : UInt32) : Machine :=
  (s.fill v 0).store (pgdir, i) (V2P v ||| PTE_P ||| PTE_W ||| PTE_U)

/-- `walkpgdir` that makes a page table. -/
theorem walkpgdir_alloc (hn : n < 2 ^ 20) (hT : s.table pgdir (n / 1024) = none)
    (hfree : s.free = v :: l) (hv : v ≠ 0) : s.walkpgdir pgdir (addr n) true =
      (some (v, n % 1024), { s with free := l }.addTable pgdir (n / 1024) v) := by
  rw [table] at hT
  split_ifs at hT with hp
  rw [walkpgdir, PDX_addr hn, PTX_addr hn, kalloc, hfree]
  dsimp only
  rw [load, if_neg hp, if_neg (by decide), if_neg hv]
  rfl

theorem walkpgdir_full (hn : n < 2 ^ 20) (hT : s.table pgdir (n / 1024) = none)
    (hfree : s.free = []) : s.walkpgdir pgdir (addr n) true = (none, s) := by
  rw [table] at hT
  split_ifs at hT with hp
  rw [walkpgdir, PDX_addr hn, kalloc, hfree]
  dsimp only
  rw [load, if_neg hp, if_neg (by decide), if_pos rfl]

theorem page_addTable_of_ne (hdir : x ≠ pgdir) (hv : x ≠ v) :
    (s.addTable pgdir i v).page x = s.page x := by
  rw [addTable, page_store_of_ne hdir, page_fill_of_ne hv]

theorem page_addTable_self (hdir : v ≠ pgdir) : (s.addTable pgdir i v).page v = fun _ => 0 := by
  rw [addTable, page_store_of_ne hdir]
  exact update_self ..

theorem table_addTable (hv : v.toNat % 4096 = 0) (hdir : v ≠ pgdir) (j : ℕ) :
    (s.addTable pgdir i v).table pgdir j = if j = i then some v else s.table pgdir j := by
  have hpde : V2P v ||| PTE_P ||| PTE_W ||| PTE_U = V2P v ||| 7 := by
    rw [UInt32.or_assoc, UInt32.or_assoc]
    rfl
  have hflags : V2P v ||| 7 = V2P v ||| 6 ||| PTE_P := by
    rw [UInt32.or_assoc]
    rfl
  rw [table, addTable, page_store_self, page_fill_of_ne hdir.symm, hpde]
  by_cases hj : j = i
  · rw [hj, update_self, if_pos rfl, if_pos, PTE_ADDR_or (V2P_aligned hv) (by decide)]
    · rw [P2V, V2P, UInt32.sub_add_cancel]
    · rw [hflags]
      exact or_present _
  · rw [update_of_ne hj, if_neg hj, table]

theorem Tree.addTable (h : s.Tree pgdir) (hv : v.toNat % 4096 = 0) (hdir : v ≠ pgdir)
    (hfresh : ∀ i < 1024, s.table pgdir i ≠ some v) : (s.addTable pgdir i v).Tree pgdir where
  ne_dir j hj := by
    rw [table_addTable hv hdir]
    split_ifs
    · exact fun heq => hdir (Option.some.inj heq)
    · exact h.ne_dir j hj
  inj j hj k hk t := by
    rw [table_addTable hv hdir, table_addTable hv hdir]
    split_ifs with h₁ h₂ h₂
    · exact fun _ _ => h₁.trans h₂.symm
    · exact fun heq ht => absurd (ht.trans heq.symm) (hfresh k hk)
    · exact fun ht heq => absurd (ht.trans heq.symm) (hfresh j hj)
    · exact h.inj j hj k hk t

/-- A new page table has no entries. -/
theorem pte?_addTable (hv : v.toNat % 4096 = 0) (hdir : v ≠ pgdir) (h : s.Tree pgdir)
    (hfresh : ∀ i < 1024, s.table pgdir i ≠ some v) (hi : s.table pgdir i = none)
    (hm : m < 2 ^ 20) :
    (s.addTable pgdir i v).pte? pgdir m = s.pte? pgdir m := by
  rw [pte?, table_addTable hv hdir, pte?]
  by_cases hmi : m / 1024 = i
  · have hzero : (0 : UInt32) &&& PTE_P = 0 := rfl
    rw [if_pos hmi, hmi, hi, Option.bind_some, page_addTable_self hdir]
    dsimp only
    rw [hzero, if_neg (not_not.2 rfl)]
    rfl
  · rw [if_neg hmi]
    cases hT : s.table pgdir (m / 1024) with
    | none => rfl
    | some T =>
      have hTdir : T ≠ pgdir := fun heq => h.ne_dir _ (by omega) (heq ▸ hT)
      have hTv : T ≠ v := fun heq => hfresh _ (by omega) (heq ▸ hT)
      rw [Option.bind_some, Option.bind_some, page_addTable_of_ne hTdir hTv]

end Machine

/-! ## Rounds -/

/-- How many page tables are missing for the directory indices from `lo` to `hi`. -/
def missing (s : Machine) (pgdir : UInt32) (lo hi : ℕ) : ℕ :=
  ((List.range' lo (hi - lo)).filter fun i => (s.table pgdir i).isNone).length

theorem missing_succ {lo : ℕ} (h : lo ≤ D) : missing s pgdir lo (D + 1) =
    missing s pgdir lo D + if s.table pgdir D = none then 1 else 0 := by
  rw [missing, missing, show D + 1 - lo = D - lo + 1 by omega, List.range'_concat,
    List.filter_append, List.length_append, Nat.one_mul, Nat.add_sub_of_le h]
  congr 1
  cases hT : s.table pgdir D with
  | none => simp [hT]
  | some T => simp [hT]

theorem missing_mono {lo hi : ℕ} (h : D ≤ hi) : missing s pgdir lo D ≤ missing s pgdir lo hi := by
  refine ((List.Sublist.filter _ ?_).length_le)
  rw [List.range'_sublist_right]
  omega

/-- The pages from `first` to `n` are mapped to those from `pa` on, and nothing else has changed but
    that there are more page tables. -/
structure Mapped (s : Machine) (pgdir : UInt32) (first n : ℕ) (pa perm : UInt32) (t : Machine) :
    Prop where
  pte : ∀ m < 2 ^ 20, t.pte? pgdir m =
    if first ≤ m ∧ m < n then some (pa + addr (m - first) ||| perm ||| PTE_P) else s.pte? pgdir m
  tables : ∀ i T, s.table pgdir i = some T → t.table pgdir i = some T
  rest : ∀ v, v ≠ pgdir → (∀ i < 1024, s.table pgdir i ≠ some v) → v ∉ s.free → t.page v = s.page v

/-- The loop has come to the page `n`, and there are page tables for the directory indices from that
    of `first` to `D`. -/
structure Going (s : Machine) (pgdir : UInt32) (first n D : ℕ) (pa perm : UInt32) (t : Machine) :
    Prop extends Mapped s pgdir first n pa perm t where
  tree : t.Tree pgdir
  fresh : Fresh t pgdir
  source : ∀ i T, t.table pgdir i = some T → s.table pgdir i = some T ∨ T ∈ s.free
  visited : ∀ i, first / 1024 ≤ i → i < D → t.table pgdir i ≠ none
  unvisited : ∀ i, i < first / 1024 ∨ D ≤ i → t.table pgdir i = s.table pgdir i
  free : t.free = s.free.drop (missing s pgdir (first / 1024) D)
  enough : missing s pgdir (first / 1024) D ≤ s.free.length

theorem going_refl (htree : s.Tree pgdir) (hfresh : Fresh s pgdir) :
    Going s pgdir first first (first / 1024) pa perm s where
  pte m hm := by rw [if_neg (by omega)]
  tables _ _ h := h
  rest _ _ _ _ := rfl
  tree := htree
  fresh := hfresh
  source _ _ h := .inl h
  visited i hi hi' := by omega
  unvisited _ _ := rfl
  free := by rw [missing, Nat.sub_self]; rfl
  enough := by rw [missing, Nat.sub_self]; exact Nat.zero_le _

/-- A page table that is there needs no memory. -/
theorem Going.found (h : Going s pgdir first n D pa perm t) (hfirst : first ≤ n)
    (hD : n / 1024 ≤ D) (hD' : D ≤ n / 1024 + 1) (hT : t.table pgdir (n / 1024) = some T) :
    Going s pgdir first n (n / 1024 + 1) pa perm t := by
  by_cases hlast : D = n / 1024 + 1
  · exact hlast ▸ h
  · obtain rfl : D = n / 1024 := by omega
    have hs : s.table pgdir (n / 1024) = some T := (h.unvisited _ (.inr le_rfl)).symm.trans hT
    have hmissing : missing s pgdir (first / 1024) (n / 1024 + 1) =
        missing s pgdir (first / 1024) (n / 1024) := by
      rw [missing_succ (by omega), hs, if_neg (by simp), Nat.add_zero]
    refine { h with
      visited := fun i hi hi' => ?_, unvisited := fun i hi => ?_, free := ?_, enough := ?_ }
    · by_cases heq : i = n / 1024
      · rw [heq, hT]
        exact Option.some_ne_none T
      · exact h.visited i hi (by omega)
    · exact h.unvisited i (by omega)
    · rw [hmissing]
      exact h.free
    · rw [hmissing]
      exact h.enough

/-- A page table is made of the first free page. -/
theorem Going.added (h : Going s pgdir first n D pa perm t) (hfirst : first ≤ n)
    (hD : n / 1024 ≤ D) (hD' : D ≤ n / 1024 + 1) (hT : t.table pgdir (n / 1024) = none)
    (hfree : t.free = v :: l) :
    Going s pgdir first n (n / 1024 + 1) pa perm
      ({ t with free := l }.addTable pgdir (n / 1024) v) := by
  -- all tables before this one have been visited
  obtain rfl : D = n / 1024 := by
    by_contra hne
    exact h.visited (n / 1024) (by omega) (by omega) hT
  have hmem : v ∈ t.free := hfree ▸ List.mem_cons_self
  have hl : ∀ x ∈ l, x ∈ t.free := fun x hx => hfree ▸ List.mem_cons_of_mem v hx
  have hvs : v ∈ s.free := List.mem_of_mem_drop (h.free ▸ hmem)
  have haligned := h.fresh.aligned v hmem
  have hdir := h.fresh.ne_dir v hmem
  have hfresh := h.fresh.ne_table v hmem
  have hs : s.table pgdir (n / 1024) = none := (h.unvisited _ (.inr le_rfl)).symm.trans hT
  have hmissing : missing s pgdir (first / 1024) (n / 1024 + 1) =
      missing s pgdir (first / 1024) (n / 1024) + 1 := by
    rw [missing_succ (by omega), hs, if_pos rfl]
  have htree : ({ t with free := l } : Machine).Tree pgdir :=
    ⟨h.tree.ne_dir, h.tree.inj⟩
  have htable : ∀ j, ({ t with free := l }.addTable pgdir (n / 1024) v).table pgdir j =
      if j = n / 1024 then some v else t.table pgdir j :=
        fun j => Machine.table_addTable haligned hdir j
  constructor
  case toMapped =>
    refine ⟨fun m hm => ?_, fun i T hi => ?_, fun x hxdir hxtable hxfree => ?_⟩
    · rw [Machine.pte?_addTable haligned hdir htree hfresh hT hm]
      exact h.pte m hm
    · rw [htable, if_neg, h.tables i T hi]
      rintro rfl
      rw [hs] at hi
      cases hi
    · rw [Machine.page_addTable_of_ne hxdir (fun heq => hxfree (heq ▸ hvs))]
      exact h.rest x hxdir hxtable hxfree
  case tree => exact htree.addTable haligned hdir hfresh
  case fresh =>
    have hnodup := h.fresh.nodup
    rw [hfree, List.nodup_cons] at hnodup
    refine ⟨hnodup.2, fun x hx => h.fresh.aligned x (hl x hx), fun x hx => h.fresh.ne_zero x
      (hl x hx),
      fun x hx => h.fresh.ne_dir x (hl x hx), fun x hx i hi => ?_⟩
    rw [htable]
    split_ifs
    · exact fun heq => hnodup.1 (Option.some.inj heq ▸ hx)
    · exact h.fresh.ne_table x (hl x hx) i hi
  case source =>
    intro i T hi
    rw [htable] at hi
    split_ifs at hi
    · exact .inr (Option.some.inj hi ▸ hvs)
    · exact h.source i T hi
  case visited =>
    intro i hi hi'
    rw [htable]
    split_ifs with heq
    · exact Option.some_ne_none v
    · exact h.visited i hi (by omega)
  case unvisited =>
    intro i hi
    rw [htable, if_neg (by omega)]
    exact h.unvisited i (by omega)
  case free =>
    change l = _
    rw [hmissing, ← List.drop_drop, ← h.free, hfree]
    rfl
  case enough =>
    have hlen := congrArg List.length h.free
    rw [hfree, List.length_drop, List.length_cons] at hlen
    omega

/-- There are not enough free pages for the page tables. -/
theorem Going.free_lt_missing (h : Going s pgdir first n D pa perm t) (hfirst : first ≤ n)
    (hD : n / 1024 ≤ D) (hT : t.table pgdir (n / 1024) = none) (hfree : t.free = []) {hi : ℕ}
    (hhi : n / 1024 < hi) : s.free.length < missing s pgdir (first / 1024) hi := by
  obtain rfl : D = n / 1024 := by
    by_contra hne
    exact h.visited (n / 1024) (by omega) (by omega) hT
  have hs : s.table pgdir (n / 1024) = none := (h.unvisited _ (.inr le_rfl)).symm.trans hT
  have hlen := congrArg List.length h.free
  rw [hfree, List.length_drop, List.length_nil] at hlen
  calc s.free.length ≤ missing s pgdir (first / 1024) (n / 1024) := by omega
    _ < missing s pgdir (first / 1024) (n / 1024 + 1) := by
      rw [missing_succ (by omega), if_pos hs]
      omega
    _ ≤ missing s pgdir (first / 1024) hi := missing_mono (by omega)

/-- The entry of the page `n` is written. -/
theorem Going.store (h : Going s pgdir first n (n / 1024 + 1) pa perm t) (hfirst : first ≤ n)
    (hn : n < 2 ^ 20) (hT : t.table pgdir (n / 1024) = some T) :
    Going s pgdir first (n + 1) (n / 1024 + 1) pa perm
      (t.store (T, n % 1024) (pa + addr (n - first) ||| perm ||| PTE_P)) := by
  have hdir : T ≠ pgdir := fun heq => h.tree.ne_dir _ (by omega) (heq ▸ hT)
  constructor
  case toMapped =>
    refine ⟨fun m hm => ?_, fun i T' hi => ?_, fun x hxdir hxtable hxfree => ?_⟩
    · rw [Machine.pte?_store h.tree hn hm hT (or_present _), h.pte m hm]
      by_cases hmn : m = n
      · rw [if_pos hmn, if_pos (by omega), hmn]
      · rw [if_neg hmn]
        exact if_congr (by omega) rfl rfl
    · rw [Machine.table_store hdir]
      exact h.tables i T' hi
    · have hne : x ≠ T := fun heq => by
        rcases h.source _ T hT with hs | hfree
        · exact hxtable _ (by omega) (heq ▸ hs)
        · exact hxfree (heq ▸ hfree)
      rw [Machine.page_store_of_ne hne]
      exact h.rest x hxdir hxtable hxfree
  case tree => exact h.tree.store hdir
  case fresh =>
    refine { h.fresh with ne_table := fun x hx i hi => ?_ }
    rw [Machine.table_store hdir]
    exact h.fresh.ne_table x hx i hi
  case source =>
    intro i T'
    rw [Machine.table_store hdir]
    exact h.source i T'
  case visited =>
    intro i
    rw [Machine.table_store hdir]
    exact h.visited i
  case unvisited =>
    intro i
    rw [Machine.table_store hdir]
    exact h.unvisited i
  case free => exact h.free
  case enough => exact h.enough

/-! ## The loop -/

theorem stable_mapLoop (a pa : UInt32) (t : Machine) :
    Stable fun k => mapLoop pgdir last perm k a pa t := by
  refine stable_of_succ fun k x h => ?_
  induction k generalizing a pa t with
  | zero => cases h
  | succ k ih =>
    rw [mapLoop] at h ⊢
    split at h
    next t' hwalk => exact h
    next pte t' hwalk =>
      dsimp only at h ⊢
      split_ifs at h ⊢
      · exact h
      · exact h
      · exact ih _ _ _ h

/-- What `mappages` of the pages from `first` to `stop` leaves. -/
def Outcome (s : Machine) (pgdir : UInt32) (first stop : ℕ) (pa perm : UInt32) (r : Int32)
    (t : Machine) : Prop :=
  (missing s pgdir (first / 1024) (stop / 1024 + 1) ≤ s.free.length ∧ r = 0 ∧
    Mapped s pgdir first (stop + 1) pa perm t) ∨
  (s.free.length < missing s pgdir (first / 1024) (stop / 1024 + 1) ∧ r = -1 ∧
    ∃ n, first ≤ n ∧ n ≤ stop ∧ Mapped s pgdir first n pa perm t)

theorem addr_inj (hm : m < 2 ^ 20) (hn : n < 2 ^ 20) : addr m = addr n ↔ m = n := by
  rw [← UInt32.toNat_inj, toNat_addr hm, toNat_addr hn]
  omega

theorem mapLoop_eq {stop : ℕ} (hstop : stop < 2 ^ 20)
    (hnone : ∀ m, first ≤ m → m ≤ stop → s.pte? pgdir m = none)
    (h : Going s pgdir first n D pa perm t) (hfirst : first ≤ n) (hn : n ≤ stop)
    (hD : n / 1024 ≤ D) (hD' : D ≤ n / 1024 + 1) (hk : stop - n < k) :
    ∃ r s', mapLoop pgdir (addr stop) perm k (addr n) (pa + addr (n - first)) t =
      some (.ok (r, s')) ∧ Outcome s pgdir first stop pa perm r s' := by
  induction k generalizing n D t with
  | zero => omega
  | succ k ih =>
    rw [mapLoop]
    -- With a page table for the page, its entry is written, and the loop goes on or ends.
    have hwritten : ∀ T t', Going s pgdir first n (n / 1024 + 1) pa perm t' →
        t'.table pgdir (n / 1024) = some T → ∃ r s',
          (if t'.load (T, n % 1024) &&& PTE_P ≠ 0 then some (.error "remap")
            else if addr n = addr stop then
              some (.ok (0, t'.store (T, n % 1024) (pa + addr (n - first) ||| perm ||| PTE_P)))
            else mapLoop pgdir (addr stop) perm k (addr n + PGSIZE) (pa + addr (n - first) + PGSIZE)
              (t'.store (T, n % 1024) (pa + addr (n - first) ||| perm ||| PTE_P))) =
            some (.ok (r, s')) ∧ Outcome s pgdir first stop pa perm r s' := by
      intro T t' h' hT
      have hstored := h'.store hfirst (by omega) hT
      have hpte := h'.pte n (by omega)
      rw [if_neg (by omega), hnone n hfirst hn, Machine.pte?_of_table hT] at hpte
      have habsent : ¬t'.load (T, n % 1024) &&& PTE_P ≠ 0 := fun hp => by
        rw [Machine.load] at hp
        rw [if_pos hp] at hpte
        cases hpte
      rw [if_neg habsent]
      by_cases hlast : n = stop
      · rw [if_pos (by rw [hlast])]
        subst hlast
        exact ⟨0, _, rfl, .inl ⟨h'.enough, rfl, hstored.toMapped⟩⟩
      · rw [if_neg ((addr_inj (by omega) hstop).not.2 hlast), UInt32.add_assoc]
        have hpa : addr (n - first) + PGSIZE = addr (n + 1 - first) := by
          rw [show n + 1 - first = n - first + 1 by omega]
          exact addr_succ _
        rw [hpa, show addr n + PGSIZE = addr (n + 1) from addr_succ n]
        exact ih hstored (by omega) (by omega) (by omega) (by omega) (by omega)
    cases hT : t.table pgdir (n / 1024) with
    | some T =>
      rw [Machine.walkpgdir_of_table hT (by omega)]
      exact hwritten T t (h.found hfirst hD hD' hT) hT
    | none =>
      cases hfree : t.free with
      | nil =>
        rw [Machine.walkpgdir_full (by omega) hT hfree]
        refine ⟨-1, t, rfl, .inr ⟨?_, rfl, n, hfirst, hn, h.toMapped⟩⟩
        exact h.free_lt_missing hfirst hD hT hfree (by omega)
      | cons v l =>
        have hmem : v ∈ t.free := hfree ▸ List.mem_cons_self
        rw [Machine.walkpgdir_alloc (by omega) hT hfree (h.fresh.ne_zero v hmem)]
        refine hwritten v _ (h.added hfirst hD hD' hT hfree) ?_
        rw [Machine.table_addTable (h.fresh.aligned v hmem) (h.fresh.ne_dir v hmem), if_pos rfl]

/-- Every page of the range is mapped, if there are enough free pages for the page tables that are
    missing; else those before the page that would need one are. The entries have the addresses from
    `pa` on and the flags. -/
theorem mappages_exact (s : Machine) (pgdir va size pa perm : UInt32) (htree : s.Tree pgdir)
    (hfresh : Fresh s pgdir) (hsize : 1 ≤ size.toNat) (hwrap : va.toNat + size.toNat - 1 < 2 ^ 32)
    (hpa : pa.toNat % 4096 = 0) (hperm : perm.toNat < 4096)
    (hnone : ∀ n, va.toNat / 4096 ≤ n → n ≤ (va.toNat + size.toNat - 1) / 4096 →
      s.pte? pgdir n = none) :
    ∃ r s', (∃ k₀, ∀ k ≥ k₀, mappages s pgdir va size pa perm k = some (.ok (r, s'))) ∧
      Outcome s pgdir (va.toNat / 4096) ((va.toNat + size.toNat - 1) / 4096) pa perm r s' ∧
      ∀ j, PTE_ADDR (pa + addr j ||| perm ||| PTE_P) = pa + addr j ∧
        PTE_FLAGS (pa + addr j ||| perm ||| PTE_P) = perm ||| PTE_P := by
  have hva := va.toNat_lt
  have hlast : (va + size - 1).toNat = va.toNat + size.toNat - 1 := by
    rw [UInt32.toNat_sub, UInt32.toNat_add, UInt32.toNat_one]
    omega
  have hdown : ∀ a : UInt32, pgRoundDown a = addr (a.toNat / 4096) := fun a => by
    have ha := a.toNat_lt
    rw [← UInt32.toNat_inj, toNat_pgRoundDown, toNat_addr (by omega)]
  have hgoing : Going s pgdir (va.toNat / 4096) _ _ pa perm s := going_refl htree hfresh
  have hstop : (va.toNat + size.toNat - 1) / 4096 < 2 ^ 20 := by omega
  obtain ⟨r, s', hloop, hout⟩ := mapLoop_eq
    (k := (va.toNat + size.toNat - 1) / 4096 - va.toNat / 4096 + 1) hstop hnone hgoing le_rfl
    (by omega) le_rfl (by omega) (by omega)
  rw [Nat.sub_self, show pa + addr 0 = pa from UInt32.add_zero pa] at hloop
  refine ⟨r, s', ⟨(va.toNat + size.toNat - 1) / 4096 - va.toNat / 4096 + 1, fun k hk => ?_⟩, hout,
    fun j => ?_⟩
  · rw [mappages, hdown, hdown, hlast]
    exact stable_mapLoop _ _ _ hk hloop
  · have haligned : (pa + addr j).toNat % 4096 = 0 := by
      rw [UInt32.toNat_add, addr, UInt32.toNat_ofNat']
      omega
    have hflags : (perm ||| PTE_P).toNat < 4096 := by
      rw [UInt32.toNat_or]
      exact Nat.or_lt_two_pow (n := 12) hperm (by decide)
    rw [UInt32.or_assoc]
    exact ⟨PTE_ADDR_or haligned hflags, PTE_FLAGS_or haligned hflags⟩

/-- A directory without page tables, and two free pages. -/
def emptyDir : Machine where
  page _ _ := 0
  free := [0x80300000, 0x80301000]

theorem table_emptyDir (i : ℕ) : emptyDir.table 0x80200000 i = none := by
  have hzero : emptyDir.page 0x80200000 i &&& PTE_P = 0 := by
    change (0 : UInt32) &&& PTE_P = 0
    decide
  rw [Machine.table, hzero, if_neg (not_not.2 rfl)]

theorem pte?_emptyDir (n : ℕ) : emptyDir.pte? 0x80200000 n = none := by
  rw [Machine.pte?, table_emptyDir]
  rfl

theorem tree_emptyDir : emptyDir.Tree 0x80200000 where
  ne_dir i _ := by rw [table_emptyDir]; exact nofun
  inj i _ j _ t := by rw [table_emptyDir]; exact nofun

theorem fresh_emptyDir : Fresh emptyDir 0x80200000 where
  nodup := by decide
  aligned := by simp [emptyDir]
  ne_zero := by simp [emptyDir]
  ne_dir := by simp [emptyDir]
  ne_table v _ i _ := by rw [table_emptyDir]; exact nofun

/-- The last page of a page table, and all pages of the next one, at the end of the address
    space. -/
theorem mappages_exact_last : ∃ s', (∃ k₀, ∀ k ≥ k₀,
      mappages emptyDir 0x80200000 0xFFBFF000 0x401000 0xFFBFF000 PTE_W k = some (.ok (0, s'))) ∧
    s'.pte? 0x80200000 0xFFBFF = some 0xFFBFF003 ∧ s'.pte? 0x80200000 0xFFC00 = some 0xFFC00003 ∧
    s'.pte? 0x80200000 0xFFFFF = some 0xFFFFF003 ∧ s'.pte? 0x80200000 0xFFBFE = none := by
  obtain ⟨r, s', hk, hout, -⟩ := mappages_exact emptyDir 0x80200000 0xFFBFF000 0x401000 0xFFBFF000
    PTE_W tree_emptyDir fresh_emptyDir (by decide) (by decide) (by decide) (by decide)
    (fun n _ _ => pte?_emptyDir n)
  obtain ⟨-, rfl, hmapped⟩ | ⟨hlt, -⟩ := hout
  · have hin (n : ℕ) (hn : n < 2 ^ 20) (hlo : 0xFFBFF ≤ n) : s'.pte? 0x80200000 n = _ :=
      (hmapped.pte n hn).trans (if_pos ⟨hlo, by
        change n < (0xFFBFF000 + 0x401000 - 1) / 4096 + 1
        omega⟩)
    refine ⟨s', hk, ?_, ?_, ?_, ?_⟩
    · exact (hin 0xFFBFF (by decide) (by decide)).trans (by decide)
    · exact (hin 0xFFC00 (by decide) (by decide)).trans (by decide)
    · exact (hin 0xFFFFF (by decide) (by decide)).trans (by decide)
    · exact (hmapped.pte 0xFFBFE (by decide)).trans ((if_neg (by decide)).trans (pte?_emptyDir _))
  · exact absurd hlt (by decide)

end Xv6.Mmu
