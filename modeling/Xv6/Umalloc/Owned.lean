import Mathlib.Tactic.Tauto
import Xv6.Umalloc.FreeList

/-!
# Allocated blocks

The memory that `sbrk` has given to the program is in free blocks and in allocated ones, and no two
of these overlap (`Owned`). A block that is freed goes back to the free ones (`Owned.free`),
`malloc` takes a block from them or asks for more memory (`Owned.search`), and nothing else touches
an allocated block. The loops end: there are bounds with which the functions have a result, and with
larger bounds they have the same (`Heap.search_mono`).
-/

namespace Xv6.Umalloc

open Extent

variable {base : ℕ} {h h' : Heap} {F F' live : List Extent} {b e : Extent} {bp j k n p q : ℕ}
  {sbrk : Sbrk} {r : Heap × ℕ}

/-- The memory is in the free blocks `F` and in those of `live`. -/
structure Owned (base : ℕ) (h : Heap) (live F : List Extent) : Prop where
  base_pos : 0 < base
  base_le : base + 8 ≤ h.brk
  brk_lt : h.brk < 2 ^ 32
  free : Free base h F
  inHeap : ∀ e ∈ live, InHeap base h.brk e
  size : ∀ e ∈ live, 8 * h.size e.start = e.len
  disjoint : live.Pairwise Extent.Disjoint
  apart : ∀ x, Covers live x → ¬Covers F x
  covers : ∀ x, Covers h.regions x ↔ Covers F x ∨ Covers live x

/-! ## Freeing -/

theorem Owned.ne_base (ho : Owned base h live F) {x : ℕ} (hx : Covers live x) : x ≠ base := by
  obtain ⟨e, he, hxe⟩ := hx
  have hle := (ho.inHeap e he).base
  rw [mem_def] at hxe
  omega

theorem Owned.freep_ne (ho : Owned base h live F) : h.freep ≠ 0 := by
  obtain ⟨e, he, hfreep⟩ := List.mem_map.1 ho.free.freep
  have hle := ho.free.base_le he
  have hpos := ho.base_pos
  omega

theorem InHeap.mem_start {brk : ℕ} (he : InHeap base brk e) : e.start ∈ e :=
  ⟨Nat.le_refl _, Nat.lt_add_of_pos_right he.pos⟩

theorem Owned.covers_start (ho : Owned base h live F) (he : e ∈ live) : Covers live e.start :=
  ⟨e, he, (ho.inHeap e he).mem_start⟩

/-- The blocks that stay allocated are not touched. -/
theorem Owned.size_of_mem (ho : Owned base h live F)
    (hmem : ∀ x, Covers live x → h'.mem x = h.mem x) (he : e ∈ live) :
    8 * h'.size e.start = e.len := by
  rw [Heap.size, hmem _ (ho.covers_start he)]
  exact ho.size e he

theorem Heap.mem_link_of_ne {x : ℕ} (hbp : x ≠ bp) (hp : x ≠ p) : (h.link bp p).mem x = h.mem x :=
  (Heap.mem_coalesce_of_ne hp).trans (Heap.mem_coalesce_of_ne hbp)

@[simp] theorem Heap.brk_link : (h.link bp p).brk = h.brk := by simp [Heap.link]

@[simp] theorem Heap.regions_coalesce : (h.coalesce p q).regions = h.regions := by
  rw [Heap.coalesce]
  split_ifs <;> rfl

@[simp] theorem Heap.regions_link : (h.link bp p).regions = h.regions := by simp [Heap.link]

/-- What `free` does to an allocated block. -/
structure Freed (base : ℕ) (h h' : Heap) (live F' : List Extent) (b : Extent) : Prop where
  owned : Owned base h' live F'
  fits : ∃ e ∈ F', b.len ≤ e.len
  mem : ∀ x, Covers live x → h'.mem x = h.mem x

theorem Owned.free_block (ho : Owned base h (b :: live) F) :
    ∃ p F', (∃ k, h.seek b.start k h.freep = some p) ∧
      Freed base h (h.link b.start p) live F' b := by
  have hb := ho.inHeap b List.mem_cons_self
  have hF := ho.free
  have hbF : ∀ x ∈ b, ¬Covers F x := fun x hx => ho.apart x (covers_cons.2 (.inl hx))
  obtain ⟨l₁, e, l₂, rfl, hlt, hstop, hl₂⟩ := exists_place hb.pos hbF
    ⟨_, hF.base_mem, Nat.lt_of_lt_of_le (Nat.lt_add_of_pos_right (by decide)) hb.base⟩
    fun e he hle => (hF.inHeap e he (by have := hb.base; omega)).pos
  refine ⟨e.start, l₁ ++ join e (join b l₂), ?_, ?_⟩
  · have hfreep := hF.freep
    have hsorted := hF.sorted
    have hlinked := hF.linked_base
    rw [List.map_append, List.map_cons] at hfreep hsorted hlinked
    refine Heap.exists_seek hlinked hsorted (hF.base_le (by simp)) hlt (fun y hy => ?_) hfreep
    obtain ⟨a, ha, rfl⟩ := List.mem_map.1 hy
    exact (Nat.lt_add_of_pos_right hb.pos).trans_le (hl₂ a ha)
  · obtain ⟨hbl, hdisj⟩ := List.pairwise_cons.1 ho.disjoint
    have hcov (x : ℕ) : Covers (l₁ ++ join e (join b l₂)) x ↔ Covers (l₁ ++ e :: l₂) x ∨ x ∈ b := by
      simp only [covers_append, covers_join, covers_cons]
      tauto
    have hnotb {x : ℕ} (hx : Covers live x) : x ∉ b := by
      obtain ⟨c, hc, hxc⟩ := hx
      exact fun hxb => hbl c hc x hxb hxc
    have hlive {x : ℕ} (hx : Covers live x) : Covers (b :: live) x := covers_cons.2 (.inr hx)
    have hmem (x : ℕ) (hx : Covers live x) : (h.link b.start e.start).mem x = h.mem x := by
      refine Heap.mem_link_of_ne ?_ ?_
      · rintro rfl
        exact hnotb hx hb.mem_start
      · rintro rfl
        by_cases heq : e.start = base
        · exact ho.ne_base (hlive hx) heq
        · exact ho.apart _ (hlive hx) (hF.covers_start (by simp) heq)
    refine ⟨⟨ho.base_pos, ?_, ?_, hF.link ho.brk_lt hb (ho.size b List.mem_cons_self) hstop hl₂, ?_,
      fun c hc => ?_, hdisj, fun x hx hx' => ?_, fun x => ?_⟩, ?_, hmem⟩
    · rw [Heap.brk_link]
      exact ho.base_le
    · rw [Heap.brk_link]
      exact ho.brk_lt
    · rw [Heap.brk_link]
      exact fun c hc => ho.inHeap c (List.mem_cons_of_mem _ hc)
    · rw [Heap.size, hmem _ ⟨c, hc, (ho.inHeap c (List.mem_cons_of_mem _ hc)).mem_start⟩]
      exact ho.size c (List.mem_cons_of_mem _ hc)
    · rcases (hcov x).1 hx' with hx' | hx'
      · exact ho.apart x (hlive hx) hx'
      · exact hnotb hx hx'
    · rw [Heap.regions_link, ho.covers, hcov, covers_cons]
      tauto
    · obtain ⟨n, l', hjoin, hle, -⟩ := exists_join b l₂
      obtain ⟨c, hc, hlen⟩ := exists_le_of_mem_join (a := e) (l := join b l₂) (e := ⟨b.start, n⟩)
        (by rw [hjoin]; exact List.mem_cons_self)
      exact ⟨c, List.mem_append_right _ hc, hle.trans hlen⟩

/-! ## More memory -/

/-- A new region is like a block that is allocated. -/
theorem Owned.region (ho : Owned base h live F) (hn : 0 < n) (hp : 8 ∣ p) (hbrk : h.brk ≤ p)
    (hlt : p + 8 * n < 2 ^ 32) :
    Owned base (({ h with brk := p + 8 * n, regions := ⟨p, 8 * n⟩ :: h.regions } : Heap).setSize p
      n)
      (⟨p, 8 * n⟩ :: live) F := by
  have hle : h.brk ≤ p + 8 * n := hbrk.trans (Nat.le_add_right _ _)
  have hin {e : Extent} (he : InHeap base h.brk e) : InHeap base (p + 8 * n) e :=
    ⟨he.base, he.aligned, he.pos, he.le_brk.trans hle⟩
  have hbelow {e : Extent} (he : InHeap base h.brk e) {x : ℕ} (hx : x ∈ e) : x < p :=
    hx.2.trans_le (he.le_brk.trans hbrk)
  have hfree {x : ℕ} (hx : Covers F x) : x < p := by
    obtain ⟨e, he, hxe⟩ := hx
    exact hbelow (ho.free.inHeap_of_mem he hxe) hxe
  have hlive {x : ℕ} (hx : Covers live x) : x < p := by
    obtain ⟨e, he, hxe⟩ := hx
    exact hbelow (ho.inHeap e he) hxe
  have hstart {e : Extent} (he : e ∈ F) : e.start ≠ p := by
    by_cases hbase : e.start = base
    · have hle := ho.base_le
      omega
    · exact (hfree (ho.free.covers_start he hbase)).ne
  refine ⟨ho.base_pos, ho.base_le.trans hle, hlt, ⟨ho.free.head, ?_, ho.free.apart,
    fun e he hbase => hin (ho.free.inHeap e he hbase), ho.free.freep⟩, ?_, ?_, ?_, ?_, ?_⟩
  · exact ho.free.linked.frame fun e he => Heap.mem_setSize_of_ne (hstart he)
  · refine List.forall_mem_cons.2 ⟨⟨ho.base_le.trans hbrk, hp, ?_, ?_⟩, fun e he =>
      hin (ho.inHeap e he)⟩
    · exact Nat.mul_pos (by decide) hn
    · exact Nat.le_refl _
  · refine List.forall_mem_cons.2 ⟨?_, fun e he => ho.size_of_mem (fun x hx => ?_) he⟩
    · simp [Heap.size_setSize]
    · exact Heap.mem_setSize_of_ne (hlive hx).ne
  · refine List.pairwise_cons.2 ⟨fun e he x hx hxe => ?_, ho.disjoint⟩
    have hxp := hlive ⟨e, he, hxe⟩
    exact hxp.not_ge hx.1
  · intro x hx hxF
    rcases covers_cons.1 hx with hx | hx
    · exact (hfree hxF).not_ge hx.1
    · exact ho.apart x hx hxF
  · intro x
    change Covers (⟨p, 8 * n⟩ :: h.regions) x ↔ _
    rw [covers_cons, covers_cons, ho.covers]
    tauto

/-- As many bytes as the units have, and some. -/
def Call.Grows (c : Call) : Prop := 0 < c.n ∧ c.n.toInt = 8 * c.units

instance (c : Call) : Decidable c.Grows := inferInstanceAs (Decidable (_ ∧ _))

theorem toInt_toInt32 (n : ℕ) : (UInt32.ofNat n).toInt32.toInt = (n : ℤ).bmod (2 ^ 32) :=
  BitVec.toInt_ofNat ..

theorem toInt_of_lt (hn : n < 2 ^ 31) : (UInt32.ofNat n).toInt32.toInt = n := by
  rw [toInt_toInt32, Int.bmod_def]
  omega

/-- The units of the call. -/
theorem more_lt (hn : 8 * n < 2 ^ 31) : 8 * more n < 2 ^ 31 := by
  rw [more]
  split_ifs <;> omega

theorem more_pos : 0 < more n := by
  rw [more]
  split_ifs <;> omega

theorem grows_more (hn : 8 * n < 2 ^ 31) : (moreCall n).Grows := by
  have hlt := more_lt hn
  have hpos : 0 < more n := more_pos
  have hint : (moreCall n).n.toInt = ↑(more n * 8) := toInt_of_lt (by omega)
  refine ⟨?_, ?_⟩
  · rw [Int32.lt_iff_toInt_lt, hint]
    change (0 : ℤ) < _
    omega
  · rw [hint]
    change _ = 8 * (more n : ℤ)
    omega

/-- When `sbrk` gives a region, there is a free block that is large enough afterwards. -/
theorem Owned.morecore (ho : Owned base h live F) (hn : 8 * n < 2 ^ 31) (sbrk : Sbrk) :
    (∀ k, h.morecore sbrk k n = some (h, 0)) ∨
      ∃ h' F', (∃ k, h.morecore sbrk k n = some (h', h'.freep)) ∧ Owned base h' live F' ∧
        (∃ e ∈ F', 8 * n ≤ e.len) ∧ ∀ x, Covers live x → h'.mem x = h.mem x := by
  have hle : n ≤ more n ∧ 4096 ≤ more n ∧ more n < 2 ^ 29 := by
    rw [more]
    split_ifs <;> omega
  -- the argument of `sbrk` is not negative
  obtain ⟨hpos, hint⟩ := grows_more hn
  have hnat : (moreCall n).n.toNatClampNeg = 8 * more n := by
    rw [Int32.toNatClampNeg, hint]
    exact Int.toNat_natCast _
  have hcall : sbrk.call h.brk (moreCall n).n =
      (sbrk.ask h.brk (8 * more n)).map fun p => (p, p + 8 * more n) := by
    rw [Sbrk.call, if_pos hpos, hnat]
  have heq (k : ℕ) : h.morecore sbrk k n = (sbrk.ask h.brk (8 * more n)).elim (some (h, 0)) fun p =>
      (({ h with brk := p + 8 * more n, regions := ⟨p, 8 * more n⟩ :: h.regions } :
          Heap).setSize p (more n)).free k (add p 1) |>.map fun h => (h, h.freep) := by
    rw [Heap.morecore]
    dsimp only
    rw [hcall, hnat]
    cases sbrk.ask h.brk (8 * more n) <;> rfl
  cases hask : sbrk.ask h.brk (8 * more n) with
  | none => exact .inl fun k => by rw [heq, hask, Option.elim_none]
  | some p =>
    obtain ⟨hdvd, hbrk, hlt⟩ := sbrk.fresh hask
    have hadd : add p 1 - 8 = p := by
      rw [add_of_lt (by omega)]
      omega
    have hreg := ho.region (n := more n) (by omega) hdvd hbrk hlt
    obtain ⟨q, F', ⟨k, hk⟩, hfreed⟩ := hreg.free_block
    refine .inr ⟨_, F', ⟨k, ?_⟩, hfreed.owned, ?_, fun x hx => ?_⟩
    · rw [heq, hask, Option.elim_some]
      simp only [Heap.free, hadd, hk, Option.map_some]
    · obtain ⟨e, he, hlen⟩ := hfreed.fits
      exact ⟨e, he, le_trans (Nat.mul_le_mul_left 8 hle.1) hlen⟩
    · rw [hfreed.mem x hx]
      obtain ⟨e, he, hxe⟩ := hx
      have hxp : x < p := hxe.2.trans_le ((ho.inHeap e he).le_brk.trans hbrk)
      exact Heap.mem_setSize_of_ne hxp.ne

/-! ## The loop of `malloc` -/

namespace Heap

theorem free_mono {ap : ℕ} (hk : h.free k ap = some h') (hj : k ≤ j) : h.free j ap = some h' := by
  obtain ⟨p, hp, rfl⟩ := Option.map_eq_some_iff.1 hk
  exact Option.map_eq_some_iff.2 ⟨p, seek_mono hp hj, rfl⟩

theorem morecore_mono (hk : h.morecore sbrk k n = some r) (hj : k ≤ j) :
    h.morecore sbrk j n = some r := by
  rw [morecore] at hk ⊢
  dsimp only at hk ⊢
  split at hk
  · exact hk
  · obtain ⟨h', hfree, rfl⟩ := Option.map_eq_some_iff.1 hk
    exact Option.map_eq_some_iff.2 ⟨h', free_mono hfree hj, rfl⟩

/-- A round of the loop. -/
theorem search_succ : h.search sbrk n (k + 1) p q =
    if n ≤ h.size q then some (h.take n p q)
    else if q = h.freep then (h.morecore sbrk k n).bind fun r =>
      if r.2 = 0 then some (r.1, 0) else r.1.search sbrk n k r.2 (r.1.ptr r.2)
    else h.search sbrk n k q (h.ptr q) := by
  rw [search, searchAny]
  split_ifs
  · rfl
  · cases h.morecore sbrk k n with
    | none => rfl
    | some r =>
      dsimp only [Option.bind_some]
      split_ifs <;> rfl
  · rfl

theorem search_mono (hk : h.search sbrk n k p q = some r) (hj : k ≤ j) :
    h.search sbrk n j p q = some r := by
  induction k generalizing h j p q with
  | zero => cases hk
  | succ k ih =>
    obtain ⟨j, rfl⟩ := Nat.exists_eq_add_of_le' (Nat.le_trans (Nat.succ_pos k) hj)
    have hj := Nat.le_of_succ_le_succ hj
    rw [search_succ] at hk ⊢
    split_ifs at hk ⊢
    · exact hk
    · obtain ⟨⟨h', p'⟩, hmore, hk⟩ := Option.bind_eq_some_iff.1 hk
      refine Option.bind_eq_some_iff.2 ⟨_, morecore_mono hmore hj, ?_⟩
      dsimp only at hk ⊢
      split_ifs at hk ⊢
      · exact hk
      · exact ih hk hj
    · exact ih hk hj

/-- The loop passes blocks that are too small, up to `freep`. -/
theorem search_skip {xs : List ℕ} {x : ℕ} (hl : Linked h.ptr q xs x)
    (hxs : ∀ y ∈ xs, h.size y < n ∧ y ≠ h.freep) :
    h.search sbrk n (xs.length + k) p q = h.search sbrk n k (xs.getLastD p) x := by
  induction xs generalizing p q with
  | nil => rw [linked_nil.1 hl, List.length_nil, Nat.zero_add, List.getLastD_nil]
  | cons y xs ih =>
    obtain ⟨rfl, hl⟩ := linked_cons.1 hl
    obtain ⟨hsize, hne⟩ := hxs q List.mem_cons_self
    rw [List.length_cons, Nat.add_right_comm, search_succ, if_neg hsize.not_ge, if_neg hne,
      List.getLastD_cons]
    exact ih hl fun z hz => hxs z (List.mem_cons_of_mem _ hz)

end Heap

/-- The blocks in the order of the loop, which starts behind `freep` and ends there. -/
theorem Free.exists_round (hF : Free base h F) :
    ∃ xs, Linked h.ptr (h.ptr h.freep) xs h.freep ∧ h.freep ∉ xs ∧
      ∀ x, x ∈ F.map start ↔ x ∈ xs ∨ x = h.freep := by
  obtain ⟨xs, ys, heq⟩ := List.append_of_mem hF.freep
  have hlinked := hF.linked_base
  have hsorted := hF.sorted
  rw [heq] at hlinked hsorted ⊢
  obtain ⟨c, hxs, hl⟩ := linked_append.1 hlinked
  obtain ⟨rfl, hys⟩ := linked_cons.1 hl
  refine ⟨ys ++ xs, linked_append.2 ⟨base, hys, hxs⟩, fun hmem => ?_, fun x => ?_⟩
  · obtain ⟨-, hsorted₂, hsorted₁⟩ := List.pairwise_append.1 hsorted
    rcases List.mem_append.1 hmem with hmem | hmem
    · exact absurd ((List.pairwise_cons.1 hsorted₂).1 _ hmem) (lt_irrefl _)
    · exact absurd (hsorted₁ _ hmem _ List.mem_cons_self) (lt_irrefl _)
  · simp only [List.mem_append, List.mem_cons]
    tauto

/-- A block that is large enough is found, and the block before it. -/
theorem Free.search_fit (hF : Free base h F) (hn : 0 < n) (hfit : ∃ e ∈ F, 8 * n ≤ e.len)
    (sbrk : Sbrk) :
    ∃ l₁ a e l₂ k, F = l₁ ++ a :: e :: l₂ ∧ n ≤ h.size e.start ∧
      h.search sbrk n k h.freep (h.ptr h.freep) = some (h.take n a.start e.start) := by
  obtain ⟨xs, hxs, hfreep, hmem⟩ := hF.exists_round
  have hround : Linked h.ptr (h.ptr h.freep) (xs ++ [h.freep]) (h.ptr h.freep) :=
    linked_append.2 ⟨_, hxs, rfl, rfl⟩
  -- the first block of the round that is large enough
  obtain ⟨y, hy⟩ : ∃ y, (xs ++ [h.freep]).find? (fun y => n ≤ h.size y) = some y := by
    obtain ⟨e, he, hlen⟩ := hfit
    refine Option.isSome_iff_exists.1 (List.find?_isSome.2 ⟨e.start, ?_, ?_⟩)
    · simpa using (hmem e.start).1 (List.mem_map_of_mem he)
    · have hsize := hF.linked.size e he
      exact decide_eq_true (by omega)
  obtain ⟨hle, us, vs, heq, hus⟩ := List.find?_eq_some_iff_append.1 hy
  have hle : n ≤ h.size y := of_decide_eq_true hle
  rw [heq] at hround
  obtain ⟨c, hlinked, hc⟩ := linked_append.1 hround
  obtain rfl := (linked_cons.1 hc).1
  have hpre : us <+: xs := by
    refine List.prefix_of_prefix_length_le ⟨_, heq.symm⟩ (List.prefix_append _ _) ?_
    have hlen := congrArg List.length heq
    simp only [List.length_append, List.length_cons, List.length_nil] at hlen
    omega
  have hskip : ∀ x ∈ us, h.size x < n ∧ x ≠ h.freep := fun x hx => by
    refine ⟨?_, fun hxf => hfreep (hxf ▸ hpre.subset hx)⟩
    simpa using hus x hx
  have hsearch : h.search sbrk n (us.length + 1) h.freep (h.ptr h.freep) =
      some (h.take n (us.getLastD h.freep) c) := by
    rw [Heap.search_skip hlinked hskip, Heap.search_succ, if_pos hle]
  -- the block before it
  have hprev : us.getLastD h.freep ∈ F.map start ∧ h.ptr (us.getLastD h.freep) = c := by
    obtain rfl | ⟨us, z, rfl⟩ := us.eq_nil_or_concat'
    · exact ⟨hF.freep, hlinked⟩
    · rw [List.getLastD_concat]
      obtain ⟨d, -, hd⟩ := linked_append.1 hlinked
      obtain ⟨rfl, hd⟩ := linked_cons.1 hd
      exact ⟨(hmem d).2 (.inl (hpre.subset (by simp))), hd⟩
  obtain ⟨hprev, hptr⟩ := hprev
  obtain ⟨a, ha, hprev⟩ := List.mem_map.1 hprev
  rw [← hprev] at hsearch hptr
  obtain ⟨l₁, m, rfl⟩ := List.append_of_mem ha
  have hseg : Segment base h (a :: m) := hF.linked.suffix
  rw [hseg.ptr_eq] at hptr
  cases m with
  | nil =>
    have hptr : base = c := hptr
    rw [← hptr, hF.size_base] at hle
    exact absurd hle hn.not_ge
  | cons e l₂ =>
    obtain rfl : e.start = c := hptr
    exact ⟨l₁, a, e, l₂, us.length + 1, rfl, hle, hsearch⟩

/-- When there is no such block, the loop asks for more memory at `freep`. -/
theorem Free.search_more (hF : Free base h F) (hfit : ∀ e ∈ F, e.len < 8 * n) (sbrk : Sbrk) :
    ∃ j, ∀ k, h.search sbrk n (j + (k + 1)) h.freep (h.ptr h.freep) =
      (h.morecore sbrk k n).bind fun r =>
        if r.2 = 0 then some (r.1, 0) else r.1.search sbrk n k r.2 (r.1.ptr r.2) := by
  obtain ⟨xs, hxs, hfreep, hmem⟩ := hF.exists_round
  have hsize : ∀ x ∈ F.map start, h.size x < n := by
    intro x hx
    obtain ⟨e, he, rfl⟩ := List.mem_map.1 hx
    have hlen := hfit e he
    rw [← hF.linked.size e he] at hlen
    omega
  refine ⟨xs.length, fun k => ?_⟩
  rw [Heap.search_skip hxs fun x hx => ⟨hsize x ((hmem x).2 (.inl hx)), fun hxf =>
    hfreep (hxf ▸ hx)⟩,
    Heap.search_succ, if_neg (hsize _ hF.freep).not_ge, if_pos rfl]

/-- What `malloc` returns. -/
structure Outcome (base : ℕ) (h : Heap) (live : List Extent) (n : ℕ) (r : Heap × ℕ) : Prop where
  mem : ∀ x, Covers live x → r.1.mem x = h.mem x
  owned : (r.2 = 0 ∧ ∃ F', Owned base r.1 live F') ∨
    ∃ b F', r.2 = b.start + 8 ∧ b.len = 8 * n ∧ Owned base r.1 (b :: live) F'

/-- A block is taken from the free ones. -/
theorem Owned.carve (ho : Owned base h live F) (hc : Carved base h h' F F' b) :
    Owned base h' (b :: live) F' := by
  have hb {x : ℕ} (hx : x ∈ b) : Covers F x := (hc.covers x).2 (.inr hx)
  have hmem (x : ℕ) (hx : Covers live x) : h'.mem x = h.mem x :=
    hc.mem x (ho.ne_base hx) (ho.apart x hx)
  refine ⟨ho.base_pos, hc.brk ▸ ho.base_le, hc.brk ▸ ho.brk_lt, hc.free, ?_, ?_, ?_, ?_, ?_⟩
  · rw [hc.brk]
    exact List.forall_mem_cons.2 ⟨hc.inHeap, ho.inHeap⟩
  · exact List.forall_mem_cons.2 ⟨hc.size, fun e he => ho.size_of_mem hmem he⟩
  · exact List.pairwise_cons.2
      ⟨fun e he x hx hxe => ho.apart x ⟨e, he, hxe⟩ (hb hx), ho.disjoint⟩
  · intro x hx hxF
    rcases covers_cons.1 hx with hx | hx
    · exact hc.disjoint x hx hxF
    · exact ho.apart x hx ((hc.covers x).2 (.inl hxF))
  · intro x
    rw [hc.regions, ho.covers, hc.covers, covers_cons]
    tauto

theorem Owned.search_fit (ho : Owned base h live F) (hn : 0 < n)
    (hfit : ∃ e ∈ F, 8 * n ≤ e.len) (sbrk : Sbrk) :
    ∃ k r, h.search sbrk n k h.freep (h.ptr h.freep) = some r ∧ Outcome base h live n r := by
  obtain ⟨l₁, a, e, l₂, k, rfl, hle, hk⟩ := ho.free.search_fit hn hfit sbrk
  obtain ⟨b, F', hr, hlen, hc⟩ := ho.free.take ho.brk_lt hn hle
  refine ⟨k, _, hk, fun x hx => hc.mem x (ho.ne_base hx) (ho.apart x hx), .inr ?_⟩
  exact ⟨b, F', hr, hlen, ho.carve hc⟩

/-- The loop of `malloc` ends. -/
theorem Owned.search (ho : Owned base h live F) (hn : 0 < n) (hlt : 8 * n < 2 ^ 31) (sbrk : Sbrk) :
    ∃ k r, h.search sbrk n k h.freep (h.ptr h.freep) = some r ∧ Outcome base h live n r := by
  by_cases hfit : ∃ e ∈ F, 8 * n ≤ e.len
  · exact ho.search_fit hn hfit sbrk
  · simp only [not_exists, not_and, Nat.not_le] at hfit
    obtain ⟨j, hj⟩ := ho.free.search_more hfit sbrk
    obtain hnone | ⟨h', F', ⟨k, hk⟩, ho', hfit', hmem⟩ := ho.morecore hlt sbrk
    · refine ⟨j + 1, (h, 0), ?_, fun _ _ => rfl, .inl ⟨rfl, F, ho⟩⟩
      rw [hj, hnone]
      rfl
    · obtain ⟨k', r, hk', hr⟩ := ho'.search_fit hn hfit' sbrk
      have hne := ho'.freep_ne
      refine ⟨j + (max k k' + 1), r, ?_, fun x hx => (hr.mem x hx).trans (hmem x hx), hr.owned⟩
      rw [hj, Heap.morecore_mono hk (le_max_left ..)]
      exact (if_neg hne).trans (Heap.search_mono hk' (le_max_right ..))

end Xv6.Umalloc
