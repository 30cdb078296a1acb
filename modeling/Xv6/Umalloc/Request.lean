import Xv6.Umalloc.Safe

/-!
# Requests of any size

`malloc` for every 32-bit size. The units of a request are turned into bytes again for `sbrk`, which
takes an `int`: from `2 ^ 31 - 15` bytes on, it is asked for no memory or to take some back, and the
last sizes before `2 ^ 32` are rounded up to one unit, which is the header alone. So `malloc` does
what it is asked for in every state of the heap if and only if the size is at most `2 ^ 31 - 16`
(`malloc_honours_iff`).
-/

namespace Xv6.Umalloc

/-- The calls of `sbrk` get memory, and the result is 0 or a block of the memory with `nbytes` bytes
    behind its header. -/
structure Honours (nbytes : ℕ) (r : Option (Heap × ℕ) × List Call) : Prop where
  calls : ∀ c ∈ r.2, c.Grows
  result : ∀ h p, r.1 = some (h, p) → p = 0 ∨
    ∃ b : Extent, p = b.start + 8 ∧ 8 * h.size b.start = b.len ∧ nbytes + 8 ≤ b.len ∧ b.stop ≤ h.brk

/-! ## Sizes -/

variable {base : ℕ} {h h' : Heap} {F live : List Extent} {k n p q : ℕ} {sbrk : Sbrk}

theorem units_of_le (hn : n ≤ 2 ^ 31 - 16) : n + 8 ≤ 8 * units n ∧ 8 * units n < 2 ^ 31 := by
  rw [units]
  omega

/-- The argument of `sbrk` is no more an `int`. -/
theorem units_of_gt (hn : 2 ^ 31 - 16 < n) (hlt : n < 2 ^ 32 - 7) :
    2 ^ 31 ≤ 8 * units n ∧ 8 * units n ≤ 2 ^ 32 := by
  rw [units]
  omega

/-- Rounding up wraps around. -/
theorem units_wraps (hn : 2 ^ 32 - 7 ≤ n) (hlt : n < 2 ^ 32) : units n = 1 := by
  rw [units]
  omega

theorem toInt_nonpos (hn : 2 ^ 31 ≤ n) (hlt : n ≤ 2 ^ 32) :
    ¬0 < (UInt32.ofNat n).toInt32 := by
  rw [Int32.lt_iff_toInt_lt, toInt_toInt32, Int.bmod_def]
  change ¬(0 : ℤ) < _
  omega

/-! ## Sizes that are an `int` -/

theorem snd_searchAny (hn : 8 * n < 2 ^ 31) : ∀ c ∈ (h.searchAny sbrk n k p q).2, c.Grows := by
  induction k generalizing h p q with
  | zero => exact fun c hc => absurd hc List.not_mem_nil
  | succ k ih =>
    rw [Heap.searchAny]
    split_ifs
    · exact fun c hc => absurd hc List.not_mem_nil
    · cases h.morecore sbrk k n with
      | none => exact List.forall_mem_singleton.2 (grows_more hn)
      | some r =>
        dsimp only
        split_ifs
        · exact List.forall_mem_singleton.2 (grows_more hn)
        · exact List.forall_mem_cons.2 ⟨grows_more hn, ih⟩
    · exact ih

/-- In every state of the heap, `malloc` ends. -/
theorem Owned.exists_mallocAny (ho : Owned base (h.start base) live F) (hn : n ≤ 2 ^ 31 - 16)
    (sbrk : Sbrk) : ∃ k, (h.mallocAny base sbrk k n).1.isSome := by
  obtain ⟨hle, hlt⟩ := units_of_le hn
  obtain ⟨k, r, hk, -⟩ := ho.search units_pos hlt sbrk
  exact ⟨k, Option.isSome_of_eq_some hk⟩

theorem Owned.honours (ho : Owned base (h.start base) live F) (hn : n ≤ 2 ^ 31 - 16)
    (sbrk : Sbrk) (k : ℕ) : Honours n (h.mallocAny base sbrk k n) := by
  obtain ⟨hle, hlt⟩ := units_of_le hn
  refine ⟨snd_searchAny hlt, fun h' p hr => ?_⟩
  obtain ⟨k', r', hk', hout⟩ := ho.search units_pos hlt sbrk
  have heq := (Heap.search_mono hr (le_max_left k k')).symm.trans
    (Heap.search_mono hk' (le_max_right k k'))
  obtain rfl := Option.some.inj heq
  obtain ⟨h0, -⟩ | ⟨b, F', hb, hlen, ho'⟩ := hout.owned
  · exact .inl h0
  · refine .inr ⟨b, hb, ho'.size b List.mem_cons_self, by omega, ?_⟩
    exact (ho'.inHeap b List.mem_cons_self).le_brk

/-! ## Larger sizes -/

/-- At the end of the list, `sbrk` is called. -/
theorem call_mem (hsize : h.size q < n) (hq : q = h.freep) :
    moreCall n ∈ (h.searchAny sbrk n (k + 1) p q).2 := by
  rw [Heap.searchAny, if_neg (by omega), if_pos hq]
  cases h.morecore sbrk k n with
  | none => exact List.mem_singleton.2 rfl
  | some r =>
    dsimp only
    split_ifs
    · exact List.mem_singleton.2 rfl
    · exact List.mem_cons_self

/-- Before the first call, with a size that is no `int`. -/
theorem not_honours_of_gt (hn : 2 ^ 31 - 16 < n) (hlt : n < 2 ^ 32 - 7) :
    ¬Honours n (fresh.heap.mallocAny 8 grow 1 n) := by
  intro h
  obtain ⟨hge, hle⟩ := units_of_gt hn hlt
  have hmore : more (units n) = units n := if_neg (by omega)
  have hgrows := (h.calls _ (call_mem units_pos rfl)).1
  rw [moreCall, hmore] at hgrows
  exact toInt_nonpos (by omega) (by omega) hgrows

/-- Before the first call, with a size that is rounded up to one unit. -/
theorem not_honours_of_wraps (hn : 2 ^ 32 - 7 ≤ n) (hlt : n < 2 ^ 32) :
    ¬Honours n (fresh.heap.mallocAny 8 grow 8 n) := by
  intro h
  have hresult := h.result
  rw [Heap.mallocAny, units_wraps hn hlt] at hresult
  have hone : ((fresh.heap.start 8).searchAny grow 1 8 (fresh.heap.start 8).freep
      ((fresh.heap.start 8).ptr (fresh.heap.start 8).freep)).1.any
        (fun r => decide (r.2 ≠ 0 ∧ r.1.size (r.2 - 8) = 1)) := by
    decide +kernel
  obtain ⟨⟨h', p⟩, hr, hp⟩ := (Option.any_eq_true _ _).1 hone
  obtain ⟨hne, hsize⟩ := of_decide_eq_true hp
  obtain h0 | ⟨b, hb, hlen, hle, -⟩ := hresult h' p hr
  · exact hne h0
  · dsimp only at hsize
    rw [hb, Nat.add_sub_cancel] at hsize
    omega

/-- The states of the heap that the program can be in: the memory is in the free blocks and in those
    that are allocated. -/
def Valid (base : ℕ) (h : Heap) : Prop := ∃ live F, Owned base (h.start base) live F

theorem valid_fresh : Valid 8 fresh.heap := by
  have hinit : (system 8).init fresh := ⟨by decide, by decide, by decide, rfl, rfl, rfl⟩
  obtain ⟨F, ho⟩ := (inv_of_init hinit).owned
  exact ⟨_, F, ho⟩

/-- In every state of the heap and whatever `sbrk` returns, `malloc` ends, and does what it is asked
    for, if and only if the size is small enough. -/
theorem malloc_honours_iff (nbytes : ℕ) (hlt : nbytes < 2 ^ 32) :
    (∀ base h sbrk, Valid base h → (∃ k, (h.mallocAny base sbrk k nbytes).1.isSome) ∧
      ∀ k, Honours nbytes (h.mallocAny base sbrk k nbytes)) ↔ nbytes ≤ 2 ^ 31 - 16 := by
  constructor
  · intro h
    obtain ⟨-, h⟩ := h 8 fresh.heap grow valid_fresh
    by_contra hgt
    by_cases hwraps : 2 ^ 32 - 7 ≤ nbytes
    · exact not_honours_of_wraps hwraps hlt (h 8)
    · exact not_honours_of_gt (by omega) (by omega) (h 1)
  · rintro hn base h sbrk ⟨live, F, ho⟩
    exact ⟨ho.exists_mallocAny hn sbrk, ho.honours hn sbrk⟩

/-- Before the first call, with 10 bytes. -/
theorem malloc_honours_iff_ten : (∃ k, (fresh.heap.mallocAny 8 grow k 10).1.isSome) ∧
    ∀ k, Honours 10 (fresh.heap.mallocAny 8 grow k 10) :=
  (malloc_honours_iff 10 (by decide)).2 (by decide) 8 fresh.heap grow valid_fresh

/-- For `2 ^ 32 - 24` bytes, `sbrk` is asked for `-16` and takes memory back. -/
theorem malloc_shrinks :
    (fresh.heap.mallocAny 8 grow 1 0xffffffe8).2 = [⟨-16, 0x1ffffffe⟩] ∧
      grow.call fresh.heap.brk (-16) = some (64, 48) := by
  decide +kernel

end Xv6.Umalloc
