import Mathlib.Data.Set.Function
import Xv6.Disk.Format

/-!
# Who owns a block

A block of an inode is pointed to by one of its addresses: a direct one, a word of its indirect
block, or the address of the indirect block itself. `Own T d A L U` says of a table `T` of inodes
over an image `d` that the pointers in `L` of the inodes in `A` point to the blocks in `U`, each
to one of its own, and that the other pointers of these inodes are empty.

The table is apart from the image since an inode that is in memory can be ahead of its copy on
disk. `mkfs` and the kernel grow files one block at a time, by the three steps `Own.setDirect`,
`Own.setIndirect` and `Own.setWord`.
-/

namespace Xv6.Disk

open Function

/-- A place where an inode keeps the number of a block. -/
inductive Ptr
  /-- The block `bn` of its contents. -/
  | block (bn : ℕ)
  /-- The indirect block. -/
  | indirect
  deriving DecidableEq

/-- The pointers that an inode has. -/
def Ptr.Valid : Ptr → Prop
  | .block bn => bn < MAXFILE
  | .indirect => True

/-- The pointers of a file of `n` blocks. -/
def Ptr.Below (n : ℕ) : Ptr → Prop
  | .block bn => bn < n
  | .indirect => NDIRECT < n

theorem Ptr.Below.mono {m n : ℕ} {p : Ptr} (h : p.Below m) (hle : m ≤ n) : p.Below n := by
  cases p with
  | block bn => exact h.trans_le hle
  | indirect => exact lt_of_lt_of_le h hle

/-- The number of blocks of a file of `size` bytes. -/
def nblk (size : ℕ) : ℕ := (size + (BSIZE - 1)) / BSIZE

theorem nblk_mono {m n : ℕ} (h : m ≤ n) : nblk m ≤ nblk n := Nat.div_le_div_right (by omega)

theorem nblk_of_mod_eq_zero {off : ℕ} (h : off % BSIZE = 0) : nblk off = off / BSIZE := by
  simp only [nblk, BSIZE] at h ⊢
  omega

theorem nblk_of_mod_ne_zero {off : ℕ} (h : off % BSIZE ≠ 0) : nblk off = off / BSIZE + 1 := by
  simp only [nblk, BSIZE] at h ⊢
  omega

/-- An offset in a file is in one of its blocks. -/
theorem div_lt_nblk {off n : ℕ} (h : off < n) : off / BSIZE < nblk n := by
  simp only [nblk, BSIZE]
  omega

namespace Dinode

/-- The block that a pointer of the inode points to, 0 if there is none. -/
def ptr (x : Dinode) (d : Sectors) : Ptr → ℕ
  | .block bn =>
    if bn < NDIRECT then (x.addr bn).toNat
    else if x.addr NDIRECT = 0 then 0
    else ((d (x.addr NDIRECT).toNat).word (bn - NDIRECT)).toNat
  | .indirect => (x.addr NDIRECT).toNat

variable {x : Dinode} {d d' : Sectors} {bn n : ℕ} {p : Ptr}

theorem ptr_direct (h : bn < NDIRECT) : x.ptr d (.block bn) = (x.addr bn).toNat := if_pos h

theorem ptr_word (h : NDIRECT ≤ bn) (hx : x.addr NDIRECT ≠ 0) :
    x.ptr d (.block bn) = ((d (x.addr NDIRECT).toNat).word (bn - NDIRECT)).toNat := by
  rw [ptr, if_neg (by omega), if_neg hx]

theorem ptr_of_no_indirect (h : NDIRECT ≤ bn) (hx : x.addr NDIRECT = 0) :
    x.ptr d (.block bn) = 0 := by
  rw [ptr, if_neg (by omega), if_pos hx]

@[simp] theorem ptr_indirect : x.ptr d .indirect = (x.addr NDIRECT).toNat := rfl

/-- Only the addresses of the inode matter. -/
theorem ptr_of_addrs {y : Dinode} (h : y.addrs = x.addrs) : y.ptr d p = x.ptr d p := by
  have ha (k : ℕ) : y.addr k = x.addr k := by rw [addr, h, addr]
  cases p with
  | indirect => rw [ptr_indirect, ha, ptr_indirect]
  | block bn => rw [ptr, ptr, ha, ha]

/-- Only the indirect block of the image matters. -/
theorem ptr_congr (h : x.addr NDIRECT ≠ 0 → d' (x.addr NDIRECT).toNat = d (x.addr NDIRECT).toNat) :
    x.ptr d' p = x.ptr d p := by
  cases p with
  | indirect => rfl
  | block bn =>
    rw [ptr, ptr]
    by_cases hx : x.addr NDIRECT = 0
    · rw [if_pos hx, if_pos hx]
    · rw [h hx]

end Dinode

/-- The block that a pointer of an inode of the table points to. -/
def target (T : ℕ → Dinode) (d : Sectors) (q : ℕ × Ptr) : ℕ := (T q.1).ptr d q.2

/-- The pointers `L` of the inodes `A` point to the blocks `U`, each to one of its own. -/
structure Own (T : ℕ → Dinode) (d : Sectors) (A : Set ℕ) (L : Set (ℕ × Ptr)) (U : Set ℕ) :
    Prop where
  valid : ∀ q ∈ L, q.1 ∈ A ∧ q.2.Valid
  empty : ∀ q : ℕ × Ptr, q.1 ∈ A → q.2.Valid → q ∉ L → target T d q = 0
  zero : 0 ∉ U
  bij : Set.BijOn (target T d) L U

/-- The pointers of files of `n i` blocks each. -/
def ptrs (A : Set ℕ) (n : ℕ → ℕ) : Set (ℕ × Ptr) := {q | q.1 ∈ A ∧ q.2.Below (n q.1)}

/-- The byte of a file at an offset. -/
def byte (T : ℕ → Dinode) (d : Sectors) (i off : ℕ) : UInt8 :=
  d (target T d (i, .block (off / BSIZE))) (off % BSIZE)

/-- The byte at an offset of the contents of an inode. -/
def Dinode.byte (x : Dinode) (d : Sectors) (off : ℕ) : UInt8 :=
  d (x.ptr d (.block (off / BSIZE))) (off % BSIZE)

/-- The contents of the blocks pointed to from `L` are in place, and as they were. -/
def SameBlocks (L : Set (ℕ × Ptr)) (T : ℕ → Dinode) (d : Sectors) (T' : ℕ → Dinode) (d' : Sectors) :
    Prop :=
  ∀ i bn, (i, Ptr.block bn) ∈ L → target T' d' (i, .block bn) = target T d (i, .block bn) ∧
    d' (target T d (i, .block bn)) = d (target T d (i, .block bn))

variable {T T' : ℕ → Dinode} {d d' : Sectors} {A U : Set ℕ} {L : Set (ℕ × Ptr)} {i j b c k bn : ℕ}
  {p : Ptr} {q : ℕ × Ptr}

theorem ptrs_update_succ {n : ℕ → ℕ} (hi : i ∈ A) (h : n i ≠ NDIRECT) :
    ptrs A (update n i (n i + 1)) = insert (i, .block (n i)) (ptrs A n) := by
  ext ⟨j, p⟩
  simp only [ptrs, Set.mem_ofPred_eq, Set.mem_insert_iff, Prod.mk.injEq]
  by_cases hj : j = i
  · subst hj
    rw [update_self]
    cases p with
    | block bn =>
      simp only [Ptr.Below, Ptr.block.injEq, hi, true_and]
      omega
    | indirect =>
      simp only [Ptr.Below, reduceCtorEq, and_false, false_or, hi, true_and]
      omega
  · rw [update_of_ne hj]
    simp only [hj, false_and, false_or]

theorem ptrs_update_indirect {n : ℕ → ℕ} (hi : i ∈ A) (h : n i = NDIRECT) :
    ptrs A (update n i (n i + 1)) =
      insert (i, .block (n i)) (insert (i, .indirect) (ptrs A n)) := by
  ext ⟨j, p⟩
  simp only [ptrs, Set.mem_ofPred_eq, Set.mem_insert_iff, Prod.mk.injEq]
  by_cases hj : j = i
  · subst hj
    rw [update_self]
    cases p with
    | block bn =>
      simp only [Ptr.Below, Ptr.block.injEq, reduceCtorEq, and_false, false_or, hi, true_and]
      omega
    | indirect =>
      simp only [Ptr.Below, reduceCtorEq, and_false, false_or, and_true, true_or, iff_true, hi,
        true_and]
      omega
  · rw [update_of_ne hj]
    simp only [hj, false_and, false_or]

theorem SameBlocks.refl : SameBlocks L T d T d := fun _ _ _ => ⟨rfl, rfl⟩

theorem SameBlocks.trans {T'' : ℕ → Dinode} {d'' : Sectors} (h : SameBlocks L T d T' d')
    (h' : SameBlocks L T' d' T'' d'') : SameBlocks L T d T'' d'' := by
  intro i bn hq
  obtain ⟨ht, hd⟩ := h i bn hq
  obtain ⟨ht', hd'⟩ := h' i bn hq
  rw [ht] at ht' hd'
  exact ⟨ht', hd'.trans hd⟩

theorem SameBlocks.mono {K : Set (ℕ × Ptr)} (h : SameBlocks L T d T' d') (hK : K ⊆ L) :
    SameBlocks K T d T' d' :=
  fun i bn hq => h i bn (hK hq)

theorem SameBlocks.byte_eq {off : ℕ} (h : SameBlocks L T d T' d')
    (hq : (i, Ptr.block (off / BSIZE)) ∈ L) : byte T' d' i off = byte T d i off := by
  obtain ⟨ht, hd⟩ := h i _ hq
  rw [byte, ht, hd, byte]

namespace Own

theorem mem (h : Own T d A L U) (hq : q ∈ L) : target T d q ∈ U := h.bij.mapsTo hq

theorem ne_zero (h : Own T d A L U) (hq : q ∈ L) : target T d q ≠ 0 :=
  fun h0 => h.zero (h0 ▸ h.mem hq)

theorem mem_iff (h : Own T d A L U) (hA : q.1 ∈ A) (hv : q.2.Valid) :
    q ∈ L ↔ target T d q ≠ 0 :=
  ⟨h.ne_zero, fun h0 => by_contra fun hq => h0 (h.empty q hA hv hq)⟩

theorem mem_indirect_iff (h : Own T d A L U) (hA : i ∈ A) :
    (i, Ptr.indirect) ∈ L ↔ (T i).addr NDIRECT ≠ 0 := by
  have hiff := h.mem_iff (q := (i, Ptr.indirect)) hA trivial
  rw [hiff, target, Dinode.ptr_indirect, Ne, ← UInt32.toNat_zero, UInt32.toNat_inj]

/-- A block of the indirect part comes with the indirect block. -/
theorem indirect_mem (h : Own T d A L U) (hq : (i, Ptr.block bn) ∈ L) (hbn : NDIRECT ≤ bn) :
    (i, Ptr.indirect) ∈ L :=
  (h.mem_indirect_iff (h.valid _ hq).1).mpr fun h0 =>
    h.ne_zero hq (Dinode.ptr_of_no_indirect hbn h0)

/-- A change that moves no pointer. -/
theorem congr (h : Own T d A L U)
    (ht : ∀ q : ℕ × Ptr, q.1 ∈ A → q.2.Valid → target T' d' q = target T d q) :
    Own T' d' A L U where
  valid := h.valid
  empty q hA hv hq := (ht q hA hv).trans (h.empty q hA hv hq)
  zero := h.zero
  bij := h.bij.congr fun q hq => (ht q (h.valid q hq).1 (h.valid q hq).2).symm

/-- An empty pointer gets a block that was free. -/
theorem insert (h : Own T d A L U) (hA : q.1 ∈ A) (hv : q.2.Valid) (hq : q ∉ L) (hb : b ∉ U)
    (h0 : b ≠ 0) (hself : target T' d' q = b)
    (ht : ∀ r : ℕ × Ptr, r.1 ∈ A → r.2.Valid → r ≠ q → target T' d' r = target T d r) :
    Own T' d' A (Insert.insert q L) (Insert.insert b U) where
  valid := Set.forall_mem_insert.mpr ⟨⟨hA, hv⟩, h.valid⟩
  empty r hrA hrv hr := by
    rw [Set.mem_insert_iff, not_or] at hr
    exact (ht r hrA hrv hr.1).trans (h.empty r hrA hrv hr.2)
  zero hU := (Set.mem_insert_iff.mp hU).elim h0.symm h.zero
  bij := by
    have hL : Set.BijOn (target T' d') L U := h.bij.congr fun r hr =>
      (ht r (h.valid r hr).1 (h.valid r hr).2 fun hrq => hq (hrq ▸ hr)).symm
    rw [← hself] at hb ⊢
    exact hL.insert hb

/-- The blocks that hold contents, or are free, are no indirect blocks. -/
theorem indirect_ne (h : Own T d A L U) (hb : b ∉ U ∨ ∃ i bn, (i, Ptr.block bn) ∈ L ∧
    target T d (i, .block bn) = b) :
    ∀ j ∈ A, (T j).addr NDIRECT ≠ 0 → ((T j).addr NDIRECT).toNat ≠ b := by
  intro j hj hx heq
  have hmem := (h.mem_indirect_iff hj).mpr hx
  rcases hb with hb | ⟨i, bn, hq, rfl⟩
  · exact hb (heq ▸ h.mem hmem)
  · exact nomatch h.bij.injOn hmem hq heq

/-- The contents of a file, or a free block, are written: no pointer moves. -/
theorem target_update (h : Own T d A L U) (hb : b ∉ U ∨ ∃ i bn, (i, Ptr.block bn) ∈ L ∧
    target T d (i, .block bn) = b) (m : Bytes) (hA : q.1 ∈ A) :
    target T (update d b m) q = target T d q :=
  Dinode.ptr_congr fun hx => update_of_ne (h.indirect_ne hb q.1 hA hx) ..

theorem write (h : Own T d A L U) (hb : b ∉ U ∨ ∃ i bn, (i, Ptr.block bn) ∈ L ∧
    target T d (i, .block bn) = b) (m : Bytes) : Own T (update d b m) A L U :=
  h.congr fun _ hA _ => h.target_update hb m hA

/-- A block that is not in use is written. -/
theorem sameBlocks_update (h : Own T d A L U) (hb : b ∉ U) (m : Bytes) :
    SameBlocks L T d T (update d b m) := fun i bn hq => by
  have hne : target T d (i, .block bn) ≠ b := fun e => hb (e ▸ h.mem hq)
  exact ⟨h.target_update (.inl hb) m (h.valid _ hq).1, update_of_ne hne ..⟩

/-- The bytes of the files after a store to one of their blocks. -/
theorem byte_store (h : Own T d A L U) (hq : (i, Ptr.block bn) ∈ L) {o n off : ℕ} {f : Bytes}
    (hj : (j, Ptr.block (off / BSIZE)) ∈ L) :
    byte T (update d (target T d (i, .block bn))
        ((d (target T d (i, .block bn))).store o n f)) j off =
      if (j = i ∧ off / BSIZE = bn) ∧ o ≤ off % BSIZE ∧ off % BSIZE < o + n
      then f (off % BSIZE - o) else byte T d j off := by
  have ht : target T (update d (target T d (i, .block bn))
      ((d (target T d (i, .block bn))).store o n f)) (j, .block (off / BSIZE)) =
      target T d (j, .block (off / BSIZE)) :=
    h.target_update (.inr ⟨i, bn, hq, rfl⟩) _ (h.valid _ hj).1
  rw [byte, ht, byte]
  by_cases hji : j = i ∧ off / BSIZE = bn
  · obtain ⟨rfl, rfl⟩ := hji
    rw [update_self, Bytes.store]
    simp only [true_and]
  · have hne : target T d (j, .block (off / BSIZE)) ≠ target T d (i, .block bn) := fun heq => by
      have := h.bij.injOn hj hq heq
      rw [Prod.mk.injEq, Ptr.block.injEq] at this
      exact hji this
    rw [update_of_ne hne, if_neg fun hc => hji hc.1]

/-- A new inode has no blocks yet. -/
theorem alloc (h : Own T d A L U) (hi : i ∉ A) {x : Dinode} (hx : x.addrs = fun _ => 0) :
    Own (update T i x) d (Insert.insert i A) L U := by
  have hx0 (k : ℕ) : x.addr k = 0 := by rw [Dinode.addr, hx]
  have hne (q : ℕ × Ptr) (hq : q.1 ∈ A) : q.1 ≠ i := fun e => hi (e ▸ hq)
  have ht (q : ℕ × Ptr) (hq : q.1 ∈ A) : target (update T i x) d q = target T d q := by
    rw [target, update_of_ne (hne q hq), target]
  refine ⟨fun q hq => ⟨.inr (h.valid q hq).1, (h.valid q hq).2⟩, fun q hA hv hq => ?_, h.zero,
    h.bij.congr fun q hq => (ht q (h.valid q hq).1).symm⟩
  rcases hA with hA | hA
  · rw [target, hA, update_self]
    cases q.2 with
    | indirect => rw [Dinode.ptr_indirect, hx0, UInt32.toNat_zero]
    | block bn =>
      rcases Nat.lt_or_ge bn NDIRECT with hbn | hbn
      · rw [Dinode.ptr_direct hbn, hx0, UInt32.toNat_zero]
      · exact Dinode.ptr_of_no_indirect hbn (hx0 _)
  · rw [ht q hA, h.empty q hA hv hq]

/-! ## A file grows -/

variable {v : UInt32}

theorem target_setDirect (hk : k < NDIRECT) (hq : q ≠ (i, .block k)) :
    target (update T i ((T i).setAddr k v)) d q = target T d q := by
  obtain ⟨j, p⟩ := q
  by_cases hj : j = i
  · subst hj
    have hind : ((T j).setAddr k v).addr NDIRECT = (T j).addr NDIRECT :=
      Dinode.addr_setAddr_of_ne le_rfl hk.le hk.ne'
    rw [target, update_self, target]
    cases p with
    | indirect => rw [Dinode.ptr_indirect, hind, Dinode.ptr_indirect]
    | block bn =>
      by_cases hbn : bn < NDIRECT
      · have hbk : bn ≠ k := fun e => hq (e ▸ rfl)
        rw [Dinode.ptr_direct hbn, Dinode.ptr_direct hbn,
          Dinode.addr_setAddr_of_ne hbn.le hk.le hbk]
      · rw [Dinode.ptr, Dinode.ptr, if_neg hbn, if_neg hbn, hind]
  · rw [target, update_of_ne hj, target]

/-- A direct address is filled in. -/
theorem setDirect (h : Own T d A L U) (hi : i ∈ A) (hk : k < NDIRECT)
    (hq : (i, Ptr.block k) ∉ L) (hv : v ≠ 0) (hU : v.toNat ∉ U) :
    Own (update T i ((T i).setAddr k v)) d A (Insert.insert (i, .block k) L)
      (Insert.insert v.toNat U) := by
  have hself : target (update T i ((T i).setAddr k v)) d (i, .block k) = v.toNat := by
    rw [target, update_self, Dinode.ptr_direct hk, Dinode.addr_setAddr_self]
  exact h.insert hi (show k < MAXFILE by simp only [NDIRECT, MAXFILE] at hk ⊢; omega) hq hU
    (fun h0 => hv (UInt32.toNat_inj.mp h0)) hself fun r _ _ hr => target_setDirect hk hr

theorem target_setIndirect (hx : (T i).addr NDIRECT = 0) (hv : v ≠ 0) (hd : d v.toNat = Bytes.zero)
    (hq : q ≠ (i, .indirect)) :
    target (update T i ((T i).setAddr NDIRECT v)) d q = target T d q := by
  obtain ⟨j, p⟩ := q
  by_cases hj : j = i
  · subst hj
    rw [target, update_self, target]
    cases p with
    | indirect => exact absurd rfl hq
    | block bn =>
      by_cases hbn : bn < NDIRECT
      · rw [Dinode.ptr_direct hbn, Dinode.ptr_direct hbn,
          Dinode.addr_setAddr_of_ne hbn.le le_rfl hbn.ne]
      · have hself : ((T j).setAddr NDIRECT v).addr NDIRECT = v := Dinode.addr_setAddr_self
        rw [Dinode.ptr_word (by omega) (by rw [hself]; exact hv), hself, hd, Bytes.word_zero,
          Dinode.ptr_of_no_indirect (by omega) hx, UInt32.toNat_zero]
  · rw [target, update_of_ne hj, target]

/-- The address of the indirect block is filled in, with a block of zeros. -/
theorem setIndirect (h : Own T d A L U) (hi : i ∈ A) (hq : (i, Ptr.indirect) ∉ L) (hv : v ≠ 0)
    (hU : v.toNat ∉ U) (hd : d v.toNat = Bytes.zero) :
    Own (update T i ((T i).setAddr NDIRECT v)) d A (Insert.insert (i, .indirect) L)
      (Insert.insert v.toNat U) := by
  have hx : (T i).addr NDIRECT = 0 := not_ne_iff.mp (mt (h.mem_indirect_iff hi).mpr hq)
  have hself : target (update T i ((T i).setAddr NDIRECT v)) d (i, .indirect) =
      v.toNat := by
    rw [target, update_self, Dinode.ptr_indirect, Dinode.addr_setAddr_self]
  exact h.insert hi trivial hq hU (fun h0 => hv (UInt32.toNat_inj.mp h0)) hself
    fun r _ _ hr => target_setIndirect hx hv hd hr

theorem target_setWord (h : Own T d A L U) (hi : (i, Ptr.indirect) ∈ L)
    (hc : c = ((T i).addr NDIRECT).toNat) (hA : q.1 ∈ A) (hq : q ≠ (i, .block (NDIRECT + k))) :
    target T (update d c ((d c).setWord k v)) q = target T d q := by
  have hx := (h.mem_indirect_iff (h.valid _ hi).1).mp hi
  obtain ⟨j, p⟩ := q
  by_cases hj : j = i
  · subst hj
    rw [target, target]
    cases p with
    | indirect => rfl
    | block bn =>
      by_cases hbn : bn < NDIRECT
      · rw [Dinode.ptr_direct hbn, Dinode.ptr_direct hbn]
      · have hbk : bn - NDIRECT ≠ k := fun e => hq (by rw [← e, Nat.add_sub_cancel' (by omega)])
        rw [Dinode.ptr_word (by omega) hx, Dinode.ptr_word (by omega) hx, ← hc,
          update_self, Bytes.word_setWord_of_ne hbk]
  · refine Dinode.ptr_congr fun hxj => update_of_ne (fun hcj => hj ?_) ..
    -- the indirect blocks of two inodes differ
    have heq : target T d (j, .indirect) = target T d (i, .indirect) := hcj.trans hc
    exact congrArg Prod.fst (h.bij.injOn ((h.mem_indirect_iff hA).mpr hxj) hi heq)

theorem sameBlocks_setWord (h : Own T d A L U) (hi : (i, Ptr.indirect) ∈ L)
    (hc : c = ((T i).addr NDIRECT).toNat) (hq : (i, Ptr.block (NDIRECT + k)) ∉ L) :
    SameBlocks L T d T (update d c ((d c).setWord k v)) := by
  intro j bn hj
  refine ⟨h.target_setWord hi hc (h.valid _ hj).1 fun e => hq (e ▸ hj), update_of_ne ?_ ..⟩
  intro heq
  exact nomatch h.bij.injOn hj hi (heq.trans hc)

/-- A word of the indirect block is filled in. -/
theorem setWord (h : Own T d A L U) (hi : (i, Ptr.indirect) ∈ L) (hk : k < NINDIRECT)
    (hq : (i, Ptr.block (NDIRECT + k)) ∉ L) (hv : v ≠ 0) (hU : v.toNat ∉ U)
    (hc : c = ((T i).addr NDIRECT).toNat) :
    Own T (update d c ((d c).setWord k v)) A (Insert.insert (i, .block (NDIRECT + k)) L)
      (Insert.insert v.toNat U) := by
  have hA := (h.valid _ hi).1
  have hx := (h.mem_indirect_iff hA).mp hi
  have hself : target T (update d c ((d c).setWord k v)) (i, .block (NDIRECT + k)) =
      v.toNat := by
    rw [target, Dinode.ptr_word (by omega) hx, ← hc, update_self, Nat.add_sub_cancel_left,
      Bytes.word_setWord_self]
  exact h.insert hA (show NDIRECT + k < NDIRECT + NINDIRECT by omega) hq hU
    (fun h0 => hv (UInt32.toNat_inj.mp h0)) hself fun r hr _ hne => h.target_setWord hi hc hr hne

end Own

end Xv6.Disk
