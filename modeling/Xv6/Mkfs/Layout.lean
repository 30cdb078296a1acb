import Mathlib.Algebra.BigOperators.Intervals
import Mathlib.Algebra.Order.BigOperators.Group.Finset
import Mathlib.Data.List.GetD
import Mathlib.Order.Interval.Finset.Nat
import Xv6.Mkfs.Basic

/-!
# The layout of an image under construction

`mkfs` hands out inodes and blocks in order, so that the inodes in use are those below
`freeinode`, and the blocks in use those between the metadata and `freeblock`. `Layout T s c` says
that the files with inodes in `T` have the contents `c`, each in blocks of its own, and that the
blocks that were not handed out yet are zero. `iappend_spec`: an append adds to the contents of one
file, or the image would get too small.
-/

namespace Xv6.Mkfs

open Disk Prog Function

variable {T : ℕ → Dinode} {s s' : State} {c : ℕ → List UInt8} {i j off k n : ℕ} {din : Dinode}
  {l p : List UInt8}

/-! ## Counting blocks -/

/-- The blocks of a file of `size` bytes, the indirect block among them. -/
def cost (size : ℕ) : ℕ := nblk size + if NDIRECT < nblk size then 1 else 0

theorem cost_mono {m n : ℕ} (h : m ≤ n) : cost m ≤ cost n := by
  have := nblk_mono h
  rw [cost, cost]
  split_ifs <;> omega

/-- The blocks of the files with the inodes below `n`. -/
def total (n : ℕ) (c : ℕ → List UInt8) : ℕ := ∑ i ∈ Finset.Ico 1 n, cost (c i).length

theorem total_update (hi : i ∈ Set.Ico 1 n) :
    total n (update c i l) + cost (c i).length = total n c + cost l.length := by
  have hi' : i ∈ Finset.Ico 1 n := Finset.mem_Ico.mpr hi
  have hrest : ∑ j ∈ (Finset.Ico 1 n).erase i, cost (update c i l j).length =
      ∑ j ∈ (Finset.Ico 1 n).erase i, cost (c j).length :=
    Finset.sum_congr rfl fun j hj => by rw [update_of_ne (Finset.ne_of_mem_erase hj)]
  rw [total, total, ← Finset.add_sum_erase _ _ hi', ← Finset.add_sum_erase _ _ hi', hrest,
    update_self]
  omega

theorem total_mono {c' : ℕ → List UInt8} {m : ℕ} (hn : n ≤ m)
    (h : ∀ i ∈ Set.Ico 1 n, (c i).length ≤ (c' i).length) : total n c ≤ total m c' :=
  calc total n c ≤ ∑ i ∈ Finset.Ico 1 n, cost (c' i).length :=
        Finset.sum_le_sum fun i hi => cost_mono (h i (Finset.mem_Ico.mp hi))
    _ ≤ total m c' := Finset.sum_le_sum_of_subset (Finset.Ico_subset_Ico_right hn)

/-! ## The layout -/

/-- The inodes in use. -/
def inodes (s : State) : Set ℕ := Set.Ico 1 s.freeinode

/-- The blocks of each file. -/
def blocks (c : ℕ → List UInt8) (i : ℕ) : ℕ := nblk (c i).length

theorem blocks_update : blocks (update c i l) =
    update (blocks c) i (nblk l.length) :=
  funext fun j => by
    by_cases hj : j = i
    · subst hj; rw [blocks, update_self, update_self]
    · rw [blocks, update_of_ne hj, update_of_ne hj, blocks]

/-- The files have the contents `c`, in blocks of their own. -/
structure Layout (T : ℕ → Dinode) (s : State) (c : ℕ → List UInt8) : Prop where
  own : Own T s.image (inodes s) (ptrs (inodes s) (blocks c)) (Set.Ico nmeta s.freeblock)
  bytes : ∀ i ∈ inodes s, ∀ off < (c i).length, byte T s.image i off = (c i).getD off 0
  fresh : ∀ b, s.freeblock ≤ b → s.image b = Bytes.zero
  count : s.freeblock = nmeta + total s.freeinode c
  freeblock_le : s.freeblock ≤ FSSIZE
  type : ∀ i ∈ inodes s, (T i).type = if i = ROOTINO then T_DIR else T_FILE
  nlink : ∀ i ∈ inodes s, (T i).nlink = 1
  super : s.image 1 = sb.encode Bytes.zero

namespace Layout

theorem nmeta_le (h : Layout T s c) : nmeta ≤ s.freeblock := h.count ▸ Nat.le_add_right ..

theorem mem (_h : Layout T s c) (hi : i ∈ inodes s) (hoff : off < (c i).length) :
    (i, Ptr.block (off / BSIZE)) ∈ ptrs (inodes s) (blocks c) :=
  ⟨hi, div_lt_nblk hoff⟩

/-- The number of the next block. -/
theorem toNat_freeblock (h : Layout T s c) : (UInt32.ofNat s.freeblock).toNat = s.freeblock := by
  have := h.freeblock_le
  rw [UInt32.toNat_ofNat', Nat.mod_eq_of_lt (by simp only [FSSIZE] at this; omega)]

/-- No file is too long. -/
theorem length_le (h : Layout T s c) (hi : i ∈ inodes s) : (c i).length ≤ MAXFILE * BSIZE := by
  rcases Nat.eq_zero_or_pos (c i).length with h0 | hpos
  · omega
  · have hlt : ((c i).length - 1) / BSIZE < MAXFILE :=
      (h.own.valid _ (h.mem hi (Nat.sub_lt hpos one_pos))).2
    simp only [BSIZE] at hlt ⊢
    omega

/-- Only the addresses, the types and the link counts of the inodes in use matter. -/
theorem congr {T' : ℕ → Dinode} (h : Layout T s c)
    (hT : ∀ i ∈ inodes s, (T' i).addrs = (T i).addrs ∧ (T' i).type = (T i).type ∧
      (T' i).nlink = (T i).nlink) :
    Layout T' s c := by
  have ht (q : ℕ × Ptr) (hq : q.1 ∈ inodes s) : target T' s.image q = target T s.image q :=
    Dinode.ptr_of_addrs (hT q.1 hq).1
  refine ⟨h.own.congr fun q hq _ => ht q hq, fun i hi off hoff => ?_, h.fresh, h.count,
    h.freeblock_le, fun i hi => (hT i hi).2.1.trans (h.type i hi),
    fun i hi => (hT i hi).2.2.trans (h.nlink i hi), h.super⟩
  have hbyte := h.bytes i hi off hoff
  rw [byte] at hbyte ⊢
  rw [ht (i, _) hi, hbyte]

/-- A write to the inodes or the bitmap. -/
theorem update_low (h : Layout T s c) {b : ℕ} (hb : b < nmeta) (h1 : b ≠ 1) (m : Bytes) :
    Layout T { s with image := update s.image b m } c := by
  have hU : b ∉ Set.Ico nmeta s.freeblock := fun hU => absurd hU.1 (by omega)
  have hown := h.own.write (.inl hU) m
  refine ⟨hown, fun i hi off hoff => ?_, fun b' hb' => ?_, h.count, h.freeblock_le, h.type, h.nlink,
    ?_⟩
  · have ht : target T (update s.image b m) (i, .block (off / BSIZE)) =
        target T s.image (i, .block (off / BSIZE)) :=
      Dinode.ptr_congr fun hx => update_of_ne (h.own.indirect_ne (.inl hU) i hi hx) ..
    have hne : target T s.image (i, .block (off / BSIZE)) ≠ b :=
      fun e => hU (e ▸ h.own.mem (h.mem hi hoff))
    have hbyte := h.bytes i hi off hoff
    rw [byte] at hbyte ⊢
    simp only
    rw [ht, update_of_ne hne, hbyte]
  · have := h.nmeta_le
    simp only at hb' ⊢
    rw [update_of_ne (by omega), h.fresh b' hb']
  · simp only
    rw [update_of_ne h1.symm, h.super]

end Layout

/-! ## The block of an append -/

/-- What the search for the block of an append leaves: the blocks are those of the contents `l`,
    and the contents before it are as they were. -/
structure Appended (T : ℕ → Dinode) (s : State) (c : ℕ → List UInt8) (i fbn : ℕ) (l : List UInt8)
    (r : UInt32 × Dinode) (s' : State) : Prop where
  own : Own (Function.update T i r.2) s'.image (inodes s)
    (ptrs (inodes s) (blocks (Function.update c i l))) (Set.Ico nmeta s'.freeblock)
  found : target (Function.update T i r.2) s'.image (i, .block fbn) = r.1.toNat
  same : SameBlocks (ptrs (inodes s) (blocks c)) T s.image (Function.update T i r.2) s'.image
  fresh : ∀ b, s'.freeblock ≤ b → s'.image b = Bytes.zero
  low : ∀ b < nmeta, s'.image b = s.image b
  count : s'.freeblock = nmeta + total s.freeinode (Function.update c i l)
  freeblock_le : s'.freeblock ≤ max s.freeblock (r.1.toNat + 1)
  freeinode : s'.freeinode = s.freeinode
  type : r.2.type = (T i).type
  nlink : r.2.nlink = (T i).nlink
  size : r.2.size = (T i).size

/-- The block found is one that was handed out. -/
theorem Appended.mem {fbn : ℕ} {r : UInt32 × Dinode} (ha : Appended T s c i fbn l r s')
    (hi : i ∈ inodes s) (hl : fbn < nblk l.length) : r.1.toNat ∈ Set.Ico nmeta s'.freeblock := by
  have hmem := ha.own.mem (q := (i, .block fbn))
    ⟨hi, by rwa [Ptr.Below, blocks, update_self]⟩
  rwa [ha.found] at hmem

/-- The block is there already. -/
theorem Appended.of_mem (h : Layout T s c) (hi : i ∈ inodes s) (hT : T i = din) {b : UInt32}
    (hb : target T s.image (i, .block (off / BSIZE)) = b.toNat)
    (hl : nblk l.length = blocks c i) : Appended T s c i (off / BSIZE) l (b, din) s := by
  have hself : update T i din = T := by rw [← hT, update_eq_self]
  have hblocks : blocks (update c i l) = blocks c := by
    rw [blocks_update, hl, update_eq_self]
  refine ⟨?_, ?_, ?_, h.fresh, fun _ _ => rfl, ?_, le_max_left ..,
    rfl, by rw [hT], by rw [hT], by rw [hT]⟩
  · rw [hself, hblocks]
    exact h.own
  · rw [hself]
    exact hb
  · rw [hself]
    exact SameBlocks.refl
  · have hcost : cost l.length = cost (c i).length := by rw [cost, hl, cost, blocks]
    have := total_update (c := c) (l := l) hi
    have := h.count
    omega

theorem insert_freeblock {a b : ℕ} (h : a ≤ b) : insert b (Set.Ico a b) = Set.Ico a (b + 1) := by
  ext x
  simp only [Set.mem_insert_iff, Set.mem_Ico]
  omega

/-- A new direct block. -/
theorem Appended.direct (h : Layout T s c) (hi : i ∈ inodes s) (hT : T i = din)
    (hk : off / BSIZE < NDIRECT) (hc : blocks c i = off / BSIZE)
    (hl : nblk l.length = off / BSIZE + 1) :
    Appended T s c i (off / BSIZE) l
      (.ofNat s.freeblock, din.setAddr (off / BSIZE) (.ofNat s.freeblock))
      { s with freeblock := s.freeblock + 1 } := by
  have hv := h.toNat_freeblock
  have hge := h.nmeta_le
  have hne : UInt32.ofNat s.freeblock ≠ 0 := fun h0 => by
    rw [h0, UInt32.toNat_zero] at hv
    simp only [nmeta, nlog] at hge
    omega
  have hnew : (i, Ptr.block (off / BSIZE)) ∉ ptrs (inodes s) (blocks c) :=
    fun hq => absurd hq.2 (by rw [Ptr.Below, hc]; exact lt_irrefl _)
  have hown := h.own.setDirect (v := .ofNat s.freeblock) hi hk hnew hne
    (by rw [hv]; exact fun hU => lt_irrefl _ hU.2)
  rw [hv, insert_freeblock hge, hT, ← hc, ← ptrs_update_succ hi (by omega), hc, ← hl,
    ← blocks_update] at hown
  refine ⟨hown, ?_, fun j bn hq => ⟨?_, rfl⟩, fun b hb => h.fresh b (by simp only at hb; omega),
    fun _ _ => rfl, ?_, ?_, rfl, by rw [hT]; rfl, by rw [hT]; rfl, by rw [hT]; rfl⟩
  · rw [target, update_self, Dinode.ptr_direct hk, Dinode.addr_setAddr_self]
  · rw [← hT]
    exact Own.target_setDirect hk fun e => hnew (e ▸ hq)
  · have hcost : cost l.length = cost (c i).length + 1 := by
      rw [blocks] at hc
      rw [cost, cost, hl, hc, if_neg (by omega), if_neg (by omega)]
    have := total_update (c := c) (l := l) hi
    have := h.count
    simp only
    omega
  · rw [hv]
    exact le_max_right ..

variable {A : Set ℕ} {L : Set (ℕ × Ptr)}

/-- The state after a new block was put into a word of the indirect block. -/
def State.setWord (s : State) (din : Dinode) (k : ℕ) : State :=
  { s with
    image := Function.update s.image (din.addr NDIRECT).toNat
      ((s.image (din.addr NDIRECT).toNat).setWord k (.ofNat s.freeblock))
    freeblock := s.freeblock + 1 }

/-- A new block in a word of the indirect block. -/
theorem own_setWord (h : Own T s.image A L (Set.Ico nmeta s.freeblock)) (hT : T i = din)
    (hv : (UInt32.ofNat s.freeblock).toNat = s.freeblock) (hge : nmeta ≤ s.freeblock)
    (hi : (i, Ptr.indirect) ∈ L) (hk : k < NINDIRECT) (hq : (i, Ptr.block (NDIRECT + k)) ∉ L) :
    Own T (s.setWord din k).image A (insert (i, .block (NDIRECT + k)) L)
        (Set.Ico nmeta (s.setWord din k).freeblock) ∧
      target T (s.setWord din k).image (i, .block (NDIRECT + k)) = s.freeblock ∧
      SameBlocks L T s.image T (s.setWord din k).image ∧
      (∀ b < nmeta, (s.setWord din k).image b = s.image b) ∧
      ∀ b, s.freeblock ≤ b → (s.setWord din k).image b = s.image b := by
  have hc := h.mem hi
  rw [target, Dinode.ptr_indirect, hT] at hc
  have hx := (h.mem_indirect_iff (h.valid _ hi).1).mp hi
  have hne : UInt32.ofNat s.freeblock ≠ 0 := fun h0 => by
    rw [h0, UInt32.toNat_zero] at hv
    simp only [nmeta, nlog] at hge
    omega
  have hown := h.setWord (v := .ofNat s.freeblock) hi hk hq hne
    (by rw [hv]; exact fun hU => lt_irrefl _ hU.2) rfl
  have hsame := h.sameBlocks_setWord (v := .ofNat s.freeblock) hi rfl hq
  rw [hT] at hown hsame hx
  rw [hv, insert_freeblock hge] at hown
  refine ⟨hown, ?_, hsame, fun b hb => update_of_ne (hb.trans_le hc.1).ne .., fun b hb =>
    update_of_ne (hc.2.trans_le hb).ne' ..⟩
  rw [target, hT, Dinode.ptr_word (by omega) hx, State.setWord]
  simp only
  rw [update_self, Nat.add_sub_cancel_left, Bytes.word_setWord_self, hv]

theorem wp_appendWord {Q : UInt32 → State → Prop} {E : Exit → Prop}
    (hw : (s.image (din.addr NDIRECT).toNat).word k = 0)
    (hQ : (din.addr NDIRECT).toNat < FSSIZE → Q (.ofNat s.freeblock) (s.setWord din k))
    (hE : FSSIZE ≤ (din.addr NDIRECT).toNat → E .read) : wp (appendWord din k) Q E s := by
  rw [appendWord, rsect]
  simp only [wp_bind, wp_get]
  refine wp_ite (fun hlt => ?_) fun hge => hE (by omega)
  rw [wp_pure, if_pos hw]
  exact hQ hlt

theorem wp_appendWord_of_ne {Q : UInt32 → State → Prop} {E : Exit → Prop}
    (hw : (s.image (din.addr NDIRECT).toNat).word k ≠ 0) (hlt : (din.addr NDIRECT).toNat < FSSIZE)
    (hQ : Q ((s.image (din.addr NDIRECT).toNat).word k) s) : wp (appendWord din k) Q E s := by
  rw [appendWord, rsect]
  simp only [wp_bind, wp_get]
  rw [if_pos hlt, wp_pure, if_neg hw]
  exact hQ

/-- A new block behind the indirect block. -/
theorem Appended.word (h : Layout T s c) (hi : i ∈ inodes s) (hT : T i = din)
    (hk : NDIRECT < off / BSIZE) (hmax : off / BSIZE < MAXFILE) (hc : blocks c i = off / BSIZE)
    (hl : nblk l.length = off / BSIZE + 1) :
    Appended T s c i (off / BSIZE) l (.ofNat s.freeblock, din)
      (s.setWord din (off / BSIZE - NDIRECT)) := by
  have hself : update T i din = T := by rw [← hT, update_eq_self]
  have hn : NDIRECT + (off / BSIZE - NDIRECT) = off / BSIZE := by omega
  have hind : (i, Ptr.indirect) ∈ ptrs (inodes s) (blocks c) := ⟨hi, by rwa [Ptr.Below, hc]⟩
  have hnew : (i, Ptr.block (NDIRECT + (off / BSIZE - NDIRECT))) ∉ ptrs (inodes s) (blocks c) :=
    fun hq => absurd hq.2 (by rw [Ptr.Below, hc]; omega)
  obtain ⟨hown, hfound, hsame, hlow, hhigh⟩ := own_setWord h.own hT h.toNat_freeblock h.nmeta_le
    hind (by simp only [MAXFILE] at hmax; omega) hnew
  rw [hn] at hown hfound
  nth_rewrite 2 [← hc] at hown
  rw [← ptrs_update_succ hi (by omega), hc, ← hl, ← blocks_update] at hown
  refine ⟨by rwa [hself], by rw [hself, hfound, h.toNat_freeblock], by rwa [hself], fun b hb => ?_,
    hlow, ?_, ?_, rfl, by rw [hT], by rw [hT], by rw [hT]⟩
  · have hb' : s.freeblock ≤ b := Nat.le_of_succ_le hb
    rw [hhigh b hb', h.fresh b hb']
  · have hcost : cost l.length = cost (c i).length + 1 := by
      rw [blocks] at hc
      rw [cost, cost, hl, hc, if_pos (by omega), if_pos hk]
    have := total_update (c := c) (l := l) hi
    have := h.count
    simp only [State.setWord]
    omega
  · rw [h.toNat_freeblock]
    exact le_max_right ..

/-- The first block behind the indirect block, which is new as well. -/
theorem Appended.indirect (h : Layout T s c) (hi : i ∈ inodes s) (hT : T i = din)
    (hk : off / BSIZE = NDIRECT) (hc : blocks c i = off / BSIZE)
    (hl : nblk l.length = off / BSIZE + 1) (hlt : s.freeblock < FSSIZE) :
    Appended T s c i (off / BSIZE) l
      (.ofNat (s.freeblock + 1), din.setAddr NDIRECT (.ofNat s.freeblock))
      ({ s with freeblock := s.freeblock + 1 }.setWord (din.setAddr NDIRECT (.ofNat s.freeblock))
        0) := by
  have hv := h.toNat_freeblock
  have hge := h.nmeta_le
  have hv' : (UInt32.ofNat (s.freeblock + 1)).toNat = s.freeblock + 1 := by
    rw [UInt32.toNat_ofNat', Nat.mod_eq_of_lt (by simp only [FSSIZE] at hlt; omega)]
  have hne : UInt32.ofNat s.freeblock ≠ 0 := fun h0 => by
    rw [h0, UInt32.toNat_zero] at hv
    simp only [nmeta, nlog] at hge
    omega
  have hind : (i, Ptr.indirect) ∉ ptrs (inodes s) (blocks c) :=
    fun hq => absurd hq.2 (by rw [Ptr.Below, hc]; omega)
  have hx : (T i).addr NDIRECT = 0 := not_ne_iff.mp (mt (h.own.mem_indirect_iff hi).mpr hind)
  have hzero : s.image (UInt32.ofNat s.freeblock).toNat = Bytes.zero := h.fresh _ hv.ge
  have hown₁ := h.own.setIndirect hi hind hne (by rw [hv]; exact fun hU => lt_irrefl _ hU.2) hzero
  have hsame₁ : SameBlocks (ptrs (inodes s) (blocks c)) T s.image
      (update T i ((T i).setAddr NDIRECT (.ofNat s.freeblock))) s.image := fun j bn hq =>
    ⟨Own.target_setIndirect hx hne hzero (by simp), rfl⟩
  rw [hv, insert_freeblock hge] at hown₁
  rw [hT] at hown₁ hsame₁
  have hnew : (i, Ptr.block (NDIRECT + 0)) ∉
      insert (i, Ptr.indirect) (ptrs (inodes s) (blocks c)) := fun hq => by
    rcases hq with hq | hq
    · cases hq
    · exact absurd hq.2 (by rw [Ptr.Below, hc]; omega)
  obtain ⟨hown, hfound, hsame, hlow, hhigh⟩ := own_setWord (s := { s with
    freeblock := s.freeblock + 1 }) hown₁ (update_self ..) hv' (by simp only; omega)
    (Set.mem_insert ..) (by decide) hnew
  have hL : insert (i, Ptr.block (NDIRECT + 0)) (insert (i, Ptr.indirect)
      (ptrs (inodes s) (blocks c))) = ptrs (inodes s) (blocks (update c i l)) := by
    rw [blocks_update, hl, ← hc, ptrs_update_indirect hi (hc.trans hk), hc, hk]
  rw [hL] at hown
  refine ⟨hown, ?_, hsame₁.trans (hsame.mono (Set.subset_insert ..)), fun b hb => ?_, hlow, ?_, ?_,
    rfl, by rw [hT]; rfl, by rw [hT]; rfl, by rw [hT]; rfl⟩
  · rw [hk, hv']
    exact hfound
  · have hb' : s.freeblock + 1 ≤ b := Nat.le_of_succ_le hb
    rw [hhigh b hb', h.fresh b (by omega)]
  · have hcost : cost l.length = cost (c i).length + 2 := by
      rw [blocks] at hc
      rw [cost, cost, hl, hc, if_pos (by omega), if_neg (by omega)]
    have := total_update (c := c) (l := l) hi
    have := h.count
    simp only [State.setWord]
    omega
  · rw [hv']
    exact le_max_right ..

/-- The block of an append is found, or made, unless the image gets too small. -/
theorem appendBlock_spec (h : Layout T s c) (hi : i ∈ inodes s) (hT : T i = din)
    (hoff : off = (c i).length) (hmax : off / BSIZE < MAXFILE)
    (hl : nblk l.length = off / BSIZE + 1) :
    wp (appendBlock din (off / BSIZE)) (Appended T s c i (off / BSIZE) l)
      (fun _ => FSSIZE < nmeta + total s.freeinode (update c i l)) s := by
  by_cases hmod : off % BSIZE = 0
  · -- the last block is full
    have hc : blocks c i = off / BSIZE := by rw [blocks, ← hoff, nblk_of_mod_eq_zero hmod]
    have hnew : (i, Ptr.block (off / BSIZE)) ∉ ptrs (inodes s) (blocks c) :=
      fun hq => absurd hq.2 (by rw [Ptr.Below, hc]; exact lt_irrefl _)
    have hzero := h.own.empty (i, .block (off / BSIZE)) hi hmax hnew
    rw [target, hT] at hzero
    rw [appendBlock]
    refine wp_ite (fun hk => ?_) fun hk => ?_
    · rw [Dinode.ptr_direct hk] at hzero
      rw [if_pos (UInt32.toNat_inj.mp hzero)]
      exact Appended.direct h hi hT hk hc hl
    · rw [appendIndirect, wp_bind]
      rcases (Nat.le_of_not_lt hk).eq_or_lt with hk | hk
      · have hind : (i, Ptr.indirect) ∉ ptrs (inodes s) (blocks c) :=
          fun hq => absurd hq.2 (by rw [Ptr.Below, hc]; omega)
        have hx := not_ne_iff.mp (mt (h.own.mem_indirect_iff hi).mpr hind)
        rw [hT] at hx
        have haddr : ((din.setAddr NDIRECT (.ofNat s.freeblock)).addr NDIRECT).toNat =
            s.freeblock := by rw [Dinode.addr_setAddr_self, h.toNat_freeblock]
        have hsub : off / BSIZE - NDIRECT = 0 := by omega
        rw [if_pos hx, hsub]
        change wp (appendWord (din.setAddr NDIRECT (.ofNat s.freeblock)) 0 >>= _) _ _
          { s with freeblock := s.freeblock + 1 }
        rw [wp_bind]
        refine wp_appendWord ?_ (fun hlt => ?_) fun hge => ?_
        · rw [haddr]
          simp only
          rw [h.fresh _ le_rfl, Bytes.word_zero]
        · rw [haddr] at hlt
          exact Appended.indirect h hi hT hk.symm hc hl hlt
        · have hcost : cost (c i).length < cost l.length := by
            rw [blocks] at hc
            rw [cost, cost, hl, hc, if_neg (by omega), if_pos (by omega)]
            omega
          have := total_update (c := c) (l := l) hi
          have := h.count
          omega
      · have hind : (i, Ptr.indirect) ∈ ptrs (inodes s) (blocks c) :=
          ⟨hi, by rwa [Ptr.Below, hc]⟩
        have hx := (h.own.mem_indirect_iff hi).mp hind
        have hU := h.own.mem hind
        rw [target, Dinode.ptr_indirect] at hU
        rw [hT] at hx hU
        rw [Dinode.ptr_word hk.le hx] at hzero
        rw [if_neg hx, wp_pure, wp_bind]
        refine wp_appendWord (UInt32.toNat_inj.mp hzero) (fun _ => ?_) fun hge => ?_
        · exact Appended.word h hi hT hk hmax hc hl
        · exact absurd (hU.2.trans_le h.freeblock_le) (by omega)
  · -- there is room in the last block
    have hc : blocks c i = off / BSIZE + 1 := by rw [blocks, ← hoff, nblk_of_mod_ne_zero hmod]
    have hmem : (i, Ptr.block (off / BSIZE)) ∈ ptrs (inodes s) (blocks c) :=
      ⟨hi, by rw [Ptr.Below, hc]; omega⟩
    have hne := h.own.ne_zero hmem
    rw [appendBlock]
    refine wp_ite (fun hk => ?_) fun hk => ?_
    · have hfound : target T s.image (i, .block (off / BSIZE)) =
          (din.addr (off / BSIZE)).toNat := by
        rw [target, hT, Dinode.ptr_direct hk]
      rw [hfound] at hne
      rw [if_neg fun h0 => hne (by rw [h0, UInt32.toNat_zero])]
      exact Appended.of_mem h hi hT hfound (hl.trans hc.symm)
    · have hind := h.own.indirect_mem hmem (by omega)
      have hx := (h.own.mem_indirect_iff hi).mp hind
      have hU := h.own.mem hind
      rw [target, Dinode.ptr_indirect] at hU
      rw [hT] at hx hU
      have hfound : target T s.image (i, .block (off / BSIZE)) =
          ((s.image (din.addr NDIRECT).toNat).word (off / BSIZE - NDIRECT)).toNat := by
        rw [target, hT, Dinode.ptr_word (by omega) hx]
      rw [hfound] at hne
      rw [appendIndirect, if_neg hx, wp_bind, wp_pure, wp_bind]
      refine wp_appendWord_of_ne (fun h0 => hne (by rw [h0, UInt32.toNat_zero]))
        (hU.2.trans_le h.freeblock_le) ?_
      exact Appended.of_mem h hi hT hfound (hl.trans hc.symm)

/-! ## Appending -/

/-- The bytes that go into the last block are stored. -/
theorem Appended.store {r : UInt32 × Dinode} (h : Layout T s c) (hi : i ∈ inodes s)
    (hoff : off = (c i).length) (hn : n ≤ p.length) (hpos : 0 < n)
    (hroom : n ≤ BSIZE - off % BSIZE)
    (ha : Appended T s c i (off / BSIZE) (c i ++ p.take n) r s') (hlt : r.1.toNat < FSSIZE) :
    Layout (update T i r.2)
      { s' with
        image := update s'.image r.1.toNat
          ((s'.image r.1.toNat).store (off % BSIZE) n (Bytes.ofList p)) }
      (update c i (c i ++ p.take n)) := by
  have hlen : (c i ++ p.take n).length = off + n := by
    rw [List.length_append, List.length_take, hoff, Nat.min_eq_left hn]
  have hmem : (i, Ptr.block (off / BSIZE)) ∈
      ptrs (inodes s) (blocks (update c i (c i ++ p.take n))) := by
    refine ⟨hi, ?_⟩
    rw [Ptr.Below, blocks, update_self, hlen]
    exact div_lt_nblk (by omega)
  have hU := ha.mem hi (hlen ▸ div_lt_nblk (by omega))
  have hinodes : inodes { s' with
      image := update s'.image r.1.toNat
        ((s'.image r.1.toNat).store (off % BSIZE) n (Bytes.ofList p)) } = inodes s := by
    rw [inodes, inodes, ha.freeinode]
  constructor
  · rw [hinodes]
    exact ha.own.write (.inr ⟨i, _, hmem, ha.found⟩) _
  · rw [hinodes]
    intro j hj o ho
    have hjmem : (j, Ptr.block (o / BSIZE)) ∈
        ptrs (inodes s) (blocks (update c i (c i ++ p.take n))) := ⟨hj, div_lt_nblk ho⟩
    have hbyte := ha.own.byte_store hmem (o := off % BSIZE) (n := n) (f := Bytes.ofList p) hjmem
    rw [ha.found] at hbyte
    rw [hbyte]
    by_cases hji : j = i
    · subst hji
      rw [update_self] at ho ⊢
      rw [hlen] at ho
      rcases Nat.lt_or_ge o off with hlt' | hge
      · rw [if_neg (by simp only [BSIZE]; omega), ha.same.byte_eq (h.mem hj (hoff ▸ hlt')),
          h.bytes j hj o (hoff ▸ hlt'), List.getD_append _ _ _ _ (hoff ▸ hlt')]
      · have hcond : (j = j ∧ o / BSIZE = off / BSIZE) ∧ off % BSIZE ≤ o % BSIZE ∧
            o % BSIZE < off % BSIZE + n := by
          simp only [BSIZE] at hroom ⊢
          exact ⟨⟨trivial, by omega⟩, by omega, by omega⟩
        have hsub : o % BSIZE - off % BSIZE = o - off := by
          simp only [BSIZE] at hcond ⊢
          omega
        rw [if_pos hcond, hsub, Bytes.ofList, List.getD_append_right _ _ _ _ (hoff ▸ hge), ← hoff,
          List.getD_eq_getElem?_getD, List.getD_eq_getElem?_getD,
          List.getElem?_take_of_lt (by omega)]
    · rw [update_of_ne hji] at ho ⊢
      rw [if_neg fun hcond => hji hcond.1.1, ha.same.byte_eq (h.mem hj ho), h.bytes j hj o ho]
  · intro b hb
    simp only at hb ⊢
    rw [update_of_ne (hU.2.trans_le hb).ne', ha.fresh b hb]
  · rw [ha.count, ha.freeinode]
  · have := ha.freeblock_le
    have := h.freeblock_le
    simp only
    omega
  · rw [hinodes]
    intro j hj
    by_cases hji : j = i
    · subst hji
      rw [update_self, ha.type, h.type j hj]
    · rw [update_of_ne hji, h.type j hj]
  · rw [hinodes]
    intro j hj
    by_cases hji : j = i
    · subst hji
      rw [update_self, ha.nlink, h.nlink j hj]
    · rw [update_of_ne hji, h.nlink j hj]
  · have hne : 1 ≠ r.1.toNat := fun e => absurd hU.1 (by rw [← e]; decide)
    simp only
    rw [update_of_ne hne, ha.low 1 (by decide), h.super]

/-- The bytes of `p` are appended to the file `i`, unless it gets too long or the image too
    small. -/
theorem iappendLoop_spec (fuel : ℕ) : ∀ {T : ℕ → Dinode} {s : State} {c : ℕ → List UInt8}
    {din : Dinode} {off : ℕ} {p : List UInt8}, Layout T s c → i ∈ inodes s → T i = din →
    off = (c i).length → p.length ≤ fuel →
    wp (iappendLoop fuel din off p) (fun r s' =>
        Layout (update T i r.1) s' (update c i (c i ++ p)) ∧
        r.2 = off + p.length ∧ (∀ b < nmeta, s'.image b = s.image b) ∧
        s'.freeinode = s.freeinode ∧ r.1.size = (T i).size)
      (fun _ => FSSIZE < nmeta + total s.freeinode (update c i (c i ++ p)) ∨
        MAXFILE * BSIZE < (c i ++ p).length) s := by
  have hnil {T : ℕ → Dinode} {s : State} {c : ℕ → List UInt8} {din : Dinode} {off : ℕ}
      {p : List UInt8} (h : Layout T s c) (hT : T i = din) (hp : p = []) :
      Layout (update T i din) s (update c i (c i ++ p)) ∧
        off = off + p.length ∧ (∀ b < nmeta, s.image b = s.image b) ∧
        s.freeinode = s.freeinode ∧ din.size = (T i).size := by
    subst hp
    rw [List.append_nil, update_eq_self, ← hT, update_eq_self]
    exact ⟨h, rfl, fun _ _ => rfl, rfl, rfl⟩
  induction fuel with
  | zero =>
    intro T s c din off p h _ hT _ hp
    exact hnil h hT (List.length_eq_zero_iff.mp (by omega))
  | succ fuel ih =>
    intro T s c din off p h hi hT hoff hp
    rw [iappendLoop]
    refine wp_ite (fun hp0 => hnil h hT (List.length_eq_zero_iff.mp hp0)) fun hp0 => ?_
    refine wp_ite (fun hmax => ?_) fun hmax => .inr ?_
    · obtain ⟨n, hn⟩ : ∃ n, n = min p.length ((off / BSIZE + 1) * BSIZE - off) := ⟨_, rfl⟩
      have hpos : 0 < n := by simp only [BSIZE] at hn; omega
      have hle : n ≤ p.length := by omega
      have hroom : n ≤ BSIZE - off % BSIZE := by simp only [BSIZE] at hn ⊢; omega
      have hl : nblk (c i ++ p.take n).length = off / BSIZE + 1 := by
        rw [List.length_append, List.length_take, ← hoff, Nat.min_eq_left hle]
        simp only [nblk, BSIZE] at hroom ⊢
        omega
      -- what is appended here is part of what is appended in all
      have htotal : total s.freeinode (update c i (c i ++ p.take n)) ≤
          total s.freeinode (update c i (c i ++ p)) := by
        refine total_mono le_rfl fun j _ => ?_
        by_cases hj : j = i
        · subst hj
          rw [update_self, update_self, List.length_append, List.length_append,
            List.length_take]
          omega
        · rw [update_of_ne hj, update_of_ne hj]
      rw [wp_bind]
      refine wp_mono (appendBlock_spec h hi hT hoff hmax hl) ?_ fun _ he => .inl (by omega)
      rintro ⟨x, din'⟩ s₁ ha
      have hU := ha.mem hi (by omega)
      simp only [rsect, wsect, wp_bind, wp_get, ← hn]
      refine wp_ite (fun hx => ?_) fun hx => .inl ?_
      · have hlay := ha.store h hi hoff hle hpos hroom hx
        have hmod : off - off / BSIZE * BSIZE = off % BSIZE := by simp only [BSIZE]; omega
        rw [wp_pure, wp_update, hmod]
        have happ : c i ++ p.take n ++ p.drop n = c i ++ p := by
          rw [List.append_assoc, List.take_append_drop]
        have hrec := @ih _ _ _ _ (off + n) (p.drop n) hlay (by rwa [inodes, ha.freeinode])
          (update_self ..)
          (by rw [update_self, List.length_append, List.length_take, ← hoff,
            Nat.min_eq_left hle])
          (by rw [List.length_drop]; omega)
        simp only [update_self, update_idem, happ] at hrec
        refine wp_mono hrec ?_ ?_
        · rintro r s₂ ⟨hlay₂, hr, hlow, hfree, hsize⟩
          refine ⟨hlay₂, ?_, fun b hb => ?_, hfree.trans ha.freeinode, hsize.trans ha.size⟩
          · rw [hr, List.length_drop]
            omega
          · rw [hlow b hb, update_of_ne (hb.trans_le hU.1).ne, ha.low b hb]
        · rintro e he
          rwa [ha.freeinode] at he
      · have := ha.count
        have : x.toNat < s₁.freeblock := hU.2
        omega
    · rw [List.length_append, ← hoff]
      simp only [BSIZE] at hmax ⊢
      omega

/-! ## The functions of mkfs -/

/-- The image between two calls: the inodes on disk have the contents `c`, and the others are
    free. -/
structure Clean (s : State) (c : ℕ → List UInt8) : Prop where
  layout : Layout (dinode sb s.image) s c
  size : ∀ i ∈ inodes s, (dinode sb s.image i).size.toNat = (c i).length
  free : ∀ i < NINODES, i ∉ inodes s → dinode sb s.image i = {}
  one_le : 1 ≤ s.freeinode
  freeinode_le : s.freeinode ≤ NINODES

theorem IBLOCK_lt (hi : i < NINODES) : IBLOCK sb i < nmeta := by
  simp only [IBLOCK, sb, IPB, NINODES, nmeta, nlog, ninodeblocks] at hi ⊢
  omega

theorem IBLOCK_ne_one : IBLOCK sb i ≠ 1 := by
  simp only [IBLOCK, sb, IPB, nlog]
  omega

theorem wp_winode {Q : Unit → State → Prop} {E : Exit → Prop} (hi : i < NINODES)
    (hQ : Q () { s with image := setDinode sb s.image i din }) : wp (winode i din) Q E s := by
  have hlt : IBLOCK sb i < FSSIZE := (IBLOCK_lt hi).trans (by decide)
  rw [winode, rsect]
  simp only [wp_bind, wp_get]
  rw [if_pos hlt]
  exact hQ

theorem wp_rinode {Q : Dinode → State → Prop} {E : Exit → Prop} (hi : i < NINODES)
    (hQ : Q (dinode sb s.image i) s) : wp (rinode i) Q E s := by
  have hlt : IBLOCK sb i < FSSIZE := (IBLOCK_lt hi).trans (by decide)
  rw [rinode, rsect]
  simp only [wp_bind, wp_get]
  rw [if_pos hlt]
  exact hQ

/-- The inodes on disk depend on the blocks before the data only. -/
theorem dinode_congr (hi : i < NINODES) (h : ∀ b < nmeta, s'.image b = s.image b) :
    dinode sb s'.image i = dinode sb s.image i := by
  rw [dinode, h _ (IBLOCK_lt hi), dinode]

theorem iappend_spec (h : Clean s c) (hi : i ∈ inodes s) :
    wp (iappend i p) (fun _ s' => Clean s' (update c i (c i ++ p)) ∧
        s'.freeinode = s.freeinode)
      (fun _ => FSSIZE < nmeta + total s.freeinode (update c i (c i ++ p)) ∨
        MAXFILE * BSIZE < (c i ++ p).length) s := by
  have hlt (j : ℕ) (hj : j ∈ inodes s) : j < NINODES := hj.2.trans_le h.freeinode_le
  rw [iappend, wp_bind]
  refine wp_rinode (hlt i hi) ?_
  rw [wp_bind]
  refine wp_imp (iappendLoop_spec _ h.layout hi rfl (h.size i hi) le_rfl) ?_
  rintro ⟨din, off⟩ s₁ ⟨hlay, hoff, hlow, hfree, -⟩
  have hinodes : inodes s₁ = inodes s := by rw [inodes, inodes, hfree]
  have hlen := hlay.length_le (hinodes ▸ hi)
  rw [update_self] at hlen
  refine wp_winode (hlt i hi) ⟨⟨?_, fun j hj => ?_, fun j hj hj' => ?_, ?_, ?_⟩, hfree⟩
  · refine (hlay.update_low (IBLOCK_lt (hlt i hi)) IBLOCK_ne_one _).congr fun j hj => ?_
    have hj : j ∈ inodes s := hinodes ▸ hj
    by_cases hji : j = i
    · subst hji
      rw [dinode_setDinode_self, update_self]
      exact ⟨rfl, rfl, rfl⟩
    · rw [dinode_setDinode_of_ne hji, dinode_congr (hlt j hj) hlow, update_of_ne hji]
      exact ⟨rfl, rfl, rfl⟩
  · have hj : j ∈ inodes s := hinodes ▸ hj
    by_cases hji : j = i
    · subst hji
      rw [dinode_setDinode_self, update_self]
      have hoff : off = (c j ++ p).length := by
        rw [List.length_append, ← h.size j hi]
        exact hoff
      simp only
      rw [hoff, UInt32.toNat_ofNat', Nat.mod_eq_of_lt]
      simp only [MAXFILE, BSIZE, NDIRECT, NINDIRECT] at hlen
      omega
    · rw [dinode_setDinode_of_ne hji, dinode_congr (hlt j hj) hlow, update_of_ne hji,
        h.size j hj]
  · have hj' : j ∉ inodes s := hinodes ▸ hj'
    have hji : j ≠ i := fun e => hj' (e ▸ hi)
    rw [dinode_setDinode_of_ne hji, dinode_congr hj hlow, h.free j hj hj']
  · exact hfree ▸ h.one_le
  · exact hfree ▸ h.freeinode_le

/-- A new file is empty. -/
theorem ptrs_alloc (A : Set ℕ) (hi : i ∉ A) :
    ptrs (insert i A) (blocks (update c i [])) = ptrs A (blocks c) := by
  ext ⟨j, p⟩
  simp only [ptrs, Set.mem_ofPred_eq, Set.mem_insert_iff]
  by_cases hj : j = i
  · subst hj
    have hb : ¬p.Below (blocks (update c j []) j) := by
      rw [blocks, update_self]
      cases p with
      | block bn => exact Nat.not_lt_zero _
      | indirect => exact Nat.not_lt_zero _
    exact iff_of_false (fun h => hb h.2) fun h => hi h.1
  · rw [blocks, update_of_ne hj, blocks, or_iff_right hj]

theorem total_alloc (hn : 1 ≤ n) : total (n + 1) (update c n []) = total n c := by
  have hrest : total n (update c n []) = total n c :=
    Finset.sum_congr rfl fun j hj => by
      rw [update_of_ne (Finset.mem_Ico.mp hj).2.ne]
  rw [total, Finset.sum_Ico_succ_top hn, ← total, hrest, update_self]
  rfl

/-- The next inode, of a file without contents. -/
theorem Layout.alloc (h : Layout T s c) (hone : 1 ≤ s.freeinode) (hx : din.addrs = fun _ => 0)
    (htype : din.type = if s.freeinode = ROOTINO then T_DIR else T_FILE) (hnlink : din.nlink = 1) :
    Layout (update T s.freeinode din) { s with freeinode := s.freeinode + 1 }
      (update c s.freeinode []) := by
  have hnew : s.freeinode ∉ inodes s := fun hi => lt_irrefl _ hi.2
  have hinodes : inodes { s with freeinode := s.freeinode + 1 } = insert s.freeinode (inodes s) :=
    (insert_freeblock hone).symm
  have hold (i : ℕ) (hi : i ∈ inodes s) : i ≠ s.freeinode := fun e => hnew (e ▸ hi)
  refine ⟨?_, fun i hi off hoff => ?_, h.fresh, ?_, h.freeblock_le, fun i hi => ?_,
    fun i hi => ?_, h.super⟩
  · rw [hinodes, ptrs_alloc _ hnew]
    exact h.own.alloc hnew hx
  · rcases hinodes ▸ hi with rfl | hi
    · rw [update_self] at hoff
      exact absurd hoff (Nat.not_lt_zero _)
    · rw [update_of_ne (hold i hi)] at hoff ⊢
      have ht (q : Ptr) : target (update T s.freeinode din) s.image (i, q) =
          target T s.image (i, q) := by rw [target, update_of_ne (hold i hi), target]
      have hbyte := h.bytes i hi off hoff
      rw [byte] at hbyte ⊢
      rw [ht, hbyte]
  · rw [total_alloc hone]
    exact h.count
  · rcases hinodes ▸ hi with rfl | hi
    · rw [update_self, htype]
    · rw [update_of_ne (hold i hi), h.type i hi]
  · rcases hinodes ▸ hi with rfl | hi
    · rw [update_self, hnlink]
    · rw [update_of_ne (hold i hi), h.nlink i hi]

theorem ialloc_spec {type : Int16} (h : Clean s c) (hlt : s.freeinode < NINODES)
    (htype : type = if s.freeinode = ROOTINO then T_DIR else T_FILE) :
    wp (ialloc type) (fun i s' => i = s.freeinode ∧ s'.freeinode = s.freeinode + 1 ∧
      Clean s' (update c i [])) (fun _ => False) s := by
  have hnew : s.freeinode ∉ inodes s := fun hi => lt_irrefl _ hi.2
  have hold (j : ℕ) (hj : j ∈ Set.Ico 1 (s.freeinode + 1)) (hne : j ≠ s.freeinode) :
      j ∈ inodes s := ⟨hj.1, by have := hj.2; omega⟩
  rw [ialloc]
  simp only [wp_bind, wp_get, wp_update]
  refine wp_winode hlt ⟨rfl, rfl, ?_, fun j hj => ?_, fun j hj hj' => ?_, ?_, ?_⟩
  · have hlow := h.layout.update_low (IBLOCK_lt hlt) IBLOCK_ne_one
      ((s.image (IBLOCK sb s.freeinode)).setElem 64 (s.freeinode % IPB)
        { type := type, nlink := 1 : Dinode }.encode)
    refine (hlow.alloc h.one_le (show { type := type, nlink := 1 : Dinode }.addrs = _ from rfl)
      htype rfl).congr
      fun j _ => ?_
    by_cases hj : j = s.freeinode
    · subst hj
      rw [dinode_setDinode_self, update_self]
      exact ⟨rfl, rfl, rfl⟩
    · rw [dinode_setDinode_of_ne hj, update_of_ne hj]
      exact ⟨rfl, rfl, rfl⟩
  · by_cases hjf : j = s.freeinode
    · subst hjf
      rw [dinode_setDinode_self, update_self]
      rfl
    · rw [dinode_setDinode_of_ne hjf, update_of_ne hjf, h.size j (hold j hj hjf)]
  · have hjf : j ≠ s.freeinode := fun e => hj' ⟨e ▸ h.one_le, by simp only; omega⟩
    rw [dinode_setDinode_of_ne hjf]
    exact h.free j hj fun hmem => hj' ⟨hmem.1, hmem.2.trans (Nat.lt_succ_self _)⟩
  · exact Nat.le_succ_of_le h.one_le
  · exact hlt

end Xv6.Mkfs
