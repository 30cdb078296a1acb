import Mathlib.Order.Interval.Finset.Nat
import Xv6.Disk.Read

/-!
# Allocating blocks

A disk on which the bitmap tells the blocks in use: `Blocks sb T d A n` says that the inodes in `A`
of the table `T` have `n i` blocks each, every one a block of its own in the data area, and that
these blocks and those before the data area are the ones marked in the bitmap. `balloc` hands out a
block of the data area that no inode has (`wp_balloc`), and `bmap` of the block after the last one
makes the inode one block longer (`wp_bmap_grow`), or there is no free block, or the log is full.

What is put into the log on the way is counted with `Logs`.
-/

namespace Xv6.Disk

open Prog Function

/-! ## The parts of the disk -/

/-- The first block after the bitmap. -/
def Superblock.datastart (sb : Superblock) : ℕ := sb.bmapstart + (sb.size / BPB + 1)

/-- The inodes, the bitmap and the data follow each other. -/
structure Superblock.Apart (sb : Superblock) : Prop where
  inodes : sb.inodestart + (sb.ninodes / IPB + 1) ≤ sb.bmapstart
  data : sb.datastart ≤ sb.size
  size_lt : sb.size < 2 ^ 32

variable {sb : Superblock} {T T' : ℕ → Dinode} {d d' : Sectors} {A : Set ℕ} {L : Set (ℕ × Ptr)}
    {n : ℕ → ℕ}
  {s s' : State} {ip : Ip} {i j b c bn : ℕ} {E : Panic → Prop}

theorem Superblock.Apart.IBLOCK_lt (h : sb.Apart) (hi : i < sb.ninodes) :
    IBLOCK sb i < sb.bmapstart := by
  have := h.inodes
  simp only [IBLOCK, IPB] at this ⊢
  omega

theorem BBLOCK_lt (hb : b < sb.size) : BBLOCK sb b < sb.datastart := by
  simp only [BBLOCK, Superblock.datastart, BPB, BSIZE]
  omega

theorem le_BBLOCK : sb.bmapstart ≤ BBLOCK sb b := Nat.le_add_left ..

theorem bmapstart_lt (sb : Superblock) : sb.bmapstart < sb.datastart :=
  Nat.lt_add_of_pos_right (Nat.succ_pos _)

/-- The blocks of the bitmap. -/
def bitmap (sb : Superblock) : Finset ℕ := Finset.Ico sb.bmapstart sb.datastart

theorem card_bitmap (sb : Superblock) : (bitmap sb).card = sb.size / BPB + 1 := by
  rw [bitmap, Nat.card_Ico, Superblock.datastart, Nat.add_sub_cancel_left]

theorem BBLOCK_mem (hb : b < sb.size) : BBLOCK sb b ∈ bitmap sb :=
  Finset.mem_Ico.2 ⟨le_BBLOCK, BBLOCK_lt hb⟩

/-- The blocks that are not in use. -/
def freeBlocks (sb : Superblock) (d : Sectors) : Finset ℕ :=
  (Finset.range sb.size).filter fun b => used sb d b = false

theorem mem_freeBlocks : b ∈ freeBlocks sb d ↔ b < sb.size ∧ used sb d b = false := by
  rw [freeBlocks, Finset.mem_filter, Finset.mem_range]

/-- The blocks in use in the data area. -/
def inUse (sb : Superblock) (d : Sectors) : Set ℕ :=
  {b | sb.datastart ≤ b ∧ b < sb.size ∧ used sb d b = true}

/-- The inodes in `A` have `n i` blocks each, which are those in use. -/
structure Blocks (sb : Superblock) (T : ℕ → Dinode) (d : Sectors) (A : Set ℕ) (n : ℕ → ℕ) :
    Prop where
  low : ∀ b < sb.datastart, used sb d b = true
  own : Own T d A (ptrs A n) (inUse sb d)

/-! ## A block is allocated -/

/-- The disk after the block `b` was allocated. -/
def allocDisk (sb : Superblock) (d : Sectors) (b : ℕ) : Sectors :=
  Function.update (Function.update d (BBLOCK sb b) ((d (BBLOCK sb b)).setBit (b % BPB))) b
  Bytes.zero

/-- The state after `balloc` of `b`. -/
def State.alloc (sb : Superblock) (s : State) (b : ℕ) : State :=
  { s with disk := allocDisk sb s.disk b, log := insert b (insert (BBLOCK sb b) s.log) }

@[simp] theorem allocDisk_self : allocDisk sb d b b = Bytes.zero := update_self ..

theorem allocDisk_of_ne (h : c ≠ b) (hb : c ≠ BBLOCK sb b) : allocDisk sb d b c = d c := by
  rw [allocDisk, update_of_ne h, update_of_ne hb]

theorem used_allocDisk (hb : sb.datastart ≤ b) (hc : c < sb.size) :
    used sb (allocDisk sb d b) c = (decide (c = b) || used sb d c) := by
  have hne : BBLOCK sb c ≠ b := ((BBLOCK_lt hc).trans_le hb).ne
  rw [used, allocDisk, update_of_ne hne]
  by_cases hcb : BBLOCK sb c = BBLOCK sb b
  · have hiff : c % BPB = b % BPB ↔ c = b := by
      simp only [BBLOCK, BPB, BSIZE] at hcb ⊢
      omega
    rw [hcb, update_self, Bytes.bit_setBit, used, hcb]
    simp only [hiff]
  · have hne : c ≠ b := fun e => hcb (e ▸ rfl)
    rw [update_of_ne hcb, decide_eq_false hne, Bool.false_or, used]

theorem freeBlocks_allocDisk (hb : sb.datastart ≤ b) :
    freeBlocks sb (allocDisk sb d b) = (freeBlocks sb d).erase b := by
  ext c
  rw [Finset.mem_erase, mem_freeBlocks, mem_freeBlocks]
  refine ⟨fun ⟨hc, hu⟩ => ?_, fun ⟨hne, hc, hu⟩ => ⟨hc, ?_⟩⟩
  · rw [used_allocDisk hb hc, Bool.or_eq_false_iff] at hu
    exact ⟨of_decide_eq_false hu.1, hc, hu.2⟩
  · rw [used_allocDisk hb hc, hu, decide_eq_false hne, Bool.false_or]

theorem inUse_allocDisk (hb : sb.datastart ≤ b) (hlt : b < sb.size) :
    inUse sb (allocDisk sb d b) = insert b (inUse sb d) := by
  ext c
  simp only [inUse, Set.mem_ofPred_eq, Set.mem_insert_iff]
  refine ⟨fun ⟨hge, hc, hu⟩ => ?_, ?_⟩
  · rw [used_allocDisk hb hc, Bool.or_eq_true, decide_eq_true_eq] at hu
    exact hu.imp id fun hu => ⟨hge, hc, hu⟩
  · rintro (rfl | ⟨hge, hc, hu⟩)
    · exact ⟨hb, hlt, by rw [used_allocDisk hb hlt, decide_eq_true rfl, Bool.true_or]⟩
    · exact ⟨hge, hc, by rw [used_allocDisk hb hc, hu, Bool.or_true]⟩

/-- Only the bitmap matters. -/
theorem inUse_congr (h : ∀ b < sb.size, used sb d' b = used sb d b) : inUse sb d' = inUse sb d := by
  ext b
  simp only [inUse, Set.mem_ofPred_eq]
  exact ⟨fun ⟨hge, hlt, hu⟩ => ⟨hge, hlt, h b hlt ▸ hu⟩,
    fun ⟨hge, hlt, hu⟩ => ⟨hge, hlt, h b hlt ▸ hu⟩⟩

theorem freeBlocks_congr (h : ∀ b < sb.size, used sb d' b = used sb d b) :
    freeBlocks sb d' = freeBlocks sb d :=
  Finset.filter_congr fun b hb => by rw [h b (Finset.mem_range.1 hb)]

/-- In a section, a block is put into the log, or the log is full. -/
theorem wp_logWrite {m : Bytes} {Q : Unit → State → Prop} (hop : 0 < s.outstanding)
    (hQ : s.log.card < LOGSIZE - 1 →
      Q () { s with disk := Function.update s.disk b m, log := insert b s.log })
    (hbig : LOGSIZE - 1 ≤ s.log.card → E .tooBig) : wp (logWrite b m) Q E s := by
  rw [logWrite, wp_bind, wp_get]
  refine wp_ite (fun h => hbig ?_) fun h => ?_
  · obtain h | h := h
    · exact (Nat.sub_le _ _).trans h
    · exact h
  rw [if_neg (Nat.not_lt.2 hop), wp_update]
  exact hQ (not_le.1 (not_or.1 h).2)

/-- `balloc` hands out a block that is not in use, or there is none, or the log is full. -/
theorem wp_balloc {Q : ℕ → State → Prop} (hop : 0 < s.outstanding)
    (hlow : ∀ b < sb.datastart, used sb s.disk b = true)
    (hfree : ∀ b, sb.datastart ≤ b → b ∈ freeBlocks sb s.disk → Q b (s.alloc sb b))
    (hfull : freeBlocks sb s.disk = ∅ → E .outOfBlocks)
    (hbig : ∀ b, sb.datastart ≤ b → b ∈ freeBlocks sb s.disk →
      LOGSIZE - 1 ≤ (insert (BBLOCK sb b) s.log).card → E .tooBig) : wp (balloc sb) Q E s := by
  rw [balloc, wp_bind, wp_get]
  match hfind : (List.range sb.size).find? fun b => !used sb s.disk b with
  | some b =>
    have hb : used sb s.disk b = false := by simpa using List.find?_some hfind
    have hlt : b < sb.size := List.mem_range.1 (List.mem_of_find?_eq_some hfind)
    have hge : sb.datastart ≤ b := not_lt.1 fun h => by rw [hlow b h] at hb; cases hb
    have hmem : b ∈ freeBlocks sb s.disk := mem_freeBlocks.2 ⟨hlt, hb⟩
    dsimp only
    rw [wp_bind, wp_bread, wp_bind]
    refine wp_logWrite hop (fun _ => ?_) fun hcard =>
      hbig b hge hmem (hcard.trans (Finset.card_le_card (Finset.subset_insert _ _)))
    rw [wp_bind, bzero]
    exact wp_logWrite hop (fun _ => hfree b hge hmem) (hbig b hge hmem)
  | none =>
    refine hfull (Finset.eq_empty_of_forall_notMem fun b hb => ?_)
    obtain ⟨hlt, hu⟩ := mem_freeBlocks.1 hb
    have := List.find?_eq_none.1 hfind b (List.mem_range.2 hlt)
    rw [hu] at this
    exact this rfl

theorem toNat_block (hsb : sb.Apart) (hb : b ∈ freeBlocks sb d) : (UInt32.ofNat b).toNat = b := by
  have := hsb.size_lt
  rw [UInt32.toNat_ofNat', Nat.mod_eq_of_lt ((mem_freeBlocks.1 hb).1.trans this)]

theorem ofNat_block_ne_zero (hsb : sb.Apart) (hge : sb.datastart ≤ b) (hb : b ∈ freeBlocks sb d) :
    UInt32.ofNat b ≠ 0 := fun h0 => by
  have h := toNat_block hsb hb
  rw [h0, UInt32.toNat_zero] at h
  have := bmapstart_lt sb
  omega

theorem notMem_inUse (hb : b ∈ freeBlocks sb d) : b ∉ inUse sb d := fun h =>
  nomatch h.2.2.symm.trans (mem_freeBlocks.1 hb).2

theorem BBLOCK_notMem_inUse (hb : b < sb.size) : BBLOCK sb b ∉ inUse sb d := fun h =>
  absurd h.1 (not_le.2 (BBLOCK_lt hb))

/-- The block is not one of an inode yet. -/
theorem own_allocDisk (h : Own T d A L (inUse sb d)) (hb : b ∈ freeBlocks sb d) :
    Own T (allocDisk sb d b) A L (inUse sb d) :=
  (h.write (.inl (BBLOCK_notMem_inUse (mem_freeBlocks.1 hb).1)) _).write (.inl (notMem_inUse hb)) _

theorem target_allocDisk {q : ℕ × Ptr} (h : Own T d A L (inUse sb d)) (hb : b ∈ freeBlocks sb d)
    (hA : q.1 ∈ A) : target T (allocDisk sb d b) q = target T d q := by
  have hbm : BBLOCK sb b ∉ inUse sb d := BBLOCK_notMem_inUse (mem_freeBlocks.1 hb).1
  rw [allocDisk, (h.write (.inl hbm) _).target_update (.inl (notMem_inUse hb)) _ hA,
    h.target_update (.inl hbm) _ hA]

theorem sameBlocks_allocDisk (h : Own T d A L (inUse sb d)) (hb : b ∈ freeBlocks sb d) :
    SameBlocks L T d T (allocDisk sb d b) := by
  have hbm : BBLOCK sb b ∉ inUse sb d := BBLOCK_notMem_inUse (mem_freeBlocks.1 hb).1
  exact (h.sameBlocks_update hbm _).trans
    ((h.write (.inl hbm) _).sameBlocks_update (notMem_inUse hb) _)

theorem low_allocDisk (hsb : sb.Apart) (hge : sb.datastart ≤ b)
    (h : ∀ c < sb.datastart, used sb d c = true) :
    ∀ c < sb.datastart, used sb (allocDisk sb d b) c = true := fun c hc => by
  rw [used_allocDisk hge (hc.trans_le hsb.data), h c hc, Bool.or_true]

theorem card_allocDisk (hge : sb.datastart ≤ b) (hb : b ∈ freeBlocks sb d) :
    (freeBlocks sb (allocDisk sb d b)).card + 1 = (freeBlocks sb d).card := by
  rw [freeBlocks_allocDisk hge, Finset.card_erase_add_one hb]

/-! ## An inode grows -/

/-- The number of the pointers of a file of `n` blocks. -/
def nptr (n : ℕ) : ℕ := n + if NDIRECT < n then 1 else 0

theorem nptr_mono {m n : ℕ} (h : m ≤ n) : nptr m ≤ nptr n := by
  rw [nptr, nptr]
  split_ifs <;> omega

theorem nptr_succ_pos (n : ℕ) : 0 < nptr (n + 1) - nptr n := by
  rw [nptr, nptr]
  split_ifs <;> omega

/-- From `l` the log has become `l'`, by writes to the blocks `D` of an inode that has `N` blocks
    now, `m` of its pointers being new: besides the blocks in `D` there are only blocks of the
    bitmap in it, at most one for each allocation, and the indirect block if there was an
    allocation. `t` gives the blocks that the pointers lead to. -/
def Logs (sb : Superblock) (t : Ptr → ℕ) (N : ℕ) (D : Finset ℕ) (m : ℕ) (l l' : Finset ℕ) : Prop :=
  ∃ B ⊆ bitmap sb, B.card ≤ m ∧ ∀ c ∈ l', c ∈ l ∨ c ∈ B ∨ (∃ bn ∈ D, bn < N ∧ c = t (.block bn)) ∨
    (0 < m ∧ NDIRECT < N ∧ c = t .indirect)

namespace Logs

variable {t t' : Ptr → ℕ} {N N' m m' : ℕ} {D D' l l₁ l' : Finset ℕ}

theorem refl : Logs sb t N D 0 l l :=
  ⟨∅, Finset.empty_subset _, le_rfl, fun _ hc => .inl hc⟩

theorem subset (h : Logs sb t N D m l l') (hsub : l₁ ⊆ l') : Logs sb t N D m l l₁ := by
  obtain ⟨B, hB, hcard, hmem⟩ := h
  exact ⟨B, hB, hcard, fun c hc => hmem c (hsub hc)⟩

theorem mono (h : Logs sb t N D m l l') (hm : m ≤ m') : Logs sb t N D m' l l' := by
  obtain ⟨B, hB, hcard, hmem⟩ := h
  exact ⟨B, hB, hcard.trans hm, fun c hc => (hmem c hc).imp_right (Or.imp_right
    (Or.imp_right fun ⟨hpos, hc⟩ => ⟨hpos.trans_le hm, hc⟩))⟩

theorem of_eq (h : Logs sb t N D m l l') (ht : ∀ p : Ptr, p.Below N → t' p = t p) :
    Logs sb t' N D m l l' := by
  obtain ⟨B, hB, hcard, hmem⟩ := h
  refine ⟨B, hB, hcard, fun c hc => ?_⟩
  obtain hc | hc | ⟨bn, hbn, hlt, rfl⟩ | ⟨hm, hlt, rfl⟩ := hmem c hc
  · exact .inl hc
  · exact .inr (.inl hc)
  · exact .inr (.inr (.inl ⟨bn, hbn, hlt, (ht (.block bn) hlt).symm⟩))
  · exact .inr (.inr (.inr ⟨hm, hlt, (ht .indirect hlt).symm⟩))

/-- Only the indirect block matters if no other was written. -/
theorem of_empty (h : Logs sb t N ∅ m l l') (ht : t' .indirect = t .indirect) :
    Logs sb t' N D m l l' := by
  obtain ⟨B, hB, hcard, hmem⟩ := h
  refine ⟨B, hB, hcard, fun c hc => ?_⟩
  obtain hc | hc | ⟨bn, hbn, -⟩ | hc := hmem c hc
  · exact .inl hc
  · exact .inr (.inl hc)
  · exact absurd hbn (Finset.notMem_empty bn)
  · exact .inr (.inr (.inr (ht ▸ hc)))

/-- A block is allocated. -/
theorem bitmap (h : Logs sb t N D m l l') (hb : b < sb.size) :
    Logs sb t N D (m + 1) l (insert (BBLOCK sb b) l') := by
  obtain ⟨B, hB, hcard, hmem⟩ := h
  refine ⟨insert (BBLOCK sb b) B, Finset.insert_subset (BBLOCK_mem hb) hB,
    (Finset.card_insert_le _ _).trans (Nat.succ_le_succ hcard), fun c hc => ?_⟩
  obtain rfl | hc := Finset.mem_insert.1 hc
  · exact .inr (.inl (Finset.mem_insert_self _ _))
  obtain hc | hc | hc | ⟨-, hc⟩ := hmem c hc
  · exact .inl hc
  · exact .inr (.inl (Finset.mem_insert_of_mem hc))
  · exact .inr (.inr (.inl hc))
  · exact .inr (.inr (.inr ⟨Nat.succ_pos m, hc⟩))

/-- A block of the inode is written. -/
theorem data (h : Logs sb t N D m l l') (hbn : bn ∈ D) (hlt : bn < N) (hb : b = t (.block bn)) :
    Logs sb t N D m l (insert b l') := by
  obtain ⟨B, hB, hcard, hmem⟩ := h
  refine ⟨B, hB, hcard, fun c hc => ?_⟩
  obtain rfl | hc := Finset.mem_insert.1 hc
  · exact .inr (.inr (.inl ⟨bn, hbn, hlt, hb⟩))
  · exact hmem c hc

/-- The indirect block is written. -/
theorem indirect (h : Logs sb t N D m l l') (hm : 0 < m) (hlt : NDIRECT < N)
    (hc : c = t .indirect) :
    Logs sb t N D m l (insert c l') := by
  obtain ⟨B, hB, hcard, hmem⟩ := h
  refine ⟨B, hB, hcard, fun c' hc' => ?_⟩
  obtain rfl | hc' := Finset.mem_insert.1 hc'
  · exact .inr (.inr (.inr ⟨hm, hlt, hc⟩))
  · exact hmem c' hc'

/-- The pointers that are there stay what they are. -/
theorem trans (h : Logs sb t N D m l l₁) (h' : Logs sb t' N' D' m' l₁ l') (hN : N ≤ N')
    (ht : ∀ p : Ptr, p.Below N → t' p = t p) : Logs sb t' N' (D ∪ D') (m + m') l l' := by
  obtain ⟨B, hB, hcard, hmem⟩ := h
  obtain ⟨B', hB', hcard', hmem'⟩ := h'
  refine ⟨B ∪ B', Finset.union_subset hB hB', (Finset.card_union_le _ _).trans (by omega),
    fun c hc => ?_⟩
  obtain hc | hc | ⟨bn, hbn, hlt, rfl⟩ | ⟨hm, hlt, rfl⟩ := hmem' c hc
  · obtain hc | hc | ⟨bn, hbn, hlt, rfl⟩ | ⟨hm, hlt, rfl⟩ := hmem c hc
    · exact .inl hc
    · exact .inr (.inl (Finset.mem_union_left _ hc))
    · exact .inr (.inr (.inl ⟨bn, Finset.mem_union_left _ hbn, hlt.trans_le hN,
        (ht (.block bn) hlt).symm⟩))
    · exact .inr (.inr (.inr ⟨Nat.add_pos_left hm _, hlt.trans_le hN, (ht .indirect hlt).symm⟩))
  · exact .inr (.inl (Finset.mem_union_right _ hc))
  · exact .inr (.inr (.inl ⟨bn, Finset.mem_union_right _ hbn, hlt, rfl⟩))
  · exact .inr (.inr (.inr ⟨Nat.add_pos_right _ hm, hlt, rfl⟩))

theorem card_le (h : Logs sb t N D m l l') : l'.card ≤ l.card + D.card + min (sb.size / BPB + 1) m +
    if 0 < m ∧ NDIRECT < N then 1 else 0 := by
  obtain ⟨B, hB, hcard, hmem⟩ := h
  let I : Finset ℕ := if 0 < m ∧ NDIRECT < N then {t .indirect} else ∅
  have hI : I.card = if 0 < m ∧ NDIRECT < N then 1 else 0 := by
    dsimp only [I]
    split_ifs <;> rfl
  have hsub : l' ⊆ l ∪ D.image (fun bn => t (.block bn)) ∪ B ∪ I := by
    intro c hc
    simp only [Finset.mem_union, Finset.mem_image]
    obtain hc | hc | ⟨bn, hbn, -, rfl⟩ | ⟨hm, hlt, rfl⟩ := hmem c hc
    · exact .inl (.inl (.inl hc))
    · exact .inl (.inr hc)
    · exact .inl (.inl (.inr ⟨bn, hbn, rfl⟩))
    · refine .inr ?_
      dsimp only [I]
      rw [if_pos ⟨hm, hlt⟩]
      exact Finset.mem_singleton_self _
  have hle := (Finset.card_le_card hsub).trans (Finset.card_union_le _ _)
  have hle₂ := Finset.card_union_le (l ∪ D.image fun bn => t (.block bn)) B
  have hle₁ := Finset.card_union_le l (D.image fun bn => t (.block bn))
  have himage : (D.image fun bn => t (.block bn)).card ≤ D.card := Finset.card_image_le
  have hB := Finset.card_le_card hB
  rw [card_bitmap] at hB
  rw [hI] at hle
  omega

end Logs

/-- What an allocation for the entry `ip` leaves alone: all before the bitmap, and of the inode
    cache all but the addresses in the entry. The log only grows. -/
structure Kept (sb : Superblock) (ip : Ip) (s s' : State) : Prop where
  low : ∀ b < sb.bmapstart, s'.disk b = s.disk b
  entry : s'.inode ip = { s.inode ip with
    din := { (s.inode ip).din with addrs := (s'.inode ip).din.addrs } }
  others : ∀ jp, jp ≠ ip → s'.inode jp = s.inode jp
  file : s'.file = s.file
  proc : s'.proc = s.proc
  outstanding : s'.outstanding = s.outstanding
  log : s.log ⊆ s'.log

theorem Kept.refl : Kept sb ip s s :=
    ⟨fun _ _ => rfl, rfl, fun _ _ => rfl, rfl, rfl, rfl, subset_rfl⟩

theorem Kept.trans {s'' : State} (h : Kept sb ip s s') (h' : Kept sb ip s' s'') :
    Kept sb ip s s'' where
  low b hb := (h'.low b hb).trans (h.low b hb)
  entry := by rw [h'.entry, h.entry]
  others jp hjp := (h'.others jp hjp).trans (h.others jp hjp)
  file := h'.file.trans h.file
  proc := h'.proc.trans h.proc
  outstanding := h'.outstanding.trans h.outstanding
  log := h.log.trans h'.log

theorem Kept.dinode_eq (h : Kept sb ip s s') (hsb : sb.Apart) (hi : i < sb.ninodes) :
    dinode sb s'.disk i = dinode sb s.disk i := by
  rw [dinode, h.low _ (hsb.IBLOCK_lt hi), dinode]

/-- A block is allocated and its number put into the entry. -/
theorem Kept.alloc (hge : sb.datastart ≤ b) (k : ℕ) (v : UInt32) :
    Kept sb ip s ((s.alloc sb b).setInode ip
      { s.inode ip with din := (s.inode ip).din.setAddr k v }) where
  low c hc := by
    have := bmapstart_lt sb
    have hle : sb.bmapstart ≤ BBLOCK sb b := le_BBLOCK
    exact allocDisk_of_ne (by omega) (by omega)
  entry := by
    rw [State.setInode_self]
    rfl
  others jp hjp := State.setInode_of_ne hjp
  file := rfl
  proc := rfl
  outstanding := rfl
  log := (Finset.subset_insert _ _).trans (Finset.subset_insert _ _)

/-- The entry `ip` has the block `b` as its block `bn`. -/
structure Grown (sb : Superblock) (T : ℕ → Dinode) (A : Set ℕ) (n : ℕ → ℕ) (s : State) (ip : Ip)
    (i bn b : ℕ) (s' : State) : Prop where
  blocks : Blocks sb (Function.update T i (s'.inode ip).din) s'.disk A
    (Function.update n i (max (n i) (bn + 1)))
  found : target (Function.update T i (s'.inode ip).din) s'.disk (i, .block bn) = b
  ptr : ∀ q ∈ ptrs A n, target (Function.update T i (s'.inode ip).din) s'.disk q = target T s.disk q
  same : SameBlocks (ptrs A n) T s.disk (Function.update T i (s'.inode ip).din) s'.disk
  kept : Kept sb ip s s'
  there : bn < n i → s' = s
  free : (freeBlocks sb s'.disk).card + nptr (max (n i) (bn + 1)) =
    (freeBlocks sb s.disk).card + nptr (n i)
  log : Logs sb (fun p => target (Function.update T i (s'.inode ip).din) s'.disk (i, p))
    (max (n i) (bn + 1)) {bn} (nptr (max (n i) (bn + 1)) - nptr (n i)) s.log s'.log

/-- The entry `ip` has the indirect block `c`. -/
structure Indirect (sb : Superblock) (T : ℕ → Dinode) (A : Set ℕ) (n : ℕ → ℕ) (s : State) (ip : Ip)
    (i c : ℕ) (s' : State) : Prop where
  low : ∀ b < sb.datastart, used sb s'.disk b = true
  own : Own (Function.update T i (s'.inode ip).din) s'.disk A (insert (i, .indirect) (ptrs A n))
    (inUse sb s'.disk)
  ptr : ∀ q ∈ ptrs A n, target (Function.update T i (s'.inode ip).din) s'.disk q = target T s.disk q
  same : SameBlocks (ptrs A n) T s.disk (Function.update T i (s'.inode ip).din) s'.disk
  kept : Kept sb ip s s'
  addr : ((s'.inode ip).din.addr NDIRECT).toNat = c
  free : (freeBlocks sb s'.disk).card + (if n i = NDIRECT then 1 else 0) =
    (freeBlocks sb s.disk).card
  log : Logs sb (fun p => target (Function.update T i (s'.inode ip).din) s'.disk (i, p)) (n i + 1) ∅
    (if n i = NDIRECT then 1 else 0) s.log s'.log

section Bmap

variable (hsb : sb.Apart) (h : Blocks sb T s.disk A n) (hi : i ∈ A) (hT : T i = (s.inode ip).din)

include h hi hT

/-- The block is there already. -/
theorem wp_bmap_there {Q : ℕ → State → Prop} (hbn : bn < n i)
    (hQ : ∀ b, Grown sb T A n s ip i bn b s → Q b s) : wp (bmap sb ip bn) Q E s := by
  have hq : (i, Ptr.block bn) ∈ ptrs A n := ⟨hi, hbn⟩
  have hne := h.own.ne_zero hq
  have hself : update T i (s.inode ip).din = T := by rw [← hT, update_eq_self]
  have hmax : max (n i) (bn + 1) = n i := max_eq_left hbn
  rw [target, hT] at hne
  refine wp_bmap (h.own.valid _ hq).2 hne
    (hQ _ ⟨?_, ?_, fun q _ => ?_, ?_, .refl, fun _ => rfl, ?_, Logs.refl.mono (Nat.zero_le _)⟩)
  · rw [hself, hmax, update_eq_self]
    exact h
  · rw [hself, target, hT]
  · rw [hself]
  · rw [hself]
    exact .refl
  · rw [hmax]

include hsb

/-- The next block is a direct one. -/
theorem grown_direct (hd : n i < NDIRECT) (hge : sb.datastart ≤ b) (hb : b ∈ freeBlocks sb s.disk) :
    Grown sb T A n s ip i (n i) b ((s.alloc sb b).setInode ip
      { s.inode ip with din := (s.inode ip).din.setAddr (n i) (.ofNat b) }) := by
  have hv := toNat_block hsb hb
  have hnew : (i, Ptr.block (n i)) ∉ ptrs A n := fun hq => lt_irrefl _ hq.2
  have hown := (own_allocDisk h.own hb).setDirect (v := .ofNat b) hi hd hnew
    (ofNat_block_ne_zero hsb hge hb) (by rw [hv]; exact notMem_inUse hb)
  have hmax : max (n i) (n i + 1) = n i + 1 := by omega
  have hfound : target (update T i ((s.inode ip).din.setAddr (n i) (.ofNat b)))
      (allocDisk sb s.disk b) (i, .block (n i)) = b := by
    rw [target, update_self, Dinode.ptr_direct hd, Dinode.addr_setAddr_self, hv]
  have hptr (q : ℕ × Ptr) (hq : q ∈ ptrs A n) :
      target (update T i ((s.inode ip).din.setAddr (n i) (.ofNat b)))
        (allocDisk sb s.disk b) q = target T s.disk q := by
    rw [← hT, Own.target_setDirect hd fun e => hnew (e ▸ hq), target_allocDisk h.own hb hq.1]
  rw [hv, hT, ← inUse_allocDisk hge (mem_freeBlocks.1 hb).1, ← ptrs_update_succ hi
    (by omega)] at hown
  refine ⟨⟨low_allocDisk hsb hge h.low, ?_⟩, ?_, ?_, ?_, .alloc hge _ _, fun hlt => by omega, ?_,
    ?_⟩
  · rw [State.setInode_self, hmax]
    exact hown
  · rw [State.setInode_self]
    exact hfound
  · rw [State.setInode_self]
    exact hptr
  · rw [State.setInode_self]
    exact fun j bn hq => ⟨hptr _ hq, (sameBlocks_allocDisk h.own hb j bn hq).2⟩
  · have hcard := card_allocDisk hge hb
    have hnptr : nptr (n i + 1) = nptr (n i) + 1 := by
      rw [nptr, nptr, if_neg (by omega), if_neg (by omega)]
    rw [hmax, hnptr]
    change (freeBlocks sb (allocDisk sb s.disk b)).card + _ = _
    omega
  · rw [State.setInode_self, hmax]
    exact ((Logs.refl.bitmap (mem_freeBlocks.1 hb).1).data (Finset.mem_singleton_self _)
      (Nat.lt_succ_self _) hfound.symm).mono (nptr_succ_pos _)

omit hsb h hT in
theorem insert_indirect (hlt : NDIRECT < n i) : insert (i, Ptr.indirect) (ptrs A n) = ptrs A n :=
  Set.insert_eq_self.2 ⟨hi, hlt⟩

/-- The indirect block is there, or a new one. -/
theorem wp_bmapIndirect {Q : ℕ → State → Prop} (hop : 0 < s.outstanding) (hle : NDIRECT ≤ n i)
    (hQ : ∀ c s', Indirect sb T A n s ip i c s' → Q c s')
    (hfull : n i = NDIRECT → freeBlocks sb s.disk = ∅ → E .outOfBlocks)
    (hbig : ∀ c < sb.size, LOGSIZE - 1 ≤ (insert (BBLOCK sb c) s.log).card → E .tooBig) :
    wp (bmapIndirect sb ip) Q E s := by
  have hself : update T i (s.inode ip).din = T := by rw [← hT, update_eq_self]
  rw [bmapIndirect, wp_bind, wp_getInode]
  obtain heq | hlt := hle.eq_or_lt
  · have hnew : (i, Ptr.indirect) ∉ ptrs A n := fun hq => heq.not_lt hq.2
    have h0 : (s.inode ip).din.addr NDIRECT = 0 := by
      rw [← hT]
      exact not_ne_iff.1 (mt (h.own.mem_indirect_iff hi).2 hnew)
    rw [if_pos h0, wp_bind]
    refine wp_balloc hop h.low (fun c hge hc => ?_) (hfull heq.symm)
      fun c _ hc => hbig c (mem_freeBlocks.1 hc).1
    have hv := toNat_block hsb hc
    have hown := (own_allocDisk h.own hc).setIndirect (v := .ofNat c) hi hnew
      (ofNat_block_ne_zero hsb hge hc) (by rw [hv]; exact notMem_inUse hc)
      (by rw [hv, allocDisk_self])
    rw [hv, hT, ← inUse_allocDisk hge (mem_freeBlocks.1 hc).1] at hown
    rw [wp_bind, modifyDin, wp_modifyInode, wp_pure]
    have hptr (q : ℕ × Ptr) (hq : q ∈ ptrs A n) :
        target (update T i ((s.inode ip).din.setAddr NDIRECT (.ofNat c)))
          (allocDisk sb s.disk c) q = target T s.disk q := by
      have hd : allocDisk sb s.disk c (UInt32.ofNat c).toNat =
        Bytes.zero := by rw [hv, allocDisk_self]
      have hx : (T i).addr NDIRECT = 0 := by rw [hT, h0]
      rw [← hT, Own.target_setIndirect hx (ofNat_block_ne_zero hsb hge hc) hd fun e =>
        hnew (e ▸ hq),
        target_allocDisk h.own hc hq.1]
    have haddr : (((s.inode ip).din.setAddr NDIRECT (.ofNat c)).addr NDIRECT).toNat = c :=
      (congrArg _ Dinode.addr_setAddr_self).trans hv
    refine hQ c _ ⟨low_allocDisk hsb hge h.low, ?_, ?_, ?_, .alloc hge _ _, ?_, ?_, ?_⟩
    · rw [State.setInode_self]
      exact hown
    · rw [State.setInode_self]
      exact hptr
    · rw [State.setInode_self]
      exact fun j bn hq => ⟨hptr _ hq, (sameBlocks_allocDisk h.own hc j bn hq).2⟩
    · rw [State.setInode_self]
      exact haddr
    · rw [if_pos heq.symm]
      exact card_allocDisk hge hc
    · rw [State.setInode_self, if_pos heq.symm]
      refine (Logs.refl.bitmap (mem_freeBlocks.1 hc).1).indirect one_pos (by omega) ?_
      rw [target, update_self, Dinode.ptr_indirect]
      exact haddr.symm
  · have hx : (s.inode ip).din.addr NDIRECT ≠ 0 := by
      rw [← hT]
      exact (h.own.mem_indirect_iff hi).1 ⟨hi, hlt⟩
    rw [if_neg hx, wp_pure]
    refine hQ _ _ ⟨h.low, ?_, fun q _ => ?_, ?_, .refl, rfl, ?_, Logs.refl.mono (Nat.zero_le _)⟩
    · rw [hself, insert_indirect hi hlt]
      exact h.own
    · rw [hself]
    · rw [hself]
      exact .refl
    · rw [if_neg hlt.ne', Nat.add_zero]

omit h hT in
/-- The next block is in the indirect block. -/
theorem Indirect.grown {s₁ : State} (h₁ : Indirect sb T A n s ip i c s₁) (hle : NDIRECT ≤ n i)
    (hmax : n i < MAXFILE) (hge : sb.datastart ≤ b) (hb : b ∈ freeBlocks sb s₁.disk) :
    Grown sb T A n s ip i (n i) b { s₁.alloc sb b with
      disk := update (allocDisk sb s₁.disk b) c
        ((s₁.disk c).setWord (n i - NDIRECT) (.ofNat b))
      log := insert c (s₁.alloc sb b).log } := by
  have hv := toNat_block hsb hb
  have hind : (i, Ptr.indirect) ∈ insert (i, .indirect) (ptrs A n) := .inl rfl
  have hnew : (i, Ptr.block (NDIRECT + (n i - NDIRECT))) ∉ insert (i, .indirect) (ptrs A n) := by
    rw [Nat.add_sub_cancel' hle]
    rintro (hq | hq)
    · cases hq
    · exact lt_irrefl _ hq.2
  have hTi : update T i (s₁.inode ip).din i = (s₁.inode ip).din := update_self ..
  have hc : c ∈ inUse sb s₁.disk := by
    have := h₁.own.mem hind
    rwa [target, hTi, Dinode.ptr_indirect, h₁.addr] at this
  have hcb : c ≠ b := fun e => notMem_inUse hb (e ▸ hc)
  -- the indirect block is in use, so it is neither the new block nor one of the bitmap
  have hcd : allocDisk sb s₁.disk b c = s₁.disk c := allocDisk_of_ne hcb fun e =>
    BBLOCK_notMem_inUse (d := s₁.disk) (mem_freeBlocks.1 hb).1 (e ▸ hc)
  have hown' := own_allocDisk h₁.own hb
  have hcaddr : c = ((update T i (s₁.inode ip).din i).addr NDIRECT).toNat := by
    rw [hTi, h₁.addr]
  have hown := hown'.setWord (v := .ofNat b) hind (by simp only [MAXFILE] at hmax; omega) hnew
    (ofNat_block_ne_zero hsb hge hb) (by rw [hv]; exact notMem_inUse hb) hcaddr
  have hsame := hown'.sameBlocks_setWord (v := .ofNat b) hind hcaddr hnew
  have hmax' : max (n i) (n i + 1) = n i + 1 := by omega
  have hptrs : ptrs A (update n i (n i + 1)) =
      insert (i, .block (n i)) (insert (i, .indirect) (ptrs A n)) := by
    obtain heq | hlt := hle.eq_or_lt
    · exact ptrs_update_indirect hi heq.symm
    · rw [insert_indirect hi hlt, ptrs_update_succ hi hlt.ne']
  rw [hcd, hv, Nat.add_sub_cancel' hle, ← inUse_allocDisk hge (mem_freeBlocks.1 hb).1] at hown
  rw [hcd] at hsame
  have hused : ∀ c' < sb.size, used sb (update (allocDisk sb s₁.disk b) c
      ((s₁.disk c).setWord (n i - NDIRECT) (.ofNat b))) c' = used sb (allocDisk sb s₁.disk b) c' :=
    fun c' hc' => by rw [used, update_of_ne ((BBLOCK_lt hc').trans_le hc.1).ne, used]
  have hx : (update T i (s₁.inode ip).din i).addr NDIRECT ≠ 0 :=
    (h₁.own.mem_indirect_iff hi).1 hind
  have hfound : target (update T i (s₁.inode ip).din) (update (allocDisk sb s₁.disk b) c
      ((s₁.disk c).setWord (n i - NDIRECT) (.ofNat b))) (i, .block (n i)) = b := by
    rw [target, Dinode.ptr_word hle hx, ← hcaddr, update_self, Bytes.word_setWord_self, hv]
  refine ⟨⟨fun c' hc' => ?_, ?_⟩, hfound, fun q hq => ?_, ?_,
    h₁.kept.trans ⟨fun c' hc' => ?_, rfl, fun _ _ => rfl, rfl, rfl, rfl, fun _ hc' => ?_⟩,
    fun hlt => absurd hlt (lt_irrefl _), ?_, ?_⟩
  · rw [hused c' (hc'.trans_le hsb.data), low_allocDisk hsb hge h₁.low c' hc']
  · rw [hmax', hptrs, inUse_congr hused]
    exact hown
  · have hne : q ≠ (i, .block (NDIRECT + (n i - NDIRECT))) := fun e => hnew (e ▸ .inr hq)
    have ht := hown'.target_setWord (v := .ofNat b) hind hcaddr hq.1 hne
    rw [hcd] at ht
    rw [← h₁.ptr q hq, ← target_allocDisk h₁.own hb hq.1]
    exact ht
  · refine h₁.same.trans (((sameBlocks_allocDisk h₁.own hb).trans hsame).mono
      (Set.subset_insert _ _))
  · have := bmapstart_lt sb
    have hge' := hc.1
    have hle' : sb.bmapstart ≤ BBLOCK sb b := le_BBLOCK
    exact (update_of_ne (by omega) ..).trans (allocDisk_of_ne (by omega) (by omega))
  · exact Finset.mem_insert_of_mem (Finset.mem_insert_of_mem (Finset.mem_insert_of_mem hc'))
  · have hcard := card_allocDisk hge hb
    have hfree := h₁.free
    have hptr : nptr (n i + 1) = nptr (n i) + 1 + if n i = NDIRECT then 1 else 0 := by
      rw [nptr, nptr]
      split_ifs <;> omega
    rw [hmax', hptr]
    change (freeBlocks sb (update (allocDisk sb s₁.disk b) c _)).card + _ = _
    rw [freeBlocks_congr hused]
    omega
  · rw [hmax']
    have hlt : NDIRECT < n i + 1 := Nat.lt_succ_of_le hle
    have hlog : Logs sb (fun p => target (update T i (s₁.inode ip).din)
        (update (allocDisk sb s₁.disk b) c ((s₁.disk c).setWord (n i - NDIRECT) (.ofNat b))) (i, p))
        (n i + 1) {n i} (if n i = NDIRECT then 1 else 0) s.log s₁.log := h₁.log.of_empty rfl
    refine (((hlog.bitmap (mem_freeBlocks.1 hb).1).data (Finset.mem_singleton_self _)
      (Nat.lt_succ_self _) hfound.symm).indirect (Nat.succ_pos _) hlt hcaddr).mono ?_
    rw [nptr, nptr]
    split_ifs <;> omega

/-- `bmap` of a block of the file or the one after it. -/
theorem wp_bmap_grow {Q : ℕ → State → Prop} (hop : 0 < s.outstanding) (hbn : bn ≤ n i)
    (hmax : bn < MAXFILE) (hQ : ∀ b s', Grown sb T A n s ip i bn b s' → Q b s')
    (hfull : (freeBlocks sb s.disk).card + nptr (n i) < nptr (max (n i) (bn + 1)) → E .outOfBlocks)
    (hbig : ∀ t l, (∀ p : Ptr, p.Below (n i) → t p = target T s.disk (i, p)) →
      Logs sb t (n i + 1) {n i} (nptr (n i + 1) - nptr (n i)) s.log l → bn = n i →
      LOGSIZE - 1 ≤ l.card → E .tooBig) :
    wp (bmap sb ip bn) Q E s := by
  obtain rfl | hlt := hbn.eq_or_lt
  swap
  · exact wp_bmap_there h hi hT hlt fun b hg => hQ b s hg
  have hmax' : max (n i) (n i + 1) = n i + 1 := by omega
  rw [hmax'] at hfull
  -- the log that is full would have become that of a larger inode
  have hgrown {b : ℕ} {s' : State} {l : Finset ℕ} (hg : Grown sb T A n s ip i (n i) b s')
      (hsub : l ⊆ s'.log) (hcard : LOGSIZE - 1 ≤ l.card) : E .tooBig := by
    have hlog := hg.log.subset hsub
    rw [hmax'] at hlog
    exact hbig _ l (fun p hp => hg.ptr (i, p) ⟨hi, hp⟩) hlog rfl hcard
  rw [bmap, wp_bind, wp_getInode]
  by_cases hd : n i < NDIRECT
  · have hnew : (i, Ptr.block (n i)) ∉ ptrs A n := fun hq => lt_irrefl _ hq.2
    have h0 := h.own.empty (i, .block (n i)) hi hmax hnew
    rw [target, hT, Dinode.ptr_direct hd, ← UInt32.toNat_zero, UInt32.toNat_inj] at h0
    rw [if_pos hd, if_pos h0, wp_bind]
    refine wp_balloc hop h.low (fun b hge hb => ?_) (fun hempty => hfull ?_) fun b hge hb =>
      hgrown (grown_direct hsb h hi hT hd hge hb) (Finset.subset_insert _ _)
    · rw [wp_bind, modifyDin, wp_modifyInode, wp_pure]
      exact hQ b _ (grown_direct hsb h hi hT hd hge hb)
    · rw [hempty, Finset.card_empty, nptr, nptr, if_neg (by omega), if_neg (by omega)]
      omega
  · have hle : NDIRECT ≤ n i := not_lt.1 hd
    rw [if_neg hd, if_pos (by simp only [MAXFILE] at hmax; omega), wp_bind]
    refine wp_bmapIndirect hsb h hi hT hop hle (fun c s₁ h₁ => ?_) (fun heq hempty => hfull ?_)
      fun c hc => hbig _ _ (fun _ _ => rfl) ((Logs.refl.bitmap hc).mono (nptr_succ_pos _)) rfl
    · have hnew : (i, Ptr.block (n i)) ∉ insert (i, .indirect) (ptrs A n) := by
        rintro (hq | hq)
        · cases hq
        · exact lt_irrefl _ hq.2
      have hx := (h₁.own.mem_indirect_iff hi).1 (.inl rfl)
      have h0 := h₁.own.empty (i, .block (n i)) hi hmax hnew
      rw [update_self] at hx
      rw [target, update_self, Dinode.ptr_word hle hx, h₁.addr, ← UInt32.toNat_zero,
        UInt32.toNat_inj] at h0
      rw [wp_bind, wp_bread, if_pos h0, wp_bind]
      have hop₁ : 0 < s₁.outstanding := h₁.kept.outstanding ▸ hop
      refine wp_balloc hop₁ h₁.low (fun b hge hb => ?_) (fun hempty => hfull ?_) fun b hge hb =>
        hgrown (h₁.grown hsb hi hle hmax hge hb)
          ((Finset.subset_insert _ _).trans (Finset.subset_insert _ _))
      · rw [wp_bind]
        exact wp_logWrite hop₁ (fun _ => hQ b _ (h₁.grown hsb hi hle hmax hge hb))
          (hgrown (h₁.grown hsb hi hle hmax hge hb) (Finset.subset_insert _ _))
      · have hfree := h₁.free
        rw [hempty, Finset.card_empty] at hfree
        rw [nptr, nptr]
        split_ifs at hfree ⊢ <;> omega
    · rw [hempty, Finset.card_empty, nptr, nptr, if_neg (by omega), if_pos (by omega)]
      omega

end Bmap

end Xv6.Disk
