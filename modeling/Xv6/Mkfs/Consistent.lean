import Xv6.Disk.Read
import Xv6.Mkfs.Image

/-!
# Is the image consistent for the kernel?

The kernel expects all blocks below the size of an inode to be there. The images of `mkfs` are
consistent in this sense (`Consistent`) except that the size of the root directory is rounded up
to the next multiple of the block size even if it is one already: then there is no block for the
last part of it.
-/

namespace Xv6.Mkfs

open Disk Prog

variable {files : List File} {img : Sectors} {n : ℕ}

/-- The blocks of the inodes are there, in the data area, each in one place and marked as in use,
    so that the kernel can read the inodes without a change to the file system. -/
structure Consistent (img : Sectors) : Prop where
  filled : ∀ i < NINODES, ∀ bn < nblk (dinode sb img i).size.toNat,
    bn < MAXFILE ∧ (dinode sb img i).ptr img (.block bn) ≠ 0
  marked : ∀ i < NINODES, ∀ p : Ptr, p.Valid → (dinode sb img i).ptr img p ≠ 0 →
    used sb img ((dinode sb img i).ptr img p) = true
  once : ∀ i < NINODES, ∀ j < NINODES, ∀ p q : Ptr, p.Valid → q.Valid →
    (dinode sb img i).ptr img p ≠ 0 → (dinode sb img i).ptr img p = (dinode sb img j).ptr img q →
    i = j ∧ p = q
  data : ∀ i < NINODES, ∀ p : Ptr, p.Valid → (dinode sb img i).ptr img p ≠ 0 →
    nmeta ≤ (dinode sb img i).ptr img p ∧ (dinode sb img i).ptr img p < FSSIZE
  reads : ∀ (s : Disk.State) (ip : Ip), ∀ i < NINODES, ∀ off n, s.disk = img →
    (s.inode ip).din = dinode sb img i →
    wp (readi sb ip off n) (fun _ s' => s' = s) (fun _ => False) s

namespace Written

variable {i : ℕ} {p : Ptr}

theorem mem_inodes (h : Written img files n) (hi : i < NINODES) (hv : p.Valid)
    (hp : (dinode sb img i).ptr img p ≠ 0) : i ∈ Set.Ico 1 (files.length + 2) := by
  refine by_contra fun hmem => hp ?_
  rw [h.free i hi hmem]
  cases p with
  | indirect => rfl
  | block bn =>
    rcases Nat.lt_or_ge bn NDIRECT with hbn | hbn
    · rw [Dinode.ptr_direct hbn]
      rfl
    · exact Dinode.ptr_of_no_indirect hbn rfl

/-- A pointer that is not empty is one of a file. -/
theorem mem_ptrs (h : Written img files n) (hi : i < NINODES) (hv : p.Valid)
    (hp : (dinode sb img i).ptr img p ≠ 0) :
    (i, p) ∈ ptrs (Set.Ico 1 (files.length + 2)) (blocks (conts files)) := by
  have hiff := h.own.mem_iff (q := (i, p)) (h.mem_inodes hi hv hp) hv
  rw [target] at hiff
  exact hiff.mpr hp

theorem ptr_mem (h : Written img files n) (hi : i < NINODES) (hv : p.Valid)
    (hp : (dinode sb img i).ptr img p ≠ 0) : (dinode sb img i).ptr img p ∈ Set.Ico nmeta n := by
  have hmem := h.own.mem (h.mem_ptrs hi hv hp)
  rwa [target] at hmem

/-- The blocks below the size of an inode are those of its contents, but for the root directory
    when it fills its last block. -/
theorem nblk_size (h : Written img files n) (hi : i ∈ Set.Ico 1 (files.length + 2)) :
    nblk (dinode sb img i).size.toNat =
      if i = ROOTINO ∧ (files.length + 2) % 32 = 0 then blocks (conts files) i + 1
      else blocks (conts files) i := by
  rw [h.size i hi, blocks]
  by_cases hr : i = ROOTINO
  · subst hr
    have hlen : (conts files ROOTINO).length = 16 * (files.length + 2) := length_rootBytes
    rw [if_pos rfl, hlen]
    simp only [true_and, nblk, BSIZE]
    split_ifs <;> omega
  · rw [if_neg hr, if_neg fun hc => hr hc.1]

theorem consistent (h : Written img files n)
    (hmod : (files.length + 2) % 32 ≠ 0) : Consistent img := by
  have hfilled : ∀ i < NINODES, ∀ bn < nblk (dinode sb img i).size.toNat,
      bn < MAXFILE ∧ (dinode sb img i).ptr img (.block bn) ≠ 0 := by
    intro i hi bn hbn
    by_cases hmem : i ∈ Set.Ico 1 (files.length + 2)
    · rw [h.nblk_size hmem, if_neg fun hc => hmod hc.2] at hbn
      have hp : (i, Ptr.block bn) ∈ ptrs (Set.Ico 1 (files.length + 2)) (blocks (conts files)) :=
        ⟨hmem, hbn⟩
      have hne := h.own.ne_zero hp
      rw [target] at hne
      exact ⟨(h.own.valid _ hp).2, hne⟩
    · rw [h.free i hi hmem] at hbn
      exact absurd hbn (Nat.not_lt_zero _)
  refine ⟨hfilled, fun i hi p hv hp => ?_, fun i hi j hj p q hv hw hp hpq => ?_,
    fun i hi p hv hp => ?_, fun s ip i hi off k hs hx => ?_⟩
  · have hU := h.ptr_mem hi hv hp
    rw [h.used _ (hU.2.trans_le h.le), decide_eq_true hU.2]
  · have := h.own.bij.injOn (h.mem_ptrs hi hv hp) (h.mem_ptrs hj hw (hpq ▸ hp)) hpq
    rwa [Prod.mk.injEq] at this
  · have hU := h.ptr_mem hi hv hp
    exact ⟨hU.1, hU.2.trans_le h.le⟩
  · refine readi_keeps fun o _ ho => ?_
    rw [hx] at ho ⊢
    rw [hs]
    exact hfilled i hi _ (div_lt_nblk (by omega))

/-- There is no block for the last part of the root directory if it filled its last block. -/
theorem not_consistent (h : Written img files n)
    (hmod : (files.length + 2) % 32 = 0) : ¬Consistent img := fun hc => by
  have hroot : ROOTINO ∈ Set.Ico 1 (files.length + 2) := ⟨le_rfl, Nat.lt_add_left _ (by decide)⟩
  have hsize := h.nblk_size hroot
  rw [if_pos ⟨rfl, hmod⟩] at hsize
  have hbn := hc.filled ROOTINO (by decide) (blocks (conts files) ROOTINO) (by omega)
  refine hbn.2 (h.own.empty (ROOTINO, .block _) hroot hbn.1 fun hq => ?_)
  exact lt_irrefl _ hq.2

end Written

/-- The image of a run of `mkfs` is consistent unless the entries fill the last block of the root
    directory. -/
theorem mkfs_consistent_iff (files : List File) (hn : files.length + 2 ≤ NINODES) (img : Sectors)
    (h : mkfs files = .ok img) : Consistent img ↔ (files.length + 2) % 32 ≠ 0 := by
  obtain ⟨n, hw⟩ := mkfs_written hn h
  exact ⟨fun hc hmod => hw.not_consistent hmod hc, hw.consistent⟩

/-- One file, and thus three entries in the root directory. -/
theorem mkfs_consistent_one : ∃ img, mkfs [⟨[95, 97], [[1, 2, 3]]⟩] = .ok img ∧ Consistent img := by
  have hfits : Fits [⟨[95, 97], [[1, 2, 3]]⟩] := ⟨by decide, by decide, by decide, by decide⟩
  obtain ⟨img, himg⟩ := exists_mkfs hfits
  exact ⟨img, himg, (mkfs_consistent_iff _ (by decide) img himg).mpr (by decide)⟩

/-- Thirty empty files: the root directory has 32 entries, which fill its only block, and the size
    of two blocks. -/
theorem mkfs_root_hole : ∃ img, mkfs (List.replicate 30 ⟨[97], []⟩) = .ok img ∧
    ¬Consistent img := by
  have hfits : Fits (List.replicate 30 ⟨[97], []⟩) := ⟨by decide, by decide, by decide, by decide⟩
  obtain ⟨img, himg⟩ := exists_mkfs hfits
  obtain ⟨n, hw⟩ := mkfs_written (by decide) himg
  exact ⟨img, himg, hw.not_consistent (by decide)⟩

end Xv6.Mkfs
