import Mathlib.Data.Fintype.Pi
import Mathlib.Data.List.GetD
import Xv6.Lib.Bytes
import Xv6.Param

/-!
# The format of the disk

The structures that `mkfs` writes and the kernel reads back: the superblock, the inodes on disk,
the bitmap of the blocks in use and the directory entries, as bytes of the blocks they are in.

`dinode` and `used` read an inode and a bit of the bitmap off an image; `setDinode` writes an
inode. What later proofs use of the encodings is `Dinode.decode_encode` and that a write leaves
the other inodes alone.
-/

namespace Xv6.Disk

open Function

abbrev BSIZE : ℕ := 512
abbrev NDIRECT : ℕ := 12
/-- The words in a block (`BSIZE / sizeof(uint)`). -/
abbrev NINDIRECT : ℕ := 128
abbrev MAXFILE : ℕ := NDIRECT + NINDIRECT
/-- The inodes in a block (`BSIZE / sizeof(struct dinode)`). -/
abbrev IPB : ℕ := 8
/-- The bits in a block. -/
abbrev BPB : ℕ := BSIZE * 8
abbrev ROOTINO : ℕ := 1

def T_DIR : Int16 := 1
def T_FILE : Int16 := 2
def T_DEV : Int16 := 3

/-- What separates the elements of a path. -/
def slash : UInt8 := 47

/-- The blocks of a disk, by number. -/
abbrev Sectors := ℕ → Bytes

/-- The superblock: the numbers of blocks, and where they start. -/
structure Superblock where
  /-- The size of the image, in blocks. -/
  size : ℕ
  nblocks : ℕ
  ninodes : ℕ
  nlog : ℕ
  logstart : ℕ
  inodestart : ℕ
  bmapstart : ℕ
  deriving DecidableEq

/-- The superblock in its block. -/
def Superblock.decode (m : Bytes) : Superblock where
  size := (m.word 0).toNat
  nblocks := (m.word 1).toNat
  ninodes := (m.word 2).toNat
  nlog := (m.word 3).toNat
  logstart := (m.word 4).toNat
  inodestart := (m.word 5).toNat
  bmapstart := (m.word 6).toNat

/-- The bytes of a superblock, in a buffer. -/
def Superblock.encode (sb : Superblock) (m : Bytes) : Bytes :=
  ((((((m.setWord 0 (.ofNat sb.size)).setWord 1 (.ofNat sb.nblocks)).setWord 2
    (.ofNat sb.ninodes)).setWord 3 (.ofNat sb.nlog)).setWord 4 (.ofNat sb.logstart)).setWord 5
    (.ofNat sb.inodestart)).setWord 6 (.ofNat sb.bmapstart)

/-- The block of an inode. -/
def IBLOCK (sb : Superblock) (i : ℕ) : ℕ := i / IPB + sb.inodestart

/-- The block of the bitmap with the bit of a block. -/
def BBLOCK (sb : Superblock) (b : ℕ) : ℕ := b / BPB + sb.bmapstart

/-! ## Inodes -/

/-- An inode on disk (`struct dinode`). -/
@[ext] structure Dinode where
  type : Int16 := 0
  major : Int16 := 0
  minor : Int16 := 0
  nlink : Int16 := 0
  size : UInt32 := 0
  addrs : Fin (NDIRECT + 1) → UInt32 := fun _ => 0
  deriving DecidableEq

namespace Dinode

/-- The address `k` of the inode. -/
def addr (x : Dinode) (k : ℕ) : UInt32 := x.addrs (Fin.ofNat (NDIRECT + 1) k)

/-- The address `k` of an inode becomes `b`. -/
def setAddr (x : Dinode) (k : ℕ) (b : UInt32) : Dinode :=
  { x with addrs := Function.update x.addrs (Fin.ofNat (NDIRECT + 1) k) b }

/-- The 64 bytes of an inode. -/
def encode (x : Dinode) : Bytes := fun k =>
  if k < 2 then Bytes.of16 x.type.toUInt16 k
  else if k < 4 then Bytes.of16 x.major.toUInt16 (k - 2)
  else if k < 6 then Bytes.of16 x.minor.toUInt16 (k - 4)
  else if k < 8 then Bytes.of16 x.nlink.toUInt16 (k - 6)
  else if k < 12 then Bytes.of32 x.size (k - 8)
  else Bytes.of32 (x.addr ((k - 12) / 4)) ((k - 12) % 4)

/-- The inode in its 64 bytes. -/
def decode (m : Bytes) : Dinode where
  type := m.u16.toInt16
  major := (m.drop 2).u16.toInt16
  minor := (m.drop 4).u16.toInt16
  nlink := (m.drop 6).u16.toInt16
  size := (m.drop 8).u32
  addrs i := (m.drop 12).word i

variable {x : Dinode} {b : UInt32} {j k : ℕ}

@[simp] theorem addr_setAddr_self : (x.setAddr k b).addr k = b :=
  update_self ..

theorem addr_setAddr_of_ne (hj : j ≤ NDIRECT) (hk : k ≤ NDIRECT) (h : j ≠ k) :
    (x.setAddr k b).addr j = x.addr j := by
  have hne : Fin.ofNat (NDIRECT + 1) j ≠ Fin.ofNat (NDIRECT + 1) k := by
    rw [Ne, Fin.ext_iff, Fin.val_ofNat, Fin.val_ofNat, Nat.mod_eq_of_lt (by omega),
      Nat.mod_eq_of_lt (by omega)]
    exact h
  exact update_of_ne hne ..

theorem encode_addr (x : Dinode) (i : Fin (NDIRECT + 1)) :
    Bytes.Agree 4 (x.encode.drop (12 + 4 * i)) (Bytes.of32 (x.addrs i)) := by
  intro k hk
  have hdiv : (12 + 4 * i.val + k - 12) / 4 = i := by omega
  have hmod : (12 + 4 * i.val + k - 12) % 4 = k := by omega
  rw [Bytes.drop_apply, encode, if_neg (by omega), if_neg (by omega), if_neg (by omega),
    if_neg (by omega), if_neg (by omega), hdiv, hmod, addr]
  congr
  exact Fin.ext (Nat.mod_eq_of_lt i.isLt)

theorem decode_encode (x : Dinode) : decode x.encode = x := by
  have htype : Bytes.Agree 2 x.encode (Bytes.of16 x.type.toUInt16) := by
    intro k hk
    rw [encode, if_pos hk]
  have hmajor : Bytes.Agree 2 (x.encode.drop 2) (Bytes.of16 x.major.toUInt16) := by
    intro k hk
    rw [Bytes.drop_apply, encode, if_neg (by omega), if_pos (by omega), Nat.add_sub_cancel_left]
  have hminor : Bytes.Agree 2 (x.encode.drop 4) (Bytes.of16 x.minor.toUInt16) := by
    intro k hk
    rw [Bytes.drop_apply, encode, if_neg (by omega), if_neg (by omega), if_pos (by omega),
      Nat.add_sub_cancel_left]
  have hnlink : Bytes.Agree 2 (x.encode.drop 6) (Bytes.of16 x.nlink.toUInt16) := by
    intro k hk
    rw [Bytes.drop_apply, encode, if_neg (by omega), if_neg (by omega), if_neg (by omega),
      if_pos (by omega), Nat.add_sub_cancel_left]
  have hsize : Bytes.Agree 4 (x.encode.drop 8) (Bytes.of32 x.size) := by
    intro k hk
    rw [Bytes.drop_apply, encode, if_neg (by omega), if_neg (by omega), if_neg (by omega),
      if_neg (by omega), if_pos (by omega), Nat.add_sub_cancel_left]
  refine Dinode.ext ?_ ?_ ?_ ?_ ?_ (funext fun i => ?_)
  · simp only [decode]
    rw [htype.u16, Bytes.u16_of16, Int16.toInt16_toUInt16]
  · simp only [decode]
    rw [hmajor.u16, Bytes.u16_of16, Int16.toInt16_toUInt16]
  · simp only [decode]
    rw [hminor.u16, Bytes.u16_of16, Int16.toInt16_toUInt16]
  · simp only [decode]
    rw [hnlink.u16, Bytes.u16_of16, Int16.toInt16_toUInt16]
  · simp only [decode]
    rw [hsize.u32, Bytes.u32_of32]
  · have h := (x.encode_addr i).u32
    rw [Bytes.u32_of32] at h
    rw [← h]
    simp only [decode, Bytes.word, Bytes.elem]
    congr 1
    funext k
    simp only [Bytes.drop_apply, Nat.add_assoc]

theorem decode_congr {m m' : Bytes} (h : Bytes.Agree 64 m m') : decode m = decode m' := by
  refine Dinode.ext ?_ ?_ ?_ ?_ ?_ (funext fun i => ?_)
  · simp only [decode]
    rw [(h.mono (by omega)).u16]
  · simp only [decode]
    rw [(Bytes.Agree.drop (h.mono (by omega : 2 + 2 ≤ 64))).u16]
  · simp only [decode]
    rw [(Bytes.Agree.drop (h.mono (by omega : 4 + 2 ≤ 64))).u16]
  · simp only [decode]
    rw [(Bytes.Agree.drop (h.mono (by omega : 6 + 2 ≤ 64))).u16]
  · simp only [decode]
    rw [(Bytes.Agree.drop (h.mono (by omega : 8 + 4 ≤ 64))).u32]
  · simp only [decode, Bytes.word, Bytes.elem]
    have hi : i.val < 13 := i.isLt
    exact (Bytes.Agree.drop (Bytes.Agree.drop (h.mono (by omega : 12 + (4 * i.val + 4) ≤ 64)))).u32

theorem decode_zero : decode Bytes.zero = {} := by decide

end Dinode

variable {sb : Superblock} {d : Sectors} {x : Dinode} {i j b : ℕ}

/-- The inode `i` of an image. -/
def dinode (sb : Superblock) (d : Sectors) (i : ℕ) : Dinode :=
  .decode ((d (IBLOCK sb i)).elem 64 (i % IPB))

/-- The inode `i` on disk becomes `x`. -/
def setDinode (sb : Superblock) (d : Sectors) (i : ℕ) (x : Dinode) : Sectors :=
  Function.update d (IBLOCK sb i) ((d (IBLOCK sb i)).setElem 64 (i % IPB) x.encode)

@[simp] theorem dinode_setDinode_self : dinode sb (setDinode sb d i x) i = x := by
  rw [dinode, setDinode, update_self, Dinode.decode_congr Bytes.elem_setElem_self,
    Dinode.decode_encode]

theorem dinode_setDinode_of_ne (h : j ≠ i) :
    dinode sb (setDinode sb d i x) j = dinode sb d j := by
  rw [dinode, setDinode]
  by_cases hb : IBLOCK sb j = IBLOCK sb i
  · have hne : j % IPB ≠ i % IPB := by
      simp only [IBLOCK, IPB] at hb ⊢
      omega
    rw [hb, update_self, Dinode.decode_congr (Bytes.elem_setElem_of_ne hne), dinode, hb]
  · rw [update_of_ne hb, dinode]

theorem setDinode_of_ne (h : b ≠ IBLOCK sb i) : setDinode sb d i x b = d b :=
  update_of_ne h ..

/-- A write to another block leaves the inode alone. -/
theorem dinode_update_of_ne {m : Bytes} (h : IBLOCK sb i ≠ b) :
    dinode sb (update d b m) i = dinode sb d i := by
  rw [dinode, update_of_ne h, dinode]

/-! ## The bitmap -/

/-- The block is marked as in use in the bitmap. -/
def used (sb : Superblock) (d : Sectors) (b : ℕ) : Bool := (d (BBLOCK sb b)).bit (b % BPB)

/-! ## Directory entries -/

/-- A directory entry (`struct dirent`), with the bytes of its name. -/
structure Dirent where
  inum : UInt16 := 0
  name : List UInt8 := List.replicate DIRSIZ 0
  deriving DecidableEq

/-- The 16 bytes of a directory entry. -/
def Dirent.encode (de : Dirent) : Bytes := fun k =>
  if k < 2 then Bytes.of16 de.inum k else Bytes.ofList de.name (k - 2)

/-- The entry in its 16 bytes. -/
def Dirent.decode (m : Bytes) : Dirent where
  inum := m.u16
  name := (List.range DIRSIZ).map (m.drop 2)

theorem Dirent.decode_encode (de : Dirent) (h : de.name.length = DIRSIZ) {m : Bytes}
    (hm : Bytes.Agree 16 m de.encode) : Dirent.decode m = de := by
  have hinum : Bytes.Agree 2 m (Bytes.of16 de.inum) := by
    intro k hk
    rw [hm k (by omega), encode, if_pos hk]
  have hname : (List.range DIRSIZ).map (m.drop 2) = de.name := by
    refine List.ext_getElem (by rw [List.length_map, List.length_range, h]) fun k hk hk' => ?_
    have hk16 : 2 + k < 16 := by simp only [h, DIRSIZ] at hk'; omega
    rw [List.getElem_map, List.getElem_range, Bytes.drop_apply, hm _ hk16, encode,
      if_neg (by omega), Nat.add_sub_cancel_left, Bytes.ofList, List.getD_eq_getElem _ _ hk']
  rw [decode, hinum.u16, Bytes.u16_of16, hname]

/-- The name of a string (with the zero byte at its end left out) in a directory entry. -/
def strncpy (s : List UInt8) : List UInt8 :=
  s.take DIRSIZ ++ List.replicate (DIRSIZ - s.length) 0

/-- Compares two strings, of which a zero byte or the end of the list is the end. -/
def strncmp : ℕ → List UInt8 → List UInt8 → ℤ
  | 0, _, _ => 0
  | n + 1, p, q =>
    if p.headD 0 ≠ 0 ∧ p.headD 0 = q.headD 0 then strncmp n p.tail q.tail
    else (p.headD 0).toNat - (q.headD 0).toNat

/-- Names are compared up to `DIRSIZ` bytes. -/
def namecmp (s t : List UInt8) : ℤ := strncmp DIRSIZ s t

theorem length_strncpy (s : List UInt8) : (strncpy s).length = DIRSIZ := by
  rw [strncpy, List.length_append, List.length_take, List.length_replicate]
  omega

/-- The comparison with a name that is padded with zeros. -/
theorem strncmp_eq_zero_iff (n : ℕ) : ∀ {p u : List UInt8} {m : ℕ}, 0 ∉ p → 0 ∉ u →
    (strncmp n p (u ++ List.replicate m 0) = 0 ↔ p.take n = u.take n) := by
  have hzero (m : ℕ) : (List.replicate m (0 : UInt8)).head?.getD 0 = 0 := by cases m <;> rfl
  have hnat {a : UInt8} (ha : a ≠ 0) : (a.toNat : ℤ) ≠ 0 := fun h =>
    ha (UInt8.toNat_inj.mp (by exact_mod_cast h))
  induction n with
  | zero => simp [strncmp]
  | succ n ih =>
    intro p u m hp hu
    rw [strncmp]
    match p, u with
    | [], [] => simp [hzero]
    | [], b :: u =>
      have hb : b ≠ 0 := fun h => hu (h ▸ List.mem_cons_self)
      simpa using hnat hb
    | a :: p, [] =>
      have ha : a ≠ 0 := fun h => hp (h ▸ List.mem_cons_self)
      simpa [hzero, ha] using hnat ha
    | a :: p, b :: u =>
      have ha : a ≠ 0 := fun h => hp (h ▸ List.mem_cons_self)
      by_cases hab : a = b
      · subst hab
        simpa [ha] using ih (fun h => hp (List.mem_cons_of_mem _ h))
          fun h => hu (List.mem_cons_of_mem _ h)
      · have hne : (a.toNat : ℤ) - b.toNat ≠ 0 := fun h =>
          hab (UInt8.toNat_inj.mp (by omega))
        simp [hab, hne]

theorem namecmp_eq_zero_iff {s t : List UInt8} (hs : 0 ∉ s) (ht : 0 ∉ t) :
    namecmp s (strncpy t) = 0 ↔ s.take DIRSIZ = t.take DIRSIZ := by
  rw [namecmp, strncpy, strncmp_eq_zero_iff _ hs fun h => ht (List.mem_of_mem_take h),
    List.take_take, Nat.min_self]

end Xv6.Disk
