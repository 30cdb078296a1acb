import Xv6.Disk.Calls
import Xv6.Disk.Write
import Xv6.Mkfs.Consistent

/-!
# Writing to files

A file is a byte array: in a section whose log has room for it, `writei` replaces a part of it or
fails without a change, and `readi` gives the bytes back (`writei_exact`). A write to more blocks
than the log has stops the system (`writei_too_big`).

`filewrite` writes in chunks, each in a section of its own, which always fits into the log
(`writei_fits_log`); together they are one `writei`, unless the file would get too long, when the
first chunks that fit are written (`filewrite_exact`). All this is so on the images of `mkfs`.
-/

namespace Xv6.Disk

open Prog Function

variable {sb : Superblock} {s s' : State} {ip : Ip} {i off : ℕ} {src l₁ l₂ : List UInt8}
    {f : Fin NFILE}
  {E : Panic → Prop}

/-! ## A new file system -/

theorem apart_mkfs : Mkfs.sb.Apart := ⟨by decide, by decide, by decide⟩

section Mkfs

variable {files : List Mkfs.File} {img : Sectors} {n : ℕ}

theorem allocated_mkfs (h : Mkfs.Written img files n) (hn : files.length + 2 ≤ NINODES) :
    allocated Mkfs.sb img = Set.Ico 1 (files.length + 2) := by
  ext i
  refine ⟨fun ⟨hlt, htype⟩ => ?_, fun hi => ⟨lt_of_lt_of_le hi.2 hn, ?_⟩⟩
  · refine by_contra fun hi => htype ?_
    rw [h.free i hlt hi]
  · rw [h.type i hi]
    split_ifs <;> decide

/-- The blocks of an image of `mkfs`. -/
theorem blocks_mkfs (h : Mkfs.Written img files n) (hn : files.length + 2 ≤ NINODES)
    (hmod : (files.length + 2) % 32 ≠ 0) : Blocks Mkfs.sb (dinode Mkfs.sb img) img
      (allocated Mkfs.sb img) fun i => nblk (dinode Mkfs.sb img i).size.toNat := by
  have hroot : ROOTINO ∈ Set.Ico 1 (files.length + 2) := ⟨le_rfl, Nat.lt_add_left _ (by decide)⟩
  have hblocks : ∀ i ∈ Set.Ico 1 (files.length + 2),
      nblk (dinode Mkfs.sb img i).size.toNat = Mkfs.blocks (Mkfs.conts files) i := fun i hi => by
    rw [h.nblk_size hi, if_neg fun hc => hmod hc.2]
  have hptrs : ptrs (Set.Ico 1 (files.length + 2))
    (fun i => nblk (dinode Mkfs.sb img i).size.toNat) =
      ptrs (Set.Ico 1 (files.length + 2)) (Mkfs.blocks (Mkfs.conts files)) :=
    Set.ext fun q => and_congr_right fun hq => by dsimp only; rw [hblocks q.1 hq]
  have hge : Mkfs.nmeta ≤ n := by
    have hq : (ROOTINO, Ptr.block 0) ∈
        ptrs (Set.Ico 1 (files.length + 2)) (Mkfs.blocks (Mkfs.conts files)) := by
      refine ⟨hroot, ?_⟩
      have hlen : (Mkfs.conts files ROOTINO).length = 16 * (files.length + 2) :=
        Mkfs.length_rootBytes
      rw [Ptr.Below, Mkfs.blocks, hlen]
      simp only [nblk, BSIZE]
      omega
    exact (h.own.mem hq).1.trans (h.own.mem hq).2.le
  have hinUse : inUse Mkfs.sb img = Set.Ico Mkfs.nmeta n := by
    ext b
    simp only [inUse, Set.mem_ofPred_eq, Set.mem_Ico]
    constructor
    · rintro ⟨hlo, hlt, hu⟩
      rw [h.used b hlt] at hu
      exact ⟨hlo, of_decide_eq_true hu⟩
    · rintro ⟨hlo, hlt⟩
      rw [h.used b (hlt.trans_le h.le), decide_eq_true hlt]
      exact ⟨hlo, hlt.trans_le h.le, rfl⟩
  refine ⟨fun b hb => ?_, ?_⟩
  · have hb : b < Mkfs.nmeta := hb
    rw [h.used b (hb.trans_le (hge.trans h.le)), decide_eq_true (hb.trans_le hge)]
  · rw [allocated_mkfs h hn, hptrs, hinUse]
    exact h.own

theorem contents_mkfs (h : Mkfs.Written img files n) (hi : i ∈ Set.Ico 1 (files.length + 2))
    (hne : i ≠ ROOTINO) : contents Mkfs.sb img i = Mkfs.conts files i := by
  have hsize := h.size i hi
  rw [if_neg hne] at hsize
  refine List.ext_getElem? fun k => ?_
  rw [getElem?_contents, hsize]
  split_ifs with hk
  · have hbyte := h.bytes i hi k hk
    rw [List.getElem?_eq_getElem hk, ← List.getD_eq_getElem _ 0 hk, ← hbyte]
    rfl
  · rw [List.getElem?_eq_none (not_lt.1 hk)]

/-- A state in a section, with an image of `mkfs` on disk and the inode `i` in the first entry of
    the cache. -/
def oneLoaded (img : Sectors) (i : ℕ) : State where
  disk := img
  outstanding := 1
  inode ip := if ip = 0 then ⟨ROOTDEV, i, 1, false, true, dinode Mkfs.sb img i⟩ else {}

theorem owned_oneLoaded (h : Mkfs.Written img files n) (hn : files.length + 2 ≤ NINODES)
    (hmod : (files.length + 2) % 32 ≠ 0) (hi : i ∈ Set.Ico 1 (files.length + 2)) :
    Owned Mkfs.sb (oneLoaded img i) := by
  have hzero (ip : Ip) (href : 0 < ((oneLoaded img i).inode ip).ref) : ip = 0 := by
    refine by_contra fun hne => ?_
    rw [oneLoaded] at href
    dsimp only at href
    rw [if_neg hne] at href
    exact lt_irrefl _ href
  refine ⟨blocks_mkfs h hn hmod, fun ip href _ => ?_, fun ip jp href href' _ => ?_⟩
  · obtain rfl := hzero ip href
    refine ⟨?_, rfl⟩
    rw [show ((oneLoaded img i).inode 0).inum = i from rfl]
    exact (allocated_mkfs h hn).symm ▸ hi
  · rw [hzero ip href, hzero jp href']

end Mkfs

/-! ## `writei` -/

/-- There are enough free blocks for the inode to get `m` bytes long. -/
def Room (sb : Superblock) (d : Sectors) (i m : ℕ) : Prop :=
  nptr (nblk (max (contents sb d i).length m)) ≤
    (freeBlocks sb d).card + nptr (nblk (contents sb d i).length)

theorem Room.mono {d : Sectors} {m n : ℕ} (h : Room sb d i n) (hle : m ≤ n) : Room sb d i m :=
  (nptr_mono (nblk_mono (by omega))).trans h

/-- A write out of bounds. -/
theorem writei_none (htype : (s.inode ip).din.type ≠ T_DEV)
    (hc : ¬(off ≤ (s.inode ip).din.size.toNat ∧ off + src.length < 2 ^ 32 ∧
      off + src.length ≤ MAXFILE * BSIZE)) : writei sb ip src off s = .ok (none, s) := by
  rw [writei]
  change (if (s.inode ip).din.type = T_DEV then pure none else _ : M (Option ℕ)) s = _
  rw [if_neg htype]
  split_ifs with h₁ h₂
  · rfl
  · rfl
  · simp only [MAXFILE, NDIRECT, NINDIRECT, BSIZE] at hc h₂
    omega

/-- A part of a file is replaced if the log has room for it, or nothing is changed. -/
theorem writei_exact (hsb : sb.Apart) (h : Owned sb s) (hip : Loaded s ip)
    (htype : (s.inode ip).din.type ≠ T_DEV)
    (hroom : Room sb s.disk (s.inode ip).inum (min (off + src.length) (MAXFILE * BSIZE))) :
    if off ≤ (s.inode ip).din.size.toNat ∧ off + src.length < 2 ^ 32 ∧
        off + src.length ≤ MAXFILE * BSIZE then
      0 < s.outstanding →
      s.log.card + logged sb (s.inode ip).din.size.toNat off src.length ≤ LOGSIZE - 1 →
      ∃ s', writei sb ip src off s = .ok (some src.length, s') ∧ Owned sb s' ∧
        (s'.inode ip).din.size.toNat = max (s.inode ip).din.size.toNat (off + src.length) ∧
        (∀ off' n', off' ≤ (s'.inode ip).din.size.toNat → off' + n' < 2 ^ 32 → ∃ bytes,
          readi sb ip off' n' s' = .ok (some bytes, s') ∧
          bytes.length = min n' ((s'.inode ip).din.size.toNat - off') ∧
          bytes = ((overwrite (contents sb s.disk (s.inode ip).inum) off src).drop off').take n') ∧
        ∀ j ∈ allocated sb s.disk, j ≠ (s.inode ip).inum →
          j ∈ allocated sb s'.disk ∧ contents sb s'.disk j = contents sb s.disk j
    else writei sb ip src off s = .ok (none, s) := by
  have hdin := h.din hip
  have hsize : (s.inode ip).din.size.toNat = (contents sb s.disk (s.inode ip).inum).length := by
    rw [length_contents, hdin]
  rw [hsize]
  split_ifs with hc
  · intro hop hlog
    obtain ⟨hle, -, hend⟩ := hc
    rw [min_eq_left hend] at hroom
    have hwp : wp (writei sb ip src off)
        (fun r s' => r = some src.length ∧ Writes sb s ip src off s') (fun _ => False) s :=
      wp_writei hsb h hip hop htype hle hend (fun s' hw => ⟨rfl, hw⟩)
        (fun hlt => absurd hroom (not_le.2 hlt)) fun hlt => absurd hlog (not_le.2 hlt)
    obtain ⟨_, s', hs', rfl, hw⟩ := exists_ok hwp
    have hip' : Loaded s' ip := ⟨by rw [hw.entry]; exact hip.ref, by rw [hw.entry]; exact hip.valid⟩
    have hinum : (s'.inode ip).inum = (s.inode ip).inum := by rw [hw.entry]
    have hdin' := hw.owned.din hip'
    obtain ⟨addrs, haddrs⟩ := hw.din
    have hsize' : (s'.inode ip).din.size.toNat =
        max (contents sb s.disk (s.inode ip).inum).length (off + src.length) := by
      rw [hdin', ← length_contents sb s'.disk, hinum, hw.contents, length_overwrite hle]
    refine ⟨s', hs', hw.owned, hsize', fun off' n' hoff' hn' => ?_, fun j hj hne => ⟨⟨hj.1, ?_⟩,
      hw.unchanged j hj hne⟩⟩
    · have htype' : (s'.inode ip).din.type ≠ T_DEV := by
        rw [hdin', hinum, haddrs]
        dsimp only
        rw [← hdin]
        exact htype
      have hread : wp (readi sb ip off' n') (fun r t => r = some (((contents sb s'.disk
          (s'.inode ip).inum).drop off').take n') ∧ t = s') (fun _ => False) s' :=
        wp_readi_contents hw.owned hip' htype'
          (by rw [length_contents, ← hdin']; exact hoff') hn' ⟨rfl, rfl⟩
      obtain ⟨_, _, hr, rfl, rfl⟩ := exists_ok hread
      refine ⟨_, hr, ?_, by rw [hinum, hw.contents]⟩
      rw [List.length_take, List.length_drop, length_contents, hdin']
    · rw [hw.rest j hj.1 hne]
      exact hj.2
  · rw [← hsize] at hc
    exact writei_none htype hc

/-- A write to more blocks than fit into the log. -/
theorem writei_too_big (hsb : sb.Apart) (h : Owned sb s) (hip : Loaded s ip)
    (hop : 0 < s.outstanding)
    (htype : (s.inode ip).din.type ≠ T_DEV)
    (hoff : off ≤ (contents sb s.disk (s.inode ip).inum).length)
    (hend : off + src.length ≤ MAXFILE * BSIZE)
    (hroom : Room sb s.disk (s.inode ip).inum (off + src.length)) (hlog : s.log.card ≤ LOGSIZE - 1)
    (hbig : LOGSIZE - 1 < (touched off src.length).card) :
    writei sb ip src off s = .error .tooBig := by
  have hwp : wp (writei sb ip src off) (fun _ _ => False) (· = .tooBig) s := by
    refine wp_writei hsb h hip hop htype hoff hend (fun s' hw => ?_)
      (fun hlt => absurd hroom (not_le.2 hlt)) fun _ => rfl
    -- all the blocks, which are different ones, would be in the log
    obtain ⟨addrs, hdin⟩ := hw.din
    have hmem : (s.inode ip).inum ∈ allocated sb s'.disk :=
      ⟨(h.mem hip).1, by rw [hdin]; exact (h.mem hip).2⟩
    have hsize : (dinode sb s'.disk (s.inode ip).inum).size.toNat =
        max (contents sb s.disk (s.inode ip).inum).length (off + src.length) := by
      rw [← length_contents, hw.contents, length_overwrite hoff]
    have hinj : Set.InjOn
        (fun bn => target (dinode sb s'.disk) s'.disk ((s.inode ip).inum, .block bn))
        (touched off src.length) := fun a ha b hb hab => by
      have hptr {bn : ℕ} (hbn : bn ∈ touched off src.length) : ((s.inode ip).inum, Ptr.block bn) ∈
          ptrs (allocated sb s'.disk) fun i => nblk (dinode sb s'.disk i).size.toNat := by
        obtain ⟨o, -, ho, rfl⟩ := mem_touched.1 hbn
        refine ⟨hmem, div_lt_nblk ?_⟩
        dsimp only
        omega
      have heq := hw.owned.blocks.own.bij.injOn (hptr ha) (hptr hb) hab
      injection heq with _ heq
      injection heq
    have hcard := Finset.card_le_card (Finset.image_subset_iff.2 hw.data)
    rw [Finset.card_image_of_injOn hinj] at hcard
    have hle := hw.card
    omega
  rw [wp] at hwp
  cases hx : writei sb ip src off s with
  | ok r =>
    rw [hx] at hwp
    exact hwp.elim
  | error e =>
    rw [hx] at hwp
    exact congrArg _ hwp

/-- An image with one file. -/
theorem exists_image {l : List UInt8} (hl : l.length ≤ MAXFILE * BSIZE) :
    ∃ img, Owned Mkfs.sb (oneLoaded img 2) ∧ 2 ∈ allocated Mkfs.sb img ∧
      contents Mkfs.sb img 2 = l ∧ (dinode Mkfs.sb img 2).type ≠ T_DEV := by
  have hcont : (⟨[95, 97], [l]⟩ : Mkfs.File).contents = l := List.append_nil l
  have hfits : Mkfs.Fits [⟨[95, 97], [l]⟩] := by
    have hneed : Mkfs.need [⟨[95, 97], [l]⟩] = Mkfs.cost 48 + Mkfs.cost l.length := by
      rw [Mkfs.need, List.map_singleton, List.sum_singleton, hcont]
      rfl
    have hcost := Mkfs.cost_mono hl
    have hmax : Mkfs.cost (MAXFILE * BSIZE) = 141 := by decide
    have hroot : Mkfs.cost 48 = 1 := by decide
    refine ⟨Nat.le_of_ble_eq_true rfl, ?_, fun f hf => ?_, fun f hf => ?_⟩
    · rw [hneed]
      simp only [Mkfs.nmeta, Mkfs.nlog, Mkfs.ninodeblocks, NINODES, Mkfs.nbitmap, FSSIZE, IPB,
        BSIZE]
      omega
    · rw [List.mem_singleton.1 hf, hcont]
      exact hl
    · rw [List.mem_singleton.1 hf]
      exact (by decide : slash ∉ ([95, 97] : List UInt8))
  obtain ⟨img, himg⟩ := Mkfs.exists_mkfs hfits
  obtain ⟨n, hw⟩ := Mkfs.mkfs_written hfits.inodes himg
  have hmem : 2 ∈ Set.Ico 1 ([(⟨[95, 97], [l]⟩ : Mkfs.File)].length + 2) :=
    ⟨by decide, Nat.lt_succ_self 2⟩
  refine ⟨img, owned_oneLoaded hw hfits.inodes (by simp) hmem, ?_,
    (contents_mkfs hw hmem (by decide)).trans hcont, ?_⟩
  · rw [allocated_mkfs hw hfits.inodes]
    exact hmem
  · rw [hw.type 2 hmem]
    decide

/-- The file `a` of an image gets one byte longer. -/
theorem writei_exact_append :
    ∃ img s', writei Mkfs.sb 0 [7, 8] 2 (oneLoaded img 2) = .ok (some 2, s') ∧
    ∃ bytes, readi Mkfs.sb 0 0 9 s' = .ok (some bytes, s') ∧ bytes = [1, 2, 7, 8] := by
  obtain ⟨img, howned, -, hcont, htype⟩ := exists_image (l := [1, 2, 3]) (by decide)
  have hip : Loaded (oneLoaded img 2) 0 := ⟨Nat.one_pos, rfl⟩
  have hsize : (dinode Mkfs.sb img 2).size.toNat = 3 := by
    rw [← length_contents, hcont]
    rfl
  have hroom : Room Mkfs.sb (oneLoaded img 2).disk ((oneLoaded img 2).inode 0).inum
      (min (2 + [(7 : UInt8), 8].length) (MAXFILE * BSIZE)) := by
    change Room Mkfs.sb img 2 _
    rw [Room, hcont]
    exact Nat.le_add_left _ _
  have h := writei_exact apart_mkfs howned hip htype hroom
  rw [show ((oneLoaded img 2).inode 0).din.size.toNat = 3 from hsize, if_pos (by decide)] at h
  obtain ⟨s', hs', -, hsize', hread, -⟩ := h one_pos (show 0 + logged Mkfs.sb 3 2 2 ≤ 29 by decide)
  obtain ⟨bytes, hr, -, hbytes⟩ := hread 0 9 (Nat.zero_le _) (by decide)
  refine ⟨img, s', hs', bytes, hr, hbytes.trans ?_⟩
  rw [show contents Mkfs.sb (oneLoaded img 2).disk ((oneLoaded img 2).inode 0).inum =
    [1, 2, 3] from hcont]
  rfl

/-- Writing 30 blocks of a file anew stops the system, though they are all there. -/
theorem writei_panics : ∃ img, Owned Mkfs.sb (oneLoaded img 2) ∧
    Room Mkfs.sb img 2 (30 * BSIZE) ∧ (dinode Mkfs.sb img 2).type ≠ T_DEV ∧
    (dinode Mkfs.sb img 2).size.toNat = 30 * BSIZE ∧
    writei Mkfs.sb 0 (List.replicate (30 * BSIZE) 7) 0 (oneLoaded img 2) = .error .tooBig := by
  have hlen {x : UInt8} : (List.replicate (30 * BSIZE) x).length = 30 * BSIZE :=
    List.length_replicate
  obtain ⟨img, howned, -, hcont, htype⟩ := exists_image (l := List.replicate (30 * BSIZE) 1)
    (by rw [hlen]; decide)
  have hsize : (contents Mkfs.sb img 2).length = 30 * BSIZE := by rw [hcont, hlen]
  have hroom : Room Mkfs.sb img 2 (30 * BSIZE) := by
    rw [Room, hsize, max_self]
    exact Nat.le_add_left _ _
  have hbig : LOGSIZE - 1 < (touched 0 (30 * BSIZE)).card := by
    have hsub : Finset.range 30 ⊆ touched 0 (30 * BSIZE) := fun bn hbn => by
      have hlt := Finset.mem_range.1 hbn
      refine mem_touched.2 ⟨bn * BSIZE, Nat.zero_le _, ?_, Nat.mul_div_cancel _ (by decide)⟩
      simp only [BSIZE]
      omega
    have hcard := Finset.card_le_card hsub
    rw [Finset.card_range] at hcard
    exact hcard
  refine ⟨img, howned, hroom, htype, (length_contents ..).symm.trans hsize, ?_⟩
  refine writei_too_big apart_mkfs howned ⟨Nat.one_pos, rfl⟩ one_pos htype (Nat.zero_le _) ?_ ?_
    (Nat.zero_le _) ?_
  · rw [hlen]
    decide
  · rw [hlen, Nat.zero_add]
    exact hroom
  · rw [hlen]
    exact hbig

/-- A section of `filewrite` touches four blocks and allocates four at most, so that it logs no more
    than `begin_op` has reserved. -/
theorem logged_le {size len : ℕ} (hoff : off ≤ size) (hlen : len ≤ CHUNK) :
    logged sb size off len ≤ MAXOPBLOCKS ∧ (sb.size < BPB → logged sb size off len ≤ 7) := by
  have htouched := card_touched_le off len
  have hblocks : nblk (off + len) ≤ off / BSIZE + 4 ∧ nblk (off + len) ≤ nblk size + 3 := by
    simp only [CHUNK, MAXOPBLOCKS] at hlen
    simp only [nblk, BSIZE]
    omega
  have hnew : nptr (max (nblk size) (nblk (off + len))) - nptr (nblk size) ≤ 4 := by
    rw [nptr, nptr]
    split_ifs <;> omega
  have hone : sb.size < BPB → sb.size / BPB = 0 := Nat.div_eq_of_lt
  simp only [logged, blocksLogged, MAXOPBLOCKS]
  split_ifs <;> omega

/-- On a disk with one block of the bitmap, a section of `filewrite` logs at most seven blocks: that
    one, one of inodes, the indirect one and four of data. -/
theorem writei_fits_log (hsb : sb.Apart) (hsize : sb.size < BPB) (h : Owned sb s)
    (hip : Loaded s ip) (htype : (s.inode ip).din.type ≠ T_DEV) (hop : 0 < s.outstanding)
    (hlog : s.log.card + MAXOPBLOCKS ≤ LOGSIZE) (hlen : src.length ≤ CHUNK) :
    wp (writei sb ip src off) (fun _ s' => s'.log.card ≤ s.log.card + 7) (· = .outOfBlocks) s := by
  by_cases hc : off ≤ (s.inode ip).din.size.toNat ∧ off + src.length < 2 ^ 32 ∧
      off + src.length ≤ MAXFILE * BSIZE
  swap
  · exact wp_of_ok (writei_none htype hc) (Nat.le_add_right _ _)
  have hoff : off ≤ (contents sb s.disk (s.inode ip).inum).length := by
    rw [length_contents, ← h.din hip]
    exact hc.1
  have hle : logged sb _ off src.length ≤ 7 := (logged_le hoff hlen).2 hsize
  refine wp_writei hsb h hip hop htype hoff hc.2.2 (fun s' hw => ?_) (fun _ => rfl) fun hlt => ?_
  · have hlog' := hw.log
    rw [← length_contents] at hlog'
    omega
  · simp only [LOGSIZE, MAXOPBLOCKS] at hlog hlt
    omega

/-- Two bytes in the file `a` of an image. -/
theorem writei_fits_log_append : ∃ img, wp (writei Mkfs.sb 0 [7, 8] 2)
    (fun _ s' => s'.log.card ≤ (oneLoaded img 2).log.card + 7) (· = .outOfBlocks)
    (oneLoaded img 2) := by
  obtain ⟨img, howned, -, -, htype⟩ := exists_image (l := [1, 2, 3]) (by decide)
  exact ⟨img, writei_fits_log apart_mkfs (by decide) howned ⟨Nat.one_pos, rfl⟩ htype one_pos
    (Nat.le_of_ble_eq_true rfl) (by decide)⟩

/-! ## `filewrite` -/

@[simp] theorem wp_modifyFile {g : File → File} {Q : Unit → State → Prop} :
    wp (modifyFile f g) Q E s ↔
      Q () { s with file := update s.file f (g (s.file f)) } := Iff.rfl

/-- The bytes `src` were written to the inode of the entry `ip`, at the offset of the file `f`,
    which was moved. -/
structure Advanced (sb : Superblock) (s : State) (f : Fin NFILE) (ip : Ip) (src : List UInt8)
    (s' : State) : Prop where
  owned : Owned sb s'
  contents : contents sb s'.disk (s.inode ip).inum =
    overwrite (contents sb s.disk (s.inode ip).inum) (s.file f).off src
  unchanged : ∀ j ∈ allocated sb s.disk, j ≠ (s.inode ip).inum →
    Disk.contents sb s'.disk j = Disk.contents sb s.disk j
  type : ∀ j < sb.ninodes, (dinode sb s'.disk j).type = (dinode sb s.disk j).type
  inum : (s'.inode ip).inum = (s.inode ip).inum
  ref : (s'.inode ip).ref = (s.inode ip).ref
  lock : (s'.inode ip).lock = (s.inode ip).lock
  file : s'.file = Function.update s.file f { s.file f with off := (s.file f).off + src.length }
  free : (freeBlocks sb s'.disk).card + nptr
    (nblk (Disk.contents sb s'.disk (s.inode ip).inum).length) =
    (freeBlocks sb s.disk).card + nptr (nblk (Disk.contents sb s.disk (s.inode ip).inum).length)

theorem advanced_nil (h : Owned sb s) : Advanced sb s f ip [] s where
  owned := h
  contents := overwrite_nil.symm
  unchanged _ _ _ := rfl
  type _ _ := rfl
  inum := rfl
  ref := rfl
  lock := rfl
  file := (update_eq_self f s.file).symm
  free := rfl

/-- The log does not matter. -/
theorem Advanced.of_log {l l' : Finset ℕ} {k k' : ℕ}
    (h : Advanced sb { s with log := l, outstanding := k } f ip src s') :
    Advanced sb s f ip src { s' with log := l', outstanding := k' } :=
  ⟨⟨h.owned.blocks, h.owned.sync, h.owned.uniq⟩, h.contents, h.unchanged, h.type, h.inum, h.ref,
    h.lock,
    h.file, h.free⟩

theorem Advanced.trans {s₁ : State} (h : Advanced sb s f ip l₁ s₁) (h' : Advanced sb s₁ f ip l₂ s')
    (hoff : (s.file f).off ≤ (Disk.contents sb s.disk (s.inode ip).inum).length) :
    Advanced sb s f ip (l₁ ++ l₂) s' := by
  have hmem {j : ℕ} (hj : j ∈ allocated sb s.disk) : j ∈ allocated sb s₁.disk :=
    ⟨hj.1, by rw [h.type j hj.1]; exact hj.2⟩
  have hoff₁ : (s₁.file f).off = (s.file f).off + l₁.length := by rw [h.file, update_self]
  obtain ⟨howned, hcont, hunch, htype, hinum, href, hlock, hfile, hfree⟩ := h'
  rw [h.inum] at hcont hunch hinum hfree
  refine ⟨howned, ?_, fun j hj hne => ?_, fun j hj => ?_, hinum, href.trans h.ref,
    hlock.trans h.lock, ?_,
    hfree.trans h.free⟩
  · rw [hcont, h.contents, hoff₁, overwrite_append hoff]
  · rw [hunch j (hmem hj) hne, h.unchanged j hj hne]
  · rw [htype j hj, h.type j hj]
  · rw [hfile, h.file, update_idem, update_self, List.length_append, Nat.add_assoc]

/-- A file that is open for writing: the inode is in the cache, and not locked. -/
structure Writable (sb : Superblock) (s : State) (f : Fin NFILE) (ip : Ip) : Prop where
  ref : 0 < (s.inode ip).ref
  lock : (s.inode ip).lock = false
  mem : (s.inode ip).inum ∈ allocated sb s.disk
  type : (dinode sb s.disk (s.inode ip).inum).type ≠ T_DEV
  off : (s.file f).off ≤ (contents sb s.disk (s.inode ip).inum).length

theorem Advanced.writable (h : Advanced sb s f ip src s') (hf : Writable sb s f ip) :
    Writable sb s' f ip where
  ref := h.ref ▸ hf.ref
  lock := h.lock.trans hf.lock
  mem := by
    rw [h.inum]
    exact ⟨hf.mem.1, by rw [h.type _ hf.mem.1]; exact hf.mem.2⟩
  type := by
    rw [h.inum, h.type _ hf.mem.1]
    exact hf.type
  off := by
    rw [h.inum, h.contents, length_overwrite hf.off, h.file, update_self]
    exact le_max_right _ _

/-- The inode is unlocked again. -/
theorem Advanced.unlock (h : Advanced sb (s.lock sb ip) f ip src s') (hf : Writable sb s f ip) :
    Advanced sb s f ip src (s'.unlock ip) := by
  have hself : (s.lock sb ip).inode ip = _ := State.setInode_self
  obtain ⟨howned, hcont, hunch, htype, hinum, href, hlock, hfile, hfree⟩ := h
  rw [hself] at hcont hunch hinum href hfree
  refine ⟨howned.unlock, hcont, hunch, htype, ?_, ?_, ?_, hfile, hfree⟩
  · rw [State.unlock, State.setInode_self]
    exact hinum
  · rw [State.unlock, State.setInode_self]
    exact href
  · rw [State.unlock, State.setInode_self]
    exact hf.lock.symm

/-- What `writei` has written to a locked inode, when the offset is moved and the inode unlocked. -/
theorem Writes.advanced {s₁ : State} (hw : Writes sb (s.lock sb ip) ip src (s.file f).off s₁)
    (hf : Writable sb s f ip) : Advanced sb s f ip src (State.unlock { s₁ with
      file := update s₁.file f ⟨(s₁.file f).ref, (s₁.file f).ip, (s₁.file f).readable,
        (s₁.file f).writable, (s₁.file f).off + src.length⟩ } ip) := by
  have hentry := hw.entry
  refine Advanced.unlock ⟨⟨hw.owned.blocks, hw.owned.sync,
    hw.owned.uniq⟩, hw.contents, hw.unchanged,
    fun j hj => ?_, ?_, ?_, ?_, ?_, hw.free⟩ hf
  · by_cases hne : j = ((s.lock sb ip).inode ip).inum
    · obtain ⟨addrs, haddrs⟩ := hw.din
      rw [hne]
      dsimp only
      rw [haddrs]
    · exact congrArg Dinode.type (hw.rest j hj hne)
  · dsimp only
    rw [hentry]
  · dsimp only
    rw [hentry]
  · dsimp only
    rw [hentry]
  · dsimp only
    rw [hw.file]

/-- When `begin_op` lets a section in, there is room for two in the log. -/
theorem wp_beginOp {Q : Unit → State → Prop}
    (hQ : ∀ l k, 0 < k → l.card + 2 * MAXOPBLOCKS ≤ LOGSIZE →
      Q () { s with log := l, outstanding := k }) : wp beginOp Q E s := by
  rw [beginOp, wp_update]
  split_ifs with h
  · exact hQ ∅ 1 one_pos (by decide)
  · refine hQ s.log (s.outstanding + 1) (Nat.succ_pos _) ?_
    simp only [LOGSIZE, MAXOPBLOCKS] at h ⊢
    omega

/-- One section of `filewrite`. -/
theorem wp_writeChunk {Q : Option ℕ → State → Prop} (hsb : sb.Apart) (h : Owned sb s)
    (hf : Writable sb s f ip) (hlen : src.length ≤ CHUNK)
    (hfits : (s.file f).off + src.length ≤ MAXFILE * BSIZE →
      ∀ s', Advanced sb s f ip src s' → Q (some src.length) s')
    (hlong : MAXFILE * BSIZE < (s.file f).off + src.length →
      ∀ s', Advanced sb s f ip [] s' → Q none s')
    (hfull : (s.file f).off + src.length ≤ MAXFILE * BSIZE →
      ¬Room sb s.disk (s.inode ip).inum ((s.file f).off + src.length) → E .outOfBlocks) :
    wp (writeChunk sb f ip src) Q E s := by
  rw [writeChunk, wp_bind]
  refine wp_beginOp fun l k hop hlog => ?_
  obtain ⟨s₀, hs₀⟩ : ∃ s₀, s₀ = { s with log := l, outstanding := k } := ⟨_, rfl⟩
  have h₀ : Owned sb s₀ := hs₀ ▸ ⟨h.blocks, h.sync, h.uniq⟩
  have hf₀ : Writable sb s₀ f ip := hs₀ ▸ ⟨hf.ref, hf.lock, hf.mem, hf.type, hf.off⟩
  have hop₀ : 0 < s₀.outstanding := hs₀ ▸ hop
  have hlog₀ : s₀.log = l := by rw [hs₀]
  have hfile₀ : s₀.file = s.file := by rw [hs₀]
  have hself : (s₀.lock sb ip).inode ip = _ := State.setInode_self
  have howned := h₀.lock hf₀.mem
  have hip : Loaded (s₀.lock sb ip) ip := loaded_lock hf₀.ref
  have htype : ((s₀.lock sb ip).inode ip).din.type ≠ T_DEV := by
    rw [hself]
    exact hf₀.type
  rw [← hs₀, wp_bind]
  refine h₀.wp_ilock hf₀.ref hf₀.lock hf₀.mem ?_
  rw [wp_bind, wp_get, wp_bind]
  by_cases hend : (s.file f).off + src.length ≤ MAXFILE * BSIZE
  · have hoff : ((s₀.lock sb ip).file f).off ≤
        (contents sb (s₀.lock sb ip).disk ((s₀.lock sb ip).inode ip).inum).length := by
      rw [hself]
      exact hf₀.off
    have hle : logged sb _ _ src.length ≤ MAXOPBLOCKS := (logged_le hoff hlen).1
    refine wp_writei hsb howned hip hop₀ htype hoff (hfile₀ ▸ hend) (fun s₁ hw => ?_)
      (fun hlt => hfull hend (not_le.2 ?_)) fun hlt => ?_
    · have hentry := hw.entry
      rw [wp_bind, wp_modifyFile, wp_bind]
      refine wp_iunlock ?_ ?_ ?_
      · dsimp only
        rw [hentry]
        exact hip.ref
      · dsimp only
        rw [hentry, hself]
      rw [wp_bind, endOp, wp_update, wp_pure]
      have ha := hw.advanced hf₀
      rw [hs₀] at ha
      exact hfits hend _ ha.of_log
    · rw [hself, hs₀] at hlt
      exact hlt
    · have hlt : LOGSIZE - 1 < s₀.log.card + _ := hlt
      simp only [LOGSIZE, MAXOPBLOCKS] at hlog hlt hle
      rw [hlog₀] at hlt
      omega
  · have hnone : writei sb ip src ((s₀.lock sb ip).file f).off (s₀.lock sb ip) =
        .ok (none, s₀.lock sb ip) := writei_none htype fun hc => hend (hfile₀ ▸ hc.2.2)
    refine wp_of_ok hnone ?_
    rw [wp_bind, wp_modifyFile, wp_bind]
    refine wp_iunlock hip.ref ?_ ?_
    · dsimp only
      rw [hself]
    rw [wp_bind, endOp, wp_update, wp_pure]
    -- the offset is not moved
    have hfile : update (s₀.lock sb ip).file f
        { (s₀.lock sb ip).file f with
          off := ((s₀.lock sb ip).file f).off + (none : Option ℕ).getD 0 } =
        (s₀.lock sb ip).file := update_eq_self f (s₀.lock sb ip).file
    have ha := (advanced_nil howned (f := f)).unlock hf₀
    rw [hfile]
    subst hs₀
    exact hlong (not_le.1 hend) _ ha.of_log

theorem Room.step {m : ℕ} (hroom : Room sb s.disk (s.inode ip).inum m)
    (h : Advanced sb s f ip l₁ s')
    (hf : Writable sb s f ip) (hm : (s.file f).off + l₁.length ≤ m) :
    Room sb s'.disk (s'.inode ip).inum m := by
  have hlen : (contents sb s'.disk (s.inode ip).inum).length =
      max (contents sb s.disk (s.inode ip).inum).length ((s.file f).off + l₁.length) := by
    rw [h.contents, length_overwrite hf.off]
  have hfree := h.free
  have hmax : max (contents sb s'.disk (s.inode ip).inum).length m =
      max (contents sb s.disk (s.inode ip).inum).length m := by omega
  rw [Room, h.inum, hmax, hfree]
  exact hroom

/-- The loop of `filewrite`: the whole write, or the chunks that fit. -/
theorem wp_filewriteLoop (hsb : sb.Apart) (fuel : ℕ) : ∀ {s : State} {src : List UInt8}
    {Q : Bool → State → Prop}, Owned sb s → Writable sb s f ip → src.length ≤ fuel →
    Room sb s.disk (s.inode ip).inum (min ((s.file f).off + src.length) (MAXFILE * BSIZE)) →
    (src = [] ∨ (s.file f).off + src.length ≤ MAXFILE * BSIZE →
      ∀ s', Advanced sb s f ip src s' → Q true s') →
    (¬(src = [] ∨ (s.file f).off + src.length ≤ MAXFILE * BSIZE) →
      ∀ m s', CHUNK * m ≤ src.length → Advanced sb s f ip (src.take (CHUNK * m)) s' → Q false s') →
    wp (filewriteLoop sb f ip fuel src) Q E s := by
  induction fuel with
  | zero =>
    intro s src Q h hf hfuel _ hall _
    obtain rfl := List.length_eq_zero_iff.1 (Nat.le_zero.1 hfuel)
    exact hall (.inl rfl) s (advanced_nil h)
  | succ fuel ih =>
    intro s src Q h hf hfuel hroom hall hsome
    rw [filewriteLoop]
    refine wp_ite (fun h0 => ?_) fun h0 => ?_
    · obtain rfl := List.length_eq_zero_iff.1 h0
      exact hall (.inl rfl) s (advanced_nil h)
    -- one section, and the loop for the rest
    have hchunk : (src.take CHUNK).length = min CHUNK src.length := List.length_take ..
    have hrest : (src.drop CHUNK).length = src.length - CHUNK := List.length_drop ..
    have hne : src ≠ [] := fun e => h0 (by rw [e, List.length_nil])
    have hpos : 0 < CHUNK := by decide
    rw [wp_bind]
    refine wp_writeChunk hsb h hf (by omega) (fun hfits s₁ ha => ?_) (fun hlong s₁ ha => ?_)
      fun hfits hno => absurd (hroom.mono (by omega)) hno
    · have hoff₁ : (s₁.file f).off = (s.file f).off + (src.take CHUNK).length := by
        rw [ha.file, update_self]
      have hsum : (s₁.file f).off + (src.drop CHUNK).length = (s.file f).off +
        src.length := by omega
      have hdrop : src.drop (src.take CHUNK).length = src.drop CHUNK := by
        rw [hchunk]
        rcases le_total CHUNK src.length with hle | hle
        · rw [min_eq_left hle]
        · rw [min_eq_right hle, List.drop_length, List.drop_eq_nil_of_le hle]
      dsimp only
      rw [if_pos rfl, hdrop]
      refine ih ha.owned (ha.writable hf) (by omega) ?_ (fun hcond s' hs' => ?_)
        fun hcond m s' hm hs' => ?_
      · rw [hsum]
        exact hroom.step ha hf (by omega)
      · have htrans := ha.trans hs' hf.off
        rw [List.take_append_drop] at htrans
        refine hall (.inr ?_) s' htrans
        obtain hnil | hle := hcond
        · rw [hnil, List.length_nil] at hsum
          omega
        · omega
      · have htrans := ha.trans hs' hf.off
        rw [not_or, ← List.length_eq_zero_iff] at hcond
        rw [← List.take_add, Nat.add_comm, ← Nat.mul_succ] at htrans
        refine hsome (not_or.2 ⟨hne, by omega⟩) (m + 1) s' ?_ htrans
        rw [Nat.mul_succ]
        omega
    · rw [wp_pure]
      exact hsome (not_or.2 ⟨hne, by omega⟩) 0 s₁ (Nat.zero_le _) ha

/-- What one `writei` of the bytes at the offset of the file does, with the offset then moved: the
    lengths of the contents are the sizes. Such a `writei` need not fit into the log; if it does, in
    whichever section, it leaves these contents. -/
structure WrittenOnce (sb : Superblock) (s : State) (f : Fin NFILE) (ip : Ip) (src : List UInt8)
    (s' : State) : Prop where
  contents : contents sb s'.disk (s.inode ip).inum =
    overwrite (contents sb s.disk (s.inode ip).inum) (s.file f).off src
  unchanged : ∀ j ∈ allocated sb s.disk, j ≠ (s.inode ip).inum →
    Disk.contents sb s'.disk j = Disk.contents sb s.disk j
  file : s'.file = Function.update s.file f { s.file f with off := (s.file f).off + src.length }
  once : ∀ l k, 0 < k → l.card + logged sb (Disk.contents sb s.disk (s.inode ip).inum).length
      (s.file f).off src.length ≤ LOGSIZE - 1 →
    ∃ s₁, (do ilock sb ip; writei sb ip src (s.file f).off : M (Option ℕ))
        { s with log := l, outstanding := k } = .ok (some src.length, s₁) ∧
      ∀ j ∈ allocated sb s.disk, Disk.contents sb s'.disk j = Disk.contents sb s₁.disk j

theorem Advanced.once {n : ℕ} (ha : Advanced sb s f ip src s') (hsb : sb.Apart) (h : Owned sb s)
    (hf : Writable sb s f ip) (hn : src.length ≤ n)
    (hroom : Room sb s.disk (s.inode ip).inum (min ((s.file f).off + n) (MAXFILE * BSIZE))) :
    WrittenOnce sb s f ip src s' := by
  refine ⟨ha.contents, ha.unchanged, ha.file, fun l k hop hlog => ?_⟩
  obtain ⟨s₀, hs₀⟩ : ∃ s₀, s₀ = { s with log := l, outstanding := k } := ⟨_, rfl⟩
  have h₀ : Owned sb s₀ := hs₀ ▸ ⟨h.blocks, h.sync, h.uniq⟩
  have hf₀ : Writable sb s₀ f ip := hs₀ ▸ ⟨hf.ref, hf.lock, hf.mem, hf.type, hf.off⟩
  have hop₀ : 0 < s₀.outstanding := hs₀ ▸ hop
  have hself : (s₀.lock sb ip).inode ip = _ := State.setInode_self
  -- the file has got these bytes, so they are within the limit
  have hend : (s.file f).off + src.length ≤ MAXFILE * BSIZE := by
    have hmem : (s.inode ip).inum ∈ allocated sb s'.disk := ha.inum ▸ (ha.writable hf).mem
    have hle := ha.owned.size_le hmem
    rw [← length_contents, ha.contents, length_overwrite hf.off] at hle
    omega
  have hroom : Room sb s.disk (s.inode ip).inum ((s.file f).off + src.length) :=
    hroom.mono (by omega)
  have hwp : wp (do ilock sb ip; writei sb ip src (s₀.file f).off)
    (fun r s₁ => r = some src.length ∧
      Writes sb (s₀.lock sb ip) ip src (s₀.file f).off s₁) (fun _ => False) s₀ := by
    rw [wp_bind]
    refine h₀.wp_ilock hf₀.ref hf₀.lock hf₀.mem ?_
    refine wp_writei hsb (h₀.lock hf₀.mem) (loaded_lock hf₀.ref) hop₀
      (by rw [hself]; exact hf₀.type)
      (by rw [hself]; exact hf₀.off) (hs₀ ▸ hend) (fun s₁ hw => ⟨rfl, hw⟩)
      (fun hlt => ?_) fun hlt => ?_
    · rw [hself, hs₀] at hlt
      exact absurd hroom (not_le.2 hlt)
    · rw [hself, hs₀] at hlt
      exact absurd hlog (not_le.2 hlt)
  obtain ⟨_, s₁, hs₁, rfl, hw⟩ := exists_ok hwp
  obtain ⟨-, hcont, hunch, -⟩ := hw
  rw [hself, hs₀] at hcont hunch
  rw [hs₀] at hs₁
  refine ⟨s₁, hs₁, fun j hj => ?_⟩
  by_cases hne : j = (s.inode ip).inum
  · rw [hne, ha.contents]
    exact hcont.symm
  · rw [ha.unchanged j hj hne]
    exact (hunch j hj hne).symm

/-- `filewrite` is one `writei`, of all bytes or of the first chunks. -/
theorem filewrite_exact (hsb : sb.Apart) (h : Owned sb s) (hip : (s.file f).ip = some ip)
    (hwritable : (s.file f).writable = true) (hf : Writable sb s f ip)
    (hroom : Room sb s.disk (s.inode ip).inum
      (min ((s.file f).off + src.length) (MAXFILE * BSIZE))) :
    if src = [] ∨ (s.file f).off + src.length ≤ MAXFILE * BSIZE then
      ∃ s', filewrite sb f src s = .ok (true, s') ∧ WrittenOnce sb s f ip src s'
    else ∃ m s', CHUNK * m ≤ src.length ∧ filewrite sb f src s = .ok (false, s') ∧
      WrittenOnce sb s f ip (src.take (CHUNK * m)) s' := by
  have hstart {Q : Bool → State → Prop} (hwp : wp (filewriteLoop sb f ip src.length src) Q
      (fun _ => False) s) : wp (filewrite sb f src) Q (fun _ => False) s := by
    rw [filewrite, wp_bind, wp_get, if_neg (by rw [hwritable]; decide), hip]
    exact hwp
  split_ifs with hc
  · obtain ⟨_, s', hs', rfl, ha⟩ := exists_ok <| hstart <| wp_filewriteLoop
      (Q := fun r s' => r = true ∧ Advanced sb s f ip src s') hsb _ h hf le_rfl hroom
      (fun _ s' ha => ⟨rfl, ha⟩) fun hn => absurd hc hn
    exact ⟨s', hs', ha.once hsb h hf le_rfl hroom⟩
  · obtain ⟨_, s', hs', rfl, m, hm, ha⟩ := exists_ok <| hstart <| wp_filewriteLoop
      (Q := fun r s' => r = false ∧ ∃ m, CHUNK * m ≤ src.length ∧
        Advanced sb s f ip (src.take (CHUNK * m)) s') hsb _ h hf le_rfl hroom
      (fun hy => absurd hy hc) fun _ m s' hm ha => ⟨rfl, m, hm, ha⟩
    exact ⟨m, s', hm, hs', ha.once hsb h hf (List.length_take_le' ..) hroom⟩

/-- The file of the image is open at the offset 3, and no section is. -/
def oneOpen (img : Sectors) : State :=
  { oneLoaded img 2 with outstanding := 0, file := fun _ => ⟨1, some 0, true, true, 3⟩ }

/-- Two chunks in the middle of a file: no more than that is changed. -/
theorem filewrite_exact_chunks : ∃ img s',
    contents Mkfs.sb img 2 = List.replicate 2000 1 ∧
    filewrite Mkfs.sb 0 (List.replicate 1600 7) (oneOpen img) = .ok (true, s') ∧
    contents Mkfs.sb s'.disk 2 =
      List.replicate 3 1 ++ List.replicate 1600 7 ++ List.replicate 397 1 ∧
    (s'.file 0).off = 1603 := by
  obtain ⟨img, howned, hmem, hcont, htype⟩ := exists_image (l := List.replicate 2000 1)
    (by rw [List.length_replicate]; decide)
  have hlen : (contents Mkfs.sb img 2).length = 2000 := by rw [hcont, List.length_replicate]
  obtain ⟨src, hsrc⟩ : ∃ src, src = List.replicate 1600 (7 : UInt8) := ⟨_, rfl⟩
  have hlen' : src.length = 1600 := by rw [hsrc, List.length_replicate]
  have hf : Writable Mkfs.sb (oneOpen img) 0 0 :=
    ⟨Nat.one_pos, rfl, hmem, htype, (Nat.le_of_ble_eq_true rfl : 3 ≤ 2000).trans hlen.ge⟩
  have howned' : Owned Mkfs.sb (oneOpen img) := ⟨howned.blocks, howned.sync, howned.uniq⟩
  have hroom : Room Mkfs.sb img 2 (min (3 + src.length) (MAXFILE * BSIZE)) := by
    rw [Room, hlen, hlen']
    exact Nat.le_add_left _ _
  have h := filewrite_exact apart_mkfs howned' rfl rfl hf hroom
  rw [if_pos (.inr (by rw [hlen']; exact (by decide : 3 + 1600 ≤ MAXFILE * BSIZE)))] at h
  obtain ⟨s', hs', hw⟩ := h
  have hwritten : contents Mkfs.sb s'.disk 2 = overwrite (contents Mkfs.sb img 2) 3 src :=
    hw.contents
  have hfile := congrFun hw.file 0
  rw [update_self, hlen'] at hfile
  refine ⟨img, s', hcont, hsrc ▸ hs', ?_, congrArg File.off hfile⟩
  rw [hwritten, hcont, overwrite, hlen', hsrc, List.take_replicate, List.drop_replicate,
    min_eq_left (by decide)]

end Xv6.Disk
