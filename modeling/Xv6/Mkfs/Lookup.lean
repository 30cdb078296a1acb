import Mathlib.Data.List.TakeWhile
import Xv6.Disk.Read
import Xv6.Mkfs.Image

/-!
# The kernel finds the files of an image

On the image that `mkfs` writes, the kernel finds every file under its name in the root directory
and reads its contents back: the encoder and the decoder agree on the superblock, the packing of
the inodes, the block map across the indirect block and the directory entries.
-/

namespace Xv6.Mkfs

open Disk Prog

variable {files : List File} {f : File} {img : Sectors} {n e k : ℕ}

/-! ## The superblock -/

theorem decode_super : Superblock.decode (sb.encode Bytes.zero) = sb := by
  simp (disch := decide) only [Superblock.decode, Superblock.encode, Bytes.word_setWord_self,
    Bytes.word_setWord_of_ne]
  decide

/-! ## The root directory -/

theorem getD_flatMap {α : Type} {g : α → List UInt8} (hg : ∀ a, (g a).length = 16) (l : List α)
    (he : e < l.length) (hk : k < 16) : (l.flatMap g).getD (16 * e + k) 0 = (g l[e]).getD k 0 := by
  induction l generalizing e with
  | nil => exact absurd he (Nat.not_lt_zero _)
  | cons a l ih =>
    rw [List.flatMap_cons]
    cases e with
    | zero =>
      rw [Nat.mul_zero, Nat.zero_add, List.getD_append _ _ _ _ (by rwa [hg]),
        List.getElem_cons_zero]
    | succ e =>
      have hsub : 16 * (e + 1) + k - 16 = 16 * e + k := by omega
      rw [List.getD_append_right _ _ _ _ (by rw [hg]; omega), hg, hsub, List.getElem_cons_succ,
        ih (by simpa using he)]

namespace Written

theorem root_mem (_h : Written img files n) : ROOTINO ∈ Set.Ico 1 (files.length + 2) :=
  ⟨le_rfl, Nat.lt_add_left _ (by decide)⟩

/-- The blocks of the contents of a file are there. -/
theorem there {i off m : ℕ} (h : Written img files n) (hi : i ∈ Set.Ico 1 (files.length + 2))
    (hle : off + m ≤ (conts files i).length) : There (dinode sb img i) img off m := by
  intro o _ ho
  have hlt : o < (conts files i).length := by omega
  have hmem : (i, Ptr.block (o / BSIZE)) ∈ ptrs (Set.Ico 1 (files.length + 2))
    (blocks (conts files)) := ⟨hi, div_lt_nblk hlt⟩
  exact ⟨(h.own.valid _ hmem).2, (h.own.ne_zero hmem :)⟩

theorem bytes_eq {i off m : ℕ} (h : Written img files n) (hi : i ∈ Set.Ico 1 (files.length + 2))
    (hle : off + m ≤ (conts files i).length) : (dinode sb img i).bytes img off m =
      (List.range m).map fun k => (conts files i).getD (off + k) 0 := by
  refine List.map_congr_left fun k hk => ?_
  exact h.bytes i hi _ (by rw [List.mem_range] at hk; omega)

/-- The entries of the root directory. -/
theorem ent_root (h : Written img files n) (he : e < (ents files).length) :
    (dinode sb img ROOTINO).ent img (DESIZE * e) =
      { inum := .ofNat (ents files)[e].1, name := strncpy (ents files)[e].2 } := by
  have hlen : DESIZE * e + DESIZE ≤ (conts files ROOTINO).length := by
    rw [length_ents] at he
    rw [conts, length_rootBytes]
    simp only [DESIZE]
    omega
  rw [Dinode.ent, h.bytes_eq h.root_mem hlen]
  refine Dirent.decode_encode _ (length_strncpy _) fun k hk => ?_
  have hget : (rootBytes files).getD (16 * e + k) 0 =
      (direntBytes (ents files)[e].1 (ents files)[e].2).getD k 0 :=
    getD_flatMap (fun _ => length_direntBytes) _ he hk
  rw [Bytes.ofList, List.getD_eq_getElem _ _ (by simpa using hk), List.getElem_map,
    List.getElem_range, conts, hget, direntBytes, List.getD_eq_getElem _ _ (by simpa using hk),
    List.getElem_map, List.getElem_range]

/-- The bytes of a file of the image. -/
theorem bytes_file (h : Written img files n) (hk : k < files.length) :
    (dinode sb img (k + 2)).bytes img 0 files[k].contents.length = files[k].contents := by
  have hconts : conts files (k + 2) = files[k].contents := by
    rw [conts, List.getD_eq_getElem _ _ (by rwa [List.length_map]), List.getElem_map]
  rw [h.bytes_eq ⟨by omega, by omega⟩ (by rw [hconts, Nat.zero_add]), hconts]
  refine List.ext_getElem (by rw [List.length_map, List.length_range]) fun j hj hj' => ?_
  rw [List.getElem_map, List.getElem_range, Nat.zero_add, List.getD_eq_getElem _ _ hj']

end Written

/-! ## Names -/

/-- The names in the image are different from each other, and those of files. -/
structure Named (files : List File) : Prop where
  ne_nil : ∀ f ∈ files, f.base ≠ []
  /-- The names are C strings. -/
  zero : ∀ f ∈ files, 0 ∉ f.base
  slash : ∀ f ∈ files, Disk.slash ∉ f.base
  distinct : files.Pairwise fun f g => f.base.take DIRSIZ ≠ g.base.take DIRSIZ
  dots : ∀ f ∈ files, f.base.take DIRSIZ ≠ [dot] ∧ f.base.take DIRSIZ ≠ [dot, dot]

theorem slash_notMem_name (h : slash ∉ f.base) : slash ∉ f.name := by
  rw [File.base] at h
  split_ifs at h with h_
  · match hname : f.name with
    | [] => simp
    | c :: name =>
      rw [hname] at h h_
      cases h_
      simpa [slash, underscore] using h
  · exact h

/-- The entries before the one of a file have other names. -/
theorem ents_ne (h : Named files) (hk : k < files.length) (he : e < k + 2)
    (he' : e < (ents files).length) : 0 ∉ (ents files)[e].2 ∧
      (files[k].base.take DIRSIZ).take DIRSIZ ≠ (ents files)[e].2.take DIRSIZ := by
  have hdots := h.dots _ (List.getElem_mem hk)
  rw [List.take_take, Nat.min_self]
  match e with
  | 0 => exact ⟨(by decide : 0 ∉ [dot]), hdots.1⟩
  | 1 => exact ⟨(by decide : 0 ∉ [dot, dot]), hdots.2⟩
  | e + 2 =>
    have hlt : e < files.length := by omega
    have hent : (ents files)[e + 2].2 = files[e].base := by
      simp only [ents, List.getElem_cons_succ, List.getElem_mapIdx]
    rw [hent]
    refine ⟨h.zero _ (List.getElem_mem hlt), fun heq => ?_⟩
    exact List.pairwise_iff_getElem.mp h.distinct e k hlt hk (by omega) heq.symm

theorem skipelem_path (hne : f.base ≠ []) (hs : slash ∉ f.base) :
    Fs.skipelem slash (slash :: f.base) = some (f.base.take DIRSIZ, []) := by
  have hall (c : UInt8) (hc : c ∈ f.base) : decide (c ≠ slash) = true :=
    decide_eq_true fun e => hs (e ▸ hc)
  have hdrop : (slash :: f.base).dropWhile (· = slash) = f.base := by
    rw [List.dropWhile_cons_of_pos (by simp), List.dropWhile_eq_self_iff]
    intro hlen
    simpa using hall _ (List.getElem_mem hlen)
  simp only [Fs.skipelem, hdrop]
  rw [if_neg hne, List.takeWhile_eq_self_iff.mpr hall, List.dropWhile_eq_nil_iff.mpr hall,
    List.dropWhile_nil]

/-! ## The lookup -/

/-- The offsets of the entries, around one of them. -/
theorem entries_split {size : ℕ} (h : DESIZE * e + DESIZE ≤ size) :
    ∃ rest, Disk.entries size = (List.range e).map (DESIZE * ·) ++ DESIZE * e :: rest := by
  obtain ⟨m, hm⟩ : ∃ m, (size + (DESIZE - 1)) / DESIZE = e + (m + 1) :=
    ⟨(size + (DESIZE - 1)) / DESIZE - (e + 1), by simp only [DESIZE] at h ⊢; omega⟩
  refine ⟨((List.range m).map Nat.succ).map fun k => DESIZE * (e + k), ?_⟩
  rw [Disk.entries, hm, List.range_add, List.map_append, List.map_map, List.range_succ_eq_map,
    List.map_cons, List.map_map, List.map_map]
  rfl

/-- The entry of the root directory is locked, and was read from the disk. -/
theorem wp_dirlookup_root {s : Disk.State} {ip : Ip} {Q : Option (Ip × ℕ) → Disk.State → Prop}
    {E : Panic → Prop} (h : Written img files n) (hnamed : Named files)
    (hn : files.length + 2 ≤ NINODES) (hk : k < files.length) (hs : s.disk = img)
    (hx : (s.inode ip).din = dinode sb img ROOTINO)
    (hQ : wp (iget (s.inode ip).dev (k + 2)) (fun jp s' => Q (some (jp, DESIZE * (k + 2))) s') E
      s) :
    wp (dirlookup sb ip (files[k].base.take DIRSIZ)) Q E s := by
  have hlen : (conts files ROOTINO).length = 16 * (files.length + 2) := length_rootBytes
  have hread (e : ℕ) (he : e < k + 3) : DESIZE * e + DESIZE ≤ (s.inode ip).din.size.toNat ∧
      There (s.inode ip).din s.disk (DESIZE * e) DESIZE := by
    rw [hx, hs, h.size _ h.root_mem, if_pos rfl, hlen]
    refine ⟨?_, h.there h.root_mem ?_⟩
    · simp only [DESIZE, BSIZE]
      omega
    · rw [hlen]
      simp only [DESIZE]
      omega
  have htype : (s.inode ip).din.type = T_DIR := by rw [hx, h.type _ h.root_mem, if_pos rfl]
  have hent (e : ℕ) (he : e < (ents files).length) : (s.inode ip).din.ent s.disk (DESIZE * e) =
      { inum := .ofNat (ents files)[e].1, name := strncpy (ents files)[e].2 } := by
    rw [hx, hs, h.ent_root he]
  have hk2 : k + 2 < (ents files).length := by rw [length_ents]; omega
  have hlast : (ents files)[k + 2] = (k + 2, files[k].base) := by
    simp only [ents, List.getElem_cons_succ, List.getElem_mapIdx]
  have hinum : (UInt16.ofNat (k + 2)).toNat = k + 2 := by
    rw [UInt16.toNat_ofNat', Nat.mod_eq_of_lt (by simp only [NINODES] at hn; omega)]
  have hzero : 0 ∉ files[k].base := hnamed.zero _ (List.getElem_mem hk)
  have hzero' : 0 ∉ files[k].base.take DIRSIZ := fun h0 => hzero (List.mem_of_mem_take h0)
  obtain ⟨rest, hrest⟩ := entries_split (hread (k + 2) (by omega)).1
  rw [dirlookup, wp_bind, wp_getInode, if_neg (not_not.mpr htype), hrest]
  refine wp_dirlookupLoop (by rw [htype]; decide) (fun o ho => ?_) (fun o ho => .inr ?_) ?_ ?_ ?_
  · rw [List.mem_append, List.mem_map, List.mem_singleton] at ho
    rcases ho with ⟨e, he, rfl⟩ | rfl
    · exact hread e (by rw [List.mem_range] at he; omega)
    · exact hread _ (by omega)
  · rw [List.mem_map] at ho
    obtain ⟨e, he, rfl⟩ := ho
    rw [List.mem_range] at he
    have hlt : e < (ents files).length := by omega
    obtain ⟨h0, hne⟩ := ents_ne hnamed hk he hlt
    rw [hent e hlt, Ne, namecmp_eq_zero_iff hzero' h0]
    exact hne
  · rw [hent _ hk2, hlast]
    intro h0
    simp only at h0
    rw [h0] at hinum
    exact absurd hinum (by simp)
  · rw [hent _ hk2, hlast, namecmp_eq_zero_iff hzero' hzero, List.take_take, Nat.min_self]
  · rw [hent _ hk2, hlast]
    simp only
    rw [hinum]
    exact hQ

/-- The state of the kernel before the first use of the file system. -/
def boot (img : Sectors) : Disk.State := { disk := img }

/-- The entry of the root directory in the inode cache, during a lookup. -/
def rootInode (img : Sectors) : Inode where
  dev := Disk.ROOTDEV
  inum := ROOTINO
  ref := 1
  lock := true
  valid := true
  din := dinode sb img ROOTINO

/-- The path of a file is looked up. -/
theorem namei_spec (h : Written img files n) (hnamed : Named files)
    (hn : files.length + 2 ≤ NINODES) (hk : k < files.length) (p : Slot) :
    wp (namei sb p (slash :: files[k].base)) (fun r s => ∃ ip, r = some ip ∧ s.disk = img ∧
      (s.inode ip).ref = 1 ∧ (s.inode ip).lock = false ∧ (s.inode ip).valid = false ∧
      (s.inode ip).inum = k + 2) (fun _ => False) (boot img) := by
  have hmem := List.getElem_mem hk
  have hempty (ip : Ip) : ((boot img).inode ip) = {} := rfl
  have hroot : (dinode sb (boot img).disk ROOTINO).type = T_DIR := by
    rw [boot, h.type _ h.root_mem, if_pos rfl]
  rw [namei, wp_bind, namex, wp_bind, wp_get, if_pos (by rfl), wp_bind]
  refine wp_iget (fun ip hip => ?_) (fun ip _ _ => ?_) fun hfull _ => hfull 0 rfl
  · exact absurd hip.1 (Nat.lt_irrefl 0)
  · simp only [hempty]
    rw [List.length_cons, namexLoop, skipelem_path (hnamed.ne_nil _ hmem) (hnamed.slash _ hmem)]
    simp only [wp_bind]
    refine wp_ilock (by simp) (by simp) (by simp) (fun _ _ => ?_) fun _ h0 => ?_
    · simp only [wp_getInode, State.setInode_self, State.setInode_setInode, State.setInode_disk]
      change wp _ _ _ ((boot img).setInode ip (rootInode img))
      rw [if_neg (not_not.mpr hroot), if_neg (by simp)]
      simp only [wp_bind]
      refine wp_dirlookup_root h hnamed hn hk rfl (by rw [State.setInode_self]; rfl) ?_
      refine wp_iget (fun jp hjp => ?_) (fun jp hjp _ => ?_) fun hfull _ => ?_
      · -- the only entry in use is that of the root directory
        by_cases hj : jp = ip
        · subst hj
          have hinum := hjp.2.2
          rw [State.setInode_self] at hinum
          simp only [rootInode, ROOTINO] at hinum
          omega
        · have href := hjp.1
          rw [State.setInode_of_ne hj] at href
          exact absurd href (Nat.lt_irrefl 0)
      · have hne : ip ≠ jp := fun e => by
          rw [← e, State.setInode_self] at hjp
          cases hjp
        simp only [State.setInode_of_ne hne.symm, hempty, wp_bind]
        refine wp_iunlockput_keep ?_ ?_ ?_ ?_
        · rw [State.setInode_of_ne hne, State.setInode_self]
          exact one_pos
        · rw [State.setInode_of_ne hne, State.setInode_self]
          rfl
        · rw [State.setInode_of_ne hne, State.setInode_self]
          rintro ⟨_, h0, _⟩
          exact absurd ((h.nlink _ h.root_mem).symm.trans h0) (by decide)
        · refine wp_namexLoop_nil (wp_pure.mpr ⟨jp, rfl, rfl, ?_⟩)
          rw [State.setInode_of_ne hne.symm, State.setInode_self]
          exact ⟨rfl, rfl, rfl, rfl⟩
      · obtain ⟨jp, hj⟩ : ∃ jp : Ip, jp ≠ ip := exists_ne ip
        refine hfull jp ?_
        rw [State.setInode_of_ne hj]
        rfl
    · simp only [State.setInode_self, State.setInode_disk] at h0
      exact absurd (hroot.symm.trans h0) (by decide)

/-- On the image of all files that fit, the kernel finds each of them under its name, as a file of
    its length, and reads back its bytes. -/
theorem mkfs_readback (files : List File) (hinodes : files.length + 2 ≤ NINODES)
    (hblocks : nmeta + need files ≤ FSSIZE)
    (hlength : ∀ f ∈ files, f.contents.length ≤ MAXFILE * BSIZE) (hnamed : Named files) :
    ∃ img, mkfs files = .ok img ∧ ∀ f ∈ files, ∀ p : Slot, ∃ ip s₁ s₂,
      namei (.decode (img 1)) p (slash :: f.base) (boot img) = .ok (some ip, s₁) ∧
      ilock (.decode (img 1)) ip s₁ = .ok ((), s₂) ∧
      (s₂.inode ip).din.type = T_FILE ∧ (s₂.inode ip).din.size.toNat = f.contents.length ∧
      readi (.decode (img 1)) ip 0 f.contents.length s₂ = .ok (some f.contents, s₂) := by
  obtain ⟨img, himg⟩ := exists_mkfs ⟨hinodes, hblocks, hlength,
    fun f hf => slash_notMem_name (hnamed.slash f hf)⟩
  obtain ⟨n, hw⟩ := mkfs_written hinodes himg
  refine ⟨img, himg, fun f hf p => ?_⟩
  obtain ⟨k, hk, rfl⟩ := List.getElem_of_mem hf
  have hsuper : Superblock.decode (img 1) = sb := by rw [hw.super, decode_super]
  have hi : k + 2 ∈ Set.Ico 1 (files.length + 2) := ⟨by omega, by omega⟩
  have hconts : conts files (k + 2) = files[k].contents := by
    rw [conts, List.getD_eq_getElem _ _ (by rwa [List.length_map]), List.getElem_map]
  have hfile : (dinode sb img (k + 2)).type = T_FILE := by
    rw [hw.type _ hi, if_neg (by simp only [ROOTINO]; omega)]
  have hsize : (dinode sb img (k + 2)).size.toNat = files[k].contents.length := by
    rw [hw.size _ hi, if_neg (by simp only [ROOTINO]; omega), hconts]
  rw [hsuper]
  obtain ⟨_, s₁, hnamei, ip, rfl, hdisk, href, hlock, hvalid, hinum⟩ :=
    exists_ok (namei_spec hw hnamed hinodes hk p)
  have hlocked : wp (ilock sb ip) (fun _ s => s.disk = img ∧
      (s.inode ip).din = dinode sb img (k + 2)) (fun _ => False) s₁ := by
    refine wp_ilock (by omega) (by simp [hlock]) (by simp [hvalid]) (fun _ _ => ?_) fun _ h => ?_
    · rw [State.setInode_self, hdisk, hinum]
      exact ⟨hdisk, rfl⟩
    · rw [hdisk, hinum, hfile] at h
      exact absurd h (by decide)
  obtain ⟨_, s₂, hilock, hdisk₂, hdin⟩ := exists_ok hlocked
  have hread : wp (readi sb ip 0 files[k].contents.length)
      (fun r s => r = some files[k].contents ∧ s = s₂) (fun _ => False) s₂ := by
    refine wp_readi ?_ ?_ ?_ ?_
    · rw [hdin, hfile]
      decide
    · rw [hdin, hsize, Nat.zero_add]
    · rw [hdin, hdisk₂]
      exact hw.there hi (by rw [hconts, Nat.zero_add])
    · rw [hdin, hdisk₂, hw.bytes_file hk]
      exact ⟨rfl, rfl⟩
  obtain ⟨_, s₃, hreadi, rfl, rfl⟩ := exists_ok hread
  exact ⟨ip, s₁, s₃, hnamei, hilock, hdin ▸ hfile, hdin ▸ hsize, hreadi⟩

/-- Two files, one of them with a name of more than `DIRSIZ` bytes. -/
theorem mkfs_readback_two : ∃ img, mkfs [⟨[95, 97], [[1, 2], [3]]⟩, ⟨List.replicate 20 98, []⟩] =
      .ok img ∧ ∃ ip s₁ s₂,
    namei (.decode (img 1)) 0 [slash, 97] (boot img) = .ok (some ip, s₁) ∧
    ilock (.decode (img 1)) ip s₁ = .ok ((), s₂) ∧
    readi (.decode (img 1)) ip 0 3 s₂ = .ok (some [1, 2, 3], s₂) := by
  obtain ⟨img, himg, h⟩ := mkfs_readback [⟨[95, 97], [[1, 2], [3]]⟩, ⟨List.replicate 20 98, []⟩]
    (by decide) (by decide) (by decide) ⟨by decide, by decide, by decide, by decide, by decide⟩
  obtain ⟨ip, s₁, s₂, hnamei, hilock, -, -, hreadi⟩ := h _ List.mem_cons_self 0
  exact ⟨img, himg, ip, s₁, s₂, hnamei, hilock, hreadi⟩

end Xv6.Mkfs
