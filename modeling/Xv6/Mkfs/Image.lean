import Xv6.Mkfs.Layout

/-!
# The image that mkfs writes

`Written img files n`: the image holds the files, in the blocks below `n`. Every run of `mkfs`
that returns gives such an image (`mkfs_written`), and it returns for all files that fit
(`exists_mkfs`).
-/

namespace Xv6.Mkfs

open Disk Prog Function

variable {s s' : State} {c : ℕ → List UInt8} {i j n : ℕ} {files fs : List File} {f : File}
  {img : Sectors}

/-! ## The contents -/

/-- The entries of the root directory: the number of the inode and its name. -/
def ents (files : List File) : List (ℕ × List UInt8) :=
  (ROOTINO, [dot]) :: (ROOTINO, [dot, dot]) :: files.mapIdx fun k f => (k + 2, f.base)

/-- The bytes of the root directory. -/
def rootBytes (files : List File) : List UInt8 :=
  (ents files).flatMap fun (i, name) => direntBytes i name

/-- The contents of the inodes. -/
def conts (files : List File) : ℕ → List UInt8
  | 0 => []
  | 1 => rootBytes files
  | k + 2 => (files.map File.contents).getD k []

/-- The number of blocks that the root directory and the files take. -/
def need (files : List File) : ℕ :=
  cost (16 * (files.length + 2)) + (files.map fun f => cost f.contents.length).sum

/-- The files fit into the image. -/
structure Fits (files : List File) : Prop where
  inodes : files.length + 2 ≤ NINODES
  blocks : nmeta + need files ≤ FSSIZE
  length_le : ∀ f ∈ files, f.contents.length ≤ MAXFILE * BSIZE
  name : ∀ f ∈ files, slash ∉ f.name

@[simp] theorem length_direntBytes {name : List UInt8} : (direntBytes i name).length = 16 := by
  rw [direntBytes, List.length_map, List.length_range]

theorem length_ents : (ents files).length = files.length + 2 := by
  rw [ents, List.length_cons, List.length_cons, List.length_mapIdx]

theorem length_rootBytes : (rootBytes files).length = 16 * (files.length + 2) := by
  have h : ∀ l : List (ℕ × List UInt8),
      (l.flatMap fun (i, name) => direntBytes i name).length = 16 * l.length := by
    intro l
    induction l with
    | nil => rfl
    | cons e l ih =>
      rw [List.flatMap_cons, List.length_append, ih, length_direntBytes, List.length_cons]
      omega
  rw [rootBytes, h, length_ents]

theorem ents_concat : ents (fs ++ [f]) = ents fs ++ [(fs.length + 2, f.base)] := by
  rw [ents, List.mapIdx_concat, ents, List.cons_append, List.cons_append]

theorem conts_concat : conts (fs ++ [f]) =
    update (update (conts fs) 1
      (rootBytes fs ++ direntBytes (fs.length + 2) f.base)) (fs.length + 2) f.contents := by
  funext k
  match k with
  | 0 => rfl
  | 1 =>
    rw [update_of_ne (by omega), update_self, conts, rootBytes, ents_concat,
      List.flatMap_append, List.flatMap_singleton, rootBytes]
  | k + 2 =>
    by_cases hk : k = fs.length
    · subst hk
      rw [update_self, conts, List.map_append, List.getD_append_right _ _ _ _ (by simp),
        List.length_map, Nat.sub_self]
      rfl
    · have hne : k + 2 ≠ fs.length + 2 := by omega
      rw [update_of_ne hne, update_of_ne (by omega), conts, conts, List.map_append]
      rcases Nat.lt_or_ge k fs.length with hlt | hge
      · rw [List.getD_append _ _ _ _ (by rwa [List.length_map])]
      · rw [List.getD_append_right _ _ _ _ (by rwa [List.length_map]), List.length_map,
          List.getD_eq_default _ _ (by simp; omega), List.getD_eq_default _ _ (by simpa)]

theorem sum_getD (l : List (List UInt8)) :
    ∑ k ∈ Finset.range l.length, cost (l.getD k []).length =
      (l.map fun c => cost c.length).sum := by
  induction l with
  | nil => rfl
  | cons c l ih =>
    rw [List.length_cons, Finset.sum_range_succ']
    simp only [List.getD_cons_succ, List.getD_cons_zero]
    rw [ih, List.map_cons, List.sum_cons, Nat.add_comm]

theorem total_conts : total (files.length + 2) (conts files) = need files := by
  have hrest := sum_getD (files.map File.contents)
  rw [List.length_map, List.map_map] at hrest
  have hconts (k : ℕ) : conts files (1 + (k + 1)) = (files.map File.contents).getD k [] := by
    rw [show 1 + (k + 1) = k + 2 by omega, conts]
  rw [total, Finset.sum_Ico_eq_sum_range, Nat.add_sub_assoc (by decide), Finset.sum_range_succ',
    need, Nat.add_comm]
  simp only [hconts]
  rw [hrest, Nat.add_zero, conts, length_rootBytes]
  rfl

/-! ## The files are added -/

/-- The contents of the files so far only get longer. -/
theorem length_conts_le (done rest : List File) (i : ℕ) :
    (conts done i).length ≤ (conts (done ++ rest) i).length := by
  match i with
  | 0 => exact le_rfl
  | 1 =>
    rw [conts, conts, length_rootBytes, length_rootBytes, List.length_append]
    omega
  | k + 2 =>
    rw [conts, conts, List.map_append]
    rcases Nat.lt_or_ge k done.length with hlt | hge
    · rw [List.getD_append _ _ _ _ (by rwa [List.length_map])]
    · rw [List.getD_eq_default _ _ (by simpa)]
      exact Nat.zero_le _

/-- The chunks of a file are appended to it. -/
theorem chunks_spec (hi : i ∈ inodes s) (hc : c i = f.contents)
    (h : Clean s (update c i [])) :
    wp (f.chunks.forM (iappend i)) (fun _ s' => Clean s' c ∧ s'.freeinode = s.freeinode)
      (fun _ => FSSIZE < nmeta + total s.freeinode c ∨ MAXFILE * BSIZE < f.contents.length) s := by
  refine wp_imp (wp_forM (I := fun rest s' => ∃ done, f.chunks = done ++ rest ∧
    Clean s' (update c i done.flatten) ∧ s'.freeinode = s.freeinode) ?_ f.chunks s
    ⟨[], rfl, h, rfl⟩) ?_
  · rintro p rest s₁ ⟨done, hdone, h₁, hfree⟩
    have hpre : (done.flatten ++ p).length ≤ f.contents.length := by
      rw [File.contents, hdone, List.flatten_append, List.flatten_cons]
      simp only [List.length_append]
      omega
    refine wp_mono (iappend_spec (p := p) h₁ (by rwa [inodes, hfree])) ?_ ?_
    · rintro _ s₂ ⟨h₂, hfree₂⟩
      refine ⟨done ++ [p], by rw [hdone, List.append_assoc]; rfl, ?_, hfree₂.trans hfree⟩
      rw [update_idem, update_self] at h₂
      rwa [List.flatten_append, List.flatten_singleton]
    · rintro e (he | he)
      · refine .inl (he.trans_le (Nat.add_le_add_left ?_ _))
        rw [hfree]
        refine total_mono le_rfl fun j _ => ?_
        by_cases hj : j = i
        · subst hj
          rw [update_self, update_self, hc]
          exact hpre
        · rw [update_of_ne hj, update_of_ne hj]
      · rw [update_self] at he
        exact .inr (he.trans_le hpre)
  · rintro _ s₁ ⟨done, hdone, h₁, hfree⟩
    rw [List.append_nil] at hdone
    rw [← hdone, ← File.contents, ← hc, update_eq_self] at h₁
    exact ⟨h₁, hfree⟩

theorem addFile_spec (h : Clean s (conts fs)) (hfree : s.freeinode = fs.length + 2)
    (hlt : fs.length + 2 < NINODES) :
    wp (addFile f) (fun _ s' => Clean s' (conts (fs ++ [f])) ∧ s'.freeinode = fs.length + 3)
      (fun _ => slash ∈ f.name ∨ FSSIZE < nmeta + total (fs.length + 3) (conts (fs ++ [f])) ∨
        MAXFILE * BSIZE < f.contents.length) s := by
  have hroot : (1 : ℕ) ≠ fs.length + 2 := by omega
  rw [addFile]
  refine wp_ite (fun hname => .inl hname) fun _ => ?_
  rw [wp_bind]
  refine wp_mono (ialloc_spec h (hfree ▸ hlt) ?_) ?_ fun _ => False.elim
  · rw [if_neg (by rw [hfree]; exact hroot.symm)]
  rintro i s₁ ⟨hi, hfree₁, h₁⟩
  rw [hfree] at hi hfree₁
  subst hi
  -- the contents once the entry is there
  have hconts : update (update (conts fs) (fs.length + 2) []) 1
      (rootBytes fs ++ direntBytes (fs.length + 2) f.base) =
      update (conts (fs ++ [f])) (fs.length + 2) [] := by
    rw [conts_concat, update_idem, update_comm hroot]
  have hspec := iappend_spec (i := 1) (p := direntBytes (fs.length + 2) f.base) h₁
    ⟨le_rfl, by rw [hfree₁]; omega⟩
  rw [update_of_ne hroot, conts, hconts] at hspec
  rw [wp_bind]
  refine wp_mono hspec ?_ ?_
  · rintro _ s₂ ⟨h₂, hfree₂⟩
    have hself : conts (fs ++ [f]) (fs.length + 2) = f.contents := by
      rw [conts_concat, update_self]
    have hmem : fs.length + 2 ∈ inodes s₂ := ⟨by omega, by rw [hfree₂, hfree₁]; omega⟩
    rw [hfree₁] at hfree₂
    refine wp_mono (chunks_spec hmem hself h₂) ?_ ?_
    · rintro _ s₃ ⟨h₃, hfree₃⟩
      exact ⟨h₃, hfree₃.trans hfree₂⟩
    · rw [hfree₂]
      exact fun _ he => .inr he
  · rintro e (he | he)
    · refine .inr (.inl (he.trans_le (Nat.add_le_add_left ?_ _)))
      rw [hfree₁]
      refine total_mono le_rfl fun j _ => ?_
      by_cases hj : j = fs.length + 2
      · rw [hj, update_self]
        exact Nat.zero_le _
      · rw [update_of_ne hj]
    · -- the root directory is far from full
      rw [List.length_append, length_rootBytes, length_direntBytes] at he
      simp only [MAXFILE, NDIRECT, NINDIRECT, BSIZE, NINODES] at he hlt
      omega

/-! ## The whole run -/

/-- The image holds the files, in the blocks below `n`. -/
structure Written (img : Sectors) (files : List File) (n : ℕ) : Prop where
  own : Own (dinode sb img) img (Set.Ico 1 (files.length + 2))
    (ptrs (Set.Ico 1 (files.length + 2)) (blocks (conts files))) (Set.Ico nmeta n)
  le : n ≤ FSSIZE
  bytes : ∀ i ∈ Set.Ico 1 (files.length + 2), ∀ off < (conts files i).length,
    byte (dinode sb img) img i off = (conts files i).getD off 0
  type : ∀ i ∈ Set.Ico 1 (files.length + 2),
    (dinode sb img i).type = if i = ROOTINO then T_DIR else T_FILE
  nlink : ∀ i ∈ Set.Ico 1 (files.length + 2), (dinode sb img i).nlink = 1
  size : ∀ i ∈ Set.Ico 1 (files.length + 2), (dinode sb img i).size.toNat =
    if i = ROOTINO then ((conts files i).length / BSIZE + 1) * BSIZE else (conts files i).length
  free : ∀ i < NINODES, i ∉ Set.Ico 1 (files.length + 2) → dinode sb img i = {}
  used : ∀ b < FSSIZE, used sb img b = decide (b < n)
  super : img 1 = sb.encode Bytes.zero

theorem bit_bitmap (n b : ℕ) : (bitmap n).bit b = decide (b < n) := by
  induction n with
  | zero => rw [bitmap, Bytes.bit_zero, decide_eq_false (Nat.not_lt_zero b)]
  | succ n ih =>
    rw [bitmap, Bytes.bit_setBit, ih, ← Bool.decide_or, decide_eq_decide]
    omega

/-- The size of the root directory is rounded up, and the bitmap is written. -/
theorem finish_spec (h : Clean s (conts files)) (hfree : s.freeinode = files.length + 2)
    (hn : files.length + 2 ≤ NINODES) {E : Exit → Prop} :
    wp (do fixRoot; let s ← get; balloc s.freeblock)
      (fun _ s' => ∃ n, Written s'.image files n) E s := by
  have hinodes : inodes s = Set.Ico 1 (files.length + 2) := by rw [inodes, hfree]
  have hle := h.layout.freeblock_le
  have hmap : sb.bmapstart < nmeta := by decide
  rw [fixRoot]
  simp only [wp_bind, wp_get]
  refine wp_rinode (by decide) (wp_winode (by decide) ?_)
  rw [balloc, if_pos (hle.trans_lt (by decide))]
  have hi (i : ℕ) (hi : i < NINODES) (m : Bytes) (d : Sectors) :
      dinode sb (update d sb.bmapstart m) i = dinode sb d i :=
    dinode_update_of_ne (by
      simp only [IBLOCK, sb, IPB, NINODES, ninodeblocks, nlog] at hi ⊢
      omega)
  obtain ⟨x, hx⟩ : ∃ x, x = { dinode sb s.image ROOTINO with
    size := .ofNat (((dinode sb s.image ROOTINO).size.toNat / BSIZE + 1) * BSIZE) } := ⟨_, rfl⟩
  obtain ⟨d, hd⟩ : ∃ d, d = update (setDinode sb s.image ROOTINO x) sb.bmapstart
    (bitmap s.freeblock) := ⟨_, rfl⟩
  have hlay : Layout (dinode sb d) { s with image := d } (conts files) := by
    rw [hd]
    refine ((h.layout.update_low (IBLOCK_lt (i := ROOTINO) (by decide)) IBLOCK_ne_one
      ((s.image (IBLOCK sb ROOTINO)).setElem 64 (ROOTINO % IPB) x.encode)).update_low hmap
      (by decide)
      (bitmap s.freeblock)).congr fun i hi' => ?_
    rw [hi i (hi'.2.trans_le h.freeinode_le)]
    by_cases hr : i = ROOTINO
    · rw [hr, dinode_setDinode_self, hx]
      exact ⟨rfl, rfl, rfl⟩
    · rw [dinode_setDinode_of_ne hr]
      exact ⟨rfl, rfl, rfl⟩
  rw [← hx, wsect, wp_update]
  simp only
  rw [← hd]
  refine ⟨s.freeblock, hinodes ▸ hlay.own, hle, hinodes ▸ hlay.bytes, hinodes ▸ hlay.type,
    hinodes ▸ hlay.nlink, fun i hi' => ?_, fun i hi' hne => ?_, fun b hb => ?_, hlay.super⟩
  · have hsize := h.size i (hinodes ▸ hi')
    rw [hd, hi i (hi'.2.trans_le hn)]
    by_cases hr : i = ROOTINO
    · subst hr
      have hlen : (conts files ROOTINO).length = 16 * (files.length + 2) := length_rootBytes
      rw [dinode_setDinode_self, hx, if_pos rfl]
      simp only
      rw [hsize, UInt32.toNat_ofNat', Nat.mod_eq_of_lt]
      simp only [NINODES, BSIZE] at hn ⊢
      omega
    · rw [dinode_setDinode_of_ne hr, if_neg hr, hsize]
  · have hr : i ≠ ROOTINO := fun e => hne (e ▸ ⟨le_rfl, Nat.lt_add_left _ (by decide)⟩)
    rw [hd, hi i hi', dinode_setDinode_of_ne hr, h.free i hi' (hinodes ▸ hne)]
  · have hblock : BBLOCK sb b = sb.bmapstart := by
      simp only [BBLOCK, BPB, BSIZE, FSSIZE] at hb ⊢
      omega
    have hbit : b % BPB = b := Nat.mod_eq_of_lt (hb.trans (by decide))
    rw [Disk.used, hblock, hbit, hd, update_self, bit_bitmap]

/-- The image before the first inode. -/
def blank : State :=
  { image := Function.update (fun _ => Bytes.zero) 1 (sb.encode Bytes.zero), freeblock := nmeta }

theorem dinode_zero {sb : Superblock} {d : Sectors} (h : d (IBLOCK sb i) = Bytes.zero) :
    dinode sb d i = {} := by
  rw [dinode, h]
  exact Dinode.decode_zero

theorem clean_blank : Clean blank (conts []) := by
  have hinodes : inodes blank = ∅ := Set.Ico_self 1
  have hmem (i : ℕ) (hi : i ∈ inodes blank) : False := by rwa [hinodes] at hi
  have hptrs : ptrs (inodes blank) (blocks (conts [])) = ∅ :=
    Set.eq_empty_of_forall_notMem fun q hq => hmem q.1 hq.1
  refine ⟨⟨?_, fun i hi => (hmem i hi).elim, fun b hb => ?_, rfl, by decide,
    fun i hi => (hmem i hi).elim, fun i hi => (hmem i hi).elim, ?_⟩, fun i hi => (hmem i hi).elim,
    fun i _ _ => dinode_zero ?_, le_rfl, by decide⟩
  · rw [hptrs, show Set.Ico nmeta blank.freeblock = ∅ from Set.Ico_self _]
    exact ⟨fun q hq => hq.elim, fun q hq => (hmem q.1 hq).elim, fun h => h.elim,
      Set.bijOn_empty _⟩
  · have hne : b ≠ 1 := fun e => absurd (e ▸ hb : nmeta ≤ 1) (by decide)
    rw [blank]
    simp only
    rw [update_of_ne hne]
  · rw [blank]
    simp only
    rw [update_self]
  · rw [blank]
    simp only
    rw [update_of_ne IBLOCK_ne_one]

theorem clear_spec (n : ℕ) (h : s.image = fun _ => Bytes.zero) :
    wp (clear n) (fun _ s' => s' = s) (fun _ => False) s := by
  rw [clear]
  refine wp_forM (I := fun _ s' => s' = s) ?_ _ s rfl
  rintro i l s' rfl
  rw [wsect, wp_update]
  nth_rewrite 1 [h]
  have hself : update (fun _ => Bytes.zero) i Bytes.zero = s'.image := by
    rw [h, update_eq_self_iff]
  rw [hself]

/-- Part of the contents does not fit, so neither do all. -/
theorem not_fits (hn : n ≤ files.length + 2)
    (hc : ∀ i ∈ Set.Ico 1 n, (c i).length ≤ (conts files i).length)
    (hlt : FSSIZE < nmeta + total n c) : ¬Fits files := fun hfits => by
  have htotal := total_mono hn hc
  rw [total_conts] at htotal
  have := hfits.blocks
  omega

theorem addFiles_spec (h : Clean s (conts [])) (hfree : s.freeinode = 2)
    (hn : files.length + 2 ≤ NINODES) :
    wp (files.forM addFile) (fun _ s' => Clean s' (conts files) ∧
      s'.freeinode = files.length + 2) (fun _ => ¬Fits files) s := by
  refine wp_imp (wp_forM (I := fun rest s' => ∃ done, files = done ++ rest ∧
    Clean s' (conts done) ∧ s'.freeinode = done.length + 2) ?_ files s ⟨[], rfl, h, hfree⟩) ?_
  · rintro f rest s₁ ⟨done, hdone, h₁, hfree₁⟩
    have hlen : done.length + 3 ≤ files.length + 2 := by
      rw [hdone, List.length_append, List.length_cons]
      omega
    have happ : done ++ [f] ++ rest = files := by rw [List.append_assoc, hdone]; rfl
    have hmem : f ∈ files := hdone ▸ List.mem_append_right _ List.mem_cons_self
    refine wp_mono (addFile_spec h₁ hfree₁ (by omega)) ?_ ?_
    · rintro _ s₂ ⟨h₂, hfree₂⟩
      refine ⟨done ++ [f], happ.symm, h₂, ?_⟩
      rw [hfree₂, List.length_append, List.length_singleton]
    · rintro e (he | he | he) hfits
      · exact hfits.name f hmem he
      · exact not_fits hlen (fun i _ => happ ▸ length_conts_le (done ++ [f]) rest i) he hfits
      · exact absurd (hfits.length_le f hmem) (by omega)
  · rintro _ s₁ ⟨done, hdone, h₁, hfree₁⟩
    rw [List.append_nil] at hdone
    subst hdone
    exact ⟨h₁, hfree₁⟩

/-- The root directory gets its entries for itself. -/
theorem dots_spec (files : List File) (h : Clean s (update (conts []) 1 []))
    (hfree : s.freeinode = 2) :
    wp (do
      iappend 1 (direntBytes 1 [dot])
      iappend 1 (direntBytes 1 [dot, dot])) (fun _ s' => Clean s' (conts []) ∧ s'.freeinode = 2)
      (fun _ => ¬Fits files) s := by
  have hroot : conts [] 1 = direntBytes 1 [dot] ++ direntBytes 1 [dot, dot] := by
    rw [conts, rootBytes, ents]
    simp only [List.mapIdx_nil, List.flatMap_cons, List.flatMap_nil, List.append_nil]
  have hlen (p : List UInt8) (hp : p.length ≤ 32) : ∀ i ∈ Set.Ico 1 2,
      (update (conts []) 1 p i).length ≤ (conts files i).length := by
    intro i hi
    have : i = 1 := by have := hi.1; have := hi.2; omega
    subst this
    rw [update_self, conts, length_rootBytes]
    omega
  have hmem {s : State} (hfree : s.freeinode = 2) : 1 ∈ inodes s := by
    rw [inodes, hfree]
    decide
  have herr (p : List UInt8) (hp : p.length ≤ 32) (he : FSSIZE < nmeta +
      total 2 (update (conts []) 1 p) ∨ MAXFILE * BSIZE < p.length) : ¬Fits files := by
    rcases he with he | he
    · exact not_fits (by omega) (hlen p hp) he
    · exact absurd (hp.trans_lt (show 32 < MAXFILE * BSIZE by decide)) (by omega)
  have hdot := iappend_spec (p := direntBytes 1 [dot]) h (hmem hfree)
  rw [update_idem, update_self, List.nil_append, hfree] at hdot
  rw [wp_bind]
  refine wp_mono hdot ?_ fun _ => herr _ (by rw [length_direntBytes]; omega)
  rintro _ s₁ ⟨h₁, hfree₁⟩
  have hdots := iappend_spec (p := direntBytes 1 [dot, dot]) h₁ (hmem hfree₁)
  rw [update_idem, update_self, hfree₁] at hdots
  refine wp_mono hdots ?_ fun _ => herr _ (by
    rw [List.length_append, length_direntBytes, length_direntBytes])
  rintro _ s₂ ⟨h₂, hfree₂⟩
  rw [← hroot, update_eq_self] at h₂
  exact ⟨h₂, hfree₂⟩

theorem main_spec (hn : files.length + 2 ≤ NINODES) :
    wp (main files) (fun _ s => ∃ n, Written s.image files n) (fun _ => ¬Fits files)
      { image := fun _ => Bytes.zero } := by
  have hclear := clear_spec (s := { image := fun _ => Bytes.zero, freeblock := nmeta }) FSSIZE rfl
  rw [main, wp_bind, wp_update, wp_bind]
  refine wp_mono hclear ?_ fun _ => False.elim
  rintro _ s rfl
  rw [wp_bind, wsect, wp_update, wp_bind]
  refine wp_mono (ialloc_spec clean_blank (by decide) rfl) ?_ fun _ => False.elim
  rintro root s ⟨rfl, hfree, h⟩
  rw [if_pos rfl]
  have hdots := dots_spec files h hfree
  simp only [wp_bind] at hdots ⊢
  refine wp_imp hdots fun _ s₁ h₁ => wp_imp h₁ ?_
  rintro _ s₂ ⟨h₂, hfree₂⟩
  refine wp_imp (addFiles_spec h₂ hfree₂ hn) ?_
  rintro _ s₃ ⟨h₃, hfree₃⟩
  have hfinish := finish_spec h₃ hfree₃ hn (E := fun _ => ¬Fits files)
  simp only [wp_bind] at hfinish
  exact hfinish

/-- The image of every run of `mkfs`. -/
theorem mkfs_written (hn : files.length + 2 ≤ NINODES) (h : mkfs files = .ok img) :
    ∃ n, Written img files n := by
  rw [mkfs] at h
  match hmain : main files { image := fun _ => Bytes.zero } with
  | .ok (_, s) =>
    rw [hmain] at h
    cases h
    exact of_wp (main_spec hn) hmain
  | .error e =>
    rw [hmain] at h
    exact nomatch h

/-- `mkfs` writes an image of all files that fit. -/
theorem exists_mkfs (h : Fits files) : ∃ img, mkfs files = .ok img := by
  obtain ⟨_, s, hmain, -⟩ := exists_ok (wp_mono (main_spec h.inodes) (fun _ _ => id)
    fun _ hn => hn h)
  exact ⟨s.image, by rw [mkfs, hmain]; rfl⟩

end Xv6.Mkfs
