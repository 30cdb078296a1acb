import Xv6.Disk.Kernel
import Xv6.Disk.Own

/-!
# Reading files and directories

What the functions on the inode cache do, and what the kernel reads off an inode whose blocks are
there: `readi` gives the bytes of its blocks, and leaves the state as it is. So does `dirlookup`,
up to the reference that it takes to the inode found.
-/

namespace Xv6.Disk

open Prog

variable {sb : Superblock} {s : State} {ip jp : Ip} {x y : Inode} {bn off n : ℕ} {E : Panic → Prop}

/-! ## The inode cache -/

namespace State

@[simp] theorem setInode_self : (s.setInode ip x).inode ip = x := Function.update_self ..

theorem setInode_of_ne (h : jp ≠ ip) : (s.setInode ip x).inode jp = s.inode jp :=
  Function.update_of_ne h ..

@[simp] theorem setInode_disk : (s.setInode ip x).disk = s.disk := rfl

@[simp] theorem setInode_setInode : (s.setInode ip x).setInode ip y = s.setInode ip y := by
  rw [setInode, setInode, setInode, Function.update_idem]

end State

@[simp] theorem wp_modifyInode {f : Inode → Inode} {Q : Unit → State → Prop} :
    wp (modifyInode ip f) Q E s ↔ Q () (s.setInode ip (f (s.inode ip))) := Iff.rfl

@[simp] theorem wp_getInode {Q : Inode → State → Prop} :
    wp (getInode ip) Q E s ↔ Q (s.inode ip) s := Iff.rfl

@[simp] theorem wp_bread {Q : Bytes → State → Prop} {b : ℕ} :
    wp (bread b) Q E s ↔ Q (s.disk b) s := Iff.rfl

/-- The entry is in use for an inode. -/
def Holds (s : State) (ip : Ip) (dev inum : ℕ) : Prop :=
  0 < (s.inode ip).ref ∧ (s.inode ip).dev = dev ∧ (s.inode ip).inum = inum

instance (s : State) (ip : Ip) (dev inum : ℕ) : Decidable (Holds s ip dev inum) :=
  inferInstanceAs (Decidable (_ ∧ _))

theorem wp_iget {dev inum : ℕ} {Q : Ip → State → Prop}
    (hhit : ∀ ip, Holds s ip dev inum →
      Q ip (s.setInode ip { s.inode ip with ref := (s.inode ip).ref + 1 }))
    (hmiss : ∀ ip, (s.inode ip).ref = 0 → (∀ jp, ¬Holds s jp dev inum) →
      Q ip (s.setInode ip { s.inode ip with dev := dev, inum := inum, ref := 1, valid := false }))
    (hfull : (∀ ip, (s.inode ip).ref ≠ 0) → (∀ jp, ¬Holds s jp dev inum) → E .igetNoInodes) :
    wp (iget dev inum) Q E s := by
  rw [iget, wp_bind, wp_get]
  match hfind : (List.finRange NINODE).find? fun ip =>
      0 < (s.inode ip).ref ∧ (s.inode ip).dev = dev ∧ (s.inode ip).inum = inum with
  | some ip =>
    have h := List.find?_some hfind
    exact hhit ip (of_decide_eq_true h)
  | none =>
    have hno (jp : Ip) : ¬Holds s jp dev inum := of_decide_eq_false
      (Bool.eq_false_iff.mpr (List.find?_eq_none.mp hfind jp (List.mem_finRange jp)))
    match hfree : (List.finRange NINODE).find? fun ip => (s.inode ip).ref = 0 with
    | some ip =>
      have h := List.find?_some hfree
      exact hmiss ip (of_decide_eq_true h) hno
    | none =>
      exact hfull (fun ip => of_decide_eq_false
        (Bool.eq_false_iff.mpr (List.find?_eq_none.mp hfree ip (List.mem_finRange ip)))) hno

theorem wp_ilock {Q : Unit → State → Prop} (href : 0 < (s.inode ip).ref)
    (hlock : (s.inode ip).lock = true → E .deadlock)
    (hvalid : (s.inode ip).valid = true → Q () (s.setInode ip { s.inode ip with lock := true }))
    (hload : (s.inode ip).valid = false → (dinode sb s.disk (s.inode ip).inum).type ≠ 0 →
      Q () (s.setInode ip { s.inode ip with
        lock := true, valid := true, din := dinode sb s.disk (s.inode ip).inum }))
    (hfree : (s.inode ip).valid = false → (dinode sb s.disk (s.inode ip).inum).type = 0 →
      E .ilockNoType) :
    wp (ilock sb ip) Q E s := by
  rw [ilock, wp_bind, wp_getInode, if_neg (by omega), wp_bind, acquiresleep, wp_bind, wp_getInode]
  refine wp_ite hlock fun _ => ?_
  rw [wp_modifyInode]
  refine wp_ite hvalid fun hv => ?_
  rw [Bool.not_eq_true] at hv
  simp only [wp_bind, wp_bread, wp_modifyInode, State.setInode_setInode, State.setInode_self,
    State.setInode_disk]
  exact wp_ite (fun h0 => hfree hv h0) fun h0 => hload hv h0

theorem wp_iunlock {Q : Unit → State → Prop} (href : 0 < (s.inode ip).ref)
    (hlock : (s.inode ip).lock = true)
    (hQ : Q () (s.setInode ip { s.inode ip with lock := false })) :
    wp (iunlock ip) Q E s := by
  rw [iunlock, wp_bind, wp_getInode, if_neg]
  · exact hQ
  · rintro (h | h)
    · exact nomatch hlock.symm.trans h
    · omega

/-- `iput` of an inode that is not to be freed. -/
theorem wp_iput_keep {Q : Unit → State → Prop} (hlock : (s.inode ip).lock = false)
    (hkeep : ¬((s.inode ip).valid = true ∧ (s.inode ip).din.nlink = 0 ∧ (s.inode ip).ref = 1))
    (hQ : Q () (s.setInode ip { s.inode ip with lock := false, ref := (s.inode ip).ref - 1 })) :
    wp (iput sb ip) Q E s := by
  rw [iput, wp_bind, acquiresleep, wp_bind, wp_getInode, if_neg (by rw [hlock]; decide),
    wp_modifyInode, wp_bind, iputFree, wp_bind, wp_getInode]
  simp only [State.setInode_self]
  rw [if_neg hkeep, wp_pure]
  simp only [wp_bind, releasesleep, wp_modifyInode, State.setInode_setInode, State.setInode_self]
  exact hQ

theorem wp_iunlockput_keep {Q : Unit → State → Prop} (href : 0 < (s.inode ip).ref)
    (hlock : (s.inode ip).lock = true)
    (hkeep : ¬((s.inode ip).valid = true ∧ (s.inode ip).din.nlink = 0 ∧ (s.inode ip).ref = 1))
    (hQ : Q () (s.setInode ip { s.inode ip with lock := false, ref := (s.inode ip).ref - 1 })) :
    wp (iunlockput sb ip) Q E s := by
  rw [iunlockput, wp_bind]
  refine wp_iunlock href hlock (wp_iput_keep ?_ ?_ ?_)
  · rw [State.setInode_self]
  · rwa [State.setInode_self]
  · rwa [State.setInode_self, State.setInode_setInode]

/-! ## The contents of an inode -/

/-- The block is there. -/
theorem wp_bmap {Q : ℕ → State → Prop} (hbn : bn < MAXFILE)
    (hb : (s.inode ip).din.ptr s.disk (.block bn) ≠ 0)
    (hQ : Q ((s.inode ip).din.ptr s.disk (.block bn)) s) : wp (bmap sb ip bn) Q E s := by
  rw [bmap, wp_bind, wp_getInode]
  by_cases hd : bn < NDIRECT
  · rw [Dinode.ptr_direct hd] at hb hQ
    rw [if_pos hd, if_neg fun h0 => hb (by rw [h0, UInt32.toNat_zero]), wp_pure]
    exact hQ
  · have hx : (s.inode ip).din.addr NDIRECT ≠ 0 := fun h0 =>
      hb (Dinode.ptr_of_no_indirect (by omega) h0)
    rw [Dinode.ptr_word (by omega) hx] at hb hQ
    rw [if_neg hd, if_pos (by simp only [MAXFILE] at hbn; omega), wp_bind, bmapIndirect, wp_bind,
      wp_getInode, if_neg hx]
    simp only [wp_bind, wp_pure, wp_bread]
    rw [if_neg fun h0 => hb (by rw [h0, UInt32.toNat_zero]), wp_pure]
    exact hQ

/-- The blocks of the bytes from `off` to `off + n` are there. -/
def There (x : Dinode) (d : Sectors) (off n : ℕ) : Prop :=
  ∀ o, off ≤ o → o < off + n → o / BSIZE < MAXFILE ∧ x.ptr d (.block (o / BSIZE)) ≠ 0

/-- The bytes from `off` to `off + n`. -/
def Dinode.bytes (x : Dinode) (d : Sectors) (off n : ℕ) : List UInt8 :=
  (List.range n).map fun k => x.byte d (off + k)

theorem Dinode.bytes_add (x : Dinode) (d : Sectors) (off m n : ℕ) :
    x.bytes d off (m + n) = x.bytes d off m ++ x.bytes d (off + m) n := by
  rw [bytes, List.range_add, List.map_append, List.map_map, bytes, bytes]
  simp only [Function.comp_def, Nat.add_assoc]

/-- Within one block. -/
theorem Dinode.bytes_block {x : Dinode} {d : Sectors} (h : n ≤ BSIZE - off % BSIZE) :
    x.bytes d off n =
      (List.range n).map ((d (x.ptr d (.block (off / BSIZE)))).drop (off % BSIZE)) := by
  refine List.map_congr_left fun k hk => ?_
  rw [List.mem_range] at hk
  have hdiv : (off + k) / BSIZE = off / BSIZE := by simp only [BSIZE] at h ⊢; omega
  have hmod : (off + k) % BSIZE = off % BSIZE + k := by simp only [BSIZE] at h ⊢; omega
  rw [Dinode.byte, hdiv, hmod, Bytes.drop_apply]

theorem wp_readiLoop (fuel : ℕ) : ∀ {off n : ℕ} {Q : List UInt8 → State → Prop}, n ≤ fuel →
    There (s.inode ip).din s.disk off n → Q ((s.inode ip).din.bytes s.disk off n) s →
    wp (readiLoop sb ip fuel off n) Q E s := by
  induction fuel with
  | zero =>
    intro off n Q hn _ hQ
    rw [Nat.le_zero.mp hn] at hQ
    exact hQ
  | succ fuel ih =>
    intro off n Q hn hthere hQ
    rw [readiLoop]
    refine wp_ite (fun h0 => ?_) fun h0 => ?_
    · rw [h0] at hQ
      exact hQ
    · obtain ⟨k, hk⟩ : ∃ k, k = min n (BSIZE - off % BSIZE) := ⟨_, rfl⟩
      have hpos : 0 < k := by simp only [BSIZE] at hk; omega
      obtain ⟨hbn, hb⟩ := hthere off le_rfl (by omega)
      rw [wp_bind]
      refine wp_bmap hbn hb ?_
      rw [← hk, wp_bind, wp_bread, wp_bind]
      refine ih (by omega) (fun o ho ho' => hthere o (by omega) (by omega)) ?_
      have hn : n = k + (n - k) := by omega
      rw [hn, Dinode.bytes_add, Dinode.bytes_block (by omega)] at hQ
      exact hQ

/-- `readi` of bytes within the file. -/
theorem wp_readi {Q : Option (List UInt8) → State → Prop} (htype : (s.inode ip).din.type ≠ T_DEV)
    (hoff : off + n ≤ (s.inode ip).din.size.toNat) (hthere : There (s.inode ip).din s.disk off n)
    (hQ : Q (some ((s.inode ip).din.bytes s.disk off n)) s) : wp (readi sb ip off n) Q E s := by
  have hlt := (s.inode ip).din.size.toNat_lt
  rw [readi, wp_bind, wp_getInode, if_neg htype, if_neg]
  · rw [if_neg (by omega), wp_bind]
    exact wp_readiLoop _ le_rfl hthere hQ
  · rw [Nat.mod_eq_of_lt (by omega)]
    omega

/-- `readi` of an inode whose blocks are all there changes nothing, and never allocates. -/
theorem readi_keeps (hthere : There (s.inode ip).din s.disk 0 (s.inode ip).din.size.toNat) :
    wp (readi sb ip off n) (fun _ s' => s' = s) (fun _ => False) s := by
  rw [readi, wp_bind, wp_getInode]
  refine wp_ite (fun _ => rfl) fun _ => wp_ite (fun _ => rfl) fun hoff => ?_
  rw [wp_bind]
  refine wp_readiLoop _ le_rfl (fun o _ ho => hthere o (Nat.zero_le _) ?_) rfl
  split_ifs at ho <;> omega

/-! ## Directories -/

/-- The directory entry at an offset. -/
def Dinode.ent (x : Dinode) (d : Sectors) (off : ℕ) : Dirent :=
  .decode (Bytes.ofList (x.bytes d off DESIZE))

theorem wp_readEnt {Q : Dirent → State → Prop} {e : Panic}
    (htype : (s.inode ip).din.type ≠ T_DEV)
    (hoff : off + DESIZE ≤ (s.inode ip).din.size.toNat)
    (hthere : There (s.inode ip).din s.disk off DESIZE)
    (hQ : Q ((s.inode ip).din.ent s.disk off) s) : wp (readEnt sb ip off e) Q E s := by
  rw [readEnt, wp_bind]
  refine wp_readi htype hoff hthere ?_
  have hlen : ((s.inode ip).din.bytes s.disk off DESIZE).length = DESIZE := by
    rw [Dinode.bytes, List.length_map, List.length_range]
  simp only
  rw [if_pos hlen]
  exact hQ

/-- The search stops at the first entry with the name. -/
theorem wp_dirlookupLoop {name : List UInt8} {Q : Option (Ip × ℕ) → State → Prop}
    {pre rest : List ℕ} (htype : (s.inode ip).din.type ≠ T_DEV)
    (hread : ∀ o ∈ pre ++ [off], o + DESIZE ≤ (s.inode ip).din.size.toNat ∧
      There (s.inode ip).din s.disk o DESIZE)
    (hpre : ∀ o ∈ pre, ((s.inode ip).din.ent s.disk o).inum = 0 ∨
      namecmp name ((s.inode ip).din.ent s.disk o).name ≠ 0)
    (hinum : ((s.inode ip).din.ent s.disk off).inum ≠ 0)
    (hname : namecmp name ((s.inode ip).din.ent s.disk off).name = 0)
    (hQ : wp (iget (s.inode ip).dev ((s.inode ip).din.ent s.disk off).inum.toNat)
      (fun jp s' => Q (some (jp, off)) s') E s) :
    wp (dirlookupLoop sb ip name (pre ++ off :: rest)) Q E s := by
  induction pre with
  | nil =>
    obtain ⟨hle, hthere⟩ := hread off (by simp)
    rw [List.nil_append, dirlookupLoop, wp_bind]
    refine wp_readEnt htype hle hthere ?_
    rw [if_neg hinum, if_pos hname, wp_bind, wp_getInode, wp_bind]
    exact hQ
  | cons o pre ih =>
    obtain ⟨hle, hthere⟩ := hread o (by simp)
    have hrec := ih (fun o ho => hread o (List.mem_cons_of_mem _ ho))
      fun o ho => hpre o (List.mem_cons_of_mem _ ho)
    rw [List.cons_append, dirlookupLoop, wp_bind]
    refine wp_readEnt htype hle hthere (wp_ite (fun _ => hrec) fun h0 => ?_)
    rw [if_neg ((hpre o List.mem_cons_self).resolve_left h0)]
    exact hrec

/-! ## Paths -/

/-- The end of a path. -/
theorem wp_namexLoop_nil {fuel : ℕ} {Q : Option (Ip × List UInt8) → State → Prop}
    (hQ : Q (some (ip, [])) s) : wp (namexLoop sb false fuel ip []) Q E s := by
  cases fuel with
  | zero => exact hQ
  | succ fuel => exact hQ

end Xv6.Disk
