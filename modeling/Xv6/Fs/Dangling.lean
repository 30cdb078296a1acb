import Xv6.Fs.Calls
import Xv6.Fs.Files

/-!
# Dangling entries

Each call keeps the references to inodes and the tree (`Inv.run`), under a condition on the
directories it makes and unlinks, and on the link counts it increments (`Careful`).

* `no_dangling_entry`: the entries of directories refer to inodes in use, as long as all calls are
  careful; then no call panics that finds a free inode and room for the copies in memory.
* `dotdot_dangling`: otherwise the entry `..` of a directory may outlive its parent. `unlink` of a
  directory takes its `..` out of the link count of the parent, but leaves the entry; if a process
  is still in the directory, the parent can be unlinked and freed before it.
-/

namespace Xv6.Fs

open TransitionSystem

variable {s s' : State} {p : Slot} {cwd ip i : Inum} {f : Fin NFILE} {fd : Fin NOFILE}
  {x : Multiset Inum} {y : Multiset (Fin NFILE)}

/-! ## Calls -/

/-- The file system between calls. -/
structure Inv (s : State) : Prop where
  refs : Refs (holders s) s
  files : Files 0 s
  /-- A process that has exited has no open files. -/
  gone : ∀ p, (s.proc p).cwd = none → ∀ fd, (s.proc p).ofile fd = none

theorem inv_iff : Inv s ↔ Held Refs s :=
  ⟨fun h => ⟨h.refs, h.files, h.gone⟩, fun h => ⟨h.refs, h.files, h.gone⟩⟩

theorem refLogic : RefLogic Refs where
  congr h hs := ⟨hs.inode ▸ h.tree, hs.inode ▸ h.short, hs.ref ▸ h.ref, hs.inode ▸ h.used,
    hs.inode ▸ hs.valid ▸ h.kept⟩
  iput := Refs.iput
  idup := Refs.idup

theorem sysOpen_spec {path : List Char} {creat rdonly : Bool} (h : Held Refs s)
    (hcwd : (s.proc p).cwd = some cwd)
    (hok : (∃ i : Inum, 0 < i.val ∧ (s.inode i).type = .free) ∧
      (holders s).toFinset.card + 2 ≤ NINODE ∨ (sysOpen s p path creat rdonly).isSome) :
    ∃ s', sysOpen s p path creat rdonly = some s' ∧ Held Refs s' := by
  have hH := mem_holders hcwd
  rw [sysOpen] at hok ⊢
  split_ifs at hok ⊢ with hc
  · obtain ⟨r, s', he, hp, hf, refs⟩ := create_spec path .file h.refs hcwd hH nofun nofun
      (hok.imp id Option.isSome_of_isSome_bind)
    rw [he, Option.bind_some]
    cases r with
    | none => exact ⟨s', rfl, h.of_refs hp hf refs⟩
    | some ip => exact openInode_spec refLogic h hcwd hp hf refs
  · obtain ⟨r, s₁, he, hr, -⟩ := namex_spec path false h.refs hcwd hH
      (hok.imp And.right Option.isSome_of_isSome_bind)
    rw [he, Option.bind_some]
    cases hr with
    | fail same refs => exact ⟨s₁, rfl, h.of_refs same.proc same.file refs⟩
    | @found _ ip name same refs safe dir =>
      obtain ⟨s₂, hl, same₂, refs, -, -⟩ := refs.ilock (Multiset.mem_cons_self _ _)
      have same := same.trans same₂
      simp only
      rw [hl, Option.bind_some]
      split_ifs
      · exact ⟨_, rfl, h.of_refs (by rw [iput_proc, same.proc]) (by rw [iput_file, same.file])
          refs.iput⟩
      · exact openInode_spec refLogic h hcwd same.proc same.file refs

theorem sysChdir_spec {path : List Char} (h : Held Refs s) (hcwd : (s.proc p).cwd = some cwd)
    (hroom : (holders s).toFinset.card + 2 ≤ NINODE ∨ (sysChdir s p path).isSome) :
    ∃ s', sysChdir s p path = some s' ∧ Held Refs s' := by
  rw [sysChdir] at hroom ⊢
  obtain ⟨r, s₁, he, hr, -⟩ := namex_spec path false h.refs hcwd (mem_holders hcwd)
    (hroom.imp id Option.isSome_of_isSome_bind)
  rw [he, Option.bind_some]
  cases hr with
  | fail same refs => exact ⟨s₁, rfl, h.of_refs same.proc same.file refs⟩
  | @found _ ip name same refs safe dir =>
    obtain ⟨s₂, hl, same₂, refs, -, -⟩ := refs.ilock (Multiset.mem_cons_self _ _)
    have same := same.trans same₂
    simp only
    rw [hl, Option.bind_some]
    split_ifs with hd
    · exact ⟨_, rfl, h.of_refs (by rw [iput_proc, same.proc]) (by rw [iput_file, same.file])
        refs.iput⟩
    · rw [same.proc, hcwd, Option.map_some]
      refine ⟨_, rfl, .setCwd refLogic ?_ ?_ nofun ?_⟩
      · have hu := holders_setCwd (s := iput s₂ cwd) (p := p) (some ip)
        rw [iput_proc, same.proc, hcwd, holders_iput, same.holders, Option.elim_some,
          Option.elim_some] at hu
        rw [← Multiset.singleton_add, add_comm, ← hu, add_comm, Multiset.singleton_add] at refs
        exact refs.iput
      · exact h.files.congr (fds_congr fun q => by rw [iput_proc, same.proc])
          (by rw [iput_file, same.file])
      · rw [iput_proc, same.proc]
        exact fun q _ => h.gone q

/-! ## The system -/

/-- The directory to which a path leads, with the last name. -/
def target (s : State) (p : Slot) (path : List Char) : Option (Inum × Name) :=
  (namex s p path true).bind Prod.fst

/-- `i` is the parent of a directory that was unlinked, and is still in use. -/
def HasOrphan (s : State) (i : Inum) : Prop :=
  ∃ j, (s.inode j).type = .dir ∧ (s.inode j).nlink = 0 ∧ some (i, dotdot) ∈ (s.inode j).ents

instance (s : State) (i : Inum) : Decidable (HasOrphan s i) :=
  inferInstanceAs (Decidable (∃ _, _))

/-- No directory is made in a directory that was unlinked, none is unlinked that is the parent of a
    directory that was, and no link count is incremented that is the greatest `short` already. -/
def Careful (s : State) (a : Slot × Op) : Prop :=
  match a.2 with
  | .mkdir path => ∀ x ∈ target s a.1 path, findEnt x.2 (s.inode x.1).ents = none →
    (s.inode x.1).nlink ≠ 0 ∧ (s.inode x.1).nlink < SHRT_MAX
  | .link old _ => ∀ x ∈ (namex s a.1 old false).bind Prod.fst,
    (s.inode x.1).type ≠ .dir → (s.inode x.1).nlink < SHRT_MAX
  | .unlink path => ∀ x ∈ target s a.1 path, ¬ (x.2 = dot ∨ x.2 = dotdot) →
    ∀ e ∈ findEnt x.2 (s.inode x.1).ents, (s.inode e.2).type = .dir → isdirempty (s.inode e.2) →
      ¬ HasOrphan s e.2
  | _ => True

instance (s : State) (a : Slot × Op) : Decidable (Careful s a) :=
  match a with
  | (p, .mkdir path) => inferInstanceAs (Decidable (∀ x ∈ target s p path, _))
  | (p, .link old _) => inferInstanceAs (Decidable (∀ x ∈ (namex s p old false).bind _, _))
  | (p, .unlink path) => inferInstanceAs (Decidable (∀ x ∈ target s p path, _))
  | (_, .open _ _ _) | (_, .mknod _) | (_, .chdir _) | (_, .close _) | (_, .fork _)
  | (_, .exit) => .isTrue trivial

theorem Inv.run {op : Op} (h : Inv s) (hcwd : (s.proc p).cwd = some cwd) (hop : Careful s (p, op))
    (hok : (∀ np, op = .fork np → (s.proc np).cwd = none) ∧
      (∃ i : Inum, 0 < i.val ∧ (s.inode i).type = .free) ∧ s.incore + 3 ≤ NINODE ∨
        (op.run s p).isSome) :
    ∃ s', op.run s p = some s' ∧ Inv s' := by
  have hH := mem_holders hcwd
  rw [h.refs.incore_eq] at hok
  have hnew : (∃ i : Inum, 0 < i.val ∧ (s.inode i).type = .free) ∧
      (holders s).toFinset.card + 2 ≤ NINODE ∨ (op.run s p).isSome :=
    hok.imp (fun hok => ⟨hok.2.1, by omega⟩) id
  simp only [inv_iff] at h ⊢
  cases op with
  | «open» path creat rdonly => exact sysOpen_spec h hcwd hnew
  | mkdir path =>
    obtain ⟨r, s', he, hp, hf, refs⟩ := create_spec path .dir h.refs hcwd hH nofun
      (fun _ dp name s' he => hop (dp, name) (by rw [target, he]; rfl))
      (hnew.imp id (by simp [Op.run, sysMkdir]))
    exact ⟨_, by rw [Op.run, sysMkdir, he, Option.map_some], h.put refLogic hp hf refs⟩
  | mknod path =>
    obtain ⟨r, s', he, hp, hf, refs⟩ := create_spec path .dev h.refs hcwd hH nofun nofun
      (hnew.imp id (by simp [Op.run, sysMknod]))
    exact ⟨_, by rw [Op.run, sysMknod, he, Option.map_some], h.put refLogic hp hf refs⟩
  | link old new =>
    obtain ⟨s', he, hp, hf, refs⟩ := sysLink_spec h.refs hcwd hH
      (fun ip name s' he => hop (ip, name) (by rw [he]; rfl)) (hok.imp (And.right ∘ And.right) id)
    exact ⟨s', he, h.of_refs hp hf refs⟩
  | unlink path =>
    obtain ⟨s', he, hp, hf, refs⟩ := sysUnlink_spec h.refs hcwd hH
      (fun dp name s' off ip he hdots hf ht hempty j hj hn hm =>
        hop (dp, name) (by rw [target, he]; rfl) hdots (off, ip) hf ht hempty ⟨j, hj, hn, hm⟩)
      (hnew.imp And.right id)
    exact ⟨s', he, h.of_refs hp hf refs⟩
  | chdir path => exact sysChdir_spec h hcwd (hnew.imp And.right id)
  | close fd => exact sysClose_spec refLogic h hcwd
  | fork np =>
    refine fork_spec refLogic h hcwd ?_
    rcases hok with hok | hok
    · exact hok.1 np rfl
    · by_contra hnp
      rw [Op.run, fork, if_pos (Option.isSome_iff_ne_none.2 hnp)] at hok
      cases hok
  | exit => exact exit_spec refLogic h hcwd

theorem mkfs_of_ne (hi : i ≠ ROOTINO) : mkfs.inode i = {} := by
  simp [mkfs, hi]

theorem links_mkfs (i : Inum) : (mkfs.inode i).links = 0 := by
  by_cases hi : i = ROOTINO
  · subst hi; rfl
  · rw [mkfs_of_ne hi]
    rfl

theorem eq_root (hi : (mkfs.inode i).type ≠ .free) : i = ROOTINO := by
  by_contra hne
  rw [mkfs_of_ne hne] at hi
  exact hi rfl

theorem tree_mkfs : Tree mkfs.inode := by
  have hlinks : links mkfs.inode = 0 := Multiset.eq_zero_of_forall_notMem fun i hi => by
    obtain ⟨j, hj⟩ := mem_links.1 hi
    rw [links_mkfs] at hj
    exact Multiset.notMem_zero i hj
  have hroot : ∀ {i}, (mkfs.inode i).type = .dir → i = ROOTINO := fun h =>
    eq_root (by rw [h]; nofun)
  have hsub : ∀ i, subdirs mkfs.inode i = 0 := fun i => by
    rw [subdirs, links_mkfs]
    rfl
  refine ⟨⟨rfl, by rw [hlinks]; rfl⟩, ⟨_, rfl⟩, fun i hi => ?_, fun i hi => ?_, fun i j _ hj => ?_,
    fun i hi => ?_, fun i hi => ?_, fun i hi => ?_, fun i hi => ?_, fun i _ _ _ => hsub i⟩
  · have hne : i ≠ ROOTINO := fun he => hi (he ▸ rfl)
    rw [mkfs_of_ne hne]
  · obtain rfl := hroot hi
    exact ⟨ROOTINO, _, rfl, rfl, le_refl 1⟩
  · rw [links_mkfs] at hj
    cases Multiset.notMem_zero i hj
  · rw [hlinks] at hi
    cases Multiset.notMem_zero i hi
  · have hne : i ≠ ROOTINO := fun he => hi (he ▸ rfl)
    rw [hlinks, mkfs_of_ne hne]
    exact le_refl 0
  · obtain rfl := hroot hi
    rw [hlinks, hsub]
    rfl
  · rw [hlinks]
    exact Nat.zero_le 1

theorem holders_mkfs : holders mkfs = {ROOTINO} := by
  have hu := holders_setCwd (s := { mkfs with proc := fun _ => {} }) (p := 0) (some ROOTINO)
  have h0 : holders { mkfs with proc := fun _ => {} } = 0 := by
    rw [holders]
    exact congrArg₂ (· + ·) held_none held_none
  rw [h0, zero_add] at hu
  exact (add_zero _).symm.trans hu

theorem inv_mkfs : Inv mkfs := by
  have hnone : ∀ p fd, (mkfs.proc p).ofile fd = none := fun p fd => by
    by_cases hp : p = 0
    · subst hp; rfl
    · simp [mkfs, hp]
  have hfds : fds mkfs = 0 := by
    rw [fds]
    simp only [hnone]
    exact held_none
  refine ⟨⟨tree_mkfs, fun i => ?_, fun i => ?_, fun i hi => ?_, fun i hi hn => ?_⟩,
    ⟨fun f => ?_, fun _ _ => rfl⟩, fun p _ => hnone p⟩
  · by_cases hi : i = ROOTINO
    · subst hi; decide
    · rw [mkfs_of_ne hi]; decide
  · rw [holders_mkfs, Multiset.count_singleton]
    by_cases hi : i = ROOTINO
    · subst hi; rfl
    · simp [mkfs, hi]
  · rw [holders_mkfs, Multiset.mem_singleton] at hi
    rw [hi]
    decide
  · rw [eq_root hi] at hn
    cases hn
  · rw [hfds]
    rfl

theorem inv_of_reachable (h : fsys.Reachable Careful s) : Inv s := by
  refine h.invariant (fun s hs => hs ▸ inv_mkfs) fun s a s' hi hop hstep => ?_
  obtain ⟨p, op⟩ := a
  rw [fsys] at hstep
  simp only at hstep
  split_ifs at hstep with hc
  obtain ⟨cwd, hcwd⟩ := Option.isSome_iff_exists.1 hc
  obtain ⟨t, he, ht⟩ := hi.run hcwd hop (.inr (by rw [hstep]; rfl))
  rw [he] at hstep
  exact Option.some.inj hstep ▸ ht

theorem Tree.entry_used {I : Inum → Inode} {dp : Inum} {name : Name} (h : Tree I)
    (hd : (I dp).type = .dir) (hm : some (i, name) ∈ (I dp).ents) : (I i).type ≠ .free := by
  obtain ⟨P, l, he, hP, -⟩ := h.shape dp hd
  rw [he] at hm
  simp only [List.mem_cons, Option.some.injEq, Prod.mk.injEq] at hm
  rcases hm with ⟨rfl, -⟩ | ⟨rfl, -⟩ | hm
  · rw [hd]; nofun
  · rw [hP]; nofun
  · refine h.alloc i (mem_links.2 ⟨dp, ?_⟩)
    rw [Inode.links, he]
    exact Multiset.mem_coe.2 (List.mem_filterMap.2 ⟨_, hm, rfl⟩)

/-- Whoever is careful finds no dangling entry: an entry of a directory in use refers to an inode
    in use, what `namex` finds can be locked if there is room for two more copies in memory, and a
    call does not panic if there is room for three and a free inode. The link counts are those of
    the source, as each is a `short`. -/
theorem no_dangling_entry (h : fsys.Reachable Careful s) :
    (∀ dp i name, (s.inode dp).type = .dir → some (i, name) ∈ (s.inode dp).ents →
      (s.inode i).type ≠ .free) ∧
    (∀ p path parent, (s.proc p).cwd.isSome → s.incore + 2 ≤ NINODE →
      ∃ r s', namex s p path parent = some (r, s') ∧
        ∀ i name, r = some (i, name) → (ilock s' i).isSome) ∧
    (∀ p op, (s.proc p).cwd.isSome → Careful s (p, op) →
      (∀ np, op = .fork np → (s.proc np).cwd = none) →
      (∃ i : Inum, 0 < i.val ∧ (s.inode i).type = .free) → s.incore + 3 ≤ NINODE →
      (op.run s p).isSome) ∧
    ∀ i, 0 ≤ (s.inode i).nlink ∧ (s.inode i).nlink ≤ SHRT_MAX := by
  have hi := inv_of_reachable h
  refine ⟨fun dp i name => hi.refs.tree.entry_used, fun p path parent hc hroom => ?_,
    fun p op hc hop hfork hfree hroom => ?_,
    fun i => ⟨hi.refs.tree.nlink_nonneg i, hi.refs.short i⟩⟩
  · obtain ⟨cwd, hcwd⟩ := Option.isSome_iff_exists.1 hc
    obtain ⟨r, s', he, hr, -⟩ := namex_spec path parent hi.refs hcwd (mem_holders hcwd)
      (.inl (hi.refs.incore_eq ▸ hroom))
    refine ⟨r, s', he, fun i name hri => ?_⟩
    cases hr with
    | fail => cases hri
    | found same refs =>
      obtain ⟨rfl, rfl⟩ := Prod.mk.inj (Option.some.inj hri)
      obtain ⟨s₁, hl, -⟩ := refs.ilock (Multiset.mem_cons_self _ _)
      rw [hl]
      rfl
  · obtain ⟨cwd, hcwd⟩ := Option.isSome_iff_exists.1 hc
    obtain ⟨s', he, -⟩ := hi.run hcwd hop (.inl ⟨hfork, hfree, hroom⟩)
    rw [he]
    rfl

/-- The current directory may be removed, as `iputtest` does. -/
theorem no_dangling_entry_iputtest : ∃ s, fsys.Reachable Careful s ∧ (s.proc 0).cwd = some 2 ∧
    (s.inode 2).nlink = 0 ∧ ∀ dp i name, (s.inode dp).type = .dir →
      some (i, name) ∈ (s.inode dp).ents → (s.inode i).type ≠ .free := by
  obtain ⟨s, hs, hP⟩ := exists_reachable (S := fsys) rfl
    (show (fsys.exec Careful mkfs [(0, .mkdir ['i']), (0, .chdir ['i']),
        (0, .unlink ['.', '.', '/', 'i'])]).any
      (fun s => decide ((s.proc 0).cwd = some 2 ∧ (s.inode 2).nlink = 0)) by decide +kernel)
  have hP := of_decide_eq_true hP
  exact ⟨s, hs, hP.1, hP.2, (no_dangling_entry hs).1⟩

/-- The parent of the current directory may be freed, once both are removed: the entry `..` of
    the current directory is left dangling, and `chdir("..")` panics. -/
theorem dotdot_dangling : ∃ s, fsys.Reachable Any s ∧ (s.proc 0).cwd = some 3 ∧
    (s.inode 3).type = .dir ∧ some (2, dotdot) ∈ (s.inode 3).ents ∧ (s.inode 2).type = .free ∧
    fsys.step s (0, .chdir dotdot) = none := by
  obtain ⟨s, hs, hP⟩ := exists_reachable (S := fsys) rfl
    (show (fsys.exec Any mkfs [(0, .mkdir ['a']), (0, .mkdir ['a', '/', 'b']),
        (0, .chdir ['a', '/', 'b']), (0, .unlink ['/', 'a', '/', 'b']),
        (0, .unlink ['/', 'a'])]).any
      (fun s => decide ((s.proc 0).cwd = some 3 ∧ (s.inode 3).type = .dir ∧
        some (2, dotdot) ∈ (s.inode 3).ents ∧ (s.inode 2).type = .free) &&
        (fsys.step s (0, .chdir dotdot)).isNone) by decide +kernel)
  rw [Bool.and_eq_true] at hP
  obtain ⟨h₁, h₂, h₃, h₄⟩ := of_decide_eq_true hP.1
  exact ⟨s, hs, h₁, h₂, h₃, h₄, Option.isNone_iff_eq_none.1 hP.2⟩

end Xv6.Fs
