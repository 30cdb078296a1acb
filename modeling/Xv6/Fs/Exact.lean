import Mathlib.Algebra.BigOperators.Group.Finset.Piecewise
import Mathlib.Algebra.Order.BigOperators.Group.Finset
import Xv6.Fs.Calls

/-!
# Exact link counts

If no name is made in a directory that was unlinked, such a directory has no entry but `.` and
`..`, and the link count of an inode is exactly the number of its entries in the directories that
are linked (`Exact.nlink_eq`). Nothing is asked of the `..` of a directory that was unlinked: its
parent may be gone. With these entries redirected to the root (`mend`) the directories are a `Tree`,
so that what is known of trees can be used.
-/

namespace Xv6.Fs

open Function

variable {I I' : Inum → Inode} {i j dp ip : Inum} {name : Name} {off o : ℕ} {l : Dirents}
  {type : FileType} {e : Multiset Inum}

/-! ## Mending -/

/-- The directories that were unlinked get the root as their parent. -/
def mend (I : Inum → Inode) (i : Inum) : Inode :=
  if (I i).type = .dir ∧ (I i).nlink = 0 then
    { I i with ents := (I i).ents.set 1 (some (ROOTINO, dotdot)) }
  else I i

@[simp] theorem mend_type : (mend I i).type = (I i).type := by
  rw [mend]; split_ifs <;> rfl

@[simp] theorem mend_nlink : (mend I i).nlink = (I i).nlink := by
  rw [mend]; split_ifs <;> rfl

theorem mend_of_linked (h : (I i).nlink ≠ 0) : mend I i = I i := by
  rw [mend, if_neg fun hi => h hi.2]

theorem mend_of_file (h : (I i).type ≠ .dir) : mend I i = I i := by
  rw [mend, if_neg fun hi => h hi.1]

theorem mend_of_unlinked (hd : (I i).type = .dir) (hn : (I i).nlink = 0) :
    mend I i = { I i with ents := (I i).ents.set 1 (some (ROOTINO, dotdot)) } := by
  rw [mend, if_pos ⟨hd, hn⟩]

@[simp] theorem mend_links : (mend I i).links = (I i).links := by
  rw [mend]
  split_ifs with hi
  · rw [Inode.links, Inode.links, List.drop_set_of_lt (by decide)]
  · rfl

@[simp] theorem mend_mend : mend (mend I) i = mend I i := by
  by_cases hi : (I i).type = .dir ∧ (I i).nlink = 0
  · rw [mend_of_unlinked (by rw [mend_type]; exact hi.1) (by rw [mend_nlink]; exact hi.2),
      mend_of_unlinked hi.1 hi.2, List.set_set]
  · rw [mend, if_neg (by rwa [mend_type, mend_nlink])]

@[simp] theorem links_mend : links (mend I) = links I := by
  simp only [links, held, mend_links, Option.elim_some]

@[simp] theorem subdirs_mend : subdirs (mend I) i = subdirs I i := by
  simp only [subdirs, mend_links, mend_type]

theorem mend_congr (h : I' i = I i) : mend I' i = mend I i := by
  rw [mend, mend, h]

theorem Tree.mend (h : Tree I) : Tree (mend I) := by
  have hroot : 1 ≤ (I ROOTINO).nlink := by
    rw [h.dir ROOTINO h.root.1, if_pos rfl]
    omega
  have hlinked : ∀ {k}, 1 ≤ (I k).nlink → Fs.mend I k = I k := fun hk => mend_of_linked (by omega)
  refine ⟨⟨by rw [mend_type]; exact h.root.1, by rw [links_mend]; exact h.root.2⟩,
    by rw [hlinked hroot]; exact h.top, fun k hk => ?_, fun k hk => ?_, fun k m hk hm => ?_,
    fun k hk => ?_, fun k hk => ?_, fun k hk => ?_, fun k hk => ?_, fun k hk hr h0 => ?_⟩
  all_goals simp only [mend_type, mend_nlink, links_mend, mend_links, subdirs_mend] at *
  · rw [mend_of_file hk]
    exact h.plain k hk
  · obtain ⟨P, l, he, hP, hPn⟩ := h.shape k hk
    by_cases hn : (I k).nlink = 0
    · exact ⟨ROOTINO, l, by rw [mend_of_unlinked hk hn, he]; rfl, h.root.1, hroot⟩
    · exact ⟨P, l, by rw [mend_of_linked hn, he], hP, hPn⟩
  · have hn := h.nlink_pos (mem_links.2 ⟨m, hm⟩)
    rw [hlinked hn]
    exact h.up k m hk hm
  · exact h.alloc k hk
  · exact h.file k hk
  · exact h.dir k hk
  · exact h.one k hk
  · exact h.orphan k hk hr h0

/-! ## Exact counts -/

/-- The link counts are exact, up to the links `e` that are counted and still to be made. -/
structure Exact (e : Multiset Inum) (I : Inum → Inode) : Prop where
  tree : Tree (mend I)
  shape : ∀ i, (I i).type = .dir → ∃ P l, (I i).ents = some (i, dot) :: some (P, dotdot) :: l
  file : ∀ i, (I i).type ≠ .dir → (I i).nlink = (links I).count i + e.count i
  pending : ∀ i ∈ e, (I i).type ≠ .dir ∧ (I i).type ≠ .free
  hollow : ∀ i, (I i).type = .dir → (I i).nlink = 0 → (I i).links = 0
  names : ∀ i x, some x ∈ (I i).ents.drop 1 → x.2 ≠ dot

namespace Exact

theorem plain (h : Exact e I) (hi : (I i).type ≠ .dir) : (I i).ents = [] := by
  rw [← mend_of_file hi]
  exact h.tree.plain i (by rwa [mend_type])

theorem alloc (h : Exact e I) (hi : i ∈ links I) : (I i).type ≠ .free := by
  rw [← mend_type (I := I)]
  exact h.tree.alloc i (by rwa [links_mend])

theorem nlink_pos (h : Exact e I) (hi : i ∈ links I) : 1 ≤ (I i).nlink := by
  rw [← mend_nlink (I := I)]
  exact h.tree.nlink_pos (by rwa [links_mend])

theorem nlink_nonneg (h : Exact e I) (i : Inum) : 0 ≤ (I i).nlink := by
  rw [← mend_nlink (I := I)]
  exact h.tree.nlink_nonneg i

/-- The parent of a linked directory is a directory. -/
theorem linked (h : Exact e I) (hd : (I dp).type = .dir) (hn : (I dp).nlink ≠ 0) :
    ∃ P l, (I dp).ents = some (dp, dot) :: some (P, dotdot) :: l ∧ (I P).type = .dir := by
  obtain ⟨P, l, he, hP, -⟩ := h.tree.shape dp (by rwa [mend_type])
  rw [mend_of_linked hn] at he
  exact ⟨P, l, he, by rwa [mend_type] at hP⟩

/-- A directory with an entry is linked. -/
theorem dir_linked (h : Exact e I) (hd : (I dp).type = .dir) (hm : i ∈ (I dp).links) :
    (I dp).nlink ≠ 0 := fun hn => by
  rw [h.hollow dp hd hn] at hm
  exact Multiset.notMem_zero i hm

theorem name_ne_dot (h : Exact e I) (hd : (I dp).type = .dir)
    (hf : findEnt name (I dp).ents = none) : name ≠ dot := by
  rintro rfl
  obtain ⟨P, l, he⟩ := h.shape dp hd
  rw [he, findEnt, if_pos rfl] at hf
  cases hf

/-- An inode without links is freed. -/
theorem free (h : Exact e I) (hn : (I i).nlink = 0) (hself : I' i = ⟨.free, 0, []⟩)
    (hother : ∀ j, j ≠ i → I' j = I j) : Exact e I' := by
  have hI' : update I i (I' i) = I' := by
    funext j
    by_cases hj : j = i
    · subst hj; simp
    · simp [hj, hother j hj]
  have hnone : (I i).links = 0 := by
    by_cases hd : (I i).type = .dir
    · exact h.hollow i hd hn
    · rw [Inode.links, h.plain hd]
      rfl
  have hlinks : links I' = links I := by
    have hu := links_update I i (I' i)
    rw [hI', hself, hnone, add_zero] at hu
    exact hu.trans (add_zero _)
  have hi : i ∉ links I := fun hm => by
    have := h.nlink_pos hm
    omega
  have he : e.count i = 0 := by
    by_contra h0
    have hm := Multiset.count_ne_zero.1 h0
    have := h.file i (h.pending i hm).1
    omega
  refine ⟨?_, fun j hj => ?_, fun j hj => ?_, fun j hj => ?_, fun j hj hjn => ?_, fun j x hx => ?_⟩
  · refine h.tree.free (i := i) (by rwa [mend_nlink]) ?_ fun j hj => mend_congr (hother j hj)
    rw [mend_of_file (by simp [hself]), hself]
  · have hji : j ≠ i := fun hji => by rw [hji, hself] at hj; cases hj
    rw [hother j hji] at hj ⊢
    exact h.shape j hj
  · rw [hlinks]
    by_cases hji : j = i
    · subst hji
      rw [hself, he, Multiset.count_eq_zero.2 hi]
      rfl
    · rw [hother j hji] at hj ⊢
      exact h.file j hj
  · have hji : j ≠ i := fun hji => Multiset.count_ne_zero.2 hj (hji ▸ he)
    rw [hother j hji]
    exact h.pending j hj
  · have hji : j ≠ i := fun hji => by rw [hji, hself] at hj; cases hj
    rw [hother j hji] at hj hjn ⊢
    exact h.hollow j hj hjn
  · by_cases hji : j = i
    · rw [hji, hself] at hx
      cases hx
    · rw [hother j hji] at hx
      exact h.names j x hx

theorem mem_addEnt {x y : Inum × Name} (h : some y ∈ addEnt x l) : y = x ∨ some y ∈ l := by
  induction l with
  | nil => exact .inl (by simpa [addEnt] using h)
  | cons z l ih =>
    cases z with
    | none =>
      obtain h | h := List.mem_cons.1 h
      · exact .inl (Option.some.inj h)
      · exact .inr (List.mem_cons_of_mem _ h)
    | some z =>
      obtain h | h := List.mem_cons.1 h
      · exact .inr (List.mem_cons.2 (.inl h))
      · exact (ih h).imp_right (List.mem_cons_of_mem _)

/-- The names of a directory that gets a new one. -/
theorem names_addEnt (h : Exact e I) (hd : (I dp).type = .dir)
    (hf : findEnt name (I dp).ents = none) {x : Inum × Name}
    (hx : some x ∈ (addEnt (ip, name) (I dp).ents).drop 1) : x.2 ≠ dot := by
  obtain ⟨P, l, he⟩ := h.shape dp hd
  have hold := h.names dp
  rw [he] at hold hx
  obtain rfl | hx := mem_addEnt (l := some (P, dotdot) :: l) hx
  · exact h.name_ne_dot hd hf
  · exact hold x hx

/-- A new file, or directory, in a linked directory. -/
theorem create (h : Exact e I) (hd : (I dp).type = .dir) (hn : (I dp).nlink ≠ 0)
    (hip : (I ip).type = .free) (htype : type ≠ .free) (hf : findEnt name (I dp).ents = none) :
    Exact e (created I type dp name ip) := by
  have hne : ip ≠ dp := fun he => by rw [he, hd] at hip; cases hip
  have hn' : 1 ≤ (I dp).nlink := by
    have := h.nlink_nonneg dp
    omega
  have hmend : mend (created I type dp name ip) = created (mend I) type dp name ip := by
    funext j
    by_cases hji : j = ip
    · rw [hji, mend_of_linked (by rw [created_self hne]; nofun), created_self hne, created_self hne]
    by_cases hjd : j = dp
    · have hdp : (created I type dp name ip dp).nlink ≠ 0 := by
        rw [created_dir]
        simp only
        split_ifs <;> omega
      rw [hjd, mend_of_linked hdp, created_dir, created_dir, mend_of_linked hn]
    · rw [created_of_ne hji hjd]
      exact mend_congr (created_of_ne hji hjd)
  have hfile : (I ip).type ≠ .dir := by rw [hip]; nofun
  -- an inode that is free has no entry anywhere
  have hfree : ip ∉ links I := fun hm => h.alloc hm hip
  have hpend : ip ∉ e := fun hm => (h.pending ip hm).2 hip
  have hlinks : links (created I type dp name ip) = ip ::ₘ links I := by
    have hother (j : Inum) (hji : j ≠ ip) (hjd : j ≠ dp) :
        created I type dp name ip j = I j := created_of_ne hji hjd
    have hu := links_update₂ hne hother
    obtain ⟨P, l, he, -⟩ := h.linked hd hn
    have hdp : (created I type dp name ip dp).links = ip ::ₘ (I dp).links := by
      rw [created_dir, Inode.links, Inode.links, he]
      exact inums_addEnt
    have hself : (created I type dp name ip ip).links = 0 := by
      rw [created_self hne, Inode.links]
      split_ifs <;> rfl
    have h0 : (I ip).links = 0 := by rw [Inode.links, h.plain hfile]; rfl
    rw [h0, hself, hdp, zero_add, zero_add, Multiset.add_cons, ← Multiset.cons_add] at hu
    exact add_right_cancel hu
  refine ⟨?_, fun j hj => ?_, fun j hj => ?_, fun j hj => ?_, fun j hj hjn => ?_, fun j x hx => ?_⟩
  · rw [hmend]
    exact h.tree.create (by rwa [mend_type]) (by rwa [mend_type]) htype
      (fun _ => by rwa [mend_nlink]) name
  · by_cases hji : j = ip
    · rw [hji, created_self hne] at hj ⊢
      exact ⟨dp, [], if_pos hj⟩
    by_cases hjd : j = dp
    · obtain ⟨P, l, he⟩ := h.shape dp hd
      rw [hjd, created_dir, he]
      exact ⟨P, _, rfl⟩
    · rw [created_of_ne hji hjd] at hj ⊢
      exact h.shape j hj
  · rw [hlinks]
    by_cases hji : j = ip
    · subst hji
      rw [created_self hne, Multiset.count_cons_self, Multiset.count_eq_zero.2 hfree,
        Multiset.count_eq_zero.2 hpend]
      rfl
    · have hjd : j ≠ dp := fun he => hj (by rw [he, created_dir])
      rw [created_of_ne hji hjd] at hj ⊢
      rw [Multiset.count_cons_of_ne hji]
      exact h.file j hj
  · have hji : j ≠ ip := fun he => hpend (he ▸ hj)
    have hjd : j ≠ dp := fun he => (h.pending j hj).1 (he ▸ hd)
    rw [created_of_ne hji hjd]
    exact h.pending j hj
  · by_cases hji : j = ip
    · rw [hji, created_self hne] at hjn
      cases hjn
    by_cases hjd : j = dp
    · rw [hjd, created_dir] at hjn
      simp only at hjn
      split_ifs at hjn <;> omega
    · rw [created_of_ne hji hjd] at hj hjn ⊢
      exact h.hollow j hj hjn
  · by_cases hji : j = ip
    · rw [hji, created_self hne] at hx
      split_ifs at hx
      · have hx : x = (dp, dotdot) := by simpa using hx
        rw [hx]
        exact (by decide : dotdot ≠ dot)
      · cases hx
    by_cases hjd : j = dp
    · rw [hjd, created_dir] at hx
      exact h.names_addEnt hd hf hx
    · rw [created_of_ne hji hjd] at hx
      exact h.names j x hx

/-- The link count of a file changes, with the links that are to be made. -/
theorem set_nlink {n : ℤ} {e' : Multiset Inum} (h : Exact e I) (hi : (I ip).type ≠ .dir)
    (hused : (I ip).type ≠ .free) (hn : n = (links I).count ip + e'.count ip)
    (he : ∀ j, j ≠ ip → e'.count j = e.count j) :
    Exact e' (update I ip { I ip with nlink := n }) := by
  have hdata : ∀ j, ((update I ip { I ip with nlink := n } j).type = (I j).type ∧
      (update I ip { I ip with nlink := n } j).ents = (I j).ents) ∧
      (j ≠ ip → update I ip { I ip with nlink := n } j = I j) := fun j => by
    by_cases hj : j = ip
    · subst hj; simp
    · simp [hj]
  have hlinks : links (update I ip { I ip with nlink := n }) = links I := by
    simp only [links, held, Option.elim_some, Inode.links, (hdata _).1.2]
  refine ⟨?_, fun j hj => ?_, fun j hj => ?_, fun j hj => ?_, fun j hj hjn => ?_, fun j x hx => ?_⟩
  · have hmend : mend (update I ip { I ip with nlink := n }) =
        update (mend I) ip { I ip with nlink := n } := by
      funext j
      by_cases hj : j = ip
      · rw [hj, mend_of_file (by rw [(hdata ip).1.1]; exact hi), update_self,
          update_self]
      · rw [update_of_ne hj]
        exact mend_congr ((hdata j).2 hj)
    rw [hmend]
    refine h.tree.set_file (by rwa [mend_type]) hi (h.plain hi) ?_ fun hf => absurd hf hused
    rw [links_mend]
    simp only
    omega
  · rw [(hdata j).1.1] at hj
    rw [(hdata j).1.2]
    exact h.shape j hj
  · rw [hlinks]
    by_cases hji : j = ip
    · rw [hji, update_self]
      exact hn
    · rw [(hdata j).2 hji] at hj ⊢
      rw [he j hji]
      exact h.file j hj
  · rw [(hdata j).1.1]
    by_cases hji : j = ip
    · rw [hji]
      exact ⟨hi, hused⟩
    · rw [← Multiset.one_le_count_iff_mem, he j hji, Multiset.one_le_count_iff_mem] at hj
      exact h.pending j hj
  · have hji : j ≠ ip := fun hji => hi (by rw [← hji, ← (hdata j).1.1]; exact hj)
    rw [(hdata j).2 hji] at hj hjn ⊢
    exact h.hollow j hj hjn
  · rw [(hdata j).1.2] at hx
    exact h.names j x hx

/-- A link to a file that was counted before is made, in a linked directory. -/
theorem link (h : Exact (ip ::ₘ e) I) (hd : (I dp).type = .dir) (hn : (I dp).nlink ≠ 0)
    (hf : findEnt name (I dp).ents = none) :
    Exact e (update I dp { I dp with ents := addEnt (ip, name) (I dp).ents }) := by
  obtain ⟨hip, hused⟩ := h.pending ip (Multiset.mem_cons_self _ _)
  have hother : ∀ j, (I j).type ≠ .dir →
      update I dp { I dp with ents := addEnt (ip, name) (I dp).ents } j = I j :=
    fun j hj => by
      have hjd : j ≠ dp := fun he => hj (by rw [he]; exact hd)
      exact update_of_ne hjd _ _
  have hsame : ∀ j, (update I dp { I dp with ents := addEnt (ip, name) (I dp).ents } j).type =
      (I j).type ∧
      (update I dp { I dp with ents := addEnt (ip, name) (I dp).ents } j).nlink =
      (I j).nlink := fun j => by
    by_cases hj : j = dp
    · subst hj; simp
    · simp [hj]
  have hlinks : links (update I dp { I dp with ents := addEnt (ip, name) (I dp).ents }) =
      ip ::ₘ links I := by
    obtain ⟨P, l, he, -⟩ := h.linked hd hn
    have hu := links_update I dp { I dp with ents := addEnt (ip, name) (I dp).ents }
    have hdp : Inode.links { I dp with ents := addEnt (ip, name) (I dp).ents } =
        ip ::ₘ (I dp).links := by
      rw [Inode.links, Inode.links, he]
      exact inums_addEnt
    rw [hdp, Multiset.add_cons, ← Multiset.cons_add] at hu
    exact add_right_cancel hu
  have hcount := h.file ip hip
  rw [Multiset.count_cons_self] at hcount
  push_cast at hcount
  refine ⟨?_, fun j hj => ?_, fun j hj => ?_, fun j hj => ?_, fun j hj hjn => ?_, fun j x hx => ?_⟩
  · have hmend : mend (update I dp { I dp with ents := addEnt (ip, name) (I dp).ents }) =
        update (mend I) dp
          { mend I dp with ents := addEnt (ip, name) (mend I dp).ents } := by
      funext j
      by_cases hj : j = dp
      · rw [hj, mend_of_linked (by rw [(hsame dp).2]; exact hn), mend_of_linked hn,
          update_self, update_self]
      · rw [update_of_ne hj]
        exact mend_congr (update_of_ne hj _ _)
    rw [hmend]
    refine h.tree.link_file (by rwa [mend_type]) (by rwa [mend_type]) (by rwa [mend_type]) ?_ name
    rw [links_mend, mend_nlink]
    omega
  · by_cases hjd : j = dp
    · obtain ⟨P, l, he⟩ := h.shape dp hd
      rw [hjd, update_self, he]
      exact ⟨P, _, rfl⟩
    · rw [update_of_ne hjd] at hj ⊢
      exact h.shape j hj
  · have hj' : (I j).type ≠ .dir := by rwa [(hsame j).1] at hj
    have hfile := h.file j hj'
    rw [hlinks, hother j hj']
    by_cases hji : j = ip
    · subst hji
      rw [Multiset.count_cons_self]
      push_cast
      omega
    · rw [Multiset.count_cons_of_ne hji] at hfile ⊢
      exact hfile
  · rw [(hsame j).1]
    exact h.pending j (Multiset.mem_cons_of_mem hj)
  · rw [(hsame j).1] at hj
    rw [(hsame j).2] at hjn
    have hjd : j ≠ dp := fun he => hn (he ▸ hjn)
    rw [update_of_ne hjd]
    exact h.hollow j hj hjn
  · by_cases hjd : j = dp
    · rw [hjd, update_self] at hx
      exact h.names_addEnt hd hf hx
    · rw [update_of_ne hjd] at hx
      exact h.names j x hx

theorem eq_none_of_inums {x : Inum × Name} (h : inums l = 0) : some x ∉ l := fun hx => by
  have hm : x.1 ∈ inums l := Multiset.mem_coe.2 (List.mem_filterMap.2 ⟨_, hx, rfl⟩)
  rw [h] at hm
  exact Multiset.notMem_zero _ hm

/-- The directory of which an entry is removed stays linked. -/
theorem removed_linked (h : Exact e I) (hd : (I dp).type = .dir) (hm : ip ∈ (I dp).links)
    (hne : ip ≠ dp) (off : ℕ) : (removed I dp ip off dp).nlink ≠ 0 := by
  rw [removed_dir hne]
  simp only
  split_ifs with ht
  · have h2 : 2 ≤ (mend I dp).nlink := h.tree.two_le_nlink (by rwa [mend_type])
      (show ip ∈ (mend I dp).links by rwa [mend_links])
      (show (mend I ip).type = .dir by rwa [mend_type])
    rw [mend_nlink] at h2
    omega
  · rw [sub_zero]
    exact h.dir_linked hd hm

/-- An entry is removed. -/
theorem remove {P : Inum} (h : Exact e I) (hd : (I dp).type = .dir)
    (he : (I dp).ents = some (dp, dot) :: some (P, dotdot) :: l)
    (hl : findEnt name l = some (o, ip))
    (hempty : (I ip).type = .dir → isdirempty (I ip)) : Exact e (removed I dp ip (o + 2)) := by
  have hldp : (I dp).links = inums l := by rw [Inode.links, he]; rfl
  have hmem : ip ∈ (I dp).links := hldp ▸ mem_inums hl
  have hm : ip ∈ links I := mem_links.2 ⟨dp, hmem⟩
  have hn := h.dir_linked hd hmem
  have hnip := h.nlink_pos hm
  have hne := ne_of_isdirempty hempty hd hmem
  have hroot : ip ≠ ROOTINO := fun hr => by
    have := h.tree.root.2
    rw [links_mend, ← hr, Multiset.count_eq_zero] at this
    exact this hm
  have hlinks : ip ::ₘ links (removed I dp ip (o + 2)) = links I := by
    have hother (j : Inum) (hji : j ≠ ip) (hjd : j ≠ dp) :
        removed I dp ip (o + 2) j = I j := removed_of_ne hji hjd
    have hu := links_update₂ hne hother
    have hip : (removed I dp ip (o + 2) ip).links = (I ip).links := by rw [removed_self]; rfl
    have hdp : ip ::ₘ (removed I dp ip (o + 2) dp).links = (I dp).links := by
      rw [removed_dir hne, Inode.links, he, hldp]
      exact inums_set hl
    rw [hip, ← hdp, Multiset.add_cons, Multiset.add_cons, ← Multiset.cons_add] at hu
    exact add_right_cancel hu
  have hcount : ∀ j, (links I).count j =
      (links (removed I dp ip (o + 2))).count j + if j = ip then 1 else 0 := fun j => by
    rw [← hlinks, Multiset.count_cons]
  -- a directory that is unlinked has no entries left, so no path goes through it
  have htree : Tree (removed (mend I) dp ip (o + 2)) := by
    have hip : mend I ip = I ip := mend_of_linked (by omega)
    have hdp : mend I dp = I dp := mend_of_linked hn
    refine h.tree.remove (by rwa [mend_type]) (by rw [hdp, he]) hl (by rwa [hip]) ?_
    intro _ j hj hjn hmj
    rw [mend_type] at hj
    rw [mend_nlink] at hjn
    obtain ⟨P', l', he'⟩ := h.shape j hj
    have hl' : inums l' = 0 := by
      have := h.hollow j hj hjn
      rwa [Inode.links, he'] at this
    rw [mend_of_unlinked hj hjn, he'] at hmj
    simp only [List.set_cons_succ, List.set_cons_zero, List.mem_cons, Option.some.injEq,
      Prod.mk.injEq] at hmj
    rcases hmj with ⟨-, hdd⟩ | ⟨hr, -⟩ | hmj
    · exact absurd hdd (by decide)
    · exact hroot hr
    · exact eq_none_of_inums hl' hmj
  have hdp := h.removed_linked hd hmem hne (o + 2)
  refine ⟨?_, fun j hj => ?_, fun j hj => ?_, fun j hj => ?_, fun j hj hjn => ?_, fun j x hx => ?_⟩
  · have hmend : mend (removed I dp ip (o + 2)) = mend (removed (mend I) dp ip (o + 2)) := by
      have hip : mend I ip = I ip := mend_of_linked (by omega)
      have hdp : mend I dp = I dp := mend_of_linked hn
      funext j
      by_cases hji : j = ip
      · exact mend_congr (by rw [hji, removed_self, removed_self, hip])
      by_cases hjd : j = dp
      · exact mend_congr (by rw [hjd, removed_dir hne, removed_dir hne, hdp, hip])
      · rw [mend_congr (removed_of_ne hji hjd), mend_congr (removed_of_ne hji hjd), mend_mend]
    rw [hmend]
    exact htree.mend
  · rw [removed_type] at hj
    by_cases hji : j = ip
    · rw [hji, removed_self]
      exact h.shape ip (hji ▸ hj)
    by_cases hjd : j = dp
    · rw [hjd, removed_dir hne, he]
      exact ⟨P, _, rfl⟩
    · rw [removed_of_ne hji hjd]
      exact h.shape j hj
  · rw [removed_type] at hj
    have hfile := h.file j hj
    have hc := hcount j
    by_cases hji : j = ip
    · rw [if_pos hji] at hc
      subst hji
      rw [removed_self]
      simp only
      omega
    · rw [if_neg hji] at hc
      have hjd : j ≠ dp := fun he => hj (he ▸ hd)
      rw [removed_of_ne hji hjd]
      omega
  · rw [removed_type]
    exact h.pending j hj
  · rw [removed_type] at hj
    by_cases hji : j = ip
    · subst hji
      rw [removed_self]
      exact links_of_isdirempty (hempty hj)
    have hjd : j ≠ dp := fun he => hdp (he ▸ hjn)
    rw [removed_of_ne hji hjd] at hjn ⊢
    exact h.hollow j hj hjn
  · refine h.names j x ?_
    by_cases hji : j = ip
    · rw [hji, removed_self] at hx
      rwa [hji]
    by_cases hjd : j = dp
    · rw [hjd, removed_dir hne, he] at hx
      rw [hjd, he]
      change some x ∈ some (P, dotdot) :: l.set o none at hx
      obtain hx | hx := List.mem_cons.1 hx
      · exact List.mem_cons.2 (.inl hx)
      · obtain hx | hx := List.mem_or_eq_of_mem_set hx
        · exact List.mem_cons_of_mem _ hx
        · cases hx
    · rwa [removed_of_ne hji hjd] at hx

end Exact

/-! ## Counting -/

/-- An entry for an inode, other than a `.`. -/
def isEntry (i : Inum) (x : Option (Inum × Name)) : Bool := x.any fun y => y.1 = i ∧ y.2 ≠ dot

/-- The number of entries for an inode, other than `.`, in the directories that are linked. -/
def entries (I : Inum → Inode) (i : Inum) : ℕ :=
  ∑ d, if (I d).type = .dir ∧ 0 < (I d).nlink then (I d).ents.countP (isEntry i) else 0

theorem countP_isEntry (h : ∀ x, some x ∈ l → x.2 ≠ dot) :
    l.countP (isEntry i) = (inums l).count i := by
  induction l with
  | nil => rfl
  | cons y l ih =>
    have ih := ih fun x hx => h x (List.mem_cons_of_mem _ hx)
    cases y with
    | none => rw [List.countP_cons_of_neg (by simp [isEntry]), ih, inums_none_cons]
    | some y =>
      have hy := h y List.mem_cons_self
      rw [List.countP_cons, ih, inums_some_cons, Multiset.count_cons]
      congr 1
      by_cases hi : i = y.1
      · rw [if_pos hi, if_pos (by simp [isEntry, hy, hi])]
      · rw [if_neg hi, if_neg (by simp [isEntry, Ne.symm hi])]

/-- The parent of a directory, by its `..`. -/
def parent? (I : Inum → Inode) (d : Inum) : Option Inum :=
  ((I d).ents.drop 1).head?.bind fun x => x.map Prod.fst

namespace Exact

/-- A linked directory other than the root is in its parent. -/
theorem parent_iff (h : Exact e I) {d : Inum} (hd : (I d).type = .dir) (hn : 0 < (I d).nlink)
    (hr : d ≠ ROOTINO) : parent? I d = some i ↔ d ∈ (I i).links := by
  have hup : ∀ k, d ∈ (I k).links → parent? I d = some k := by
    intro k hk
    obtain ⟨l, he⟩ := h.tree.up d k (by rwa [mend_type]) (by rwa [mend_links])
    rw [mend_of_linked (by omega)] at he
    rw [parent?, he]
    rfl
  have hmem : d ∈ links I := by
    by_contra hm
    have h0 : (links (mend I)).count d = 0 := by rw [links_mend, Multiset.count_eq_zero.2 hm]
    have hdir := h.tree.dir d (by rwa [mend_type])
    rw [h0, h.tree.orphan d (by rwa [mend_type]) hr h0, if_neg hr, mend_nlink] at hdir
    omega
  obtain ⟨k, hk⟩ := mem_links.1 hmem
  refine ⟨fun hp => ?_, hup i⟩
  rw [hup k hk] at hp
  exact Option.some.inj hp ▸ hk

/-- The linked directories with a given parent are those in it, and the root for itself. -/
theorem card_children (h : Exact e I) (i : Inum) :
    (Finset.univ.filter fun d =>
      ((I d).type = .dir ∧ 0 < (I d).nlink) ∧ parent? I d = some i).card =
      subdirs I i + if i = ROOTINO then 1 else 0 := by
  have hroot : (I ROOTINO).type = .dir ∧ 0 < (I ROOTINO).nlink := by
    have hd := h.tree.root.1
    have hn := h.tree.dir ROOTINO hd
    rw [if_pos rfl, mend_nlink] at hn
    rw [mend_type] at hd
    exact ⟨hd, by omega⟩
  have htop : parent? I ROOTINO = some ROOTINO := by
    obtain ⟨l, he⟩ := h.tree.top
    rw [mend_of_linked (by omega)] at he
    rw [parent?, he]
    rfl
  have hnodup : ((I i).links.filter fun d => (I d).type = .dir).Nodup := by
    rw [Multiset.nodup_iff_count_le_one]
    intro d
    rw [Multiset.count_filter]
    split_ifs with hd
    · have hone := h.tree.one d (by rwa [mend_type])
      rw [links_mend] at hone
      refine le_trans ?_ hone
      rw [links, count_held]
      exact Finset.single_le_sum (f := fun k => (I k).links.count d) (fun _ _ => Nat.zero_le _)
        (Finset.mem_univ i)
    · exact Nat.zero_le 1
  have hnotin : ROOTINO ∉ (I i).links := fun hm => by
    have := h.tree.root.2
    rw [links_mend, Multiset.count_eq_zero] at this
    exact this (mem_links.2 ⟨i, hm⟩)
  -- the children of `i` are its entries for directories; the root is its own parent
  have hset : (Finset.univ.filter fun d =>
      ((I d).type = .dir ∧ 0 < (I d).nlink) ∧ parent? I d = some i) =
      ((I i).links.filter fun d => (I d).type = .dir).toFinset ∪
        if i = ROOTINO then {ROOTINO} else ∅ := by
    ext d
    simp only [Finset.mem_filter, Finset.mem_univ, true_and, Finset.mem_union,
      Multiset.mem_toFinset,
      Multiset.mem_filter]
    by_cases hr : d = ROOTINO
    · subst hr
      have : ROOTINO ∈ (if i = ROOTINO then {ROOTINO} else ∅ : Finset Inum) ↔ ROOTINO = i := by
        split_ifs with hi
        · simp [hi]
        · simp [Ne.symm hi]
      rw [this, htop, Option.some.injEq]
      simp [hnotin, hroot]
    · have : d ∉ (if i = ROOTINO then {ROOTINO} else ∅ : Finset Inum) := by
        split_ifs <;> simp [hr]
      simp only [this, or_false]
      constructor
      · rintro ⟨⟨hd, hn⟩, hp⟩
        exact ⟨(h.parent_iff hd hn hr).1 hp, hd⟩
      · rintro ⟨hm, hd⟩
        have hn := h.nlink_pos (mem_links.2 ⟨i, hm⟩)
        exact ⟨⟨hd, by omega⟩, (h.parent_iff hd (by omega) hr).2 hm⟩
  have hdisj : Disjoint ((I i).links.filter fun d => (I d).type = .dir).toFinset
      (if i = ROOTINO then {ROOTINO} else ∅) := by
    split_ifs
    · simp [hnotin]
    · simp
  rw [hset, Finset.card_union_of_disjoint hdisj, Multiset.toFinset_card_of_nodup hnodup, subdirs]
  congr 1
  split_ifs <;> rfl

/-- The link count of an inode is the number of its entries. -/
theorem nlink_eq (h : Exact 0 I) (i : Inum) : (I i).nlink = entries I i := by
  have hterm : ∀ d, (if (I d).type = .dir ∧
    0 < (I d).nlink then (I d).ents.countP (isEntry i) else 0) =
      (if ((I d).type = .dir ∧ 0 < (I d).nlink) ∧ parent? I d = some i then 1 else 0) +
        (I d).links.count i := by
    intro d
    by_cases hd : (I d).type = .dir
    · by_cases hn : (I d).nlink = 0
      · rw [if_neg (by omega), if_neg (by omega), h.hollow d hd hn]
        rfl
      · have hpos : 0 < (I d).nlink := by
          have := h.nlink_nonneg d
          omega
        obtain ⟨P, l, he, -⟩ := h.linked hd hn
        have hnames := h.names d
        rw [he] at hnames
        have hl := countP_isEntry (i := i) fun x hx => hnames x (List.mem_cons_of_mem _ hx)
        have hp : parent? I d = some P := by rw [parent?, he]; rfl
        rw [if_pos ⟨hd, hpos⟩, hp, Inode.links, he, List.countP_cons, List.countP_cons, hl]
        simp only [isEntry, Option.any_some, dot, dotdot, hd, hpos, true_and, List.drop_succ_cons,
          List.drop_zero, Option.some.injEq]
        simp
        omega
    · rw [if_neg (by tauto), if_neg (by tauto), Inode.links, h.plain hd]
      rfl
  have hsum : entries I i = subdirs I i + (if i = ROOTINO then 1 else 0) + (links I).count i := by
    rw [entries, Finset.sum_congr rfl fun d _ => hterm d, Finset.sum_add_distrib,
      ← Finset.card_filter, h.card_children, links, count_held]
    rfl
  rw [hsum]
  by_cases hd : (I i).type = .dir
  · have hdir := h.tree.dir i (by rwa [mend_type])
    rw [mend_nlink, links_mend, subdirs_mend] at hdir
    rw [hdir]
    push_cast
    omega
  · have hr : i ≠ ROOTINO := fun hr => hd (by
      have := h.tree.root.1
      rwa [mend_type, ← hr] at this)
    have hfile := h.file i hd
    have hsub : subdirs I i = 0 := by
      rw [subdirs, Inode.links, h.plain hd]
      rfl
    rw [Multiset.count_zero] at hfile
    rw [hsub, if_neg hr]
    push_cast
    omega

end Exact

end Xv6.Fs
