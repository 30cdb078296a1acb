import Xv6.Fs.Inode
import Xv6.Lib.FreeList

/-!
# Links between inodes

What the directories of the file system look like as a whole (`Tree`), and how the changes of the
system calls keep it:

* an entry refers to an inode in use (`Tree.alloc`), and a directory has at most one entry besides
  its own `.` and the `..` of its children;
* the link count of a directory counts this entry and the directories in it (`Tree.dir`); that
  of another file counts its entries at least (`Tree.file`);
* the `..` of a directory refers to a directory that is linked (`Tree.shape`).

A directory that was unlinked while a process holds it has no link left. It may still get files,
but no directories (`Tree.orphan`), and its `..` has to stay linked.
-/

namespace Xv6.Fs

open Function

variable {I : Inum → Inode} {i j dp ip : Inum} {name : Name} {off : ℕ} {l : Dirents}
    {x : Inum × Name}

/-! ## Entries -/

/-- The inode numbers of entries. -/
def inums (l : Dirents) : Multiset Inum := (l.filterMap (Option.map Prod.fst) : List Inum)

@[simp] theorem inums_nil : inums [] = 0 := rfl

@[simp] theorem inums_none_cons : inums (none :: l) = inums l := rfl

@[simp] theorem inums_some_cons : inums (some x :: l) = x.1 ::ₘ inums l := rfl

theorem inums_addEnt : inums (addEnt x l) = x.1 ::ₘ inums l := by
  induction l with
  | nil => rfl
  | cons y l ih =>
    cases y with
    | none => rfl
    | some y => rw [addEnt, inums_some_cons, ih, inums_some_cons, Multiset.cons_swap]

theorem inums_set (h : findEnt name l = some (off, i)) :
    i ::ₘ inums (l.set off none) = inums l := by
  induction l generalizing off with
  | nil => cases h
  | cons y l ih =>
    cases y with
    | none =>
      obtain ⟨⟨off', i'⟩, h', he⟩ := Option.map_eq_some_iff.1 h
      obtain ⟨rfl, rfl⟩ := Prod.mk.inj he
      exact ih h'
    | some y =>
      rw [findEnt] at h
      split_ifs at h
      · obtain ⟨rfl, rfl⟩ := Prod.mk.inj (Option.some.inj h)
        rfl
      · obtain ⟨⟨off', i'⟩, h', he⟩ := Option.map_eq_some_iff.1 h
        obtain ⟨rfl, rfl⟩ := Prod.mk.inj he
        rw [List.set_cons_succ, inums_some_cons, Multiset.cons_swap, ih h', inums_some_cons]

theorem mem_inums (h : findEnt name l = some (off, i)) : i ∈ inums l := by
  rw [← inums_set h]
  exact Multiset.mem_cons_self _ _

/-- The entries of a directory besides `.` and `..`. -/
def Inode.links (d : Inode) : Multiset Inum := inums (d.ents.drop 2)

/-- The entry for a name in a directory: its `.`, its `..`, or one of its links. -/
theorem findEnt_cases {P : Inum} (h : findEnt name (some (j, dot) :: some (P, dotdot) :: l) =
    some (off, i)) :
    name = dot ∧ i = j ∨ name = dotdot ∧ i = P ∨
      ∃ o, off = o + 2 ∧ findEnt name l = some (o, i) := by
  rw [findEnt] at h
  split_ifs at h with h₁
  · obtain ⟨-, rfl⟩ := Prod.mk.inj (Option.some.inj h)
    exact .inl ⟨h₁.symm, rfl⟩
  rw [findEnt] at h
  split_ifs at h with h₂
  · obtain ⟨-, rfl⟩ := (by simpa using h : 1 = off ∧ P = i)
    exact .inr (.inl ⟨h₂.symm, rfl⟩)
  · obtain ⟨⟨o, i'⟩, hf, he⟩ : ∃ a, findEnt name l = some a ∧ (a.1 + 1 + 1, a.2) = (off, i) := by
      simpa using h
    obtain ⟨rfl, rfl⟩ := Prod.mk.inj he
    exact .inr (.inr ⟨o, rfl, hf⟩)

/-! ## The tree -/

/-- All links. -/
def links (I : Inum → Inode) : Multiset Inum := held Inode.links fun i => some (I i)

/-- The number of directories in a directory. -/
def subdirs (I : Inum → Inode) (i : Inum) : ℕ :=
  ((I i).links.filter fun j => (I j).type = .dir).card

theorem links_update (I : Inum → Inode) (i : Inum) (d : Inode) :
    links (update I i d) + (I i).links = links I + d.links := by
  have hu := held_update (h := Inode.links) (t := fun j => some (I j)) i (some d)
  simp only [Option.elim_some] at hu
  rw [links, links, ← hu]
  congr 2
  funext j
  by_cases hj : j = i
  · subst hj; simp
  · simp [hj]

theorem mem_links : i ∈ links I ↔ ∃ j, i ∈ (I j).links := by
  simp [links, mem_held]

/-- The directories of the file system. -/
structure Tree (I : Inum → Inode) : Prop where
  root : (I ROOTINO).type = .dir ∧ (links I).count ROOTINO = 0
  top : ∃ l, (I ROOTINO).ents = some (ROOTINO, dot) :: some (ROOTINO, dotdot) :: l
  plain : ∀ i, (I i).type ≠ .dir → (I i).ents = []
  shape : ∀ i, (I i).type = .dir → ∃ P l, (I i).ents = some (i, dot) :: some (P, dotdot) :: l ∧
    (I P).type = .dir ∧ 1 ≤ (I P).nlink
  up : ∀ i j, (I i).type = .dir → i ∈ (I j).links →
    ∃ l, (I i).ents = some (i, dot) :: some (j, dotdot) :: l
  alloc : ∀ i ∈ links I, (I i).type ≠ .free
  file : ∀ i, (I i).type ≠ .dir → ((links I).count i : ℤ) ≤ (I i).nlink
  dir : ∀ i, (I i).type = .dir →
    (I i).nlink = (links I).count i + subdirs I i + if i = ROOTINO then 1 else 0
  one : ∀ i, (I i).type = .dir → (links I).count i ≤ 1
  orphan : ∀ i, (I i).type = .dir → i ≠ ROOTINO → (links I).count i = 0 → subdirs I i = 0

section Tree

variable {I' : Inum → Inode}

theorem count_links_congr (h : ∀ k, (I' k).links.count j = (I k).links.count j) :
    (links I').count j = (links I).count j := by
  simp only [links, count_held, Option.elim_some, h]

/-- Changes that concern no directory but its entries for other files. -/
theorem Tree.of_same (h : Tree I) (hdir : ∀ j, (I' j).type = .dir ↔ (I j).type = .dir)
    (hnlink : ∀ j, (I j).type = .dir → (I' j).nlink = (I j).nlink)
    (hplain : ∀ j, (I j).type ≠ .dir → (I' j).ents = [])
    (hents : ∀ j a b l, (I j).type = .dir → (I j).ents = a :: b :: l →
      ∃ l', (I' j).ents = a :: b :: l')
    (hcount : ∀ j k, (I j).type = .dir → (I' k).links.count j = (I k).links.count j)
    (halloc : ∀ j ∈ links I', (I' j).type ≠ .free)
    (hfile : ∀ j, (I j).type ≠ .dir → ((links I').count j : ℤ) ≤ (I' j).nlink) : Tree I' := by
  have hlinks : ∀ j, (I j).type = .dir → (links I').count j = (links I).count j := fun j hj =>
    count_links_congr fun k => hcount j k hj
  have hsub : ∀ k, subdirs I' k = subdirs I k := fun k => by
    rw [subdirs, subdirs]
    congr 1
    ext j
    simp only [Multiset.count_filter, hdir]
    split_ifs with hj
    · exact hcount j k hj
    · rfl
  have hmem : ∀ j k, (I j).type = .dir → j ∈ (I' k).links → j ∈ (I k).links := fun j k hj hm => by
    rwa [← Multiset.one_le_count_iff_mem, ← hcount j k hj, Multiset.one_le_count_iff_mem]
  obtain ⟨l, htop⟩ := h.top
  refine ⟨⟨(hdir _).2 h.root.1, (hlinks _ h.root.1).trans h.root.2⟩,
    hents _ _ _ _ h.root.1 htop, fun j hj => ?_, fun j hj => ?_, fun j k hj hm => ?_, halloc,
    fun j hj => hfile j fun h => hj ((hdir j).2 h), fun j hj => ?_,
    fun j hj => ?_, fun j hj hr h0 => ?_⟩
  · exact hplain j fun h => hj ((hdir j).2 h)
  · have hj := (hdir j).1 hj
    obtain ⟨P, l, he, hP, hn⟩ := h.shape j hj
    obtain ⟨l', he'⟩ := hents j _ _ _ hj he
    exact ⟨P, l', he', (hdir P).2 hP, (hnlink P hP).symm ▸ hn⟩
  · have hj := (hdir j).1 hj
    obtain ⟨l, he⟩ := h.up j k hj (hmem j k hj hm)
    exact hents j _ _ _ hj he
  · have hj := (hdir j).1 hj
    rw [hnlink j hj, hlinks j hj, hsub, h.dir j hj]
  · have hj := (hdir j).1 hj
    rw [hlinks j hj]
    exact h.one j hj
  · have hj := (hdir j).1 hj
    rw [hsub]
    exact h.orphan j hj hr ((hlinks j hj).symm.trans h0)

/-- The inode of a file changes: it is allocated or freed, or its link count changes. -/
theorem Tree.set_file (h : Tree I) {d : Inode} (hi : (I i).type ≠ .dir) (hd : d.type ≠ .dir)
    (he : d.ents = []) (hn : ((links I).count i : ℤ) ≤ d.nlink)
    (hf : d.type = .free → (links I).count i = 0) : Tree (update I i d) := by
  have hlinks : ∀ k, (update I i d k).links = (I k).links := fun k => by
    by_cases hk : k = i
    · subst hk
      rw [update_self, Inode.links, Inode.links, he, h.plain k hi]
    · rw [update_of_ne hk]
  have hall : links (update I i d) = links I := by simp only [links, hlinks, held, Option.elim_some]
  refine h.of_same (fun j => ?_) (fun j hj => ?_) (fun j hj => ?_) (fun j a b l hj he => ?_)
    (fun j k _ => by rw [hlinks]) (fun j hj => ?_) fun j hj => ?_
  all_goals by_cases hji : j = i
  all_goals first | subst hji | skip
  · simp [hi, hd]
  · simp [hji]
  · exact absurd hj hi
  · simp [hji]
  · simp [he]
  · simp [hji, h.plain j hj]
  · exact absurd hj hi
  · simp [hji, he]
  · rw [hall] at hj
    rw [update_self]
    exact fun hfree => (Multiset.count_eq_zero.1 (hf hfree)) hj
  · rw [hall] at hj
    rw [update_of_ne hji]
    exact h.alloc j hj
  · rw [hall, update_self]
    exact hn
  · rw [hall, update_of_ne hji]
    exact h.file j hj

/-- The entries of a directory for other files change. -/
theorem Tree.set_ents (h : Tree I) {y z : Option (Inum × Name)} {l' : Dirents}
    (hd : (I dp).type = .dir) (he : (I dp).ents = y :: z :: l)
    (hcount : ∀ j, (I j).type = .dir → (inums l').count j = (inums l).count j)
    (halloc : ∀ j ∈ inums l', (I j).type ≠ .free)
    (hfile : ∀ j, (I j).type ≠ .dir →
      ((links I).count j + (inums l').count j : ℤ) ≤ (I j).nlink + (inums l).count j) :
    Tree (update I dp { I dp with ents := y :: z :: l' }) := by
  have hdp : (I dp).links = inums l := by rw [Inode.links, he]; rfl
  have hlinks := links_update I dp { I dp with ents := y :: z :: l' }
  rw [hdp, show Inode.links { I dp with ents := y :: z :: l' } = inums l' from rfl] at hlinks
  have hc : ∀ j, (links (update I dp { I dp with ents := y :: z :: l' })).count j +
      (inums l).count j = (links I).count j + (inums l').count j := fun j => by
    rw [← Multiset.count_add, hlinks, Multiset.count_add]
  have hsame : ∀ j, (update I dp { I dp with ents := y :: z :: l' } j).type = (I j).type ∧
      (update I dp { I dp with ents := y :: z :: l' } j).nlink = (I j).nlink := fun j => by
    by_cases hj : j = dp
    · subst hj; simp
    · simp [hj]
  refine h.of_same (fun j => by rw [(hsame j).1]) (fun j _ => (hsame j).2) (fun j hj => ?_)
    (fun j a b l hj he' => ?_) (fun j k hj => ?_) (fun j hj => ?_) fun j hj => ?_
  · have hne : j ≠ dp := fun he => hj (he ▸ hd)
    rw [update_of_ne hne]
    exact h.plain j hj
  · by_cases hjd : j = dp
    · subst hjd
      rw [he] at he'
      simp only [List.cons.injEq] at he'
      exact ⟨l', by rw [update_self, he'.1, he'.2.1]⟩
    · exact ⟨l, by rw [update_of_ne hjd, he']⟩
  · by_cases hk : k = dp
    · subst hk
      rw [update_self, hdp]
      exact hcount j hj
    · rw [update_of_ne hk]
  · rw [(hsame j).1]
    have hm : j ∈ links I + inums l' := hlinks ▸ Multiset.mem_add.2 (.inl hj)
    exact (Multiset.mem_add.1 hm).elim (h.alloc j) (halloc j)
  · rw [(hsame j).2]
    have h₁ := hfile j hj
    have h₂ := hc j
    omega

/-- A new entry for a file, which its link count already counts. -/
theorem Tree.link_file (h : Tree I) (hd : (I dp).type = .dir) (hi : (I i).type ≠ .dir)
    (hf : (I i).type ≠ .free) (hn : ((links I).count i : ℤ) + 1 ≤ (I i).nlink) (name : Name) :
    Tree (update I dp { I dp with ents := addEnt (i, name) (I dp).ents }) := by
  obtain ⟨P, l, he, -, -⟩ := h.shape dp hd
  have hl : inums (addEnt (i, name) l) = i ::ₘ inums l := inums_addEnt
  have hmem : ∀ j ∈ inums l, j ∈ links I := fun j hj => mem_links.2 ⟨dp, by
    rw [Inode.links, he]; exact hj⟩
  rw [he]
  refine h.set_ents hd he (fun j hj => ?_) (fun j hj => ?_) fun j hj => ?_
  · have hne : j ≠ i := fun he => hi (he ▸ hj)
    rw [hl, Multiset.count_cons_of_ne hne]
  · rw [hl] at hj
    rcases Multiset.mem_cons.1 hj with rfl | hj
    · exact hf
    · exact h.alloc j (hmem j hj)
  · rw [hl]
    by_cases hji : j = i
    · subst hji
      rw [Multiset.count_cons_self]
      push_cast
      omega
    · rw [Multiset.count_cons_of_ne hji]
      have := h.file j hj
      omega

/-- An entry for a file is removed. -/
theorem Tree.unlink_file (h : Tree I) {o : ℕ} {y z : Option (Inum × Name)} (hd : (I dp).type = .dir)
    (he : (I dp).ents = y :: z :: l) (hi : (I i).type ≠ .dir) (hl : findEnt name l = some (o, i)) :
    Tree (update I dp { I dp with ents := y :: z :: l.set o none }) := by
  have hcons := inums_set hl
  have hmem : ∀ j ∈ inums l, j ∈ links I := fun j hj => mem_links.2 ⟨dp, by
    rw [Inode.links, he]; exact hj⟩
  refine h.set_ents hd he (fun j hj => ?_) (fun j hj => ?_) fun j hj => ?_
  · have hne : j ≠ i := fun he => hi (he ▸ hj)
    rw [← hcons, Multiset.count_cons_of_ne hne]
  · exact h.alloc j (hmem j (by rw [← hcons]; exact Multiset.mem_cons_of_mem hj))
  · have h₁ := h.file j hj
    have h₂ : (inums (l.set o none)).count j ≤ (inums l).count j := by
      rw [← hcons]
      exact Multiset.count_le_count_cons _ _ _
    omega

/-- The directories in `k` are counted as before, if they are the same and are still
    directories. -/
theorem subdirs_congr {k : Inum} (hl : (I' k).links = (I k).links)
    (ht : ∀ j ∈ (I k).links, ((I' j).type = .dir ↔ (I j).type = .dir)) :
    subdirs I' k = subdirs I k := by
  rw [subdirs, subdirs, hl, Multiset.filter_congr ht]

/-- A directory without links is in no directory, and has no directory in it. -/
theorem Tree.unlinked (h : Tree I) (hd : (I i).type = .dir) (hn : (I i).nlink = 0) :
    i ∉ links I ∧ i ≠ ROOTINO ∧ ∀ j ∈ (I i).links, (I j).type ≠ .dir := by
  have hdir := h.dir i hd
  rw [hn] at hdir
  have hr : i ≠ ROOTINO := fun he => by
    rw [if_pos he] at hdir
    omega
  rw [if_neg hr] at hdir
  refine ⟨Multiset.count_eq_zero.1 (by omega), hr, fun j hj hjd => ?_⟩
  have hsub : subdirs I i = 0 := by omega
  rw [subdirs, Multiset.card_eq_zero] at hsub
  exact Multiset.notMem_zero j (hsub ▸ Multiset.mem_filter.2 ⟨hj, hjd⟩)

/-- A directory without links is freed. -/
theorem Tree.free_dir (h : Tree I) (hd : (I i).type = .dir) (hn : (I i).nlink = 0)
    (hself : I' i = ⟨.free, 0, []⟩) (hother : ∀ j, j ≠ i → I' j = I j) : Tree I' := by
  obtain ⟨hi, hr, hfiles⟩ := h.unlinked hd hn
  have hlinks : links I' + (I i).links = links I := by
    have hu := links_update I i (I' i)
    rw [show update I i (I' i) = I' from ?_, hself] at hu
    · simpa [Inode.links] using hu
    · funext j
      by_cases hj : j = i
      · subst hj; simp
      · simp [hj, hother j hj]
  have hle : links I' ≤ links I := hlinks ▸ Multiset.le_add_right _ _
  -- it has entries for files only, so no directory loses its name
  have hcount : ∀ j, (I j).type = .dir → (links I').count j = (links I).count j := fun j hj => by
    rw [← hlinks, Multiset.count_add, Multiset.count_eq_zero.2 fun hm => hfiles j hm hj, add_zero]
  have hdir : ∀ j, (I' j).type = .dir → j ≠ i ∧ (I j).type = .dir := fun j hj => by
    have hne : j ≠ i := fun he => by rw [he, hself] at hj; cases hj
    exact ⟨hne, hother j hne ▸ hj⟩
  have hsub : ∀ j, j ≠ i → subdirs I' j = subdirs I j := fun j hj =>
    subdirs_congr (by rw [hother j hj]) fun m hm => by
      have hmi : m ≠ i := fun he => hi (mem_links.2 ⟨j, he ▸ hm⟩)
      rw [hother m hmi]
  refine ⟨⟨by rw [hother _ hr.symm]; exact h.root.1, ?_⟩, by rw [hother _ hr.symm]; exact h.top,
    fun j hj => ?_, fun j hj => ?_, fun j k hj hm => ?_, fun j hj => ?_, fun j hj => ?_,
    fun j hj => ?_, fun j hj => ?_,
    fun j hj hjr h0 => ?_⟩
  · rw [hcount _ h.root.1, h.root.2]
  · by_cases hji : j = i
    · rw [hji, hself]
    · rw [hother j hji] at hj ⊢
      exact h.plain j hj
  · obtain ⟨hne, hj⟩ := hdir j hj
    obtain ⟨P, l, he, hP, hPn⟩ := h.shape j hj
    have hPi : P ≠ i := fun he => by rw [he, hn] at hPn; omega
    exact ⟨P, l, by rw [hother j hne, he], by rw [hother P hPi]; exact ⟨hP, hPn⟩⟩
  · obtain ⟨hne, hj⟩ := hdir j hj
    by_cases hki : k = i
    · rw [hki, hself] at hm
      simp [Inode.links] at hm
    · rw [hother k hki] at hm
      obtain ⟨l, he⟩ := h.up j k hj hm
      exact ⟨l, by rw [hother j hne, he]⟩
  · have hm := Multiset.mem_of_le hle hj
    have hne : j ≠ i := fun he => hi (he ▸ hm)
    rw [hother j hne]
    exact h.alloc j hm
  · by_cases hji : j = i
    · have hc := Multiset.count_le_of_le i hle
      rw [Multiset.count_eq_zero.2 hi] at hc
      rw [hji, hself]
      change ((links I').count i : ℤ) ≤ 0
      omega
    · rw [hother j hji] at hj ⊢
      have h₁ := h.file j hj
      have h₂ := Multiset.count_le_of_le j hle
      omega
  · obtain ⟨hne, hj⟩ := hdir j hj
    rw [hother j hne, hcount j hj, hsub j hne, h.dir j hj]
  · obtain ⟨-, hj⟩ := hdir j hj
    rw [hcount j hj]
    exact h.one j hj
  · obtain ⟨hne, hj⟩ := hdir j hj
    rw [hsub j hne]
    exact h.orphan j hj hjr ((hcount j hj).symm.trans h0)

theorem links_update₂ (hne : ip ≠ dp) (hother : ∀ j, j ≠ ip → j ≠ dp → I' j = I j) :
    links I' + ((I ip).links + (I dp).links) = links I + ((I' ip).links + (I' dp).links) := by
  have h₁ := links_update I ip (I' ip)
  have h₂ := links_update (update I ip (I' ip)) dp (I' dp)
  have he : update (update I ip (I' ip)) dp (I' dp) = I' := by
    funext j
    by_cases hd : j = dp
    · subst hd; simp
    · by_cases hi : j = ip
      · subst hi; simp [hd]
      · simp [hd, hi, hother j hi hd]
  rw [he, update_of_ne hne.symm] at h₂
  rw [add_comm (I ip).links, ← add_assoc, h₂, add_right_comm, h₁]
  abel

/-- A new directory, in a directory that is linked. -/
theorem Tree.mkdir (h : Tree I) (hd : (I dp).type = .dir) (hn : 1 ≤ (I dp).nlink)
    (hi : (I ip).type = .free)
    (hip : I' ip = ⟨.dir, 1, [some (ip, dot), some (dp, dotdot)]⟩)
    (hdp : I' dp = ⟨.dir, (I dp).nlink + 1, addEnt (ip, name) (I dp).ents⟩)
    (hother : ∀ j, j ≠ ip → j ≠ dp → I' j = I j) : Tree I' := by
  have hne : ip ≠ dp := fun he => by rw [he, hd] at hi; cases hi
  obtain ⟨P, l, he, hP, hPn⟩ := h.shape dp hd
  rw [he] at hdp
  have hfree : ip ∉ links I := fun hm => h.alloc ip hm hi
  have hroot : ip ≠ ROOTINO := fun he => by rw [he, h.root.1] at hi; cases hi
  have hldp : (I' dp).links = ip ::ₘ (I dp).links := by
    rw [hdp, Inode.links, Inode.links, he]
    exact inums_addEnt
  have hlip : (I' ip).links = 0 := by rw [hip]; rfl
  have hlinks : links I' = ip ::ₘ links I := by
    have hu := links_update₂ hne hother
    have h0 : (I ip).links = 0 := by
      rw [Inode.links, h.plain ip (by rw [hi]; decide)]
      rfl
    rw [h0, hlip, hldp, zero_add, zero_add, Multiset.add_cons, ← Multiset.cons_add] at hu
    exact add_right_cancel hu
  have hcount : ∀ j, j ≠ ip → (links I').count j = (links I).count j := fun j hj => by
    rw [hlinks, Multiset.count_cons_of_ne hj]
  have hdir : ∀ j, j ≠ ip → ((I' j).type = .dir ↔ (I j).type = .dir) := fun j hj => by
    by_cases hjd : j = dp
    · subst hjd; rw [hdp]; simp [hd]
    · rw [hother j hj hjd]
  -- The first two entries of a directory stay.
  have hents : ∀ j a b l, j ≠ ip → (I j).ents = a :: b :: l → ∃ l', (I' j).ents = a :: b :: l' :=
    fun j a b l hj he' => by
      by_cases hjd : j = dp
      · subst hjd
        rw [he] at he'
        simp only [List.cons.injEq] at he'
        exact ⟨addEnt (ip, name) l, by rw [hdp, ← he'.1, ← he'.2.1, ← he'.2.2]; rfl⟩
      · exact ⟨l, by rw [hother j hj hjd, he']⟩
  have hlinked : ∀ P, (I P).type = .dir → 1 ≤ (I P).nlink →
      (I' P).type = .dir ∧ 1 ≤ (I' P).nlink := fun P hP hPn => by
    have hPi : P ≠ ip := fun he => by rw [he, hi] at hP; cases hP
    refine ⟨(hdir P hPi).2 hP, ?_⟩
    by_cases hPd : P = dp
    · subst hPd; rw [hdp]; simp only; omega
    · rw [hother P hPi hPd]; exact hPn
  have hsub : ∀ j, j ≠ ip → subdirs I' j = subdirs I j + if j = dp then 1 else 0 := fun j hj => by
    have hfilter : (I j).links.filter (fun m => (I' m).type = .dir) =
        (I j).links.filter fun m => (I m).type = .dir := Multiset.filter_congr fun m hm => hdir m
      fun hmi => hfree (mem_links.2 ⟨j, hmi ▸ hm⟩)
    split_ifs with hjd
    · subst hjd
      rw [subdirs, hldp, Multiset.filter_cons_of_pos _ (by rw [hip]), Multiset.card_cons, hfilter,
        subdirs]
    · rw [subdirs, hother j hj hjd, hfilter, subdirs, add_zero]
  have hlinked' : ∀ j, j ≠ ip → (I' j).type = .dir → (I' j).nlink =
      (links I').count j + subdirs I' j + if j = ROOTINO then 1 else 0 := fun j hj hjd => by
    have := h.dir j ((hdir j hj).1 hjd)
    rw [hcount j hj, hsub j hj]
    by_cases hjdp : j = dp
    · subst hjdp; rw [hdp]; simp only [if_pos]; push_cast; omega
    · rw [hother j hj hjdp, if_neg hjdp]; push_cast; omega
  obtain ⟨lt, htop⟩ := h.top
  refine ⟨⟨(hdir _ hroot.symm).2 h.root.1, (hcount _ hroot.symm).trans h.root.2⟩,
    hents _ _ _ _ hroot.symm htop, fun j hj => ?_, fun j hj => ?_, fun j k hj hm => ?_,
    fun j hj => ?_, fun j hj => ?_, fun j hj => ?_, fun j hj => ?_,
    fun j hj hjr h0 => ?_⟩
  · have hji : j ≠ ip := fun he => hj (by rw [he, hip])
    have hjd : j ≠ dp := fun he => hj (by rw [he, hdp])
    rw [hother j hji hjd] at hj ⊢
    exact h.plain j hj
  · by_cases hji : j = ip
    · subst hji
      exact ⟨dp, [], by rw [hip], hlinked dp hd hn⟩
    · obtain ⟨P, l, he, hP, hPn⟩ := h.shape j ((hdir j hji).1 hj)
      obtain ⟨l', he'⟩ := hents j _ _ _ hji he
      exact ⟨P, l', he', hlinked P hP hPn⟩
  · by_cases hki : k = ip
    · rw [hki, hlip] at hm
      cases Multiset.notMem_zero j hm
    by_cases hji : j = ip
    · subst hji
      have hkd : k = dp := by
        by_contra hkd
        rw [hother k hki hkd] at hm
        exact hfree (mem_links.2 ⟨k, hm⟩)
      exact ⟨[], by rw [hip, hkd]⟩
    · have hm' : j ∈ (I k).links := by
        by_cases hkd : k = dp
        · subst hkd
          rw [hldp] at hm
          exact (Multiset.mem_cons.1 hm).resolve_left hji
        · rwa [hother k hki hkd] at hm
      obtain ⟨l, he⟩ := h.up j k ((hdir j hji).1 hj) hm'
      exact hents j _ _ _ hji he
  · rw [hlinks] at hj
    rcases Multiset.mem_cons.1 hj with rfl | hj
    · rw [hip]; nofun
    · have hji : j ≠ ip := fun he => hfree (he ▸ hj)
      by_cases hjd : j = dp
      · subst hjd; rw [hdp]; nofun
      · rw [hother j hji hjd]
        exact h.alloc j hj
  · have hji : j ≠ ip := fun he => hj (by rw [he, hip])
    have hjd : j ≠ dp := fun he => hj (by rw [he, hdp])
    rw [hcount j hji, hother j hji hjd]
    rw [hother j hji hjd] at hj
    exact h.file j hj
  · by_cases hji : j = ip
    · subst hji
      have hc : (links I').count j = 1 := by
        rw [hlinks, Multiset.count_cons_self, Multiset.count_eq_zero.2 hfree]
      rw [hc, subdirs, hlip, hip, if_neg hroot]
      simp
    · exact hlinked' j hji hj
  · by_cases hji : j = ip
    · subst hji
      rw [hlinks, Multiset.count_cons_self, Multiset.count_eq_zero.2 hfree]
    · rw [hcount j hji]
      exact h.one j ((hdir j hji).1 hj)
  · have hji : j ≠ ip := fun he => by
      rw [he, hlinks, Multiset.count_cons_self] at h0
      cases h0
    have hj' := (hdir j hji).1 hj
    rw [hcount j hji] at h0
    have hs := h.orphan j hj' hjr h0
    have hjd : j ≠ dp := fun he => by
      have := h.dir j hj'
      rw [if_neg hjr, h0, hs, he] at this
      omega
    rw [hsub j hji, if_neg hjd, hs]

/-- A directory with a directory in it is linked itself. -/
theorem Tree.two_le_nlink (h : Tree I) (hd : (I dp).type = .dir) (hm : ip ∈ (I dp).links)
    (hi : (I ip).type = .dir) : 2 ≤ (I dp).nlink := by
  have hsub : subdirs I dp ≠ 0 := fun h0 => by
    rw [subdirs, Multiset.card_eq_zero] at h0
    exact Multiset.notMem_zero ip (h0 ▸ Multiset.mem_filter.2 ⟨hm, hi⟩)
  have hn := h.dir dp hd
  by_cases hr : dp = ROOTINO
  · rw [if_pos hr] at hn
    omega
  · have hc : (links I).count dp ≠ 0 := fun h0 => hsub (h.orphan dp hd hr h0)
    rw [if_neg hr] at hn
    omega

/-- An empty directory is unlinked, if no directory that was unlinked before has it as its
    parent. -/
theorem Tree.rmdir (h : Tree I) {o : ℕ} {y z : Option (Inum × Name)} (hd : (I dp).type = .dir)
    (he : (I dp).ents = y :: z :: l) (hl : findEnt name l = some (o, ip))
    (hi : (I ip).type = .dir) (hempty : (I ip).links = 0)
    (hno : ∀ j a l, (I j).type = .dir → (I j).nlink = 0 → (I j).ents ≠ a :: some (ip, dotdot) :: l)
    (hip : I' ip = ⟨.dir, (I ip).nlink - 1, (I ip).ents⟩)
    (hdp : I' dp = ⟨.dir, (I dp).nlink - 1, y :: z :: l.set o none⟩)
    (hother : ∀ j, j ≠ ip → j ≠ dp → I' j = I j) : Tree I' := by
  have hldp : (I dp).links = ip ::ₘ (I' dp).links := by
    rw [hdp, Inode.links, Inode.links, he]
    exact (inums_set hl).symm
  have hmem : ip ∈ (I dp).links := by rw [hldp]; exact Multiset.mem_cons_self _ _
  have hne : ip ≠ dp := fun he => by
    rw [← he, hempty] at hmem
    cases Multiset.notMem_zero ip hmem
  have hlip : (I' ip).links = 0 := by rw [hip]; exact hempty
  have hlinks : links I = ip ::ₘ links I' := by
    have hu := links_update₂ hne hother
    rw [hempty, hlip, zero_add, zero_add, hldp, Multiset.add_cons, ← Multiset.cons_add] at hu
    exact (add_right_cancel hu).symm
  have hcount : ∀ j, j ≠ ip → (links I').count j = (links I).count j := fun j hj => by
    rw [hlinks, Multiset.count_cons_of_ne hj]
  have hone : (links I).count ip = 1 := by
    have := h.one ip hi
    have := Multiset.one_le_count_iff_mem.2 (mem_links.2 ⟨dp, hmem⟩)
    omega
  have hzero : (links I').count ip = 0 := by
    rw [hlinks, Multiset.count_cons_self] at hone
    omega
  have hroot : ip ≠ ROOTINO := fun he => by
    have := h.root.2
    rw [← he, hone] at this
    cases this
  have hnip : (I ip).nlink = 1 := by
    rw [h.dir ip hi, hone, subdirs, hempty, if_neg hroot]
    simp
  have hdir : ∀ j, (I' j).type = .dir ↔ (I j).type = .dir := fun j => by
    by_cases hji : j = ip
    · subst hji; rw [hip]; simp [hi]
    by_cases hjd : j = dp
    · subst hjd; rw [hdp]; simp [hd]
    · rw [hother j hji hjd]
  have hents : ∀ j a b l, (I j).ents = a :: b :: l → ∃ l', (I' j).ents = a :: b :: l' :=
    fun j a b l' he' => by
      by_cases hji : j = ip
      · subst hji; exact ⟨l', by rw [hip, ← he']⟩
      by_cases hjd : j = dp
      · subst hjd
        rw [he] at he'
        simp only [List.cons.injEq] at he'
        exact ⟨l.set o none, by rw [hdp, ← he'.1, ← he'.2.1]⟩
      · exact ⟨l', by rw [hother j hji hjd, he']⟩
  have hsub : ∀ j, subdirs I j = subdirs I' j + if j = dp then 1 else 0 := fun j => by
    have hfilter : ∀ M : Multiset Inum, M.filter (fun m => (I' m).type = .dir) =
        M.filter fun m => (I m).type = .dir := fun M => Multiset.filter_congr fun m _ => hdir m
    split_ifs with hjd
    · subst hjd
      rw [subdirs, subdirs, hldp, Multiset.filter_cons_of_pos _ (by exact hi), Multiset.card_cons,
        hfilter]
    · rw [subdirs, subdirs, hfilter, add_zero]
      by_cases hji : j = ip
      · subst hji; rw [hempty, hlip]
      · rw [hother j hji hjd]
  have hdp2 := h.two_le_nlink hd hmem hi
  have hlinked : ∀ P, P ≠ ip → (I P).type = .dir → 1 ≤ (I P).nlink →
      (I' P).type = .dir ∧ 1 ≤ (I' P).nlink := fun P hPi hP hPn => by
    refine ⟨(hdir P).2 hP, ?_⟩
    by_cases hPd : P = dp
    · subst hPd; rw [hdp]; simp only; omega
    · rw [hother P hPi hPd]; exact hPn
  -- No directory has `ip` as its parent.
  have hparent : ∀ j P l, (I j).type = .dir → (I j).ents = some (j, dot) :: some (P, dotdot) :: l →
      P ≠ ip := fun j P l hj he' hP => by
    subst hP
    by_cases hjl : j ∈ links I
    · obtain ⟨k, hk⟩ := mem_links.1 hjl
      obtain ⟨l', he''⟩ := h.up j k hj hk
      rw [he'] at he''
      simp only [List.cons.injEq, Option.some.injEq, Prod.mk.injEq] at he''
      obtain ⟨-, ⟨rfl, -⟩, -⟩ := he''
      rw [hempty] at hk
      cases Multiset.notMem_zero j hk
    · by_cases hjr : j = ROOTINO
      · obtain ⟨lt, htop⟩ := h.top
        rw [hjr, htop] at he'
        simp only [List.cons.injEq, Option.some.injEq, Prod.mk.injEq] at he'
        exact hroot he'.2.1.1.symm
      · have hc := Multiset.count_eq_zero.2 hjl
        refine hno j _ l hj ?_ he'
        rw [h.dir j hj, hc, h.orphan j hj hjr hc, if_neg hjr]
        rfl
  obtain ⟨lt, htop⟩ := h.top
  refine ⟨⟨(hdir _).2 h.root.1, (hcount _ hroot.symm).trans h.root.2⟩, hents _ _ _ _ htop,
    fun j hj => ?_, fun j hj => ?_, fun j k hj hm => ?_, fun j hj => ?_, fun j hj => ?_,
    fun j hj => ?_, fun j hj => ?_,
    fun j hj hjr h0 => ?_⟩
  · have hj := mt (hdir j).2 hj
    have hji : j ≠ ip := fun he => hj (he ▸ hi)
    have hjd : j ≠ dp := fun he => hj (he ▸ hd)
    rw [hother j hji hjd]
    exact h.plain j hj
  · have hj := (hdir j).1 hj
    obtain ⟨P, l', he', hP, hPn⟩ := h.shape j hj
    obtain ⟨l'', he''⟩ := hents j _ _ _ he'
    exact ⟨P, l'', he'', hlinked P (hparent j P l' hj he') hP hPn⟩
  · have hm' : j ∈ (I k).links := by
      by_cases hki : k = ip
      · rw [hki, hlip] at hm
        cases Multiset.notMem_zero j hm
      by_cases hkd : k = dp
      · subst hkd; rw [hldp]; exact Multiset.mem_cons_of_mem hm
      · rwa [hother k hki hkd] at hm
    obtain ⟨l', he'⟩ := h.up j k ((hdir j).1 hj) hm'
    exact hents j _ _ _ he'
  · have hj' : j ∈ links I := by rw [hlinks]; exact Multiset.mem_cons_of_mem hj
    have hf := h.alloc j hj'
    by_cases hji : j = ip
    · subst hji; rw [hip]; nofun
    by_cases hjd : j = dp
    · subst hjd; rw [hdp]; nofun
    · rwa [hother j hji hjd]
  · have hj := mt (hdir j).2 hj
    have hji : j ≠ ip := fun he => hj (he ▸ hi)
    have hjd : j ≠ dp := fun he => hj (he ▸ hd)
    rw [hcount j hji, hother j hji hjd]
    exact h.file j hj
  · have hj := (hdir j).1 hj
    have h₁ := h.dir j hj
    have h₂ := hsub j
    by_cases hji : j = ip
    · subst hji
      rw [if_neg hroot, hone, hnip] at h₁
      rw [if_neg hne] at h₂
      rw [hip, hzero, hnip, if_neg hroot]
      simp only
      omega
    by_cases hjd : j = dp
    · subst hjd
      rw [if_pos rfl] at h₂
      rw [hcount j hji, hdp]
      simp only
      omega
    · rw [if_neg hjd] at h₂
      rw [hcount j hji, hother j hji hjd]
      omega
  · by_cases hji : j = ip
    · rw [hji, hzero]
      exact Nat.zero_le _
    · rw [hcount j hji]
      exact h.one j ((hdir j).1 hj)
  · have h₂ := hsub j
    by_cases hji : j = ip
    · rw [subdirs, hji, hlip]
      rfl
    · rw [hcount j hji] at h0
      have := h.orphan j ((hdir j).1 hj) hjr h0
      omega

end Tree

end Xv6.Fs
