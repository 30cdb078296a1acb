import Xv6.Fs.Links

/-!
# References to inodes

The references to the copies of inodes in memory (`Refs`), over the multiset `H` of those who
hold one: an inode that is held is allocated, and an inode without links is kept only as long as
it is held. `iput` frees it with the last reference, which takes no entry away from under a
directory: that is what `Tree` is for.

On the way along a path (`namexLoop_spec`) each directory is held in turn. It is still linked, or
it is held by someone else too, so that leaving it frees nothing.
-/

namespace Xv6.Fs

open Function

variable {s s' : State} {H : Multiset Inum} {i j dp ip : Inum} {name : Name} {off : ℕ}

/-- The greatest `short`. -/
abbrev SHRT_MAX : ℤ := 32767

/-- The references `H`, and the inodes they keep. -/
structure Refs (H : Multiset Inum) (s : State) : Prop where
  tree : Tree s.inode
  short : ∀ i, (s.inode i).nlink ≤ SHRT_MAX
  ref : ∀ i, s.ref i = H.count i
  used : ∀ i ∈ H, (s.inode i).type ≠ .free
  kept : ∀ i, (s.inode i).type ≠ .free → (s.inode i).nlink = 0 → s.valid i ∧ i ∈ H

/-- Only references to inodes differ. -/
structure Same (s s' : State) : Prop where
  inode : s'.inode = s.inode
  data : s'.data = s.data
  proc : s'.proc = s.proc
  file : s'.file = s.file

theorem Same.refl (s : State) : Same s s := ⟨rfl, rfl, rfl, rfl⟩

theorem Same.trans {s'' : State} (h : Same s s') (h' : Same s' s'') : Same s s'' :=
  ⟨h'.inode.trans h.inode, h'.data.trans h.data, h'.proc.trans h.proc, h'.file.trans h.file⟩

/-! ## Links -/

/-- An inode with an entry in a directory has a link. -/
theorem Tree.nlink_pos {I : Inum → Inode} (h : Tree I) (hi : i ∈ links I) : 1 ≤ (I i).nlink := by
  have hc := Multiset.one_le_count_iff_mem.2 hi
  by_cases hd : (I i).type = .dir
  · have := h.dir i hd
    split_ifs at this <;> omega
  · have := h.file i hd
    omega

theorem Tree.nlink_nonneg {I : Inum → Inode} (h : Tree I) (i : Inum) : 0 ≤ (I i).nlink := by
  by_cases hd : (I i).type = .dir
  · have := h.dir i hd
    split_ifs at this <;> omega
  · have := h.file i hd
    omega

/-- What a directory has under a name is allocated, and it is linked or the directory itself. -/
theorem Tree.of_findEnt {I : Inum → Inode} (h : Tree I) (hd : (I dp).type = .dir)
    (hf : findEnt name (I dp).ents = some (off, i)) :
    (I i).type ≠ .free ∧ (i = dp ∨ 1 ≤ (I i).nlink) := by
  obtain ⟨P, l, he, hP, hn⟩ := h.shape dp hd
  rw [he] at hf
  rcases findEnt_cases hf with ⟨-, rfl⟩ | ⟨-, rfl⟩ | ⟨o, -, hl⟩
  · exact ⟨by rw [hd]; nofun, .inl rfl⟩
  · exact ⟨by rw [hP]; nofun, .inr hn⟩
  · have hm : i ∈ links I := mem_links.2 ⟨dp, by rw [Inode.links, he]; exact mem_inums hl⟩
    exact ⟨h.alloc i hm, .inr (h.nlink_pos hm)⟩

/-! ## Inodes -/

/-- The inodes change, and those who hold one stay the same. -/
theorem Refs.of_inode (h : Refs H s) (htree : Tree s'.inode)
    (hshort : ∀ i, (s'.inode i).nlink ≤ SHRT_MAX) (href : s'.ref = s.ref)
    (hvalid : s'.valid = s.valid) (hused : ∀ i ∈ H, (s'.inode i).type ≠ .free)
    (hkept : ∀ i, (s'.inode i).type ≠ .free → (s'.inode i).nlink = 0 →
      (s.inode i).type ≠ .free ∧ (s.inode i).nlink = 0 ∨ s.valid i ∧ i ∈ H) : Refs H s' :=
  ⟨htree, hshort, fun i => by rw [href, h.ref], hused, fun i hi hn => by
    rw [hvalid]
    exact (hkept i hi hn).elim (fun hk => h.kept i hk.1 hk.2) id⟩

theorem eq_take (h : iget s i = some s') : s' = s.take i := by
  rw [iget] at h
  split_ifs at h
  exact (Option.some.inj h).symm

/-- The copies in memory are those that are held. -/
theorem Refs.incore_eq (h : Refs H s) : s.incore = H.toFinset.card := by
  rw [State.incore]
  congr 1
  ext i
  rw [Finset.mem_filter, Multiset.mem_toFinset, h.ref, Multiset.count_ne_zero]
  exact and_iff_right (Finset.mem_univ i)

theorem iget_eq (hroom : s.incore < NINODE ∨ (iget s i).isSome) : iget s i = some (s.take i) := by
  obtain hroom | hsome := hroom
  · rw [iget, if_neg fun hfull => absurd hroom (not_lt.2 hfull.2)]
  · obtain ⟨t, ht⟩ := Option.isSome_iff_exists.1 hsome
    rw [ht, eq_take ht]

/-- There is a place for a copy, or one was found. -/
theorem Refs.iget_eq (h : Refs H s) (hroom : H.toFinset.card < NINODE ∨ (iget s i).isSome) :
    iget s i = some (s.take i) :=
  Fs.iget_eq (h.incore_eq ▸ hroom)

theorem card_cons_le (i : Inum) (H : Multiset Inum) :
    (i ::ₘ H).toFinset.card ≤ H.toFinset.card + 1 := by
  rw [Multiset.toFinset_cons]
  exact Finset.card_insert_le _ _

theorem Refs.take (h : Refs H s) (hi : (s.inode i).type ≠ .free) : Refs (i ::ₘ H) (s.take i) := by
  refine ⟨h.tree, h.short, fun j => ?_, fun j hj => ?_, fun j hj hn => ?_⟩
  · rw [State.take]
    by_cases hji : j = i
    · subst hji; simp [h.ref]
    · simp [hji, h.ref]
  · rcases Multiset.mem_cons.1 hj with rfl | hj
    · exact hi
    · exact h.used j hj
  · obtain ⟨hv, hm⟩ := h.kept j hj hn
    refine ⟨?_, Multiset.mem_cons_of_mem hm⟩
    rw [State.take]
    split_ifs with h0
    · have hji : j ≠ i := fun he => by
        rw [h.ref, ← he, Multiset.count_eq_zero] at h0
        exact h0 hm
      simp [hji, hv]
    · exact hv

theorem Refs.idup (h : Refs H s) (hi : i ∈ H) : Refs (i ::ₘ H) (idup s i) := by
  refine ⟨h.tree, h.short, fun j => ?_, fun j hj => ?_, fun j hj hn => ?_⟩
  · rw [Fs.idup]
    by_cases hji : j = i
    · subst hji; simp [h.ref]
    · simp [hji, h.ref]
  · rcases Multiset.mem_cons.1 hj with rfl | hj
    · exact h.used j hi
    · exact h.used j hj
  · obtain ⟨hv, hm⟩ := h.kept j hj hn
    exact ⟨hv, Multiset.mem_cons_of_mem hm⟩

theorem take_same (s : State) (i : Inum) : Same s (s.take i) := ⟨rfl, rfl, rfl, rfl⟩

theorem idup_same (s : State) (i : Inum) : Same s (idup s i) := ⟨rfl, rfl, rfl, rfl⟩

/-- An inode that is held can be locked. -/
theorem Refs.ilock (h : Refs H s) (hi : i ∈ H) :
    ∃ s', ilock s i = some s' ∧ Same s s' ∧ Refs H s' ∧ s'.valid i ∧ s'.ref = s.ref := by
  have hr : ¬ s.ref i < 1 := by
    rw [h.ref]
    have := Multiset.one_le_count_iff_mem.2 hi
    omega
  rw [Fs.ilock, if_neg hr]
  split_ifs with hv hf
  · exact ⟨s, rfl, .refl s, h, hv, rfl⟩
  · exact absurd hf (h.used i hi)
  · refine ⟨_, rfl, ⟨rfl, rfl, rfl, rfl⟩,
      ⟨h.tree, h.short, h.ref, h.used, fun j hj hn => ?_⟩, by simp, rfl⟩
    obtain ⟨hvj, hm⟩ := h.kept j hj hn
    refine ⟨?_, hm⟩
    by_cases hji : j = i
    · subst hji; simp
    · simp [hji, hvj]

/-- A reference goes away, with no inode freed. -/
theorem iput_eq (hi : ¬ ((s.inode i).nlink = 0 ∧ s.ref i = 1)) :
    iput s i = { s with ref := update s.ref i (s.ref i - 1) } := by
  rw [iput, if_neg fun h => hi h.2]

theorem iput_proc : (iput s i).proc = s.proc := by
  rw [iput]; split_ifs <;> rfl

theorem iput_file : (iput s i).file = s.file := by
  rw [iput]; split_ifs <;> rfl

/-- The last reference to an inode without links frees it. -/
theorem Tree.free {I I' : Inum → Inode} (h : Tree I) (hn : (I i).nlink = 0)
    (hself : I' i = ⟨.free, 0, []⟩) (hother : ∀ j, j ≠ i → I' j = I j) : Tree I' := by
  by_cases hd : (I i).type = .dir
  · exact h.free_dir hd hn hself hother
  · have hI' : I' = update I i ⟨.free, 0, []⟩ := by
      funext j
      by_cases hji : j = i
      · subst hji; simp [hself]
      · simp [hji, hother j hji]
    have hc : (links I).count i = 0 := by
      have := h.file i hd
      omega
    rw [hI']
    exact h.set_file hd nofun rfl (by rw [hc]; exact le_refl _) fun _ => hc

theorem Refs.iput (h : Refs (i ::ₘ H) s) : Refs H (iput s i) := by
  by_cases hn : (s.inode i).nlink = 0 ∧ s.ref i = 1
  · obtain ⟨hn, hr⟩ := hn
    have hi := h.used i (Multiset.mem_cons_self _ _)
    have hv := (h.kept i hi hn).1
    have hH : i ∉ H := by
      rw [h.ref, Multiset.count_cons_self] at hr
      exact Multiset.count_eq_zero.1 (by omega)
    have hne : ∀ j ∈ H, j ≠ i := fun j hj he => hH (he ▸ hj)
    rw [Fs.iput, if_pos ⟨hv, hn, hr⟩]
    refine ⟨?_, fun j => ?_, fun j => ?_, fun j hj => ?_, fun j hj hjn => ?_⟩
    · change Tree (ifree s i).inode
      refine h.tree.free hn ?_ fun j hj => ?_
      · simp [ifree, hn]
      · simp [ifree, hj]
    · have hshort := h.short j
      by_cases hji : j = i
      · subst hji
        simpa [ifree] using hshort
      · simpa [ifree, hji] using hshort
    · by_cases hji : j = i
      · subst hji
        simp [ifree, hr, Multiset.count_eq_zero.2 hH]
      · simp [ifree, hji, h.ref]
    · simpa [ifree, hne j hj] using h.used j (Multiset.mem_cons_of_mem hj)
    · have hji : j ≠ i := fun he => by
        subst he
        simp [ifree] at hj
      simp only [ifree, ne_eq, hji, not_false_eq_true, update_of_ne] at hj hjn ⊢
      obtain ⟨hvj, hm⟩ := h.kept j hj hjn
      exact ⟨hvj, (Multiset.mem_cons.1 hm).resolve_left hji⟩
  · rw [iput_eq hn]
    refine ⟨h.tree, h.short, fun j => ?_, fun j hj => h.used j (Multiset.mem_cons_of_mem hj),
      fun j hj hjn => ?_⟩
    · by_cases hji : j = i
      · subst hji
        simp [h.ref]
      · simp [hji, h.ref]
    · obtain ⟨hv, hm⟩ := h.kept j hj hjn
      refine ⟨hv, (Multiset.mem_cons.1 hm).elim (fun he => ?_) id⟩
      subst he
      have hr := h.ref j
      rw [Multiset.count_cons_self] at hr
      have hr1 : s.ref j ≠ 1 := fun h1 => hn ⟨hjn, h1⟩
      exact Multiset.count_pos.1 (by omega)

/-- Nothing is freed if the inode is linked, or held by someone else. -/
theorem Refs.iput_eq (h : Refs (i ::ₘ H) s) (hi : i ∈ H ∨ 1 ≤ (s.inode i).nlink) :
    Fs.iput s i = { s with ref := update s.ref i (s.ref i - 1) } := by
  refine Fs.iput_eq fun hn => ?_
  rw [h.ref, Multiset.count_cons_self] at hn
  rcases hi with hi | hi
  · have := Multiset.count_pos.2 hi
    omega
  · omega

theorem Refs.iput_same (h : Refs (i ::ₘ H) s) (hi : i ∈ H ∨ 1 ≤ (s.inode i).nlink) :
    Same s (Fs.iput s i) := by
  rw [h.iput_eq hi]
  exact ⟨rfl, rfl, rfl, rfl⟩

/-! ## Paths -/

/-- The way along a path, without references. -/
def walk (I : Inum → Inode) (parent : Bool) : List Name → Inum → Option (Inum × Name)
  | [], ip => if parent then none else some (ip, [])
  | name :: path, ip =>
    if (I ip).type ≠ .dir then none
    else if parent ∧ path = [] then some (ip, name)
    else (findEnt name (I ip).ents).bind fun x => walk I parent path x.2

/-- Where a path leads a process to, with the last name. -/
def pathTo (s : State) (p : Slot) (path : List Char) (parent : Bool) : Option (Inum × Name) :=
  if path.head? = some '/' then walk s.inode parent (elems path.length path) ROOTINO
  else (s.proc p).cwd.bind fun cwd => walk s.inode parent (elems path.length path) cwd

/-- What the way along a path gives: nothing, or an inode that is held and will not be freed
    by that. -/
inductive Found (H : Multiset Inum) (s : State) (parent : Bool) :
    Option (Inum × Name) → State → Prop
  | fail {s' : State} (same : Same s s') (refs : Refs H s') : Found H s parent none s'
  | found {s' : State} {i : Inum} {name : Name} (same : Same s s') (refs : Refs (i ::ₘ H) s')
    (safe : i ∈ H ∨ 1 ≤ (s.inode i).nlink) (dir : parent → (s.inode i).type = .dir) :
    Found H s parent (some (i, name)) s'

theorem Found.of_same {parent : Bool} {r : Option (Inum × Name)} {s'' : State} (hs : Same s s')
    (h : Found H s' parent r s'') : Found H s parent r s'' := by
  cases h with
  | fail same refs => exact .fail (hs.trans same) refs
  | found same refs safe dir =>
    rw [hs.inode] at safe dir
    exact .found (hs.trans same) refs safe dir

theorem namexLoop_spec (parent : Bool) (path : List Name) (h : Refs (ip ::ₘ H) s)
    (hip : ip ∈ H ∨ 1 ≤ (s.inode ip).nlink)
    (hroom : H.toFinset.card + 2 ≤ NINODE ∨ (namexLoop parent path s ip).isSome) :
    ∃ r s', namexLoop parent path s ip = some (r, s') ∧ Found H s parent r s' ∧
      r = walk s.inode parent path ip := by
  induction path generalizing s ip with
  | nil =>
    rw [namexLoop, walk]
    split_ifs with hp
    · exact ⟨_, _, rfl, .fail (h.iput_same hip) h.iput, rfl⟩
    · exact ⟨_, _, rfl, .found (.refl s) h hip fun h => absurd h hp, rfl⟩
  | cons name path ih =>
    obtain ⟨s₁, h₁, same, refs, -, -⟩ := h.ilock (Multiset.mem_cons_self _ _)
    rw [namexLoop, h₁, Option.bind_some] at hroom ⊢
    rw [walk, ← same.inode]
    have hip₁ : ip ∈ H ∨ 1 ≤ (s₁.inode ip).nlink := same.inode ▸ hip
    split_ifs at hroom ⊢ with hd hp
    · exact ⟨_, _, rfl, .fail (same.trans (refs.iput_same hip₁)) refs.iput, rfl⟩
    · exact ⟨_, _, rfl, .found same refs hip fun _ => by rw [← same.inode]; exact not_not.1 hd, rfl⟩
    · rw [dirlookup, if_pos (not_not.1 hd), Option.bind_some] at hroom ⊢
      cases hf : findEnt name (s₁.inode ip).ents with
      | none => exact ⟨_, _, rfl, .fail (same.trans (refs.iput_same hip₁)) refs.iput, rfl⟩
      | some x =>
        obtain ⟨off, next⟩ := x
        obtain ⟨hnext, hsafe⟩ := refs.tree.of_findEnt (not_not.1 hd) hf
        rw [hf] at hroom
        -- The next inode is held before the last one is let go.
        have hcard := card_cons_le ip H
        have hget := refs.iget_eq (i := next)
          (hroom.imp (fun _ => by omega) Option.isSome_of_isSome_bind)
        simp only [hget, Option.bind_some] at hroom ⊢
        have refs₂ : Refs (ip ::ₘ next ::ₘ H) (s₁.take next) := by
          rw [Multiset.cons_swap]
          exact refs.take hnext
        have hip₂ : ip ∈ next ::ₘ H ∨ 1 ≤ ((s₁.take next).inode ip).nlink :=
          hip₁.imp Multiset.mem_cons_of_mem id
        have same₂ := (take_same s₁ next).trans (refs₂.iput_same hip₂)
        have hsafe₂ : next ∈ H ∨ 1 ≤ ((iput (s₁.take next) ip).inode next).nlink := by
          rw [same₂.inode]
          rcases hsafe with rfl | hsafe
          · exact hip₁
          · exact .inr hsafe
        obtain ⟨r, s₃, he, hr, hwalk⟩ := ih refs₂.iput hsafe₂ hroom
        exact ⟨r, s₃, he, .of_same (same.trans same₂) hr, by rw [hwalk, same₂.inode]⟩

/-- `namex` of a process finds its way, from the root or from the current directory, as long as
    there is room for two more copies in memory. -/
theorem namex_spec {p : Slot} {cwd : Inum} (path : List Char) (parent : Bool) (h : Refs H s)
    (hcwd : (s.proc p).cwd = some cwd) (hH : cwd ∈ H)
    (hroom : H.toFinset.card + 2 ≤ NINODE ∨ (namex s p path parent).isSome) :
    ∃ r s', namex s p path parent = some (r, s') ∧ Found H s parent r s' ∧
      r = pathTo s p path parent := by
  rw [namex] at hroom ⊢
  rw [pathTo]
  split_ifs at hroom ⊢
  · have hroot : 1 ≤ (s.inode ROOTINO).nlink := by
      rw [h.tree.dir ROOTINO h.tree.root.1, if_pos rfl]
      omega
    have hused : (s.inode ROOTINO).type ≠ .free := by rw [h.tree.root.1]; nofun
    have hget := h.iget_eq (i := ROOTINO)
      (hroom.imp (fun _ => by omega) Option.isSome_of_isSome_bind)
    rw [hget, Option.bind_some] at hroom ⊢
    obtain ⟨r, s', he, hr, hwalk⟩ := namexLoop_spec parent (elems path.length path) (h.take hused)
      (.inr hroot) hroom
    exact ⟨r, s', he, .of_same (take_same s ROOTINO) hr, hwalk⟩
  · rw [hcwd, Option.bind_some] at hroom ⊢
    rw [Option.bind_some]
    obtain ⟨r, s', he, hr, hwalk⟩ :=
      namexLoop_spec parent (elems path.length path) (h.idup hH) (.inl hH)
      hroom
    exact ⟨r, s', he, .of_same (idup_same s cwd) hr, hwalk⟩

/-! ## Calls that may panic -/

/-- The references `x` that a call has in hand, besides those of `K`, which keep the inodes without
    links. -/
structure Kept (K x : Multiset Inum) (s : State) : Prop where
  ref : ∀ i, s.ref i = (x + K).count i
  kept : ∀ i, (s.inode i).type ≠ .free → (s.inode i).nlink = 0 → s.valid i ∧ i ∈ K
  valid : ∀ i, s.valid i → (s.inode i).type ≠ .free

theorem ilock_same (h : ilock s i = some s') : Same s s' := by
  rw [ilock] at h
  split_ifs at h
  · exact Option.some.inj h ▸ .refl s
  · exact Option.some.inj h ▸ ⟨rfl, rfl, rfl, rfl⟩

theorem walk_dir {path : List Name} (h : walk I true path ip = some (dp, name)) :
    (I dp).type = .dir := by
  induction path generalizing ip with
  | nil => cases h
  | cons n path ih =>
    rw [walk] at h
    split_ifs at h with hd hp
    · obtain ⟨rfl, rfl⟩ := Prod.mk.inj (Option.some.inj h)
      exact not_not.1 hd
    · obtain ⟨y, -, hy⟩ := Option.bind_eq_some_iff.1 h
      exact ih hy

theorem walk_congr {I' : Inum → Inode} {parent : Bool} {path : List Name}
    (h : ∀ i, (I' i).type = (I i).type ∧ (I' i).ents = (I i).ents) :
    walk I' parent path ip = walk I parent path ip := by
  induction path generalizing ip with
  | nil => rfl
  | cons n path ih => simp only [walk, h, ih]

theorem pathTo_congr {parent : Bool} (hp : (s'.proc p).cwd = (s.proc p).cwd)
    (h : ∀ i, (s'.inode i).type = (s.inode i).type ∧ (s'.inode i).ents = (s.inode i).ents) :
    pathTo s' p path parent = pathTo s p path parent := by
  simp only [pathTo, hp, walk_congr h]

theorem pathTo_dir (h : pathTo s p path true = some (dp, name)) : (s.inode dp).type = .dir := by
  rw [pathTo] at h
  split_ifs at h
  · exact walk_dir h
  · obtain ⟨cwd, -, hw⟩ := Option.bind_eq_some_iff.1 h
    exact walk_dir hw

/-- The path leads to a directory, which does not have its last name. -/
def NewName (s : State) (p : Slot) (path : List Char) : Prop :=
  ∃ y ∈ pathTo s p path true, findEnt y.2 (s.inode y.1).ents = none

namespace Kept

variable {p : Slot} {K x : Multiset Inum} {path : List Char}

/-- A reference in hand counts as one that keeps the inode. -/
theorem keep (h : Kept K (i ::ₘ x) s) : Kept (i ::ₘ K) x s := by
  refine ⟨fun j => ?_, fun j hj hn => ?_, h.valid⟩
  · rw [h.ref, Multiset.cons_add, Multiset.add_cons]
  · obtain ⟨hv, hK⟩ := h.kept j hj hn
    exact ⟨hv, Multiset.mem_cons_of_mem hK⟩

theorem take (h : Kept K x s) (i : Inum) : Kept K (i ::ₘ x) (s.take i) := by
  refine ⟨fun j => ?_, fun j hj hn => ?_, fun j hj => ?_⟩
  · rw [State.take, Multiset.cons_add]
    by_cases hji : j = i
    · subst hji; simp [h.ref]
    · simp [hji, h.ref]
  · obtain ⟨hv, hK⟩ := h.kept j hj hn
    refine ⟨?_, hK⟩
    rw [State.take]
    split_ifs with h0
    · have hji : j ≠ i := fun he => by
        rw [← he, h.ref, Multiset.count_add] at h0
        have := Multiset.one_le_count_iff_mem.2 hK
        omega
      simp [hji, hv]
    · exact hv
  · refine h.valid j ?_
    rw [State.take] at hj
    by_cases h0 : s.ref i = 0
    · by_cases hji : j = i
      · simp [h0, hji] at hj
      · simpa [h0, hji] using hj
    · simpa [h0] using hj

theorem idup (h : Kept K x s) (i : Inum) : Kept K (i ::ₘ x) (idup s i) := by
  refine ⟨fun j => ?_, h.kept, h.valid⟩
  rw [Fs.idup, Multiset.cons_add]
  by_cases hji : j = i
  · subst hji; simp [h.ref]
  · simp [hji, h.ref]

theorem ilock (h : Kept K x s) (hl : ilock s i = some s') : Kept K x s' ∧ s'.valid i := by
  rw [Fs.ilock] at hl
  split_ifs at hl with hr hv hf
  · obtain rfl := Option.some.inj hl
    exact ⟨h, hv⟩
  · obtain rfl := Option.some.inj hl
    refine ⟨⟨h.ref, fun j hj hn => ?_, fun j hj => ?_⟩, by simp⟩
    · obtain ⟨hvj, hK⟩ := h.kept j hj hn
      refine ⟨?_, hK⟩
      by_cases hji : j = i
      · subst hji; simp
      · simp [hji, hvj]
    · by_cases hji : j = i
      · subst hji; exact hf
      · exact h.valid j (by simpa [hji] using hj)

/-- Nothing is freed with a reference in hand. -/
theorem iput (h : Kept K (i ::ₘ x) s) : Same s (iput s i) ∧ Kept K x (iput s i) := by
  have hkeep : ¬ (s.valid i ∧ (s.inode i).nlink = 0 ∧ s.ref i = 1) := by
    rintro ⟨hv, hn, hr⟩
    have hK := Multiset.one_le_count_iff_mem.2 (h.kept i (h.valid i hv) hn).2
    rw [h.ref, Multiset.count_add, Multiset.count_cons_self] at hr
    omega
  rw [Fs.iput, if_neg hkeep]
  refine ⟨⟨rfl, rfl, rfl, rfl⟩, fun j => ?_, h.kept, h.valid⟩
  by_cases hji : j = i
  · subst hji; simp [h.ref]
  · simp [hji, h.ref]

theorem namexLoop {parent : Bool} {path : List Name} {r : Option (Inum × Name)}
    (h : Kept K (ip ::ₘ x) s) (he : namexLoop parent path s ip = some (r, s')) :
    Same s s' ∧ r = walk s.inode parent path ip ∧
      Kept K (r.elim x fun y => y.1 ::ₘ x) s' := by
  induction path generalizing s ip with
  | nil =>
    rw [Fs.namexLoop] at he
    rw [walk]
    split_ifs at he ⊢ with hp
    · obtain ⟨rfl, rfl⟩ := Prod.mk.inj (Option.some.inj he)
      exact ⟨h.iput.1, rfl, h.iput.2⟩
    · obtain ⟨rfl, rfl⟩ := Prod.mk.inj (Option.some.inj he)
      exact ⟨.refl s, rfl, h⟩
  | cons n path ih =>
    rw [Fs.namexLoop] at he
    obtain ⟨s₁, hl, he⟩ := Option.bind_eq_some_iff.1 he
    have same₁ := ilock_same hl
    obtain ⟨h₁, -⟩ := h.ilock hl
    rw [walk, ← same₁.inode]
    split_ifs at he ⊢ with hd hp
    · obtain ⟨rfl, rfl⟩ := Prod.mk.inj (Option.some.inj he)
      exact ⟨same₁.trans h₁.iput.1, rfl, h₁.iput.2⟩
    · obtain ⟨rfl, rfl⟩ := Prod.mk.inj (Option.some.inj he)
      exact ⟨same₁, rfl, h₁⟩
    · rw [dirlookup, if_pos (not_not.1 hd), Option.bind_some] at he
      cases hf : findEnt n (s₁.inode ip).ents with
      | none =>
        rw [hf] at he
        obtain ⟨rfl, rfl⟩ := Prod.mk.inj (Option.some.inj he)
        exact ⟨same₁.trans h₁.iput.1, rfl, h₁.iput.2⟩
      | some y =>
        obtain ⟨o, next⟩ := y
        rw [hf] at he
        obtain ⟨t, ht, he⟩ := Option.bind_eq_some_iff.1 he
        obtain rfl := eq_take ht
        have h₂ := h₁.take next
        rw [Multiset.cons_swap] at h₂
        obtain ⟨same₂, h₂⟩ := h₂.iput
        obtain ⟨same₃, hr, h₃⟩ := ih h₂ he
        have same : Same s₁ s' := ((take_same s₁ next).trans same₂).trans same₃
        refine ⟨same₁.trans same, ?_, h₃⟩
        rw [hr, same₂.inode]
        rfl

theorem namex {parent : Bool} {r : Option (Inum × Name)} (h : Kept K x s)
    (he : namex s p path parent = some (r, s')) :
    Same s s' ∧ r = pathTo s p path parent ∧ Kept K (r.elim x fun y => y.1 ::ₘ x) s' := by
  rw [Fs.namex] at he
  rw [pathTo]
  split_ifs at he ⊢
  · obtain ⟨t, ht, he⟩ := Option.bind_eq_some_iff.1 he
    obtain rfl := eq_take ht
    obtain ⟨same, hr, h'⟩ := (h.take ROOTINO).namexLoop he
    exact ⟨(take_same s ROOTINO).trans same, hr, h'⟩
  · obtain ⟨cwd, hc, he⟩ := Option.bind_eq_some_iff.1 he
    obtain ⟨same, hr, h'⟩ := (h.idup cwd).namexLoop he
    exact ⟨(idup_same s cwd).trans same, by rw [hr, hc]; rfl, h'⟩

/-- What a path leads to is locked. -/
theorem locked {parent : Bool} {s'' : State} (h : Kept K x s)
    (hx : Fs.namex s p path parent = some (some (ip, name), s')) (hl : Fs.ilock s' ip = some s'') :
    Same s s'' ∧ pathTo s p path parent = some (ip, name) ∧ Kept K (ip ::ₘ x) s'' ∧
    s''.valid ip := by
  obtain ⟨same, hq, h'⟩ := h.namex hx
  exact ⟨same.trans (ilock_same hl), hq.symm, h'.ilock hl⟩

/-- `create` finds a file or fails, or it makes a new one in the directory that it has locked. -/
theorem create_cases {type : FileType} {r : Option Inum} (h : Kept K x s)
    (he : Fs.create s p path type = some (r, s')) :
    (¬NewName s p path ∧ Same s s' ∧ Kept K (r.elim x (· ::ₘ x)) s') ∨
      ∃ dp name s₂, pathTo s p path true = some (dp, name) ∧ Same s s₂ ∧ Kept K (dp ::ₘ x) s₂ ∧
        findEnt name (s₂.inode dp).ents = none ∧ createNew s₂ dp name type = some (r, s') := by
  obtain ⟨⟨q, s₁⟩, hx, he⟩ := Option.bind_eq_some_iff.1 he
  cases q with
  | none =>
    obtain ⟨rfl, rfl⟩ := Prod.mk.inj (Option.some.inj he)
    obtain ⟨same, hq, h₁⟩ := h.namex hx
    refine .inl ⟨?_, same, h₁⟩
    rintro ⟨y, hy, -⟩
    rw [← hq] at hy
    cases hy
  | some y =>
    obtain ⟨dp, name⟩ := y
    obtain ⟨s₂, hl, he⟩ := Option.bind_eq_some_iff.1 he
    obtain ⟨same, hq, h₂, -⟩ := h.locked hx hl
    have hd : (s₂.inode dp).type = .dir := by rw [same.inode]; exact pathTo_dir hq
    rw [dirlookup, if_pos hd, Option.bind_some] at he
    cases hf : findEnt name (s₂.inode dp).ents with
    | none =>
      rw [hf] at he
      exact .inr ⟨dp, name, s₂, hq, same, h₂, hf, he⟩
    | some y =>
      obtain ⟨o, ip⟩ := y
      rw [hf] at he
      have hold : ¬NewName s p path := by
        rintro ⟨y, hy, hnew⟩
        obtain rfl := Option.some.inj (hq.symm.trans hy)
        rw [← same.inode, hf] at hnew
        cases hnew
      obtain ⟨t, ht, he⟩ := Option.bind_eq_some_iff.1 he
      obtain rfl := eq_take ht
      obtain ⟨s₃, hl₃, he⟩ := Option.bind_eq_some_iff.1 he
      have h₃ := h₂.take ip
      rw [Multiset.cons_swap] at h₃
      obtain ⟨same₃, h₃⟩ := h₃.iput
      obtain ⟨h₄, -⟩ := h₃.ilock hl₃
      have same := same.trans (((take_same s₂ ip).trans same₃).trans (ilock_same hl₃))
      split_ifs at he
      · obtain ⟨rfl, rfl⟩ := Prod.mk.inj (Option.some.inj he)
        exact .inl ⟨hold, same, h₄⟩
      · obtain ⟨rfl, rfl⟩ := Prod.mk.inj (Option.some.inj he)
        exact .inl ⟨hold, same.trans h₄.iput.1, h₄.iput.2⟩

end Kept

end Xv6.Fs
