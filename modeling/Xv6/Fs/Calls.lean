import Xv6.Fs.Refs

/-!
# System calls on directories

`create`, `link` and `unlink`, from the references `H` before the call to those after it. Each is
computed as one change of the inodes (`created`, `removed`), which keeps the tree, after or before
references come and go.
-/

namespace Xv6.Fs

open Function

variable {s s' : State} {H : Multiset Inum} {I : Inum → Inode} {i j dp ip : Inum} {name : Name}
  {off : ℕ} {type : FileType}

/-! ## New inodes -/

/-- The inode `i` is allocated, and empty. -/
def State.alloc (s : State) (i : Inum) (type : FileType) : State :=
  { s with
    inode := Function.update s.inode i { type := type }
    data := Function.update s.data i [] }

theorem ialloc_spec (type : FileType) (hfree : ∃ i : Inum, 0 < i.val ∧ (s.inode i).type = .free) :
    ∃ i, (s.inode i).type = .free ∧ ialloc s type = (iget (s.alloc i type) i).map (i, ·) := by
  rw [ialloc]
  cases hf : (List.finRange NINODES).find? fun i => 0 < i.val ∧ (s.inode i).type = .free with
  | none =>
    obtain ⟨i, hi⟩ := hfree
    have := List.find?_eq_none.1 hf i (List.mem_finRange i)
    simp [hi] at this
  | some i =>
    have := List.find?_some hf
    simp only [decide_eq_true_eq] at this
    exact ⟨i, this.2, rfl⟩

/-- `ilock` does not look at the other inodes. -/
theorem ilock_inode (hI : (I i).type ≠ .free) (h : ilock s i = some s') :
    ilock { s with inode := I } i = some { s' with inode := I } := by
  rw [ilock] at h ⊢
  split_ifs at h with hr hv hf
  all_goals obtain rfl := Option.some.inj h
  · rw [if_neg hr, if_pos hv]
  · rw [if_neg hr, if_neg hv, if_neg hI]

/-- A free inode is taken and locked; the inodes become `I`. -/
theorem Refs.alloc {d : Inum → List UInt8} (h : Refs H s) (hip : (s.inode ip).type = .free)
    (htree : Tree I) (hshort : ∀ j, (I j).nlink ≤ SHRT_MAX)
    (hused : (I ip).type ≠ .free) (hlink : (I ip).nlink ≠ 0)
    (hother : ∀ j, j ≠ ip → (I j).type = (s.inode j).type ∧
      ((I j).nlink = 0 → (s.inode j).nlink = 0)) :
    ∃ s', Fs.ilock (State.take { s with inode := I, data := d } ip) ip = some s' ∧
      Same { s with inode := I, data := d } s' ∧ Refs (ip ::ₘ H) s' := by
  have hI : Refs H { s with inode := I, data := d } := by
    refine h.of_inode htree hshort rfl rfl (fun j hj => ?_) fun j hj hn => .inl ?_
    · have hji : j ≠ ip := fun he => h.used j hj (he ▸ hip)
      rw [(hother j hji).1]
      exact h.used j hj
    · have hji : j ≠ ip := fun he => hlink (he ▸ hn)
      exact ⟨(hother j hji).1 ▸ hj, (hother j hji).2 hn⟩
  obtain ⟨s', he, same, refs, -, -⟩ := (hI.take hused).ilock (Multiset.mem_cons_self _ _)
  exact ⟨s', he, (take_same _ ip).trans same, refs⟩

theorem links_modify {f : Inode → Inode} (hf : (f (s.inode i)).ents = (s.inode i).ents) :
    links (s.modify i f).inode = links s.inode := by
  have hl : (s.inode i).links = (f (s.inode i)).links := by rw [Inode.links, Inode.links, hf]
  have h := links_update s.inode i (f (s.inode i))
  rwa [hl, add_left_inj] at h

/-- The entries of a directory change. -/
theorem Refs.set_ents {f : Dirents → Dirents} (h : Refs H s)
    (htree : Tree (s.modify i fun d => { d with ents := f d.ents }).inode) :
    Refs H (s.modify i fun d => { d with ents := f d.ents }) := by
  have hsame : ∀ j, ((s.modify i fun d => { d with ents := f d.ents }).inode j).type =
      (s.inode j).type ∧ ((s.modify i fun d => { d with ents := f d.ents }).inode j).nlink =
      (s.inode j).nlink := fun j => by
    by_cases hji : j = i
    · subst hji; simp
    · simp [hji]
  refine h.of_inode htree (fun j => ?_) rfl rfl (fun j hj => ?_) fun j hj hn => .inl ?_
  · rw [(hsame j).2]
    exact h.short j
  · rw [(hsame j).1]
    exact h.used j hj
  · rw [(hsame j).1] at hj
    rw [(hsame j).2] at hn
    exact ⟨hj, hn⟩

/-- The link count of a file changes. -/
theorem Refs.set_nlink {n : ℤ} (h : Refs (ip ::ₘ H) s) (hd : (s.inode ip).type ≠ .dir)
    (hn : ((links s.inode).count ip : ℤ) ≤ n) (hshort : n ≤ SHRT_MAX) (hv : n ≠ 0 ∨ s.valid ip) :
    Refs (ip ::ₘ H) (s.modify ip fun d => { d with nlink := n }) := by
  have hip := h.used ip (Multiset.mem_cons_self _ _)
  refine h.of_inode ?_ (fun j => ?_) rfl rfl (fun j hj => ?_) fun j hj hjn => ?_
  · exact h.tree.set_file hd hd (h.tree.plain ip hd) hn fun hf => absurd hf hip
  · by_cases hji : j = ip
    · subst hji; simpa using hshort
    · simpa [hji] using h.short j
  · by_cases hji : j = ip
    · subst hji; simpa using hip
    · simpa [hji] using h.used j hj
  · by_cases hji : j = ip
    · subst hji
      have hn0 : n = 0 := by simpa using hjn
      exact .inr ⟨hv.resolve_left (absurd hn0), Multiset.mem_cons_self _ _⟩
    · rw [State.modify_inode, update_of_ne hji] at hj hjn
      exact .inl ⟨hj, hjn⟩

theorem dirlink_new (hd : (s.inode dp).type = .dir) (hf : findEnt name (s.inode dp).ents = none) :
    dirlink s dp name i =
      some (true, s.modify dp fun d => { d with ents := addEnt (i, name) d.ents }) := by
  rw [dirlink, dirlookup, if_pos hd, hf]
  rfl

theorem linkDots_spec {n : ℤ} (hi : s.inode ip = ⟨.dir, n, []⟩) :
    linkDots s ip dp = some (s.modify ip fun _ =>
      ⟨.dir, n, [some (ip, dot), some (dp, dotdot)]⟩) := by
  rw [linkDots, dirlink_new (by rw [hi]) (by rw [hi]; rfl), Option.bind_some]
  simp only
  rw [dirlink_new (by simp [State.modify, hi])
    (by simp [State.modify, hi, addEnt, findEnt, dot, dotdot])]
  simp [State.modify, hi, addEnt]

/-- The inodes once there is a new file, or directory, `ip` in the directory `dp`. -/
def created (I : Inum → Inode) (type : FileType) (dp : Inum) (name : Name) (ip : Inum) :
    Inum → Inode :=
  Function.update
    (Function.update I ip
      ⟨type, 1, if type = .dir then [some (ip, dot), some (dp, dotdot)] else []⟩)
    dp ⟨.dir, (I dp).nlink + if type = .dir then 1 else 0, addEnt (ip, name) (I dp).ents⟩

theorem created_self (hne : ip ≠ dp) : created I type dp name ip ip =
    ⟨type, 1, if type = .dir then [some (ip, dot), some (dp, dotdot)] else []⟩ := by
  simp [created, hne]

theorem created_dir : created I type dp name ip dp =
    ⟨.dir, (I dp).nlink + if type = .dir then 1 else 0, addEnt (ip, name) (I dp).ents⟩ := by
  simp [created]

theorem created_of_ne (hi : j ≠ ip) (hd : j ≠ dp) : created I type dp name ip j = I j := by
  simp [created, hi, hd]

theorem createNew_eq {t : State} (hne : ip ≠ dp) (hd : (s.inode dp).type = .dir)
    (hf : findEnt name (s.inode dp).ents = none) (hi : ialloc s type = some (ip, t))
    (hl : ilock t ip = some s') (hs' : s'.inode = (s.alloc ip type).inode) :
    createNew s dp name type =
      some (some ip, iput { s' with inode := created s.inode type dp name ip } dp) := by
  have hs' : s'.inode = update s.inode ip { type := type } := hs'
  have hdp : s'.inode dp = s.inode dp := by rw [hs', update_of_ne hne.symm]
  have hip : s'.inode ip = { type := type } := by rw [hs', update_self]
  have hmap : ∀ J, J ip = created s.inode type dp name ip ip →
      J dp = created s.inode type dp name ip dp → (∀ j, j ≠ ip → j ≠ dp → J j = s'.inode j) →
      J = created s.inode type dp name ip := fun J h₁ h₂ h₃ => by
    funext j
    by_cases hji : j = ip
    · rw [hji, h₁]
    by_cases hjd : j = dp
    · rw [hjd, h₂]
    · rw [h₃ j hji hjd, created_of_ne hji hjd, hs', update_of_ne hji]
  rw [createNew, hi, Option.bind_some]
  simp only [hl, Option.bind_some]
  split_ifs with ht
  · subst ht
    rw [linkDots_spec (by simp [State.modify, hne, hip]; rfl), Option.bind_some,
      dirlink_new (by simp [State.modify, hne.symm, hdp, hd])
        (by simp [State.modify, hne.symm, hdp, hf])]
    simp only [Option.bind_some, State.modify]
    congr 4
    apply hmap
    · simp [hne, created_self]
    · simp [hne.symm, created_dir, hdp, hd]
    · intro j hji hjd
      simp [hji, hjd]
  · rw [Option.bind_some, dirlink_new (by simp [State.modify, hne.symm, hdp, hd])
      (by simp [State.modify, hne.symm, hdp, hf])]
    simp only [Option.bind_some, State.modify]
    congr 4
    apply hmap
    · simp [hne, created_self, hip, ht]
    · simp [hne.symm, created_dir, hdp, hd, ht]
    · intro j hji hjd
      simp [hji, hjd]

theorem Tree.create (h : Tree I) (hd : (I dp).type = .dir) (hip : (I ip).type = .free)
    (htype : type ≠ .free) (hdir : type = .dir → 1 ≤ (I dp).nlink) (name : Name) :
    Tree (created I type dp name ip) := by
  have hne : ip ≠ dp := fun he => by rw [he, hd] at hip; cases hip
  by_cases ht : type = .dir
  · subst ht
    exact h.mkdir hd (hdir rfl) hip (created_self hne) created_dir fun j => created_of_ne
  · have hc : (links I).count ip = 0 := Multiset.count_eq_zero.2 fun hm => h.alloc ip hm hip
    have hfile : (I ip).type ≠ .dir := by rw [hip]; nofun
    have h₁ : Tree (update I ip ⟨type, 1, []⟩) :=
      h.set_file hfile ht rfl (by rw [hc]; simp) fun hf => absurd hf htype
    have hlinks : links (update I ip ⟨type, 1, []⟩) = links I := by
      have hl : (I ip).links = Inode.links ⟨type, 1, []⟩ := by
        rw [Inode.links, h.plain ip hfile, Inode.links]
      have := links_update I ip ⟨type, 1, []⟩
      rwa [hl, add_left_inj] at this
    have h₂ : Tree (update (update I ip ⟨type, 1, []⟩) dp _) :=
      h₁.link_file (i := ip) (by simp [hne.symm, hd]) (by simp [ht]) (by simp [htype])
        (by rw [hlinks, hc]; simp) name
    simpa [hne.symm, created, ht, hd] using h₂

theorem createNew_spec (h : Refs (dp ::ₘ H) s) (hd : (s.inode dp).type = .dir)
    (hf : findEnt name (s.inode dp).ents = none) (htype : type ≠ .free)
    (hdir : type = .dir → 1 ≤ (s.inode dp).nlink ∧ (s.inode dp).nlink < SHRT_MAX)
    (hfree : ∃ i : Inum, 0 < i.val ∧ (s.inode i).type = .free)
    (hroom : s.incore < NINODE ∨ (createNew s dp name type).isSome) :
    ∃ ip s', createNew s dp name type = some (some ip, s') ∧ s'.proc = s.proc ∧
      s'.file = s.file ∧ Refs (ip ::ₘ H) s' := by
  obtain ⟨ip, hip, hi⟩ := ialloc_spec type hfree
  have hne : ip ≠ dp := fun he => by rw [he, hd] at hip; cases hip
  have hget := iget_eq (s := s.alloc ip type) (i := ip) (hroom.imp id fun hc => by
    rw [createNew, hi] at hc
    simpa using Option.isSome_of_isSome_bind hc)
  rw [hget, Option.map_some] at hi
  have hshort : ∀ j, (created s.inode type dp name ip j).nlink ≤ SHRT_MAX := fun j => by
    by_cases hji : j = ip
    · rw [hji, created_self hne]
      exact (by decide : (1 : ℤ) ≤ SHRT_MAX)
    by_cases hjd : j = dp
    · rw [hjd, created_dir]
      simp only
      have := h.short dp
      split_ifs with ht
      · have := (hdir ht).2
        omega
      · omega
    · rw [created_of_ne hji hjd]
      exact h.short j
  have hother : ∀ j, j ≠ ip → (created s.inode type dp name ip j).type = (s.inode j).type ∧
      ((created s.inode type dp name ip j).nlink = 0 → (s.inode j).nlink = 0) := fun j hj => by
    by_cases hjd : j = dp
    · subst hjd
      rw [created_dir, hd]
      refine ⟨rfl, fun hn => ?_⟩
      simp only at hn
      split_ifs at hn with ht
      · have := (hdir ht).1
        omega
      · omega
    · rw [created_of_ne hj hjd]
      exact ⟨rfl, id⟩
  obtain ⟨s', hl, same, refs⟩ := h.alloc hip
    (h.tree.create hd hip htype (fun ht => (hdir ht).1) name) hshort
    (by rw [created_self hne]; exact htype) (by rw [created_self hne]; nofun) hother
  have hl' := ilock_inode (I := (s.alloc ip type).inode) (by simp [State.alloc, htype]) hl
  have he := createNew_eq hne hd hf hi hl' rfl
  refine ⟨ip, _, he, ?_, ?_, ?_⟩
  · rw [iput_proc]; exact same.proc
  · rw [iput_file]; exact same.file
  · refine Refs.iput ?_
    rw [Multiset.cons_swap]
    have hs' : created s.inode type dp name ip = s'.inode := same.inode.symm
    rw [hs']
    exact refs

/-- An inode was free if `create` has found one. -/
theorem exists_free (h : (createNew s dp name type).isSome) :
    ∃ i : Inum, 0 < i.val ∧ (s.inode i).type = .free := by
  rw [createNew, ialloc] at h
  cases hf : (List.finRange NINODES).find? fun i => 0 < i.val ∧ (s.inode i).type = .free with
  | none =>
    rw [hf] at h
    cases h
  | some i =>
    have := List.find?_some hf
    exact ⟨i, of_decide_eq_true this⟩

section Call

variable {p : Slot} {cwd : Inum} {path : List Char}

theorem create_spec (path : List Char) (type : FileType) (h : Refs H s)
    (hcwd : (s.proc p).cwd = some cwd) (hH : cwd ∈ H) (htype : type ≠ .free)
    (hdir : type = .dir → ∀ dp name s', namex s p path true = some (some (dp, name), s') →
      findEnt name (s.inode dp).ents = none →
        (s.inode dp).nlink ≠ 0 ∧ (s.inode dp).nlink < SHRT_MAX)
    (hok : (∃ i : Inum, 0 < i.val ∧ (s.inode i).type = .free) ∧ H.toFinset.card + 2 ≤ NINODE ∨
      (create s p path type).isSome) :
    ∃ r s', create s p path type = some (r, s') ∧ s'.proc = s.proc ∧ s'.file = s.file ∧
      Refs (r.elim H (· ::ₘ H)) s' := by
  rw [create] at hok ⊢
  obtain ⟨r, s₁, he, hr, -⟩ := namex_spec path true h hcwd hH
    (hok.imp And.right Option.isSome_of_isSome_bind)
  rw [he, Option.bind_some] at hok ⊢
  cases hr with
  | fail same refs => exact ⟨none, s₁, rfl, same.proc, same.file, refs⟩
  | @found _ dp name same refs safe dir =>
    obtain ⟨s₂, hl, same₂, refs, -, -⟩ := refs.ilock (Multiset.mem_cons_self _ _)
    have same := same.trans same₂
    have hd : (s₂.inode dp).type = .dir := by rw [same.inode]; exact dir rfl
    have hcard := card_cons_le dp H
    simp only at hok ⊢
    rw [hl, Option.bind_some, dirlookup, if_pos hd, Option.bind_some] at hok ⊢
    cases hf : findEnt name (s₂.inode dp).ents with
    | none =>
      rw [hf] at hok
      obtain ⟨ip, s₃, hc, hproc, hfile, refs⟩ := createNew_spec refs hd hf htype
        (fun ht => by
          have hn := hdir ht dp name s₁ he (by rw [← same.inode]; exact hf)
          have := refs.tree.nlink_nonneg dp
          rw [same.inode] at this ⊢
          omega)
        (hok.elim (fun hi => by rw [same.inode]; exact hi.1) exists_free)
        (hok.imp (fun _ => by rw [refs.incore_eq]; omega) id)
      exact ⟨some ip, s₃, hc, hproc.trans same.proc, hfile.trans same.file, refs⟩
    | some x =>
      obtain ⟨off, ip⟩ := x
      obtain ⟨hip, -⟩ := refs.tree.of_findEnt hd hf
      rw [hf] at hok
      have hget := refs.iget_eq (i := ip) (hok.imp (fun _ => by omega) Option.isSome_of_isSome_bind)
      have refs := refs.take hip
      rw [Multiset.cons_swap] at refs
      obtain ⟨s₃, hl₃, same₃, refs, -, -⟩ := refs.iput.ilock (Multiset.mem_cons_self _ _)
      have hproc : s₃.proc = s.proc := by rw [same₃.proc, iput_proc]; exact same.proc
      have hfile : s₃.file = s.file := by rw [same₃.file, iput_file]; exact same.file
      simp only
      rw [hget, Option.bind_some, hl₃, Option.bind_some]
      split_ifs
      · exact ⟨some ip, s₃, rfl, hproc, hfile, refs⟩
      · exact ⟨none, iput s₃ ip, rfl, by rw [iput_proc, hproc], by rw [iput_file, hfile], refs.iput⟩

/-! ## Links -/

theorem linkBad_spec (h : Refs (ip ::ₘ H) s) (hd : (s.inode ip).type ≠ .dir)
    (hn : ((links s.inode).count ip : ℤ) + 1 ≤ (s.inode ip).nlink) :
    ∃ s', linkBad s ip = some s' ∧ s'.proc = s.proc ∧ s'.file = s.file ∧ Refs H s' := by
  obtain ⟨s₁, hl, same, refs, hv, -⟩ := h.ilock (Multiset.mem_cons_self _ _)
  rw [linkBad, hl, Option.map_some]
  refine ⟨_, rfl, by rw [iput_proc]; exact same.proc, by rw [iput_file]; exact same.file, ?_⟩
  rw [← same.inode] at hd hn
  have := refs.short ip
  exact (refs.set_nlink hd (by omega) (by omega) (.inr hv)).iput

theorem sysLink_spec {new : List Char} (h : Refs H s) (hcwd : (s.proc p).cwd = some cwd)
    (hH : cwd ∈ H)
    (hshort : ∀ ip name s', namex s p path false = some (some (ip, name), s') →
      (s.inode ip).type ≠ .dir → (s.inode ip).nlink < SHRT_MAX)
    (hroom : H.toFinset.card + 3 ≤ NINODE ∨ (sysLink s p path new).isSome) :
    ∃ s', sysLink s p path new = some s' ∧ s'.proc = s.proc ∧ s'.file = s.file ∧ Refs H s' := by
  rw [sysLink] at hroom ⊢
  obtain ⟨r, s₁, he, hr, -⟩ := namex_spec path false h hcwd hH
    (hroom.imp (by omega) Option.isSome_of_isSome_bind)
  rw [he, Option.bind_some] at hroom ⊢
  cases hr with
  | fail same refs => exact ⟨s₁, rfl, same.proc, same.file, refs⟩
  | @found _ ip name same refs safe dir =>
    obtain ⟨s₂, hl, same₂, refs, -, -⟩ := refs.ilock (Multiset.mem_cons_self _ _)
    have same := same.trans same₂
    have hcard := card_cons_le ip H
    simp only at hroom ⊢
    rw [hl, Option.bind_some] at hroom ⊢
    split_ifs at hroom ⊢ with hd
    · exact ⟨iput s₂ ip, rfl, by rw [iput_proc, same.proc], by rw [iput_file, same.file], refs.iput⟩
    have hn := refs.tree.file ip hd
    have hlt : (s₂.inode ip).nlink < SHRT_MAX := by
      rw [same.inode] at hd ⊢
      exact hshort ip name s₁ he hd
    -- the count is one too high until the entry is written
    have refs : Refs (ip ::ₘ H) (s₂.modify ip fun d => { d with nlink := d.nlink + 1 }) :=
      refs.set_nlink hd (by omega) (by omega) (.inl (by omega))
    have hlinks : links (s₂.modify ip fun d => { d with nlink := d.nlink + 1 }).inode =
        links s₂.inode := links_modify rfl
    set s₃ := s₂.modify ip fun d => { d with nlink := d.nlink + 1 } with hs₃
    have hproc : s₃.proc = s.proc := same.proc
    have hfile : s₃.file = s.file := same.file
    have hd₃ : (s₃.inode ip).type ≠ .dir := by simpa [hs₃] using hd
    have hn₃ : ((links s₃.inode).count ip : ℤ) + 1 ≤ (s₃.inode ip).nlink := by
      rw [hlinks, hs₃]
      simpa using hn
    obtain ⟨r, s₄, he, hr, -⟩ := namex_spec new true refs (hproc ▸ hcwd)
      (Multiset.mem_cons_of_mem hH) (hroom.imp (by omega) Option.isSome_of_isSome_bind)
    rw [he, Option.bind_some] at hroom ⊢
    cases hr with
    | fail same₄ refs =>
      rw [← same₄.inode] at hd₃ hn₃
      obtain ⟨s₅, he, hp, hf, refs⟩ := linkBad_spec refs hd₃ hn₃
      exact ⟨s₅, he, hp.trans (same₄.proc.trans hproc), hf.trans (same₄.file.trans hfile), refs⟩
    | @found _ dp name same₄ refs safe dir =>
      obtain ⟨s₅, hl, same₅, refs, -, -⟩ := refs.ilock (Multiset.mem_cons_self _ _)
      have same₅ := same₄.trans same₅
      have hdp : (s₅.inode dp).type = .dir := by rw [same₅.inode]; exact dir rfl
      rw [← same₅.inode] at hd₃ hn₃ safe
      simp only at hroom ⊢
      rw [hl, Option.bind_some] at hroom ⊢
      cases hf : findEnt name (s₅.inode dp).ents with
      | none =>
        rw [dirlink_new hdp hf, Option.bind_some]
        have hip := refs.used ip (by simp)
        have refs := refs.set_ents (refs.tree.link_file hdp hd₃ hip hn₃ name)
        refine ⟨_, rfl, ?_, ?_, refs.iput.iput⟩
        · rw [iput_proc, iput_proc]; exact same₅.proc.trans hproc
        · rw [iput_file, iput_file]; exact same₅.file.trans hfile
      | some x =>
        obtain ⟨off, i⟩ := x
        obtain ⟨hi, hsafe⟩ := refs.tree.of_findEnt hdp hf
        rw [dirlink, dirlookup, if_pos hdp, Option.bind_some, hf] at hroom ⊢
        have hcard' := card_cons_le dp (ip ::ₘ H)
        have hget := refs.iget_eq (i := i)
          (hroom.imp (by omega) fun hc => by simpa using Option.isSome_of_isSome_bind hc)
        have hsafe : i ∈ dp ::ₘ ip ::ₘ H ∨ 1 ≤ ((s₅.take i).inode i).nlink := by
          rcases hsafe with rfl | hn
          · exact .inl (Multiset.mem_cons_self _ _)
          · exact .inr hn
        have refs₆ := refs.take hi
        have same₆ := same₅.trans ((take_same s₅ i).trans (refs₆.iput_same hsafe))
        have refs₆ := refs₆.iput
        rw [same₅.inode, ← same₆.inode] at hd₃ hn₃ safe
        have same₇ := refs₆.iput_same safe
        rw [← same₇.inode] at hd₃ hn₃
        obtain ⟨s₇, he, hp, hf', refs⟩ := linkBad_spec refs₆.iput hd₃ hn₃
        have same₇ := same₆.trans same₇
        simp only [hget, Option.map_some, Option.bind_some]
        exact ⟨s₇, he, hp.trans (same₇.proc.trans hproc), hf'.trans (same₇.file.trans hfile), refs⟩

/-! ## Unlinking -/

/-- The inodes once the entry of `ip` in the directory `dp` is removed. -/
def removed (I : Inum → Inode) (dp ip : Inum) (off : ℕ) : Inum → Inode :=
  Function.update
    (Function.update I dp ⟨(I dp).type, (I dp).nlink - if (I ip).type = .dir then 1 else 0,
      (I dp).ents.set off none⟩)
    ip ⟨(I ip).type, (I ip).nlink - 1, (I ip).ents⟩

theorem removed_self : removed I dp ip off ip = ⟨(I ip).type, (I ip).nlink - 1, (I ip).ents⟩ := by
  simp [removed]

theorem removed_dir (hne : ip ≠ dp) : removed I dp ip off dp =
    ⟨(I dp).type, (I dp).nlink - if (I ip).type = .dir then 1 else 0,
      (I dp).ents.set off none⟩ := by
  simp [removed, hne.symm]

theorem removed_of_ne (hi : j ≠ ip) (hd : j ≠ dp) : removed I dp ip off j = I j := by
  simp [removed, hi, hd]

theorem removed_type (I : Inum → Inode) (dp ip : Inum) (off : ℕ) (j : Inum) :
    (removed I dp ip off j).type = (I j).type := by
  by_cases hi : j = ip
  · rw [hi, removed_self]
  rw [removed, update_of_ne hi]
  by_cases hd : j = dp
  · rw [hd, update_self]
  · rw [update_of_ne hd]

theorem removed_nlink_le (I : Inum → Inode) (dp ip : Inum) (off : ℕ) (j : Inum) :
    (removed I dp ip off j).nlink ≤ (I j).nlink := by
  by_cases hi : j = ip
  · rw [hi, removed_self]
    exact Int.sub_le_self _ Int.one_nonneg
  rw [removed, update_of_ne hi]
  by_cases hd : j = dp
  · rw [hd, update_self]
    exact Int.sub_le_self _ (by split_ifs <;> decide)
  · rw [update_of_ne hd]

theorem removeEnt_eq (hne : ip ≠ dp)
    (hkept : ¬ ((removed s.inode dp ip off dp).nlink = 0 ∧ s.ref dp = 1)) :
    removeEnt s dp ip off =
      iput (iput { s with inode := removed s.inode dp ip off } dp) ip := by
  have hr := iput_eq (s := { s with inode := removed s.inode dp ip off }) hkept
  rw [removed_dir hne] at hkept
  rw [hr, removeEnt]
  simp only [State.modify_inode, ne_eq, hne, not_false_eq_true, update_of_ne]
  -- The directory is written, and nothing is freed with the reference to it.
  split_ifs at hkept ⊢ with ht
  · rw [iput_eq (i := dp) (by simpa [State.modify] using hkept)]
    simp [State.modify, removed, hne, ht]
  · rw [iput_eq (i := dp) (by simpa [State.modify] using hkept)]
    simp [State.modify, removed, hne, ht]

theorem links_of_isdirempty {d : Inode} (h : isdirempty d) : d.links = 0 := by
  have : ∀ l : Dirents, l.all Option.isNone → inums l = 0 := fun l hl => by
    induction l with
    | nil => rfl
    | cons x l ih =>
      cases x with
      | none => exact ih (by simpa using hl)
      | some x => simp at hl
  exact this _ h

/-- What has an entry in a directory is not that directory, if it is empty. -/
theorem ne_of_isdirempty (hempty : (I ip).type = .dir → isdirempty (I ip))
    (hd : (I dp).type = .dir) (hmem : ip ∈ (I dp).links) : ip ≠ dp := by
  rintro rfl
  rw [links_of_isdirempty (hempty hd)] at hmem
  cases Multiset.notMem_zero ip hmem

theorem Tree.remove {o : ℕ} {y z : Option (Inum × Name)} {l : Dirents} (h : Tree I)
    (hd : (I dp).type = .dir) (he : (I dp).ents = y :: z :: l) (hl : findEnt name l = some (o, ip))
    (hempty : (I ip).type = .dir → isdirempty (I ip))
    (hno : (I ip).type = .dir → ∀ j, (I j).type = .dir → (I j).nlink = 0 →
      some (ip, dotdot) ∉ (I j).ents) :
    Tree (removed I dp ip (o + 2)) := by
  have hldp : (I dp).links = inums l := by rw [Inode.links, he]; rfl
  have hmem : ip ∈ (I dp).links := hldp ▸ mem_inums hl
  by_cases ht : (I ip).type = .dir
  · have hlip := links_of_isdirempty (hempty ht)
    have hne : ip ≠ dp := fun he => by
      rw [← he, hlip] at hmem
      cases Multiset.notMem_zero ip hmem
    refine h.rmdir hd he hl ht hlip
      (fun j a l hj hn hej => hno ht j hj hn (by rw [hej]; simp)) ?_ ?_
      fun j => removed_of_ne
    · rw [removed_self, ht]
    · rw [removed_dir hne, hd, if_pos ht, he]
      rfl
  · have hne : ip ≠ dp := fun he => ht (he ▸ hd)
    have h₁ := h.unlink_file hd he ht hl
    have hu := links_update I dp { I dp with ents := y :: z :: l.set o none }
    rw [hldp, ← inums_set hl, Multiset.add_cons, ← Multiset.cons_add] at hu
    have hc : _ = (links I).count ip := congrArg (Multiset.count ip) (add_right_cancel hu)
    rw [Multiset.count_cons_self] at hc
    have hn := h.file ip ht
    have hused : (I ip).type ≠ .free := h.alloc ip (mem_links.2 ⟨dp, hmem⟩)
    have h₂ := h₁.set_file (i := ip) (d := ⟨(I ip).type, (I ip).nlink - 1, (I ip).ents⟩)
      (by simpa [hne] using ht) ht (h.plain ip ht) (by simp only at hc ⊢; omega) fun hf =>
      absurd hf hused
    simpa [removed, hd, ht, he] using h₂

theorem removeEnt_spec {o : ℕ} {y z : Option (Inum × Name)} {l : Dirents}
    (h : Refs (ip ::ₘ dp ::ₘ H) s) (hd : (s.inode dp).type = .dir)
    (he : (s.inode dp).ents = y :: z :: l) (hl : findEnt name l = some (o, ip))
    (hsafe : dp ∈ H ∨ 1 ≤ (s.inode dp).nlink) (hv : s.valid ip)
    (hempty : (s.inode ip).type = .dir → isdirempty (s.inode ip))
    (hno : (s.inode ip).type = .dir → ∀ j, (s.inode j).type = .dir → (s.inode j).nlink = 0 →
      some (ip, dotdot) ∉ (s.inode j).ents) :
    (removeEnt s dp ip (o + 2)).proc = s.proc ∧ (removeEnt s dp ip (o + 2)).file = s.file ∧
      Refs H (removeEnt s dp ip (o + 2)) := by
  have hmem : ip ∈ (s.inode dp).links := by rw [Inode.links, he]; exact mem_inums hl
  have hne := ne_of_isdirempty hempty hd hmem
  have htree := h.tree.remove hd he hl hempty hno
  -- The directory keeps a link, or is held.
  have hlink : (removed s.inode dp ip (o + 2) dp).nlink = 0 → (s.inode dp).nlink = 0 := fun hn => by
    rw [removed_dir hne] at hn
    simp only at hn
    split_ifs at hn with ht
    · have := h.tree.two_le_nlink hd hmem ht
      omega
    · omega
  have hkept : ¬ ((removed s.inode dp ip (o + 2) dp).nlink = 0 ∧ s.ref dp = 1) := fun hn => by
    have hr := h.ref dp
    rw [Multiset.count_cons_of_ne hne.symm, Multiset.count_cons_self, hn.2] at hr
    rcases hsafe with hm | hm
    · have := Multiset.one_le_count_iff_mem.2 hm
      omega
    · have := hlink hn.1
      omega
  have refs : Refs (dp ::ₘ ip ::ₘ H) { s with inode := removed s.inode dp ip (o + 2) } := by
    rw [Multiset.cons_swap]
    refine h.of_inode htree (fun j => (removed_nlink_le ..).trans (h.short j)) rfl rfl
      (fun j hj => by rw [removed_type]; exact h.used j hj) fun j hj hn => ?_
    rw [removed_type] at hj
    by_cases hji : j = ip
    · exact .inr ⟨hji ▸ hv, hji ▸ Multiset.mem_cons_self _ _⟩
    by_cases hjd : j = dp
    · subst hjd
      exact .inl ⟨hj, hlink hn⟩
    · simp only [removed_of_ne hji hjd] at hn
      exact .inl ⟨hj, hn⟩
  rw [removeEnt_eq hne hkept]
  refine ⟨?_, ?_, refs.iput.iput⟩
  · rw [iput_proc, iput_proc]
  · rw [iput_file, iput_file]

theorem sysUnlink_spec (h : Refs H s) (hcwd : (s.proc p).cwd = some cwd) (hH : cwd ∈ H)
    (hno : ∀ dp name s' off ip, namex s p path true = some (some (dp, name), s') →
      ¬ (name = dot ∨ name = dotdot) → findEnt name (s.inode dp).ents = some (off, ip) →
      (s.inode ip).type = .dir → isdirempty (s.inode ip) → ∀ j, (s.inode j).type = .dir →
      (s.inode j).nlink = 0 →
      some (ip, dotdot) ∉ (s.inode j).ents)
    (hroom : H.toFinset.card + 2 ≤ NINODE ∨ (sysUnlink s p path).isSome) :
    ∃ s', sysUnlink s p path = some s' ∧ s'.proc = s.proc ∧ s'.file = s.file ∧ Refs H s' := by
  rw [sysUnlink] at hroom ⊢
  obtain ⟨r, s₁, he, hr, -⟩ := namex_spec path true h hcwd hH
    (hroom.imp id Option.isSome_of_isSome_bind)
  rw [he, Option.bind_some] at hroom ⊢
  cases hr with
  | fail same refs => exact ⟨s₁, rfl, same.proc, same.file, refs⟩
  | @found _ dp name same refs safe dir =>
    obtain ⟨s₂, hl, same₂, refs, -, -⟩ := refs.ilock (Multiset.mem_cons_self _ _)
    have same₂ := same.trans same₂
    have hd : (s₂.inode dp).type = .dir := by rw [same₂.inode]; exact dir rfl
    have hput : (iput s₂ dp).proc = s.proc ∧ (iput s₂ dp).file = s.file ∧ Refs H (iput s₂ dp) :=
      ⟨by rw [iput_proc, same₂.proc], by rw [iput_file, same₂.file], refs.iput⟩
    simp only at hroom ⊢
    rw [hl, Option.bind_some] at hroom ⊢
    split_ifs at hroom ⊢ with hdots
    · exact ⟨_, rfl, hput⟩
    rw [dirlookup, if_pos hd, Option.bind_some] at hroom ⊢
    cases hf : findEnt name (s₂.inode dp).ents with
    | none => exact ⟨_, rfl, hput⟩
    | some x =>
      obtain ⟨off, ip⟩ := x
      rw [hf] at hroom
      have hcard := card_cons_le dp H
      have hget := refs.iget_eq (i := ip)
        (hroom.imp (fun _ => by omega) Option.isSome_of_isSome_bind)
      obtain ⟨P, l, hents, -, -⟩ := refs.tree.shape dp hd
      -- It is one of the links of the directory, and not `.` or `..`.
      obtain ⟨o, rfl, hfl⟩ : ∃ o, off = o + 2 ∧ findEnt name l = some (o, ip) := by
        rw [hents] at hf
        rcases findEnt_cases hf with ⟨h, -⟩ | ⟨h, -⟩ | h
        · exact absurd (.inl h) hdots
        · exact absurd (.inr h) hdots
        · exact h
      have hm : ip ∈ links s₂.inode :=
        mem_links.2 ⟨dp, by rw [Inode.links, hents]; exact mem_inums hfl⟩
      have hn := refs.tree.nlink_pos hm
      obtain ⟨s₃, hl₃, same₃, refs, hv, -⟩ :=
        (refs.take (refs.tree.alloc ip hm)).ilock (Multiset.mem_cons_self _ _)
      have same₃ := (take_same s₂ ip).trans same₃
      have same := same₂.trans same₃
      rw [← same₃.inode] at hn hd hents
      simp only
      rw [hget, Option.bind_some, hl₃, Option.bind_some, if_neg (by omega)]
      split_ifs with hdir
      · refine ⟨_, rfl, ?_, ?_, refs.iput.iput⟩
        · rw [iput_proc, iput_proc, same.proc]
        · rw [iput_file, iput_file, same.file]
      · have hempty : (s₃.inode ip).type = .dir → isdirempty (s₃.inode ip) := fun ht => by
          by_contra hne
          exact hdir ⟨ht, by simpa using hne⟩
        obtain ⟨hp, hfi, refs⟩ :=
          removeEnt_spec refs hd hents hfl (by rw [same.inode]; exact safe) hv
          hempty fun ht => by
            have hemp := hempty ht
            rw [same.inode] at ht hemp ⊢
            rw [same₂.inode] at hf
            exact hno dp name s₁ _ ip he hdots hf ht hemp
        exact ⟨_, rfl, hp.trans same.proc, hfi.trans same.file, refs⟩

end Call

end Xv6.Fs
