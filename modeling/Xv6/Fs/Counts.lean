import Xv6.Fs.Dangling
import Xv6.Fs.Exact

/-!
# Link counts

The calls that make and remove names, with the references that they have in hand (`Counted`). What
a call finds on its way may be gone (the parent of a directory that was unlinked), and then the
call panics; what is said here is about the calls that return.

* `links_exact`: the link count of an inode is the number of its entries in linked directories,
  and an inode without links is in use only as long as a process refers to it, if no name is made
  in a directory that was unlinked (`Rooted`).
* `link_lost`: otherwise the new inode has a link that is in no linked directory, and it is never
  freed.
-/

namespace Xv6.Fs

open TransitionSystem Function

variable {s s' : State} {p : Slot} {cwd i j dp ip : Inum} {name : Name} {off : ℕ}
  {K x e : Multiset Inum} {I : Inum → Inode} {type : FileType} {path : List Char}

/-- The references of a call as in `Kept`; the links `e` are counted and still to be made. -/
structure Counted (K x e : Multiset Inum) (s : State) : Prop extends Kept K x s where
  counts : Exact e s.inode

namespace Counted

/-! ## References -/

theorem congr (h : Counted K x e s) (hs : Untouched s s') : Counted K x e s' :=
  ⟨⟨hs.ref ▸ h.ref, hs.inode ▸ hs.valid ▸ h.kept, hs.inode ▸ hs.valid ▸ h.valid⟩,
    hs.inode ▸ h.counts⟩

/-- Only references come and go. -/
theorem same {K' x' : Multiset Inum} (h : Counted K x e s) (hs : Same s s') (hk : Kept K' x' s') :
    Counted K' x' e s' := ⟨hk, hs.inode ▸ h.counts⟩

theorem keep (h : Counted K (i ::ₘ x) e s) : Counted (i ::ₘ K) x e s :=
    h.same (.refl s) h.toKept.keep

theorem take (h : Counted K x e s) (i : Inum) : Counted K (i ::ₘ x) e (s.take i) :=
  h.same (take_same s i) (h.toKept.take i)

theorem idup (h : Counted K x e s) (i : Inum) : Counted K (i ::ₘ x) e (idup s i) :=
  h.same (idup_same s i) (h.toKept.idup i)

theorem ilock (h : Counted K x e s) (hl : ilock s i = some s') :
    Counted K x e s' ∧ Same s s' ∧ s'.valid i := by
  obtain ⟨hk, hv⟩ := h.toKept.ilock hl
  exact ⟨h.same (ilock_same hl) hk, ilock_same hl, hv⟩

theorem iput (h : Counted K (i ::ₘ x) e s) : Same s (iput s i) ∧ Counted K x e (iput s i) := by
  obtain ⟨hs, hk⟩ := h.toKept.iput
  exact ⟨hs, h.same hs hk⟩

theorem namex {parent : Bool} {r : Option (Inum × Name)} (h : Counted K x e s)
    (he : namex s p path parent = some (r, s')) :
    Same s s' ∧ r = pathTo s p path parent ∧ Counted K (r.elim x fun y => y.1 ::ₘ x) e s' := by
  obtain ⟨hs, hr, hk⟩ := h.toKept.namex he
  exact ⟨hs, hr, h.same hs hk⟩

theorem locked {parent : Bool} {s'' : State} (h : Counted K x e s)
    (hx : Fs.namex s p path parent = some (some (ip, name), s')) (hl : Fs.ilock s' ip = some s'') :
    Same s s'' ∧ pathTo s p path parent = some (ip, name) ∧ Counted K (ip ::ₘ x) e s'' ∧
      s''.valid ip := by
  obtain ⟨hs, hq, hk, hv⟩ := h.toKept.locked hx hl
  exact ⟨hs, hq, h.same hs hk, hv⟩

/-- The inode is freed with the last of the references that keep it. -/
theorem drop (h : Counted (i ::ₘ K) 0 e s) : Counted K 0 e (Fs.iput s i) := by
  by_cases hfree : s.valid i ∧ (s.inode i).nlink = 0 ∧ s.ref i = 1
  · obtain ⟨hv, hn, hr⟩ := hfree
    have hK : i ∉ K := by
      rw [h.ref, Multiset.count_add, Multiset.count_cons_self] at hr
      exact Multiset.count_eq_zero.1 (by omega)
    rw [Fs.iput, if_pos ⟨hv, hn, hr⟩]
    refine ⟨⟨fun j => ?_, fun j hj hjn => ?_, fun j hj => ?_⟩, ?_⟩
    · have hj := h.ref j
      rw [Multiset.add_cons] at hj
      by_cases hji : j = i
      · subst hji
        rw [Multiset.count_cons_self] at hj
        simp only [ifree, update_self]
        omega
      · rw [Multiset.count_cons_of_ne hji] at hj
        simpa [ifree, hji] using hj
    · have hji : j ≠ i := fun he => by simp [ifree, he] at hj
      simp only [ifree, ne_eq, hji, not_false_eq_true, update_of_ne] at hj hjn ⊢
      obtain ⟨hvj, hm⟩ := h.kept j hj hjn
      exact ⟨hvj, (Multiset.mem_cons.1 hm).resolve_left hji⟩
    · have hji : j ≠ i := fun he => by simp [ifree, he] at hj
      simp only [ifree, ne_eq, hji, not_false_eq_true, update_of_ne] at hj ⊢
      exact h.valid j hj
    · refine h.counts.free hn ?_ fun j hj => ?_
      · simp [ifree, hn]
      · simp [ifree, hj]
  · rw [Fs.iput, if_neg hfree]
    refine ⟨⟨fun j => ?_, fun j hj hjn => ?_, h.valid⟩, h.counts⟩
    · have hj := h.ref j
      rw [Multiset.add_cons] at hj
      by_cases hji : j = i
      · subst hji
        rw [Multiset.count_cons_self] at hj
        simp only [update_self]
        omega
      · rw [Multiset.count_cons_of_ne hji] at hj
        simpa [hji] using hj
    · obtain ⟨hv, hm⟩ := h.kept j hj hjn
      refine ⟨hv, (Multiset.mem_cons.1 hm).elim (fun he => ?_) id⟩
      subst he
      have hr := h.ref j
      rw [zero_add, Multiset.count_cons_self] at hr
      have hr1 : s.ref j ≠ 1 := fun h1 => hfree ⟨hv, hjn, h1⟩
      exact Multiset.count_pos.1 (by omega)

end Counted

theorem countedLogic : RefLogic fun H s => Counted H 0 0 s where
  congr h hs := h.congr hs
  iput := Counted.drop
  idup h _ := (h.idup _).keep

/-! ## Paths -/

/-- A new name for the path would be in a linked directory. -/
def InLinked (s : State) (p : Slot) (path : List Char) : Prop :=
  ∀ y ∈ pathTo s p path true, findEnt y.2 (s.inode y.1).ents = none → (s.inode y.1).nlink ≠ 0

instance (s : State) (p : Slot) (path : List Char) : Decidable (InLinked s p path) :=
  inferInstanceAs (Decidable (∀ y ∈ pathTo s p path true, _))

theorem of_ialloc (h : ialloc s type = some (ip, s')) : (s.inode ip).type = .free ∧
    s' = (s.alloc ip type).take ip := by
  rw [ialloc, Option.bind_eq_some_iff] at h
  obtain ⟨i, hfind, h⟩ := h
  obtain ⟨t, ht, he⟩ := Option.map_eq_some_iff.1 h
  obtain ⟨rfl, rfl⟩ := Prod.mk.inj he
  have hfree := List.find?_some hfind
  simp only [decide_eq_true_eq] at hfree
  exact ⟨hfree.2, eq_take ht⟩

namespace Counted

/-! ## New names -/

/-- The inodes change; one without links is kept as before. -/
theorem of_inode {e' : Multiset Inum} {d : Inum → List UInt8} (h : Counted K x e s)
    (hI : Exact e' I)
    (hvalid : ∀ i, (s.inode i).type ≠ .free → (I i).type ≠ .free)
    (hkept : ∀ i, (I i).type ≠ .free → (I i).nlink = 0 →
      (s.inode i).type ≠ .free ∧ (s.inode i).nlink = 0 ∨ s.valid i ∧ i ∈ K) :
    Counted K x e' { s with inode := I, data := d } :=
  ⟨⟨h.ref, fun i hi hn => (hkept i hi hn).elim (fun hk => h.kept i hk.1 hk.2) id,
    fun i hi => hvalid i (h.valid i hi)⟩, hI⟩

theorem createNew {r : Option Inum} (h : Counted K (dp ::ₘ x) e s) (hd : (s.inode dp).type = .dir)
    (hn : (s.inode dp).nlink ≠ 0) (hf : findEnt name (s.inode dp).ents = none)
    (htype : type ≠ .free) (he : createNew s dp name type = some (r, s')) :
    s'.proc = s.proc ∧ s'.file = s.file ∧ Counted K (r.elim x (· ::ₘ x)) e s' := by
  -- the new inode, and its lock
  obtain ⟨⟨ip, s₁⟩, hi, hrest⟩ := Option.bind_eq_some_iff.1 he
  obtain ⟨s₂, hl, -⟩ := Option.bind_eq_some_iff.1 hrest
  obtain ⟨hfree, rfl⟩ := of_ialloc hi
  have hne : ip ≠ dp := fun he => by rw [he, hd] at hfree; cases hfree
  have hnew : (created s.inode type dp name ip ip).type ≠ .free := by
    rw [created_self hne]; exact htype
  have hsame := ilock_same hl
  -- with the names made at once
  rw [createNew_eq hne hd hf hi hl hsame.inode] at he
  obtain ⟨rfl, rfl⟩ := Prod.mk.inj (Option.some.inj he)
  have hI : Counted K (dp ::ₘ x) e
      { s.alloc ip type with inode := created s.inode type dp name ip } := by
    refine h.of_inode (h.counts.create hd hn hfree htype hf) (fun j hj => ?_) fun j hj hjn =>
      .inl ?_
    · by_cases hji : j = ip
      · rw [hji]; exact hnew
      by_cases hjd : j = dp
      · rw [hjd, created_dir]; nofun
      · rwa [created_of_ne hji hjd]
    · have hji : j ≠ ip := fun he => by
        rw [he, created_self hne] at hjn
        cases hjn
      have hjd : j ≠ dp := fun he => by
        have := h.counts.nlink_nonneg dp
        rw [he, created_dir] at hjn
        simp only at hjn
        split_ifs at hjn <;> omega
      rw [created_of_ne hji hjd] at hj hjn
      exact ⟨hj, hjn⟩
  obtain ⟨h₂, -, -⟩ := (hI.take ip).ilock (ilock_inode hnew hl)
  rw [Multiset.cons_swap] at h₂
  refine ⟨?_, ?_, h₂.iput.2⟩
  · rw [iput_proc]; exact hsame.proc
  · rw [iput_file]; exact hsame.file

theorem create {r : Option Inum} (h : Counted K x e s) (htype : type ≠ .free)
    (hnew : InLinked s p path)
    (he : create s p path type = some (r, s')) :
    s'.proc = s.proc ∧ s'.file = s.file ∧ Counted K (r.elim x (· ::ₘ x)) e s' := by
  obtain ⟨-, same, hk⟩ | ⟨dp, name, s₂, hq, same, hk, hf, he⟩ := h.toKept.create_cases he
  · exact ⟨same.proc, same.file, h.same same hk⟩
  · have hd : (s₂.inode dp).type = .dir := by rw [same.inode]; exact pathTo_dir hq
    have hn := hnew (dp, name) hq
    rw [← same.inode] at hn
    obtain ⟨hp, hfi, h'⟩ := (h.same same hk).createNew hd (hn hf) hf htype he
    exact ⟨hp.trans same.proc, hfi.trans same.file, h'⟩

/-- The link count of a file changes, with the links that are to be made. -/
theorem set_nlink (h : Counted K x e s) (n : ℤ) (e' : Multiset Inum)
    (hd : (s.inode ip).type ≠ .dir) (hused : (s.inode ip).type ≠ .free)
    (hn : n = (links s.inode).count ip + e'.count ip) (he : ∀ j, j ≠ ip → e'.count j = e.count j)
    (hkept : n = 0 → s.valid ip ∧ ip ∈ K) :
    Counted K x e' (s.modify ip fun d => { d with nlink := n }) := by
  refine h.of_inode (h.counts.set_nlink hd hused hn he) (fun j hj => ?_) fun j hj hjn => ?_
  · by_cases hji : j = ip
    · subst hji; simpa using hj
    · simpa [hji] using hj
  · by_cases hji : j = ip
    · subst hji
      exact .inr (hkept (by simpa using hjn))
    · rw [update_of_ne hji] at hj hjn
      exact .inl ⟨hj, hjn⟩

/-- The link that was counted is not made. -/
theorem linkBad (h : Counted K (ip ::ₘ 0) (ip ::ₘ e) s) (he : linkBad s ip = some s') :
    s'.proc = s.proc ∧ s'.file = s.file ∧ Counted K 0 e s' := by
  obtain ⟨s₁, hl, rfl⟩ := Option.map_eq_some_iff.1 he
  obtain ⟨h₁, same, hv⟩ := h.ilock hl
  obtain ⟨hd, hused⟩ := h₁.counts.pending ip (Multiset.mem_cons_self _ _)
  have hn := h₁.counts.file ip hd
  rw [Multiset.count_cons_self] at hn
  have h₂ := h₁.keep.set_nlink ((s₁.inode ip).nlink - 1) e hd hused
    (by push_cast at hn; omega) (fun j hj => (Multiset.count_cons_of_ne hj _).symm)
    fun _ => ⟨hv, Multiset.mem_cons_self _ _⟩
  refine ⟨?_, ?_, h₂.drop⟩
  · rw [iput_proc]; exact same.proc
  · rw [iput_file]; exact same.file

/-- The link that was counted is made, if the name is new. -/
theorem dirlink {ok : Bool} (h : Counted K x (ip ::ₘ e) s) (hd : (s.inode dp).type = .dir)
    (hn : findEnt name (s.inode dp).ents = none → (s.inode dp).nlink ≠ 0)
    (he : dirlink s dp name ip = some (ok, s')) :
    s'.proc = s.proc ∧ s'.file = s.file ∧ Counted K x (if ok then e else ip ::ₘ e) s' := by
  cases hf : findEnt name (s.inode dp).ents with
  | none =>
    rw [dirlink_new hd hf] at he
    obtain ⟨rfl, rfl⟩ := Prod.mk.inj (Option.some.inj he)
    refine ⟨rfl, rfl, h.of_inode (h.counts.link hd (hn hf) hf) (fun j hj => ?_) fun j hj hjn =>
      .inl ?_⟩
    · by_cases hjd : j = dp
      · subst hjd; simpa using hj
      · simpa [hjd] using hj
    · by_cases hjd : j = dp
      · subst hjd
        simp only [update_self] at hj hjn
        exact ⟨hj, hjn⟩
      · rw [update_of_ne hjd] at hj hjn
        exact ⟨hj, hjn⟩
  | some y =>
    obtain ⟨o, i⟩ := y
    rw [Fs.dirlink, dirlookup, if_pos hd, Option.bind_some, hf] at he
    obtain ⟨t, ht, he⟩ := Option.map_eq_some_iff.1 he
    obtain rfl := eq_take ht
    obtain ⟨rfl, rfl⟩ := Prod.mk.inj he
    obtain ⟨same, h'⟩ := (h.take i).iput
    have same := (take_same s i).trans same
    exact ⟨same.proc, same.file, h'⟩

theorem sysLink {new : List Char} (h : Counted K 0 0 s)
    (hnew : InLinked s p new)
    (he : sysLink s p path new = some s') :
    s'.proc = s.proc ∧ s'.file = s.file ∧ Counted K 0 0 s' := by
  obtain ⟨⟨q, s₁⟩, hx, he⟩ := Option.bind_eq_some_iff.1 he
  cases q with
  | none =>
    obtain rfl := Option.some.inj he
    obtain ⟨same, -, h₁⟩ := h.namex hx
    exact ⟨same.proc, same.file, h₁⟩
  | some y =>
    obtain ⟨ip, name⟩ := y
    obtain ⟨s₂, hl, he⟩ := Option.bind_eq_some_iff.1 he
    obtain ⟨same, -, h₂, hv⟩ := h.locked hx hl
    split_ifs at he with hd
    · obtain rfl := Option.some.inj he
      have same := same.trans h₂.iput.1
      exact ⟨same.proc, same.file, h₂.iput.2⟩
    -- the link is counted before it is made
    have hn := h₂.counts.file ip hd
    have h₃ := h₂.set_nlink ((s₂.inode ip).nlink + 1) (ip ::ₘ 0) hd (h₂.valid ip hv)
      (by
        rw [Multiset.count_zero] at hn
        rw [Multiset.count_cons_self, Multiset.count_zero, hn]
        rfl)
      (fun j hj => Multiset.count_cons_of_ne hj _) (by omega)
    obtain ⟨⟨q, s₄⟩, hx, he⟩ := Option.bind_eq_some_iff.1 he
    cases q with
    | none =>
      obtain ⟨same₄, -, h₄⟩ := h₃.namex hx
      obtain ⟨hp, hf, h'⟩ := h₄.linkBad he
      exact ⟨hp.trans (same₄.proc.trans same.proc), hf.trans (same₄.file.trans same.file), h'⟩
    | some y =>
      obtain ⟨dp, name'⟩ := y
      obtain ⟨s₅, hl₅, he⟩ := Option.bind_eq_some_iff.1 he
      obtain ⟨⟨ok, s₆⟩, hdl, he⟩ := Option.bind_eq_some_iff.1 he
      obtain ⟨same₅, hq, h₅, -⟩ := h₃.locked hx hl₅
      have hdp : (s₅.inode dp).type = .dir := by rw [same₅.inode]; exact pathTo_dir hq
      have hlookup : ∀ i, ((s₂.modify ip fun d => { d with nlink := (s₂.inode ip).nlink + 1 }).inode
          i).type = (s.inode i).type ∧
          ((s₂.modify ip fun d => { d with nlink := (s₂.inode ip).nlink + 1 }).inode i).ents =
          (s.inode i).ents := fun i => by
        by_cases hi : i = ip
        · subst hi; simp [same.inode]
        · simp [hi, same.inode]
      have hlink : findEnt name' (s₅.inode dp).ents = none → (s₅.inode dp).nlink ≠ 0 := by
        have hne : dp ≠ ip := by
          rintro rfl
          rw [same₅.inode, (hlookup dp).1, ← same.inode] at hdp
          exact hd hdp
        have hto : pathTo s p new true = some (dp, name') :=
          (pathTo_congr (by rw [State.modify, same.proc]) hlookup).symm.trans hq
        rw [same₅.inode, (hlookup dp).2, State.modify_inode, update_of_ne hne, same.inode]
        exact hnew (dp, name') hto
      obtain ⟨hp, hf, h₆⟩ := h₅.dirlink hdp hlink hdl
      have hp := hp.trans (same₅.proc.trans same.proc)
      have hf := hf.trans (same₅.file.trans same.file)
      obtain ⟨same₇, h₇⟩ := h₆.iput
      cases ok with
      | false =>
        rw [if_neg Bool.false_ne_true] at h₇
        obtain ⟨hp', hf', h'⟩ := h₇.linkBad he
        exact ⟨hp'.trans (same₇.proc.trans hp), hf'.trans (same₇.file.trans hf), h'⟩
      | true =>
        obtain rfl := Option.some.inj he
        have same := same₇.trans h₇.iput.1
        exact ⟨same.proc.trans hp, same.file.trans hf, h₇.iput.2⟩

/-! ## Unlinking -/

theorem removeEnt {o : ℕ} {P : Inum} {l : Dirents}
    (h : Counted K (ip ::ₘ dp ::ₘ 0) 0 s) (hd : (s.inode dp).type = .dir)
    (hents : (s.inode dp).ents = some (dp, dot) :: some (P, dotdot) :: l)
    (hl : findEnt name l = some (o, ip))
    (hv : s.valid ip) (hempty : (s.inode ip).type = .dir → isdirempty (s.inode ip)) :
    (removeEnt s dp ip (o + 2)).proc = s.proc ∧ (removeEnt s dp ip (o + 2)).file = s.file ∧
      Counted K 0 0 (removeEnt s dp ip (o + 2)) := by
  have hldp : ip ∈ (s.inode dp).links := by rw [Inode.links, hents]; exact mem_inums hl
  have hne := ne_of_isdirempty hempty hd hldp
  have hdp := h.counts.removed_linked hd hldp hne (o + 2)
  have h₁ : Counted (ip ::ₘ K) (dp ::ₘ 0) 0 { s with inode := removed s.inode dp ip (o + 2) } := by
    refine h.keep.of_inode (h.counts.remove hd hents hl hempty)
      (fun j hj => by rwa [removed_type]) fun j hj hjn => ?_
    by_cases hji : j = ip
    · exact .inr ⟨hji ▸ hv, hji ▸ Multiset.mem_cons_self _ _⟩
    have hjd : j ≠ dp := fun he => hdp (he ▸ hjn)
    rw [removed_of_ne hji hjd] at hj hjn
    exact .inl ⟨hj, hjn⟩
  rw [removeEnt_eq hne fun hn => hdp hn.1]
  refine ⟨?_, ?_, h₁.iput.2.drop⟩
  · rw [iput_proc, iput_proc]
  · rw [iput_file, iput_file]

theorem sysUnlink (h : Counted K 0 0 s) (he : sysUnlink s p path = some s') :
    s'.proc = s.proc ∧ s'.file = s.file ∧ Counted K 0 0 s' := by
  obtain ⟨⟨q, s₁⟩, hx, he⟩ := Option.bind_eq_some_iff.1 he
  cases q with
  | none =>
    obtain rfl := Option.some.inj he
    obtain ⟨same, -, h₁⟩ := h.namex hx
    exact ⟨same.proc, same.file, h₁⟩
  | some y =>
    obtain ⟨dp, name⟩ := y
    obtain ⟨s₂, hl, he⟩ := Option.bind_eq_some_iff.1 he
    obtain ⟨same, hq, h₂, -⟩ := h.locked hx hl
    have hd : (s₂.inode dp).type = .dir := by rw [same.inode]; exact pathTo_dir hq
    have hput : (Fs.iput s₂ dp).proc = s.proc ∧ (Fs.iput s₂ dp).file = s.file ∧
        Counted K 0 0 (Fs.iput s₂ dp) := by
      obtain ⟨same₃, h₃⟩ := h₂.iput
      exact ⟨same₃.proc.trans same.proc, same₃.file.trans same.file, h₃⟩
    split_ifs at he with hdots
    · exact Option.some.inj he ▸ hput
    rw [dirlookup, if_pos hd, Option.bind_some] at he
    cases hf : findEnt name (s₂.inode dp).ents with
    | none =>
      rw [hf] at he
      exact Option.some.inj he ▸ hput
    | some y =>
      obtain ⟨off, ip⟩ := y
      rw [hf] at he
      obtain ⟨t, ht, he⟩ := Option.bind_eq_some_iff.1 he
      obtain rfl := eq_take ht
      obtain ⟨s₃, hl₃, he⟩ := Option.bind_eq_some_iff.1 he
      obtain ⟨h₃, same₃, hv⟩ := (h₂.take ip).ilock hl₃
      have same₃ := (take_same s₂ ip).trans same₃
      have same := same.trans same₃
      split_ifs at he with hn hne
      · obtain rfl := Option.some.inj he
        obtain ⟨same₄, h₄⟩ := h₃.iput
        obtain ⟨same₅, h₅⟩ := h₄.iput
        have same := same.trans (same₄.trans same₅)
        exact ⟨same.proc, same.file, h₅⟩
      · obtain rfl := Option.some.inj he
        rw [← same₃.inode] at hd hf
        have hempty : (s₃.inode ip).type = .dir → isdirempty (s₃.inode ip) := fun ht => by
          by_contra hno
          exact hne ⟨ht, by simpa using hno⟩
        obtain ⟨P, l, hents⟩ := h₃.counts.shape dp hd
        -- It is one of the links of the directory, and not `.` or `..`.
        obtain ⟨o, rfl, hfl⟩ : ∃ o, off = o + 2 ∧ findEnt name l = some (o, ip) := by
          rw [hents] at hf
          rcases findEnt_cases hf with ⟨h, -⟩ | ⟨h, -⟩ | h
          · exact absurd (.inl h) hdots
          · exact absurd (.inr h) hdots
          · exact h
        obtain ⟨hp, hfi, h'⟩ := h₃.removeEnt hd hents hfl hv hempty
        exact ⟨hp.trans same.proc, hfi.trans same.file, h'⟩

end Counted

/-! ## The system -/

/-- The file system between calls, with exact counts. -/
abbrev Counting (s : State) : Prop := Held (fun H => Counted H 0 0) s

/-- No name is made in a directory that was unlinked. -/
def Rooted (s : State) (a : Slot × Op) : Prop :=
  match a.2 with
  | .open path creat _ => creat → InLinked s a.1 path
  | .mkdir path | .mknod path | .link _ path => InLinked s a.1 path
  | _ => True

instance (s : State) (a : Slot × Op) : Decidable (Rooted s a) :=
  match a with
  | (p, .open path creat _) => inferInstanceAs (Decidable (creat → InLinked s p path))
  | (p, .mkdir path) | (p, .mknod path) | (p, .link _ path) =>
    inferInstanceAs (Decidable (InLinked s p path))
  | (_, .unlink _) | (_, .chdir _) | (_, .close _) | (_, .fork _) | (_, .exit) => .isTrue trivial

namespace Counting

/-- The reference in hand goes away, if there is one. -/
theorem put {r : Option Inum} (h : Counting s) (hp : s'.proc = s.proc) (hf : s'.file = s.file)
    (refs : Counted (holders s) (r.elim 0 (· ::ₘ 0)) 0 s') : Counting (r.elim s' (iput s')) := by
  cases r with
  | none => exact h.of_refs hp hf refs
  | some i => exact h.of_refs (iput_proc.trans hp) (iput_file.trans hf) refs.iput.2

theorem openInode (h : Counting s) (hcwd : (s.proc p).cwd = some cwd) (hp : s'.proc = s.proc)
    (hf : s'.file = s.file) (refs : Counted (holders s) (ip ::ₘ 0) 0 s') {t : State}
    (he : openInode s' p ip = some t) : Counting t := by
  obtain ⟨t', ht, h'⟩ := openInode_spec countedLogic h hcwd hp hf refs.keep
  rw [ht] at he
  exact Option.some.inj he ▸ h'

theorem sysOpen {creat rdonly : Bool} (h : Counting s) (hcwd : (s.proc p).cwd = some cwd)
    (hnew : creat → InLinked s p path) (he : sysOpen s p path creat rdonly = some s') :
    Counting s' := by
  rw [Fs.sysOpen] at he
  split_ifs at he with hc
  · obtain ⟨⟨r, s₁⟩, hx, he⟩ := Option.bind_eq_some_iff.1 he
    obtain ⟨hp, hf, h₁⟩ := h.refs.create (by simp) (hnew hc) hx
    cases r with
    | none => exact Option.some.inj he ▸ h.of_refs hp hf h₁
    | some ip => exact h.openInode hcwd hp hf h₁ he
  · obtain ⟨⟨r, s₁⟩, hx, he⟩ := Option.bind_eq_some_iff.1 he
    cases r with
    | none =>
      obtain ⟨same, -, h₁⟩ := h.refs.namex hx
      exact Option.some.inj he ▸ h.of_refs same.proc same.file h₁
    | some y =>
      obtain ⟨s₂, hl, he⟩ := Option.bind_eq_some_iff.1 he
      obtain ⟨same, -, h₂, -⟩ := h.refs.locked hx hl
      split_ifs at he
      · obtain ⟨same₃, h₃⟩ := h₂.iput
        have same := same.trans same₃
        exact Option.some.inj he ▸ h.of_refs same.proc same.file h₃
      · exact h.openInode hcwd same.proc same.file h₂ he

theorem sysChdir (h : Counting s) (hcwd : (s.proc p).cwd = some cwd)
    (he : sysChdir s p path = some s') : Counting s' := by
  obtain ⟨⟨r, s₁⟩, hx, he⟩ := Option.bind_eq_some_iff.1 he
  cases r with
  | none =>
    obtain ⟨same, -, h₁⟩ := h.refs.namex hx
    exact Option.some.inj he ▸ h.of_refs same.proc same.file h₁
  | some y =>
    obtain ⟨ip, name⟩ := y
    obtain ⟨s₂, hl, he⟩ := Option.bind_eq_some_iff.1 he
    obtain ⟨same, -, h₂, -⟩ := h.refs.locked hx hl
    split_ifs at he with hd
    · obtain ⟨same₃, h₃⟩ := h₂.iput
      have same := same.trans same₃
      exact Option.some.inj he ▸ h.of_refs same.proc same.file h₃
    · rw [same.proc, hcwd, Option.map_some] at he
      obtain rfl := Option.some.inj he
      refine .setCwd countedLogic ?_ ?_ nofun ?_
      · have hu := holders_setCwd (s := iput s₂ cwd) (p := p) (some ip)
        rw [iput_proc, same.proc, hcwd, holders_iput, same.holders, Option.elim_some,
          Option.elim_some] at hu
        have refs := h₂.keep
        rw [← Multiset.singleton_add, add_comm, ← hu, add_comm, Multiset.singleton_add] at refs
        exact refs.drop
      · exact h.files.congr (fds_congr fun q => by rw [iput_proc, same.proc])
          (by rw [iput_file, same.file])
      · rw [iput_proc, same.proc]
        exact fun q _ => h.gone q

/-- A call that returns keeps the counts. -/
theorem run {op : Op} (h : Counting s) (hcwd : (s.proc p).cwd = some cwd) (hop : Rooted s (p, op))
    (he : op.run s p = some s') : Counting s' := by
  have hspec : (∃ t, op.run s p = some t ∧ Counting t) → Counting s' := by
    rintro ⟨t, ht, h'⟩
    rw [he] at ht
    exact Option.some.inj ht ▸ h'
  cases op with
  | «open» path creat rdonly => exact h.sysOpen hcwd hop he
  | mkdir path =>
    obtain ⟨⟨r, s₁⟩, hx, rfl⟩ := Option.map_eq_some_iff.1 he
    obtain ⟨hp, hf, h₁⟩ := h.refs.create (by nofun) hop hx
    exact h.put hp hf h₁
  | mknod path =>
    obtain ⟨⟨r, s₁⟩, hx, rfl⟩ := Option.map_eq_some_iff.1 he
    obtain ⟨hp, hf, h₁⟩ := h.refs.create (by nofun) hop hx
    exact h.put hp hf h₁
  | link old new =>
    obtain ⟨hp, hf, h₁⟩ := h.refs.sysLink hop he
    exact h.of_refs hp hf h₁
  | unlink path =>
    obtain ⟨hp, hf, h₁⟩ := h.refs.sysUnlink he
    exact h.of_refs hp hf h₁
  | chdir path => exact h.sysChdir hcwd he
  | close fd => exact hspec (sysClose_spec countedLogic h hcwd)
  | fork np =>
    refine hspec (fork_spec countedLogic h hcwd ?_)
    by_contra hnp
    rw [Op.run, fork, if_pos (Option.isSome_iff_ne_none.2 hnp)] at he
    cases he
  | exit => exact hspec (exit_spec countedLogic h hcwd)

end Counting

theorem exact_mkfs : Exact 0 mkfs.inode := by
  have hlinks : links mkfs.inode = 0 := Multiset.eq_zero_of_forall_notMem fun i hi => by
    obtain ⟨j, hj⟩ := mem_links.1 hi
    rw [links_mkfs] at hj
    exact Multiset.notMem_zero i hj
  refine ⟨tree_mkfs.mend, fun i hi => ?_, fun i hi => ?_, nofun, fun i _ _ => links_mkfs i,
    fun i y hy => ?_⟩
  · obtain ⟨P, l, he, -, -⟩ := tree_mkfs.shape i hi
    exact ⟨P, l, he⟩
  · have hne : i ≠ ROOTINO := fun he => hi (he ▸ rfl)
    rw [hlinks, mkfs_of_ne hne]
    rfl
  · by_cases hi : i = ROOTINO
    · subst hi
      change some y ∈ some (ROOTINO, dotdot) :: List.replicate 30 none at hy
      obtain hy | hy := List.mem_cons.1 hy
      · rw [Option.some.inj hy]
        exact (by decide : dotdot ≠ dot)
      · cases List.eq_of_mem_replicate hy
    · rw [mkfs_of_ne hi] at hy
      cases hy

theorem counting_mkfs : Counting mkfs :=
  ⟨⟨⟨fun i => by rw [zero_add]; exact inv_mkfs.refs.ref i, inv_mkfs.refs.kept, nofun⟩, exact_mkfs⟩,
    inv_mkfs.files, inv_mkfs.gone⟩

theorem counting_of_reachable (h : fsys.Reachable Rooted s) : Counting s := by
  refine h.invariant (fun s hs => hs ▸ counting_mkfs) fun s a s' hi hop hstep => ?_
  obtain ⟨p, op⟩ := a
  rw [fsys] at hstep
  simp only at hstep
  split_ifs at hstep with hc
  obtain ⟨cwd, hcwd⟩ := Option.isSome_iff_exists.1 hc
  exact hi.run hcwd hop hstep

/-- If no name is made in a directory that was unlinked, the link count of an inode is the number
    of entries for it, other than `.`, in the directories that are linked; and an inode to which
    no process refers is in use only if it has a link. -/
theorem links_exact (h : fsys.Reachable Rooted s) (i : Inum) (hi : (s.inode i).type ≠ .free) :
    (s.inode i).nlink = entries s.inode i ∧
      ((∀ p, (s.proc p).cwd ≠ some i) →
        (∀ p fd f, (s.proc p).ofile fd = some f → (s.file f).ip ≠ some i) →
        0 < (s.inode i).nlink) := by
  have hs := counting_of_reachable h
  refine ⟨hs.refs.counts.nlink_eq i, fun hcwd hfile => ?_⟩
  by_contra hn
  have hn0 : (s.inode i).nlink = 0 := by
    have := hs.refs.counts.nlink_nonneg i
    omega
  obtain hK | hK := Multiset.mem_add.1 (hs.refs.kept i hi hn0).2
  · obtain ⟨p, j, hj, hm⟩ := mem_held.1 hK
    exact hcwd p (by rw [hj, Multiset.mem_singleton.1 hm])
  · obtain ⟨f, j, hj, hm⟩ := mem_held.1 hK
    have href : (s.file f).ref ≠ 0 := fun h0 => by
      rw [hs.files.closed f h0] at hj
      cases hj
    rw [hs.files.ref, add_zero, Multiset.count_ne_zero] at href
    obtain ⟨⟨p, fd⟩, g, hg, hm'⟩ := mem_held.1 href
    obtain rfl := Multiset.mem_singleton.1 hm'
    exact hfile p fd f hg (by rw [hj, Multiset.mem_singleton.1 hm])

/-- A directory, a file in it and a link to the file, of which the first name is removed. -/
theorem links_exact_link : ∃ s, fsys.Reachable Rooted s ∧ (s.inode 3).type = .file ∧
    (s.inode 3).nlink = 1 ∧ (s.inode 3).nlink = entries s.inode 3 := by
  obtain ⟨s, hs, hP⟩ := exists_reachable (S := fsys) rfl
    (show (fsys.exec Rooted mkfs [(0, .mkdir ['a']), (0, .open ['a', '/', 'f'] true false),
        (0, .link ['a', '/', 'f'] ['g']), (0, .unlink ['a', '/', 'f'])]).any
      (fun s => decide ((s.inode 3).type = .file ∧ (s.inode 3).nlink = 1)) by decide +kernel)
  obtain ⟨ht, hn⟩ := of_decide_eq_true hP
  exact ⟨s, hs, ht, hn, (links_exact hs 3 (by rw [ht]; nofun)).1⟩

/-- In the same runs, between calls, an inode has a reference of each process whose current
    directory it is and of each open file on it, and no others. -/
theorem refs_exact (h : fsys.Reachable Rooted s) (i : Inum) :
    s.ref i = (Finset.univ.filter fun p => (s.proc p).cwd = some i).card +
      (Finset.univ.filter fun f => (s.file f).ip = some i).card := by
  rw [(counting_of_reachable h).refs.ref, zero_add, holders, Multiset.count_add,
    count_held_singleton, count_held_singleton]

/-- A directory that is open and the current one. -/
theorem refs_exact_chdir : ∃ s, fsys.Reachable Rooted s ∧
    (Finset.univ.filter fun p => (s.proc p).cwd = some 2).card +
      (Finset.univ.filter fun f => (s.file f).ip = some 2).card = 2 := by
  obtain ⟨s, hs, hP⟩ := exists_reachable (S := fsys) rfl
    (show (fsys.exec Rooted mkfs [(0, .mkdir ['a']), (0, .open ['a'] false true),
        (0, .chdir ['a'])]).any (fun s => decide (s.ref 2 = 2)) by decide +kernel)
  exact ⟨s, hs, (refs_exact hs 2).symm.trans (of_decide_eq_true hP)⟩

/-- A file that is made in the current directory after it was removed has a link, but no entry in
    a linked directory. It is not freed when the process has left the directory and closed it. -/
theorem link_lost : ∃ s, fsys.Reachable Any s ∧ (s.inode 3).type = .file ∧
    (s.inode 3).nlink = 1 ∧ entries s.inode 3 = 0 ∧ (∀ p, (s.proc p).cwd ≠ some 3) ∧
    (∀ f, (s.file f).ip ≠ some 3) ∧ (s.inode 2).type = .free := by
  obtain ⟨s, hs, hP⟩ := exists_reachable (S := fsys) rfl
    (show (fsys.exec Any mkfs [(0, .mkdir ['a']), (0, .chdir ['a']),
        (0, .unlink ['/', 'a']), (0, .open ['f'] true false), (0, .close 0), (0, .chdir ['/'])]).any
      (fun s => decide ((s.inode 3).type = .file ∧ (s.inode 3).nlink = 1 ∧
        entries s.inode 3 = 0 ∧ (∀ p, (s.proc p).cwd ≠ some 3) ∧ (∀ f, (s.file f).ip ≠ some 3) ∧
        (s.inode 2).type = .free)) by decide +kernel)
  exact ⟨s, hs, of_decide_eq_true hP⟩

end Xv6.Fs
