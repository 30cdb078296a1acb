import Mathlib.Algebra.BigOperators.Group.Finset.Piecewise
import Xv6.File.Table

/-!
# References to open files

A file is referred to by the entries of the open files of processes, and by a call that has it in
hand. Each function of the source keeps the count of these references (`Inv`), and with it the
state of the pipes: an end of a pipe is one file, until the last reference to it is dropped.

* `file_refs`: between calls, the count of a file is the number of its entries, and a pipe is open
  at an end as long as a file is that end; its page is freed once, with the last end.
* `Inv.run`: no call panics.
-/

namespace Xv6.Ftable

open TransitionSystem Function

variable {s s' : State} {p np : Slot} {f g f0 f1 : Fin NFILE} {fd : Fin NOFILE} {v : Addr}
    {w : Bool}
  {y : Multiset (Fin NFILE)}

/-- The open files of all processes. -/
def fds (s : State) : Multiset (Fin NFILE) :=
  held (fun f => {f}) fun x : Slot × Fin NOFILE => s.ofile x.1 x.2

/-- The end of a pipe that a file is, if it is one. -/
def File.end? (ff : File) : Option (Addr × Bool) :=
  if ff.type = .pipe then some (ff.pipe, ff.writable) else none

/-- Whether the end for writing, or for reading, is open. -/
def Pipe.isOpen (q : Pipe) (w : Bool) : Bool := if w then q.writeopen else q.readopen

/-- The references to the files, with those that a call has in hand, and the pipes. -/
structure Inv (y : Multiset (Fin NFILE)) (s : State) : Prop where
  ref : ∀ f, (s.file f).ref = (fds s + y).count f
  closed : ∀ f, (s.file f).ref = 0 → (s.file f).type = .none
  mode : ∀ f, (s.file f).type = .pipe → (s.file f).readable = !(s.file f).writable
  inj : ∀ {f g e}, (s.file f).end? = some e → (s.file g).end? = some e → f = g
  isOpen : ∀ v w, (s.pipe v).isOpen w ↔ ∃ f, (s.file f).end? = some (v, w)
  pages : ∀ v, s.allocs v = s.frees v + if (s.pipe v).readopen ∨ (s.pipe v).writeopen then 1 else 0
  files : ∀ p, s.state p = .unused ∨ s.state p = .zombie → s.ofile p = fun _ => none

/-! ## Changes of the state -/

@[simp] theorem modifyFile_self {h : File → File} : (s.modifyFile f h).file f = h (s.file f) :=
  update_self ..

theorem modifyFile_of_ne {h : File → File} (hg : g ≠ f) : (s.modifyFile f h).file g = s.file g :=
  update_of_ne hg ..

theorem setFd_self {o : Option (Fin NFILE)} :
    (s.setFd p fd o).ofile p = update (s.ofile p) fd o := update_self ..

theorem setFd_of_ne {o : Option (Fin NFILE)} {q : Slot} (hq : q ≠ p) :
    (s.setFd p fd o).ofile q = s.ofile q := update_of_ne hq ..

theorem fds_setFd (s : State) (p : Slot) (fd : Fin NOFILE) (o : Option (Fin NFILE)) :
    fds (s.setFd p fd o) + (s.ofile p fd).elim 0 ({·}) = fds s + o.elim 0 ({·}) :=
  held_update_update s.ofile p fd o

theorem mem_fds (h : s.ofile p fd = some f) : f ∈ fds s :=
  mem_held.2 ⟨(p, fd), f, h, Multiset.mem_singleton_self f⟩

/-- An entry of the open files changes. -/
theorem Inv.setFd {o : Option (Fin NFILE)} {z : Multiset (Fin NFILE)} (h : Inv y s)
    (hz : z + o.elim 0 ({·}) = y + (s.ofile p fd).elim 0 ({·}))
    (hp : s.state p = .unused ∨ s.state p = .zombie → o = none) : Inv z (s.setFd p fd o) := by
  refine ⟨fun f => (h.ref f).trans ?_, h.closed, h.mode, h.inj, h.isOpen, h.pages, fun q hq => ?_⟩
  · have hu := fds_setFd s p fd o
    have hsum : fds s + y = fds (s.setFd p fd o) + z := by
      refine add_right_cancel (b := o.elim 0 ({·})) ?_
      rw [add_assoc, add_assoc, hz, add_left_comm, ← hu]
      abel
    rw [hsum]
  · have hnone := h.files q hq
    by_cases hqp : q = p
    · subst hqp
      rw [setFd_self, hnone, hp hq]
      exact update_eq_self ..
    · rw [setFd_of_ne hqp]
      exact hnone

/-- An open file changes, but not the end of a pipe that it is. -/
theorem Inv.modifyFile {z : Multiset (Fin NFILE)} {u : File → File} (h : Inv y s)
    (hn : (u (s.file f)).ref + y.count f = (s.file f).ref + z.count f)
    (hz : ∀ k, k ≠ f → z.count k = y.count k) (hpos : (u (s.file f)).ref ≠ 0)
    (hmode : (u (s.file f)).type = .pipe → (u (s.file f)).readable = !(u (s.file f)).writable)
    (hend : (u (s.file f)).end? = (s.file f).end?) : Inv z (s.modifyFile f u) := by
  have hends : ∀ k, ((s.modifyFile f u).file k).end? = (s.file k).end? := by
    intro k
    by_cases hk : k = f
    · rw [hk, modifyFile_self, hend]
    · rw [modifyFile_of_ne hk]
  refine ⟨fun k => ?_, fun k hk => ?_, fun k => ?_, fun he hg => ?_, fun v w => ?_, h.pages,
    h.files⟩
  · have hr := h.ref k
    change _ = (fds s + z).count k
    rw [Multiset.count_add] at hr ⊢
    by_cases hkf : k = f
    · subst hkf
      rw [modifyFile_self]
      omega
    · rw [modifyFile_of_ne hkf, hz k hkf]
      exact hr
  · by_cases hkf : k = f
    · subst hkf
      rw [modifyFile_self] at hk
      exact absurd hk hpos
    · rw [modifyFile_of_ne hkf] at hk ⊢
      exact h.closed k hk
  · by_cases hkf : k = f
    · subst hkf
      rw [modifyFile_self]
      exact hmode
    · rw [modifyFile_of_ne hkf]
      exact h.mode k
  · rw [hends] at he hg
    exact h.inj he hg
  · simp only [hends]
    exact h.isOpen v w

/-- The count of an open file changes. -/
theorem Inv.setRef {z : Multiset (Fin NFILE)} {n : ℕ} (h : Inv y s)
    (hn : n + y.count f = (s.file f).ref + z.count f) (hz : ∀ k, k ≠ f → z.count k = y.count k)
    (hpos : n ≠ 0) : Inv z (s.modifyFile f fun ff => { ff with ref := n }) :=
  h.modifyFile hn hz hpos (h.mode f) rfl

@[simp] theorem Pipe.isOpen_shut (q : Pipe) (w w' : Bool) :
    (q.shut w).isOpen w' = (q.isOpen w' && (w != w')) := by
  cases w <;> cases w' <;> simp [Pipe.shut, Pipe.isOpen]

theorem File.end?_eq_some {ff : File} :
    ff.end? = some (v, w) ↔ ff.type = .pipe ∧ ff.pipe = v ∧ ff.writable = w := by
  rw [File.end?]
  split_ifs with ht
  · simp [ht]
  · simp [ht]

/-- The file `f`, as `fileclose` leaves it when its last reference is dropped. -/
def State.drop (s : State) (f : Fin NFILE) : State :=
  s.modifyFile f fun ff => { ff with ref := 0, type := .none }

theorem drop_end? : ((s.drop f).file g).end? = if g = f then none else (s.file g).end? := by
  split_ifs with hg
  · subst hg
    rw [State.drop, modifyFile_self]
    rfl
  · rw [State.drop, modifyFile_of_ne hg]

/-- The last reference to a file is dropped, and the end of the pipe closed that it was. -/
theorem Inv.drop (h : Inv (f ::ₘ y) s) (hr : (s.file f).ref = 1) (hfile : s'.file = (s.drop f).file)
    (hofile : s'.ofile = s.ofile) (hstate : s'.state = s.state)
    (hopen : ∀ v w, (s'.pipe v).isOpen w ↔ (s.pipe v).isOpen w ∧ (s.file f).end? ≠ some (v, w))
    (hpages : ∀ v, s'.allocs v =
      s'.frees v + if (s'.pipe v).readopen ∨ (s'.pipe v).writeopen then 1 else 0) : Inv y s' := by
  have hfds : fds s' = fds s := by rw [fds, hofile, fds]
  have hother : ∀ k, k ≠ f → s'.file k = s.file k := fun k hk => by
    rw [hfile, State.drop, modifyFile_of_ne hk]
  have hself : s'.file f = { s.file f with ref := 0, type := .none } := by
    rw [hfile, State.drop, modifyFile_self]
  have hend : ∀ k, (s'.file k).end? = if k = f then none else (s.file k).end? := fun k => by
    rw [hfile, drop_end?]
  refine ⟨fun k => ?_, fun k hk => ?_, fun k hk => ?_, fun {a b e} ha hb => ?_, fun v w => ?_,
    hpages, fun p hp => ?_⟩
  · have hk := h.ref k
    rw [hfds, Multiset.count_add]
    rw [Multiset.count_add] at hk
    by_cases hkf : k = f
    · subst hkf
      rw [Multiset.count_cons_self] at hk
      rw [hself]
      simp only
      omega
    · rw [Multiset.count_cons_of_ne hkf] at hk
      rw [hother k hkf, hk]
  · by_cases hkf : k = f
    · rw [hkf, hself]
    · rw [hother k hkf] at hk ⊢
      exact h.closed k hk
  · by_cases hkf : k = f
    · rw [hkf, hself] at hk
      cases hk
    · rw [hother k hkf] at hk ⊢
      exact h.mode k hk
  · rw [hend] at ha hb
    split_ifs at ha hb
    exact h.inj ha hb
  · rw [hopen, h.isOpen]
    constructor
    · rintro ⟨⟨k, hk⟩, hf⟩
      have hkf : k ≠ f := fun he => hf (he ▸ hk)
      exact ⟨k, by rw [hend, if_neg hkf]; exact hk⟩
    · rintro ⟨k, hk⟩
      rw [hend] at hk
      split_ifs at hk with hkf
      exact ⟨⟨k, hk⟩, fun hf => hkf (h.inj hk hf)⟩
  · rw [hofile]
    exact h.files p (hstate ▸ hp)

/-- A pipe holds its page as long as it is open. -/
def Paged (s : State) : Prop :=
  ∀ v, s.allocs v = s.frees v + if (s.pipe v).readopen ∨ (s.pipe v).writeopen then 1 else 0

/-- `pipeclose` closes one end, and frees the page if the other is closed. -/
theorem pipeclose_spec (hv : (s.pipe v).isOpen w) (hpages : Paged s) :
    (pipeclose s v w).file = s.file ∧ (pipeclose s v w).ofile = s.ofile ∧
      (pipeclose s v w).state = s.state ∧
      (∀ u x, ((pipeclose s v w).pipe u).isOpen x ↔ (s.pipe u).isOpen x ∧ (v, w) ≠ (u, x)) ∧
      Paged (pipeclose s v w) := by
  have hopen : ∀ u x, (update s.pipe v ((s.pipe v).shut w) u).isOpen x ↔
      (s.pipe u).isOpen x ∧ (v, w) ≠ (u, x) := by
    intro u x
    by_cases hu : u = v
    · subst hu
      rw [update_self, Pipe.isOpen_shut]
      simp
    · rw [update_of_ne hu]
      simp [Ne.symm hu]
  have hpage : s.allocs v = s.frees v + 1 := by
    rw [hpages v, if_pos]
    cases w
    · exact .inl hv
    · exact .inr hv
  rw [pipeclose]
  split_ifs with hclosed
  · refine ⟨rfl, rfl, rfl, hopen, fun u => ?_⟩
    by_cases hu : u = v
    · subst hu
      simp [kfree, hclosed, hpage]
    · simp [kfree, hu, hpages u]
  · refine ⟨rfl, rfl, rfl, hopen, fun u => ?_⟩
    by_cases hu : u = v
    · subst hu
      rw [not_and_or] at hclosed
      simp only [update_self, hpage]
      rw [if_pos (by simpa using hclosed)]
    · simp [hu, hpages u]

theorem fileclose_spec (h : Inv (f ::ₘ y) s) :
    ∃ s', fileclose s f = some s' ∧ s'.ofile = s.ofile ∧ s'.state = s.state ∧ Inv y s' := by
  have href := h.ref f
  rw [Multiset.count_add, Multiset.count_cons_self] at href
  have hy : ∀ k, k ≠ f → y.count k = (f ::ₘ y).count k := fun k hk =>
    (Multiset.count_cons_of_ne hk _).symm
  obtain hr | hr : 1 < (s.file f).ref ∨ (s.file f).ref = 1 := by omega
  · refine ⟨_, fileclose_of_lt hr, rfl, rfl, h.setRef ?_ hy (Nat.sub_ne_zero_of_lt hr)⟩
    rw [Multiset.count_cons_self]
    change (s.file f).ref - 1 + _ = _
    omega
  by_cases hpipe : (s.file f).type = .pipe
  · have hend : (s.file f).end? = some ((s.file f).pipe, (s.file f).writable) := by
      rw [File.end?, if_pos hpipe]
    obtain ⟨hfile, hofile, hstate, hopen, hpages⟩ := pipeclose_spec (s := s.drop f)
      ((h.isOpen (s.file f).pipe (s.file f).writable).2 ⟨f, hend⟩) h.pages
    refine ⟨_, (fileclose_last hr).trans (congrArg some (if_pos hpipe)), hofile, hstate,
      h.drop hr hfile hofile hstate (fun v w => ?_) hpages⟩
    rw [hend]
    exact (hopen v w).trans (and_congr_right fun _ => (Option.some_injective _).ne_iff.symm)
  · refine ⟨_, (fileclose_last hr).trans (congrArg some (if_neg hpipe)), rfl, rfl,
      h.drop hr rfl rfl rfl (fun v w => ?_) h.pages⟩
    have hend : (s.file f).end? = none := by rw [File.end?, if_neg hpipe]
    rw [hend]
    simp [State.modifyFile]

theorem filealloc_spec (h : Inv y s) (ha : filealloc s = some (f, s')) :
    Inv (f ::ₘ y) s' ∧ (s'.file f).type = .none ∧ (s'.file f).ref = 1 ∧
      (∀ k, k ≠ f → s'.file k = s.file k) ∧ (s.file f).ref = 0 ∧ s'.ofile = s.ofile ∧
      s'.state = s.state ∧ s'.allocs = s.allocs ∧ s'.frees = s.frees := by
  obtain ⟨href, rfl⟩ := of_filealloc ha
  change (s.file f).ref = 0 at href
  refine ⟨h.setRef ?_ (fun k hk => Multiset.count_cons_of_ne hk _) one_ne_zero, ?_, ?_,
    fun k hk => modifyFile_of_ne hk, href, rfl, rfl, rfl, rfl⟩
  · rw [Multiset.count_cons_self, href]
    omega
  · exact (congrArg File.type modifyFile_self).trans (h.closed f href)
  · exact congrArg File.ref modifyFile_self

theorem filedup_spec (h : Inv y s) (hf : f ∈ fds s + y) :
    ∃ s', filedup s f = some s' ∧ s'.ofile = s.ofile ∧ s'.state = s.state ∧ Inv (f ::ₘ y) s' := by
  have hr : 1 ≤ (s.file f).ref := by
    rw [h.ref]
    exact Multiset.one_le_count_iff_mem.2 hf
  refine ⟨_, filedup_eq hr, rfl, rfl,
    h.setRef ?_ (fun k hk => Multiset.count_cons_of_ne hk _) (Nat.succ_ne_zero _)⟩
  rw [Multiset.count_cons_self]
  exact Nat.add_right_comm ..

theorem setPipe_file (hne : f0 ≠ f1) (k : Fin NFILE) :
    (setPipe s v f0 f1).file k =
      if k = f0 then
        { s.file f0 with type := .pipe, readable := true, writable := false, pipe := v }
      else if k = f1 then
        { s.file f1 with type := .pipe, readable := false, writable := true, pipe := v }
      else s.file k := by
  split_ifs with hk0 hk1
  · subst hk0
    rw [setPipe, modifyFile_of_ne hne, modifyFile_self]
  · subst hk1
    rw [setPipe, modifyFile_self, modifyFile_of_ne hk0]
  · rw [setPipe, modifyFile_of_ne hk1, modifyFile_of_ne hk0]

/-- A page becomes a pipe, and two new files its ends. -/
theorem Inv.setPipe (h : Inv y s) (hne : f0 ≠ f1) (hr0 : (s.file f0).ref ≠ 0)
    (hr1 : (s.file f1).ref ≠ 0) (h0 : (s.file f0).type = .none) (h1 : (s.file f1).type = .none)
    (hv : v ≠ 0) (hfree : s.allocs v = s.frees v) : Inv y (setPipe (kalloc s v) v f0 f1) := by
  have hk : kalloc s v = { s with allocs := update s.allocs v (s.allocs v + 1) } :=
    if_neg hv
  rw [hk]
  -- the page is not in use, so neither end was open
  have hpipe : ∀ w, (s.pipe v).isOpen w = false := by
    have hpage := h.pages v
    split_ifs at hpage with hopen
    · omega
    · rw [not_or, Bool.not_eq_true, Bool.not_eq_true] at hopen
      rintro (_ | _)
      · exact hopen.1
      · exact hopen.2
  have hnone : ∀ k w, (s.file k).end? ≠ some (v, w) := by
    intro k w he
    have := (h.isOpen v w).2 ⟨k, he⟩
    rw [hpipe] at this
    cases this
  have hend : ∀ k, ((Ftable.setPipe { s with allocs := update s.allocs v (s.allocs v + 1) }
      v f0 f1).file k).end? =
      if k = f0 then some (v, false) else if k = f1 then some (v, true) else (s.file k).end? := by
    intro k
    rw [setPipe_file hne]
    split_ifs <;> rfl
  refine ⟨fun k => ?_, fun k hk => ?_, fun k hk => ?_, fun {a b e} ha hb => ?_, fun u w => ?_,
    fun u => ?_, h.files⟩
  · rw [setPipe_file hne]
    refine Eq.trans ?_ (h.ref k)
    split_ifs with hk0 hk1
    · rw [hk0]
    · rw [hk1]
    · rfl
  · rw [setPipe_file hne] at hk ⊢
    split_ifs at hk ⊢ with hk0 hk1
    · exact absurd hk hr0
    · exact absurd hk hr1
    · exact h.closed k hk
  · rw [setPipe_file hne] at hk ⊢
    split_ifs at hk ⊢ with hk0 hk1
    · rfl
    · rfl
    · exact h.mode k hk
  · rw [hend] at ha hb
    split_ifs at ha hb with ha0 hb0 hb1 ha1 hb0 hb1 hb0 hb1
    · rw [ha0, hb0]
    · exact absurd (ha.trans hb.symm) (by simp)
    · exact absurd (hb.trans ha.symm) (hnone b false)
    · exact absurd (ha.trans hb.symm) (by simp)
    · rw [ha1, hb1]
    · exact absurd (hb.trans ha.symm) (hnone b true)
    · exact absurd (ha.trans hb.symm) (hnone a false)
    · exact absurd (ha.trans hb.symm) (hnone a true)
    · exact h.inj ha hb
  · simp only [hend]
    by_cases hu : u = v
    · subst hu
      have hopen : ((update s.pipe u ⟨true, true⟩) u).isOpen w := by
        rw [update_self]
        cases w <;> rfl
      refine iff_of_true hopen ?_
      cases w
      · exact ⟨f0, if_pos rfl⟩
      · exact ⟨f1, by rw [if_neg hne.symm, if_pos rfl]⟩
    · have hsame : ((update s.pipe v ⟨true, true⟩) u).isOpen w ↔ (s.pipe u).isOpen w := by
        rw [update_of_ne hu]
      refine hsame.trans ((h.isOpen u w).trans (exists_congr fun k => ?_))
      split_ifs with hk0 hk1
      · rw [hk0, File.end?, if_neg (by rw [h0]; decide)]
        simp [Ne.symm hu]
      · rw [hk1, File.end?, if_neg (by rw [h1]; decide)]
        simp [Ne.symm hu]
      · rfl
  · by_cases hu : u = v
    · subst hu
      simp [Ftable.setPipe, State.modifyFile, hfree]
    · have := h.pages u
      simpa [Ftable.setPipe, State.modifyFile, hu] using this

/-! ## System calls -/

theorem pipealloc_spec (h : Inv y s) (hv : v ≠ 0 → s.allocs v = s.frees v) :
    ∃ r s', pipealloc s v = some (r, s') ∧ s'.ofile = s.ofile ∧ s'.state = s.state ∧
      Inv (r.elim y fun x => x.1 ::ₘ x.2 ::ₘ y) s' := by
  rw [pipealloc]
  cases ha : filealloc s with
  | none => exact ⟨none, s, rfl, rfl, rfl, h⟩
  | some x =>
    obtain ⟨f0, s₁⟩ := x
    obtain ⟨h₁, ht0, hr0, -, -, ho₁, hs₁, hal₁, hfr₁⟩ := filealloc_spec h ha
    simp only
    cases hb : filealloc s₁ with
    | none =>
      obtain ⟨s₂, he, ho, hs, hi⟩ := fileclose_spec h₁
      exact ⟨none, s₂, by rw [he]; rfl, ho.trans ho₁, hs.trans hs₁, hi⟩
    | some x =>
      obtain ⟨f1, s₂⟩ := x
      obtain ⟨h₂, ht1, hr1, hother, hfree, ho₂, hs₂, hal₂, hfr₂⟩ := filealloc_spec h₁ hb
      have hne : f0 ≠ f1 := fun he => by rw [← he, hr0] at hfree; cases hfree
      simp only
      split_ifs with hv0
      · have hk : kalloc s₂ v = s₂ := if_pos hv0
        rw [hk]
        rw [Multiset.cons_swap] at h₂
        obtain ⟨s₃, he₃, ho₃, hs₃, hi₃⟩ := fileclose_spec h₂
        obtain ⟨s₄, he₄, ho₄, hs₄, hi₄⟩ := fileclose_spec hi₃
        refine ⟨none, s₄, by rw [he₃, Option.bind_some, he₄]; rfl, ?_, ?_, hi₄⟩
        · rw [ho₄, ho₃, ho₂, ho₁]
        · rw [hs₄, hs₃, hs₂, hs₁]
      · refine ⟨_, _, rfl, ?_, ?_, ?_⟩
        · rw [kalloc, if_neg hv0]
          exact ho₂.trans ho₁
        · rw [kalloc, if_neg hv0]
          exact hs₂.trans hs₁
        · rw [Multiset.cons_swap] at h₂
          refine h₂.setPipe hne ?_ ?_ ?_ ht1 hv0 ?_
          · rw [hother f0 hne, hr0]; exact one_ne_zero
          · rw [hr1]; exact one_ne_zero
          · rw [hother f0 hne]; exact ht0
          · rw [hal₂, hfr₂, hal₁, hfr₁]; exact hv hv0

theorem fdalloc_spec {fd : Fin NOFILE} (h : Inv (f ::ₘ y) s) (hp : s.state p = .runnable)
    (ha : fdalloc s p f = some (fd, s')) :
    Inv y s' ∧ s' = s.setFd p fd (some f) ∧ s.ofile p fd = none := by
  obtain ⟨hnone, rfl⟩ : s.ofile p fd = none ∧ s.setFd p fd (some f) = s' := of_fdalloc ha
  refine ⟨h.setFd ?_ ?_, rfl, hnone⟩
  · rw [hnone, Option.elim_none, Option.elim_some, add_zero, ← Multiset.singleton_add, add_comm]
  · rw [hp]
    exact fun h => by cases h <;> contradiction

theorem sysOpen_spec {omode : UInt32} {found : Option ℕ} (h : Inv 0 s)
    (hp : s.state p = .runnable) : ∃ s', sysOpen s p omode found = some s' ∧ Inv 0 s' := by
  cases found with
  | none => exact ⟨s, rfl, h⟩
  | some ip =>
    rw [sysOpen]
    cases ha : filealloc s with
    | none => exact ⟨s, rfl, h⟩
    | some x =>
      obtain ⟨f, s₁⟩ := x
      obtain ⟨h₁, ht, hr, -, -, -, hs, -, -⟩ := filealloc_spec h ha
      simp only
      cases hb : fdalloc s₁ p f with
      | none =>
        obtain ⟨s₂, he, -, -, hi⟩ := fileclose_spec h₁
        exact ⟨s₂, he, hi⟩
      | some x =>
        obtain ⟨fd, s₂⟩ := x
        obtain ⟨h₂, rfl, -⟩ := fdalloc_spec h₁ (hs ▸ hp) hb
        refine ⟨_, rfl, h₂.modifyFile rfl (fun _ _ => rfl) ?_ nofun ?_⟩
        · change (s₁.file f).ref ≠ 0
          rw [hr]
          exact one_ne_zero
        · rw [File.end?, File.end?, if_neg nofun, if_neg]
          change (s₁.file f).type ≠ .pipe
          rw [ht]
          decide

theorem sysPipe_spec (h : Inv 0 s) (hp : s.state p = .runnable)
    (hv : v ≠ 0 → s.allocs v = s.frees v) : ∃ s', sysPipe s p v = some s' ∧ Inv 0 s' := by
  obtain ⟨r, s₁, he, -, hs, h₁⟩ := pipealloc_spec h hv
  rw [sysPipe, he, Option.bind_some]
  cases r with
  | none => exact ⟨s₁, rfl, h₁⟩
  | some x =>
    obtain ⟨rf, wf⟩ := x
    change Inv (rf ::ₘ wf ::ₘ 0) s₁ at h₁
    have hp₁ : s₁.state p = .runnable := hs ▸ hp
    simp only
    cases ha : fdalloc s₁ p rf with
    | none =>
      obtain ⟨s₂, he₂, -, -, h₂⟩ := fileclose_spec h₁
      obtain ⟨s₃, he₃, -, -, h₃⟩ := fileclose_spec h₂
      exact ⟨s₃, by rw [he₂, Option.bind_some, he₃], h₃⟩
    | some x =>
      obtain ⟨fd0, s₂⟩ := x
      obtain ⟨h₂, rfl, hnone⟩ := fdalloc_spec h₁ hp₁ ha
      simp only
      cases hb : fdalloc (s₁.setFd p fd0 (some rf)) p wf with
      | none =>
        -- the entry of the read end is taken back
        have h₃ : Inv (rf ::ₘ wf ::ₘ 0) ((s₁.setFd p fd0 (some rf)).setFd p fd0 none) := by
          refine h₂.setFd ?_ fun _ => rfl
          rw [setFd_self, update_self, Option.elim_none, Option.elim_some, add_zero,
            ← Multiset.singleton_add, add_comm]
        obtain ⟨s₄, he₄, -, -, h₄⟩ := fileclose_spec h₃
        obtain ⟨s₅, he₅, -, -, h₅⟩ := fileclose_spec h₄
        exact ⟨s₅, by rw [he₄, Option.bind_some, he₅], h₅⟩
      | some x =>
        obtain ⟨fd1, s₃⟩ := x
        exact ⟨s₃, rfl, (fdalloc_spec h₂ hp₁ hb).1⟩

theorem sysDup_spec (h : Inv 0 s) (hp : s.state p = .runnable) :
    ∃ s', sysDup s p fd = some s' ∧ Inv 0 s' := by
  rw [sysDup, ofile_eq]
  cases hf : s.ofile p fd with
  | none => exact ⟨s, rfl, h⟩
  | some f =>
    simp only
    cases ha : fdalloc s p f with
    | none => exact ⟨s, rfl, h⟩
    | some x =>
      obtain ⟨d, s₁⟩ := x
      obtain ⟨s₂, he, ho, hs, h₂⟩ := filedup_spec h (by rw [add_zero]; exact mem_fds hf)
      -- `filedup` comes after `fdalloc`, but does not depend on it
      have hcomm : fdalloc s₂ p f = some (d, s₂.setFd p d (some f)) ∧
          filedup s₁ f = some (s₂.setFd p d (some f)) := by
        rw [fdalloc, Option.map_eq_some_iff] at ha
        obtain ⟨d', hd, hd'⟩ := ha
        obtain ⟨rfl, rfl⟩ := Prod.mk.inj hd'
        rw [filedup] at he
        split_ifs at he with hr
        obtain rfl := Option.some.inj he
        refine ⟨?_, by rw [filedup]; exact if_neg hr⟩
        rw [fdalloc]
        exact congrArg (Option.map _) hd
      exact ⟨_, hcomm.2, (fdalloc_spec h₂ (hs ▸ hp) hcomm.1).1⟩

theorem sysClose_spec (h : Inv 0 s) : ∃ s', sysClose s p fd = some s' ∧ Inv 0 s' := by
  rw [sysClose, ofile_eq]
  cases hf : s.ofile p fd with
  | none => exact ⟨s, rfl, h⟩
  | some f =>
    have h₁ : Inv (f ::ₘ 0) (s.setFd p fd none) := h.setFd (by rw [hf]; simp) fun _ => rfl
    obtain ⟨s₂, he, -, -, h₂⟩ := fileclose_spec h₁
    exact ⟨s₂, he, h₂⟩

/-- The loop of `fork`: the entries of `np` from `l` on are still empty. -/
theorem dupFiles_spec {l : List (Fin NOFILE)} (h : Inv 0 s)
    (hnp : s.state np = .embryo) (hl : l.Nodup) (hempty : ∀ fd ∈ l, s.ofile np fd = none) :
    ∃ s', dupFiles p np l s = some s' ∧ s'.state = s.state ∧ Inv 0 s' := by
  induction l generalizing s with
  | nil => exact ⟨s, rfl, rfl, h⟩
  | cons fd l ih =>
    obtain ⟨hfd, hl⟩ := List.nodup_cons.1 hl
    rw [dupFiles, ofile_eq]
    cases hf : s.ofile p fd with
    | none => exact ih h hnp hl fun d hd => hempty d (List.mem_cons_of_mem _ hd)
    | some f =>
      obtain ⟨s₁, he, ho, hs, h₁⟩ := filedup_spec h (by rw [add_zero]; exact mem_fds hf)
      have h₂ : Inv 0 (s₁.setFd np fd (some f)) := by
        refine h₁.setFd ?_ ?_
        · rw [ho, hempty fd List.mem_cons_self]
          simp
        · rw [hs, hnp]
          exact fun h => by cases h <;> contradiction
      obtain ⟨s', he', hs', h'⟩ := ih h₂ (hs ▸ hnp) hl fun d hd => by
        have hdf : d ≠ fd := fun he => hfd (he ▸ hd)
        rw [setFd_self, update_of_ne hdf, ho]
        exact hempty d (List.mem_cons_of_mem _ hd)
      exact ⟨s', by simp only [he, Option.bind_some]; exact he', hs'.trans hs, h'⟩

theorem fileclose_setFd {o : Option (Fin NFILE)} :
    fileclose (s.setFd p fd o) f = (fileclose s f).map fun s => s.setFd p fd o := by
  have hpipe : ∀ {s : State} {v : Addr} {w : Bool},
      pipeclose (s.setFd p fd o) v w = (pipeclose s v w).setFd p fd o := by
    intro s v w
    rw [pipeclose, pipeclose]
    split_ifs with hleft hright hright
    · rfl
    · exact absurd hleft hright
    · exact absurd hright hleft
    · rfl
  refine fileclose_comm (g := fun s : State => s.setFd p fd o) rfl (fun _ => rfl) (congrArg some ?_)
  change (if (s.file f).type = .pipe then _ else _) =
    (if (s.file f).type = .pipe then pipeclose (s.drop f) _ _ else s.drop f).setFd p fd o
  split_ifs with ht
  · exact hpipe (s := s.drop f)
  · rfl

/-- The loop of `exit`. -/
theorem closeFiles_spec {l : List (Fin NOFILE)} (h : Inv 0 s) :
    ∃ s', closeFiles p l s = some s' ∧ s'.state = s.state ∧ Inv 0 s' ∧
      ∀ fd, fd ∈ l ∨ s.ofile p fd = none → s'.ofile p fd = none := by
  induction l generalizing s with
  | nil => exact ⟨s, rfl, rfl, h, fun fd hfd => hfd.resolve_left (by simp)⟩
  | cons fd l ih =>
    rw [closeFiles, ofile_eq]
    cases hf : s.ofile p fd with
    | none =>
      obtain ⟨s', he, hs, h', hnone⟩ := ih h
      refine ⟨s', he, hs, h', fun d hd => hnone d ?_⟩
      obtain hd | hd := hd
      · obtain rfl | hd := List.mem_cons.1 hd
        · exact .inr hf
        · exact .inl hd
      · exact .inr hd
    | some f =>
      have h₁ : Inv (f ::ₘ 0) (s.setFd p fd none) := h.setFd (by rw [hf]; simp) fun _ => rfl
      obtain ⟨s₂, he, ho, hs, h₂⟩ := fileclose_spec h₁
      obtain ⟨s', he', hs', h', hnone⟩ := ih h₂
      rw [fileclose_setFd, Option.map_eq_some_iff] at he
      obtain ⟨s₁, he₁, rfl⟩ := he
      refine ⟨s', by simp only [he₁, Option.bind_some]; exact he', hs'.trans hs, h', fun d hd => ?_⟩
      refine hnone d ?_
      rw [ho, setFd_self]
      by_cases hdf : d = fd
      · rw [hdf, update_self]
        exact .inr rfl
      · rw [update_of_ne hdf]
        exact hd.imp_left fun hd => (List.mem_cons.1 hd).resolve_left hdf

theorem Inv.setState {x : Procstate} (h : Inv y s)
    (hx : x = .unused ∨ x = .zombie → s.ofile p = fun _ => none) : Inv y (s.setState p x) := by
  refine ⟨h.ref, h.closed, h.mode, h.inj, h.isOpen, h.pages, fun q hq => ?_⟩
  by_cases hqp : q = p
  · subst hqp
    exact hx (by simpa [State.setState] using hq)
  · exact h.files q (by simpa [State.setState, hqp] using hq)

theorem fork_spec {mem : Bool} (h : Inv 0 s) : ∃ s', fork s p mem = some s' ∧ Inv 0 s' := by
  rw [fork]
  cases hf : slots.find? fun np => s.state np = .unused with
  | none => exact ⟨s, rfl, h⟩
  | some np =>
    have hnp : s.state np = .unused := by simpa using List.find?_some hf
    simp only
    split_ifs with hmem
    · obtain ⟨s', he, hs, h'⟩ := dupFiles_spec (p := p) (h.setState (p := np) (x := .embryo) nofun)
        (by simp [State.setState]) (List.nodup_finRange NOFILE)
        fun fd _ => congrFun (h.files np (.inl hnp)) fd
      exact ⟨s'.setState np .runnable, by rw [he]; rfl, h'.setState nofun⟩
    · exact ⟨s, rfl, h⟩

theorem exit_spec (h : Inv 0 s) (hp : p ≠ initproc) : ∃ s', exit s p = some s' ∧ Inv 0 s' := by
  rw [exit, if_neg hp]
  obtain ⟨s', he, hs, h', hnone⟩ := closeFiles_spec (p := p) (l := List.finRange NOFILE) h
  refine ⟨_, by rw [he]; rfl, h'.setState fun _ => ?_⟩
  funext fd
  exact hnone fd (.inl (List.mem_finRange fd))

/-- No call panics, except the `exit` of the first process, and each keeps the count. -/
theorem Inv.run {o : Op} (h : Inv 0 s) (ho : o.Enabled s p) (hinit : o = .exit → p ≠ initproc) :
    ∃ s', o.run s p = some s' ∧ Inv 0 s' := by
  cases o with
  | «open» omode found => exact sysOpen_spec h ho
  | pipe v => exact sysPipe_spec h ho.1 ho.2
  | dup fd => exact sysDup_spec h ho
  | close fd => exact sysClose_spec h
  | fork mem => exact fork_spec h
  | exit => exact exit_spec h (hinit rfl)
  | reaped => exact ⟨_, rfl, h.setState fun _ => h.files p (.inr ho)⟩

theorem inv_boot : Inv 0 boot := by
  refine ⟨fun f => ?_, fun _ _ => rfl, nofun, nofun, fun v w => ?_, fun _ => rfl, fun _ _ => rfl⟩
  · rw [fds, add_zero]
    exact (congrArg (Multiset.count f) held_none).symm
  · exact iff_of_false (by cases w <;> exact Bool.false_ne_true) nofun

theorem inv_of_reachable {ok : State → Slot × Op → Prop} (h : system.Reachable ok s) : Inv 0 s := by
  refine h.invariant (fun s hs => hs ▸ inv_boot) fun s a s' hi _ hs => ?_
  obtain ⟨p, o⟩ := a
  change (if o.Enabled s p then o.run s p else none) = some s' at hs
  split_ifs at hs with ho
  have hinit : o = .exit → p ≠ initproc := by
    rintro rfl rfl
    cases hs
  obtain ⟨t, ht, hi'⟩ := hi.run ho hinit
  rw [ht] at hs
  exact Option.some.inj hs ▸ hi'

theorem count_fds (s : State) (f : Fin NFILE) : (fds s).count f =
    (Finset.univ.filter fun x : Slot × Fin NOFILE => s.ofile x.1 x.2 = some f).card := by
  rw [fds, count_held, Finset.card_filter]
  refine Finset.sum_congr rfl fun x _ => ?_
  cases hx : s.ofile x.1 x.2 with
  | none => rfl
  | some g => simp [Multiset.count_singleton, eq_comm]

/-- Between calls, the count of a file is the number of entries of processes that point to it, a
    file without any has the type `FD_NONE`, and a pipe is open at an end exactly if a file that is
    in use is that end. The page of a pipe is freed once for each time it was allocated, except
    while it is open at an end. -/
theorem file_refs (h : system.Reachable Any s) :
    (∀ f, (s.file f).ref =
      (Finset.univ.filter fun x : Slot × Fin NOFILE => s.ofile x.1 x.2 = some f).card) ∧
    (∀ f, (s.file f).ref = 0 → (s.file f).type = .none) ∧
    (∀ v, ((s.pipe v).readopen ↔ ∃ f, 0 < (s.file f).ref ∧ (s.file f).type = .pipe ∧
        (s.file f).pipe = v ∧ (s.file f).readable) ∧
      ((s.pipe v).writeopen ↔ ∃ f, 0 < (s.file f).ref ∧ (s.file f).type = .pipe ∧
        (s.file f).pipe = v ∧ (s.file f).writable) ∧
      s.allocs v = s.frees v + if (s.pipe v).readopen ∨ (s.pipe v).writeopen then 1 else 0) := by
  have hi := inv_of_reachable h
  have hpos : ∀ f, (s.file f).type = .pipe → 0 < (s.file f).ref := by
    intro f ht
    by_contra h0
    rw [hi.closed f (by omega)] at ht
    cases ht
  refine ⟨fun f => ?_, hi.closed, fun v => ⟨?_, ?_, hi.pages v⟩⟩
  · rw [hi.ref, add_zero, count_fds]
  · refine (hi.isOpen v false).trans (exists_congr fun f => ?_)
    rw [File.end?_eq_some]
    constructor
    · rintro ⟨ht, hv, hw⟩
      exact ⟨hpos f ht, ht, hv, by rw [hi.mode f ht, hw]; rfl⟩
    · rintro ⟨-, ht, hv, hr⟩
      exact ⟨ht, hv, by simpa [hi.mode f ht] using hr⟩
  · refine (hi.isOpen v true).trans (exists_congr fun f => ?_)
    rw [File.end?_eq_some]
    constructor
    · rintro ⟨ht, hv, hw⟩
      exact ⟨hpos f ht, ht, hv, hw⟩
    · rintro ⟨-, ht, hv, hw⟩
      exact ⟨ht, hv, hw⟩

/-- The first process makes a pipe and forks; then the child closes both ends, and the parent the
    write end. -/
theorem file_refs_pipe : ∃ s : State, system.Reachable Any s ∧ (s.file 0).ref = 1 ∧
    (s.file 1).ref = 0 ∧ (s.pipe 4096).readopen ∧ (s.pipe 4096).writeopen = false ∧
      s.allocs 4096 = s.frees 4096 + 1 := by
  obtain ⟨s, hs, hP⟩ := exists_reachable (S := system) rfl
    (show (system.exec Any boot [(0, .pipe 4096), (0, .fork true), (1, .close 0), (1, .close 1),
        (0, .close 1)]).any (fun s => decide ((s.file 0).ref = 1 ∧ (s.file 1).ref = 0 ∧
          (s.pipe 4096).readopen ∧ (s.pipe 4096).writeopen = false)) by decide +kernel)
  obtain ⟨h0, h1, hr, hw⟩ := of_decide_eq_true hP
  have hpage := ((file_refs hs).2.2 4096).2.2
  rw [if_pos (.inl hr)] at hpage
  exact ⟨s, hs, h0, h1, hr, hw, hpage⟩

end Xv6.Ftable
