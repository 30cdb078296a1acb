import Mathlib.Data.Fintype.Prod
import Xv6.Fs.Refs

/-!
# Open files and current directories

Between calls, inodes are held by the current directories and by the open files (`holders`), and
open files by the processes (`fds`). The calls that move these references around (`close`, `fork`,
`exit`, the last steps of `open`) keep whatever the references mean, as long as it survives
`iput` and `idup` (`RefLogic`): they do not look at the inodes.
-/

namespace Xv6.Fs

open Function

variable {s s' : State} {p : Slot} {cwd ip i : Inum} {f : Fin NFILE} {fd : Fin NOFILE}
  {x H : Multiset Inum} {y : Multiset (Fin NFILE)} {R : Multiset Inum → State → Prop}

/-! ## Holders -/

/-- The inodes held between calls: the current directories, and those of the open files. -/
def holders (s : State) : Multiset Inum :=
  held (fun i => {i}) (fun p => (s.proc p).cwd) + held (fun i => {i}) fun f => (s.file f).ip

/-- The open files of all processes. -/
def fds (s : State) : Multiset (Fin NFILE) :=
  held (fun f => {f}) fun x : Slot × Fin NOFILE => (s.proc x.1).ofile x.2

theorem holders_congr (hp : ∀ p, (s'.proc p).cwd = (s.proc p).cwd)
    (hf : ∀ f, (s'.file f).ip = (s.file f).ip) : holders s' = holders s := by
  simp only [holders, hp, hf]

theorem fds_congr (hp : ∀ p, (s'.proc p).ofile = (s.proc p).ofile) : fds s' = fds s := by
  simp only [fds, hp]

theorem holders_iput : holders (iput s i) = holders s :=
  holders_congr (fun p => by rw [iput_proc]) fun f => by rw [iput_file]

theorem Same.holders (h : Same s s') : holders s' = holders s :=
  holders_congr (fun p => by rw [h.proc]) fun f => by rw [h.file]

theorem mem_holders (h : (s.proc p).cwd = some i) : i ∈ holders s :=
  Multiset.mem_add.2 (.inl (mem_held.2 ⟨p, i, h, Multiset.mem_singleton_self i⟩))

theorem mem_fds (h : (s.proc p).ofile fd = some f) : f ∈ fds s :=
  mem_held.2 ⟨(p, fd), f, h, Multiset.mem_singleton_self f⟩

theorem holders_setCwd (c : Option Inum) :
    holders (s.modifyProc p fun q => { q with cwd := c }) + (s.proc p).cwd.elim 0 ({·}) =
      holders s + c.elim 0 ({·}) := by
  have hu := held_update (h := fun i : Inum => {i}) (t := fun p => (s.proc p).cwd) p c
  have ht : (fun r => ((s.modifyProc p fun q => { q with cwd := c }).proc r).cwd) =
      update (fun p => (s.proc p).cwd) p c := by
    funext r
    by_cases hr : r = p
    · subst hr; simp [State.modifyProc]
    · simp [State.modifyProc, hr]
  rw [holders, ht, add_right_comm, hu, holders, add_right_comm]
  rfl

theorem holders_modifyFile (g : File → File) :
    holders (s.modifyFile f g) + (s.file f).ip.elim 0 ({·}) =
      holders s + (g (s.file f)).ip.elim 0 ({·}) := by
  have hu :=
    held_update (h := fun i : Inum => {i}) (t := fun f => (s.file f).ip) f (g (s.file f)).ip
  have ht : (fun r => ((s.modifyFile f g).file r).ip) =
      update (fun f => (s.file f).ip) f (g (s.file f)).ip := by
    funext r
    by_cases hr : r = f
    · subst hr; simp [State.modifyFile]
    · simp [State.modifyFile, hr]
  rw [holders, ht, add_assoc, hu, holders, add_assoc]
  rfl

theorem fds_setFd (s : State) (p : Slot) (fd : Fin NOFILE) (o : Option (Fin NFILE)) :
    fds (s.setFd p fd o) + ((s.proc p).ofile fd).elim 0 ({·}) = fds s + o.elim 0 ({·}) := by
  have hu := held_update_update (h := fun f : Fin NFILE => {f}) (fun q => (s.proc q).ofile) p fd o
  have ht : (fun q => ((s.setFd p fd o).proc q).ofile) = update (fun q => (s.proc q).ofile) p
      (update (s.proc p).ofile fd o) := by
    funext q
    by_cases hq : q = p
    · subst hq; simp [State.setFd, State.modifyProc]
    · simp [State.setFd, State.modifyProc, hq]
  rw [← ht] at hu
  exact hu

@[simp] theorem setFd_cwd (o : Option (Fin NFILE)) (q : Slot) :
    ((s.setFd p fd o).proc q).cwd = (s.proc q).cwd := by
  by_cases hq : q = p
  · subst hq; simp [State.setFd, State.modifyProc]
  · simp [State.setFd, State.modifyProc, hq]

theorem setFd_of_ne {q : Slot} (o : Option (Fin NFILE)) (hq : q ≠ p) :
    (s.setFd p fd o).proc q = s.proc q := by
  simp [State.setFd, State.modifyProc, hq]

theorem setFd_ofile (o : Option (Fin NFILE)) :
    ((s.setFd p fd o).proc p).ofile = update (s.proc p).ofile fd o := by
  simp [State.setFd, State.modifyProc]

theorem holders_setFd (o : Option (Fin NFILE)) : holders (s.setFd p fd o) = holders s :=
  holders_congr (setFd_cwd o) fun _ => rfl

/-! ## References -/

/-- Nothing changes for the inodes. -/
structure Untouched (s s' : State) : Prop where
  inode : s'.inode = s.inode
  ref : s'.ref = s.ref
  valid : s'.valid = s.valid

/-- What the references `H` to inodes mean: it survives `iput` and `idup`, and depends on nothing
    but the inodes. -/
structure RefLogic (R : Multiset Inum → State → Prop) : Prop where
  congr : ∀ {H s s'}, R H s → Untouched s s' → R H s'
  iput : ∀ {H s i}, R (i ::ₘ H) s → R H (iput s i)
  idup : ∀ {H s i}, R H s → i ∈ H → R (i ::ₘ H) (idup s i)

/-! ## Open files -/

/-- The open files are counted: those of the processes, and the files `y` that a call has in
    hand. -/
structure Files (y : Multiset (Fin NFILE)) (s : State) : Prop where
  ref : ∀ f, (s.file f).ref = (fds s + y).count f
  closed : ∀ f, (s.file f).ref = 0 → (s.file f).ip = none

theorem Files.congr (h : Files y s) (hfds : fds s' = fds s) (hf : s'.file = s.file) : Files y s' :=
  ⟨fun f => by rw [hf, hfds]; exact h.ref f, fun f => by rw [hf]; exact h.closed f⟩

/-- An entry of the open files changes. -/
theorem Files.setFd {o : Option (Fin NFILE)} {z : Multiset (Fin NFILE)} (h : Files y s)
    (hz : z + o.elim 0 ({·}) = y + ((s.proc p).ofile fd).elim 0 ({·})) :
    Files z (s.setFd p fd o) := by
  refine ⟨fun f => (h.ref f).trans ?_, h.closed⟩
  have hu := fds_setFd s p fd o
  have : fds s + y = fds (s.setFd p fd o) + z := by
    refine add_right_cancel (b := o.elim 0 ({·})) ?_
    rw [add_assoc, add_assoc, hz, add_left_comm, ← hu]
    abel
  rw [this]

/-- The count of an open file changes, and its inode with it. -/
theorem Files.modifyFile {g : File → File} {z : Multiset (Fin NFILE)} (h : Files y s)
    (hr : (g (s.file f)).ref + y.count f = (s.file f).ref + z.count f)
    (hz : ∀ k, k ≠ f → z.count k = y.count k)
    (hc : (g (s.file f)).ref = 0 → (g (s.file f)).ip = none) : Files z (s.modifyFile f g) := by
  have hfds : fds (s.modifyFile f g) = fds s := rfl
  refine ⟨fun k => ?_, fun k hk => ?_⟩
  · have := h.ref k
    rw [hfds, Multiset.count_add]
    rw [Multiset.count_add] at this
    by_cases hkf : k = f
    · subst hkf
      simp only [State.modifyFile, update_self]
      omega
    · simp only [State.modifyFile, ne_eq, hkf, not_false_eq_true, update_of_ne, hz k hkf]
      exact this
  · by_cases hkf : k = f
    · subst hkf
      simp only [State.modifyFile, update_self] at hk ⊢
      exact hc hk
    · simp only [State.modifyFile, ne_eq, hkf, not_false_eq_true, update_of_ne] at hk ⊢
      exact h.closed k hk

theorem filealloc_spec (h : Files y s) (ha : filealloc s = some (f, s')) :
    Files (f ::ₘ y) s' ∧ (s'.file f).ip = none ∧ holders s' = holders s ∧ s'.proc = s.proc ∧
      Untouched s s' := by
  obtain ⟨href, rfl⟩ := of_filealloc ha
  change (s.file f).ref = 0 at href
  refine ⟨h.modifyFile ?_ (fun k hk => Multiset.count_cons_of_ne hk _) (by simp), ?_, ?_, rfl,
    ⟨rfl, rfl, rfl⟩⟩
  · rw [Multiset.count_cons_self, href]
    simp only
    omega
  · change (update s.file f _ f).ip = none
    rw [update_self]
    exact h.closed f href
  · exact add_right_cancel (holders_modifyFile _)

theorem filedup_spec (h : Files y s) (hf : f ∈ fds s) :
    ∃ s', filedup s f = some s' ∧ Files (f ::ₘ y) s' ∧ holders s' = holders s ∧
      s'.proc = s.proc ∧ Untouched s s' := by
  have hr : 1 ≤ (s.file f).ref := by
    rw [h.ref, Multiset.count_add]
    have := Multiset.one_le_count_iff_mem.2 hf
    omega
  refine ⟨_, filedup_eq hr, h.modifyFile ?_ (fun k hk => Multiset.count_cons_of_ne hk _) (by simp),
    ?_,
    rfl, ⟨rfl, rfl, rfl⟩⟩
  · rw [Multiset.count_cons_self]
    change (s.file f).ref + 1 + _ = _
    omega
  · exact add_right_cancel (holders_modifyFile _)

theorem fileclose_spec (hR : RefLogic R) (refs : R (holders s + x) s) (h : Files (f ::ₘ y) s) :
    ∃ s', fileclose s f = some s' ∧ s'.proc = s.proc ∧ R (holders s' + x) s' ∧ Files y s' := by
  have hr : 1 ≤ (s.file f).ref := by
    rw [h.ref, Multiset.count_add, Multiset.count_cons_self]
    omega
  obtain h1 | h1 : 1 < (s.file f).ref ∨ (s.file f).ref = 1 := by omega
  · refine ⟨_, fileclose_of_lt h1, rfl, ?_,
      h.modifyFile ?_ (fun k hk => (Multiset.count_cons_of_ne hk _).symm) ?_⟩
    · rw [show holders _ = holders s from add_right_cancel (holders_modifyFile _)]
      exact hR.congr refs ⟨rfl, rfl, rfl⟩
    · rw [Multiset.count_cons_self]
      change (s.file f).ref - 1 + _ = _
      omega
    · exact fun h0 => absurd h0 (Nat.sub_ne_zero_of_lt h1)
  · rw [fileclose_last h1]
    have hz : ∀ k, k ≠ f → y.count k = (f ::ₘ y).count k := fun k hk =>
      (Multiset.count_cons_of_ne hk _).symm
    have files : Files y (s.modifyFile f fun _ => {}) := h.modifyFile
      (by rw [Multiset.count_cons_self]; simp only; omega) hz fun _ => rfl
    have hu := holders_modifyFile (s := s) (f := f) fun _ => {}
    rw [Option.elim_none, add_zero] at hu
    cases hip : (s.file f).ip with
    | none =>
      rw [hip, Option.elim_none, add_zero] at hu
      have hc : HasFiles.close s f = some (s.modifyFile f fun _ => {}) := by
        change some ((s.file f).ip.elim _ _) = _
        rw [hip, Option.elim_none]
      refine ⟨_, hc, rfl, ?_, files⟩
      rw [hu]
      exact hR.congr refs ⟨rfl, rfl, rfl⟩
    | some i =>
      rw [hip, Option.elim_some, add_comm, Multiset.singleton_add] at hu
      rw [← hu, Multiset.cons_add] at refs
      have refs' : R _ (s.modifyFile f fun _ => {}) := hR.congr refs ⟨rfl, rfl, rfl⟩
      have hc : HasFiles.close s f = some (iput (s.modifyFile f fun _ => {}) i) := by
        change some ((s.file f).ip.elim _ _) = _
        rw [hip, Option.elim_some]
      refine ⟨_, hc, iput_proc, ?_, files.congr (fds_congr fun p => by rw [iput_proc]) iput_file⟩
      rw [holders_iput]
      exact hR.iput refs'

theorem iput_setFd {o : Option (Fin NFILE)} :
    iput (s.setFd p fd o) i = (iput s i).setFd p fd o := by
  by_cases hc : s.valid i ∧ (s.inode i).nlink = 0 ∧ s.ref i = 1
  · have hc' : (s.setFd p fd o).valid i ∧ ((s.setFd p fd o).inode i).nlink = 0 ∧
        (s.setFd p fd o).ref i = 1 := hc
    rw [iput, iput, if_pos hc, if_pos hc']
    rfl
  · have hc' : ¬ ((s.setFd p fd o).valid i ∧ ((s.setFd p fd o).inode i).nlink = 0 ∧
        (s.setFd p fd o).ref i = 1) := hc
    rw [iput, iput, if_neg hc, if_neg hc']
    rfl

/-- `fileclose` does not look at the open files of a process. -/
theorem fileclose_setFd {o : Option (Fin NFILE)} :
    fileclose (s.setFd p fd o) f = (fileclose s f).map fun s => s.setFd p fd o := by
  refine fileclose_comm (g := fun s : State => s.setFd p fd o) rfl (fun _ => rfl) ?_
  change some ((s.file f).ip.elim _ _) = (some ((s.file f).ip.elim _ _)).map _
  cases (s.file f).ip with
  | none => rfl
  | some i => exact congrArg some (iput_setFd (s := s.modifyFile f fun _ => {}))

/-! ## Calls -/

/-- The references between calls. -/
structure Held (R : Multiset Inum → State → Prop) (s : State) : Prop where
  refs : R (holders s) s
  files : Files 0 s
  /-- A process that has exited has no open files. -/
  gone : ∀ p, (s.proc p).cwd = none → ∀ fd, (s.proc p).ofile fd = none

theorem Held.of_refs (h : Held R s) (hp : s'.proc = s.proc) (hf : s'.file = s.file)
    (refs : R (holders s) s') : Held R s' := by
  refine ⟨?_, h.files.congr (fds_congr fun p => by rw [hp]) hf, by rw [hp]; exact h.gone⟩
  have hh : holders s' = holders s := holders_congr (fun p => by rw [hp]) fun f => by rw [hf]
  rw [hh]
  exact refs

section Logic

variable (hR : RefLogic R)

include hR

/-- The reference of a call goes away, if it has one. -/
theorem Held.put {r : Option Inum} (h : Held R s) (hp : s'.proc = s.proc) (hf : s'.file = s.file)
    (refs : R (r.elim (holders s) (· ::ₘ holders s)) s') : Held R (r.elim s' (iput s')) := by
  cases r with
  | none => exact h.of_refs hp hf refs
  | some i => exact h.of_refs (iput_proc.trans hp) (iput_file.trans hf) (hR.iput refs)

/-- A file is opened for the inode `ip`, to which the call has a reference. -/
theorem openInode_spec (h : Held R s) (hcwd : (s.proc p).cwd = some cwd) (hp : s'.proc = s.proc)
    (hf : s'.file = s.file) (refs : R (ip ::ₘ holders s) s') :
    ∃ t, openInode s' p ip = some t ∧ Held R t := by
  have hh : holders s' = holders s := holders_congr (fun p => by rw [hp]) fun f => by rw [hf]
  have files : Files 0 s' := h.files.congr (fds_congr fun p => by rw [hp]) hf
  rw [openInode]
  cases ha : filealloc s' with
  | none =>
    exact ⟨_, rfl, h.of_refs (by rw [iput_proc, hp]) (by rw [iput_file, hf]) (hR.iput refs)⟩
  | some r =>
    obtain ⟨g, s₁⟩ := r
    obtain ⟨files₁, hip, hh₁, hp₁, hrefs⟩ := filealloc_spec files ha
    -- the reference that the caller has is for the file that is not open yet
    have refs₁ : R (holders s₁ + {ip}) s₁ := by
      rw [hh₁, hh, add_comm, Multiset.singleton_add]
      exact hR.congr refs hrefs
    have gone₁ : ∀ q, (s₁.proc q).cwd = none → ∀ fd, (s₁.proc q).ofile fd = none := by
      rw [hp₁, hp]; exact h.gone
    simp only
    cases hd : fdalloc s₁ p g with
    | none =>
      -- no descriptor: the file and the reference are given back
      obtain ⟨s₂, hc, hp₂, refs₂, files₂⟩ := fileclose_spec hR refs₁ files₁
      simp only
      rw [hc, Option.map_some]
      rw [add_comm, Multiset.singleton_add] at refs₂
      have h₂ : Held R (iput s₂ ip) := by
        refine ⟨?_, files₂.congr (fds_congr fun q => by rw [iput_proc]) iput_file, ?_⟩
        · rw [holders_iput]
          exact hR.iput refs₂
        · rw [iput_proc, hp₂]
          exact gone₁
      exact ⟨_, rfl, h₂⟩
    | some r =>
      obtain ⟨fd, s₂⟩ := r
      obtain ⟨hnone, rfl⟩ : (s₁.proc p).ofile fd = none ∧ s₁.setFd p fd (some g) = s₂ :=
        of_fdalloc hd
      have files₂ : Files 0 (s₁.setFd p fd (some g)) := files₁.setFd (by rw [hnone]; rfl)
      have href : 1 ≤ ((s₁.setFd p fd (some g)).file g).ref := by
        have := files₁.ref g
        rw [Multiset.count_add, Multiset.count_cons_self] at this
        simp only [State.setFd, State.modifyProc]
        omega
      refine ⟨_, rfl, ?_, files₂.modifyFile rfl (fun _ _ => rfl) ?_, ?_⟩
      · have hu := holders_modifyFile (s := s₁.setFd p fd (some g)) (f := g)
          fun ff => { ff with ip := some ip }
        rw [show ((s₁.setFd p fd (some g)).file g).ip = none from hip, holders_setFd,
          Option.elim_none, add_zero] at hu
        rw [hu]
        exact hR.congr refs₁ ⟨rfl, rfl, rfl⟩
      · intro h0
        simp only at h0
        omega
      · intro q hq fd'
        change ((s₁.setFd p fd (some g)).proc q).cwd = none at hq
        rw [setFd_cwd] at hq
        have hqp : q ≠ p := fun he => by
          rw [he, hp₁, hp, hcwd] at hq
          cases hq
        change ((s₁.setFd p fd (some g)).proc q).ofile fd' = none
        rw [setFd_of_ne _ hqp]
        exact gone₁ q hq fd'

theorem sysClose_spec (h : Held R s) (hcwd : (s.proc p).cwd = some cwd) :
    ∃ s', sysClose s p fd = some s' ∧ Held R s' := by
  rw [sysClose, ofile_eq]
  cases hf : (s.proc p).ofile fd with
  | none => exact ⟨s, rfl, h⟩
  | some f =>
    have files : Files (f ::ₘ 0) (s.setFd p fd none) := h.files.setFd (by rw [hf]; rfl)
    have refs : R (holders (s.setFd p fd none) + 0) (s.setFd p fd none) := by
      rw [holders_setFd, add_zero]
      exact hR.congr h.refs ⟨rfl, rfl, rfl⟩
    obtain ⟨s', he, hp, refs, files⟩ := fileclose_spec hR refs files
    rw [add_zero] at refs
    refine ⟨s', he, refs, files, fun q hq fd' => ?_⟩
    rw [hp, setFd_cwd] at hq
    have hqp : q ≠ p := fun he => by
      rw [he, hcwd] at hq
      cases hq
    rw [hp, setFd_of_ne _ hqp]
    exact h.gone q hq fd'

/-- The current directory of a process changes. -/
theorem Held.setCwd {c : Option Inum}
    (refs : R (holders (s.modifyProc p fun q => { q with cwd := c })) s) (files : Files 0 s)
    (hp : c = none → ∀ fd, (s.proc p).ofile fd = none)
    (hq : ∀ q, q ≠ p → (s.proc q).cwd = none → ∀ fd, (s.proc q).ofile fd = none) :
    Held R (s.modifyProc p fun q => { q with cwd := c }) := by
  refine ⟨hR.congr refs ⟨rfl, rfl, rfl⟩, files.congr (fds_congr fun q => ?_) rfl, fun q hc fd => ?_⟩
  · by_cases hqp : q = p
    · subst hqp; simp [State.modifyProc]
    · simp [State.modifyProc, hqp]
  · by_cases hqp : q = p
    · subst hqp
      simp only [State.modifyProc, update_self] at hc ⊢
      exact hp hc fd
    · simp only [State.modifyProc, ne_eq, hqp, not_false_eq_true, update_of_ne] at hc ⊢
      exact hq q hqp hc fd

/-! ## Processes -/

theorem dupFiles_spec {np : Slot} (l : List (Fin NOFILE)) (hl : l.Nodup)
    (refs : R (holders s) s) (files : Files 0 s)
    (hnone : ∀ fd ∈ l, (s.proc np).ofile fd = none) :
    ∃ s', dupFiles p np l s = some s' ∧ R (holders s') s' ∧ Files 0 s' ∧
      (∀ q, (s'.proc q).cwd = (s.proc q).cwd) ∧ ∀ q, q ≠ np → s'.proc q = s.proc q := by
  induction l generalizing s with
  | nil => exact ⟨s, rfl, refs, files, fun _ => rfl, fun _ _ => rfl⟩
  | cons fd l ih =>
    obtain ⟨hfd, hl⟩ := List.nodup_cons.1 hl
    rw [dupFiles, ofile_eq]
    cases hf : (s.proc p).ofile fd with
    | none => exact ih hl refs files fun d hd => hnone d (List.mem_cons_of_mem _ hd)
    | some f =>
      obtain ⟨s₁, he, files₁, hh, hp, hrefs⟩ := filedup_spec files (mem_fds hf)
      simp only
      rw [he, Option.bind_some]
      have hnp : (s₁.proc np).ofile fd = none := by rw [hp]; exact hnone fd List.mem_cons_self
      have files₂ : Files 0 (s₁.setFd np fd (some f)) := files₁.setFd (by rw [hnp]; rfl)
      have refs₂ : R (holders (s₁.setFd np fd (some f))) (s₁.setFd np fd (some f)) := by
        rw [holders_setFd, hh]
        exact hR.congr (hR.congr refs hrefs) ⟨rfl, rfl, rfl⟩
      obtain ⟨s₃, he, refs₃, files₃, hcwd, hother⟩ := ih hl refs₂ files₂ fun d hd => by
        have hne : d ≠ fd := fun he => hfd (he ▸ hd)
        rw [setFd_ofile, update_of_ne hne, hp]
        exact hnone d (List.mem_cons_of_mem _ hd)
      refine ⟨s₃, he, refs₃, files₃, fun q => ?_, fun q hq => ?_⟩
      · rw [hcwd, setFd_cwd, hp]
      · rw [hother q hq, setFd_of_ne _ hq, hp]

theorem fork_spec {np : Slot} (h : Held R s) (hcwd : (s.proc p).cwd = some cwd)
    (hnp : (s.proc np).cwd = none) : ∃ s', fork s p np = some s' ∧ Held R s' := by
  obtain ⟨s₁, he, refs, files, hcwds, hother⟩ := dupFiles_spec hR (p := p) (List.finRange NOFILE)
    (List.nodup_finRange _) h.refs h.files fun fd _ => h.gone np hnp fd
  rw [fork, if_neg (by simp [hnp]), he, Option.bind_some, hcwds, hcwd, Option.map_some]
  refine ⟨_, rfl, .setCwd hR ?_ (files.congr rfl rfl) nofun fun q hq hc => ?_⟩
  · have hu := holders_setCwd (s := idup s₁ cwd) (p := np) (some cwd)
    have hnp₁ : ((idup s₁ cwd).proc np).cwd = none := (hcwds np).trans hnp
    rw [hnp₁, Option.elim_none, add_zero, Option.elim_some, add_comm, Multiset.singleton_add] at hu
    rw [hu]
    exact hR.idup refs (mem_holders ((hcwds p).trans hcwd))
  · change (s₁.proc q).cwd = none at hc
    rw [hcwds] at hc
    change ∀ fd, (s₁.proc q).ofile fd = none
    rw [hother q hq]
    exact h.gone q hc

theorem closeFiles_spec (l : List (Fin NOFILE)) (refs : R (holders s) s) (files : Files 0 s) :
    ∃ s', closeFiles p l s = some s' ∧ R (holders s') s' ∧ Files 0 s' ∧
      (∀ q, (s'.proc q).cwd = (s.proc q).cwd) ∧ (∀ q, q ≠ p → s'.proc q = s.proc q) ∧
      ∀ fd, fd ∈ l ∨ (s.proc p).ofile fd = none → (s'.proc p).ofile fd = none := by
  induction l generalizing s with
  | nil => exact ⟨s, rfl, refs, files, fun _ => rfl, fun _ _ => rfl, fun fd h => h.resolve_left
    (by simp)⟩
  | cons fd l ih =>
    rw [closeFiles, ofile_eq]
    cases hf : (s.proc p).ofile fd with
    | none =>
      obtain ⟨s', he, refs, files, hcwd, hother, hnone⟩ := ih refs files
      refine ⟨s', he, refs, files, hcwd, hother, fun d hd => hnone d ?_⟩
      rcases hd with hd | hd
      · rcases List.mem_cons.1 hd with rfl | hd
        · exact .inr hf
        · exact .inl hd
      · exact .inr hd
    | some f =>
      have files₁ : Files (f ::ₘ 0) (s.setFd p fd none) := files.setFd (by rw [hf]; rfl)
      have refs₁ : R (holders (s.setFd p fd none) + 0) (s.setFd p fd none) := by
        rw [holders_setFd, add_zero]
        exact hR.congr refs ⟨rfl, rfl, rfl⟩
      obtain ⟨s₂, he, hp, refs₂, files₂⟩ := fileclose_spec hR refs₁ files₁
      rw [add_zero] at refs₂
      rw [fileclose_setFd, Option.map_eq_some_iff] at he
      obtain ⟨s₁, he, rfl⟩ := he
      simp only
      rw [he, Option.bind_some]
      obtain ⟨s', he, refs, files, hcwd, hother, hnone⟩ := ih refs₂ files₂
      refine ⟨s', he, refs, files, fun q => ?_, fun q hq => ?_, fun d hd => hnone d ?_⟩
      · rw [hcwd, hp, setFd_cwd]
      · rw [hother q hq, hp, setFd_of_ne _ hq]
      · rw [hp, setFd_ofile]
        by_cases hdf : d = fd
        · subst hdf; simp
        · rw [update_of_ne hdf]
          exact hd.imp (fun hd => (List.mem_cons.1 hd).resolve_left hdf) id

theorem exit_spec (h : Held R s) (hcwd : (s.proc p).cwd = some cwd) :
    ∃ s', exit s p = some s' ∧ Held R s' := by
  obtain ⟨s₁, he, refs, files, hcwds, hother, hnone⟩ :=
    closeFiles_spec hR (p := p) (List.finRange NOFILE)
    h.refs h.files
  rw [exit, he, Option.bind_some, hcwds, hcwd, Option.map_some]
  refine ⟨_, rfl, .setCwd hR ?_ ?_ ?_ fun q hq hc => ?_⟩
  · have hu := holders_setCwd (s := iput s₁ cwd) (p := p) none
    rw [iput_proc, hcwds, hcwd, holders_iput, Option.elim_some, Option.elim_none, add_zero,
      add_comm, Multiset.singleton_add] at hu
    rw [← hu] at refs
    exact hR.iput refs
  · exact files.congr (fds_congr fun q => by rw [iput_proc]) iput_file
  · rw [iput_proc]
    exact fun _ fd => hnone fd (.inl (List.mem_finRange fd))
  · rw [iput_proc, hcwds] at hc
    rw [iput_proc, hother q hq]
    exact h.gone q hc

end Logic

end Xv6.Fs
