import Xv6.Vm.Space
import Xv6.Vm.System

/-!
# Conservation of pages

The invariant of the system (`Inv`): the free list and the pages in use are together the pages of
the allocator, while an operation is in the middle of its work with some pages `x` in transit. Each
function of the source keeps it (`inv_fileclose`, `inv_allocproc`, `inv_fork`, …), and so does a
step (`inv_step`).

* A pipe buffer is in use until the last of its ends is closed; that `pipeclose` frees it then and
  never again is because an end is one file at most (`Files`).
* The directory and the size of a process meet a predicate `P`, which `fork`, `exec` and `growproc`
  have to keep (`Spaces`). How much of the memory of a process is tracked is up to `P`.
-/

namespace Xv6.Vm

open Kmem Function

variable {P : Pgdir → UInt32 → Prop} {T x x' F : Multiset Addr} {k k' : Kmem} {s s' : Sys}
  {d d' : Pgdir} {p np : Slot} {v : Addr} {w : Bool} {f g : Fin NFILE}

/-! ## Pipe ends -/

/-- The end of a pipe that a file is, if it is one. -/
def File.end? (ff : File) : Option (Addr × Bool) :=
  if ff.isPipe then some (ff.pipe, ff.writable) else none

/-- Whether the end for writing, or for reading, is open. -/
def Pipe.isOpen (q : Pipe) (w : Bool) : Bool := if w then q.writeopen else q.readopen

/-- Each end of a pipe is one file at most, and is marked open exactly if it is one. -/
structure Files (file : Fin NFILE → File) (pipe : Addr → Pipe) : Prop where
  idle : ∀ f, (file f).ref = 0 → (file f).end? = none
  inj : ∀ {f g e}, (file f).end? = some e → (file g).end? = some e → f = g
  isOpen : ∀ v ∈ pipePages file, ∀ w, (pipe v).isOpen w ↔ ∃ f, (file f).end? = some (v, w)

theorem mem_pipePages {file : Fin NFILE → File} :
    v ∈ pipePages file ↔ ∃ f w, (file f).end? = some (v, w) := by
  simp [pipePages, File.end?]

@[simp] theorem Pipe.isOpen_shut (q : Pipe) (w w' : Bool) :
    (q.shut w).isOpen w' = (q.isOpen w' && (w != w')) := by
  cases w <;> cases w' <;> simp [Pipe.shut, Pipe.isOpen]

/-! ## The invariant -/

/-- The process has memory: its directory is set and was not freed. -/
def Proc.Live (q : Proc) : Prop := q.state ≠ .unused ∧ q.state ≠ .embryo

/-- The pages of the system and those `x` in transit are conserved, and the directory and the size
    of a process meet `P`. -/
structure Inv (P : Pgdir → UInt32 → Prop) (T x : Multiset Addr) (s : Sys) : Prop where
  owns : Owns T s.kmem (s.owned + x)
  space : ∀ p, (s.proc p).Live → ∃ d, (s.proc p).pgdir = some d ∧ P d (s.proc p).sz
  kstack : ∀ p, (s.proc p).state = .unused → (s.proc p).kstack = 0
  files : Files s.file s.pipe

theorem ofAddr_of_ne (h : v ≠ 0) : ofAddr v = {v} := if_neg h

theorem Proc.owned_of_live {q : Proc} (h : q.Live) (hd : q.pgdir = some d) :
    q.owned = ofAddr q.kstack + d.pages := by
  rw [Proc.owned, if_neg (not_or.2 h), hd, Option.elim_some]

theorem Proc.owned_of_not_live {q : Proc} (h : ¬q.Live) : q.owned = ofAddr q.kstack := by
  rw [Proc.owned, if_pos (by rwa [Proc.Live, not_and_or, not_not, not_not] at h), add_zero]

theorem owned_modify (s : Sys) (p : Slot) (f : Proc → Proc) :
    (s.modify p f).owned + (s.proc p).owned = s.owned + (f (s.proc p)).owned := by
  have hu := held_update (h := Proc.owned) (t := fun c => some (s.proc c)) p (some (f (s.proc p)))
  have he : (fun c => some ((s.modify p f).proc c)) =
      update (fun c => some (s.proc c)) p (some (f (s.proc p))) := by
    funext c
    by_cases hc : c = p
    · subst hc; simp [Sys.modify]
    · simp [Sys.modify, hc]
  simp only [Option.elim_some] at hu
  change held Proc.owned (fun c => some ((s.modify p f).proc c)) + _ + _ + _ = held _ _ + _ + _ + _
  rw [he, add_right_comm _ _ (s.proc p).owned, add_right_comm _ _ (s.proc p).owned, hu]
  abel

theorem Inv.setKmem (h : Inv P T x s) (ho : Owns T k (s.owned + x')) :
    Inv P T x' { s with kmem := k } :=
  ⟨ho, h.space, h.kstack, h.files⟩

/-- A process takes pages from those in transit, or leaves them there. -/
theorem Inv.modify (h : Inv P T x s) {t : Proc → Proc}
    (ho : (t (s.proc p)).owned + x' = (s.proc p).owned + x)
    (hsp : (t (s.proc p)).Live →
      ∃ d, (t (s.proc p)).pgdir = some d ∧ P d (t (s.proc p)).sz)
    (hk : (t (s.proc p)).state = .unused → (t (s.proc p)).kstack = 0) :
    Inv P T x' (s.modify p t) := by
  have hproc : ∀ c, (s.modify p t).proc c = if c = p then t (s.proc p) else s.proc c := fun c => by
    simp only [Sys.modify, update_apply]
  refine ⟨h.owns.of_eq ?_, fun c => ?_, fun c => ?_, h.files⟩
  · have hm := owned_modify s p t
    refine add_right_cancel (b := (s.proc p).owned) ?_
    rw [add_right_comm, hm, add_assoc, ho, add_right_comm, add_assoc]
  · rw [hproc]
    split_ifs
    · exact hsp
    · exact h.space c
  · rw [hproc]
    split_ifs
    · exact hk
    · exact h.kstack c

/-- The allocator and a process exchange pages. -/
theorem Inv.move {y : Multiset Addr} (h : Inv P T x s) (hown : Owns T k (s.owned + y))
    {t : Proc → Proc} (ho : (t (s.proc p)).owned + x' = (s.proc p).owned + y)
    (hsp : (t (s.proc p)).Live →
      ∃ d, (t (s.proc p)).pgdir = some d ∧ P d (t (s.proc p)).sz)
    (hk : (t (s.proc p)).state = .unused → (t (s.proc p)).kstack = 0) :
    Inv P T x' ({ s with kmem := k }.modify p t) :=
  (h.setKmem hown).modify ho hsp hk

/-- A process, without its parent and its open files. -/
def Proc.core (q : Proc) : Procstate × Addr × Option Pgdir × UInt32 :=
  (q.state, q.kstack, q.pgdir, q.sz)

/-- Parents and open files do not matter. -/
theorem Inv.of_core (h : Inv P T x s) {procs : Slot → Proc}
    (hc : ∀ q, (procs q).core = (s.proc q).core) : Inv P T x { s with proc := procs } := by
  have hcore : ∀ q, (procs q).state = (s.proc q).state ∧ (procs q).kstack = (s.proc q).kstack ∧
      (procs q).pgdir = (s.proc q).pgdir ∧ (procs q).sz = (s.proc q).sz := fun q => by
    simpa [Proc.core] using hc q
  refine ⟨h.owns.of_eq ?_, fun p => ?_, fun p => ?_, h.files⟩
  · have : ∀ q, (procs q).owned = (s.proc q).owned := fun q => by
      obtain ⟨h₁, h₂, h₃, -⟩ := hcore q
      rw [Proc.owned, Proc.owned, h₁, h₂, h₃]
    simp only [Sys.owned, held, Option.elim_some, this]
    rfl
  · obtain ⟨h₁, -, h₃, h₄⟩ := hcore p
    simp only [Proc.Live, h₁, h₃, h₄]
    exact h.space p
  · obtain ⟨h₁, h₂, -⟩ := hcore p
    simp only [h₁, h₂]
    exact h.kstack p

theorem core_setFd (s : Sys) (p q : Slot) (fd : Fin NOFILE) (y : Option (Fin NFILE)) :
    ((s.setFd p fd y).proc q).core = (s.proc q).core := by
  simp only [Sys.setFd, Sys.modify, update_apply]
  split_ifs with h
  · subst h; rfl
  · rfl

theorem Inv.setFd (h : Inv P T x s) (p : Slot) (fd : Fin NOFILE) (y : Option (Fin NFILE)) :
    Inv P T x (s.setFd p fd y) :=
  h.of_core fun q => core_setFd s p q fd y

/-! ## Files -/

theorem end?_modifyFile (s : Sys) (f : Fin NFILE) (t : File → File) (g : Fin NFILE) :
    ((s.modifyFile f t).file g).end? =
      if g = f then (t (s.file f)).end? else (s.file g).end? := by
  simp only [Sys.modifyFile, update_apply]
  split_ifs <;> rfl

/-- Reference counts do not matter, as long as a file in use is counted. -/
theorem Inv.modifyFile (h : Inv P T x s) {t : File → File}
    (he : (t (s.file f)).end? = (s.file f).end?)
    (hr : (t (s.file f)).ref = 0 → (s.file f).end? = none) : Inv P T x (s.modifyFile f t) := by
  have hend : ∀ g, ((s.modifyFile f t).file g).end? = (s.file g).end? := fun g => by
    rw [end?_modifyFile]
    split_ifs with hg
    · rw [he, hg]
    · rfl
  have hpipes : pipePages (s.modifyFile f t).file = pipePages s.file := Finset.ext fun v => by
    simp only [mem_pipePages, hend]
  refine ⟨h.owns.of_eq ?_, h.space, h.kstack, fun g hg => ?_, fun h₁ h₂ => ?_, fun v hv w => ?_⟩
  · simp only [Sys.owned, hpipes]
    rfl
  · rw [hend]
    by_cases hgf : g = f
    · subst hgf
      exact hr (by simpa [Sys.modifyFile] using hg)
    · exact h.files.idle g (by simpa [Sys.modifyFile, hgf] using hg)
  · rw [hend] at h₁ h₂
    exact h.files.inj h₁ h₂
  · simp only [hend]
    exact h.files.isOpen v (hpipes ▸ hv) w

theorem inv_filealloc (h : Inv P T x s) (hr : filealloc s = some (f, s')) :
    Inv P T x s' ∧ s'.proc = s.proc ∧ (s'.file f).end? = none ∧ (s'.file f).ref ≠ 0 ∧
      ∀ g, (s.file g).ref ≠ 0 → g ≠ f ∧ s'.file g = s.file g := by
  obtain ⟨h0, rfl⟩ := of_filealloc hr
  have hend := h.files.idle f h0
  refine ⟨h.modifyFile rfl nofun, rfl, ?_, ?_, fun c hc => ?_⟩
  · exact (end?_modifyFile ..).trans ((if_pos rfl).trans hend)
  · exact (congrArg File.ref (update_self ..)).trans_ne one_ne_zero
  · have hne : c ≠ f := fun he => hc (he ▸ h0)
    exact ⟨hne, update_of_ne hne ..⟩

theorem inv_filedup (h : Inv P T x s) (hr : filedup s f = some s') :
    Inv P T x s' ∧ s'.proc = s.proc := by
  rw [filedup] at hr
  split_ifs at hr
  obtain rfl := Option.some.inj hr
  exact ⟨h.modifyFile rfl (by simp), rfl⟩

section Ends

variable {file file' : Fin NFILE → File} {pipe : Addr → Pipe}

theorem Files.close (h : Files file pipe) (hf : (file f).end? = some (v, w))
    (hi : ∀ g, (file' g).ref = 0 → (file' g).end? = none)
    (he : ∀ g, (file' g).end? = if g = f then none else (file g).end?) :
    Files file' (update pipe v ((pipe v).shut w)) := by
  have hend : ∀ {g e}, (file' g).end? = some e ↔ g ≠ f ∧ (file g).end? = some e := fun {g e} => by
    rw [he]
    split_ifs with hg <;> simp [hg]
  refine ⟨hi, fun h₁ h₂ => h.inj (hend.1 h₁).2 (hend.1 h₂).2, fun u hu w' => ?_⟩
  obtain ⟨g, w₁, hg⟩ := mem_pipePages.1 hu
  have hold := h.isOpen u (mem_pipePages.2 ⟨g, w₁, (hend.1 hg).2⟩) w'
  simp only [hend]
  by_cases huv : u = v
  · subst huv
    rw [update_self, Pipe.isOpen_shut, Bool.and_eq_true, hold, bne_iff_ne]
    constructor
    · rintro ⟨⟨c, hc⟩, hne⟩
      refine ⟨c, fun hcf => hne ?_, hc⟩
      rw [hcf, hf] at hc
      exact (Prod.mk.inj (Option.some.inj hc)).2
    · rintro ⟨c, hcf, hc⟩
      refine ⟨⟨c, hc⟩, fun hw => hcf (h.inj hc ?_)⟩
      rw [hf, hw]
  · rw [update_of_ne huv, hold]
    refine exists_congr fun c => (and_iff_right_of_imp fun hc hcf => huv ?_).symm
    rw [hcf, hf] at hc
    exact (Prod.mk.inj (Option.some.inj hc)).1.symm

/-- The buffer of a pipe is in use until its last end is closed. -/
theorem Files.pipePages_close (h : Files file pipe) (hf : (file f).end? = some (v, w))
    (he : ∀ g, (file' g).end? = if g = f then none else (file g).end?) :
    if (pipe v).isOpen (!w) then pipePages file' = pipePages file
    else (pipePages file).val = v ::ₘ (pipePages file').val := by
  have hend : ∀ {g e}, (file' g).end? = some e ↔ g ≠ f ∧ (file g).end? = some e := fun {g e} => by
    rw [he]
    split_ifs with hg <;> simp [hg]
  have hmem : v ∈ pipePages file := mem_pipePages.2 ⟨f, w, hf⟩
  -- Every other file of the pipe is its other end.
  have hother : ∀ g w', (file' g).end? = some (v, w') → w' = !w := fun g w' hg => by
    obtain ⟨hgf, hg⟩ := hend.1 hg
    refine Bool.eq_not_of_ne fun hw => hgf (h.inj hg ?_)
    rw [hf, hw]
  have hne : ∀ u, u ≠ v → (u ∈ pipePages file' ↔ u ∈ pipePages file) := fun u hu => by
    simp only [mem_pipePages, hend]
    refine exists_congr fun g => exists_congr fun w' => and_iff_right_of_imp fun hg hgf => hu ?_
    rw [hgf, hf] at hg
    exact (Prod.mk.inj (Option.some.inj hg)).1.symm
  split_ifs with ho
  · obtain ⟨g, hg⟩ := (h.isOpen v hmem _).1 ho
    have hv : v ∈ pipePages file' := mem_pipePages.2 ⟨g, !w, hend.2 ⟨fun hgf => ?_, hg⟩⟩
    · refine Finset.ext fun u => ?_
      by_cases hu : u = v
      · subst hu; exact iff_of_true hv hmem
      · exact hne u hu
    · rw [hgf, hf] at hg
      exact absurd (Prod.mk.inj (Option.some.inj hg)).2 (by cases w <;> decide)
  · have hv : v ∉ pipePages file' := fun hv => by
      obtain ⟨g, w', hg⟩ := mem_pipePages.1 hv
      obtain rfl := hother g w' hg
      exact ho ((h.isOpen v hmem _).2 ⟨g, (hend.1 hg).2⟩)
    rw [← Finset.insert_val_of_notMem hv]
    refine congrArg _ (Finset.ext fun u => ?_)
    rw [Finset.mem_insert]
    by_cases hu : u = v
    · subst hu; simp [hmem]
    · simp [hu, hne u hu]

/-- The two ends of a new pipe. -/
theorem Files.create (h : Files file pipe) (hv : v ∉ pipePages file) (hfg : f ≠ g)
    (hf : (file f).end? = none) (hg : (file g).end? = none)
    (hi : ∀ c, (file' c).ref = 0 → (file' c).end? = none)
    (he : ∀ c, (file' c).end? = if c = g then some (v, true) else if c = f then some (v, false)
      else (file c).end?) :
    Files file' (update pipe v ⟨true, true⟩) ∧
      (pipePages file').val = v ::ₘ (pipePages file).val := by
  have hend : ∀ {c u w'}, (file' c).end? = some (u, w') ↔
      (file c).end? = some (u, w') ∨ u = v ∧ c = if w' then g else f := fun {c u w'} => by
    rw [he]
    by_cases h₁ : c = g
    · subst h₁
      cases w' <;> simp [hg, hfg.symm, eq_comm]
    by_cases h₂ : c = f
    · subst h₂
      cases w' <;> simp [hf, h₁, eq_comm]
    · cases w' <;> simp [h₁, h₂]
  have hnot : ∀ {c w'}, (file c).end? ≠ some (v, w') := fun {c w'} hc =>
    hv (mem_pipePages.2 ⟨c, w', hc⟩)
  have hmem : ∀ u, u ∈ pipePages file' ↔ u = v ∨ u ∈ pipePages file := fun u => by
    simp only [mem_pipePages, hend]
    constructor
    · rintro ⟨c, w', hc | ⟨rfl, -⟩⟩
      · exact .inr ⟨c, w', hc⟩
      · exact .inl rfl
    · rintro (rfl | ⟨c, w', hc⟩)
      · exact ⟨f, false, .inr ⟨rfl, rfl⟩⟩
      · exact ⟨c, w', .inl hc⟩
  refine ⟨⟨hi, fun {c c' e} h₁ h₂ => ?_, fun u hu w' => ?_⟩, ?_⟩
  · obtain ⟨u, w'⟩ := e
    rcases hend.1 h₁ with h₁ | ⟨rfl, h₁⟩ <;> rcases hend.1 h₂ with h₂ | ⟨hu, h₂⟩
    · exact h.inj h₁ h₂
    · exact absurd (hu ▸ h₁) hnot
    · exact absurd h₂ hnot
    · rw [h₁, h₂]
  · simp only [hend]
    by_cases huv : u = v
    · subst huv
      rw [update_self]
      refine iff_of_true (by cases w' <;> rfl) ⟨if w' then g else f, .inr ⟨rfl, rfl⟩⟩
    · rw [update_of_ne huv, h.isOpen u (((hmem u).1 hu).resolve_left huv)]
      simp [huv]
  · rw [← Finset.insert_val_of_notMem hv]
    refine congrArg _ (Finset.ext fun u => ?_)
    rw [hmem, Finset.mem_insert]

end Ends

theorem pipeclose_eq (s : Sys) (v : Addr) (w : Bool) : pipeclose s v w =
    if (s.pipe v).isOpen (!w) then
      some { s with pipe := update s.pipe v ((s.pipe v).shut w) }
    else (kfree s.kmem v).map fun k =>
      { s with kmem := k, pipe := update s.pipe v ((s.pipe v).shut w) } := by
  have hcond : (((s.pipe v).shut w).readopen = false ∧ ((s.pipe v).shut w).writeopen = false) ↔
      ¬(s.pipe v).isOpen (!w) := by
    cases w <;> simp [Pipe.shut, Pipe.isOpen]
  simp only [pipeclose, hcond]
  split_ifs <;> rfl

/-- The end `f` of a pipe is closed, and the buffer freed if it was the last one. -/
theorem inv_pipeclose {file' : Fin NFILE → File} (h : Inv P T x s)
    (hf : (s.file f).end? = some (v, w)) (hi : ∀ g, (file' g).ref = 0 → (file' g).end? = none)
    (he : ∀ g, (file' g).end? = if g = f then none else (s.file g).end?)
    (hr : pipeclose { s with file := file' } v w = some s') :
    Inv P T x s' ∧ s'.proc = s.proc := by
  have hfiles := h.files.close hf hi he
  have hpages := h.files.pipePages_close hf he
  rw [pipeclose_eq] at hr
  simp only at hr
  split_ifs at hr hpages with ho
  · obtain rfl := Option.some.inj hr
    refine ⟨⟨h.owns.of_eq ?_, h.space, h.kstack, hfiles⟩, rfl⟩
    simp only [Sys.owned, hpages]
    rfl
  · have hown : Owns T s.kmem (v ::ₘ ({ s with file := file' }.owned + x)) := h.owns.of_eq (by
      simp only [Sys.owned, hpages, Multiset.add_cons, Multiset.cons_add]
      rfl)
    obtain ⟨k, hk, hok⟩ := hown.kfree
    simp only [hk, Option.map_some, Option.some.injEq] at hr
    subst hr
    exact ⟨⟨hok, h.space, h.kstack, hfiles⟩, rfl⟩

theorem inv_fileclose (h : Inv P T x s) (hr : fileclose s f = some s') :
    Inv P T x s' ∧ s'.proc = s.proc := by
  rw [fileclose] at hr
  split_ifs at hr with h1 h2
  · obtain rfl := Option.some.inj hr
    exact ⟨h.modifyFile rfl fun h0 => absurd h0 h2.ne', rfl⟩
  change (if (s.file f).isPipe then _ else _) = _ at hr
  split_ifs at hr with hp
  · have he := end?_modifyFile s f fun ff => { ff with ref := 0, isPipe := false }
    refine inv_pipeclose h (if_pos hp) (fun g hg => ?_) he hr
    rw [he]
    split_ifs with hgf
    · rfl
    · exact h.files.idle g (by simpa [Sys.modifyFile, hgf] using hg)
  · obtain rfl := Option.some.inj hr
    have hend : (s.file f).end? = none := if_neg hp
    exact ⟨h.modifyFile (hend ▸ rfl) fun _ => hend, rfl⟩

/-- A page becomes the buffer of a pipe, with two files that were allocated for its ends. -/
theorem Inv.create (h : Inv P T (v ::ₘ x) s) (hfg : f ≠ g) (hf : (s.file f).end? = none)
    (hg : (s.file g).end? = none) (hf' : (s.file f).ref ≠ 0) (hg' : (s.file g).ref ≠ 0) :
    Inv P T x (({ s with pipe := update s.pipe v ⟨true, true⟩ }.modifyFile f fun ff =>
      { ff with isPipe := true, writable := false, pipe := v }).modifyFile g fun ff =>
      { ff with isPipe := true, writable := true, pipe := v }) := by
  have hv : v ∉ pipePages s.file := fun hm => by
    have hn := h.owns.nodup_own
    rw [Multiset.add_cons] at hn
    refine (Multiset.nodup_cons.1 hn).1 (Multiset.mem_add.2 (.inl ?_))
    exact Multiset.mem_add.2 (.inl (Multiset.mem_add.2 (.inr hm)))
  generalize hs' : (({ s with pipe := update s.pipe v ⟨true, true⟩ }.modifyFile f fun ff =>
      { ff with isPipe := true, writable := false, pipe := v }).modifyFile g fun ff =>
      { ff with isPipe := true, writable := true, pipe := v }) = s'
  have href : ∀ c, (s'.file c).ref = (s.file c).ref := fun c => by
    subst hs'
    simp only [Sys.modifyFile, update_apply]
    split_ifs with h₁ h₂ h₃ <;> simp_all
  have he : ∀ c, (s'.file c).end? = if c = g then some (v, true) else if c = f then some (v, false)
      else (s.file c).end? := fun c => by
    subst hs'
    rw [end?_modifyFile, end?_modifyFile]
    rfl
  obtain ⟨hfiles, hpages⟩ := h.files.create hv hfg hf hg (fun c hc => by
    rw [he, if_neg fun hcg => hg' (by rw [← hcg, ← href, hc]),
      if_neg fun hcf => hf' (by rw [← hcf, ← href, hc])]
    exact h.files.idle c ((href c).symm.trans hc)) he
  subst hs'
  refine ⟨h.owns.of_eq ?_, h.space, h.kstack, hfiles⟩
  simp only [Sys.owned, hpages, Multiset.add_cons, Multiset.cons_add]
  rfl

theorem inv_pipealloc {y : Option (Fin NFILE × Fin NFILE)} (h : Inv P T x s)
    (hr : pipealloc s = some (y, s')) : Inv P T x s' ∧ s'.proc = s.proc := by
  rw [pipealloc] at hr
  split at hr
  · obtain ⟨-, rfl⟩ := (by simpa using hr : none = y ∧ s = s')
    exact ⟨h, rfl⟩
  rename_i f₀ s₁ hf₀
  obtain ⟨h₁, hp₁, hend₀, href₀, -⟩ := inv_filealloc h hf₀
  split at hr
  · obtain ⟨s₂, hs₂, he⟩ := Option.map_eq_some_iff.1 hr
    obtain ⟨-, rfl⟩ := Prod.mk.inj he
    obtain ⟨h₂, hp₂⟩ := inv_fileclose h₁ hs₂
    exact ⟨h₂, hp₂.trans hp₁⟩
  rename_i f₁ s₂ hf₁
  obtain ⟨h₂, hp₂, hend₁, href₁, hkeep⟩ := inv_filealloc h₁ hf₁
  obtain ⟨hne, hfile₀⟩ := hkeep f₀ href₀
  simp only at hr
  rcases h₂.owns.kalloc with ⟨hk, ho⟩ | ⟨hk, ho⟩
  · rw [if_pos hk] at hr
    obtain ⟨s₃, hs₃, hr⟩ := Option.bind_eq_some_iff.1 hr
    obtain ⟨s₄, hs₄, he⟩ := Option.map_eq_some_iff.1 hr
    obtain ⟨-, rfl⟩ := Prod.mk.inj he
    obtain ⟨h₃, hp₃⟩ := inv_fileclose (h₂.setKmem ho) hs₃
    obtain ⟨h₄, hp₄⟩ := inv_fileclose h₃ hs₄
    exact ⟨h₄, hp₄.trans (hp₃.trans (hp₂.trans hp₁))⟩
  · rw [if_neg hk] at hr
    obtain ⟨-, rfl⟩ := Prod.mk.inj (Option.some.inj hr)
    refine ⟨?_, hp₂.trans hp₁⟩
    exact (h₂.setKmem (ho.of_eq (Multiset.add_cons _ _ _))).create hne (hfile₀ ▸ hend₀) hend₁
      (hfile₀ ▸ href₀) href₁

/-! ## System calls on files -/

theorem inv_fdalloc {fd : Fin NOFILE} (h : Inv P T x s) (hr : fdalloc s p f = some (fd, s')) :
    Inv P T x s' := by
  obtain ⟨-, rfl⟩ := of_fdalloc hr
  exact h.setFd p fd (some f)

theorem inv_fileclose₂ (h : Inv P T x s)
    (hr : ((fileclose s f).bind fun s => fileclose s g) = some s') : Inv P T x s' := by
  obtain ⟨s₁, hs₁, hr⟩ := Option.bind_eq_some_iff.1 hr
  exact (inv_fileclose (inv_fileclose h hs₁).1 hr).1

theorem inv_sysPipe (h : Inv P T x s) (hr : sysPipe s p = some s') : Inv P T x s' := by
  obtain ⟨⟨_ | ⟨rf, wf⟩, s₁⟩, hs₁, hr⟩ := Option.bind_eq_some_iff.1 hr
  · obtain rfl := Option.some.inj hr
    exact (inv_pipealloc h hs₁).1
  have h₁ := (inv_pipealloc h hs₁).1
  simp only at hr
  split at hr
  · exact inv_fileclose₂ h₁ hr
  rename_i fd₀ s₂ hs₂
  have h₂ := inv_fdalloc h₁ hs₂
  split at hr
  · exact inv_fileclose₂ (h₂.setFd p fd₀ none) hr
  · rename_i s₃ hs₃
    obtain rfl := Option.some.inj hr
    exact inv_fdalloc h₂ hs₃

theorem inv_sysClose {fd : Fin NOFILE} (h : Inv P T x s) (hr : sysClose s p fd = some s') :
    Inv P T x s' := by
  rw [sysClose] at hr
  split at hr
  · exact Option.some.inj hr ▸ h
  · exact (inv_fileclose (h.setFd p fd none) hr).1

theorem inv_sysDup {fd : Fin NOFILE} (h : Inv P T x s) (hr : sysDup s p fd = some s') :
    Inv P T x s' := by
  rw [sysDup] at hr
  split at hr
  · exact Option.some.inj hr ▸ h
  split at hr
  · exact Option.some.inj hr ▸ h
  · rename_i hs₁
    exact (inv_filedup (inv_fdalloc h hs₁) hr).1

/-! ## Processes -/

theorem inv_dupFiles {l : List (Fin NOFILE)} (h : Inv P T x s)
    (hr : dupFiles p np l s = some s') :
    Inv P T x s' ∧ ∀ q, (s'.proc q).core = (s.proc q).core := by
  induction l generalizing s with
  | nil => exact Option.some.inj hr ▸ ⟨h, fun _ => rfl⟩
  | cons fd l ih =>
    rw [dupFiles] at hr
    split at hr
    · exact ih h hr
    · rename_i f _
      obtain ⟨s₁, hs₁, hr⟩ := Option.bind_eq_some_iff.1 hr
      obtain ⟨h₁, hp₁⟩ := inv_filedup h hs₁
      obtain ⟨h', hcore⟩ := ih (h₁.setFd np fd (some f)) hr
      exact ⟨h', fun q => (hcore q).trans ((core_setFd s₁ np q fd (some f)).trans (by rw [hp₁]))⟩

theorem inv_closeFiles {l : List (Fin NOFILE)} (h : Inv P T x s)
    (hr : closeFiles p l s = some s') :
    Inv P T x s' ∧ ∀ q, (s'.proc q).core = (s.proc q).core := by
  induction l generalizing s with
  | nil => exact Option.some.inj hr ▸ ⟨h, fun _ => rfl⟩
  | cons fd l ih =>
    rw [closeFiles] at hr
    split at hr
    · exact ih h hr
    · obtain ⟨s₁, hs₁, hr⟩ := Option.bind_eq_some_iff.1 hr
      obtain ⟨h₁, hp₁⟩ := inv_fileclose h hs₁
      obtain ⟨h', hcore⟩ := ih (h₁.setFd p fd none) hr
      exact ⟨h', fun q => (hcore q).trans ((core_setFd s₁ p q fd none).trans (by rw [hp₁]))⟩

/-- `allocproc` gives a kernel stack to an unused process, or changes nothing but the allocator. -/
theorem inv_allocproc (h : Inv P T x s) {y : Option Slot} (hr : allocproc s = (y, s')) :
    Inv P T x s' ∧ ∀ p, y = some p → (s.proc p).state = .unused ∧
      (s'.proc p).state = .embryo ∧ (s'.proc p).kstack ≠ 0 ∧ ∀ q, q ≠ p → s'.proc q = s.proc q := by
  rw [allocproc] at hr
  split at hr
  · obtain ⟨rfl, rfl⟩ := Prod.mk.inj hr
    exact ⟨h, nofun⟩
  rename_i p hp
  have hst : (s.proc p).state = .unused := by simpa using List.find?_some hp
  have hnot : ¬(s.proc p).Live := fun hl => hl.1 hst
  have hown : (s.proc p).owned = 0 := by
    rw [Proc.owned_of_not_live hnot, h.kstack p hst]
    rfl
  simp only at hr
  rcases h.owns.kalloc with ⟨hk, ho⟩ | ⟨hk, ho⟩
  · rw [if_pos hk] at hr
    obtain ⟨rfl, rfl⟩ := Prod.mk.inj hr
    refine ⟨h.move ho ?_ (fun hl => absurd hst hl.1) fun _ => rfl, nofun⟩
    rw [hown]
    exact congrArg (· + x) (Proc.owned_of_not_live fun hl => hl.1 hst)
  · rw [if_neg hk] at hr
    obtain ⟨rfl, rfl⟩ := Prod.mk.inj hr
    refine ⟨h.move (ho.of_eq (Multiset.add_cons _ _ _)) ?_ (fun hl => absurd rfl hl.2) nofun,
      fun q hq => ?_⟩
    · rw [Proc.owned_of_not_live fun hl => hl.2 rfl, hown, ofAddr_of_ne hk, zero_add,
        Multiset.singleton_add]
    · obtain rfl := Option.some.inj hq
      refine ⟨hst, ?_, ?_, fun c hc => ?_⟩
      · simp [Sys.modify]
      · simpa [Sys.modify] using hk
      · simp [Sys.modify, hc]

/-- What a predicate on the directory and the size of a process has to keep, if `growproc(n)` is
    only called as `G` says. -/
structure Spaces (P : Pgdir → UInt32 → Prop) (G : UInt32 → Int32 → Prop) : Prop where
  kern : ∀ {d sz}, P d sz → d.Kern ∧ sz < KERNBASE
  copy : ∀ {d c sz}, P d sz → c.Maps (npages sz) → P c sz
  layout : ∀ {d sz}, Layout d sz → sz ≠ 0 → P d sz
  grow : ∀ {T F : Multiset Addr} {k k' d d' sz sz' n r}, Owns T k (d.pages + F) → P d sz → G sz n →
    growproc n d sz k = some (r, d', sz', k') → P d' sz'

section Step

variable {G : UInt32 → Int32 → Prop}

theorem inv_fork (hP : Spaces P G) (h : Inv P T 0 s) (hp : (s.proc p).Live)
    (hr : fork s p = some s') : Inv P T 0 s' := by
  rw [fork] at hr
  split at hr
  · rename_i s₁ hs₁
    exact Option.some.inj hr ▸ (inv_allocproc h hs₁).1
  rename_i np s₁ hs₁
  obtain ⟨h₁, hnp⟩ := inv_allocproc h hs₁
  obtain ⟨hunused, hembryo, hkst, hother⟩ := hnp np rfl
  have hne : p ≠ np := fun he => hp.1 (he ▸ hunused)
  have hnot : ¬(s₁.proc np).Live := fun hl => hl.2 hembryo
  rw [hother p hne] at hr
  obtain ⟨d, hd, hPd⟩ := h.space p hp
  rw [hd, Option.bind_some] at hr
  obtain ⟨⟨_ | c, k⟩, hc, hr⟩ := Option.bind_eq_some_iff.1 hr
  · -- Without memory for a copy, the stack is given back.
    obtain ⟨ho, -⟩ := copyuvm_spec h₁.owns (UInt32.le_of_lt (hP.kern hPd).2) hc
    have h₂ : Inv P T {(s₁.proc np).kstack} ({ s₁ with kmem := k }.modify np fun q =>
        { q with pgdir := none, kstack := 0, state := .unused }) := by
      refine h₁.move (y := 0) (ho.of_eq (by simp)) ?_ (fun hl => absurd rfl hl.1) fun _ => rfl
      rw [Proc.owned_of_not_live fun hl => hl.1 rfl, Proc.owned_of_not_live hnot,
        ofAddr_of_ne hkst, add_comm]
      rfl
    have ho₂ := h₂.owns
    rw [add_comm, Multiset.singleton_add] at ho₂
    obtain ⟨k₂, hk₂, ho₃⟩ := ho₂.kfree
    obtain ⟨k₃, hk₃, he⟩ := Option.map_eq_some_iff.1 hr
    obtain rfl := Option.some.inj (hk₂.symm.trans hk₃)
    subst he
    exact h₂.setKmem (ho₃.of_eq (add_zero _))
  · obtain ⟨ho, hmaps⟩ := copyuvm_spec h₁.owns (UInt32.le_of_lt (hP.kern hPd).2) hc
    -- The copy is in transit until the child is runnable.
    have h₂ : Inv P T c.pages ({ s₁ with kmem := k }.modify np fun q =>
        { q with pgdir := some c, sz := (s.proc p).sz, parent := some p }) := by
      refine h₁.move (y := c.pages) (ho.of_eq ?_) ?_ (fun hl => absurd hl hnot) fun hs => ?_
      · rw [Option.elim_some, add_zero, add_comm]
      · rw [Proc.owned_of_not_live hnot]
        exact congrArg (· + c.pages) (Proc.owned_of_not_live hnot)
      · exact absurd (hembryo.symm.trans hs) (by decide)
    obtain ⟨s₃, hs₃, rfl⟩ := Option.map_eq_some_iff.1 hr
    obtain ⟨h₃, hcore⟩ := inv_dupFiles h₂ hs₃
    obtain ⟨hst₃, -, hpg₃, hsz₃⟩ : (s₃.proc np).state = (s₁.proc np).state ∧
        (s₃.proc np).kstack = (s₁.proc np).kstack ∧
        (s₃.proc np).pgdir = some c ∧ (s₃.proc np).sz = (s.proc p).sz := by
      simpa [Proc.core, Sys.modify] using hcore np
    have hnot₃ : ¬(s₃.proc np).Live := fun hl => hl.2 (hst₃.trans hembryo)
    refine h₃.modify ?_ (fun _ => ⟨c, hpg₃, ?_⟩) nofun
    · rw [Proc.owned_of_not_live hnot₃, add_zero]
      exact Proc.owned_of_live ⟨nofun, nofun⟩ hpg₃
    · rw [hsz₃]
      exact hP.copy hPd (hmaps c rfl)

theorem inv_exit (h : Inv P T 0 s) (hp : (s.proc p).Live) (hr : exit s p = some s') :
    Inv P T 0 s' := by
  rw [exit] at hr
  split_ifs at hr
  obtain ⟨s₁, hs₁, rfl⟩ := Option.map_eq_some_iff.1 hr
  obtain ⟨h₁, hcore⟩ := inv_closeFiles h hs₁
  have h₂ : Inv P T 0 { s₁ with proc := fun c => if (s₁.proc c).parent = some p then
      { s₁.proc c with parent := some initproc } else s₁.proc c } := h₁.of_core fun q => by
    split_ifs <;> rfl
  have hst : (if (s₁.proc p).parent = some p then { s₁.proc p with parent := some initproc }
      else s₁.proc p).state = (s.proc p).state := by
    have := congrArg Prod.fst (hcore p)
    split_ifs <;> exact this
  generalize hs₂ : ({ s₁ with proc := fun c => if (s₁.proc c).parent = some p then
      { s₁.proc c with parent := some initproc } else s₁.proc c } : Sys) = s₂ at h₂ ⊢
  have hlive : (s₂.proc p).Live := by
    subst hs₂
    rw [Proc.Live, hst]
    exact hp
  obtain ⟨d, hd, hPd⟩ := h₂.space p hlive
  refine h₂.modify ?_ (fun _ => ⟨d, hd, hPd⟩) nofun
  rw [Proc.owned_of_live hlive hd]
  exact congrArg (· + 0) (Proc.owned_of_live ⟨nofun, nofun⟩ hd)

theorem inv_wait (hP : Spaces P G) (h : Inv P T 0 s) (hr : wait s p = some s') : Inv P T 0 s' := by
  rw [wait] at hr
  split at hr
  · exact Option.some.inj hr ▸ h
  rename_i c hc
  have hst : (s.proc c).state = .zombie := by
    have := List.find?_some hc
    simp only [decide_eq_true_eq] at this
    exact this.2
  have hlive : (s.proc c).Live := by rw [Proc.Live, hst]; exact ⟨nofun, nofun⟩
  obtain ⟨d, hd, hPd⟩ := h.space c hlive
  obtain ⟨k₁, hk₁, hr⟩ := Option.bind_eq_some_iff.1 hr
  rw [hd, Option.bind_some] at hr
  have hkst : (s.proc c).kstack ≠ 0 := fun h0 => by
    rw [h0, kfree, if_neg (by decide)] at hk₁
    cases hk₁
  -- The pages of the child are in transit, and are freed.
  have h₁ : Inv P T ((s.proc c).kstack ::ₘ d.pages) (s.modify c fun q =>
      { q with kstack := 0, parent := none, state := .unused }) := by
    refine h.modify ?_ (fun hl => absurd rfl hl.1) fun _ => rfl
    rw [Proc.owned_of_live hlive hd, ofAddr_of_ne hkst, add_zero, Multiset.singleton_add]
    exact (congrArg (· + _) (Proc.owned_of_not_live fun hl => hl.1 rfl)).trans (zero_add _)
  have ho₁ := h₁.owns
  rw [Multiset.add_cons] at ho₁
  obtain ⟨k₂, hk₂, ho₂⟩ := ho₁.kfree
  obtain rfl := Option.some.inj (hk₁.symm.trans hk₂)
  obtain ⟨k₃, hk₃, ho₃⟩ := exists_freevm (ho₂.of_eq (add_comm _ _)) (hP.kern hPd).1
  rw [hk₃] at hr
  obtain rfl := Option.some.inj hr
  exact h₁.setKmem (ho₃.of_eq (add_zero _))

/-- The pages of a directory that `exec` or `growproc` works on are in transit: the process is as
    an embryo for that time. -/
theorem Inv.detach (h : Inv P T 0 s) (hp : (s.proc p).Live) (hd : (s.proc p).pgdir = some d) :
    Inv P T d.pages (s.modify p fun q => { q with state := .embryo }) := by
  refine h.modify ?_ (fun hl => absurd rfl hl.2) nofun
  rw [Proc.owned_of_live hp hd, add_zero]
  exact congrArg (· + d.pages) (Proc.owned_of_not_live fun hl => hl.2 rfl)

theorem Inv.attach {sz : UInt32} {r : Int32}
    (h : Inv P T x (s.modify p fun q => { q with state := .embryo })) (hp : (s.proc p).Live)
    (ho : Owns T k (d.pages + (s.modify p fun q => { q with state := .embryo }).owned))
    (hP : P d sz) : Inv P T 0 (s.setSpace p (r, d, sz, k)) := by
  have hs : s.setSpace p (r, d, sz, k) =
      { s.modify p fun q => { q with state := .embryo } with kmem := k }.modify p fun q =>
        { q with state := (s.proc p).state, pgdir := some d, sz := sz } := by
    simp [Sys.setSpace, Sys.modify]
  rw [hs]
  refine h.move (ho.of_eq (add_comm _ _)) ?_ (fun _ => ⟨d, rfl, hP⟩) fun he => absurd he hp.1
  have hq : (s.modify p fun q => { q with state := .embryo }).proc p =
      { s.proc p with state := .embryo } := by simp [Sys.modify]
  rw [hq, add_zero, Proc.owned_of_not_live (q := { s.proc p with state := .embryo })
    fun hl => hl.2 rfl]
  exact Proc.owned_of_live (q := { s.proc p with pgdir := some d, sz := sz }) hp rfl

theorem inv_growproc (hP : Spaces P G) (h : Inv P T 0 s) (hp : (s.proc p).Live) {n : Int32}
    (hn : G (s.proc p).sz n) (hr : Op.run s p (.growproc n) = some s') : Inv P T 0 s' := by
  obtain ⟨d, hd, hPd⟩ := h.space p hp
  rw [Op.run, hd, Option.bind_some] at hr
  obtain ⟨⟨r, d', sz', k'⟩, hg, rfl⟩ := Option.map_eq_some_iff.1 hr
  have h₁ := h.detach hp hd
  have ho := h₁.owns.of_eq (add_comm _ _)
  have hk := hP.kern hPd
  exact h₁.attach hp (owns_growproc ho hk.1 hk.2 hg).1 (hP.grow ho hPd hn hg)

theorem inv_exec (hP : Spaces P G) (h : Inv P T 0 s) (hp : (s.proc p).Live) {y : Program}
    (hr : Op.run s p (.exec y) = some s') : Inv P T 0 s' := by
  obtain ⟨d, hd, hPd⟩ := h.space p hp
  rw [Op.run, hd, Option.bind_some] at hr
  split_ifs at hr
  obtain ⟨⟨r, d', sz', k'⟩, he, rfl⟩ := Option.map_eq_some_iff.1 hr
  have h₁ := h.detach hp hd
  obtain ⟨ho, ⟨-, rfl, rfl⟩ | ⟨-, hl, h0⟩⟩ :=
    exec_spec (h₁.owns.of_eq (add_comm _ _)) (hP.kern hPd).1 he
  · exact h₁.attach hp ho hPd
  · exact h₁.attach hp ho (hP.layout hl h0)

/-- The calls of `growproc` are as `G` says. -/
def Calls (G : UInt32 → Int32 → Prop) (s : Sys) (a : Act) : Prop :=
  ∀ n, a.op = .growproc n → G (s.proc a.p).sz n

theorem inv_step (hP : Spaces P G) (h : Inv P T 0 s) {a : Act} (ha : Calls G s a)
    (hr : s.step a = some s') : Inv P T 0 s' := by
  rw [Sys.step] at hr
  split_ifs at hr with hst
  have hp : (s.proc a.p).Live := by rw [Proc.Live, hst]; exact ⟨nofun, nofun⟩
  have h₁ : Inv P T 0 { s with kmem := { s.kmem with deny := a.deny } } :=
    h.setKmem ⟨h.owns.nodup, h.owns.isPage, h.owns.split⟩
  obtain ⟨p, op, deny⟩ := a
  cases op with
  | fork => exact inv_fork hP h₁ hp hr
  | exec y => exact inv_exec hP h₁ hp hr
  | exit => exact inv_exit h₁ hp hr
  | wait => exact inv_wait hP h₁ hr
  | waitx wtime rtime =>
    rw [Op.run, waitx] at hr
    split_ifs at hr
    · exact Option.some.inj hr ▸ h₁
    · exact inv_wait hP h₁ hr
  | growproc n => exact inv_growproc hP h₁ hp (ha n rfl) hr
  | pipe => exact inv_sysPipe h₁ hr
  | close fd => exact inv_sysClose h₁ hr
  | dup fd => exact inv_sysDup h₁ hr

end Step

end Xv6.Vm
