import Mathlib.Data.List.FinRange
import Xv6.Proc.Basic

/-!
# Open files

What `file.c`, `sysfile.c` and `proc.c` do with the references to open files, for every state that
has a table of files and the open files of the processes (`HasFiles`). What else there is in a file,
and what becomes of it with its last reference, is up to the state.
-/

namespace Xv6

/-- A state with a table of open files. -/
class HasFiles (σ : Type) where
  /-- The references to a file, `f->ref`. -/
  ref : σ → Fin NFILE → ℕ
  setRef : σ → Fin NFILE → ℕ → σ
  /-- The open files of a process. -/
  ofile : σ → Slot → Fin NOFILE → Option (Fin NFILE)
  setFd : σ → Slot → Fin NOFILE → Option (Fin NFILE) → σ
  /-- `fileclose` from where the last reference is gone. -/
  close : σ → Fin NFILE → Option σ

open HasFiles

variable {σ : Type} [HasFiles σ]

/-- The first file without references gets one. -/
def filealloc (s : σ) : Option (Fin NFILE × σ) :=
  ((List.finRange NFILE).find? fun f => ref s f = 0).map fun f => (f, setRef s f 1)

/-- `filedup`, which panics if there are no references. -/
def filedup (s : σ) (f : Fin NFILE) : Option σ :=
  if ref s f < 1 then none else some (setRef s f (ref s f + 1))

/-- `fileclose`, which panics if there are no references. -/
def fileclose (s : σ) (f : Fin NFILE) : Option σ :=
  if ref s f < 1 then none
  else if 0 < ref s f - 1 then some (setRef s f (ref s f - 1))
  else close s f

/-- The first free descriptor of `p` is for the file `f`. -/
def fdalloc (s : σ) (p : Slot) (f : Fin NFILE) : Option (Fin NOFILE × σ) :=
  ((List.finRange NOFILE).find? fun fd => (ofile s p fd).isNone).map fun fd =>
    (fd, setFd s p fd (some f))

/-- `sys_close`: the descriptor is free before the file is closed. -/
def sysClose (s : σ) (p : Slot) (fd : Fin NOFILE) : Option σ :=
  match ofile s p fd with
  | none => some s
  | some f => fileclose (setFd s p fd none) f

/-- `sys_dup`: the reference is counted after a descriptor was found. -/
def sysDup (s : σ) (p : Slot) (fd : Fin NOFILE) : Option σ :=
  match ofile s p fd with
  | none => some s
  | some f =>
    match fdalloc s p f with
    | none => some s
    | some (_, s) => filedup s f

/-- The loop of `fork` over the open files of `p`. -/
def dupFiles (p np : Slot) : List (Fin NOFILE) → σ → Option σ
  | [], s => some s
  | fd :: l, s =>
    match ofile s p fd with
    | none => dupFiles p np l s
    | some f => (filedup s f).bind fun s => dupFiles p np l (setFd s np fd (some f))

/-- The loop of `exit` over the open files of `p`. -/
def closeFiles (p : Slot) : List (Fin NOFILE) → σ → Option σ
  | [], s => some s
  | fd :: l, s =>
    match ofile s p fd with
    | none => closeFiles p l s
    | some f => (fileclose s f).bind fun s => closeFiles p l (setFd s p fd none)

/-! ## What they return -/

variable {s s' : σ} {f : Fin NFILE} {p : Slot} {fd : Fin NOFILE}

theorem of_filealloc (h : filealloc s = some (f, s')) : ref s f = 0 ∧ setRef s f 1 = s' := by
  rw [filealloc, Option.map_eq_some_iff] at h
  obtain ⟨g, hg, he⟩ := h
  obtain ⟨rfl, rfl⟩ := Prod.mk.inj he
  exact ⟨by simpa using List.find?_some hg, rfl⟩

theorem filedup_eq (h : 1 ≤ ref s f) : filedup s f = some (setRef s f (ref s f + 1)) := by
  rw [filedup, if_neg (by omega)]

theorem fileclose_of_lt (h : 1 < ref s f) : fileclose s f = some (setRef s f (ref s f - 1)) := by
  rw [fileclose, if_neg (by omega), if_pos (by omega)]

theorem fileclose_last (h : ref s f = 1) : fileclose s f = close s f := by
  rw [fileclose, if_neg (by omega), if_neg (by omega)]

/-- A change of the state that the count of `f` does not depend on can come after `fileclose`. -/
theorem fileclose_comm {g : σ → σ} (hr : ref (g s) f = ref s f)
    (hs : ∀ n, setRef (g s) f n = g (setRef s f n)) (hc : close (g s) f = (close s f).map g) :
    fileclose (g s) f = (fileclose s f).map g := by
  rw [fileclose, fileclose, hr, hs, hc]
  split_ifs <;> rfl

theorem of_fdalloc (h : fdalloc s p f = some (fd, s')) :
    ofile s p fd = none ∧ setFd s p fd (some f) = s' := by
  rw [fdalloc, Option.map_eq_some_iff] at h
  obtain ⟨d, hd, he⟩ := h
  obtain ⟨rfl, rfl⟩ := Prod.mk.inj he
  exact ⟨by simpa using List.find?_some hd, rfl⟩

end Xv6
