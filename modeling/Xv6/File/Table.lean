import Xv6.File.Basic
import Xv6.Lib.FreeList
import Xv6.Lib.TransitionSystem

/-!
# The file table

Open files, and the calls that make and drop references to them: `open`, `pipe`, `dup`, `close`,
`fork` and `exit`. A call is one step of the system. What the calls get from the rest of the kernel
is part of the action: the inode that `open` finds, the page that `kalloc` returns to `pipe`,
whether there is memory for `fork`. A panic is no step.

The pages that were allocated and freed for pipes are counted. `kalloc` returns no page that is
in use; what `iput` does with the inode of a closed file is not modelled here.
-/

namespace Xv6.Ftable

abbrev O_WRONLY : UInt32 := 1
abbrev O_RDWR : UInt32 := 2

/-- A page, by its address; 0 is no page. -/
abbrev Addr := UInt32

/-- The type of an open file. `FD_DEVICE` is never set. -/
inductive FileType
  | none
  | pipe
  | inode
  deriving DecidableEq, Repr

/-- An open file (`struct file`). -/
structure File where
  type : FileType := .none
  ref : ℕ := 0
  readable : Bool := false
  writable : Bool := false
  pipe : Addr := 0
  ip : ℕ := 0
  deriving DecidableEq, Repr

/-- The ends of a pipe that are open. -/
structure Pipe where
  readopen : Bool := false
  writeopen : Bool := false
  deriving DecidableEq, Repr

/-- The processes, their open files and the pipes. -/
structure State where
  /-- The state of a process, and its open files. -/
  state : Slot → Procstate
  ofile : Slot → Fin NOFILE → Option (Fin NFILE) := fun _ _ => none
  file : Fin NFILE → File := fun _ => {}
  /-- The pipe in a page; a page without a pipe is closed at both ends. -/
  pipe : Addr → Pipe := fun _ => {}
  /-- How often the page was allocated for a pipe, and how often it was freed. -/
  allocs : Addr → ℕ := fun _ => 0
  frees : Addr → ℕ := fun _ => 0

/-- The process started by `userinit`. -/
def initproc : Slot := 0

/-- The file `f` is changed by `g`. -/
def State.modifyFile (s : State) (f : Fin NFILE) (g : File → File) : State :=
  { s with file := Function.update s.file f (g (s.file f)) }

/-- The entry `fd` of the open files of `p` becomes `x`. -/
def State.setFd (s : State) (p : Slot) (fd : Fin NOFILE) (x : Option (Fin NFILE)) : State :=
  { s with ofile := Function.update s.ofile p (Function.update (s.ofile p) fd x) }

/-- The state of the process `p` becomes `x`. -/
def State.setState (s : State) (p : Slot) (x : Procstate) : State :=
  { s with state := Function.update s.state p x }

/-! ## Files and pipes -/

/-- `kalloc` for a pipe, which returns the page `v`. -/
def kalloc (s : State) (v : Addr) : State :=
  if v = 0 then s else { s with allocs := Function.update s.allocs v (s.allocs v + 1) }

/-- The page of a pipe is freed, which is counted. -/
def kfree (s : State) (v : Addr) : State :=
  { s with frees := Function.update s.frees v (s.frees v + 1) }

/-- A pipe without one of its ends. -/
def Pipe.shut (q : Pipe) (writable : Bool) : Pipe :=
  if writable then { q with writeopen := false } else { q with readopen := false }

/-- An end is closed, and the page is freed with the second one. -/
def pipeclose (s : State) (v : Addr) (writable : Bool) : State :=
  let q := (s.pipe v).shut writable
  let s := { s with pipe := Function.update s.pipe v q }
  if q.readopen = false ∧ q.writeopen = false then kfree s v else s

instance : HasFiles State where
  ref s f := (s.file f).ref
  setRef s f n := s.modifyFile f fun ff => { ff with ref := n }
  ofile s := s.ofile
  setFd := State.setFd
  close s f :=
    let ff := s.file f
    let s := s.modifyFile f fun ff => { ff with ref := 0, type := .none }
    some (if ff.type = .pipe then pipeclose s ff.pipe ff.writable else s)

theorem ofile_eq (s : State) (p : Slot) (fd : Fin NOFILE) : HasFiles.ofile s p fd = s.ofile p fd :=
  rfl

/-- The two ends of the pipe at `v`. -/
def setPipe (s : State) (v : Addr) (f0 f1 : Fin NFILE) : State :=
  let s := { s with pipe := Function.update s.pipe v ⟨true, true⟩ }
  let s := s.modifyFile f0 fun ff =>
    { ff with type := .pipe, readable := true, writable := false, pipe := v }
  s.modifyFile f1 fun ff =>
    { ff with type := .pipe, readable := false, writable := true, pipe := v }

/-- `pipealloc`: the two ends of a new pipe, or `none` if it goes to `bad`. -/
def pipealloc (s : State) (v : Addr) : Option (Option (Fin NFILE × Fin NFILE) × State) :=
  match filealloc s with
  | none => some (none, s)
  | some (f0, s) =>
    match filealloc s with
    | none => (fileclose s f0).map fun s => (none, s)
    | some (f1, s) =>
      let s := kalloc s v
      if v = 0 then (fileclose s f0).bind fun s => (fileclose s f1).map fun s => (none, s)
      else some (some (f0, f1), setPipe s v f0 f1)

/-! ## System calls -/

/-- `sys_open`, once it has tried to find or make the inode. -/
def sysOpen (s : State) (p : Slot) (omode : UInt32) : Option ℕ → Option State
  | none => some s
  | some ip =>
    match filealloc s with
    | none => some s
    | some (f, s) =>
      match fdalloc s p f with
      | none => fileclose s f
      | some (_, s) => some (s.modifyFile f fun ff =>
        { ff with
          type := .inode
          ip := ip
          readable := omode &&& O_WRONLY = 0
          writable := omode &&& O_WRONLY ≠ 0 ∨ omode &&& O_RDWR ≠ 0 })

/-- `sys_pipe`: both ends are closed again if there are no two free descriptors. -/
def sysPipe (s : State) (p : Slot) (v : Addr) : Option State :=
  (pipealloc s v).bind fun
    | (none, s) => some s
    | (some (rf, wf), s) =>
      match fdalloc s p rf with
      | none => (fileclose s rf).bind fun s => fileclose s wf
      | some (fd0, s) =>
        match fdalloc s p wf with
        | none => (fileclose (s.setFd p fd0 none) rf).bind fun s => fileclose s wf
        | some (_, s) => some s

/-- `fork`, which fails if there is no slot or no memory for the child. -/
def fork (s : State) (p : Slot) (mem : Bool) : Option State :=
  match slots.find? fun np => s.state np = .unused with
  | none => some s
  | some np =>
    if mem then
      (dupFiles p np (List.finRange NOFILE) (s.setState np .embryo)).map fun s =>
        s.setState np .runnable
    else some s

/-- `exit` of the first process panics. -/
def exit (s : State) (p : Slot) : Option State :=
  if p = initproc then none
  else (closeFiles p (List.finRange NOFILE) s).map fun s => s.setState p .zombie

/-- A call of a process. -/
inductive Op
  | open (omode : UInt32) (found : Option ℕ)
  | pipe (v : Addr)
  | dup (fd : Fin NOFILE)
  | close (fd : Fin NOFILE)
  | fork (mem : Bool)
  | exit
  /-- The parent of a process that has exited waits for it. -/
  | reaped
  deriving DecidableEq, Repr

/-- An operation of the process `p`. -/
def Op.run (s : State) (p : Slot) : Op → Option State
  | .open omode found => sysOpen s p omode found
  | .pipe v => sysPipe s p v
  | .dup fd => sysDup s p fd
  | .close fd => sysClose s p fd
  | .fork mem => Ftable.fork s p mem
  | .exit => Ftable.exit s p
  | .reaped => some (s.setState p .unused)

/-- What an operation needs: a process that can make it, and no page in use from `kalloc`. -/
def Op.Enabled (s : State) (p : Slot) : Op → Prop
  | .pipe v => s.state p = .runnable ∧ (v ≠ 0 → s.allocs v = s.frees v)
  | .reaped => s.state p = .zombie
  | _ => s.state p = .runnable

instance (s : State) (p : Slot) (o : Op) : Decidable (o.Enabled s p) :=
  match o with
  | .pipe v =>
    inferInstanceAs (Decidable (s.state p = .runnable ∧ (v ≠ 0 → s.allocs v = s.frees v)))
  | .reaped => inferInstanceAs (Decidable (s.state p = .zombie))
  | .open .. | .dup _ | .close _ | .fork _ | .exit =>
    inferInstanceAs (Decidable (s.state p = .runnable))

/-- The file table when the first process starts. -/
def boot : State where
  state p := if p = initproc then .runnable else .unused

/-- The system calls on files, from the start of the first process. -/
def system : TransitionSystem State (Slot × Op) where
  init s := s = boot
  step s a := if a.2.Enabled s a.1 then a.2.run s a.1 else none

end Xv6.Ftable
