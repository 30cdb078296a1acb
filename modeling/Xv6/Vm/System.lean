import Xv6.File.Basic
import Xv6.Lib.TransitionSystem
import Xv6.Vm.Exec
import Xv6.Vm.Tables

/-!
# Processes, pipes and their pages

The operations that move physical pages: `fork`, `exec`, `exit`, `wait`, `waitx`, `growproc`,
and the creation and closing of pipes. An operation is one step of the system, taken by a process
that runs; which calls of `kalloc` fail in it although there is memory is part of the action. A
panic is no step.

The pages in use are `Sys.owned`: kernel stacks, page directories with what they map, pipe
buffers, and what was allocated when the system was started.
-/

namespace Xv6.Vm

/-- An open file; all files here are pipe ends. -/
structure File where
  ref : ℕ := 0
  /-- The type is `FD_PIPE`. -/
  isPipe : Bool := false
  writable : Bool := false
  pipe : Addr := 0

/-- A pipe, in the page that was allocated for it. -/
structure Pipe where
  readopen : Bool := false
  writeopen : Bool := false

/-- A process. -/
structure Proc where
  state : Procstate := .unused
  parent : Option Slot := none
  kstack : Addr := 0
  pgdir : Option Pgdir := none
  sz : UInt32 := 0
  ofile : Fin NOFILE → Option (Fin NFILE) := fun _ => none

/-- The state of the system between operations. -/
structure Sys where
  kmem : Kmem
  /-- The page directory of the kernel, and the stacks of the other processors. -/
  kpgdir : Option Pgdir := none
  apStacks : List Addr := []
  proc : Slot → Proc := fun _ => {}
  file : Fin NFILE → File := fun _ => {}
  pipe : Addr → Pipe := fun _ => {}

/-- The process started by `userinit`. -/
def initproc : Slot := 0

/-- The process `p` is changed by `f`. -/
def Sys.modify (s : Sys) (p : Slot) (f : Proc → Proc) : Sys :=
  { s with proc := Function.update s.proc p (f (s.proc p)) }

/-! ## Files and pipes -/

/-- The file `f` is changed by `g`. -/
def Sys.modifyFile (s : Sys) (f : Fin NFILE) (g : File → File) : Sys :=
  { s with file := Function.update s.file f (g (s.file f)) }

/-- A pipe without one of its ends. -/
def Pipe.shut (q : Pipe) (writable : Bool) : Pipe :=
  if writable then { q with writeopen := false } else { q with readopen := false }

/-- An end is closed, and the page is freed with the second one. -/
def pipeclose (s : Sys) (p : Addr) (writable : Bool) : Option Sys :=
  let q := (s.pipe p).shut writable
  let s := { s with pipe := Function.update s.pipe p q }
  if q.readopen = false ∧ q.writeopen = false then
    (kfree s.kmem p).map fun k => { s with kmem := k }
  else some s

/-- The entry `fd` of the open files of `p` becomes `x`. -/
def Sys.setFd (s : Sys) (p : Slot) (fd : Fin NOFILE) (x : Option (Fin NFILE)) : Sys :=
  s.modify p fun q => { q with ofile := Function.update q.ofile fd x }

instance : HasFiles Sys where
  ref s f := (s.file f).ref
  setRef s f n := s.modifyFile f fun ff => { ff with ref := n }
  ofile s p := (s.proc p).ofile
  setFd := Sys.setFd
  close s f :=
    let ff := s.file f
    let s := s.modifyFile f fun ff => { ff with ref := 0, isPipe := false }
    if ff.isPipe then pipeclose s ff.pipe ff.writable else some s

/-- `pipealloc`: the two ends of a new pipe, or `none` if it goes to `bad`. -/
def pipealloc (s : Sys) : Option (Option (Fin NFILE × Fin NFILE) × Sys) :=
  match filealloc s with
  | none => some (none, s)
  | some (f0, s) =>
    match filealloc s with
    | none => (fileclose s f0).map fun s => (none, s)
    | some (f1, s) =>
      let p := (kalloc s.kmem).1
      let s := { s with kmem := (kalloc s.kmem).2 }
      if p = 0 then (fileclose s f0).bind fun s => (fileclose s f1).map fun s => (none, s)
      else
        let s := { s with pipe := Function.update s.pipe p ⟨true, true⟩ }
        let s := s.modifyFile f0 fun ff => { ff with isPipe := true, writable := false, pipe := p }
        let s := s.modifyFile f1 fun ff => { ff with isPipe := true, writable := true, pipe := p }
        some (some (f0, f1), s)

/-- `sys_pipe`: both ends are closed again if there are no two free descriptors. -/
def sysPipe (s : Sys) (p : Slot) : Option Sys :=
  (pipealloc s).bind fun
    | (none, s) => some s
    | (some (rf, wf), s) =>
      match fdalloc s p rf with
      | none => (fileclose s rf).bind fun s => fileclose s wf
      | some (fd0, s) =>
        match fdalloc s p wf with
        | none => (fileclose (s.setFd p fd0 none) rf).bind fun s => fileclose s wf
        | some (_, s) => some s

/-! ## Processes -/

/-- `allocproc`: the slot of the new process, if there is one and a page for its stack. -/
def allocproc (s : Sys) : Option Slot × Sys :=
  match slots.find? fun p => (s.proc p).state = .unused with
  | none => (none, s)
  | some p =>
    let kstack := (kalloc s.kmem).1
    let s := { s with kmem := (kalloc s.kmem).2 }
    if kstack = 0 then (none, s.modify p fun q => { q with kstack := 0 })
    else (some p, s.modify p fun q => { q with state := .embryo, kstack := kstack })

/-- `fork`, which gives the kernel stack back if there is no memory for the copy. -/
def fork (s : Sys) (p : Slot) : Option Sys :=
  match allocproc s with
  | (none, s) => some s
  | (some np, s) =>
    (s.proc p).pgdir.bind fun d => (copyuvm d (s.proc p).sz s.kmem).bind fun
      | (none, k) => (kfree k (s.proc np).kstack).map fun k =>
        { s with kmem := k }.modify np fun q =>
          { q with pgdir := none, kstack := 0, state := .unused }
      | (some c, k) =>
        let s := { s with kmem := k }.modify np fun q =>
          { q with pgdir := some c, sz := (s.proc p).sz, parent := some p }
        (dupFiles p np (List.finRange NOFILE) s).map fun s =>
          s.modify np fun q => { q with state := .runnable }

/-- `exit` of the first process panics. -/
def exit (s : Sys) (p : Slot) : Option Sys :=
  if p = initproc then none
  else (closeFiles p (List.finRange NOFILE) s).map fun s =>
    -- The children go to `initproc`.
    let s := { s with proc := fun c =>
      if (s.proc c).parent = some p then { s.proc c with parent := some initproc } else s.proc c }
    s.modify p fun q => { q with state := .zombie }

/-- `wait`, which changes nothing before there is a child to reap. -/
def wait (s : Sys) (p : Slot) : Option Sys :=
  match slots.find? fun c => (s.proc c).parent = some p ∧ (s.proc c).state = .zombie with
  | none => some s
  | some c =>
    (kfree s.kmem (s.proc c).kstack).bind fun k => (s.proc c).pgdir.bind fun d =>
      (freevm d k).map fun k => { s with kmem := k }.modify c fun q =>
        { q with kstack := 0, parent := none, state := .unused }

/-- `waitx` with null pointers fails. -/
def waitx (s : Sys) (p : Slot) (wtime rtime : UInt32) : Option Sys :=
  if wtime = 0 ∨ rtime = 0 then some s else wait s p

/-! ## Operations -/

/-- A call of a process. -/
inductive Op
  | fork
  | exec (x : Program)
  | exit
  | wait
  | waitx (wtime rtime : UInt32)
  | growproc (n : Int32)
  | pipe
  | close (fd : Fin NOFILE)
  | dup (fd : Fin NOFILE)

/-- An operation of the process `p`, and which of its calls of `kalloc` fail. -/
structure Act where
  p : Slot
  op : Op
  deny : List Bool := []

/-- The directory and the size of `p` after `exec` or `growproc`. -/
def Sys.setSpace (s : Sys) (p : Slot) : Int32 × Pgdir × UInt32 × Kmem → Sys
  | (_, d, sz, k) => { s with kmem := k }.modify p fun q => { q with pgdir := some d, sz := sz }

/-- An operation of the process `p`. The arguments of `exec` are strings in its memory
    (`fetchstr`). -/
def Op.run (s : Sys) (p : Slot) : Op → Option Sys
  | .fork => Vm.fork s p
  | .exec x =>
    if ∀ y ∈ x.argv, y.len < (s.proc p).sz then
      (s.proc p).pgdir.bind fun d => (Vm.exec x d (s.proc p).sz s.kmem).result.map (s.setSpace p)
    else none
  | .exit => Vm.exit s p
  | .wait => Vm.wait s p
  | .waitx wtime rtime => Vm.waitx s p wtime rtime
  | .growproc n =>
    (s.proc p).pgdir.bind fun d => (Vm.growproc n d (s.proc p).sz s.kmem).map (s.setSpace p)
  | .pipe => sysPipe s p
  | .close fd => sysClose s p fd
  | .dup fd => sysDup s p fd

/-- An operation of a process that is running. -/
def Sys.step (s : Sys) (a : Act) : Option Sys :=
  if (s.proc a.p).state = .runnable then
    a.op.run { s with kmem := { s.kmem with deny := a.deny } } a.p
  else none

/-! ## Booting -/

/-- The pages that `freerange` comes to, from `vstart` to `vend`. -/
def pagesOf (vstart vend : Addr) : List Addr :=
  (List.range' (pageOf (pgRoundUp vstart)) (pageOf vend - pageOf (pgRoundUp vstart))).map
    fun i => (i * 4096).toUInt32

/-- The pages that `kinit1` frees. -/
def kinit1 : List Addr := pagesOf kernelEnd (P2V 0x400000)

/-- The pages that `kinit2` frees. -/
def kinit2 : List Addr := pagesOf (P2V 0x400000) (P2V PHYSTOP)

/-- The stacks that `startothers` allocates for the other processors. -/
def startothers : ℕ → Sys → Sys
  | 0, s => s
  | n + 1, s => startothers n
    { s with kmem := (kalloc s.kmem).2, apStacks := (kalloc s.kmem).1 :: s.apStacks }

/-- `userinit`: the first process, or a panic. -/
def userinit (s : Sys) : Option Sys :=
  match allocproc s with
  | (none, _) => none
  | (some p, s) =>
    (setupkvm s.kmem).bind fun
      | (none, _) => none
      | (some d, k) => (inituvm d k).map fun (d, k) =>
        { s with kmem := k }.modify p fun q =>
          { q with pgdir := some d, sz := PGSIZE, state := .runnable }

/-- `main`, with `ncpu` processors. -/
def boot (ncpu : ℕ) : Option Sys :=
  (freerange {} kinit1).bind fun k => (setupkvm k).bind fun (d, k) =>
    let s := startothers (ncpu - 1) { kmem := k, kpgdir := d }
    (freerange s.kmem kinit2).bind fun k => userinit { s with kmem := k }

/-- The system, started with up to `NCPU` processors. -/
def system : TransitionSystem Sys Act where
  init s := ∃ ncpu ≤ NCPU, boot ncpu = some s
  step := Sys.step

/-! ## The pages in use -/

/-- A page that is in use if it is not null. -/
def ofAddr (v : Addr) : Multiset Addr := if v = 0 then 0 else {v}

/-- The pages of a process: its kernel stack, and its page directory with what it maps. An embryo
    has no directory yet, and a process that was reaped no more. -/
def Proc.owned (p : Proc) : Multiset Addr :=
  ofAddr p.kstack + if p.state = .unused ∨ p.state = .embryo then 0 else p.pgdir.elim 0 Pgdir.pages

/-- The buffers of the pipes that are open at an end, each once. -/
def pipePages (file : Fin NFILE → File) : Finset Addr :=
  (Finset.univ.filter fun f => (file f).isPipe).image fun f => (file f).pipe

/-- The pages that were allocated when the system was started. -/
def Sys.bootPages (s : Sys) : Multiset Addr :=
  s.kpgdir.elim 0 Pgdir.pages + (s.apStacks.map ofAddr).sum

/-- The pages in use: of the processes, of the pipes and of the kernel. -/
def Sys.owned (s : Sys) : Multiset Addr :=
  held Proc.owned (fun p => some (s.proc p)) + (pipePages s.file).val + s.bootPages

end Xv6.Vm
