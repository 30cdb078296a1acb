import Xv6.File.Basic
import Xv6.Lib.TransitionSystem

/-!
# Inodes, directories and paths

The file system calls that change directories, with the reference counts that decide when an
inode is freed: the link count of the inode, and the references to its copy in memory. A call is
one step of the system, taken by one of the processes that share it.

A directory is its list of entries, `none` for an entry with inode number 0, and another file its
bytes. Of the blocks nothing is kept: a disk that is full stops the system. A panic gives `none`.
-/

namespace Xv6.Fs

/-- The number of an inode. -/
abbrev Inum := Fin NINODES

def ROOTINO : Inum := 1

/-- The `type` of an inode. -/
inductive FileType
  /-- The inode is free. -/
  | free
  | dir
  | file
  | dev
  deriving DecidableEq, Repr

/-- The name in an entry of a directory. -/
abbrev Name := List Char

def dot : Name := ['.']
def dotdot : Name := ['.', '.']

/-- The entries of a directory (`struct dirent`). -/
abbrev Dirents := List (Option (Inum × Name))

/-- An inode on disk. -/
structure Inode where
  type : FileType := .free
  /-- The link count. It is a `short` in the source, which is `SHRT_MAX` at most. -/
  nlink : ℤ := 0
  /-- The entries, if it is a directory. -/
  ents : Dirents := []
  deriving DecidableEq

/-- An open file, with its inode if it has one. -/
structure File where
  ref : ℕ := 0
  ip : Option Inum := none
  deriving DecidableEq

/-- A process, with its current directory until it exits. -/
structure Proc where
  cwd : Option Inum := none
  ofile : Fin NOFILE → Option (Fin NFILE) := fun _ => none

/-- The state of the file system between calls. -/
structure State where
  inode : Inum → Inode
  /-- The contents of the files that are not directories. -/
  data : Inum → List UInt8 := fun _ => []
  /-- The references to the copy of an inode in memory. -/
  ref : Inum → ℕ := fun _ => 0
  /-- The copy was read from the disk. -/
  valid : Inum → Bool := fun _ => false
  proc : Slot → Proc := fun _ => {}
  file : Fin NFILE → File := fun _ => {}

/-- The inode `i` is changed by `f`. -/
def State.modify (s : State) (i : Inum) (f : Inode → Inode) : State :=
  { s with inode := Function.update s.inode i (f (s.inode i)) }

@[simp] theorem State.modify_inode (s : State) (i : Inum) (f : Inode → Inode) :
    (s.modify i f).inode = Function.update s.inode i (f (s.inode i)) := rfl

/-- The process `p` is changed by `f`. -/
def State.modifyProc (s : State) (p : Slot) (f : Proc → Proc) : State :=
  { s with proc := Function.update s.proc p (f (s.proc p)) }

/-- The file `f` is changed by `g`. -/
def State.modifyFile (s : State) (f : Fin NFILE) (g : File → File) : State :=
  { s with file := Function.update s.file f (g (s.file f)) }

/-! ## Inodes -/

/-- The number of inodes with a copy in memory. -/
def State.incore (s : State) : ℕ := (Finset.univ.filter fun i => s.ref i ≠ 0).card

/-- A reference to the copy of an inode is taken, which is made if there is none. -/
def State.take (s : State) (i : Inum) : State :=
  { s with
    ref := Function.update s.ref i (s.ref i + 1)
    valid := if s.ref i = 0 then Function.update s.valid i false else s.valid }

/-- `iget`, which panics if all the `NINODE` entries of the cache are in use. -/
def iget (s : State) (i : Inum) : Option State :=
  if s.ref i = 0 ∧ NINODE ≤ s.incore then none else some (s.take i)

/-- Another reference to an inode that is in memory. -/
def idup (s : State) (i : Inum) : State :=
  { s with ref := Function.update s.ref i (s.ref i + 1) }

/-- `ilock`, which reads the inode, and panics if that is free. (No lock is held between calls.) -/
def ilock (s : State) (i : Inum) : Option State :=
  if s.ref i < 1 then none
  else if s.valid i then some s
  else if (s.inode i).type = .free then none
  else some { s with valid := Function.update s.valid i true }

/-- The inode is truncated and freed, by the last reference to it. -/
def ifree (s : State) (i : Inum) : State :=
  { s with
    inode := Function.update s.inode i { s.inode i with type := .free, ents := [] }
    data := Function.update s.data i []
    valid := Function.update s.valid i false }

/-- A reference goes. The last one to an inode without links frees it. -/
def iput (s : State) (i : Inum) : State :=
  let s := if s.valid i ∧ (s.inode i).nlink = 0 ∧ s.ref i = 1 then ifree s i else s
  { s with ref := Function.update s.ref i (s.ref i - 1) }

/-- The first free inode on disk gets a type, and a reference. -/
def ialloc (s : State) (type : FileType) : Option (Inum × State) :=
  ((List.finRange NINODES).find? fun i => 0 < i.val ∧ (s.inode i).type = .free).bind fun i =>
    (iget { s with
      inode := Function.update s.inode i { type := type }
      data := Function.update s.data i [] } i).map (i, ·)

/-! ## Directories -/

/-- The first entry with a name: its place, and its inode number. -/
def findEnt (name : Name) : Dirents → Option (ℕ × Inum)
  | [] => none
  | some (i, n) :: l =>
    if n = name then some (0, i) else (findEnt name l).map fun (off, i) => (off + 1, i)
  | none :: l => (findEnt name l).map fun (off, i) => (off + 1, i)

/-- `dirlookup`, without the reference that it takes to what it finds. -/
def dirlookup (s : State) (dp : Inum) (name : Name) : Option (Option (ℕ × Inum)) :=
  if (s.inode dp).type = .dir then some (findEnt name (s.inode dp).ents) else none

/-- A new entry, in the place of the first empty one if there is one. -/
def addEnt (x : Inum × Name) : Dirents → Dirents
  | [] => [some x]
  | none :: l => some x :: l
  | some y :: l => some y :: addEnt x l

/-- `dirlink`, and whether the name was not there yet. -/
def dirlink (s : State) (dp : Inum) (name : Name) (inum : Inum) : Option (Bool × State) :=
  (dirlookup s dp name).bind fun
    | some (_, i) => (iget s i).map fun s => (false, iput s i)
    | none => some (true, s.modify dp fun d => { d with ents := addEnt (inum, name) d.ents })

/-! ## Paths -/

/-- The next element of a path, cut to `DIRSIZ` characters, and the rest of the path. (The
    characters are bytes where the disk is.) -/
def skipelem {α : Type} [DecidableEq α] (slash : α) (path : List α) : Option (List α × List α) :=
  let path := path.dropWhile (· = slash)
  if path = [] then none
  else some ((path.takeWhile (· ≠ slash)).take DIRSIZ,
    (path.dropWhile (· ≠ slash)).dropWhile (· = slash))

/-- The elements of a path; each takes a character at least. -/
def elems : ℕ → List Char → List Name
  | 0, _ => []
  | fuel + 1, path =>
    match skipelem '/' path with
    | none => []
    | some (name, path) => name :: elems fuel path

/-- The loop of `namex`, over the elements of the path. -/
def namexLoop (parent : Bool) : List Name → State → Inum → Option (Option (Inum × Name) × State)
  | [], s, ip => if parent then some (none, iput s ip) else some (some (ip, []), s)
  | name :: path, s, ip =>
    (ilock s ip).bind fun s =>
      if (s.inode ip).type ≠ .dir then some (none, iput s ip)
      -- Stop one level early.
      else if parent ∧ path = [] then some (some (ip, name), s)
      else (dirlookup s ip name).bind fun
        | none => some (none, iput s ip)
        | some (_, next) => (iget s next).bind fun s => namexLoop parent path (iput s ip) next

/-- `namex` of the process `p`: what it finds, with the last name. -/
def namex (s : State) (p : Slot) (path : List Char) (parent : Bool) :
    Option (Option (Inum × Name) × State) :=
  if path.head? = some '/' then
    (iget s ROOTINO).bind fun s => namexLoop parent (elems path.length path) s ROOTINO
  else (s.proc p).cwd.bind fun cwd => namexLoop parent (elems path.length path) (idup s cwd) cwd

/-! ## System calls -/

/-- The entries of a new directory. -/
def linkDots (s : State) (ip dp : Inum) : Option State :=
  (dirlink s ip dot ip).bind fun
    | (false, _) => none
    | (true, s) => (dirlink s ip dotdot dp).bind fun
      | (false, _) => none
      | (true, s) => some s

/-- `create` from `ialloc` on, in the directory `dp`. -/
def createNew (s : State) (dp : Inum) (name : Name) (type : FileType) :
    Option (Option Inum × State) :=
  (ialloc s type).bind fun (ip, s) => (ilock s ip).bind fun s =>
    let s := s.modify ip fun d => { d with nlink := 1 }
    (if type = .dir then linkDots (s.modify dp fun d => { d with nlink := d.nlink + 1 }) ip dp
      else some s).bind fun s => (dirlink s dp name ip).bind fun
        | (false, _) => none
        | (true, s) => some (some ip, iput s dp)

/-- `create`: the new inode, or the file that has the name already if a file is asked for. -/
def create (s : State) (p : Slot) (path : List Char) (type : FileType) :
    Option (Option Inum × State) :=
  (namex s p path true).bind fun
    | (none, s) => some (none, s)
    | (some (dp, name), s) => (ilock s dp).bind fun s => (dirlookup s dp name).bind fun
      | some (_, ip) => (iget s ip).bind fun s => (ilock (iput s dp) ip).bind fun s =>
        if type = .file ∧ (s.inode ip).type = .file then some (some ip, s)
        else some (none, iput s ip)
      | none => createNew s dp name type

/-- `create` of a directory, and its reference goes. -/
def sysMkdir (s : State) (p : Slot) (path : List Char) : Option State :=
  (create s p path .dir).map fun (ip, s) => ip.elim s (iput s)

/-- `create` of a device, and its reference goes. -/
def sysMknod (s : State) (p : Slot) (path : List Char) : Option State :=
  (create s p path .dev).map fun (ip, s) => ip.elim s (iput s)

/-- `sys_link` from its label `bad` on. -/
def linkBad (s : State) (ip : Inum) : Option State :=
  (ilock s ip).map fun s => iput (s.modify ip fun d => { d with nlink := d.nlink - 1 }) ip

/-- `sys_link`: the count goes up before the new name is looked up, and `bad` takes it back. -/
def sysLink (s : State) (p : Slot) (old new : List Char) : Option State :=
  (namex s p old false).bind fun
    | (none, s) => some s
    | (some (ip, _), s) => (ilock s ip).bind fun s =>
      if (s.inode ip).type = .dir then some (iput s ip)
      else
        let s := s.modify ip fun d => { d with nlink := d.nlink + 1 }
        (namex s p new true).bind fun
          | (none, s) => linkBad s ip
          | (some (dp, name), s) => (ilock s dp).bind fun s => (dirlink s dp name ip).bind fun
            | (false, s) => linkBad (iput s dp) ip
            | (true, s) => some (iput (iput s dp) ip)

/-- No entry is in use but the first two. -/
def isdirempty (d : Inode) : Bool := (d.ents.drop 2).all Option.isNone

/-- `sys_unlink` from the write to the directory on. -/
def removeEnt (s : State) (dp ip : Inum) (off : ℕ) : State :=
  let s := s.modify dp fun d => { d with ents := d.ents.set off none }
  let s := if (s.inode ip).type = .dir then s.modify dp fun d => { d with nlink := d.nlink - 1 }
    else s
  let s := iput s dp
  iput (s.modify ip fun d => { d with nlink := d.nlink - 1 }) ip

/-- `sys_unlink`, which panics if the link count is below 1 already. -/
def sysUnlink (s : State) (p : Slot) (path : List Char) : Option State :=
  (namex s p path true).bind fun
    | (none, s) => some s
    | (some (dp, name), s) => (ilock s dp).bind fun s =>
      if name = dot ∨ name = dotdot then some (iput s dp)
      else (dirlookup s dp name).bind fun
        | none => some (iput s dp)
        | some (off, ip) => (iget s ip).bind fun s => (ilock s ip).bind fun s =>
          if (s.inode ip).nlink < 1 then none
          else if (s.inode ip).type = .dir ∧ isdirempty (s.inode ip) = false then
            some (iput (iput s ip) dp)
          else some (removeEnt s dp ip off)

/-- The reference of the old directory goes. -/
def sysChdir (s : State) (p : Slot) (path : List Char) : Option State :=
  (namex s p path false).bind fun
    | (none, s) => some s
    | (some (ip, _), s) => (ilock s ip).bind fun s =>
      if (s.inode ip).type ≠ .dir then some (iput s ip)
      else (s.proc p).cwd.map fun cwd =>
        (iput s cwd).modifyProc p fun q => { q with cwd := some ip }

/-! ## Files -/

/-- The entry `fd` of the open files of `p` becomes `x`. -/
def State.setFd (s : State) (p : Slot) (fd : Fin NOFILE) (x : Option (Fin NFILE)) : State :=
  s.modifyProc p fun q => { q with ofile := Function.update q.ofile fd x }

instance : HasFiles State where
  ref s f := (s.file f).ref
  setRef s f n := s.modifyFile f fun ff => { ff with ref := n }
  ofile s p := (s.proc p).ofile
  setFd := State.setFd
  close s f :=
    let s' := s.modifyFile f fun _ => {}
    some ((s.file f).ip.elim s' (iput s'))

theorem ofile_eq (s : State) (p : Slot) (fd : Fin NOFILE) :
    HasFiles.ofile s p fd = (s.proc p).ofile fd :=
  rfl

/-- `sys_open` from `filealloc` on, with the locked inode `ip`. -/
def openInode (s : State) (p : Slot) (ip : Inum) : Option State :=
  match filealloc s with
  | none => some (iput s ip)
  | some (f, s) =>
    match fdalloc s p f with
    | none => (fileclose s f).map fun s => iput s ip
    | some (_, s) => some (s.modifyFile f fun ff => { ff with ip := some ip })

/-- `sys_open`, with the flag `O_CREATE` or not, and for reading only or not. -/
def sysOpen (s : State) (p : Slot) (path : List Char) (creat rdonly : Bool) : Option State :=
  if creat then
    (create s p path .file).bind fun
      | (none, s) => some s
      | (some ip, s) => openInode s p ip
  else (namex s p path false).bind fun
    | (none, s) => some s
    | (some (ip, _), s) => (ilock s ip).bind fun s =>
      if (s.inode ip).type = .dir ∧ rdonly = false then some (iput s ip) else openInode s p ip

/-! ## Processes -/

/-- `fork` into the slot `np`, which no process has. -/
def fork (s : State) (p np : Slot) : Option State :=
  if (s.proc np).cwd.isSome then none
  else (dupFiles p np (List.finRange NOFILE) s).bind fun s => (s.proc p).cwd.map fun cwd =>
    (idup s cwd).modifyProc np fun q => { q with cwd := some cwd }

/-- `exit`: the open files are closed, and the current directory is given up. -/
def exit (s : State) (p : Slot) : Option State :=
  (closeFiles p (List.finRange NOFILE) s).bind fun s => (s.proc p).cwd.map fun cwd =>
    (iput s cwd).modifyProc p fun q => { q with cwd := none }

/-! ## The system -/

/-- A call, with its arguments. -/
inductive Op
  | open (path : List Char) (creat rdonly : Bool)
  | mkdir (path : List Char)
  | mknod (path : List Char)
  | link (old new : List Char)
  | unlink (path : List Char)
  | chdir (path : List Char)
  | close (fd : Fin NOFILE)
  | fork (np : Slot)
  | exit

/-- The call of the process `p`, `none` if it panics. -/
def Op.run (s : State) (p : Slot) : Op → Option State
  | .open path creat rdonly => sysOpen s p path creat rdonly
  | .mkdir path => sysMkdir s p path
  | .mknod path => sysMknod s p path
  | .link old new => sysLink s p old new
  | .unlink path => sysUnlink s p path
  | .chdir path => sysChdir s p path
  | .close fd => sysClose s p fd
  | .fork np => Fs.fork s p np
  | .exit => Fs.exit s p

/-- The root directory as `mkfs` makes it, and the first process in it. -/
def mkfs : State where
  inode := Function.update (fun _ => {}) ROOTINO
    { type := .dir
      nlink := 1
      ents := [some (ROOTINO, dot), some (ROOTINO, dotdot)] ++ List.replicate 30 none }
  ref := Function.update (fun _ => 0) ROOTINO 1
  proc := Function.update (fun _ => {}) 0 { cwd := some ROOTINO }

/-- The file system: a call is made by a process that has not exited. -/
def fsys : TransitionSystem State (Slot × Op) where
  init s := s = mkfs
  step s a := if (s.proc a.1).cwd.isSome then a.2.run s a.1 else none

end Xv6.Fs
