import Mathlib.Data.Finset.Insert
import Xv6.Disk.Format
import Xv6.Fs.Inode
import Xv6.Fs.Log
import Xv6.Lib.Prog

/-!
# The file system of the kernel

The allocation of blocks and of inodes, the inode cache, the contents of files, directories and
paths (`fs.c`), over the bytes of the disk. The disk is seen through the block cache: `bread`
gives the current contents of a block, and `logWrite` stands for a change of the buffer followed
by `log_write`. Of the log its length and the blocks in it are kept, and how many sections are open
(between `begin_op` and `end_op`).

A function runs alone until it returns: of a sleep-lock only whether it is held is kept, and
taking a lock that is held stops the system, as a panic does. Of the devices nothing is kept: a
read or write of one gives -1. The offsets into files are `uint`s.
-/

namespace Xv6.Disk

instance : NeZero NINODE := ⟨by decide⟩

abbrev ROOTDEV : ℕ := 1

/-- An entry of the inode cache (`struct inode`), with its copy of the inode. -/
structure Inode where
  dev : ℕ := 0
  inum : ℕ := 0
  ref : ℕ := 0
  /-- The sleep-lock is held. -/
  lock : Bool := false
  /-- The inode was read from the disk. -/
  valid : Bool := false
  din : Dinode := {}
  deriving DecidableEq

/-- A pointer to an entry of the inode cache. -/
abbrev Ip := Fin NINODE

/-- An open file (`struct file`), with its inode if it is of type `FD_INODE`. -/
structure File where
  ref : ℕ := 0
  ip : Option Ip := none
  readable : Bool := false
  writable : Bool := false
  off : ℕ := 0
  deriving DecidableEq

/-- A process, with its current directory until it exits. -/
structure Proc where
  cwd : Option Ip := none

/-- What the functions work on: the disk, the log, the inode cache, the files and processes. -/
structure State where
  disk : Sectors
  /-- The blocks in the header of the log: `lh.n` is their number. -/
  log : Finset ℕ := ∅
  /-- The sections that are open. -/
  outstanding : ℕ := 0
  inode : Ip → Inode := fun _ => {}
  file : Fin NFILE → File := fun _ => {}
  proc : Slot → Proc := fun _ => {}

/-- The entry `ip` of the inode cache becomes `x`. -/
def State.setInode (s : State) (ip : Ip) (x : Inode) : State :=
  { s with inode := Function.update s.inode ip x }

/-- What stops the system, by the text of the panic. -/
inductive Panic
  /-- `too big a transaction` -/
  | tooBig
  /-- `log_write outside of trans` -/
  | outsideOfTrans
  | outOfBlocks
  | freeingFreeBlock
  | igetNoInodes
  | ilock
  | ilockNoType
  | iunlock
  | outOfRange
  | notDir
  | dirlookupRead
  | filewrite
  | shortFilewrite
  /-- Not a panic: a process waits for a lock that it holds. -/
  | deadlock
  /-- Not a panic: a process that has exited makes no calls. -/
  | noCwd
  deriving DecidableEq

/-- A function of the kernel. -/
abbrev M := Prog State Panic

variable (sb : Superblock)

/-! ## Blocks -/

/-- The contents of a block. -/
def bread (b : ℕ) : M Bytes := do
  let s ← get
  pure (s.disk b)

/-- The buffer of the block gets new contents, and is passed to `log_write`. The size of the log is
    `LOGSIZE`, as `mkfs` makes it. A block that is in the log already takes no new place, but the
    tests come first. -/
def logWrite (b : ℕ) (m : Bytes) : M Unit := do
  let s ← get
  if LOGSIZE ≤ s.log.card ∨ LOGSIZE - 1 ≤ s.log.card then throw .tooBig
  else if s.outstanding < 1 then throw .outsideOfTrans
  else
    Prog.update fun s => { s with disk := Function.update s.disk b m, log := insert b s.log }

/-- A block is cleared, through the log. -/
def bzero (b : ℕ) : M Unit := logWrite b Bytes.zero

/-- The first free block, which is cleared. -/
def balloc : M ℕ := do
  let s ← get
  match (List.range sb.size).find? fun b => !used sb s.disk b with
  | some b =>
    let m ← bread (BBLOCK sb b)
    logWrite (BBLOCK sb b) (m.setBit (b % BPB))
    bzero b
    pure b
  | none => throw .outOfBlocks

/-- `bfree`, which panics if the block is free. -/
def bfree (b : ℕ) : M Unit := do
  let m ← bread (BBLOCK sb b)
  if m.bit (b % BPB) = false then throw .freeingFreeBlock
  else logWrite (BBLOCK sb b) (m.clearBit (b % BPB))

/-! ## Inodes -/

/-- The entry `ip` of the inode cache. -/
def getInode (ip : Ip) : M Inode := do
  let s ← get
  pure (s.inode ip)

/-- The entry `ip` is changed by `f`. -/
def modifyInode (ip : Ip) (f : Inode → Inode) : M Unit :=
  Prog.update fun s => s.setInode ip (f (s.inode ip))

/-- Changes the copy of the inode in the entry. -/
def modifyDin (ip : Ip) (f : Dinode → Dinode) : M Unit :=
  modifyInode ip fun x => { x with din := f x.din }

/-- The entry of an inode, or a free one for it; if there is none, `iget` panics. -/
def iget (dev inum : ℕ) : M Ip := do
  let s ← get
  match (List.finRange NINODE).find? fun ip =>
      0 < (s.inode ip).ref ∧ (s.inode ip).dev = dev ∧ (s.inode ip).inum = inum with
  | some ip =>
    modifyInode ip fun x => { x with ref := x.ref + 1 }
    pure ip
  | none =>
    match (List.finRange NINODE).find? fun ip => (s.inode ip).ref = 0 with
    | some ip =>
      modifyInode ip fun x => { x with dev := dev, inum := inum, ref := 1, valid := false }
      pure ip
    | none => throw .igetNoInodes

/-- The copy of the inode goes to its block. -/
def iupdate (ip : Ip) : M Unit := do
  let x ← getInode ip
  let m ← bread (IBLOCK sb x.inum)
  logWrite (IBLOCK sb x.inum) (m.setElem 64 (x.inum % IPB) x.din.encode)

/-- Another reference to an entry. -/
def idup (ip : Ip) : M Ip := do
  modifyInode ip fun x => { x with ref := x.ref + 1 }
  pure ip

/-- The lock of an entry, which nobody else can give back here. -/
def acquiresleep (ip : Ip) : M Unit := do
  let x ← getInode ip
  if x.lock then throw .deadlock else modifyInode ip fun x => { x with lock := true }

/-- The lock is given back. -/
def releasesleep (ip : Ip) : M Unit := modifyInode ip fun x => { x with lock := false }

/-- The entry is locked, and read from the disk if it has not been. -/
def ilock (ip : Ip) : M Unit := do
  let x ← getInode ip
  if x.ref < 1 then throw .ilock
  else
    acquiresleep ip
    if x.valid then pure ()
    else
      let m ← bread (IBLOCK sb x.inum)
      let din := Dinode.decode (m.elem 64 (x.inum % IPB))
      modifyInode ip fun x => { x with din := din, valid := true }
      if din.type = 0 then throw .ilockNoType else pure ()

/-- `iunlock`, which panics if the lock is not held. -/
def iunlock (ip : Ip) : M Unit := do
  let x ← getInode ip
  if x.lock = false ∨ x.ref < 1 then throw .iunlock else releasesleep ip

/-! ## The contents of an inode -/

/-- The indirect block of the inode, which is allocated if it is not there yet. -/
def bmapIndirect (ip : Ip) : M ℕ := do
  let x ← getInode ip
  if x.din.addr NDIRECT = 0 then
    let c ← balloc sb
    modifyDin ip fun din => din.setAddr NDIRECT (.ofNat c)
    pure c
  else pure (x.din.addr NDIRECT).toNat

/-- The block `bn` of the inode, which is allocated if it is not there yet. -/
def bmap (ip : Ip) (bn : ℕ) : M ℕ := do
  let x ← getInode ip
  if bn < NDIRECT then
    if x.din.addr bn = 0 then
      let b ← balloc sb
      modifyDin ip fun din => din.setAddr bn (.ofNat b)
      pure b
    else pure (x.din.addr bn).toNat
  else if bn - NDIRECT < NINDIRECT then
    let c ← bmapIndirect sb ip
    -- the buffer of the indirect block is kept over the allocation
    let a ← bread c
    if a.word (bn - NDIRECT) = 0 then
      let b ← balloc sb
      logWrite c (a.setWord (bn - NDIRECT) (.ofNat b))
      pure b
    else pure (a.word (bn - NDIRECT)).toNat
  else throw .outOfRange

/-- Frees the direct block `i` of the inode. -/
def itruncDirect (ip : Ip) (i : ℕ) : M Unit := do
  let x ← getInode ip
  if x.din.addr i ≠ 0 then
    bfree sb (x.din.addr i).toNat
    modifyDin ip fun din => din.setAddr i 0
  else pure ()

/-- Frees the indirect block, and the blocks in it. -/
def itruncIndirect (ip : Ip) : M Unit := do
  let x ← getInode ip
  if x.din.addr NDIRECT ≠ 0 then
    let a ← bread (x.din.addr NDIRECT).toNat
    (List.range NINDIRECT).forM fun j =>
      if a.word j ≠ 0 then bfree sb (a.word j).toNat else pure ()
    bfree sb (x.din.addr NDIRECT).toNat
    modifyDin ip fun din => din.setAddr NDIRECT 0
  else pure ()

/-- All blocks of an inode are freed. -/
def itrunc (ip : Ip) : M Unit := do
  (List.range NDIRECT).forM (itruncDirect sb ip)
  itruncIndirect sb ip
  modifyDin ip fun din => { din with size := 0 }
  iupdate sb ip

/-- Frees the inode if this is the last reference to it and it has no links. -/
def iputFree (ip : Ip) : M Unit := do
  let x ← getInode ip
  if x.valid ∧ x.din.nlink = 0 ∧ x.ref = 1 then
    itrunc sb ip
    modifyDin ip fun din => { din with type := 0 }
    iupdate sb ip
    modifyInode ip fun x => { x with valid := false }
  else pure ()

/-- A reference goes. The last one to an inode without links frees it. -/
def iput (ip : Ip) : M Unit := do
  acquiresleep ip
  iputFree sb ip
  releasesleep ip
  modifyInode ip fun x => { x with ref := x.ref - 1 }

/-- Unlock, then put. -/
def iunlockput (ip : Ip) : M Unit := do
  iunlock ip
  iput sb ip

/-- The loop of `readi`, with `n` bytes left to read; a round reads at least one. -/
def readiLoop (ip : Ip) : ℕ → ℕ → ℕ → M (List UInt8)
  | 0, _, _ => pure []
  | fuel + 1, off, n =>
    if n = 0 then pure []
    else do
      let m ← bread (← bmap sb ip (off / BSIZE))
      let k := min n (BSIZE - off % BSIZE)
      let rest ← readiLoop ip fuel (off + k) (n - k)
      pure ((List.range k).map (m.drop (off % BSIZE)) ++ rest)

/-- The bytes read, or `none` for -1. -/
def readi (ip : Ip) (off n : ℕ) : M (Option (List UInt8)) := do
  let x ← getInode ip
  if x.din.type = T_DEV then pure none
  else if x.din.size.toNat < off ∨ (off + n) % 2 ^ 32 < off then pure none
  else
    let n := if x.din.size.toNat < off + n then x.din.size.toNat - off else n
    let bytes ← readiLoop sb ip n off n
    pure (some bytes)

/-- The loop of `writei`, with the bytes of `src` left to write; it gives the offset reached. -/
def writeiLoop (ip : Ip) : ℕ → ℕ → List UInt8 → M ℕ
  | 0, off, _ => pure off
  | fuel + 1, off, src =>
    if src.length = 0 then pure off
    else do
      let b ← bmap sb ip (off / BSIZE)
      let m ← bread b
      let k := min src.length (BSIZE - off % BSIZE)
      logWrite b (m.store (off % BSIZE) k (Bytes.ofList src))
      writeiLoop ip fuel (off + k) (src.drop k)

/-- Writes the size of the inode back, if `n` bytes were written up to `off` and it grew. -/
def writeiSize (ip : Ip) (n off : ℕ) : M Unit := do
  let x ← getInode ip
  if 0 < n ∧ x.din.size.toNat < off then
    modifyDin ip fun din => { din with size := .ofNat off }
    iupdate sb ip
  else pure ()

/-- The number of bytes written, or `none` for -1. -/
def writei (ip : Ip) (src : List UInt8) (off : ℕ) : M (Option ℕ) := do
  let x ← getInode ip
  if x.din.type = T_DEV then pure none
  else if x.din.size.toNat < off ∨ (off + src.length) % 2 ^ 32 < off then pure none
  else if MAXFILE * BSIZE < off + src.length then pure none
  else
    let off ← writeiLoop sb ip src.length off src
    writeiSize sb ip src.length off
    pure (some src.length)

/-! ## Directories -/

/-- The size of a directory entry. -/
abbrev DESIZE : ℕ := 16

/-- The offsets of the entries of a directory. -/
def entries (size : ℕ) : List ℕ := (List.range ((size + (DESIZE - 1)) / DESIZE)).map (DESIZE * ·)

/-- Reads the directory entry at an offset. -/
def readEnt (ip : Ip) (off : ℕ) (e : Panic) : M Dirent := do
  match ← readi sb ip off DESIZE with
  | some bytes =>
    if bytes.length = DESIZE then pure (.decode (Bytes.ofList bytes)) else throw e
  | none => throw e

/-- The loop of `dirlookup`, over the offsets of the entries. -/
def dirlookupLoop (dp : Ip) (name : List UInt8) : List ℕ → M (Option (Ip × ℕ))
  | [] => pure none
  | off :: l => do
    let de ← readEnt sb dp off .dirlookupRead
    if de.inum = 0 then dirlookupLoop dp name l
    else if namecmp name de.name = 0 then do
      let x ← getInode dp
      let ip ← iget x.dev de.inum.toNat
      pure (some (ip, off))
    else dirlookupLoop dp name l

/-- The inode with a name in a directory, and the offset of its entry. -/
def dirlookup (dp : Ip) (name : List UInt8) : M (Option (Ip × ℕ)) := do
  let x ← getInode dp
  if x.din.type ≠ T_DIR then throw .notDir
  else dirlookupLoop sb dp name (entries x.din.size.toNat)

/-! ## Paths -/

/-- The loop of `namex`; the fuel is a bound on the length of the path that is left. It gives the
    inode, or with `parent` the directory of the last element, and that element. -/
def namexLoop (parent : Bool) : ℕ → Ip → List UInt8 → M (Option (Ip × List UInt8))
  | 0, ip, _ =>
    if parent then do
      iput sb ip
      pure none
    else pure (some (ip, []))
  | fuel + 1, ip, path =>
    match Fs.skipelem slash path with
    | none =>
      if parent then do
        iput sb ip
        pure none
      else pure (some (ip, []))
    | some (name, rest) => do
      ilock sb ip
      let x ← getInode ip
      if x.din.type ≠ T_DIR then
        iunlockput sb ip
        pure none
      else if parent ∧ rest = [] then
        iunlock ip
        pure (some (ip, name))
      else
        match ← dirlookup sb ip name with
        | none =>
          iunlockput sb ip
          pure none
        | some (next, _) =>
          iunlockput sb ip
          namexLoop parent fuel next rest

/-- The path is looked up for the process `p`. -/
def namex (p : Slot) (path : List UInt8) (parent : Bool) : M (Option (Ip × List UInt8)) := do
  let s ← get
  let ip ←
    if path.head? = some slash then iget ROOTDEV ROOTINO
    else
      match (s.proc p).cwd with
      | some cwd => idup cwd
      | none => throw .noCwd
  namexLoop sb parent path.length ip path

/-- The inode that a path leads to. -/
def namei (p : Slot) (path : List UInt8) : M (Option Ip) := do
  let r ← namex sb p path false
  pure (r.map Prod.fst)

end Xv6.Disk
