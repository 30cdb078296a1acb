import Xv6.Disk.Own
import Xv6.Lib.Prog

/-!
# mkfs

The program that writes the image of a file system with the files given to it in its root
directory (`mkfs.c`), over the bytes of the image. It runs on a machine on which the least
significant byte of a word comes first, as on the disk, so that `xint` and `xshort` change nothing.

A file comes as its name and the chunks of its contents that `read` returns. What stops the
program is an assertion that fails or a read past the end of the image. (A write there would make
the image longer, but no block is written that was not read before.)
-/

namespace Xv6.Mkfs

open Disk

abbrev nlog : ℕ := 30
abbrev nbitmap : ℕ := FSSIZE / (BSIZE * 8) + 1
abbrev ninodeblocks : ℕ := NINODES / IPB + 1
/-- The blocks before the data: boot block, superblock, log, inodes and bitmap. -/
abbrev nmeta : ℕ := 2 + nlog + ninodeblocks + nbitmap

/-- The superblock that `mkfs` writes. -/
def sb : Superblock where
  size := FSSIZE
  nblocks := FSSIZE - nmeta
  ninodes := NINODES
  nlog := nlog
  logstart := 2
  inodestart := 2 + nlog
  bmapstart := 2 + nlog + ninodeblocks

/-- A file to put into the image: its name, and what each `read` of it returns. -/
structure File where
  name : List UInt8
  chunks : List (List UInt8)

/-- The bytes of a file. -/
def File.contents (f : File) : List UInt8 := f.chunks.flatten

/-- The image, and the next inode and block to use. -/
structure State where
  image : Sectors
  freeinode : ℕ := 1
  freeblock : ℕ := 0

/-- Why the program stops. -/
inductive Exit
  | assertion
  /-- A sector could not be read. -/
  | read
  deriving DecidableEq

/-- A function of `mkfs`, which may exit. -/
abbrev M := Prog State Exit

/-- A block is written. -/
def wsect (sec : ℕ) (buf : Bytes) : M Unit :=
  Prog.update fun s => { s with image := Function.update s.image sec buf }

/-- A block is read: one beyond the image cannot be. -/
def rsect (sec : ℕ) : M Bytes := do
  let s ← get
  if sec < FSSIZE then pure (s.image sec) else throw .read

/-- The inode is written to its place in the block. -/
def winode (inum : ℕ) (x : Dinode) : M Unit := do
  let buf ← rsect (IBLOCK sb inum)
  wsect (IBLOCK sb inum) (buf.setElem 64 (inum % IPB) x.encode)

/-- The inode is read from its block. -/
def rinode (inum : ℕ) : M Dinode := do
  let buf ← rsect (IBLOCK sb inum)
  pure (.decode (buf.elem 64 (inum % IPB)))

/-- The next inode gets a type. -/
def ialloc (type : Int16) : M ℕ := do
  let s ← get
  Prog.update fun s => { s with freeinode := s.freeinode + 1 }
  winode s.freeinode { type := type, nlink := 1 }
  pure s.freeinode

/-- `freeblock++`. -/
def nextBlock : M UInt32 := do
  let s ← get
  Prog.update fun s => { s with freeblock := s.freeblock + 1 }
  pure (.ofNat s.freeblock)

/-- The bitmap with the first `n` bits set. -/
def bitmap : ℕ → Bytes
  | 0 => Bytes.zero
  | n + 1 => (bitmap n).setBit n

/-- The bits of the first `n` blocks are set. There is only one block of them. -/
def balloc (n : ℕ) : M Unit :=
  if n < BSIZE * 8 then wsect sb.bmapstart (bitmap n) else throw .assertion

/-- Makes sure that the inode has an indirect block. -/
def appendIndirect (din : Dinode) : M Dinode :=
  if din.addr NDIRECT = 0 then do
    let c ← nextBlock
    pure (din.setAddr NDIRECT c)
  else pure din

/-- The word `k` of the indirect block, a new block if there was none. -/
def appendWord (din : Dinode) (k : ℕ) : M UInt32 := do
  let indirect ← rsect (din.addr NDIRECT).toNat
  if indirect.word k = 0 then
    let b ← nextBlock
    wsect (din.addr NDIRECT).toNat (indirect.setWord k b)
    pure b
  else pure (indirect.word k)

/-- The block `fbn` of the inode in `iappend`, with the inode after the blocks it takes for it. -/
def appendBlock (din : Dinode) (fbn : ℕ) : M (UInt32 × Dinode) :=
  if fbn < NDIRECT then
    if din.addr fbn = 0 then do
      let b ← nextBlock
      pure (b, din.setAddr fbn b)
    else pure (din.addr fbn, din)
  else do
    let din ← appendIndirect din
    let b ← appendWord din (fbn - NDIRECT)
    pure (b, din)

/-- The loop of `iappend`, with the bytes of `p` left to write; a round writes at least one. -/
def iappendLoop : ℕ → Dinode → ℕ → List UInt8 → M (Dinode × ℕ)
  | 0, din, off, _ => pure (din, off)
  | fuel + 1, din, off, p =>
    if p.length = 0 then pure (din, off)
    else if off / BSIZE < MAXFILE then do
      let (x, din) ← appendBlock din (off / BSIZE)
      let n := min p.length ((off / BSIZE + 1) * BSIZE - off)
      let buf ← rsect x.toNat
      wsect x.toNat (buf.store (off - off / BSIZE * BSIZE) n (Bytes.ofList p))
      iappendLoop fuel din (off + n) (p.drop n)
    else throw .assertion

/-- Bytes are appended to a file. -/
def iappend (inum : ℕ) (p : List UInt8) : M Unit := do
  let din ← rinode inum
  let (din, off) ← iappendLoop p.length din din.size.toNat p
  winode inum { din with size := .ofNat off }

/-- The bytes of a directory entry. -/
def direntBytes (inum : ℕ) (name : List UInt8) : List UInt8 :=
  (List.range 16).map ({ inum := .ofNat inum, name := strncpy name : Dirent }).encode

def underscore : UInt8 := 95
def dot : UInt8 := 46

/-- The name of a file in the image: one `_` at its start is dropped. -/
def File.base (f : File) : List UInt8 :=
  if f.name.head? = some underscore then f.name.tail else f.name

/-- One round of the loop of `main`: the file is made, entered in the root and copied. -/
def addFile (f : File) : M Unit :=
  if slash ∈ f.name then throw .assertion
  else do
    let inum ← ialloc T_FILE
    iappend ROOTINO (direntBytes inum f.base)
    f.chunks.forM (iappend inum)

/-- Rounds the size of the root directory up. -/
def fixRoot : M Unit := do
  let din ← rinode ROOTINO
  winode ROOTINO { din with size := .ofNat ((din.size.toNat / BSIZE + 1) * BSIZE) }

/-- Writes zeros to the first `n` sectors. -/
@[irreducible] def clear (n : ℕ) : M Unit := (List.range n).forM fun i => wsect i Bytes.zero

/-- `main`, with the files named on the command line. -/
def main (files : List File) : M Unit := do
  Prog.update fun s => { s with freeblock := nmeta }
  clear FSSIZE
  wsect 1 (sb.encode Bytes.zero)
  let root ← ialloc T_DIR
  if root = ROOTINO then
    iappend root (direntBytes root [dot])
    iappend root (direntBytes root [dot, dot])
    files.forM addFile
    fixRoot
    let s ← get
    balloc s.freeblock
  else throw .assertion

/-- The image that `mkfs` writes. -/
def mkfs (files : List File) : Except Exit Sectors :=
  (main files { image := fun _ => Bytes.zero }).map fun r => r.2.image

end Xv6.Mkfs
