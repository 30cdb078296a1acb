import Xv6.Disk.Kernel

/-!
# Writing to open files

`filewrite` (`file.c`), of a file of type `FD_INODE`, with the sections of `log.c` that it opens and
ends.
-/

namespace Xv6.Disk

variable (sb : Superblock)

/-- `begin_op`. When no section is open, the last `end_op` has emptied the log; and a caller that
    finds too little room sleeps until then. -/
def beginOp : M Unit := Prog.update fun s =>
  if s.outstanding = 0 ∨ LOGSIZE < s.log.card + (s.outstanding + 1) * MAXOPBLOCKS then
    { s with log := ∅, outstanding := 1 }
  else { s with outstanding := s.outstanding + 1 }

/-- `end_op`. The last section that is open commits the log. -/
def endOp : M Unit := Prog.update fun s =>
  { s with
    log := if s.outstanding - 1 = 0 then ∅ else s.log
    outstanding := s.outstanding - 1 }

/-- The file `f` is changed by `g`. -/
def modifyFile (f : Fin NFILE) (g : File → File) : M Unit :=
  Prog.update fun s => { s with file := Function.update s.file f (g (s.file f)) }

/-- The bytes of a write that go into one section. -/
abbrev CHUNK : ℕ := (MAXOPBLOCKS - 1 - 1 - 2) / 2 * 512

/-- One section of `filewrite`: the result of its `writei`. -/
def writeChunk (f : Fin NFILE) (ip : Ip) (src : List UInt8) : M (Option ℕ) := do
  beginOp
  ilock sb ip
  let s ← get
  let r ← writei sb ip src (s.file f).off
  modifyFile f fun x => { x with off := x.off + r.getD 0 }
  iunlock ip
  endOp
  pure r

/-- The loop of `filewrite`; a round writes at least one byte. -/
def filewriteLoop (f : Fin NFILE) (ip : Ip) : ℕ → List UInt8 → M Bool
  | 0, _ => pure true
  | fuel + 1, src =>
    if src.length = 0 then pure true
    else do
      match ← writeChunk sb f ip (src.take CHUNK) with
      | none => pure false
      | some n =>
        if n = (src.take CHUNK).length then filewriteLoop f ip fuel (src.drop n)
        else throw .shortFilewrite

/-- `filewrite` of a file, in chunks. -/
def filewrite (f : Fin NFILE) (src : List UInt8) : M Bool := do
  let s ← get
  if (s.file f).writable = false then pure false
  else
    match (s.file f).ip with
    | none => throw .filewrite
    | some ip => filewriteLoop sb f ip src.length src

end Xv6.Disk
