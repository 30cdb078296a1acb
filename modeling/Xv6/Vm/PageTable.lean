import Xv6.Vm.Kalloc

/-!
# Page tables

The functions of `vm.c` on page directories. A page directory is a tree: its own
page, the page tables of its present entries, and the user pages these map. Pages of
the address space are counted from 0 (`a / PGSIZE`), so that the loops of the source over page
addresses are loops over page numbers; sizes and addresses are the machine words they are.

A function that panics gives `none`. The mappings of kernel memory are the same in every
directory, are not owned by it and cannot be used by a process: of them, only the page tables
that hold them are kept.
-/

namespace Xv6.Vm

abbrev NPDENTRIES : ℕ := 1024
abbrev NPTENTRIES : ℕ := 1024

/-- A present page table entry: the page it maps, and whether the process may use it (`PTE_U`). -/
structure Pte where
  page : Addr
  user : Bool
  deriving DecidableEq

/-- A page table. -/
structure Pgtab where
  page : Addr
  pte : Fin NPTENTRIES → Option Pte := fun _ => none

/-- A page directory. -/
structure Pgdir where
  page : Addr
  pde : Fin NPDENTRIES → Option Pgtab := fun _ => none

/-- The directory index of the page `a`. -/
def pdx (a : ℕ) : Fin NPDENTRIES := Fin.ofNat _ (a / NPTENTRIES)

/-- The table index of the page `a`. -/
def ptx (a : ℕ) : Fin NPTENTRIES := Fin.ofNat _ a

def pgRoundUp (sz : UInt32) : UInt32 := (sz + (PGSIZE - 1)) &&& ~~~(PGSIZE - 1)
def pgRoundDown (a : UInt32) : UInt32 := a &&& ~~~(PGSIZE - 1)

/-- The page of an address. -/
def pageOf (a : UInt32) : ℕ := a.toNat / 4096

/-- The number of pages below `sz`, the last one counted even if it is not full. -/
def npages (sz : UInt32) : ℕ := (sz.toNat + 4095) / 4096

namespace Pgdir

/-- The entry of the page `a`, if it is present. -/
def pte? (d : Pgdir) (a : ℕ) : Option Pte := (d.pde (pdx a)).bind fun t => t.pte (ptx a)

/-- The entry of the page `a` becomes `x`, in a page table that is there. -/
def setPte (d : Pgdir) (a : ℕ) (x : Option Pte) : Pgdir :=
  match d.pde (pdx a) with
  | none => d
  | some t =>
    let t' := { t with pte := Function.update t.pte (ptx a) x }
    { d with pde := Function.update d.pde (pdx a) (some t') }

/-- `page` becomes the page table for the page `a`, without entries. -/
def addTab (d : Pgdir) (a : ℕ) (page : Addr) : Pgdir :=
  { d with pde := Function.update d.pde (pdx a) (some { page := page }) }

end Pgdir

/-- `walkpgdir` that does not allocate: the entry of the page `a`, or `none` for the null
    pointer if there is no page table for it. -/
def walkpgdir (d : Pgdir) (a : ℕ) : Option (Option Pte) :=
    (d.pde (pdx a)).map fun t => t.pte (ptx a)

/-- `walkpgdir` that allocates, and whether it found or made a page table. -/
def walkpgdirAlloc (d : Pgdir) (a : ℕ) (k : Kmem) : Bool × Pgdir × Kmem :=
  if (d.pde (pdx a)).isSome then (true, d, k)
  else if (kalloc k).1 = 0 then (false, d, (kalloc k).2)
  else (true, d.addTab a (kalloc k).1, (kalloc k).2)

/-- `mappages` of one page. -/
def mappages (d : Pgdir) (a : ℕ) (pa : Addr) (user : Bool) (k : Kmem) :
    Option (Bool × Pgdir × Kmem) :=
  match walkpgdirAlloc d a k with
  | (false, d, k) => some (false, d, k)
  | (true, d, k) =>
    if (d.pte? a).isSome then none else some (true, d.setPte a (some ⟨pa, user⟩), k)

/-- The first and the last directory index of the mappings of `kmap`. -/
def kmap : List (ℕ × ℕ) :=
  [(512, 512),    -- I/O space
   (512, 512),    -- kernel text and read-only data
   (512, 567),    -- kernel data and memory
   (1016, 1023)]  -- devices

/-- The directory indices at which `setupkvm` comes to a page table, in order. -/
def kmapPdx : List ℕ := kmap.flatMap fun (lo, hi) => List.range' lo (hi + 1 - lo)

/-- `mappages` of kernel memory, by page tables. -/
def mapKernel : List ℕ → Pgdir → Kmem → Bool × Pgdir × Kmem
  | [], d, k => (true, d, k)
  | i :: l, d, k =>
    match walkpgdirAlloc d (i * NPTENTRIES) k with
    | (false, d, k) => (false, d, k)
    | (true, d, k) => mapKernel l d k

/-- What pages are taken from: the allocator alone, or with the contents of the pages. -/
class HasPages (μ : Type) where
  kalloc : μ → Addr × μ
  kfree : μ → Addr → Option μ
  memset : μ → Addr → UInt8 → μ
  mappages : Pgdir → ℕ → Addr → Bool → μ → Option (Bool × Pgdir × μ)

instance : HasPages Kmem where
  kalloc := kalloc
  kfree := kfree
  memset k _ _ := k
  mappages := mappages

section Pages

variable {μ : Type} [HasPages μ]

/-- The loop of `deallocuvm`, from the page `a` to the page `stop`. Each round gets to a later
    page, so that it ends within `stop - a` of them. -/
def deallocLoop (stop : ℕ) : ℕ → ℕ → Pgdir → μ → Option (Pgdir × μ)
  | 0, _, d, k => some (d, k)
  | fuel + 1, a, d, k =>
    if stop ≤ a then some (d, k)
    else match walkpgdir d a with
      -- On to the next page table.
      | none => deallocLoop stop fuel ((a / NPTENTRIES + 1) * NPTENTRIES) d k
      | some none => deallocLoop stop fuel (a + 1) d k
      | some (some p) =>
        if V2P p.page = 0 then none
        else (HasPages.kfree k p.page).bind fun k =>
          deallocLoop stop fuel (a + 1) (d.setPte a none) k

/-- `deallocuvm`, with the new size. -/
def deallocuvm (d : Pgdir) (oldsz newsz : UInt32) (k : μ) : Option (UInt32 × Pgdir × μ) :=
  if oldsz ≤ newsz then some (oldsz, d, k)
  else (deallocLoop (npages oldsz) (npages oldsz - pageOf (pgRoundUp newsz))
    (pageOf (pgRoundUp newsz)) d k).map fun (d, k) => (newsz, d, k)

/-- The loop of `allocuvm`, over the pages to map. -/
def allocLoop (oldsz newsz : UInt32) : List ℕ → Pgdir → μ → Option (UInt32 × Pgdir × μ)
  | [], d, k => some (newsz, d, k)
  | a :: l, d, k =>
    let mem := (HasPages.kalloc k).1
    let k := (HasPages.kalloc k).2
    if mem = 0 then (deallocuvm d newsz oldsz k).map fun (_, d, k) => (0, d, k)
    else (HasPages.mappages d a mem true (HasPages.memset k mem 0)).bind fun
      | (false, d, k) => (deallocuvm d newsz oldsz k).bind fun (_, d, k) =>
          (HasPages.kfree k mem).map fun k => (0, d, k)
      | (true, d, k) => allocLoop oldsz newsz l d k

/-- `allocuvm`: the new size, or 0. -/
def allocuvm (d : Pgdir) (oldsz newsz : UInt32) (k : μ) : Option (UInt32 × Pgdir × μ) :=
  if KERNBASE ≤ newsz then some (0, d, k)
  else if newsz < oldsz then some (oldsz, d, k)
  else allocLoop oldsz newsz
    (List.range' (pageOf (pgRoundUp oldsz)) (npages newsz - pageOf (pgRoundUp oldsz))) d k

end Pages

/-- The loop of `freevm`, over the page tables. -/
def freeTabs (d : Pgdir) : List (Fin NPDENTRIES) → Kmem → Option Kmem
  | [], k => some k
  | i :: l, k =>
    match d.pde i with
    | none => freeTabs d l k
    | some t => (kfree k t.page).bind fun k => freeTabs d l k

/-- User memory goes, then the page tables and the directory. -/
def freevm (d : Pgdir) (k : Kmem) : Option Kmem :=
  (deallocuvm d KERNBASE 0 k).bind fun (_, d, k) =>
    (freeTabs d (List.finRange _) k).bind fun k => kfree k d.page

/-- `setupkvm`: a page directory with the kernel mappings, if there is memory. -/
def setupkvm (k : Kmem) : Option (Option Pgdir × Kmem) :=
  if (kalloc k).1 = 0 then some (none, (kalloc k).2)
  else match mapKernel kmapPdx { page := (kalloc k).1 } (kalloc k).2 with
    | (true, d, k) => some (some d, k)
    | (false, d, k) => (freevm d k).map fun k => (none, k)

/-- The loop of `copyuvm`, over the pages to copy. -/
def copyLoop (d : Pgdir) : List ℕ → Pgdir → Kmem → Option (Option Pgdir × Kmem)
  | [], c, k => some (some c, k)
  | a :: l, c, k =>
    match walkpgdir d a with
    | none => none       -- pte should exist
    | some none => none  -- page not present
    | some (some p) =>
      let mem := (kalloc k).1
      let k := (kalloc k).2
      if mem = 0 then (freevm c k).map fun k => (none, k)
      else (mappages c a mem p.user k).bind fun
        | (false, c, k) => (kfree k mem).bind fun k => (freevm c k).map fun k => (none, k)
        | (true, c, k) => copyLoop d l c k

/-- `copyuvm`: the copy, if there is memory. -/
def copyuvm (d : Pgdir) (sz : UInt32) (k : Kmem) : Option (Option Pgdir × Kmem) :=
  (setupkvm k).bind fun
    | (none, k) => some (none, k)
    | (some c, k) => copyLoop d (List.range (npages sz)) c k

/-- `inituvm`, which fails if there is no page for the program. -/
def inituvm (d : Pgdir) (k : Kmem) : Option (Pgdir × Kmem) :=
  if (kalloc k).1 = 0 then none
  else (mappages d 0 (kalloc k).1 true (kalloc k).2).map fun (_, d, k) => (d, k)

/-- `clearpteu` of the page `a`. -/
def clearpteu (d : Pgdir) (a : ℕ) : Option Pgdir :=
  (walkpgdir d a).map fun x => d.setPte a (x.map fun p => { p with user := false })

/-- `loaduvm` of a segment that starts at the page `a`, of which the first `good` pages can be
    read from the file. -/
def loaduvm (d : Pgdir) : List ℕ → ℕ → Option Bool
  | [], _ => some true
  | a :: l, good =>
    match walkpgdir d a, good with
    | none, _ => none
    | some _, 0 => some false
    | some _, good + 1 => loaduvm d l good

/-! ## Copying out -/

/-- What `copyout` does: `uva2ka` of a page, and whether there is a page table for it, or a write of
    `n` bytes from the address `va` on. -/
inductive Access
  | lookup (a : ℕ) (present : Bool)
  | write (va : UInt32) (n : ℕ)
  deriving DecidableEq

/-- What a function returns, `none` if the kernel is stopped in it, and the record of what `copyout`
    has done until then. -/
structure Logged (α : Type) where
  result : Option α
  log : List Access

namespace Logged

variable {α β : Type}

/-- A function that does not call `copyout`. -/
def of (x : Option α) : Logged α := ⟨x, []⟩

/-- One function after the other. -/
def bind (x : Logged α) (f : α → Logged β) : Logged β :=
  match x.result with
  | none => ⟨none, x.log⟩
  | some a => ⟨(f a).result, x.log ++ (f a).log⟩

theorem result_bind (x : Logged α) (f : α → Logged β) :
    (x.bind f).result = x.result.bind fun a => (f a).result := by
  rw [bind]
  cases x.result <;> rfl

@[simp] theorem result_of (x : Option α) : (of x).result = x := rfl

@[simp] theorem of_some_bind (a : α) (f : α → Logged β) : (of (some a)).bind f = f a := rfl

end Logged

/-- `uva2ka` of the page `a`, or 0. It does not check that there is a page table for `a`. If there
    is none, the kernel is stopped where it reads the entry through the null pointer (the `ud2` of
    `uva2ka.cold` and `copyout.cold`, in `kernel.asm`). -/
def uva2ka (d : Pgdir) (a : ℕ) : Option Addr :=
  (walkpgdir d a).map fun x => x.elim 0 fun p => if p.user then p.page else 0

/-- The first word of a page, after `n` bytes were written to it from the offset `off` on. -/
def firstWord (w : UInt32) (off n : ℕ) (byte : ℕ → UInt8) : UInt32 :=
  [0, 1, 2, 3].foldl (fun (acc : UInt32) (j : ℕ) => acc |||
    ((if off ≤ j ∧ j < off + n then (byte (j - off)).toUInt32
      else (w >>> (8 * j).toUInt32) &&& 0xFF) <<< (8 * j).toUInt32)) 0

/-- `memmove` of `n` bytes to the page `pa`, from the offset `off` on. -/
def memmove (k : Kmem) (pa : Addr) (off n : ℕ) (byte : ℕ → UInt8) : Kmem :=
  { k with next := Function.update k.next pa (firstWord (k.next pa) off n byte) }

/-- The loop of `copyout`, and whether it copies all `len` bytes. Each round copies one of them at
    least. -/
def copyoutLoop (d : Pgdir) : ℕ → UInt32 → ℕ → (ℕ → UInt8) → Kmem → Logged (Bool × Kmem)
  | 0, _, _, _, k => .of (some (true, k))
  | fuel + 1, va, len, byte, k =>
    let va0 := pgRoundDown va
    let off := (va - va0).toNat
    let n := min (4096 - off) len
    if len = 0 then .of (some (true, k))
    else
      let look := Access.lookup (pageOf va0) (walkpgdir d (pageOf va0)).isSome
      (Logged.mk (uva2ka d (pageOf va0)) [look]).bind fun pa0 =>
        if pa0 = 0 then .of (some (false, k))
        else (Logged.mk (some (memmove k pa0 off n byte)) [.write va n]).bind fun k =>
          copyoutLoop d fuel (va0 + PGSIZE) (len - n) (fun j => byte (n + j)) k

/-- `copyout` of `len` bytes to the address `va`. -/
def copyout (d : Pgdir) (va : UInt32) (len : ℕ) (byte : ℕ → UInt8) (k : Kmem) :
    Logged (Bool × Kmem) :=
  copyoutLoop d len va len byte k

end Xv6.Vm
