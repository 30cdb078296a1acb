import Xv6.Vm.Grow

/-!
# Page tables with their flags

The functions of `vm.c` on page directories, with what `Xv6.Vm` leaves out of them: the flags of the
entries, the mappings of kernel memory, which `setupkvm` makes page by page, and the contents of the
pages. An entry holds the physical address of a page; the pages of the address space are counted
from 0, and a function that panics gives `none`, as there.

Page tables are kept in the tree of their directory, and not in the contents of the pages.
-/

namespace Xv6.Uvm

open Vm (Addr Ram NPDENTRIES NPTENTRIES V2P P2V pdx ptx pageOf npages pgRoundUp pgRoundDown)

abbrev EXTMEM : UInt32 := 0x100000
abbrev DEVSPACE : UInt32 := 0xFE000000
abbrev KERNLINK : UInt32 := KERNBASE + EXTMEM

/-- The first address of the kernel's data (`data`, in `kernel.sym`). -/
abbrev kernelData : UInt32 := 0x80109000

/-- A page table entry that is present: the physical address of the page, and the flags. -/
structure Pte where
  pa : UInt32
  flags : UInt32
  present : flags &&& PTE_P = PTE_P
  deriving DecidableEq

theorem or_and_self (x y : UInt32) : (x ||| y) &&& y = y := by
  rw [← UInt32.toBitVec_inj, UInt32.toBitVec_and, UInt32.toBitVec_or]
  ext i hi
  rw [BitVec.getElem_and, BitVec.getElem_or]
  cases y.toBitVec[i] <;> simp

/-- The entry `pa | perm | PTE_P`. -/
def Pte.of (pa perm : UInt32) : Pte := ⟨pa, perm ||| PTE_P, or_and_self perm PTE_P⟩

/-- A page table. -/
structure Pgtab where
  page : Addr
  pte : Fin NPTENTRIES → Option Pte := fun _ => none

/-- A page directory. Its entries are those that `walkpgdir` makes, with all permissions. -/
structure Pgdir where
  page : Addr
  pde : Fin NPDENTRIES → Option Pgtab := fun _ => none

namespace Pgdir

/-- The entry of the page `a`, if it is present. -/
def pte? (d : Pgdir) (a : ℕ) : Option Pte := (d.pde (pdx a)).bind fun t => t.pte (ptx a)

/-- The entry of the page `a` becomes `x`, in a page table that is there. -/
def setPte (d : Pgdir) (a : ℕ) (x : Option Pte) : Pgdir :=
  match d.pde (pdx a) with
  | none => d
  | some t =>
    let t' := { t with pte := Function.update t.pte (ptx a) x }
    { d with pde := Function.update d.pde (pdx a) (some t') }

/-- `page` becomes the page table for the page `a`, without entries. -/
def addTab (d : Pgdir) (a : ℕ) (page : Addr) : Pgdir :=
  { d with pde := Function.update d.pde (pdx a) (some { page := page }) }

end Pgdir

/-- `walkpgdir` that does not allocate: the entry of the page `a`, or `none` for the null
    pointer if there is no page table for it. -/
def walkpgdir (d : Pgdir) (a : ℕ) : Option (Option Pte) :=
    (d.pde (pdx a)).map fun t => t.pte (ptx a)

/-- `walkpgdir` that allocates, and whether it found or made a page table. -/
def walkpgdirAlloc (d : Pgdir) (a : ℕ) (m : Ram) : Bool × Pgdir × Ram :=
  if (d.pde (pdx a)).isSome then (true, d, m)
  else if m.kalloc.1 = 0 then (false, d, m.kalloc.2)
  else (true, d.addTab a m.kalloc.1, m.kalloc.2)

/-- The loop of `mappages`, over the pages to map, the first of them to the address `pa`. -/
def mapLoop (perm : UInt32) : List ℕ → UInt32 → Pgdir → Ram → Option (Bool × Pgdir × Ram)
  | [], _, d, m => some (true, d, m)
  | a :: l, pa, d, m =>
    match walkpgdirAlloc d a m with
    | (false, d, m) => some (false, d, m)
    | (true, d, m) =>
      if (d.pte? a).isSome then none  -- remap
      else mapLoop perm l (pa + PGSIZE) (d.setPte a (some (.of pa perm))) m

/-- `mappages` of `n` pages from the page `a` on. -/
def mappages (d : Pgdir) (a n : ℕ) (pa perm : UInt32) (m : Ram) : Option (Bool × Pgdir × Ram) :=
  mapLoop perm (List.range' a n) pa d m

/-- The loop of `deallocuvm`, from the page `a` to the page `stop`. Each round gets to a later
    page, so that it ends within `stop - a` of them. -/
def deallocLoop (stop : ℕ) : ℕ → ℕ → Pgdir → Ram → Option (Pgdir × Ram)
  | 0, _, d, m => some (d, m)
  | fuel + 1, a, d, m =>
    if stop ≤ a then some (d, m)
    else match walkpgdir d a with
      -- On to the next page table.
      | none => deallocLoop stop fuel ((a / NPTENTRIES + 1) * NPTENTRIES) d m
      | some none => deallocLoop stop fuel (a + 1) d m
      | some (some p) =>
        if p.pa = 0 then none
        else (m.kfree (P2V p.pa)).bind fun m => deallocLoop stop fuel (a + 1) (d.setPte a none) m

/-- `deallocuvm`, with the new size. -/
def deallocuvm (d : Pgdir) (oldsz newsz : UInt32) (m : Ram) : Option (UInt32 × Pgdir × Ram) :=
  if oldsz ≤ newsz then some (oldsz, d, m)
  else (deallocLoop (npages oldsz) (npages oldsz - pageOf (pgRoundUp newsz))
    (pageOf (pgRoundUp newsz)) d m).map fun (d, m) => (newsz, d, m)

/-- The loop of `freevm`, over the page tables. -/
def freeTabs (d : Pgdir) : List (Fin NPDENTRIES) → Ram → Option Ram
  | [], m => some m
  | i :: l, m =>
    match d.pde i with
    | none => freeTabs d l m
    | some t => (m.kfree t.page).bind fun m => freeTabs d l m

/-- User memory goes, then the page tables and the directory. -/
def freevm (d : Pgdir) (m : Ram) : Option Ram :=
  (deallocuvm d KERNBASE 0 m).bind fun (_, d, m) =>
    (freeTabs d (List.finRange _) m).bind fun m => m.kfree d.page

/-! ## Kernel memory -/

/-- A mapping of kernel memory (`struct kmap`). -/
structure Kmap where
  virt : UInt32
  physStart : UInt32
  physEnd : UInt32
  perm : UInt32
  deriving DecidableEq

/-- The mappings that every directory has. -/
def kmap : List Kmap :=
  [⟨KERNBASE, 0, EXTMEM, PTE_W⟩,                     -- I/O space
   ⟨KERNLINK, V2P KERNLINK, V2P kernelData, 0⟩,      -- kernel text and read-only data
   ⟨kernelData, V2P kernelData, PHYSTOP, PTE_W⟩,     -- kernel data and memory
   ⟨DEVSPACE, DEVSPACE, 0, PTE_W⟩]                   -- devices

namespace Kmap

/-- The first page. -/
def first (k : Kmap) : ℕ := pageOf k.virt

/-- The number of pages from the first to the one of the last byte. -/
def count (k : Kmap) : ℕ := pageOf (k.virt + (k.physEnd - k.physStart) - 1) + 1 - k.first

end Kmap

/-- The loop of `setupkvm`, over the mappings. -/
def mapKernel : List Kmap → Pgdir → Ram → Option (Bool × Pgdir × Ram)
  | [], d, m => some (true, d, m)
  | k :: l, d, m =>
    (mappages d k.first k.count k.physStart k.perm m).bind fun
      | (false, d, m) => some (false, d, m)
      | (true, d, m) => mapKernel l d m

/-- `setupkvm`: a page directory with the kernel mappings, if there is memory. (`PHYSTOP` is not too
    high.) -/
def setupkvm (m : Ram) : Option (Option Pgdir × Ram) :=
  if m.kalloc.1 = 0 then some (none, m.kalloc.2)
  else (mapKernel kmap { page := m.kalloc.1 } m.kalloc.2).bind fun
    | (true, d, m) => some (some d, m)
    | (false, d, m) => (freevm d m).map fun m => (none, m)

/-! ## User memory -/

/-- The loop of `allocuvm`, over the pages to map. -/
def allocLoop (oldsz newsz : UInt32) : List ℕ → Pgdir → Ram → Option (UInt32 × Pgdir × Ram)
  | [], d, m => some (newsz, d, m)
  | a :: l, d, m =>
    let mem := m.kalloc.1
    let m := m.kalloc.2
    if mem = 0 then (deallocuvm d newsz oldsz m).map fun (_, d, m) => (0, d, m)
    else (mappages d a 1 (V2P mem) (PTE_W ||| PTE_U) (m.memset mem 0)).bind fun
      | (false, d, m) => (deallocuvm d newsz oldsz m).bind fun (_, d, m) =>
          (m.kfree mem).map fun m => (0, d, m)
      | (true, d, m) => allocLoop oldsz newsz l d m

/-- `allocuvm`: the new size, or 0. -/
def allocuvm (d : Pgdir) (oldsz newsz : UInt32) (m : Ram) : Option (UInt32 × Pgdir × Ram) :=
  if KERNBASE ≤ newsz then some (0, d, m)
  else if newsz < oldsz then some (oldsz, d, m)
  else allocLoop oldsz newsz
    (List.range' (pageOf (pgRoundUp oldsz)) (npages newsz - pageOf (pgRoundUp oldsz))) d m

/-- `memmove` of a whole page. -/
def copyPage (m : Ram) (dst src : Addr) : Ram :=
  { m with page := Function.update m.page dst (m.page src) }

/-- The loop of `copyuvm`, over the pages to copy. -/
def copyLoop (d : Pgdir) : List ℕ → Pgdir → Ram → Option (Option Pgdir × Ram)
  | [], c, m => some (some c, m)
  | a :: l, c, m =>
    match walkpgdir d a with
    | none => none       -- pte should exist
    | some none => none  -- page not present
    | some (some p) =>
      let mem := m.kalloc.1
      let m := m.kalloc.2
      if mem = 0 then (freevm c m).map fun m => (none, m)
      else (mappages c a 1 (V2P mem) p.flags (copyPage m mem (P2V p.pa))).bind fun
        | (false, c, m) => (m.kfree mem).bind fun m => (freevm c m).map fun m => (none, m)
        | (true, c, m) => copyLoop d l c m

/-- `copyuvm`. The loop ends at the latest when there are no more pages, which is before its index
    wraps around. -/
def copyuvm (d : Pgdir) (sz : UInt32) (m : Ram) : Option (Option Pgdir × Ram) :=
  (setupkvm m).bind fun
    | (none, m) => some (none, m)
    | (some c, m) => copyLoop d (List.range (npages sz)) c m

/-- `clearpteu` of the page `a`. -/
def clearpteu (d : Pgdir) (a : ℕ) : Option Pgdir :=
  (walkpgdir d a).map fun x => d.setPte a (x.map fun p => .of p.pa (p.flags &&& ~~~PTE_U))

end Xv6.Uvm
