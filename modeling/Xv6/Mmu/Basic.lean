import Xv6.Vm.Tables

/-!
# Page tables in memory

The functions of `vm.c` on page tables, as the words in memory that they are. A page directory and
its page tables are pages of 1024 words, which hold physical addresses and flags, and the loops go
over virtual addresses, which are 32-bit words as well. (In `Xv6.Vm` and `Xv6.Uvm`, a directory is a
tree, and the loops go over the numbers of pages.)

`kalloc` and `kfree` take pages from a list and put them back. (In memory, the list is threaded
through the first words of the free pages, as in `Xv6.Vm.Kalloc`.)

* `pte?`: what the hardware finds for a page, the translation of its addresses;
* `Tree`: the page tables of a directory are pages of their own, each for one entry;
* `pte?_store`: to write an entry changes the translation of one page.
-/

namespace Xv6.Mmu

open Function

open Vm (V2P P2V pgRoundUp pgRoundDown npages toNat_pgRoundDown)

/-- The index in the directory. -/
def PDX (va : UInt32) : UInt32 := (va >>> 22) &&& 0x3FF
/-- The index in the page table. -/
def PTX (va : UInt32) : UInt32 := (va >>> 12) &&& 0x3FF
/-- The address with these indices and offset. -/
def PGADDR (d t o : UInt32) : UInt32 := d <<< 22 ||| t <<< 12 ||| o
/-- The frame of an entry. -/
def PTE_ADDR (pte : UInt32) : UInt32 := pte &&& ~~~0xFFF
/-- The flags of an entry. -/
def PTE_FLAGS (pte : UInt32) : UInt32 := pte &&& 0xFFF

/-- The words of the pages, by their kernel addresses, and the pages that are free. -/
structure Machine where
  page : UInt32 → ℕ → UInt32
  free : List UInt32

namespace Machine

/-- The first free page, or 0. -/
def kalloc (s : Machine) : UInt32 × Machine :=
  match s.free with
  | [] => (0, s)
  | v :: l => (v, { s with free := l })

/-- `memset` of a whole page. -/
def fill (s : Machine) (v x : UInt32) : Machine :=
  { s with page := Function.update s.page v fun _ => x }

/-- A page that is freed is filled with junk. An address that is not that of a page of the
    allocator is a panic. -/
def kfree (s : Machine) (v : UInt32) : Except String Machine :=
  if Vm.IsPage v then .ok { s.fill v 0x01010101 with free := v :: s.free } else .error "kfree"

/-- `*p`, for a pointer into a page. -/
def load (s : Machine) (p : UInt32 × ℕ) : UInt32 := s.page p.1 p.2

/-- `*p = x`. -/
def store (s : Machine) (p : UInt32 × ℕ) (x : UInt32) : Machine :=
  { s with page := Function.update s.page p.1 (Function.update (s.page p.1) p.2 x) }

theorem page_fill_of_ne {s : Machine} {v v' x : UInt32} (h : v' ≠ v) :
    (s.fill v x).page v' = s.page v' := update_of_ne h _ _

theorem kfree_ok {s : Machine} {v : UInt32} (h : Vm.IsPage v) : ∃ s', s.kfree v = .ok s' ∧
    s'.free = v :: s.free ∧ ∀ v' ≠ v, s'.page v' = s.page v' :=
  ⟨_, if_pos h, rfl, fun _ hne => update_of_ne hne _ _⟩

theorem page_store_of_ne {s : Machine} {v v' x : UInt32} {j : ℕ} (h : v' ≠ v) :
    (s.store (v, j) x).page v' = s.page v' := update_of_ne h _ _

theorem page_store_self {s : Machine} {v x : UInt32} {j : ℕ} :
    (s.store (v, j) x).page v = update (s.page v) j x := update_self _ _ _

/-- The pointer to the entry for `va`, or `none` for the null pointer. -/
def walkpgdir (s : Machine) (pgdir va : UInt32) (alloc : Bool) : Option (UInt32 × ℕ) × Machine :=
  let pde := (pgdir, (PDX va).toNat)
  if s.load pde &&& PTE_P ≠ 0 then (some (P2V (PTE_ADDR (s.load pde)), (PTX va).toNat), s)
  else if alloc = false then (none, s)
  else
    let (pgtab, s) := s.kalloc
    if pgtab = 0 then (none, s)
    else
      let s := s.fill pgtab 0
      let s := s.store pde (V2P pgtab ||| PTE_P ||| PTE_W ||| PTE_U)
      (some (pgtab, (PTX va).toNat), s)

/-! ## Translations -/

/-- The page table for the directory index `i`. -/
def table (s : Machine) (pgdir : UInt32) (i : ℕ) : Option UInt32 :=
  if s.page pgdir i &&& PTE_P ≠ 0 then some (P2V (PTE_ADDR (s.page pgdir i))) else none

/-- The entry of the page `n` of the address space, if it is present. -/
def pte? (s : Machine) (pgdir : UInt32) (n : ℕ) : Option UInt32 :=
  (s.table pgdir (n / 1024)).bind fun t =>
    if s.page t (n % 1024) &&& PTE_P ≠ 0 then some (s.page t (n % 1024)) else none

/-- The directory and its page tables are different pages. -/
structure Tree (s : Machine) (pgdir : UInt32) : Prop where
  ne_dir : ∀ i < 1024, s.table pgdir i ≠ some pgdir
  inj : ∀ i < 1024, ∀ j < 1024, ∀ t, s.table pgdir i = some t → s.table pgdir j = some t → i = j

end Machine

/-! ## Words -/

/-- The first address of the page `n`. -/
def addr (n : ℕ) : UInt32 := .ofNat (4096 * n)

variable {n i : ℕ} {x f v pgdir T : UInt32} {s : Machine}

theorem toNat_addr (h : n < 2 ^ 20) : (addr n).toNat = 4096 * n := by
  rw [addr, UInt32.toNat_ofNat']
  omega

theorem toNat_PDX (va : UInt32) : (PDX va).toNat = va.toNat / 4096 / 1024 := by
  have h := va.toNat_lt
  rw [PDX, UInt32.toNat_and, UInt32.toNat_shiftRight]
  change (va.toNat >>> 22) &&& (2 ^ 10 - 1) = _
  rw [Nat.and_two_pow_sub_one_eq_mod, Nat.shiftRight_eq_div_pow]
  omega

theorem toNat_PTX (va : UInt32) : (PTX va).toNat = va.toNat / 4096 % 1024 := by
  rw [PTX, UInt32.toNat_and, UInt32.toNat_shiftRight]
  change (va.toNat >>> 12) &&& (2 ^ 10 - 1) = _
  rw [Nat.and_two_pow_sub_one_eq_mod, Nat.shiftRight_eq_div_pow]

theorem PDX_addr (h : n < 2 ^ 20) : (PDX (addr n)).toNat = n / 1024 := by
  rw [toNat_PDX, toNat_addr h, Nat.mul_div_cancel_left _ (by decide)]

theorem PTX_addr (h : n < 2 ^ 20) : (PTX (addr n)).toNat = n % 1024 := by
  rw [toNat_PTX, toNat_addr h, Nat.mul_div_cancel_left _ (by decide)]

theorem addr_succ (n : ℕ) : addr n + 4096 = addr (n + 1) := by
  rw [addr, addr, Nat.mul_add, UInt32.ofNat_add]
  rfl

/-- Flags are in the bits that an aligned address leaves. -/
theorem toNat_or_flags (hx : x.toNat % 4096 = 0) (hf : f.toNat < 4096) :
    (x ||| f).toNat = x.toNat + f.toNat := by
  have hdiv : x.toNat = 2 ^ 12 * (x.toNat / 4096) := by omega
  rw [UInt32.toNat_or, hdiv]
  exact (Nat.two_pow_add_eq_or_of_lt hf _).symm

theorem toNat_PTE_ADDR (x : UInt32) : (PTE_ADDR x).toNat = 4096 * (x.toNat / 4096) :=
  toNat_pgRoundDown x

theorem PTE_ADDR_or (hx : x.toNat % 4096 = 0) (hf : f.toNat < 4096) : PTE_ADDR (x ||| f) = x := by
  rw [← UInt32.toNat_inj, toNat_PTE_ADDR, toNat_or_flags hx hf]
  omega

theorem PTE_FLAGS_or (hx : x.toNat % 4096 = 0) (hf : f.toNat < 4096) : PTE_FLAGS (x ||| f) = f := by
  rw [← UInt32.toNat_inj, PTE_FLAGS, UInt32.toNat_and, toNat_or_flags hx hf]
  change (x.toNat + f.toNat) &&& (2 ^ 12 - 1) = _
  rw [Nat.and_two_pow_sub_one_eq_mod]
  omega

theorem V2P_aligned (hv : v.toNat % 4096 = 0) : (V2P v).toNat % 4096 = 0 := by
  have hK : KERNBASE.toNat = 2 ^ 31 := rfl
  rw [V2P, UInt32.toNat_sub, hK]
  omega

theorem or_present (x : UInt32) : (x ||| PTE_P) &&& PTE_P ≠ 0 := by
  intro h
  have hbit := congrArg UInt32.toNat h
  rw [UInt32.toNat_and, UInt32.toNat_or] at hbit
  have hone : (x.toNat ||| 1) &&& 1 = 1 := by
    rw [Nat.and_one_is_mod, Nat.or_mod_two_eq_one]
    exact .inr rfl
  exact absurd (hone.symm.trans hbit) (by decide)

/-! ## Walking -/

theorem Machine.pte?_of_table (h : s.table pgdir (n / 1024) = some T) : s.pte? pgdir n =
    if s.page T (n % 1024) &&& PTE_P ≠ 0 then some (s.page T (n % 1024)) else none := by
  rw [pte?, h, Option.bind_some]

theorem Machine.walkpgdir_of_table (h : s.table pgdir (n / 1024) = some T) (hn : n < 2 ^ 20)
    (alloc : Bool) : s.walkpgdir pgdir (addr n) alloc = (some (T, n % 1024), s) := by
  rw [table] at h
  split_ifs at h with hp
  rw [walkpgdir, PDX_addr hn, PTX_addr hn]
  dsimp only
  rw [load, if_pos hp, ← Option.some.inj h]

theorem Machine.walkpgdir_none (h : s.table pgdir (n / 1024) = none) (hn : n < 2 ^ 20) :
    s.walkpgdir pgdir (addr n) false = (none, s) := by
  rw [table] at h
  split_ifs at h with hp
  rw [walkpgdir, PDX_addr hn]
  dsimp only
  rw [load, if_neg hp, if_pos rfl]

end Xv6.Mmu
