import Xv6.Lib.FreeList
import Xv6.Proc.Basic

/-!
# The physical page allocator

The free pages are a list threaded through their first words (`struct run`).
`kalloc` takes the first page and `kfree` puts a page first. Pages are named by the
kernel addresses at which they are mapped, 0 being the null pointer; of what is in a
page, only its first word is kept, which is the link while the page is free. What is written to
a page in use is left out, except by `copyout`, to which the page is named by a page table entry.

* `Kmem.Owns`: the free list and the pages in use are together the pages of the
  allocator, each once. This is what `kalloc` and `kfree` keep (`Owns.kalloc`,
  `Owns.kfree`), stated for the pages a function works on and the others it leaves alone;
* `Kmem.Has`: how many pages are free, to say which calls find memory.
-/

namespace Xv6.Vm

open Function

/-- A kernel address. -/
abbrev Addr := UInt32

/-- The first address after the kernel (`end`, in `kernel.sym`). -/
abbrev kernelEnd : Addr := 0x80116d90

def V2P (a : Addr) : UInt32 := a - KERNBASE
def P2V (a : UInt32) : Addr := a + KERNBASE

/-- The allocator (`kmem`), the first words of the pages, and which of the next calls of
    `kalloc` are to fail although a page is free. -/
structure Kmem where
  freelist : Addr := 0
  next : Addr → UInt32 := fun _ => 0
  deny : List Bool := []

/-- The address of a page that `kfree` accepts. -/
def IsPage (v : Addr) : Prop := v % PGSIZE = 0 ∧ kernelEnd ≤ v ∧ V2P v < PHYSTOP

instance (v : Addr) : Decidable (IsPage v) := inferInstanceAs (Decidable (_ ∧ _ ∧ _))

theorem IsPage.ne_zero {v : Addr} (h : IsPage v) : v ≠ 0 := by
  rintro rfl
  exact absurd h (by decide)

theorem IsPage.v2p_ne_zero {v : Addr} (h : IsPage v) : V2P v ≠ 0 := by
  intro h0
  have : v = KERNBASE := by
    rw [V2P, UInt32.sub_eq_iff_eq_add, UInt32.zero_add] at h0
    exact h0
  subst this
  exact absurd h (by decide)

/-- `kfree`, or `none` if it panics. -/
def kfree (k : Kmem) (v : Addr) : Option Kmem :=
  if IsPage v then some { k with next := Function.update k.next v k.freelist, freelist := v }
  else none

/-- The first page of the list, or 0. -/
def kalloc (k : Kmem) : Addr × Kmem :=
  if k.deny.headD false then (0, { k with deny := k.deny.tail })
  else if k.freelist = 0 then (0, { k with deny := k.deny.tail })
  else (k.freelist, { k with freelist := k.next k.freelist, deny := k.deny.tail })

/-- `freerange`, over the pages it comes to. -/
def freerange (k : Kmem) : List Addr → Option Kmem
  | [] => some k
  | v :: l => (kfree k v).bind fun k => freerange k l

namespace Kmem

variable {T own : Multiset Addr} {v : Addr} {k k' : Kmem} {l : List Addr}

/-! ## Ownership -/

/-- The pages of the free list and the pages `own` in use are together those of `T`, each
    once. -/
structure Owns (T : Multiset Addr) (k : Kmem) (own : Multiset Addr) : Prop where
  nodup : T.Nodup
  isPage : ∀ v ∈ T, IsPage v
  split : ∃ l : List Addr, Linked k.next k.freelist l 0 ∧ (l : Multiset Addr) + own = T

theorem Owns.of_eq {own' : Multiset Addr} (h : Owns T k own) (he : own' = own) :
    Owns T k own' := he ▸ h

theorem Owns.mem (h : Owns T k own) (hv : v ∈ own) : v ∈ T := by
  obtain ⟨l, -, hT⟩ := h.split
  exact hT ▸ Multiset.mem_add.2 (.inr hv)

/-- An owned page can be freed. -/
theorem Owns.isPage_of_mem (h : Owns T k own) (hv : v ∈ own) : IsPage v := h.isPage v (h.mem hv)

/-- No page is owned twice. -/
theorem Owns.nodup_own (h : Owns T k own) : own.Nodup := by
  obtain ⟨l, -, hT⟩ := h.split
  exact Multiset.nodup_of_le (hT ▸ Multiset.le_add_left _ _) h.nodup

/-- What is in use is not in the free list. -/
theorem Owns.kfree (h : Owns T k (v ::ₘ own)) : ∃ k', Vm.kfree k v = some k' ∧ Owns T k' own := by
  have hv : v ∈ T := h.mem (Multiset.mem_cons_self v own)
  obtain ⟨l, hl, hT⟩ := h.split
  have hvl : v ∉ l := fun hm => by
    have hn := h.nodup
    rw [← hT, Multiset.add_cons, Multiset.nodup_cons] at hn
    exact hn.1 (Multiset.mem_add.2 (.inl hm))
  refine ⟨_, if_pos (h.isPage v hv), h.nodup, h.isPage, v :: l, ?_, ?_⟩
  · simp only [linked_cons, true_and, update_self]
    exact (linked_update hvl).2 hl
  · rw [← hT, ← Multiset.cons_coe, Multiset.cons_add, Multiset.add_cons]

/-- `kalloc` gives a page of the free list, or none. -/
theorem Owns.kalloc (h : Owns T k own) :
    (Vm.kalloc k).1 = 0 ∧ Owns T (Vm.kalloc k).2 own ∨
      (Vm.kalloc k).1 ≠ 0 ∧ Owns T (Vm.kalloc k).2 ((Vm.kalloc k).1 ::ₘ own) := by
  obtain ⟨hn, hp, l, hl, hT⟩ := h
  unfold Vm.kalloc
  split_ifs with hd hf
  · exact .inl ⟨rfl, hn, hp, l, hl, hT⟩
  · exact .inl ⟨rfl, hn, hp, l, hl, hT⟩
  · cases l with
    | nil => exact absurd hl hf
    | cons x l =>
      obtain ⟨hx, hl⟩ := linked_cons.1 hl
      refine .inr ⟨hf, hn, hp, l, hx ▸ hl, ?_⟩
      rw [← hT, ← Multiset.cons_coe, Multiset.cons_add, Multiset.add_cons, hx]

/-- A write to a page in use is not seen by the allocator. -/
theorem Owns.poke (h : Owns T k own) (hv : v ∈ own) (w : UInt32) :
    Owns T { k with next := update k.next v w } own := by
  obtain ⟨hn, hp, l, hl, hT⟩ := h
  refine ⟨hn, hp, l, (linked_update fun hm => ?_).2 hl, hT⟩
  rw [← hT] at hn
  exact Multiset.disjoint_left.1 (Multiset.nodup_add.1 hn).2.2 hm hv

theorem Owns.freerange {l : List Addr} (h : Owns T k ((l : Multiset Addr) + own)) :
    ∃ k', Vm.freerange k l = some k' ∧ Owns T k' own ∧ k'.deny = k.deny := by
  induction l generalizing k with
  | nil => exact ⟨k, rfl, by simpa using h, rfl⟩
  | cons v l ih =>
    have h' : Owns T k (v ::ₘ ((l : Multiset Addr) + own)) :=
      h.of_eq (by rw [← Multiset.cons_coe, Multiset.cons_add])
    obtain ⟨k₁, hk, ho⟩ := h'.kfree
    obtain ⟨k', hk', ho', hd⟩ := ih ho
    refine ⟨k', ?_, ho', hd.trans ?_⟩
    · rw [Vm.freerange, hk, Option.bind_some, hk']
    · rw [Vm.kfree, if_pos (h'.isPage_of_mem (Multiset.mem_cons_self _ _))] at hk
      rw [← Option.some.inj hk]

/-! ## Free memory -/

/-- At least `n` pages are free, and `kalloc` fails only if none is. -/
structure Has (k : Kmem) (n : ℕ) : Prop where
  deny : k.deny = []
  free : ∃ l : List Addr, Linked k.next k.freelist l 0 ∧ 0 ∉ l ∧ n ≤ l.length

variable {n : ℕ}

theorem Has.mono {m : ℕ} (h : Has k n) (hm : m ≤ n) : Has k m := by
  obtain ⟨hd, l, hl, h0, hn⟩ := h
  exact ⟨hd, l, hl, h0, hm.trans hn⟩

theorem Has.kalloc (h : Has k (n + 1)) : (Vm.kalloc k).1 ≠ 0 ∧ Has (Vm.kalloc k).2 n := by
  obtain ⟨hd, _ | ⟨v, l⟩, hl, h0, hn⟩ := h
  · cases hn
  obtain ⟨hv, hl⟩ := linked_cons.1 hl
  have hne : k.freelist ≠ 0 := fun he => h0 (by rw [← he, hv]; exact List.mem_cons_self)
  simp only [Vm.kalloc, hd, List.headD_nil, List.tail_nil, Bool.false_eq_true, if_false, if_neg hne]
  exact ⟨hne, rfl, l, hv ▸ hl, fun hm => h0 (List.mem_cons_of_mem _ hm), Nat.le_of_succ_le_succ hn⟩

/-- The pages not in use are free. -/
theorem Owns.has (h : Owns T k own) (hd : k.deny = []) (hn : n + own.card ≤ T.card) : Has k n := by
  obtain ⟨l, hl, hT⟩ := h.split
  refine ⟨hd, l, hl, fun h0 => ?_, ?_⟩
  · exact (h.isPage 0 (hT ▸ Multiset.mem_add.2 (.inl h0))).ne_zero rfl
  · rw [← hT, Multiset.card_add, Multiset.coe_card] at hn
    omega

theorem Has.le_card (h : Has k n) (ho : Owns T k own) : n + own.card ≤ T.card := by
  obtain ⟨-, l, hl, h0, hn⟩ := h
  obtain ⟨l', hl', hT⟩ := ho.split
  have h0' : 0 ∉ l' := fun hm =>
    (ho.isPage 0 (hT ▸ Multiset.mem_add.2 (.inl hm))).ne_zero rfl
  obtain rfl := hl.unique hl' h0 h0'
  rw [← hT, Multiset.card_add, Multiset.coe_card]
  omega

end Kmem

end Xv6.Vm
