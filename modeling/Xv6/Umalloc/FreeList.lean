import Xv6.Lib.FreeList
import Xv6.Umalloc.Basic

/-!
# The list of the free blocks

The free blocks, in the order of their addresses, are a list of extents that starts with the empty
one of `base`. The headers link them to a circle (`Free`). The loop of `free` ends at the last block
below the one to be freed (`Free.exists_seek`), and `link` and `take` keep the list (`Free.link`,
`Free.take`).
-/

namespace Xv6.Umalloc

open Extent Function

variable {base : ℕ} {h : Heap} {F l l₁ l₂ : List Extent} {a b e : Extent} {bp k n p q : ℕ}

/-! ## Memory -/

namespace Heap

@[simp] theorem ptr_setPtr_self : (h.setPtr p q).ptr p = q := by simp [ptr, setPtr]

@[simp] theorem size_setPtr : (h.setPtr p q).size = h.size := by
  funext x
  by_cases hx : x = p
  · simp [size, setPtr, hx]
  · simp [size, setPtr, hx]

@[simp] theorem ptr_setSize : (h.setSize p n).ptr = h.ptr := by
  funext x
  by_cases hx : x = p
  · simp [ptr, setSize, hx]
  · simp [ptr, setSize, hx]

theorem size_setSize : (h.setSize p n).size = update h.size p n := by
  funext x
  by_cases hx : x = p
  · simp [size, setSize, hx]
  · simp [size, setSize, hx]

theorem mem_setPtr_of_ne {x : ℕ} (hx : x ≠ p) : (h.setPtr p q).mem x = h.mem x :=
  update_of_ne hx ..

theorem mem_setSize_of_ne {x : ℕ} (hx : x ≠ p) : (h.setSize p n).mem x = h.mem x :=
  update_of_ne hx ..

end Heap

theorem add_of_lt (hlt : p + 8 * n < 2 ^ 32) : add p n = p + 8 * n := Nat.mod_eq_of_lt hlt

/-! ## The list -/

/-- The blocks of `l` are linked, and the last one leads to `base`. -/
structure Segment (base : ℕ) (h : Heap) (l : List Extent) : Prop where
  linked : Linked h.ptr ((l.map start).headD base) (l.map start) base
  size : ∀ e ∈ l, 8 * h.size e.start = e.len

/-- A block of the heap. -/
structure InHeap (base : ℕ) (brk : ℕ) (e : Extent) : Prop where
  base : base + 8 ≤ e.start
  aligned : 8 ∣ e.start
  pos : 0 < e.len
  le_brk : e.stop ≤ brk

/-- The free blocks. -/
structure Free (base : ℕ) (h : Heap) (F : List Extent) : Prop where
  head : F.head? = some ⟨base, 0⟩
  linked : Segment base h F
  apart : Apart F
  inHeap : ∀ e ∈ F, e.start ≠ base → InHeap base h.brk e
  freep : h.freep ∈ F.map start

/-- Only the headers of the blocks are read. -/
theorem Segment.frame {h' : Heap} (hs : Segment base h l)
    (hmem : ∀ e ∈ l, h'.mem e.start = h.mem e.start) : Segment base h' l := by
  refine ⟨(linked_congr fun x hx => ?_).2 hs.linked, fun e he => ?_⟩
  · obtain ⟨e, he, rfl⟩ := List.mem_map.1 hx
    exact congrArg Header.ptr (hmem e he)
  · rw [← hs.size e he, Heap.size, hmem e he, Heap.size]

theorem Segment.tail (hs : Segment base h (a :: l)) : Segment base h l := by
  obtain ⟨-, hl⟩ := linked_cons.1 hs.linked
  refine ⟨?_, fun e he => hs.size e (List.mem_cons_of_mem _ he)⟩
  rw [← hl.eq_headD]
  exact hl

theorem Segment.suffix (hs : Segment base h (l₁ ++ l)) : Segment base h l := by
  induction l₁ with
  | nil => exact hs
  | cons a l₁ ih => exact ih hs.tail

theorem Segment.ptr_eq (hs : Segment base h (a :: l)) : h.ptr a.start = (l.map start).headD base :=
  (linked_cons.1 hs.linked).2.eq_headD

theorem Segment.cons (hs : Segment base h l) (hptr : h.ptr a.start = (l.map start).headD base)
    (hsize : 8 * h.size a.start = a.len) : Segment base h (a :: l) := by
  refine ⟨linked_cons.2 ⟨rfl, ?_⟩, List.forall_mem_cons.2 ⟨hsize, hs.size⟩⟩
  rw [hptr]
  exact hs.linked

/-- What comes before a block stays when the rest is replaced. -/
theorem Segment.prepend {h' : Heap} {l' : List Extent} (hs : Segment base h (l₁ ++ l))
    (hs' : Segment base h' l') (hhead : (l'.map start).headD base = (l.map start).headD base)
    (hmem : ∀ e ∈ l₁, h'.mem e.start = h.mem e.start) : Segment base h' (l₁ ++ l') := by
  induction l₁ with
  | nil => exact hs'
  | cons a l₁ ih =>
    have hptr : h.ptr a.start = ((l₁ ++ l).map start).headD base := hs.ptr_eq
    have hsize := hs.size a List.mem_cons_self
    obtain ⟨ha, hmem⟩ := List.forall_mem_cons.1 hmem
    refine (ih hs.tail hmem).cons ?_ ?_
    · rw [Heap.ptr, ha]
      refine hptr.trans ?_
      cases l₁ with
      | nil => exact hhead.symm
      | cons c l₁ => rfl
    · rw [Heap.size, ha]
      exact hsize

theorem Heap.mem_coalesce_of_ne {x : ℕ} (hx : x ≠ p) : (h.coalesce p q).mem x = h.mem x := by
  rw [Heap.coalesce]
  split_ifs
  · rw [mem_setPtr_of_ne hx, mem_setSize_of_ne hx]
  · rw [mem_setPtr_of_ne hx]

@[simp] theorem Heap.brk_coalesce : (h.coalesce p q).brk = h.brk := by
  rw [Heap.coalesce]
  split_ifs <;> rfl

/-- The block `a` comes before those of `l`. -/
theorem Segment.coalesce (hs : Segment base h l) (ha : 8 * h.size a.start = a.len)
    (hlt : ∀ b ∈ l, a.start < b.start) (hstop : ∀ b ∈ a :: l, b.stop < 2 ^ 32)
    (hbase : l = [] → a.stop ≠ base) :
    Segment base (h.coalesce a.start ((l.map start).headD base)) (join a l) := by
  have hadd : add a.start (h.size a.start) = a.stop := by
    have hlt := hstop a List.mem_cons_self
    rw [stop, ← ha] at hlt ⊢
    exact add_of_lt hlt
  have hframe {q : ℕ} {l' : List Extent} (hl' : l' <:+ l) (hs : Segment base h l') :
      Segment base (h.coalesce a.start q) l' :=
    hs.frame fun e he => Heap.mem_coalesce_of_ne (hlt e (hl'.subset he)).ne'
  cases l with
  | nil =>
    have hne := hbase rfl
    refine (hframe List.suffix_rfl hs).cons ?_ ?_
    · simp [Heap.coalesce, hadd, hne]
    · simp [Heap.coalesce, hadd, hne, ha]
  | cons b l =>
    have hb : b.stop < 2 ^ 32 := hstop b (by simp)
    by_cases heq : a.stop = b.start
    · rw [join_of_eq heq]
      refine (hframe (List.suffix_cons b l) hs.tail).cons ?_ ?_
      · simp [Heap.coalesce, hadd, heq, hs.ptr_eq]
      · have hsize := hs.size b List.mem_cons_self
        simp only [stop] at heq hb
        simp [Heap.coalesce, hadd, stop, heq, Heap.size_setSize]
        omega
    · rw [join_of_ne (by simpa using heq)]
      refine (hframe List.suffix_rfl hs).cons ?_ ?_
      · simp [Heap.coalesce, hadd, heq]
      · simp [Heap.coalesce, hadd, heq, ha]

/-! ## The loop of `free` -/

namespace Heap

theorem seek_mono {j : ℕ} (hk : h.seek bp k p = some q) (hj : k ≤ j) : h.seek bp j p = some q := by
  induction k generalizing j p with
  | zero => cases hk
  | succ k ih =>
    obtain ⟨j, rfl⟩ := Nat.exists_eq_add_of_le' (Nat.le_trans (Nat.succ_pos k) hj)
    rw [seek] at hk ⊢
    split_ifs at hk ⊢
    · exact hk
    · exact hk
    · exact ih hk (Nat.le_of_succ_le_succ hj)

/-- The loop goes on at `p`. -/
def Skips (h : Heap) (bp p : ℕ) : Prop :=
  ¬(p < bp ∧ bp < h.ptr p) ∧ ¬(h.ptr p ≤ p ∧ (p < bp ∨ bp < h.ptr p))

theorem seek_skip {xs : List ℕ} (hl : Linked h.ptr p xs q) (hxs : ∀ x ∈ xs, h.Skips bp x) :
    h.seek bp (xs.length + k) p = h.seek bp k q := by
  induction xs generalizing p with
  | nil => rw [linked_nil.1 hl, List.length_nil, Nat.zero_add]
  | cons x xs ih =>
    obtain ⟨rfl, hl⟩ := linked_cons.1 hl
    obtain ⟨h₁, h₂⟩ := hxs p List.mem_cons_self
    rw [List.length_cons, Nat.add_right_comm, seek, if_neg h₁, if_neg h₂]
    exact ih hl fun y hy => hxs y (List.mem_cons_of_mem _ hy)

/-- The loop ends at the last block below `bp`, wherever it starts. -/
theorem exists_seek {xs ys : List ℕ} {x : ℕ} (hl : Linked h.ptr base (xs ++ x :: ys) base)
    (hsorted : (xs ++ x :: ys).Pairwise (· < ·)) (hbase : base ≤ x) (hx : x < bp)
    (hys : ∀ y ∈ ys, bp < y) (hp : p ∈ xs ++ x :: ys) : ∃ k, h.seek bp k p = some x := by
  obtain ⟨c, hxs, hl⟩ := linked_append.1 hl
  obtain ⟨rfl, hl⟩ := linked_cons.1 hl
  obtain ⟨-, hsorted₂, hsorted₁⟩ := List.pairwise_append.1 hsorted
  have hend : h.seek bp 1 c = some c := by
    rw [seek]
    split_ifs with h₁ h₂
    · rfl
    · rfl
    · have hptr := hl.eq_headD
      cases ys with
      | nil => exact absurd ⟨by rw [hptr]; exact hbase, .inl hx⟩ h₂
      | cons y ys => exact absurd ⟨hx, by rw [hptr]; exact hys y List.mem_cons_self⟩ h₁
  have hlow : ∀ y ∈ xs, h.Skips bp y := by
    intro y hy
    obtain ⟨us, vs, rfl⟩ := List.append_of_mem hy
    obtain ⟨d, -, hd⟩ := linked_append.1 hxs
    obtain ⟨rfl, hd⟩ := linked_cons.1 hd
    -- the next block is still below
    have hlt : d < h.ptr d ∧ h.ptr d < bp := by
      have hptr := hd.eq_headD
      cases vs with
      | nil => exact hptr ▸ ⟨hsorted₁ d hy c List.mem_cons_self, hx⟩
      | cons v vs =>
        rw [List.append_assoc, List.cons_append, List.cons_append, List.pairwise_append,
          List.pairwise_cons] at hsorted
        have hv := hsorted.2.1.1 v List.mem_cons_self
        exact hptr ▸ ⟨hv, (hsorted₁ v (by simp) c List.mem_cons_self).trans hx⟩
    constructor <;> omega
  have hhigh : ∀ y ∈ ys, h.Skips bp y := by
    intro y hy
    have hlt := hys y hy
    obtain ⟨us, vs, rfl⟩ := List.append_of_mem hy
    obtain ⟨d, -, hd⟩ := linked_append.1 hl
    obtain ⟨rfl, hd⟩ := linked_cons.1 hd
    have hptr := hd.eq_headD
    cases vs with
    | nil =>
      have hptr : h.ptr d = base := hptr
      constructor <;> omega
    | cons v vs =>
      have hv :=
        (List.pairwise_cons.1 (List.pairwise_append.1 (List.pairwise_cons.1 hsorted₂).2).2.1).1
        v List.mem_cons_self
      have hptr : h.ptr d = v := hptr
      constructor <;> omega
  have hfirst : h.seek bp (xs.length + 1) base = some c := (seek_skip hxs hlow).trans hend
  rcases List.mem_append.1 hp with hp | hp
  · obtain ⟨us, vs, rfl⟩ := List.append_of_mem hp
    obtain ⟨d, -, hd⟩ := linked_append.1 hxs
    obtain rfl := (linked_cons.1 hd).1
    exact ⟨_, (seek_skip hd fun y hy => hlow y (List.mem_append_right _ hy)).trans hend⟩
  · rcases List.mem_cons.1 hp with rfl | hp
    · exact ⟨1, hend⟩
    · obtain ⟨us, vs, rfl⟩ := List.append_of_mem hp
      obtain ⟨d, -, hd⟩ := linked_append.1 hl
      obtain rfl := (linked_cons.1 hd).1
      exact ⟨_, (seek_skip hd fun y hy => hhigh y (List.mem_append_right _ hy)).trans hfirst⟩

end Heap

/-! ## A block is freed -/

theorem Free.base_le (hF : Free base h F) (he : e ∈ F) : base ≤ e.start := by
  by_cases hbase : e.start = base
  · exact hbase.ge
  · exact (Nat.le_add_right _ 8).trans (hF.inHeap e he hbase).base

theorem Free.base_mem (hF : Free base h F) : (⟨base, 0⟩ : Extent) ∈ F :=
  List.mem_of_mem_head? hF.head

/-- The header `base` has no memory. -/
theorem Free.size_base (hF : Free base h F) : h.size base = 0 := by
  have hsize : 8 * h.size base = 0 := hF.linked.size _ hF.base_mem
  omega

/-- The memory of the free blocks is in the heap. -/
theorem Free.inHeap_of_mem {x : ℕ} (hF : Free base h F) (he : e ∈ F) (hx : x ∈ e) :
    InHeap base h.brk e := by
  refine hF.inHeap e he fun hbase => ?_
  have hsize := hF.linked.size e he
  rw [hbase, hF.size_base] at hsize
  rw [mem_def] at hx
  omega

theorem Free.linked_base (hF : Free base h F) : Linked h.ptr base (F.map start) base := by
  have hlinked := hF.linked.linked
  have hhead := hF.head
  cases F with
  | nil => cases hhead
  | cons e F =>
    obtain rfl := Option.some.inj hhead
    exact hlinked

theorem Free.sorted (hF : Free base h F) : (F.map start).Pairwise (· < ·) :=
  List.pairwise_map.2 (hF.apart.imp Below.start_lt)

theorem inHeap_join {brk : ℕ} (ha : a.start ≠ base → InHeap base brk a)
    (hl : ∀ b ∈ l, InHeap base brk b) (he : e ∈ join a l) (hbase : e.start ≠ base) :
    InHeap base brk e := by
  obtain rfl | he | ⟨b, hb, heq, rfl⟩ := mem_join he
  · exact ha hbase
  · exact hl e he
  · have ha := ha hbase
    have hstop := (hl b hb).le_brk
    refine ⟨ha.base, ha.aligned, Nat.add_pos_left ha.pos _, ?_⟩
    simp only [stop] at heq hstop ⊢
    omega

/-- The block `b` is linked after `e`, and coalesced with its neighbours. -/
theorem Free.link (hF : Free base h (l₁ ++ e :: l₂)) (hbrk : h.brk < 2 ^ 32)
    (hb : InHeap base h.brk b) (hsize : 8 * h.size b.start = b.len) (he : e.stop ≤ b.start)
    (hl₂ : ∀ a ∈ l₂, b.stop ≤ a.start) :
    Free base (h.link b.start e.start) (l₁ ++ join e (join b l₂)) := by
  have hlt : e.start < b.start := by
    by_cases hbase : e.start = base
    · have hb := hb.base
      omega
    · have hpos := (hF.inHeap e (by simp) hbase).pos
      rw [stop] at he
      omega
  have hl₂base : ∀ a ∈ l₂, InHeap base h.brk a := fun a ha => by
    refine hF.inHeap a (by simp [ha]) fun hbase => ?_
    have hle := hl₂ a ha
    have hb := hb.base
    rw [stop] at hle
    omega
  have hjoin {x : Extent} (hx : x ∈ join b l₂) : InHeap base h.brk x := by
    refine inHeap_join (fun _ => hb) hl₂base hx fun hbase => ?_
    have hle := le_start_of_mem_join (Nat.le_refl b.start)
      (fun c hc => (Nat.le_add_right _ _).trans (hl₂ c hc)) hx
    have hb := hb.base
    omega
  have hseg : Segment base h (e :: l₂) := hF.linked.suffix
  have hseg₁ : Segment base (h.coalesce b.start (h.ptr e.start)) (join b l₂) := by
    rw [hseg.ptr_eq]
    refine hseg.tail.coalesce hsize (fun a ha => ?_) (fun a ha => ?_) fun _ heq => ?_
    · have hpos := hb.pos
      exact Nat.lt_of_lt_of_le (Nat.lt_add_of_pos_right hpos) (hl₂ a ha)
    · rcases List.mem_cons.1 ha with rfl | ha
      · exact hb.le_brk.trans_lt hbrk
      · exact (hl₂base a ha).le_brk.trans_lt hbrk
    · have hb := hb.base
      rw [stop] at heq
      omega
  obtain ⟨n, l', hjoin_eq, -, -⟩ := exists_join b l₂
  have hhead : ((join b l₂).map start).headD base = b.start := by rw [hjoin_eq]; rfl
  have hmem : (h.coalesce b.start (h.ptr e.start)).mem e.start = h.mem e.start :=
    Heap.mem_coalesce_of_ne hlt.ne
  have hseg₂ : Segment base (h.link b.start e.start) (join e (join b l₂)) := by
    have hsize' : 8 * (h.coalesce b.start (h.ptr e.start)).size e.start = e.len := by
      rw [Heap.size, hmem]
      exact hseg.size e List.mem_cons_self
    have hseg₂ := hseg₁.coalesce hsize' (fun a ha => ?_) (fun a ha => ?_) fun hnil => ?_
    · rw [hhead] at hseg₂
      exact hseg₂.frame fun _ _ => rfl
    · exact hlt.trans_le (le_start_of_mem_join (Nat.le_refl b.start)
        (fun c hc => (Nat.le_add_right _ _).trans (hl₂ c hc)) ha)
    · rcases List.mem_cons.1 ha with rfl | ha
      · exact he.trans_lt ((Nat.le_add_right _ _).trans_lt (hb.le_brk.trans_lt hbrk))
      · exact (hjoin ha).le_brk.trans_lt hbrk
    · rw [hjoin_eq] at hnil
      cases hnil
  obtain ⟨m, l'', hjoin_eq', -, -⟩ := exists_join e (join b l₂)
  refine ⟨?_, hF.linked.prepend hseg₂ (by rw [hjoin_eq']; rfl) fun a ha => ?_,
    hF.apart.insert he hl₂,
    fun a ha hbase => ?_, ?_⟩
  · cases l₁ with
    | nil =>
      obtain rfl : e = ⟨base, 0⟩ := Option.some.inj hF.head
      rw [List.nil_append, join_of_ne]
      · rfl
      · intro x hx
        rw [hjoin_eq] at hx
        obtain rfl := Option.some.inj hx
        exact hlt.ne
    | cons a l₁ => exact hF.head
  · have hae : a.start < e.start :=
      ((List.pairwise_append.1 hF.apart).2.2 a ha e List.mem_cons_self).start_lt
    exact (Heap.mem_coalesce_of_ne hae.ne).trans (Heap.mem_coalesce_of_ne (hae.trans hlt).ne)
  · have hbrk : (h.link b.start e.start).brk = h.brk := by simp [Heap.link]
    rw [hbrk]
    rcases List.mem_append.1 ha with ha | ha
    · exact hF.inHeap a (List.mem_append_left _ ha) hbase
    · exact inHeap_join (hF.inHeap e (by simp)) (fun x => hjoin) ha hbase
  · rw [hjoin_eq', List.map_append]
    exact List.mem_append_right _ List.mem_cons_self

/-! ## A block is allocated -/

/-- The block `b` is taken out of the free blocks `F`, and `F'` are left. -/
structure Carved (base : ℕ) (h h' : Heap) (F F' : List Extent) (b : Extent) : Prop where
  free : Free base h' F'
  brk : h'.brk = h.brk
  regions : h'.regions = h.regions
  inHeap : InHeap base h.brk b
  size : 8 * h'.size b.start = b.len
  covers : ∀ x, Covers F x ↔ Covers F' x ∨ x ∈ b
  disjoint : ∀ x ∈ b, ¬Covers F' x
  mem : ∀ x, x ≠ base → ¬Covers F x → h'.mem x = h.mem x

/-- The header of a free block is `base`, or it is in the block. -/
theorem Free.covers_start (hF : Free base h F) (he : e ∈ F) (hbase : e.start ≠ base) :
    Covers F e.start :=
  ⟨e, he, Nat.le_refl _, Nat.lt_add_of_pos_right (hF.inHeap e he hbase).pos⟩

theorem Free.inHeap_next (hF : Free base h (l₁ ++ a :: e :: l₂)) : InHeap base h.brk e := by
  refine hF.inHeap e (by simp) (Nat.ne_of_gt ?_)
  have hae := (List.pairwise_cons.1 (List.pairwise_append.1 hF.apart).2.1).1 e List.mem_cons_self
  exact (hF.base_le (by simp)).trans_lt hae.start_lt

/-- The whole block `e` behind `a` is taken. -/
theorem Free.take_all (hF : Free base h (l₁ ++ a :: e :: l₂)) :
    Carved base h { h.setPtr a.start (h.ptr e.start) with freep := a.start }
      (l₁ ++ a :: e :: l₂) (l₁ ++ a :: l₂) e := by
  have hsub : (l₁ ++ a :: l₂).Sublist (l₁ ++ a :: e :: l₂) :=
    ((List.sublist_cons_self e l₂).cons_cons a).append_left l₁
  have hapart := List.pairwise_append.1 hF.apart
  obtain ⟨ha, hae⟩ := List.pairwise_cons.1 hapart.2.1
  have hseg : Segment base h (a :: e :: l₂) := hF.linked.suffix
  have hmem {x : ℕ} (hx : x ≠ a.start) :
      (h.setPtr a.start (h.ptr e.start)).mem x = h.mem x := Heap.mem_setPtr_of_ne hx
  have hne : ∀ c ∈ l₂, c.start ≠ a.start := fun c hc =>
    (ha c (List.mem_cons_of_mem _ hc)).start_lt.ne'
  refine ⟨⟨?_, ?_, hF.apart.sublist hsub, fun c hc => hF.inHeap c (hsub.subset hc), by simp⟩, rfl,
    rfl,
    hF.inHeap_next, ?_, ?_, ?_, ?_⟩
  · rw [← hF.head]
    cases l₁ with
    | nil => rfl
    | cons c l₁ => rfl
  · have hseg' : Segment base (h.setPtr a.start (h.ptr e.start)) (a :: l₂) := by
      refine (hseg.tail.tail.frame fun c hc => hmem (hne c hc)).cons ?_ ?_
      · rw [Heap.ptr_setPtr_self, hseg.tail.ptr_eq]
      · rw [Heap.size_setPtr, hseg.size a List.mem_cons_self]
    exact (hF.linked.prepend hseg' rfl fun c hc =>
      hmem (hapart.2.2 c hc a List.mem_cons_self).start_lt.ne).frame fun _ _ => rfl
  · exact (congrArg (8 * ·) (congrFun Heap.size_setPtr e.start)).trans (hseg.size e (by simp))
  · intro x
    simp only [covers_append, covers_cons]
    tauto
  · intro x hx
    have happ : l₁ ++ a :: e :: l₂ = (l₁ ++ [a]) ++ e :: l₂ := by simp
    have hcov := Apart.not_covers (happ ▸ hF.apart) hx
    rwa [List.append_assoc] at hcov
  · intro x hbase hx
    refine hmem fun hxa => hx ?_
    rw [hxa] at hbase ⊢
    exact hF.covers_start (by simp) hbase

/-- The upper part of the block `e` behind `a` is taken. -/
theorem Free.take_upper (hF : Free base h (l₁ ++ a :: e :: l₂)) (hn : 0 < n)
    (hlt : n < h.size e.start) :
    Carved base h { (h.setSize e.start (h.size e.start - n)).setSize
        (e.start + 8 * (h.size e.start - n)) n with freep := a.start }
      (l₁ ++ a :: e :: l₂) (l₁ ++ a :: ⟨e.start, 8 * (h.size e.start - n)⟩ :: l₂)
      ⟨e.start + 8 * (h.size e.start - n), 8 * n⟩ := by
  have happ (c : Extent) : l₁ ++ a :: c :: l₂ = (l₁ ++ [a]) ++ c :: l₂ := by simp
  have hsize : 8 * h.size e.start = e.len := hF.linked.size e (by simp)
  have he := hF.inHeap_next
  set c := e.start + 8 * (h.size e.start - n) with hc
  have hsplit (x : ℕ) : x ∈ e ↔ x ∈ (⟨e.start, 8 * (h.size e.start - n)⟩ : Extent) ∨
      x ∈ (⟨c, 8 * n⟩ : Extent) := by
    simp only [mem_def]
    omega
  have hmem {x : ℕ} (hx : x ≠ e.start) (hxc : x ≠ c) :
      ((h.setSize e.start (h.size e.start - n)).setSize c n).mem x = h.mem x := by
    rw [Heap.mem_setSize_of_ne hxc, Heap.mem_setSize_of_ne hx]
  -- the new header is between the block and the next one
  have hothers : ∀ x ∈ (l₁ ++ [a]) ++ l₂, x.start ≠ e.start ∧ x.start ≠ c := by
    intro x hx
    have hapart := hF.apart
    rw [happ, Apart, List.pairwise_append, List.pairwise_cons] at hapart
    rcases List.mem_append.1 hx with hx | hx
    · have hlt := (hapart.2.2 x hx e List.mem_cons_self).start_lt
      omega
    · have hlt := hapart.2.1.1 x hx
      rw [Below, stop] at hlt
      omega
  refine ⟨⟨?_, ⟨?_, ?_⟩, ?_, ?_, by simp⟩, rfl, rfl, ⟨?_, ?_, ?_, ?_⟩, ?_, ?_, ?_, ?_⟩
  · rw [← hF.head]
    cases l₁ with
    | nil => rfl
    | cons d l₁ => rfl
  · have hptr : ((h.setSize e.start (h.size e.start - n)).setSize c n).ptr = h.ptr := by
      rw [Heap.ptr_setSize, Heap.ptr_setSize]
    change Linked ((h.setSize e.start (h.size e.start - n)).setSize c n).ptr _ _ _
    rw [hptr]
    simpa only [List.map_append, List.map_cons] using hF.linked.linked
  · intro x hx
    change 8 * ((h.setSize e.start (h.size e.start - n)).setSize c n).size x.start = x.len
    rw [happ] at hx
    rcases List.mem_append.1 hx with hx | hx
    · obtain ⟨hxe, hxc⟩ := hothers x (List.mem_append_left _ hx)
      rw [Heap.size, hmem hxe hxc]
      exact hF.linked.size x (by rw [happ]; exact List.mem_append_left _ hx)
    · rcases List.mem_cons.1 hx with rfl | hx
      · have hne : e.start ≠ c := by omega
        simp [Heap.size_setSize, hne]
      · obtain ⟨hxe, hxc⟩ := hothers x (List.mem_append_right _ hx)
        rw [Heap.size, hmem hxe hxc]
        exact hF.linked.size x (by simp [hx])
  · have hapart := hF.apart
    rw [happ] at hapart ⊢
    exact hapart.shrink (by omega)
  · intro x hx hbase
    rw [happ] at hx
    rcases List.mem_append.1 hx with hx | hx
    · exact hF.inHeap x (by rw [happ]; exact List.mem_append_left _ hx) hbase
    · rcases List.mem_cons.1 hx with rfl | hx
      · refine ⟨he.base, he.aligned, ?_, le_trans ?_ he.le_brk⟩
        · change 0 < 8 * (h.size e.start - n)
          omega
        · simp only [stop]
          omega
      · exact hF.inHeap x (by simp [hx]) hbase
  · exact he.base.trans (Nat.le_add_right _ _)
  · exact Nat.dvd_add he.aligned (Nat.dvd_mul_right _ _)
  · exact Nat.mul_pos (by decide) hn
  · refine le_trans ?_ he.le_brk
    simp only [stop]
    omega
  · change 8 * ((h.setSize e.start (h.size e.start - n)).setSize c n).size c = 8 * n
    simp [Heap.size_setSize]
  · intro x
    simp only [covers_append, covers_cons, hsplit x]
    tauto
  · intro x hx hcov
    have hnot := Apart.not_covers (happ e ▸ hF.apart) ((hsplit x).2 (.inr hx))
    rw [happ, covers_append, covers_cons] at hcov
    rw [covers_append] at hnot
    rcases hcov with hcov | hcov | hcov
    · exact hnot (.inl hcov)
    · simp only [mem_def] at hx hcov
      omega
    · exact hnot (.inr hcov)
  · intro x hbase hx
    have hcov {y : ℕ} (hy : y ∈ e) : Covers (l₁ ++ a :: e :: l₂) y := ⟨e, by simp, hy⟩
    refine hmem (fun hxe => hx ?_) fun hxc => hx ?_
    · exact hcov (by rw [mem_def]; omega)
    · exact hcov (by rw [mem_def]; omega)

/-- `malloc` takes a block that it has found. -/
theorem Free.take (hF : Free base h (l₁ ++ a :: e :: l₂)) (hbrk : h.brk < 2 ^ 32) (hn : 0 < n)
    (hle : n ≤ h.size e.start) :
    ∃ b F', (h.take n a.start e.start).2 = b.start + 8 ∧ b.len = 8 * n ∧
      Carved base h (h.take n a.start e.start).1 (l₁ ++ a :: e :: l₂) F' b := by
  have he := hF.inHeap_next
  have hsize : 8 * h.size e.start = e.len := hF.linked.size e (by simp)
  have hstop := he.le_brk
  rw [stop] at hstop
  by_cases heq : h.size e.start = n
  · refine ⟨e, l₁ ++ a :: l₂, ?_, by rw [← heq, hsize], ?_⟩
    · rw [Heap.take, if_pos heq]
      exact add_of_lt (by omega)
    · rw [Heap.take, if_pos heq]
      exact hF.take_all
  · have hadd : add e.start (h.size e.start - n) = e.start + 8 * (h.size e.start - n) :=
      add_of_lt (by omega)
    refine ⟨⟨e.start + 8 * (h.size e.start - n), 8 * n⟩,
      l₁ ++ a :: ⟨e.start, 8 * (h.size e.start - n)⟩ :: l₂, ?_, rfl, ?_⟩
    · rw [Heap.take, if_neg heq]
      simp only [Heap.size_setSize, update_self, hadd]
      exact add_of_lt (by omega)
    · rw [Heap.take, if_neg heq]
      simp only [Heap.size_setSize, update_self, hadd]
      exact hF.take_upper hn (Nat.lt_of_le_of_ne hle (Ne.symm heq))

end Xv6.Umalloc
