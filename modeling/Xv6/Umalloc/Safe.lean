import Xv6.Umalloc.Owned

/-!
# Programs that allocate

Whatever a program does with `malloc` and `free`, the memory is in the free blocks and in those that
it has (`inv_of_reachable`).
-/

namespace Xv6.Umalloc

open Extent TransitionSystem Function

variable {base : ℕ} {s s' : State} {h h' : Heap} {F live live' : List Extent} {b e : Extent}
  {ap j k n p q : ℕ} {sbrk : Sbrk} {r : Heap × ℕ}

theorem Heap.start_of_ne (hne : h.freep ≠ 0) : h.start base = h := if_neg hne

/-! ## Calls -/

theorem Owned.perm (ho : Owned base h live F) (hp : live.Perm live') : Owned base h live' F := by
  have hcov (x : ℕ) : Covers live' x ↔ Covers live x := by simp only [Covers, hp.mem_iff]
  refine ⟨ho.base_pos, ho.base_le, ho.brk_lt, ho.free, fun e he => ho.inHeap e (hp.mem_iff.2 he),
    fun e he => ho.size e (hp.mem_iff.2 he), ho.disjoint.perm hp Extent.Disjoint.symm, ?_, ?_⟩
  · intro x hx
    exact ho.apart x ((hcov x).1 hx)
  · intro x
    rw [hcov]
    exact ho.covers x

theorem units_pos : 0 < units n := Nat.succ_pos _

theorem units_lt (hn : n < 2 ^ 30) : 8 * units n < 2 ^ 31 := by
  rw [units]
  omega

theorem le_units (hn : n < 2 ^ 30) : n + 8 ≤ 8 * units n := by
  rw [units]
  omega

/-- `malloc` ends. -/
theorem Owned.exists_malloc (ho : Owned base (h.start base) live F) (hn : n < 2 ^ 30)
    (sbrk : Sbrk) : ∃ k r, h.malloc base sbrk k n = some r ∧
      Outcome base (h.start base) live (units n) r :=
  ho.search units_pos (units_lt hn) sbrk

/-- And it has only this result. -/
theorem Owned.malloc (ho : Owned base (h.start base) live F) (hn : n < 2 ^ 30)
    (hk : h.malloc base sbrk k n = some r) : Outcome base (h.start base) live (units n) r := by
  obtain ⟨k', r', hk', hr'⟩ := ho.exists_malloc hn sbrk
  have heq := (Heap.search_mono hk (le_max_left k k')).symm.trans
    (Heap.search_mono hk' (le_max_right k k'))
  obtain rfl := Option.some.inj heq
  exact hr'

theorem Owned.exists_free (ho : Owned base h (b :: live) F) :
    ∃ k h' F', h.free k (b.start + 8) = some h' ∧ Freed base h h' live F' b := by
  obtain ⟨p, F', ⟨k, hk⟩, hfreed⟩ := ho.free_block
  exact ⟨k, _, F', Option.map_eq_some_iff.2 ⟨p, hk, rfl⟩, hfreed⟩

theorem Owned.free_of_eq (ho : Owned base h (b :: live) F) (hk : h.free k (b.start + 8) = some h') :
    ∃ F', Freed base h h' live F' b := by
  obtain ⟨k', h'', F', hk', hfreed⟩ := ho.exists_free
  have heq := (Heap.free_mono hk (le_max_left k k')).symm.trans
    (Heap.free_mono hk' (le_max_right k k'))
  obtain rfl := Option.some.inj heq
  exact ⟨F', hfreed⟩

/-- The program writes to a block that it has. -/
theorem Owned.write (ho : Owned base h live F) (hp : InBlock live p) (x : Header) :
    Owned base { h with mem := update h.mem p x } live F := by
  obtain ⟨b, hb, hlt, hstop, -⟩ := hp
  have hpb : p ∈ b := ⟨hlt.le, hstop⟩
  have hmem {c : ℕ} (hc : c ≠ p) : update h.mem p x c = h.mem c :=
    update_of_ne hc ..
  refine ⟨ho.base_pos, ho.base_le, ho.brk_lt, ⟨ho.free.head, ?_, ho.free.apart, ho.free.inHeap,
    ho.free.freep⟩, ho.inHeap, ?_, ho.disjoint, ho.apart, ho.covers⟩
  · refine ho.free.linked.frame fun e he => hmem ?_
    rintro rfl
    by_cases hbase : e.start = base
    · exact ho.ne_base ⟨b, hb, hpb⟩ hbase
    · exact ho.apart _ ⟨b, hb, hpb⟩ (ho.free.covers_start he hbase)
  · intro e he
    have hne : e.start ≠ p := by
      rintro rfl
      by_cases heb : e = b
      · exact absurd hlt (heb ▸ lt_irrefl _)
      · exact ho.disjoint.forall he hb heb _ (ho.inHeap e he).mem_start hpb
    exact (congrArg (8 * ·.size) (hmem hne)).trans (ho.size e he)

/-! ## Runs -/

/-- What holds between the calls. -/
structure Inv (base : ℕ) (s : State) : Prop where
  owned : ∃ F, Owned base (s.heap.start base) s.live F
  /-- There is no list before the first call. -/
  fresh : s.heap.freep = 0 → s.live = [] ∧ s.heap.regions = []

theorem inv_of_owned (ho : Owned base s.heap s.live F) : Inv base s := by
  refine ⟨⟨F, ?_⟩, fun h0 => absurd h0 ho.freep_ne⟩
  rw [Heap.start_of_ne ho.freep_ne]
  exact ho

theorem inv_of_init (hs : (system base).init s) : Inv base s := by
  obtain ⟨hpos, hle, hlt, hfreep, hreg, hlive⟩ := hs
  refine ⟨⟨[⟨base, 0⟩], ?_⟩, fun _ => ⟨hlive, hreg⟩⟩
  rw [Heap.start, if_pos hfreep, hlive]
  refine ⟨hpos, hle, hlt, ⟨rfl, ⟨⟨rfl, ?_⟩, ?_⟩, List.pairwise_singleton ..,
    ?_, by simp⟩, by simp, by simp,
    List.Pairwise.nil, by simp, ?_⟩
  · change ((s.heap.setPtr base base).setSize base 0).ptr base = base
    simp
  · intro e he
    obtain rfl := List.mem_singleton.1 he
    change 8 * ((s.heap.setPtr base base).setSize base 0).size base = 0
    simp [Heap.size_setSize]
  · intro e he hne
    obtain rfl := List.mem_singleton.1 he
    exact absurd rfl hne
  · intro x
    have hreg : ((s.heap.setPtr base base).setSize base 0).regions = [] := hreg
    simp [hreg, mem_def]

/-- What a step leaves of the allocated blocks and of what is in them. -/
def Kept (s s' : State) : Act → Prop
  | .malloc .. => s.live <:+ s'.live ∧ ∀ x, Covers s.live x → s'.heap.mem x = s.heap.mem x
  | .free _ ap => (∃ b, b.start + 8 = ap ∧ s.live.Perm (b :: s'.live)) ∧
    ∀ x, Covers s'.live x → s'.heap.mem x = s.heap.mem x
  | .write p _ => s'.live = s.live ∧ ∀ x, x ≠ p → s'.heap.mem x = s.heap.mem x

/-- The result of `malloc` is a new block. -/
theorem Inv.malloc_result (hi : Inv base s) (hn : n < 2 ^ 30)
    (hk : s.heap.malloc base sbrk k n = some r) (hr : r.2 ≠ 0) :
    ∃ b, b.start + 8 = r.2 ∧ n + 8 ≤ b.len ∧
      (system base).step s (.malloc sbrk k n) = some ⟨r.1, b :: s.live⟩ := by
  obtain ⟨F, ho⟩ := hi.owned
  obtain ⟨h0, -⟩ | ⟨b, F', hb, hlen, -⟩ := (ho.malloc hn hk).owned
  · exact absurd h0 hr
  · refine ⟨b, hb.symm, hlen ▸ le_units hn, ?_⟩
    have hblock : (⟨r.2 - 8, 8 * units n⟩ : Extent) = b := by
      rw [hb, ← hlen, Nat.add_sub_cancel]
    change (if n < 2 ^ 30 then _ else none) = _
    rw [if_pos hn, hk, Option.map_some, if_neg hr, hblock]

theorem Inv.malloc (hi : Inv base s) (hs : (system base).step s (.malloc sbrk k n) = some s') :
    Kept s s' (.malloc sbrk k n) ∧ ∃ F, Owned base s'.heap s'.live F := by
  obtain ⟨F, ho⟩ := hi.owned
  change (if n < 2 ^ 30 then _ else none) = _ at hs
  split_ifs at hs with hn
  obtain ⟨r, hk, rfl⟩ := Option.map_eq_some_iff.1 hs
  have hout := ho.malloc hn hk
  have hmem (x : ℕ) (hx : Covers s.live x) : r.1.mem x = s.heap.mem x := by
    refine (hout.mem x hx).trans ?_
    rw [Heap.start]
    split_ifs with h0
    · -- the first call, without blocks
      rw [(hi.fresh h0).1] at hx
      exact absurd hx covers_nil
    · rfl
  obtain ⟨h0, hF'⟩ | ⟨b, F', hb, hlen, ho'⟩ := hout.owned
  · rw [if_pos h0]
    exact ⟨⟨List.suffix_rfl, hmem⟩, hF'⟩
  · have hblock : (⟨r.2 - 8, 8 * units n⟩ : Extent) = b := by
      rw [hb, ← hlen, Nat.add_sub_cancel]
    rw [if_neg (by omega), hblock]
    exact ⟨⟨List.suffix_cons _ _, hmem⟩, F', ho'⟩

/-- The list exists once a block was allocated. -/
theorem Inv.owned_of_mem (hi : Inv base s) (hb : b ∈ s.live) : ∃ F, Owned base s.heap s.live F := by
  obtain ⟨F, ho⟩ := hi.owned
  rw [Heap.start_of_ne] at ho
  · exact ⟨F, ho⟩
  · intro h0
    rw [(hi.fresh h0).1] at hb
    cases hb

theorem Inv.free (hi : Inv base s) (hs : (system base).step s (.free k ap) = some s') :
    Kept s s' (.free k ap) ∧ ∃ F, Owned base s'.heap s'.live F := by
  change (if ap ∈ _ then _ else none) = _ at hs
  split_ifs at hs with hap
  obtain ⟨h', hk, rfl⟩ := Option.map_eq_some_iff.1 hs
  obtain ⟨e, he, hea⟩ := List.mem_map.1 hap
  obtain ⟨b, l₁, l₂, -, hb, hlive, herase⟩ :=
    List.exists_of_eraseP (p := fun e : Extent => decide (e.start + 8 = ap)) he (decide_eq_true hea)
  obtain rfl : b.start + 8 = ap := of_decide_eq_true hb
  have hperm : s.live.Perm (b :: (l₁ ++ l₂)) := hlive ▸ List.perm_middle
  obtain ⟨F, ho⟩ := hi.owned_of_mem he
  obtain ⟨F', hfreed⟩ := (ho.perm hperm).free_of_eq hk
  rw [herase]
  exact ⟨⟨⟨b, rfl, hperm⟩, hfreed.mem⟩, F', hfreed.owned⟩

theorem Inv.write {x : Header} (hi : Inv base s)
    (hs : (system base).step s (.write p x) = some s') :
    Kept s s' (.write p x) ∧ ∃ F, Owned base s'.heap s'.live F := by
  change (if InBlock s.live p then _ else none) = _ at hs
  split_ifs at hs with hp
  obtain rfl := Option.some.inj hs
  obtain ⟨b, hb, -⟩ := id hp
  obtain ⟨F, ho⟩ := hi.owned_of_mem hb
  exact ⟨⟨rfl, fun y hy => update_of_ne hy ..⟩, F, ho.write hp x⟩

theorem Inv.step {a : Act} (hi : Inv base s) (hs : (system base).step s a = some s') :
    Kept s s' a ∧ ∃ F, Owned base s'.heap s'.live F := by
  cases a with
  | malloc sbrk k n => exact hi.malloc hs
  | free k ap => exact hi.free hs
  | write p x => exact hi.write hs

theorem inv_of_reachable (h : (system base).Reachable Any s) : Inv base s := by
  refine h.invariant (fun s hs => inv_of_init hs) fun s a s' hi _ hs => ?_
  obtain ⟨-, F, ho⟩ := hi.step hs
  exact inv_of_owned ho

/-! ## Safety -/

/-- The free blocks are those of `l`. -/
structure Sound (base : ℕ) (s : State) (l : List Extent) : Prop where
  /-- They are linked in a circle with `base`. -/
  linked : Linked s.heap.ptr base (base :: l.map start) base
  sorted : (base :: l.map start).Pairwise (· < ·)
  wrap : ∃! p, p ∈ base :: l.map start ∧ s.heap.ptr p ≤ p
  freep : s.heap.freep ∈ base :: l.map start
  size_base : s.heap.size base = 0
  size : ∀ e ∈ l, 8 * s.heap.size e.start = e.len
  nonempty : ∀ e ∈ l ++ s.live, 0 < e.len
  /-- The header `base` is in none of them. -/
  base_le : ∀ e ∈ l ++ s.live, base + 8 ≤ e.start
  /-- There is no block next to another. -/
  apart : ∀ a ∈ l, ∀ b ∈ l, a.stop ≠ b.start
  disjoint : (l ++ s.live).Pairwise Extent.Disjoint
  /-- No unit is lost. -/
  covers : ∀ x, Covers s.heap.regions x ↔ Covers (l ++ s.live) x

theorem Owned.sound (ho : Owned base s.heap s.live F) : ∃ l, Sound base s l := by
  have hF := ho.free
  have hhead := hF.head
  cases F with
  | nil => cases hhead
  | cons e l =>
    obtain rfl := Option.some.inj hhead
    obtain ⟨hbase, hl⟩ := List.pairwise_cons.1 hF.apart
    have hin : ∀ e ∈ l ++ s.live, InHeap base s.heap.brk e := by
      intro e he
      rcases List.mem_append.1 he with he | he
      · exact hF.inHeap e (List.mem_cons_of_mem _ he) (hbase e he).start_lt.ne'
      · exact ho.inHeap e he
    have hempty (x : ℕ) : x ∉ (⟨base, 0⟩ : Extent) := fun hx => absurd hx.2 (Nat.not_lt.2 hx.1)
    refine ⟨l, hF.linked_base, hF.sorted, hF.linked_base.existsUnique_wrap hF.sorted, hF.freep,
      hF.size_base, fun e he => hF.linked.size e (List.mem_cons_of_mem _ he),
      fun e he => (hin e he).pos, fun e he => (hin e he).base, fun a ha b hb => ?_, ?_, fun x => ?_⟩
    · exact Apart.stop_ne hl (fun e he => (hin e (List.mem_append_left _ he)).pos) ha hb
    · refine List.pairwise_append.2 ⟨Apart.disjoint hl, ho.disjoint, fun a ha b hb x hxa hxb => ?_⟩
      exact ho.apart x ⟨b, hb, hxb⟩ ⟨a, List.mem_cons_of_mem _ ha, hxa⟩
    · rw [ho.covers, covers_append, covers_cons, or_iff_right (hempty x)]

/-- The blocks do not overlap, and no memory is lost. -/
theorem umalloc_safe (h : (system base).Reachable Any s) :
    (s.heap.freep = 0 ∧ s.live = [] ∧ s.heap.regions = [] ∨ ∃ l, Sound base s l) ∧
    (∀ sbrk k n r, n < 2 ^ 30 → s.heap.malloc base sbrk k n = some r → r.2 ≠ 0 →
      ∃ b, b.start + 8 = r.2 ∧ n + 8 ≤ b.len ∧
        (system base).step s (.malloc sbrk k n) = some ⟨r.1, b :: s.live⟩) ∧
    (∀ a s', (system base).step s a = some s' → Kept s s' a ∧ ∃ l, Sound base s' l) ∧
    (∀ sbrk n, n < 2 ^ 30 → ∃ k₀, ∀ k ≥ k₀, (s.heap.malloc base sbrk k n).isSome) ∧
    ∀ b ∈ s.live, ∃ k₀, ∀ k ≥ k₀, (s.heap.free k (b.start + 8)).isSome := by
  have hi := inv_of_reachable h
  obtain ⟨F, ho⟩ := hi.owned
  refine ⟨?_, fun sbrk k n r hn hk hr => hi.malloc_result hn hk hr, fun a s' hs => ?_,
    fun sbrk n hn => ?_, fun b hb => ?_⟩
  · by_cases h0 : s.heap.freep = 0
    · exact .inl ⟨h0, hi.fresh h0⟩
    · rw [Heap.start_of_ne h0] at ho
      exact .inr ho.sound
  · obtain ⟨hkept, F', ho'⟩ := hi.step hs
    exact ⟨hkept, ho'.sound⟩
  · obtain ⟨k₀, r, hk₀, -⟩ := ho.exists_malloc hn sbrk
    exact ⟨k₀, fun k hk => Option.isSome_iff_exists.2 ⟨r, Heap.search_mono hk₀ hk⟩⟩
  · obtain ⟨F', ho'⟩ := hi.owned_of_mem hb
    obtain ⟨k₀, h', -, hk₀, -⟩ := (ho'.perm (List.perm_cons_erase hb)).exists_free
    exact ⟨k₀, fun k hk => Option.isSome_iff_exists.2 ⟨h', Heap.free_mono hk₀ hk⟩⟩

/-- The memory grows at its end. -/
def grow : Sbrk where
  ask brk n := if 8 ∣ brk ∧ brk + n < 2 ^ 32 then some brk else none
  fresh hask := by
    split_ifs at hask with hcond
    obtain rfl := Option.some.inj hask
    exact ⟨hcond.1, Nat.le_refl _, hcond.2⟩

/-- Before the first call, with `base` at address 8. -/
def fresh : State where
  heap := { mem := fun _ => ⟨0, 0⟩, brk := 64 }

/-- Two blocks are allocated, and the first one is freed, which has the other one as a neighbour. -/
theorem umalloc_safe_fresh : ∃ s : State, (system 8).Reachable Any s ∧ s.live = [⟨32696, 112⟩] ∧
    s.heap.regions = [⟨64, 32768⟩] ∧ ∃ l, Sound 8 s l := by
  obtain ⟨s, hs, hP⟩ := exists_reachable (S := system 8) (s := fresh)
    ⟨by decide, by decide, by decide, rfl, rfl, rfl⟩
    (show ((system 8).exec Any fresh [.malloc grow 8 10, .malloc grow 8 100, .free 8 32816]).any
      (fun s => decide (s.live = [⟨32696, 112⟩] ∧ s.heap.regions = [⟨64, 32768⟩])) by
      decide +kernel)
  obtain ⟨hlive, hregions⟩ := of_decide_eq_true hP
  obtain ⟨⟨-, hnil, -⟩ | hsound, -⟩ := umalloc_safe hs
  · rw [hlive] at hnil
    cases hnil
  · exact ⟨s, hs, hlive, hregions, hsound⟩

end Xv6.Umalloc
