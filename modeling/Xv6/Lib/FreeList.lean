import Mathlib.Algebra.BigOperators.Group.Finset.Basic
import Mathlib.Algebra.Order.Group.Multiset
import Mathlib.Data.Fintype.Basic
import Mathlib.Data.Fintype.Prod
import Mathlib.Data.Multiset.AddSub
import Mathlib.Tactic.Abel

/-!
# Linked lists in memory and what a table holds

A list threaded through memory by a `next` word in each of its cells, as an
allocator keeps the cells that are free, and the multiset of the cells that the
entries of a table hold.

* `Linked`: the list of the cells from a pointer to another, and what writes
  to cells outside the list leave of it (`linked_update`); a list gets longer at its end
  (`Linked.relink`, `linked_append`);
* `held`: the cells held by the entries of a table, and how a change of one entry changes
  them (`held_update`).
-/

namespace Xv6

open Function

/-! ## Linked lists -/

section Linked

variable {α : Type*} {next : α → α} {a b v w : α} {l : List α}

/-- From `a`, the `next` words lead through the cells of `l`, in order, to `b`. -/
def Linked (next : α → α) : α → List α → α → Prop
  | a, [], b => a = b
  | a, x :: l, b => a = x ∧ Linked next (next x) l b

@[simp] theorem linked_nil : Linked next a [] b ↔ a = b := .rfl

@[simp] theorem linked_cons {x : α} :
    Linked next a (x :: l) b ↔ a = x ∧ Linked next (next x) l b := .rfl

/-- Only the cells of the list are read. -/
theorem linked_congr {next' : α → α} (h : ∀ x ∈ l, next' x = next x) :
    Linked next' a l b ↔ Linked next a l b := by
  induction l generalizing a with
  | nil => exact .rfl
  | cons x l ih =>
    rw [linked_cons, linked_cons, h x List.mem_cons_self,
      ih fun y hy => h y (List.mem_cons_of_mem _ hy)]

/-- A write to a cell that is not in the list is not seen. -/
theorem linked_update [DecidableEq α] (hv : v ∉ l) :
    Linked (update next v w) a l b ↔ Linked next a l b :=
  linked_congr fun _ hx => update_of_ne (ne_of_mem_of_not_mem hx hv) ..

/-- The list is determined by where it ends, if the end is not in it. -/
theorem Linked.unique {l' : List α} (h : Linked next a l b) (h' : Linked next a l' b)
    (hl : b ∉ l) (hl' : b ∉ l') : l = l' := by
  induction l generalizing a l' with
  | nil =>
    cases l' with
    | nil => rfl
    | cons x l' =>
      obtain ⟨hx, -⟩ := linked_cons.1 h'
      rw [linked_nil] at h
      exact absurd (h ▸ hx ▸ List.mem_cons_self) hl'
  | cons x l ih =>
    obtain ⟨rfl, h⟩ := linked_cons.1 h
    cases l' with
    | nil =>
      rw [linked_nil] at h'
      exact absurd (h' ▸ List.mem_cons_self) hl
    | cons y l' =>
      obtain ⟨rfl, h'⟩ := linked_cons.1 h'
      rw [ih h h' (fun hb => hl (List.mem_cons_of_mem _ hb))
        fun hb => hl' (List.mem_cons_of_mem _ hb)]

/-- From a cell of the list, the next one is in the list or its end. -/
theorem Linked.next_mem {x : α} (h : Linked next a l b) (hx : x ∈ l) :
    next x ∈ l ∨ next x = b := by
  induction l generalizing a with
  | nil => cases hx
  | cons y l ih =>
    obtain ⟨-, h⟩ := linked_cons.1 h
    rcases List.mem_cons.1 hx with rfl | hx
    · cases l with
      | nil => exact .inr (linked_nil.1 h)
      | cons z l => exact .inl (by rw [(linked_cons.1 h).1]; simp)
    · exact (ih h hx).imp_left (List.mem_cons_of_mem _)

theorem linked_append {l' : List α} :
    Linked next a (l ++ l') b ↔ ∃ c, Linked next a l c ∧ Linked next c l' b := by
  induction l generalizing a with
  | nil => simp
  | cons x l ih => simp only [List.cons_append, linked_cons, ih, and_assoc, exists_and_left]

/-- Where the list starts. -/
theorem Linked.eq_headD (h : Linked next a l b) : a = l.headD b := by
  cases l with
  | nil => exact h
  | cons x l => exact h.1

/-- A list that is sorted, and leads back to where it starts, goes down at its end only. -/
theorem Linked.existsUnique_wrap [LinearOrder α] (h : Linked next a (a :: l) a)
    (hl : (a :: l).Pairwise (· < ·)) : ∃! x, x ∈ a :: l ∧ next x ≤ x := by
  obtain hnil | ⟨us, z, heq⟩ := (a :: l).eq_nil_or_concat'
  · cases hnil
  have hz : z ∈ a :: l := heq ▸ by simp
  refine ⟨z, ⟨hz, ?_⟩, fun x hx => ?_⟩
  · have hnext : next z = a := by
      rw [heq] at h
      obtain ⟨c, -, hc⟩ := linked_append.1 h
      exact (linked_cons.1 hc).2
    rw [hnext]
    rcases List.mem_cons.1 hz with rfl | hz
    · exact le_rfl
    · exact ((List.pairwise_cons.1 hl).1 z hz).le
  · obtain ⟨hx, hle⟩ := hx
    obtain ⟨vs, ws, hsplit⟩ := List.append_of_mem hx
    rw [hsplit] at h hl
    obtain ⟨c, -, hc⟩ := linked_append.1 h
    have hnext := (linked_cons.1 hc).2.eq_headD
    cases ws with
    | nil =>
      rw [hsplit] at heq
      exact (List.append_inj' heq rfl).2 |> List.singleton_injective
    | cons w ws =>
      have hlt := (List.pairwise_cons.1 (List.pairwise_append.1 hl).2.1).1 w List.mem_cons_self
      exact absurd hle (hnext ▸ hlt.not_ge)

/-- The last cell of the list is made to point elsewhere. -/
theorem Linked.relink [DecidableEq α] {x : α} (h : Linked next a l b) (hl : l.Nodup) (hb : b ∉ l)
    (hx : x ∈ l) (hnext : next x = b) : Linked (update next x w) a l w := by
  induction l generalizing a with
  | nil => cases hx
  | cons y l ih =>
    obtain ⟨rfl, h⟩ := linked_cons.1 h
    obtain ⟨hy, hl⟩ := List.nodup_cons.1 hl
    refine linked_cons.2 ⟨rfl, ?_⟩
    by_cases hxa : x = a
    · -- it is the first, so that there is no other
      subst hxa
      cases l with
      | nil => rw [update_self]; exact linked_nil.2 rfl
      | cons z l =>
        rw [hnext] at h
        exact absurd (by rw [(linked_cons.1 h).1]; simp) hb
    · have hx : x ∈ l := (List.mem_cons.1 hx).resolve_left hxa
      rw [update_of_ne (Ne.symm hxa)]
      exact ih h hl (fun hb' => hb (List.mem_cons_of_mem _ hb')) hx

end Linked

/-! ## Tables -/

section Held

variable {ι α β : Type*} [Fintype ι] {t : ι → Option α} {h : α → Multiset β}

/-- What the entries of a table hold, an entry `x` holding `h x`. -/
@[irreducible] def held (h : α → Multiset β) (t : ι → Option α) : Multiset β :=
  ∑ i, (t i).elim 0 h

theorem mem_held {b : β} : b ∈ held h t ↔ ∃ i a, t i = some a ∧ b ∈ h a := by
  rw [held, Multiset.mem_sum]
  constructor
  · rintro ⟨i, -, hb⟩
    cases ha : t i with
    | none => simp [ha] at hb
    | some a => exact ⟨i, a, ha, by simpa [ha] using hb⟩
  · rintro ⟨i, a, ha, hb⟩
    exact ⟨i, Finset.mem_univ i, by simpa [ha] using hb⟩

theorem count_held [DecidableEq β] (b : β) :
    (held h t).count b = ∑ i, ((t i).elim 0 h).count b := by
  rw [held]
  exact Multiset.count_sum'

theorem count_held_singleton [DecidableEq β] {t : ι → Option β} (b : β) :
    (held (fun a => {a}) t).count b = (Finset.univ.filter fun i => t i = some b).card := by
  rw [count_held, Finset.card_eq_sum_ones, Finset.sum_filter]
  refine Finset.sum_congr rfl fun i _ => ?_
  cases t i <;> simp [Multiset.count_singleton, eq_comm]

theorem held_none : held h (fun _ : ι => none) = 0 := by
  rw [held]
  exact Finset.sum_const_zero

theorem held_update [DecidableEq ι] (i : ι) (x : Option α) :
    held h (update t i x) + (t i).elim 0 h = held h t + x.elim 0 h := by
  have hsum : ∀ u : ι → Option α, held h u =
      (u i).elim 0 h + ∑ j ∈ Finset.univ.erase i, (u j).elim 0 h :=
    fun u => by rw [held]; exact (Finset.add_sum_erase _ _ (Finset.mem_univ i)).symm
  have hrest : ∑ j ∈ Finset.univ.erase i, (update t i x j).elim 0 h =
      ∑ j ∈ Finset.univ.erase i, (t j).elim 0 h :=
    Finset.sum_congr rfl fun j hj => by rw [update_of_ne (Finset.ne_of_mem_erase hj)]
  rw [hsum, hsum t, hrest, update_self]
  abel

/-- A table of tables, of which one entry changes. -/
theorem held_update_update {κ : Type*} [Fintype κ] [DecidableEq ι] [DecidableEq κ]
    (u : ι → κ → Option α) (i : ι) (k : κ) (x : Option α) :
    held h (fun j : ι × κ => update u i (update (u i) k x) j.1 j.2) +
      (u i k).elim 0 h = held h (fun j : ι × κ => u j.1 j.2) + x.elim 0 h := by
  have hu : (fun j : ι × κ => update u i (update (u i) k x) j.1 j.2) =
      update (fun j : ι × κ => u j.1 j.2) (i, k) x := by
    funext ⟨j, l⟩
    by_cases hj : j = i
    · subst hj
      by_cases hl : l = k
      · subst hl; simp
      · simp [hl]
    · simp [hj]
  rw [hu]
  exact held_update (i, k) x

end Held

end Xv6
