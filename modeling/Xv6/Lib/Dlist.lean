import Mathlib.Data.List.Nodup
import Mathlib.Logic.Function.Basic

/-!
# Circular doubly linked lists

Nodes with `next` and `prev` words that are linked to a circle with a head: a node is `some b`, and
the head is `none`. The elements in order, from the head by `next`, are a list (`Dlist`), and
`Links.push` and `Links.unlink`, which put an element first and take one out, are what they should
be on lists (`Dlist.push`, `Dlist.unlink`).
-/

namespace Xv6

open Function

variable {α : Type*}

/-- The links of the nodes and of the head, which is `none`. -/
structure Links (α : Type*) where
  next : Option α → Option α
  prev : Option α → Option α

/-- The circle of the head alone. -/
def Links.empty : Links α := ⟨fun _ => none, fun _ => none⟩

/-- The elements are those of `l`, in order. -/
structure Dlist (L : Links α) (l : List α) : Prop where
  nodup : l.Nodup
  first : L.next none = l.head?
  last : L.prev none = l.getLast?
  next : ∀ {l₁ x l₂}, l = l₁ ++ x :: l₂ → L.next (some x) = l₂.head?
  prev : ∀ {l₁ x l₂}, l = l₁ ++ x :: l₂ → L.prev (some x) = l₁.getLast?

theorem dlist_empty : Dlist (Links.empty : Links α) [] where
  nodup := List.nodup_nil
  first := rfl
  last := rfl
  next h := by simp at h
  prev h := by simp at h

theorem Dlist.next_eq {L : Links α} {l₁ l₂ : List α} {x : α} (h : Dlist L (l₁ ++ x :: l₂)) :
    L.next (some x) = l₂.head? := h.next rfl

theorem Dlist.prev_eq {L : Links α} {l₁ l₂ : List α} {x : α} (h : Dlist L (l₁ ++ x :: l₂)) :
    L.prev (some x) = l₁.getLast? := h.prev rfl

/-- The words `prev` lead back, and the words `next` forth again. -/
theorem Dlist.inverse {L : Links α} {l : List α} (h : Dlist L l) (hl : ∀ x, x ∈ l)
    (n : Option α) : L.prev (L.next n) = n ∧ L.next (L.prev n) = n := by
  -- the two neighbours of a place in the list know each other
  have key {l₁ l₂ : List α} (h : Dlist L (l₁ ++ l₂)) :
      L.prev l₂.head? = l₁.getLast? ∧ L.next l₁.getLast? = l₂.head? := by
    constructor
    · cases l₂ with
      | nil => simpa using h.last
      | cons x l₂ => exact h.prev_eq
    · obtain rfl | ⟨l₁, x, rfl⟩ := l₁.eq_nil_or_concat'
      · exact h.first
      · rw [List.getLast?_concat]
        rw [List.append_assoc] at h
        exact h.next_eq
  cases n with
  | none =>
    rw [h.first, h.last]
    have h₁ : Dlist L ([] ++ l) := h
    have h₂ : Dlist L (l ++ []) := by rwa [List.append_nil]
    exact ⟨(key h₁).1, (key h₂).2⟩
  | some x =>
    obtain ⟨l₁, l₂, rfl⟩ := List.append_of_mem (hl x)
    have h' : Dlist L (l₁ ++ [x] ++ l₂) := by simpa using h
    rw [h.next_eq, h.prev_eq, (key h').1, (key h).2, List.getLast?_concat]
    exact ⟨rfl, rfl⟩

variable [DecidableEq α] {L : Links α} {l l₁ l₂ : List α} {b : α}

namespace Links

/-- `b` becomes the first element. -/
def push (L : Links α) (b : α) : Links α :=
  let next := Function.update L.next (some b) (L.next none)
  let prev := Function.update L.prev (some b) none
  let prev := Function.update prev (next none) (some b)
  let next := Function.update next none (some b)
  ⟨next, prev⟩

/-- The nodes next to `b` are linked to each other. -/
def unlink (L : Links α) (b : α) : Links α :=
  let prev := Function.update L.prev (L.next (some b)) (L.prev (some b))
  let next := Function.update L.next (prev (some b)) (L.next (some b))
  ⟨next, prev⟩

end Links

theorem Dlist.push (h : Dlist L l) (hb : b ∉ l) : Dlist (L.push b) (b :: l) := by
  have hnext (n : Option α) : (L.push b).next n =
      if n = none then some b else if n = some b then l.head? else L.next n := by
    simp only [Links.push, update_apply, h.first]
  have hprev (n : Option α) : (L.push b).prev n =
      if n = l.head? then some b else if n = some b then none else L.prev n := by
    simp only [Links.push, update_of_ne (show none ≠ some b by nofun), h.first,
      update_apply]
  have hne {x : α} (hx : x ∈ l) : x ≠ b := fun he => hb (he ▸ hx)
  refine ⟨List.nodup_cons.2 ⟨hb, h.nodup⟩, ?_, ?_, fun {l₁ x l₂} he => ?_, fun {l₁ x l₂} he => ?_⟩
  · rw [hnext, if_pos rfl]
    rfl
  · rw [hprev]
    cases l with
    | nil => rfl
    | cons x l => rw [if_neg (by nofun), if_neg (by nofun), h.last, List.getLast?_cons_cons]
  · rw [hnext, if_neg (by nofun)]
    cases l₁ with
    | nil =>
      obtain ⟨rfl, rfl⟩ := List.cons.inj he
      rw [if_pos rfl]
    | cons y l₁ =>
      obtain ⟨rfl, rfl⟩ := List.cons.inj he
      rw [if_neg (by simpa using hne (by simp)), h.next_eq]
  · rw [hprev]
    cases l₁ with
    | nil =>
      obtain ⟨rfl, rfl⟩ := List.cons.inj he
      rw [if_neg fun h' => hb (List.mem_of_mem_head? h'.symm), if_pos rfl]
      rfl
    | cons y l₁ =>
      obtain ⟨rfl, rfl⟩ := List.cons.inj he
      cases l₁ with
      | nil => exact if_pos rfl
      | cons z l₁ =>
        have hxz : x ≠ z := fun he => (List.nodup_cons.1 h.nodup).1 (by simp [← he])
        rw [if_neg (by simpa using hxz), if_neg (by simpa using hne (by simp)), h.prev_eq,
          List.getLast?_cons_cons]

omit [DecidableEq α] in
/-- An element of two lists is in one or in the other. -/
theorem split_append {m₁ m₂ : List α} {x : α} (he : l₁ ++ l₂ = m₁ ++ x :: m₂) :
    (∃ a, l₂ = a ++ x :: m₂ ∧ m₁ = l₁ ++ a) ∨ ∃ c, l₁ = m₁ ++ x :: c ∧ m₂ = c ++ l₂ := by
  obtain ⟨a, rfl, hl₂⟩ | ⟨c, hl₁, hc⟩ := List.append_eq_append_iff.1 he
  · exact .inl ⟨a, hl₂, rfl⟩
  · cases c with
    | nil => exact .inl ⟨[], hc.symm, by simpa using hl₁.symm⟩
    | cons y c =>
      obtain ⟨rfl, rfl⟩ := List.cons.inj hc
      exact .inr ⟨c, hl₁, rfl⟩

theorem Dlist.unlink (h : Dlist L (l₁ ++ b :: l₂)) : Dlist (L.unlink b) (l₁ ++ l₂) := by
  have hnodup := h.nodup
  have hb₁ : b ∉ l₁ := fun hb => by
    rw [List.nodup_append] at hnodup
    exact hnodup.2.2 b hb b List.mem_cons_self rfl
  have hb₂ : b ∉ l₂ := (List.nodup_cons.1 hnodup.of_append_right).1
  have hdisj {x : α} (hx : x ∈ l₁) (hx' : x ∈ l₂) : False := by
    rw [List.nodup_append] at hnodup
    exact hnodup.2.2 x hx x (List.mem_cons_of_mem _ hx') rfl
  have hsome {m : List α} {x : α} (hx : some x = m.head?) : x ∈ m := List.mem_of_mem_head? hx.symm
  have hsome' {m : List α} {x : α} (hx : some x = m.getLast?) : x ∈ m :=
    List.mem_of_mem_getLast? hx.symm
  -- two links change: those of the neighbours of `b` to it
  have hprev (n : Option α) : (L.unlink b).prev n =
      if n = l₂.head? then l₁.getLast? else L.prev n := by
    simp only [Links.unlink, update_apply, h.next_eq, h.prev_eq]
  have hnext (n : Option α) : (L.unlink b).next n =
      if n = l₁.getLast? then l₂.head? else L.next n := by
    have hb : update L.prev l₂.head? l₁.getLast? (some b) = l₁.getLast? := by
      rw [update_of_ne fun he => hb₂ (hsome he), h.prev_eq]
    simp only [Links.unlink, h.next_eq, h.prev_eq, hb, update_apply]
  refine ⟨?_, ?_, ?_, fun {m₁ x m₂} he => ?_, fun {m₁ x m₂} he => ?_⟩
  · exact hnodup.sublist ((List.sublist_cons_self b l₂).append_left l₁)
  · rw [hnext]
    cases l₁ with
    | nil => rfl
    | cons y l₁ =>
      have hne : none ≠ (y :: l₁).getLast? := by simp [List.getLast?_cons]
      rw [if_neg hne]
      exact h.first
  · rw [hprev]
    cases l₂ with
    | nil => rw [List.append_nil]; exact if_pos rfl
    | cons z l₂ =>
      rw [if_neg (by nofun), h.last, List.getLast?_append, List.getLast?_append,
        List.getLast?_cons_cons]
  · rw [hnext]
    obtain ⟨a, rfl, rfl⟩ | ⟨c, rfl, rfl⟩ := split_append he
    · rw [if_neg fun he => hdisj (hsome' he) (by simp)]
      have h' : Dlist L (l₁ ++ b :: a ++ x :: m₂) := by simpa using h
      exact h'.next_eq
    · cases c with
      | nil => exact if_pos (by simp)
      | cons y c =>
        have hx : some x ≠ (m₁ ++ x :: y :: c).getLast? := fun he => by
          rw [List.getLast?_append_cons, List.getLast?_cons_cons] at he
          have hnot : x ∉ y :: c := (List.nodup_cons.1 hnodup.of_append_left.of_append_right).1
          exact hnot (hsome' he)
        rw [if_neg hx]
        have h' : Dlist L (m₁ ++ x :: (y :: c ++ b :: l₂)) := by simpa using h
        exact h'.next_eq
  · rw [hprev]
    obtain ⟨a, rfl, rfl⟩ | ⟨c, rfl, rfl⟩ := split_append he
    · cases a with
      | nil => rw [List.append_nil]; exact if_pos rfl
      | cons z a =>
        have hnot : x ≠ z := fun he =>
          (List.nodup_cons.1 (List.nodup_cons.1 hnodup.of_append_right).2).1 (by simp [he])
        have h' : Dlist L (l₁ ++ b :: z :: a ++ x :: m₂) := by simpa using h
        rw [if_neg (by simpa using hnot), h'.prev_eq, List.getLast?_append_cons,
          List.getLast?_append_cons, List.getLast?_cons_cons]
    · have h' : Dlist L (m₁ ++ x :: (c ++ b :: l₂)) := by simpa using h
      rw [if_neg fun he => hdisj (by simp) (hsome he), h'.prev_eq]

/-- Elements that are put first one after the other are in the opposite order. -/
theorem Dlist.foldl_push (h : Dlist L l) {m : List α} (hm : m.Nodup) (hdisj : ∀ x ∈ m, x ∉ l) :
    Dlist (m.foldl Links.push L) (m.reverse ++ l) := by
  induction m generalizing L l with
  | nil => exact h
  | cons b m ih =>
    obtain ⟨hb, hm⟩ := List.nodup_cons.1 hm
    rw [List.foldl_cons, List.reverse_cons, List.append_assoc]
    refine ih (h.push (hdisj b List.mem_cons_self)) hm fun x hx => ?_
    rw [List.singleton_append, List.mem_cons, not_or]
    exact ⟨fun he => hb (he ▸ hx), hdisj x (List.mem_cons_of_mem _ hx)⟩

end Xv6
