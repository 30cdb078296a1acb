import Mathlib.Data.List.Pairwise
import Mathlib.Tactic.SplitIfs

/-!
# Extents

Ranges of addresses, and lists of them in the order of their addresses with a gap between any two
(`Apart`): what an allocator that coalesces keeps of the memory that is free. `join` puts an extent
before a list, and coalesces it with the first one where there is no gap.
-/

namespace Xv6

/-- The `len` addresses from `start` on. -/
structure Extent where
  start : ℕ
  len : ℕ
  deriving DecidableEq, Repr

namespace Extent

/-- The first address behind. -/
def stop (e : Extent) : ℕ := e.start + e.len

instance : Membership ℕ Extent := ⟨fun e x => e.start ≤ x ∧ x < e.stop⟩

theorem mem_def {e : Extent} {x : ℕ} : x ∈ e ↔ e.start ≤ x ∧ x < e.start + e.len := .rfl

instance (x : ℕ) (e : Extent) : Decidable (x ∈ e) := inferInstanceAs (Decidable (_ ∧ _))

/-- No address is in both. -/
def Disjoint (a b : Extent) : Prop := ∀ x ∈ a, x ∉ b

/-- There is a gap between `a` and `b` above it. -/
def Below (a b : Extent) : Prop := a.stop < b.start

variable {a b e p : Extent} {l l₁ l₂ : List Extent} {x : ℕ}

theorem Disjoint.symm (h : a.Disjoint b) : b.Disjoint a := fun x hb ha => h x ha hb

instance : Std.Symm Disjoint := ⟨fun _ _ => Disjoint.symm⟩

theorem Below.disjoint (h : a.Below b) : a.Disjoint b := by
  intro x ha hb
  rw [mem_def] at ha hb
  rw [Below, stop] at h
  omega

theorem Below.start_lt (h : a.Below b) : a.start < b.start :=
  Nat.lt_of_le_of_lt (Nat.le_add_right _ _) h

/-- Disjoint extents are one behind the other. -/
theorem Disjoint.stop_le (h : a.Disjoint b) (hb : 0 < b.len) (hab : a.start ≤ b.start) :
    a.stop ≤ b.start := by
  by_contra hlt
  refine h b.start ?_ ?_
  · exact ⟨hab, Nat.not_le.1 hlt⟩
  · rw [mem_def]
    omega

/-- The address is in one of the extents. -/
def Covers (l : List Extent) (x : ℕ) : Prop := ∃ e ∈ l, x ∈ e

@[simp] theorem covers_nil : ¬Covers [] x := by simp [Covers]

@[simp] theorem covers_cons : Covers (e :: l) x ↔ x ∈ e ∨ Covers l x := by simp [Covers]

@[simp] theorem covers_append : Covers (l₁ ++ l₂) x ↔ Covers l₁ x ∨ Covers l₂ x := by
  simp [Covers, or_and_right, exists_or]

/-- In the order of their addresses, with a gap between any two. -/
def Apart (l : List Extent) : Prop := l.Pairwise Below

theorem Apart.disjoint (h : Apart l) : l.Pairwise Disjoint := h.imp Below.disjoint

/-- No extent ends where one starts. -/
theorem Apart.stop_ne (h : Apart l) (hpos : ∀ e ∈ l, 0 < e.len) (ha : a ∈ l) (hb : b ∈ l) :
    a.stop ≠ b.start := by
  obtain ⟨l₁, l₂, rfl⟩ := List.append_of_mem ha
  have hlen := hpos a ha
  rw [Apart, List.pairwise_append, List.pairwise_cons] at h
  rcases List.mem_append.1 hb with hb | hb
  · have hlt := h.2.2 b hb a List.mem_cons_self
    simp only [Below, stop] at hlt ⊢
    omega
  · rcases List.mem_cons.1 hb with rfl | hb
    · simp only [stop]
      omega
    · exact Nat.ne_of_lt (h.2.1.1 b hb)

/-- The other extents do not have the addresses of one. -/
theorem Apart.not_covers (h : Apart (l₁ ++ p :: l₂)) (hx : x ∈ p) : ¬Covers (l₁ ++ l₂) x := by
  have hd := h.disjoint
  rw [List.pairwise_append, List.pairwise_cons] at hd
  obtain ⟨-, ⟨hp, -⟩, h₁₂⟩ := hd
  rintro ⟨e, he, hxe⟩
  rcases List.mem_append.1 he with he | he
  · exact h₁₂ e he p List.mem_cons_self x hxe hx
  · exact hp e he x hx hxe

/-- An extent gives some of its upper addresses away. -/
theorem Apart.shrink {n : ℕ} (h : Apart (l₁ ++ p :: l₂)) (hn : n ≤ p.len) :
    Apart (l₁ ++ ⟨p.start, n⟩ :: l₂) := by
  rw [Apart, List.pairwise_append, List.pairwise_cons] at h ⊢
  obtain ⟨h₁, ⟨hp, h₂⟩, h₁₂⟩ := h
  refine ⟨h₁, ⟨fun e he => ?_, h₂⟩, fun a ha b hb => ?_⟩
  · have hpe := hp e he
    simp only [Below, stop] at hpe ⊢
    omega
  · rcases List.mem_cons.1 hb with rfl | hb
    · exact h₁₂ a ha p List.mem_cons_self
    · exact h₁₂ a ha b (List.mem_cons_of_mem _ hb)

theorem exists_last {α : Type*} {P : α → Prop} {l : List α} (h : ∃ x ∈ l, P x) :
    ∃ l₁ x l₂, l = l₁ ++ x :: l₂ ∧ P x ∧ ∀ y ∈ l₂, ¬P y := by
  induction l with
  | nil => simp at h
  | cons a l ih =>
    by_cases hl : ∃ x ∈ l, P x
    · obtain ⟨l₁, x, l₂, rfl, hx, hl₂⟩ := ih hl
      exact ⟨a :: l₁, x, l₂, rfl, hx, hl₂⟩
    · obtain ⟨x, hx, hP⟩ := h
      refine ⟨[], a, l, rfl, ?_, fun y hy hy' => hl ⟨y, hy, hy'⟩⟩
      rcases List.mem_cons.1 hx with rfl | hx
      · exact hP
      · exact absurd ⟨x, hx, hP⟩ hl

/-- An extent that has none of the addresses is behind some of the extents, and before the
    others. -/
theorem exists_place (hb : 0 < b.len) (hd : ∀ x ∈ b, ¬Covers l x)
    (hfirst : ∃ e ∈ l, e.start < b.start) (hpos : ∀ e ∈ l, b.start ≤ e.start → 0 < e.len) :
    ∃ l₁ e l₂, l = l₁ ++ e :: l₂ ∧ e.start < b.start ∧ e.stop ≤ b.start ∧
      ∀ a ∈ l₂, b.stop ≤ a.start := by
  have hdisj {e : Extent} (he : e ∈ l) : e.Disjoint b := fun x hxe hxb => hd x hxb ⟨e, he, hxe⟩
  obtain ⟨l₁, e, l₂, rfl, he, hl₂⟩ := exists_last hfirst
  refine ⟨l₁, e, l₂, rfl, he, (hdisj (by simp)).stop_le hb (Nat.le_of_lt he), fun a ha => ?_⟩
  have hle : b.start ≤ a.start := Nat.not_lt.1 (hl₂ a ha)
  exact (hdisj (by simp [ha])).symm.stop_le (hpos a (by simp [ha]) hle) hle

/-! ## Coalescing -/

/-- The extent `a` before those of `l`, and coalesced with the first one if there is no gap. -/
def join (a : Extent) : List Extent → List Extent
  | [] => [a]
  | b :: l => if a.stop = b.start then ⟨a.start, a.len + b.len⟩ :: l else a :: b :: l

theorem join_of_eq (h : a.stop = b.start) : join a (b :: l) = ⟨a.start, a.len + b.len⟩ :: l :=
  if_pos h

theorem join_of_ne (h : ∀ b ∈ l.head?, a.stop ≠ b.start) : join a l = a :: l := by
  cases l with
  | nil => rfl
  | cons b l => exact if_neg (h b rfl)

/-- The first extent starts where `a` does. -/
theorem exists_join (a : Extent) (l : List Extent) :
    ∃ n l', join a l = ⟨a.start, n⟩ :: l' ∧ a.len ≤ n ∧ l' <:+ l := by
  cases l with
  | nil => exact ⟨a.len, [], rfl, Nat.le_refl _, List.suffix_rfl⟩
  | cons b l =>
    rw [join]
    split_ifs
    · exact ⟨_, l, rfl, Nat.le_add_right _ _, List.suffix_cons _ _⟩
    · exact ⟨a.len, b :: l, rfl, Nat.le_refl _, List.suffix_rfl⟩

/-- The extents are old ones, except for the first. -/
theorem mem_join (he : e ∈ join a l) :
    e = a ∨ e ∈ l ∨ ∃ b ∈ l, a.stop = b.start ∧ e = ⟨a.start, a.len + b.len⟩ := by
  cases l with
  | nil => exact .inl (List.mem_singleton.1 he)
  | cons b l =>
    rw [join] at he
    split_ifs at he with heq
    · rcases List.mem_cons.1 he with rfl | he
      · exact .inr (.inr ⟨b, List.mem_cons_self, heq, rfl⟩)
      · exact .inr (.inl (List.mem_cons_of_mem _ he))
    · exact (List.mem_cons.1 he).imp_right .inl

/-- Extents only grow. -/
theorem exists_le_of_mem_join (he : e ∈ l) : ∃ e' ∈ join a l, e.len ≤ e'.len := by
  cases l with
  | nil => cases he
  | cons b l =>
    rw [join]
    split_ifs
    · rcases List.mem_cons.1 he with rfl | he
      · exact ⟨_, List.mem_cons_self, Nat.le_add_left _ _⟩
      · exact ⟨e, List.mem_cons_of_mem _ he, Nat.le_refl _⟩
    · exact ⟨e, List.mem_cons_of_mem _ he, Nat.le_refl _⟩

@[simp] theorem covers_join : Covers (join a l) x ↔ x ∈ a ∨ Covers l x := by
  cases l with
  | nil => simp [join]
  | cons b l =>
    rw [join]
    split_ifs with h
    · rw [stop] at h
      simp only [covers_cons, ← or_assoc, mem_def]
      exact or_congr_left (by omega)
    · simp

theorem Apart.join (h : Apart l) (ha : ∀ b ∈ l, a.stop ≤ b.start) : Apart (join a l) := by
  cases l with
  | nil => exact List.pairwise_singleton ..
  | cons b l =>
    obtain ⟨hb, hl⟩ := List.pairwise_cons.1 h
    have hab := ha b List.mem_cons_self
    rw [Extent.join]
    split_ifs with heq
    · refine List.pairwise_cons.2 ⟨fun e he => ?_, hl⟩
      have hbe := hb e he
      simp only [Below, stop] at hbe heq ⊢
      omega
    · refine List.pairwise_cons.2 ⟨fun e he => ?_, h⟩
      rcases List.mem_cons.1 he with rfl | he
      · exact Nat.lt_of_le_of_ne hab heq
      · have hbe := hb e he
        simp only [Below, stop] at hbe hab heq ⊢
        omega

/-- What is joined starts behind whatever the extent starts behind. -/
theorem le_start_of_mem_join {n : ℕ} (ha : n ≤ a.start) (hl : ∀ b ∈ l, n ≤ b.start)
    (he : e ∈ Extent.join a l) : n ≤ e.start := by
  obtain ⟨m, l', hjoin, -, hsuf⟩ := exists_join a l
  rw [hjoin] at he
  rcases List.mem_cons.1 he with rfl | he
  · exact ha
  · exact hl e (hsuf.subset he)

/-- An extent is put into the list, behind `p`, and coalesced with its neighbours. -/
theorem Apart.insert (h : Apart (l₁ ++ p :: l₂)) (hp : p.stop ≤ b.start)
    (hb : ∀ e ∈ l₂, b.stop ≤ e.start) : Apart (l₁ ++ Extent.join p (Extent.join b l₂)) := by
  rw [Apart, List.pairwise_append, List.pairwise_cons] at h
  obtain ⟨h₁, ⟨-, h₂⟩, h₁₂⟩ := h
  have hbp : ∀ e ∈ Extent.join b l₂, p.stop ≤ e.start := fun e he =>
    le_start_of_mem_join hp (fun c hc => by have := hb c hc; simp only [stop] at *; omega) he
  rw [Apart, List.pairwise_append]
  refine ⟨h₁, Apart.join (Apart.join h₂ hb) hbp, fun a ha e he => ?_⟩
  have hle : p.start ≤ e.start := le_start_of_mem_join (Nat.le_refl _)
    (fun c hc => by have := hbp c hc; simp only [stop] at *; omega) he
  exact Nat.lt_of_lt_of_le (h₁₂ a ha p List.mem_cons_self) hle

end Extent

end Xv6
