import Mathlib.Data.UInt
import Mathlib.Logic.Function.Basic

/-!
# Ring buffers

A ring buffer with two counters that run freely and wrap around at `2 ^ 32`, the number of items
taken out and the number of items put in. Its capacity divides `2 ^ 32`, so that the wrap-around
of a counter does not move the slot it is at.

* `contents`: the items in the buffer, oldest first: what the buffer is for;
* `contents_push`, `contents_pop`: an item goes in at the end and comes out at the front;
* `contents_concat`: the last item, which can be taken back;
* `length_eq_iff`: the test for a full buffer, on the counters.
-/

namespace Xv6

theorem toNat_sub_add_one {w r : UInt32} (h : (w - r).toNat ≠ 0) :
    (w - (r + 1)).toNat = (w - r).toNat - 1 := by
  have heq : w - r = w - (r + 1) + 1 := by grind
  have hlt := (w - (r + 1)).toNat_lt
  rw [heq, UInt32.toNat_add, UInt32.toNat_one] at h ⊢
  omega

/-- A ring buffer with `n` slots. -/
structure Ring (α : Type*) (n : ℕ) where
  data : Fin n → α
  nread : UInt32
  nwrite : UInt32

namespace Ring

variable {α : Type*} {n : ℕ} {b : Ring α n} {a : α}

/-- The number of items in the buffer. -/
def length (b : Ring α n) : ℕ := (b.nwrite - b.nread).toNat

theorem length_eq_zero_iff : b.length = 0 ↔ b.nread = b.nwrite := by
  rw [length, ← UInt32.toNat_zero, UInt32.toNat_inj, sub_eq_zero, eq_comm]

/-- The test for a full buffer. -/
theorem length_eq_iff (hn : n < 2 ^ 32) : b.length = n ↔ b.nwrite = b.nread + UInt32.ofNat n := by
  rw [← sub_eq_iff_eq_add', length, ← UInt32.toNat_inj, UInt32.toNat_ofNat', Nat.mod_eq_of_lt hn]

variable [NeZero n]

/-- The slot at which a counter is. -/
def slot (n : ℕ) [NeZero n] (c : UInt32) : Fin n := Fin.ofNat n c.toNat

/-- The items in the buffer, oldest first. -/
def contents (b : Ring α n) : List α :=
  (List.range b.length).map fun i => b.data (slot n (b.nread + UInt32.ofNat i))

/-- An item is written. -/
def push (b : Ring α n) (a : α) : Ring α n :=
  { b with data := Function.update b.data (slot n b.nwrite) a, nwrite := b.nwrite + 1 }

/-- An item is read. -/
def pop (b : Ring α n) : α × Ring α n :=
  (b.data (slot n b.nread), { b with nread := b.nread + 1 })

@[simp] theorem length_contents : b.contents.length = b.length := by
  rw [contents, List.length_map, List.length_range]

theorem length_push (hb : b.length < n) (hn : n < 2 ^ 32) : (b.push a).length = b.length + 1 := by
  have h : b.nwrite + 1 - b.nread = b.nwrite - b.nread + 1 := by grind
  rw [length, push, h, UInt32.toNat_add, UInt32.toNat_one, length]
  rw [length] at hb
  omega

theorem length_pop (hb : b.length ≠ 0) : b.pop.2.length = b.length - 1 := toNat_sub_add_one hb

omit [NeZero n] in
theorem length_pred (hb : b.length ≠ 0) :
    ({ b with nwrite := b.nwrite - 1 } : Ring α n).length = b.length - 1 := by
  have h : b.nwrite - b.nread = b.nwrite - 1 - b.nread + 1 := by grind
  have hlt := (b.nwrite - 1 - b.nread).toNat_lt
  rw [length] at hb ⊢
  rw [length]
  rw [h, UInt32.toNat_add, UInt32.toNat_one] at hb ⊢
  simp only
  omega

section Wrap

variable (hdvd : n ∣ 2 ^ 32)

include hdvd

theorem slot_add (c : UInt32) (i : ℕ) :
    (slot n (c + UInt32.ofNat i)).val = (c.toNat + i) % n := by
  rw [slot, Fin.val_ofNat, UInt32.toNat_add, UInt32.toNat_ofNat', Nat.mod_mod_of_dvd _ hdvd,
    Nat.add_mod, Nat.mod_mod_of_dvd _ hdvd, ← Nat.add_mod]

/-- Counters less than `n` apart are at different slots. -/
theorem slot_ne {c : UInt32} {i j : ℕ} (hij : i < j) (hj : j < i + n) :
    slot n (c + UInt32.ofNat i) ≠ slot n (c + UInt32.ofNat j) := by
  intro h
  have h := congrArg Fin.val h
  rw [slot_add hdvd, slot_add hdvd] at h
  have hd : n ∣ j - i := by
    have := Nat.sub_mod_eq_zero_of_mod_eq h.symm
    rw [show c.toNat + j - (c.toNat + i) = j - i by omega] at this
    exact Nat.dvd_of_mod_eq_zero this
  have := Nat.le_of_dvd (by omega) hd
  omega

theorem contents_push (hn : n < 2 ^ 32) (hb : b.length < n) :
    (b.push a).contents = b.contents ++ [a] := by
  have hw : b.nread + UInt32.ofNat b.length = b.nwrite := by
    rw [length, UInt32.ofNat_toNat]
    grind
  rw [contents, length_push hb hn, List.range_succ, List.map_append, List.map_singleton, contents]
  congr 1
  · refine List.map_congr_left fun i hi => ?_
    have hi := List.mem_range.1 hi
    have hne : slot n (b.nread + UInt32.ofNat i) ≠ slot n b.nwrite := by
      rw [← hw]
      exact slot_ne hdvd hi (by omega)
    simp only [push, ne_eq, hne, not_false_eq_true, Function.update_of_ne]
  · simp only [push, hw, Function.update_self]

end Wrap

theorem contents_pop (hb : b.length ≠ 0) : b.contents = b.pop.1 :: b.pop.2.contents := by
  obtain ⟨k, hk⟩ := Nat.exists_eq_succ_of_ne_zero hb
  have hk' : b.pop.2.length = k := by rw [length_pop hb, hk, Nat.succ_sub_one]
  rw [contents, contents, hk, hk', List.range_succ_eq_map, List.map_cons, List.map_map]
  congr 1
  · simp [pop]
  · refine List.map_congr_left fun i _ => ?_
    have h : b.nread + UInt32.ofNat (i + 1) = b.nread + 1 + UInt32.ofNat i := by
      rw [UInt32.ofNat_add]
      grind
    simp only [Function.comp, Nat.succ_eq_add_one, h, pop]

/-- The last item. -/
theorem contents_concat (hb : b.length ≠ 0) : b.contents =
    ({ b with nwrite := b.nwrite - 1 } : Ring α n).contents ++
      [b.data (slot n (b.nwrite - 1))] := by
  have hw : b.nread + (b.nwrite - 1 - b.nread) = b.nwrite - 1 := by grind
  rw [contents, ← Nat.sub_one_add_one hb, ← length_pred hb, List.range_succ, List.map_append,
    List.map_singleton, length, UInt32.ofNat_toNat, hw]
  rfl

end Ring

end Xv6
