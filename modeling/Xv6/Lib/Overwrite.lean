import Mathlib.Data.List.Basic

/-!
# Overwriting a part of a list

`overwrite l off src` is the list `l` with `src` in the place of its items from `off` on; it gets
longer if `src` goes beyond its end. Writing in pieces is writing at once (`overwrite_append`).
-/

namespace Xv6

variable {α : Type*} {l src src' : List α} {off k : ℕ}

/-- The list with `src` in place of what was at `off`, or behind its end. -/
def overwrite (l : List α) (off : ℕ) (src : List α) : List α :=
  l.take off ++ src ++ l.drop (off + src.length)

theorem length_overwrite (h : off ≤ l.length) :
    (overwrite l off src).length = max l.length (off + src.length) := by
  rw [overwrite, List.length_append, List.length_append, List.length_take, List.length_drop]
  omega

theorem getElem?_overwrite (h : off ≤ l.length) : (overwrite l off src)[k]? =
    if off ≤ k ∧ k < off + src.length then src[k - off]? else l[k]? := by
  have htake : (l.take off).length = off := by rw [List.length_take]; omega
  rw [overwrite, List.append_assoc]
  split_ifs with hk
  · rw [List.getElem?_append_right (by omega), htake, List.getElem?_append_left (by omega)]
  · by_cases hlt : k < off
    · rw [List.getElem?_append_left (by omega), List.getElem?_take_of_lt hlt]
    · rw [List.getElem?_append_right (by omega), htake, List.getElem?_append_right (by omega),
        List.getElem?_drop]
      congr 1
      omega

@[simp] theorem overwrite_nil : overwrite l off [] = l := by
  rw [overwrite, List.append_nil, List.length_nil, Nat.add_zero, List.take_append_drop]

theorem overwrite_append (h : off ≤ l.length) :
    overwrite (overwrite l off src) (off + src.length) src' = overwrite l off (src ++ src') := by
  have hlen : (overwrite l off src).length = _ := length_overwrite h
  refine List.ext_getElem? fun k => ?_
  rw [getElem?_overwrite (by omega), getElem?_overwrite h, getElem?_overwrite h, List.length_append]
  by_cases hlow : k < off + src.length
  · rw [if_neg (by omega)]
    by_cases hoff : off ≤ k
    · rw [if_pos ⟨hoff, hlow⟩, if_pos ⟨hoff, by omega⟩, List.getElem?_append_left (by omega)]
    · rw [if_neg (by omega), if_neg (by omega)]
  · by_cases hhigh : k < off + src.length + src'.length
    · rw [if_pos (by omega), if_pos (by omega), List.getElem?_append_right (by omega)]
      congr 1
      omega
    · rw [if_neg (by omega), if_neg (by omega), if_neg (by omega)]

end Xv6
