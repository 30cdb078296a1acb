import Mathlib.Computability.Language

/-!
# The matcher of `grep`

The matcher (`grep.c`) searches a text for a pattern by backtracking: `matchhere` and `matchstar`
call each other, with less of the pattern or of the text. A string is the list of its characters
before the NUL, and a pointer into it is what is left from there.

The language of a pattern is given apart from the matcher (`lang`), in terms of products and stars
of languages. Patterns may begin with `^` and end with `$`, which say where in the text a word of
the language stands (`match_correct`).
-/

namespace Xv6.Grep

mutual

/-- The pattern matches at the beginning of the text. -/
def matchhere : List Char → List Char → Bool
  | [], _ => true
  | c :: '*' :: re, text => matchstar c re text
  | ['$'], text => text = []
  | c :: re, t :: text => (c = '.' ∨ c = t) && matchhere re text
  | _ :: _, [] => false
termination_by re text => 2 * (re.length + text.length)

/-- A star matches zero or more instances, and the shortest are tried first. -/
def matchstar (c : Char) (re : List Char) : List Char → Bool
  | [] => matchhere re []
  | t :: text => matchhere re (t :: text) || (t = c ∨ c = '.') && matchstar c re text
termination_by text => 2 * (re.length + text.length) + 1

end

/-- The loop of `match`, which looks at the empty string as well. -/
def matchAny (re : List Char) : List Char → Bool
  | [] => matchhere re []
  | t :: text => matchhere re (t :: text) || matchAny re text

/-- The pattern matches somewhere in the text. -/
def «match» : List Char → List Char → Bool
  | '^' :: re, text => matchhere re text
  | re, text => matchAny re text

/-! ## The language of a pattern -/

open Computability

/-- What one character of a pattern matches: a dot any character, another one itself. -/
def atom (c : Char) : Language Char := {w | ∃ x, (c = '.' ∨ c = x) ∧ w = [x]}

/-- The words that a pattern without `^` and `$` stands for. -/
def lang : List Char → Language Char
  | [] => 1
  | c :: '*' :: re => (atom c)∗ * lang re
  | c :: re => atom c * lang re

/-- A final `$` matches the end of the text. -/
def AtEnd (re : List Char) : Prop := re.getLast? = some '$'

instance (re : List Char) : Decidable (AtEnd re) := inferInstanceAs (Decidable (_ = _))

/-- The pattern before a final `$`. -/
def body (re : List Char) : List Char := if AtEnd re then re.dropLast else re

/-- A word of the language of the pattern stands at the beginning of the text. -/
def Here (re text : List Char) : Prop :=
  ∃ w post, text = w ++ post ∧ w ∈ lang (body re) ∧ (AtEnd re → post = [])

variable {c t : Char} {re text w : List Char}

theorem lang_cons (h : ∀ re', re = '*' :: re' → False) : lang (c :: re) = atom c * lang re := by
  rw [lang.eq_3]
  exact h

theorem atEnd_cons (hc : c = '$' → re = [] → False) : AtEnd (c :: re) ↔ AtEnd re := by
  cases re with
  | nil => simpa [AtEnd] using hc
  | cons d re => rw [AtEnd, AtEnd, List.getLast?_cons_cons]

theorem body_cons (hc : c = '$' → re = [] → False) : body (c :: re) = c :: body re := by
  rw [body, body, if_congr (atEnd_cons hc) rfl rfl]
  split
  next h =>
    cases re with
    | nil => exact absurd h (by simp [AtEnd])
    | cons d re => rfl
  next h => rfl

/-- The pattern before the final `$` begins with no star either. -/
theorem body_ne_star (h : ∀ re', re = '*' :: re' → False) (re' : List Char)
    (hbody : body re = '*' :: re') : False := by
  rw [body] at hbody
  split at hbody
  next hend =>
    cases re with
    | nil => cases hbody
    | cons d re =>
      cases re with
      | nil => cases hbody
      | cons e re =>
        rw [List.dropLast_cons_cons, List.cons.injEq] at hbody
        exact h (e :: re) (by rw [hbody.1])
  next hend => exact h re' hbody

theorem mem_atom_mul {L : Language Char} {w : List Char} :
    w ∈ atom c * L ↔ ∃ x v, w = x :: v ∧ (c = '.' ∨ c = x) ∧ v ∈ L := by
  rw [Language.mem_mul]
  constructor
  · rintro ⟨_, ⟨x, hx, rfl⟩, v, hv, rfl⟩
    exact ⟨x, v, rfl, hx, hv⟩
  · rintro ⟨x, v, rfl, hx, hv⟩
    exact ⟨[x], ⟨x, hx, rfl⟩, v, hv, rfl⟩

/-! ## The matcher -/

theorem here_nil : Here [] text := ⟨[], text, rfl, rfl, fun h => absurd h (by decide)⟩

theorem here_end : Here ['$'] text ↔ text = [] := by
  constructor
  · rintro ⟨w, post, rfl, hw, hpost⟩
    rw [hpost rfl, List.append_nil]
    exact hw
  · rintro rfl
    exact ⟨[], [], rfl, rfl, fun _ => rfl⟩

theorem here_cons (hstar : ∀ re', re = '*' :: re' → False) (hc : c = '$' → re = [] → False) :
    Here (c :: re) text ↔ ∃ x v, text = x :: v ∧ (c = '.' ∨ c = x) ∧ Here re v := by
  simp only [Here, body_cons hc, lang_cons (body_ne_star hstar), atEnd_cons hc, mem_atom_mul]
  constructor
  · rintro ⟨_, post, rfl, ⟨x, v, rfl, hx, hv⟩, hpost⟩
    exact ⟨x, v ++ post, rfl, hx, v, post, rfl, hv, hpost⟩
  · rintro ⟨x, _, rfl, hx, v, post, rfl, hv, hpost⟩
    exact ⟨x :: v, post, rfl, ⟨x, v, rfl, hx, hv⟩, hpost⟩

/-- Some instances of `c`, and the rest of the pattern after them. -/
def Star (c : Char) (re text : List Char) : Prop :=
  ∃ u v, text = u ++ v ∧ u ∈ (atom c)∗ ∧ Here re v

theorem here_star : Here (c :: '*' :: re) text ↔ Star c re text := by
  have hc : c = '$' → '*' :: re = [] → False := fun _ h => by cases h
  have hstar : '*' = '$' → re = [] → False := fun h => absurd h (by decide)
  simp only [Here, Star, body_cons hc, body_cons hstar, lang.eq_2, atEnd_cons hc, atEnd_cons hstar,
    Language.mem_mul]
  constructor
  · rintro ⟨_, post, rfl, ⟨u, hu, v, hv, rfl⟩, hpost⟩
    exact ⟨u, v ++ post, List.append_assoc .., hu, v, post, rfl, hv, hpost⟩
  · rintro ⟨u, _, rfl, hu, v, post, rfl, hv, hpost⟩
    exact ⟨u ++ v, post, (List.append_assoc ..).symm, ⟨u, hu, v, hv, rfl⟩, hpost⟩

theorem star_nil : Star c re [] ↔ Here re [] := by
  constructor
  · rintro ⟨u, v, huv, -, hv⟩
    obtain ⟨rfl, rfl⟩ := List.append_eq_nil_iff.1 huv.symm
    exact hv
  · exact fun h => ⟨[], [], rfl, Language.nil_mem_kstar _, h⟩

/-- No instance, or one and more. -/
theorem mem_star_atom :
    w ∈ (atom c)∗ ↔ w = [] ∨ ∃ x v, w = x :: v ∧ (c = '.' ∨ c = x) ∧ v ∈ (atom c)∗ := by
  conv_lhs => rw [← Language.one_add_self_mul_kstar_eq_kstar]
  rw [Language.mem_add, Language.mem_one, mem_atom_mul]

theorem star_cons :
    Star c re (t :: text) ↔ Here re (t :: text) ∨ (c = '.' ∨ c = t) ∧ Star c re text := by
  constructor
  · rintro ⟨u, v, huv, hu, hv⟩
    rcases mem_star_atom.1 hu with rfl | ⟨x, u', rfl, hx, hu'⟩
    · exact .inl (huv ▸ hv)
    · obtain ⟨rfl, rfl⟩ := List.cons.inj huv
      exact .inr ⟨hx, u', v, rfl, hu', hv⟩
  · rintro (h | ⟨ht, u, v, rfl, hu, hv⟩)
    · exact ⟨[], _, rfl, Language.nil_mem_kstar _, h⟩
    · exact ⟨t :: u, v, rfl, mem_star_atom.2 (.inr ⟨t, u, rfl, ht, hu⟩), hv⟩

/-- Both functions of the recursion at once, by induction on their calls. -/
theorem matchhere_and_matchstar :
    (∀ re text, matchhere re text = true ↔ Here re text) ∧
      ∀ c re text, matchstar c re text = true ↔ Star c re text := by
  apply matchhere.mutual_induct
  case case1 => exact fun text => ⟨fun _ => here_nil, fun _ => by rw [matchhere]⟩
  case case2 => exact fun c re text ih => by rw [matchhere, ih, here_star]
  case case3 => exact fun text => by rw [matchhere, decide_eq_true_iff, here_end]
  case case4 =>
    intro c re t text hstar hc ih
    rw [matchhere.eq_4 _ _ _ _ hstar hc, Bool.and_eq_true, decide_eq_true_iff, ih,
      here_cons hstar hc]
    constructor
    · exact fun h => ⟨t, text, rfl, h⟩
    · rintro ⟨x, v, hxv, h⟩
      obtain ⟨rfl, rfl⟩ := List.cons.inj hxv
      exact h
  case case5 =>
    intro c re hstar hc
    rw [matchhere.eq_5 _ _ hstar hc, here_cons hstar hc]
    constructor
    · exact fun h => absurd h Bool.false_ne_true
    · rintro ⟨x, v, hxv, -⟩
      cases hxv
  case case6 => exact fun c re ih => by rw [matchstar, ih, star_nil]
  case case7 =>
    intro c re t text ih ihstar
    rw [matchstar, Bool.or_eq_true, Bool.and_eq_true, decide_eq_true_iff, ih, ihstar, star_cons,
      or_comm (a := t = c), eq_comm (a := t)]

theorem matchhere_iff : matchhere re text = true ↔ Here re text := matchhere_and_matchstar.1 re text

/-- The loop of `match` tries every suffix. -/
theorem matchAny_iff :
    matchAny re text = true ↔ ∃ pre rest, text = pre ++ rest ∧ Here re rest := by
  induction text with
  | nil =>
    rw [matchAny, matchhere_iff]
    constructor
    · exact fun h => ⟨[], [], rfl, h⟩
    · rintro ⟨pre, rest, hnil, h⟩
      obtain ⟨rfl, rfl⟩ := List.append_eq_nil_iff.1 hnil.symm
      exact h
  | cons t text ih =>
    rw [matchAny, Bool.or_eq_true, matchhere_iff, ih]
    constructor
    · rintro (h | ⟨pre, rest, rfl, h⟩)
      · exact ⟨[], t :: text, rfl, h⟩
      · exact ⟨t :: pre, rest, rfl, h⟩
    · rintro ⟨pre, rest, hcons, h⟩
      cases pre with
      | nil => exact .inl (hcons ▸ h)
      | cons x pre =>
        obtain ⟨-, rfl⟩ := List.cons.inj hcons
        exact .inr ⟨pre, rest, rfl, h⟩

/-- The rest of a pattern, behind a first `^`. -/
def rest : List Char → List Char
  | '^' :: re => re
  | re => re

/-- The pattern is found if a word of the language of its rest stands somewhere in the text: at the
    beginning if the pattern begins with `^`, and at the end if it ends with `$`. -/
theorem match_correct (re text : List Char) :
    «match» re text = true ↔ ∃ pre w post, text = pre ++ w ++ post ∧ w ∈ lang (body (rest re)) ∧
      (re.head? = some '^' → pre = []) ∧ (AtEnd (rest re) → post = []) := by
  by_cases hcaret : re.head? = some '^'
  · obtain ⟨re, rfl⟩ := List.head?_eq_some_iff.1 hcaret
    rw [«match», matchhere_iff, rest]
    constructor
    · rintro ⟨w, post, rfl, hw, hpost⟩
      exact ⟨[], w, post, rfl, hw, fun _ => rfl, hpost⟩
    · rintro ⟨pre, w, post, rfl, hw, hpre, hpost⟩
      rw [hpre rfl]
      exact ⟨w, post, rfl, hw, hpost⟩
  · have hne : ∀ re', re = '^' :: re' → False := by
      rintro re' rfl
      exact hcaret rfl
    rw [«match».eq_2 _ _ hne, rest.eq_2 _ hne, matchAny_iff]
    constructor
    · rintro ⟨pre, _, rfl, w, post, rfl, hw, hpost⟩
      exact ⟨pre, w, post, (List.append_assoc ..).symm, hw, fun h => absurd h hcaret, hpost⟩
    · rintro ⟨pre, w, post, rfl, hw, -, hpost⟩
      exact ⟨pre, w ++ post, List.append_assoc .., w, post, rfl, hw, hpost⟩

example : «match» "^a.*$".toList "abc".toList = true := by decide +kernel

example : «match» "b$*c".toList "ab$$c".toList = true := by decide +kernel

example : «match» "^b".toList "ab".toList = false := by decide +kernel

end Xv6.Grep
