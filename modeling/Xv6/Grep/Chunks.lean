import Xv6.Grep.Match
import Xv6.Lib.Overwrite

/-!
# The input of `grep` in pieces

`grep` reads its input into a buffer (`grep.c`), as much at a time as `read` returns, and looks for
the pattern in every line that is complete. What is behind the last newline is moved to the front of
the buffer, for the next `read` to go on from there.

If a `read` brings no newline, though, the buffer is emptied, and what it had of the line is lost.
So the lines are right if every piece of the input that comes before some newline has a newline
itself, and only then (`grep_lines_iff`).
-/

namespace Xv6.Grep

/-! ## The program -/

abbrev BUFSIZE : ℕ := 1024

/-- The string at an index of the buffer. -/
def str (buf : List Char) (p : ℕ) : List Char := (buf.drop p).takeWhile (· ≠ '\x00')

/-- `strchr(p, c)`, as an index of the buffer. -/
def strchr (buf : List Char) (p : ℕ) (c : Char) : Option ℕ :=
  ((str buf p).findIdx? (· = c)).map (p + ·)

theorem strchr_bounds {buf : List Char} {p q : ℕ} {c : Char} (h : strchr buf p c = some q) :
    p ≤ q ∧ q < buf.length := by
  obtain ⟨i, hi, rfl⟩ := Option.map_eq_some_iff.1 h
  have hlt : i < (str buf p).length := (List.findIdx?_eq_some_iff_getElem.1 hi).1
  have hle := (List.takeWhile_prefix (l := buf.drop p) (· ≠ '\x00')).length_le
  rw [str] at hlt
  rw [List.length_drop] at hle
  omega

/-- The loop over the lines in the buffer, from `p` on: what it writes, and the buffer and `p` after
    it. -/
def lines (pattern : List Char) (buf : List Char) (p : ℕ) : List Char × List Char × ℕ :=
  match _h : strchr buf p '\n' with
  | none => ([], buf, p)
  | some q =>
    let buf := buf.set q '\x00'
    if «match» pattern (str buf p) then
      let buf := buf.set q '\n'
      let (out, buf', p') := lines pattern buf (q + 1)
      ((buf.drop p).take (q + 1 - p) ++ out, buf', p')
    else lines pattern buf (q + 1)
termination_by buf.length - p
decreasing_by all_goals have := strchr_bounds _h; simp only [List.length_set]; omega

/-- `memmove(buf, p, m)`. -/
def moveFront (buf : List Char) (p m : ℕ) : List Char := overwrite buf 0 ((buf.drop p).take m)

/-- `grep` with `m` characters in the buffer, on what the calls of `read` return: what it writes. -/
def grepLoop (pattern : List Char) : List (List Char) → List Char → ℕ → List Char
  | [], _, _ => []
  | piece :: pieces, buf, m =>
    let buf := overwrite buf m piece
    let m := m + piece.length
    let buf := buf.set m '\x00'
    let (out, buf, p) := lines pattern buf 0
    let m := if p = 0 then 0 else m
    if 0 < m then out ++ grepLoop pattern pieces (moveFront buf p (m - p)) (m - p)
    else out ++ grepLoop pattern pieces buf m

/-- What `grep` writes, when `read` returns the pieces. -/
def grep (pattern : List Char) (pieces : List (List Char)) (buf : List Char) : List Char :=
  grepLoop pattern pieces buf 0

/-! ## Lines -/

variable {s s' l junk buf pattern carry : List Char} {p m : ℕ} {pieces : List (List Char)}

/-- The lines that end with a newline, without it. -/
def terminated (s : List Char) : List (List Char) := (s.splitOn '\n').dropLast

/-- What is behind the last newline. -/
def rem (s : List Char) : List Char := (s.splitOn '\n').getLast?.getD []

/-- The lines that end with a newline and match the pattern, in order. -/
def accepted (pattern s : List Char) : List Char :=
  ((terminated s).filter («match» pattern)).flatMap (· ++ ['\n'])

theorem splitOn_line (h : '\n' ∉ l) (s : List Char) :
    (l ++ '\n' :: s).splitOn '\n' = l :: s.splitOn '\n' :=
  List.splitOnP_append_cons_of_forall_mem
    (fun x hx => beq_false_of_ne fun hn : x = '\n' => h (hn ▸ hx)) _ (beq_self_eq_true _) _

/-- Every text is a number of lines, and the rest behind them. -/
theorem line_induction {P : List Char → Prop} (last : ∀ l, '\n' ∉ l → P l)
    (line : ∀ l s, '\n' ∉ l → P s → P (l ++ '\n' :: s)) (s : List Char) : P s := by
  by_cases h : '\n' ∈ s
  · obtain ⟨l, s', hs, hl⟩ := List.eq_append_cons_of_mem h
    rw [hs]
    exact line l s' hl (line_induction last line s')
  · exact last s h
termination_by s.length
decreasing_by rw [hs, List.length_append, List.length_cons]; omega

theorem rem_last (h : '\n' ∉ l) : rem l = l := by rw [rem, List.splitOn_eq_singleton h]; rfl

theorem rem_line (h : '\n' ∉ l) (s : List Char) : rem (l ++ '\n' :: s) = rem s := by
  rw [rem, splitOn_line h, List.getLast?_cons_of_ne_nil (List.splitOn_ne_nil _ _), rem]

theorem accepted_last (h : '\n' ∉ l) : accepted pattern l = [] := by
  rw [accepted, terminated, List.splitOn_eq_singleton h]
  rfl

theorem accepted_line (h : '\n' ∉ l) (s : List Char) : accepted pattern (l ++ '\n' :: s) =
    (if «match» pattern l then l ++ ['\n'] else []) ++ accepted pattern s := by
  rw [accepted, terminated, splitOn_line h, List.dropLast_cons_of_ne_nil (List.splitOn_ne_nil _ _),
    List.filter_cons]
  split
  · rfl
  · rfl

theorem newline_not_mem_rem (s : List Char) : '\n' ∉ rem s := by
  induction s using line_induction with
  | last l h => rwa [rem_last h]
  | line l s h ih => rwa [rem_line h]

theorem rem_suffix (s : List Char) : rem s <:+ s := by
  induction s using line_induction with
  | last l h => rw [rem_last h]
  | line l s h ih =>
    rw [rem_line h]
    exact (ih.trans (List.suffix_cons _ _)).trans (List.suffix_append _ _)

/-- The newline is not in the rest. -/
theorem length_rem_lt (h : '\n' ∈ s) : (rem s).length < s.length := by
  refine lt_of_le_of_ne (rem_suffix s).length_le fun hlen => newline_not_mem_rem s ?_
  rwa [(rem_suffix s).eq_of_length hlen]

/-- A text with more behind it. -/
theorem accepted_append (s s' : List Char) :
    accepted pattern (s ++ s') = accepted pattern s ++ accepted pattern (rem s ++ s') := by
  induction s using line_induction with
  | last l h => rw [accepted_last h, rem_last h, List.nil_append]
  | line l s h ih =>
    rw [List.append_assoc, List.cons_append, accepted_line h, accepted_line h, ih, rem_line h,
      List.append_assoc]

theorem rem_carry (h : '\n' ∉ carry) (hs : '\n' ∈ s) : rem (carry ++ s) = rem s := by
  obtain ⟨l, s, rfl, hl⟩ := List.eq_append_cons_of_mem hs
  rw [← List.append_assoc, rem_line (List.not_mem_append h hl), rem_line hl]

/-! ## The buffer -/

theorem str_eq (hs : '\x00' ∉ s) (hbuf : buf.drop p = s ++ '\x00' :: junk) : str buf p = s := by
  rw [str, hbuf, List.takeWhile_append_of_pos, List.takeWhile_cons_of_neg (by decide),
    List.append_nil]
  exact fun x hx => by simpa using fun hn : x = '\x00' => hs (hn ▸ hx)

theorem strchr_last (hs : '\x00' ∉ l) (hbuf : buf.drop p = l ++ '\x00' :: junk) (h : '\n' ∉ l) :
    strchr buf p '\n' = none := by
  rw [strchr, str_eq hs hbuf, List.findIdx?_eq_none_iff.2, Option.map_none]
  exact fun x hx => by simpa using fun hn : x = '\n' => h (hn ▸ hx)

theorem strchr_line (hs : '\x00' ∉ l ++ '\n' :: s)
    (hbuf : buf.drop p = l ++ '\n' :: s ++ '\x00' :: junk) (h : '\n' ∉ l) :
    strchr buf p '\n' = some (p + l.length) := by
  have hnone : l.findIdx? (· = '\n') = none :=
    List.findIdx?_eq_none_iff.2 fun x hx => by simpa using fun hn : x = '\n' => h (hn ▸ hx)
  rw [strchr, str_eq hs hbuf, List.findIdx?_append, hnone, List.findIdx?_cons]
  simp

/-- The character behind a line replaced. -/
theorem drop_set_line (hbuf : buf.drop p = l ++ '\n' :: s') (c : Char) :
    (buf.set (p + l.length) c).drop p = l ++ c :: s' := by
  rw [List.drop_set, if_neg (by omega), hbuf, Nat.add_sub_cancel_left,
    List.set_append_right _ _ le_rfl,
    Nat.sub_self, List.set_cons_zero]

/-- The loop writes the lines that match, and stops behind the last newline. What is from there on
    it leaves in the buffer. -/
theorem lines_eq (hs : '\x00' ∉ s) (hbuf : buf.drop p = s ++ '\x00' :: junk) :
    ∃ buf', lines pattern buf p = (accepted pattern s, buf', p + (s.length - (rem s).length)) ∧
      buf'.length = buf.length ∧
      buf'.drop (p + (s.length - (rem s).length)) = rem s ++ '\x00' :: junk := by
  induction s using line_induction generalizing buf p with
  | last l h =>
    rw [lines, rem_last h, Nat.sub_self]
    split
    next hq => exact ⟨buf, by rw [accepted_last h]; rfl, rfl, hbuf⟩
    next q hq =>
      rw [strchr_last hs hbuf h] at hq
      cases hq
  | line l s h ih =>
    have hl : '\x00' ∉ l := fun hmem => hs (List.mem_append_left _ hmem)
    have hs' : '\x00' ∉ s := fun hmem => hs (List.mem_append_right _ (List.mem_cons_of_mem _ hmem))
    have hend : p + l.length + 1 + (s.length - (rem s).length) =
        p + ((l ++ '\n' :: s).length - (rem (l ++ '\n' :: s)).length) := by
      have hle := (rem_suffix s).length_le
      rw [rem_line h, List.length_append, List.length_cons]
      omega
    rw [List.append_assoc, List.cons_append] at hbuf
    -- The rest of the buffer is the same with every character in the place of the newline.
    have hrest : ∀ buf' : List Char, ∀ c, buf'.drop p = l ++ c :: (s ++ '\x00' :: junk) →
        buf'.drop (p + l.length + 1) = s ++ '\x00' :: junk := fun buf' c hbuf' => by
      rw [Nat.add_assoc, ← List.drop_drop, hbuf', ← List.drop_drop, List.drop_left, List.drop_one,
        List.tail_cons]
    have hnul := drop_set_line hbuf '\x00'
    have hline : «match» pattern (str (buf.set (p + l.length) '\x00') p) = «match» pattern l := by
      rw [str_eq hl hnul]
    rw [lines]
    split
    next hq =>
      rw [strchr_line hs (by rw [hbuf, List.append_assoc, List.cons_append]) h] at hq
      cases hq
    next q hq =>
      obtain rfl : p + l.length = q := by
        rw [strchr_line hs (by rw [hbuf, List.append_assoc, List.cons_append]) h] at hq
        exact Option.some.inj hq
      dsimp only
      rw [hline, accepted_line h, ← hend, rem_line h]
      split
      next hmatch =>
        rw [List.set_set]
        have hset := drop_set_line hbuf '\n'
        obtain ⟨buf', hlines, hlen, hdrop⟩ := ih hs' (hrest _ _ hset)
        refine ⟨buf', ?_, by rw [hlen, List.length_set], hdrop⟩
        rw [hlines, hset, show p + l.length + 1 - p = l.length + 1 by omega,
          List.take_length_add_append]
        rfl
      next hmatch =>
        obtain ⟨buf', hlines, hlen, hdrop⟩ := ih hs' (hrest _ _ hnul)
        exact ⟨buf', by rw [hlines, List.nil_append], by rw [hlen, List.length_set], hdrop⟩

/-! ## The pieces -/

/-- The length of what is kept of a piece for the next one. -/
def kept (piece : List Char) : ℕ := if '\n' ∈ piece then (rem piece).length else 0

/-- The pieces are no longer than what `read` is asked for, with `m` characters in the buffer. -/
def Fit : ℕ → List (List Char) → Prop
  | _, [] => True
  | m, piece :: pieces => piece.length ≤ BUFSIZE - m - 1 ∧ Fit (kept piece) pieces

instance : ∀ m pieces, Decidable (Fit m pieces)
  | _, [] => inferInstanceAs (Decidable True)
  | _, piece :: pieces =>
    have := instDecidableFit (kept piece) pieces
    inferInstanceAs (Decidable (_ ∧ _))

/-- The lines that `grep` sees, with `carry` in the buffer: it loses what it has when a piece has no
    newline. -/
def seen (pattern : List Char) : List Char → List (List Char) → List Char
  | _, [] => []
  | carry, piece :: pieces =>
    if '\n' ∈ piece then
      accepted pattern (carry ++ piece) ++ seen pattern (rem (carry ++ piece)) pieces
    else seen pattern [] pieces

/-- The beginning of an unfinished line in the buffer. -/
structure Holds (buf carry : List Char) : Prop where
  size : buf.length = BUFSIZE
  room : carry.length < BUFSIZE
  nul : '\x00' ∉ carry
  newline : '\n' ∉ carry
  take : buf.take carry.length = carry

theorem holds_nil (h : buf.length = BUFSIZE) : Holds buf [] where
  size := h
  room := by decide
  nul := List.not_mem_nil
  newline := List.not_mem_nil
  take := rfl

/-- What is in the buffer when a piece has been read. -/
theorem Holds.read (h : Holds buf carry) {piece : List Char}
    (hfit : piece.length ≤ BUFSIZE - carry.length - 1) :
    ∃ junk, (overwrite buf carry.length piece).set (carry.length + piece.length) '\x00' =
      carry ++ piece ++ '\x00' :: junk := by
  have hroom := h.room
  have hsize := h.size
  obtain ⟨x, junk, hjunk⟩ : ∃ x junk, buf.drop (carry.length + piece.length) = x :: junk :=
    List.exists_cons_of_ne_nil (List.drop_eq_nil_iff.not.2 (by omega))
  refine ⟨junk, ?_⟩
  rw [overwrite, h.take, hjunk, List.set_append_right _ _ (by rw [List.length_append]),
    List.length_append, Nat.sub_self, List.set_cons_zero]

/-- What is behind the last newline is moved to the front. -/
theorem holds_moveFront (hsize : buf.length = BUFSIZE) (hs : '\x00' ∉ s) (hlt : s.length < BUFSIZE)
    (hbuf : buf.drop p = rem s ++ '\x00' :: junk) :
    Holds (moveFront buf p (rem s).length) (rem s) := by
  have hle := (rem_suffix s).length_le
  have hfront : (buf.drop p).take (rem s).length = rem s := by rw [hbuf, List.take_left]
  constructor
  case size => rw [moveFront, hfront, length_overwrite (Nat.zero_le _)]; omega
  case room => omega
  case nul => exact fun hmem => hs ((rem_suffix s).subset hmem)
  case newline => exact newline_not_mem_rem s
  case take => rw [moveFront, hfront, overwrite, List.take_zero, List.nil_append, List.take_left]

/-- The loop on the buffer is the loop on the texts. -/
theorem grepLoop_eq (hbuf : Holds buf carry) (hfit : Fit carry.length pieces)
    (hnul : ∀ piece ∈ pieces, '\x00' ∉ piece) :
    grepLoop pattern pieces buf carry.length = seen pattern carry pieces := by
  induction pieces generalizing buf carry with
  | nil => rfl
  | cons piece pieces ih =>
    obtain ⟨hfit, hfits⟩ := hfit
    obtain ⟨hpiece, hnul⟩ := List.forall_mem_cons.1 hnul
    have hroom := hbuf.room
    have hs : '\x00' ∉ carry ++ piece := List.not_mem_append hbuf.nul hpiece
    obtain ⟨junk, hread⟩ := hbuf.read hfit
    have hlen : (carry ++ piece ++ '\x00' :: junk).length = BUFSIZE := by
      rw [← hread, List.length_set, length_overwrite (by rw [hbuf.size]; omega), hbuf.size]
      omega
    have hstart : (carry ++ piece ++ '\x00' :: junk).drop 0 = carry ++ piece ++ '\x00' :: junk :=
      rfl
    obtain ⟨buf', hlines, hlen', hdrop⟩ := lines_eq hs hstart
    have hcarry : (carry ++ piece).length = carry.length + piece.length := List.length_append
    rw [grepLoop, seen]
    dsimp only
    rw [hread, hlines]
    dsimp only
    rw [Nat.zero_add] at hdrop ⊢
    by_cases hn : '\n' ∈ piece
    · have hlt := length_rem_lt (List.mem_append_right carry hn)
      have hp : (carry ++ piece).length - (rem (carry ++ piece)).length ≠ 0 := by omega
      have hm :
        carry.length + piece.length - ((carry ++ piece).length - (rem (carry ++ piece)).length)
          = (rem (carry ++ piece)).length := by omega
      rw [if_neg hp, if_pos (by omega), if_pos hn, hm]
      rw [kept, if_pos hn, ← rem_carry hbuf.newline hn] at hfits
      rw [ih (holds_moveFront (hlen'.trans hlen) hs (by omega) hdrop) hfits hnul]
    · have hnone : '\n' ∉ carry ++ piece := List.not_mem_append hbuf.newline hn
      rw [rem_last hnone, Nat.sub_self, if_pos rfl, if_neg (Nat.lt_irrefl 0), if_neg hn,
        accepted_last hnone, List.nil_append]
      rw [kept, if_neg hn] at hfits
      exact ih (holds_nil (hlen'.trans hlen)) hfits hnul

theorem grep_eq_seen (hbuf : buf.length = BUFSIZE) (hfit : Fit 0 pieces)
    (hnul : ∀ piece ∈ pieces, '\x00' ∉ piece) : grep pattern pieces buf = seen pattern [] pieces :=
  grepLoop_eq (holds_nil hbuf) hfit hnul

/-! ## When the lines are right -/

/-- No piece without a newline comes before one with a newline. -/
def Whole (pieces : List (List Char)) : Prop :=
  pieces.Pairwise fun piece later => '\n' ∈ later → '\n' ∈ piece

instance (pieces : List (List Char)) : Decidable (Whole pieces) :=
  inferInstanceAs (Decidable (List.Pairwise _ _))

theorem seen_eq_nil (h : ∀ piece ∈ pieces, '\n' ∉ piece) : seen pattern carry pieces = [] := by
  induction pieces generalizing carry with
  | nil => rfl
  | cons piece pieces ih =>
    obtain ⟨hpiece, h⟩ := List.forall_mem_cons.1 h
    rw [seen, if_neg hpiece, ih h]

theorem seen_of_whole (hcarry : '\n' ∉ carry) (h : Whole pieces) :
    seen pattern carry pieces = accepted pattern (carry ++ pieces.flatten) := by
  induction pieces generalizing carry with
  | nil => rw [List.flatten_nil, List.append_nil, accepted_last hcarry, seen]
  | cons piece pieces ih =>
    obtain ⟨hpiece, h⟩ := List.pairwise_cons.1 h
    by_cases hn : '\n' ∈ piece
    · rw [seen, if_pos hn, ih (newline_not_mem_rem _) h, List.flatten_cons, ← List.append_assoc,
        accepted_append (carry ++ piece)]
    · have hnone : ∀ later ∈ piece :: pieces, '\n' ∉ later :=
        List.forall_mem_cons.2 ⟨hn, fun later hlater hmem => hn (hpiece later hlater hmem)⟩
      have hflat : '\n' ∉ (piece :: pieces).flatten := fun hmem => by
        obtain ⟨later, hlater, hmem⟩ := List.mem_flatten.1 hmem
        exact hnone later hlater hmem
      rw [seen_eq_nil hnone, accepted_last (List.not_mem_append hcarry hflat)]

/-- The empty pattern matches every line. -/
theorem match_nil (text : List Char) : «match» [] text = true := by
  rw [«match».eq_2 _ _ (fun _ h => by cases h), matchAny_iff]
  exact ⟨[], text, rfl, here_nil⟩

/-- With the empty pattern, what is before the first newline is written if there is one. -/
theorem length_accepted_append (h : '\n' ∉ l) (hs : '\n' ∈ s) :
    (accepted [] (l ++ s)).length = l.length + (accepted [] s).length := by
  obtain ⟨l', s, rfl, hl'⟩ := List.eq_append_cons_of_mem hs
  rw [← List.append_assoc, accepted_line (List.not_mem_append h hl'), accepted_line hl', match_nil,
    match_nil, if_pos rfl, if_pos rfl]
  simp only [List.length_append]
  omega

theorem length_accepted_le (h : '\n' ∉ l) :
    (accepted [] s).length ≤ (accepted [] (l ++ s)).length := by
  by_cases hs : '\n' ∈ s
  · rw [length_accepted_append h hs]
    omega
  · rw [accepted_last hs]
    exact Nat.zero_le _

theorem length_seen_le (hcarry : '\n' ∉ carry) :
    (seen [] carry pieces).length ≤ (accepted [] (carry ++ pieces.flatten)).length := by
  induction pieces generalizing carry with
  | nil => exact Nat.zero_le _
  | cons piece pieces ih =>
    rw [seen, List.flatten_cons, ← List.append_assoc]
    split_ifs with hn
    · rw [accepted_append (carry ++ piece), List.length_append, List.length_append]
      exact Nat.add_le_add_left (ih (newline_not_mem_rem _)) _
    · exact (ih List.not_mem_nil).trans (length_accepted_le (List.not_mem_append hcarry hn))

/-- A part of a line that is lost is missing in what is written with the empty pattern. -/
theorem whole_of_length (hcarry : '\n' ∉ carry) (hpos : [] ∉ pieces)
    (h : (accepted [] (carry ++ pieces.flatten)).length ≤ (seen [] carry pieces).length) :
    Whole pieces := by
  induction pieces generalizing carry with
  | nil => exact List.Pairwise.nil
  | cons piece pieces ih =>
    obtain ⟨hne, hpos⟩ := not_or.1 (List.mem_cons.not.1 hpos)
    rw [seen, List.flatten_cons, ← List.append_assoc] at h
    split_ifs at h with hn
    · rw [accepted_append (carry ++ piece), List.length_append, List.length_append,
        Nat.add_le_add_iff_left] at h
      exact List.pairwise_cons.2 ⟨fun _ _ _ => hn, ih (newline_not_mem_rem _) hpos h⟩
    · have hle : (seen [] [] pieces).length ≤ (accepted [] pieces.flatten).length :=
        length_seen_le List.not_mem_nil
      have hlast : '\n' ∉ pieces.flatten := fun hlater => by
        rw [length_accepted_append (List.not_mem_append hcarry hn) hlater, List.length_append] at h
        have := List.length_pos_iff.2 (Ne.symm hne)
        omega
      have hnone : ∀ later ∈ pieces, '\n' ∉ later := fun later hmem hlater =>
        hlast (List.mem_flatten.2 ⟨later, hmem, hlater⟩)
      refine List.pairwise_cons.2 ⟨fun later hmem hlater => absurd hlater (hnone later hmem), ?_⟩
      exact List.Pairwise.imp_of_mem (fun _ hmem _ hlater => absurd hlater (hnone _ hmem))
        (List.pairwise_of_forall (fun _ _ => trivial) : pieces.Pairwise fun _ _ => True)

/-- Whatever the pattern, `grep` writes the lines that match, if and only if no piece without a
    newline comes before a newline. -/
theorem grep_lines_iff (buf : List Char) (pieces : List (List Char)) (hbuf : buf.length = BUFSIZE)
    (hfit : Fit 0 pieces) (hpos : [] ∉ pieces) (hnul : ∀ piece ∈ pieces, '\x00' ∉ piece) :
    (∀ pattern, grep pattern pieces buf = accepted pattern pieces.flatten) ↔ Whole pieces := by
  constructor
  · intro h
    refine whole_of_length List.not_mem_nil hpos (le_of_eq ?_)
    rw [← grep_eq_seen hbuf hfit hnul, h, List.nil_append]
  · intro h pattern
    rw [grep_eq_seen hbuf hfit hnul, seen_of_whole List.not_mem_nil h, List.nil_append]

/-- A line in two pieces, of which the first has its end. -/
theorem grep_lines_iff_split :
    grep "d".toList ["ab\nc".toList, "d\n".toList] (List.replicate BUFSIZE '\x00') =
      accepted "d".toList "ab\ncd\n".toList :=
  (grep_lines_iff _ _ List.length_replicate (by decide) (by decide) (by decide)).2 (by decide) _

/-- The first piece is lost, and the line does not match any more. -/
theorem grep_loses_line :
    Fit 0 ["a".toList, "b\n".toList] ∧ (∀ line ∈ terminated "ab\n".toList, line.length + 1 ≤ 1022) ∧
      accepted "a".toList "ab\n".toList = "ab\n".toList ∧
      grep "a".toList ["ab\n".toList] (List.replicate BUFSIZE '\x00') = "ab\n".toList ∧
      grep "a".toList ["a".toList, "b\n".toList] (List.replicate BUFSIZE '\x00') = [] := by
  decide +kernel

end Xv6.Grep
