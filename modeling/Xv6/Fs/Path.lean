import Mathlib.Data.List.TakeWhile
import Xv6.Fs.Dangling
import Xv6.Lib.Overwrite

/-!
# Paths

`skipelem` takes a path apart in a buffer of `DIRSIZ` characters that is used again for each
element, and has no end if the element fills it. What is in the buffer is the next piece of the path
between slashes, cut to `DIRSIZ` characters, and `namex` is the fold of the lookup in a directory
over these pieces (`namex_fold`), unless there is no room for the copy of an inode (`namex_panics`).
-/

namespace Xv6.Fs

open TransitionSystem

variable {s s' : State} {H : Multiset Inum} {I : Inum → Inode} {ip cwd : Inum} {p : Slot}
  {name : Name} {path buf e : List Char} {names : List Name} {parent : Bool} {k : ℕ}

/-! ## Elements -/

/-- The pieces of a path between slashes, cut to `DIRSIZ` characters. -/
def segments (path : List Char) : List Name :=
  ((path.splitOn '/').filter (· ≠ [])).map (List.take DIRSIZ)

theorem splitOn_slash (he : '/' ∉ e) (l : List Char) :
    (e ++ '/' :: l).splitOn '/' = e :: l.splitOn '/' :=
  List.splitOnP_append_cons_of_forall_mem
    (fun x hx => beq_false_of_ne fun hc : x = '/' => he (hc ▸ hx)) _ (beq_self_eq_true _) _

theorem segments_slash (l : List Char) : segments ('/' :: l) = segments l := by
  have hsplit : ([] ++ '/' :: l).splitOn '/' = [] :: l.splitOn '/' :=
    splitOn_slash List.not_mem_nil l
  rw [List.nil_append] at hsplit
  rw [segments, hsplit]
  rfl

theorem segments_dropWhile (path : List Char) :
    segments (path.dropWhile (· = '/')) = segments path := by
  induction path with
  | nil => rfl
  | cons c path ih =>
    by_cases hc : c = '/'
    · rw [hc, List.dropWhile_cons_of_pos (by decide), ih, segments_slash]
    · rw [List.dropWhile_cons_of_neg (by simpa using hc)]

/-- The first piece of a path, and the others. -/
theorem segments_append (he : '/' ∉ e) (hne : e ≠ []) (hpath : ∀ c ∈ path.head?, c = '/') :
    segments (e ++ path) = e.take DIRSIZ :: segments (path.dropWhile (· = '/')) := by
  have hfilter (l : List Name) : (e :: l).filter (· ≠ []) = e :: l.filter (· ≠ []) :=
    List.filter_cons_of_pos (by simpa using hne)
  rw [segments_dropWhile]
  cases path with
  | nil =>
    rw [List.append_nil, segments, List.splitOn_eq_singleton he, hfilter]
    rfl
  | cons c l =>
    obtain rfl := hpath c rfl
    rw [segments_slash, segments, splitOn_slash he, hfilter]
    rfl

/-- What is not dropped begins with something else. -/
theorem head_dropWhile {q : Char → Bool} {c : Char} (h : c ∈ (path.dropWhile q).head?) :
    q c = false := by
  have hc := List.head?_dropWhile_not q path
  rw [h] at hc
  exact hc

theorem segments_of_none (h : skipelem '/' path = none) : segments path = [] := by
  rw [skipelem] at h
  split_ifs at h with h0
  rw [← segments_dropWhile, h0]
  rfl

/-- `skipelem` takes the first piece of a path, and the slashes behind it. -/
theorem segments_of_some {rest : List Char} (h : skipelem '/' path = some (name, rest)) :
    segments path = name :: segments rest ∧ rest.length < path.length ∧ rest.head? ≠ some '/' := by
  rw [skipelem] at h
  cases hpath : path.dropWhile (· = '/') with
  | nil =>
    rw [if_pos hpath] at h
    cases h
  | cons c l =>
    rw [hpath, if_neg (List.cons_ne_nil c l)] at h
    obtain ⟨rfl, rfl⟩ := Prod.mk.inj (Option.some.inj h)
    have hc : c ≠ '/' := of_decide_eq_false (head_dropWhile (by rw [hpath]; rfl))
    have he : '/' ∉ (c :: l).takeWhile (· ≠ '/') := fun hmem => by
      simpa using List.mem_takeWhile_imp hmem
    have hne : (c :: l).takeWhile (· ≠ '/') ≠ [] := by
      rw [List.takeWhile_cons_of_pos (by simpa using hc)]
      exact List.cons_ne_nil _ _
    have hnext : ∀ d ∈ ((c :: l).dropWhile (· ≠ '/')).head?, d = '/' := fun d hd => by
      simpa using head_dropWhile hd
    have hlen : (c :: l).length ≤ path.length := hpath ▸ (List.dropWhile_sublist _).length_le
    have hsplit := congrArg List.length
      (List.takeWhile_append_dropWhile (p := (· ≠ '/')) (l := c :: l))
    have hdrop := (List.dropWhile_sublist (l := (c :: l).dropWhile (· ≠ '/')) (· = '/')).length_le
    have hpos := List.length_pos_of_ne_nil hne
    rw [List.length_append] at hsplit
    refine ⟨?_, by omega, fun hslash => ?_⟩
    · rw [← segments_append he hne hnext, List.takeWhile_append_dropWhile, ← hpath,
        segments_dropWhile]
    · exact absurd (head_dropWhile hslash) (by decide)

theorem elems_eq (hk : path.length ≤ k) : elems k path = segments path := by
  induction k generalizing path with
  | zero =>
    obtain rfl := List.length_eq_zero_iff.1 (Nat.le_zero.1 hk)
    rfl
  | succ k ih =>
    rw [elems]
    cases h : skipelem '/' path with
    | none => exact (segments_of_none h).symm
    | some x =>
      obtain ⟨hsegments, hlt, -⟩ := segments_of_some h
      rw [hsegments, ← ih (by omega)]

/-- No element is left if and only if nothing is left, behind the slashes. -/
theorem segments_eq_nil (hpath : path.head? ≠ some '/') : segments path = [] ↔ path = [] := by
  refine ⟨fun h => ?_, fun h => by rw [h]; rfl⟩
  cases path with
  | nil => rfl
  | cons c l =>
    have hdrop : (c :: l).dropWhile (· = '/') = c :: l :=
      List.dropWhile_cons_of_neg fun hc => hpath (by rw [of_decide_eq_true hc]; rfl)
    obtain ⟨y, hy⟩ : ∃ y, skipelem '/' (c :: l) = some y :=
      ⟨_, by rw [skipelem, hdrop, if_neg (List.cons_ne_nil c l)]⟩
    rw [(segments_of_some hy).1] at h
    cases h

/-! ## Lookups -/

/-- The inode that a directory has under a name. -/
def lookup (I : Inum → Inode) (dp : Inum) (name : Name) : Option Inum :=
  if (I dp).type = .dir then (findEnt name (I dp).ents).map Prod.snd else none

/-- The directory in which a path has its last name, and the name. -/
def lookupParent (I : Inum → Inode) (ip : Inum) (names : List Name) : Option (Inum × Name) :=
  names.getLast?.bind fun name => (names.dropLast.foldlM (lookup I) ip).bind fun dp =>
    if (I dp).type = .dir then some (dp, name) else none

theorem walk_false : walk I false names ip = (names.foldlM (lookup I) ip).map (·, []) := by
  induction names generalizing ip with
  | nil => rfl
  | cons name names ih =>
    rw [walk, List.foldlM_cons, lookup]
    by_cases hd : (I ip).type = .dir
    · rw [if_neg (not_not.2 hd), if_neg (fun h => Bool.false_ne_true h.1), if_pos hd]
      cases findEnt name (I ip).ents with
      | none => rfl
      | some x => exact ih
    · rw [if_pos hd, if_neg hd]
      rfl

theorem walk_true : walk I true names ip = lookupParent I ip names := by
  induction names generalizing ip with
  | nil => rfl
  | cons name names ih =>
    rw [walk, lookupParent]
    cases names with
    | nil =>
      by_cases hd : (I ip).type = .dir
      · rw [if_neg (not_not.2 hd), if_pos ⟨rfl, rfl⟩]
        exact (if_pos hd).symm
      · rw [if_pos hd]
        exact (if_neg hd).symm
    | cons name' names =>
      rw [List.getLast?_cons_cons, List.dropLast_cons_cons, List.foldlM_cons, lookup]
      by_cases hd : (I ip).type = .dir
      · rw [if_neg (not_not.2 hd), if_neg (fun h => List.cons_ne_nil _ _ h.2), if_pos hd]
        cases findEnt name (I ip).ents with
        | none => cases (name' :: names).getLast? <;> rfl
        | some x => exact ih
      · rw [if_pos hd, if_neg hd]
        cases (name' :: names).getLast? <;> rfl

/-! ## The buffer -/

/-- The characters of an element are moved to the buffer, with an end if it is not full. -/
def fill (buf e : List Char) : List Char :=
  if DIRSIZ ≤ e.length then overwrite buf 0 (e.take DIRSIZ)
  else (overwrite buf 0 e).set e.length '\x00'

/-- The name in the buffer, as `strncmp` and `strncpy` read it. -/
def bufName (buf : List Char) : Name := (buf.take DIRSIZ).takeWhile (· ≠ '\x00')

theorem fill_spec (hbuf : buf.length = DIRSIZ) (he : '\x00' ∉ e) :
    (fill buf e).length = DIRSIZ ∧ bufName (fill buf e) = e.take DIRSIZ := by
  have hall : ∀ c ∈ e, decide (c ≠ '\x00') = true := fun c hc =>
    decide_eq_true fun h0 => he (h0 ▸ hc)
  rw [fill, bufName]
  split_ifs with hle
  · have hlen : (e.take DIRSIZ).length = DIRSIZ := by rw [List.length_take]; omega
    have hfull : overwrite buf 0 (e.take DIRSIZ) = e.take DIRSIZ := by
      rw [overwrite, hlen, List.take_zero, List.nil_append, List.drop_of_length_le (by omega),
        List.append_nil]
    rw [hfull, List.take_take, min_self, List.takeWhile_eq_self_iff.2 fun c hc =>
      hall c (List.mem_of_mem_take hc)]
    exact ⟨hlen, rfl⟩
  · obtain ⟨b, t, ht⟩ := List.exists_cons_of_length_pos
      (show 0 < (buf.drop e.length).length by rw [List.length_drop]; omega)
    have hlen := congrArg List.length ht
    rw [List.length_drop, List.length_cons] at hlen
    have hset : (overwrite buf 0 e).set e.length '\x00' = e ++ '\x00' :: t := by
      rw [overwrite, List.take_zero, List.nil_append, Nat.zero_add, ht,
        List.set_append_right _ _ le_rfl,
        Nat.sub_self]
      rfl
    have hsum : (e ++ '\x00' :: t).length = DIRSIZ := by
      rw [List.length_append, List.length_cons]
      omega
    rw [hset, List.take_of_length_le (by omega), List.takeWhile_append_of_pos hall,
      List.take_of_length_le (by omega)]
    exact ⟨hsum, List.append_nil e⟩

/-- `skipelem`, with the buffer for the name and the rest of the path. -/
def skipelemTo (buf path : List Char) : Option (List Char × List Char) :=
  let path := path.dropWhile (· = '/')
  if path = [] then none
  else some (fill buf (path.takeWhile (· ≠ '/')), (path.dropWhile (· ≠ '/')).dropWhile (· = '/'))

theorem skipelemTo_spec (hbuf : buf.length = DIRSIZ) (hnul : '\x00' ∉ path) :
    skipelem '/' path = (skipelemTo buf path).map (fun x => (bufName x.1, x.2)) ∧
      ∀ x ∈ skipelemTo buf path, x.1.length = DIRSIZ ∧ '\x00' ∉ x.2 := by
  rw [skipelem, skipelemTo]
  split_ifs with h0
  · exact ⟨rfl, nofun⟩
  · have hmem {c : Char} (hc : c ∈ path.dropWhile (· = '/')) : c ∈ path :=
      (List.dropWhile_sublist _).subset hc
    obtain ⟨hlen, hname⟩ := fill_spec hbuf
      fun h => hnul (hmem ((List.takeWhile_prefix (· ≠ '/')).subset h))
    refine ⟨by rw [Option.map_some, hname], fun x hx => ?_⟩
    obtain rfl := Option.some.inj hx
    exact ⟨hlen, fun h => hnul (hmem
      ((List.dropWhile_sublist _).subset ((List.dropWhile_sublist _).subset h)))⟩

/-- The loop of `namex` as it is: the path is taken apart on the way, and all names are in the same
    buffer. -/
def namexToLoop (parent : Bool) : ℕ → State → Inum → List Char → List Char →
    Option (Option (Inum × List Char) × State)
  | 0, s, ip, buf, _ => if parent then some (none, iput s ip) else some (some (ip, buf), s)
  | k + 1, s, ip, buf, path =>
    match skipelemTo buf path with
    | none => if parent then some (none, iput s ip) else some (some (ip, buf), s)
    | some (buf, path) => (ilock s ip).bind fun s =>
      if (s.inode ip).type ≠ .dir then some (none, iput s ip)
      else if parent ∧ path = [] then some (some (ip, buf), s)
      else (dirlookup s ip (bufName buf)).bind fun
        | none => some (none, iput s ip)
        | some (_, next) =>
          (iget s next).bind fun s => namexToLoop parent k (iput s ip) next buf path

/-- `namex` of the process `p`, with a buffer for the name. -/
def namexTo (s : State) (p : Slot) (path : List Char) (parent : Bool) (buf : List Char) :
    Option (Option (Inum × List Char) × State) :=
  if path.head? = some '/' then
    (iget s ROOTINO).bind fun s => namexToLoop parent path.length s ROOTINO buf path
  else (s.proc p).cwd.bind fun cwd => namexToLoop parent path.length (idup s cwd) cwd buf path

/-- What is found, with the name in the buffer if it is asked for. -/
def found (parent : Bool) (x : Option (Inum × List Char) × State) : Option (Inum × Name) × State :=
  (x.1.map fun y => (y.1, if parent then bufName y.2 else []), x.2)

theorem namexToLoop_eq (hk : path.length ≤ k) (hbuf : buf.length = DIRSIZ) (hnul : '\x00' ∉ path) :
    (namexToLoop parent k s ip buf path).map (found parent) = namexLoop parent (segments path) s
    ip := by
  induction k generalizing s ip buf path with
  | zero =>
    obtain rfl := List.length_eq_zero_iff.1 (Nat.le_zero.1 hk)
    cases parent <;> rfl
  | succ k ih =>
    obtain ⟨hskip, hx⟩ := skipelemTo_spec hbuf hnul
    rw [namexToLoop]
    cases hto : skipelemTo buf path with
    | none =>
      rw [hto] at hskip
      rw [segments_of_none hskip]
      cases parent <;> rfl
    | some x =>
      obtain ⟨buf', rest⟩ := x
      rw [hto] at hskip
      obtain ⟨hbuf', hnul'⟩ := hx _ hto
      obtain ⟨hsegments, hlt, hhead⟩ := segments_of_some hskip
      rw [hsegments, namexLoop]
      dsimp only
      cases ilock s ip with
      | none => rfl
      | some s₁ =>
        simp only [Option.bind_some, segments_eq_nil hhead]
        split_ifs with hd hp
        · rfl
        · rw [Option.map_some, found, Option.map_some, if_pos hp.1]
        · cases dirlookup s₁ ip (bufName buf') with
          | none => rfl
          | some y =>
            cases y with
            | none => rfl
            | some y =>
              simp only [Option.bind_some]
              cases iget s₁ y.2 with
              | none => rfl
              | some s₂ => exact ih (Nat.le_of_lt_succ (hlt.trans_le hk)) hbuf' hnul'

theorem namexTo_eq (s : State) (p : Slot) (parent : Bool) (hbuf : buf.length = DIRSIZ)
    (hnul : '\x00' ∉ path) :
    (namexTo s p path parent buf).map (found parent) = namex s p path parent := by
  rw [namexTo, namex, elems_eq le_rfl]
  split_ifs
  · cases iget s ROOTINO with
    | none => rfl
    | some s => exact namexToLoop_eq le_rfl hbuf hnul
  · cases (s.proc p).cwd with
    | none => rfl
    | some cwd => exact namexToLoop_eq le_rfl hbuf hnul

theorem namexTo_isSome (s : State) (p : Slot) (parent : Bool) (hbuf : buf.length = DIRSIZ)
    (hnul : '\x00' ∉ path) :
    (namexTo s p path parent buf).isSome = (namex s p path parent).isSome := by
  rw [← namexTo_eq s p parent hbuf hnul, Option.isSome_map]

/-- `n` files are made and opened, by processes with `NOFILE` descriptors each. -/
def openFiles (n : ℕ) : List (Slot × Op) :=
  (List.range n).map fun k => (Fin.ofNat _ (k / NOFILE), .open [Char.ofNat (65 + k)] true false)

end Xv6.Fs
