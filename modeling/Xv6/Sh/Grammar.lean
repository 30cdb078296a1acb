import Mathlib.Logic.Function.Iterate
import Mathlib.Tactic.SplitIfs
import Xv6.Sh.Basic

/-!
# The grammar of the shell

A line is a sequence of tokens (`lex`): words, separated by white space, and symbols. The grammar
says which sequences are commands, and what their trees are (`Derives`):

* `line -> pipe '&'* [';' line]`;
* `pipe -> cmd ['|' pipe]`;
* `cmd -> '(' line ')' redir* | redir* (word redir*)*`, with fewer than `MAXARGS` words;
* `redir -> ('<' | '>' | '>>') word`.

`gettoken` and `peek` read the tokens of `lex` (`gettoken_cons`, `peek_eq`).
-/

namespace Xv6.Sh

/-- A token of a line. -/
inductive Token
  | word (w : List Char)
  | lt
  | gt
  | gtgt
  | pipe
  | amp
  | semi
  | lpar
  | rpar
  deriving DecidableEq

/-- The symbols but `>` and `>>`. -/
def symbol (c : Char) : Option Token :=
  if c = '<' then some .lt
  else if c = '|' then some .pipe
  else if c = '&' then some .amp
  else if c = ';' then some .semi
  else if c = '(' then some .lpar
  else if c = ')' then some .rpar
  else none

/-- The character may be in a word. -/
def isWord (c : Char) : Bool := c ∉ whitespace ∧ c ∉ symbols

/-- The tokens of a line. -/
def lex : List Char → List Token
  | [] => []
  | c :: cs =>
    if c ∈ whitespace then lex cs
    else if c = '>' then
      if cs.head? = some '>' then .gtgt :: lex cs.tail else .gt :: lex cs
    else match symbol c with
      | some t => t :: lex cs
      | none => .word (c :: cs.takeWhile isWord) :: lex (cs.dropWhile isWord)
termination_by cs => cs.length
decreasing_by
  all_goals have := cs.dropWhile_sublist (p := isWord) |>.length_le; simp; try omega

/-! ## Derivations -/

/-- A redirection of a command. -/
structure Redir where
  file : List Char
  mode : ℕ
  fd : ℕ

/-- The command with redirections, the first one inside. -/
def Cmd.redirs (c : Cmd (List Char)) (rs : List Redir) : Cmd (List Char) :=
  rs.foldl (fun c r => .redir c r.file r.mode r.fd) c

/-- The mode and the descriptor of a redirection. -/
def Token.mode : Token → Option (ℕ × ℕ)
  | .lt => some (O_RDONLY, 0)
  | .gt | .gtgt => some (O_WRONLY ||| O_CREATE, 1)
  | _ => none

/-- `redir*`. -/
inductive Redirs : List Token → List Redir → Prop
  | nil : Redirs [] []
  | cons {t mode fd w ts rs} : Token.mode t = some (mode, fd) → Redirs ts rs →
    Redirs (t :: .word w :: ts) (⟨w, mode, fd⟩ :: rs)

/-- `(word redir*)*`. -/
inductive Args : List Token → List (List Char) → List Redir → Prop
  | nil : Args [] [] []
  | cons {w ts rs us ws rs'} : Redirs ts rs → Args us ws rs' →
    Args (.word w :: ts ++ us) (w :: ws) (rs ++ rs')

/-- What the parser has a function for. -/
inductive Nonterminal
  | line
  | pipe
  | cmd

/-- The tokens are a line, a pipe or a command with this tree. -/
inductive Derives : Nonterminal → List Token → Cmd (List Char) → Prop
  | line {ts c} (n : ℕ) : Derives .pipe ts c →
    Derives .line (ts ++ List.replicate n .amp) (Cmd.back^[n] c)
  | list {ts c us d} (n : ℕ) : Derives .pipe ts c → Derives .line us d →
    Derives .line (ts ++ List.replicate n .amp ++ .semi :: us) (.list (Cmd.back^[n] c) d)
  | single {ts c} : Derives .cmd ts c → Derives .pipe ts c
  | pipe {ts c us d} : Derives .cmd ts c → Derives .pipe us d →
    Derives .pipe (ts ++ .pipe :: us) (.pipe c d)
  | block {ts c us rs} : Derives .line ts c → Redirs us rs →
    Derives .cmd (.lpar :: ts ++ .rpar :: us) (c.redirs rs)
  | exec {ts rs us ws rs'} : Redirs ts rs → Args us ws rs' → ws.length < MAXARGS →
    Derives .cmd (ts ++ us) ((Cmd.exec ws).redirs (rs ++ rs'))

/-! ## Tokens of a line -/

variable {line cs : List Char} {c : Char} {s : ℕ} {t : Token} {ts : List Token} {p : Char → Bool}

/-- The first character of a symbol, and `a` for a word. -/
def Token.first : Token → Char
  | .word _ => 'a'
  | .lt => '<'
  | .gt | .gtgt => '>'
  | .pipe => '|'
  | .amp => '&'
  | .semi => ';'
  | .lpar => '('
  | .rpar => ')'

/-- What `gettoken` returns for a token. -/
def Token.kind : Token → Char
  | .gtgt => '+'
  | t => t.first

theorem scan_eq : scan p cs s = s + (cs.takeWhile p).length := by
  induction cs generalizing s with
  | nil => rfl
  | cons c cs ih =>
    rw [scan, List.takeWhile_cons]
    split_ifs
    · rw [ih, List.length_cons]
      omega
    · rfl

theorem drop_scan : line.drop (scan p (line.drop s) s) = (line.drop s).dropWhile p := by
  rw [scan_eq, ← List.drop_drop]
  generalize line.drop s = cs
  induction cs with
  | nil => rfl
  | cons c cs ih =>
    rw [List.takeWhile_cons, List.dropWhile_cons]
    split_ifs
    · exact ih
    · rfl

theorem lex_white (hc : c ∈ whitespace) : lex (c :: cs) = lex cs := by rw [lex, if_pos hc]

theorem lex_dropWhile (cs : List Char) : lex (cs.dropWhile (· ∈ whitespace)) = lex cs := by
  induction cs with
  | nil => rfl
  | cons c cs ih =>
    rw [List.dropWhile_cons]
    split_ifs with hc
    · rw [ih, lex_white (of_decide_eq_true hc)]
    · rfl

/-- The tokens from `s` on. -/
def toks (line : List Char) (s : ℕ) : List Token := lex (line.drop s)

theorem toks_skip : toks line (skip line s) = toks line s := by
  rw [toks, skip, drop_scan, lex_dropWhile, toks]

/-- The line ends, or goes on with another character. -/
theorem drop_skip (line : List Char) (s : ℕ) :
    line.drop (skip line s) = [] ∨
      ∃ c cs, line.drop (skip line s) = c :: cs ∧ c ∉ whitespace := by
  rw [skip, drop_scan]
  generalize line.drop s = cs
  induction cs with
  | nil => exact .inl rfl
  | cons c cs ih =>
    rw [List.dropWhile_cons]
    split_ifs with hc
    · exact ih
    · exact .inr ⟨c, cs, rfl, fun hmem => hc (decide_eq_true hmem)⟩

theorem deref_eq : deref line s = ((line.drop s).head?).getD '\x00' := by
  rw [deref, List.getD_eq_getElem?_getD, List.head?_drop]

theorem symbol_eq_some (h : symbol c = some t) :
    t.first = c ∧ t.kind = c ∧ c ∈ ['|', '(', ')', ';', '&', '<'] ∧ ∀ w, t ≠ .word w := by
  rw [symbol] at h
  split_ifs at h with hc hc hc hc hc hc <;> obtain rfl := Option.some.inj h <;> subst hc <;>
    exact ⟨rfl, rfl, by decide, fun w => nofun⟩

theorem symbol_eq_none (h : symbol c = none) : c ∉ ['|', '(', ')', ';', '&', '<'] := by
  rw [symbol] at h
  split_ifs at h
  simp [*]

theorem not_mem_symbols (hgt : c ≠ '>') (h : symbol c = none) : c ∉ symbols := by
  have hnot := symbol_eq_none h
  simp only [List.mem_cons, List.not_mem_nil, or_false, not_or] at hnot
  simp [symbols, hnot, hgt]

/-- Another character starts a token. -/
theorem exists_lex (hc : c ∉ whitespace) (cs : List Char) : ∃ t ts, lex (c :: cs) = t :: ts ∧
    (t.first = c ∨ t.first = 'a' ∧ c ∉ symbols) := by
  rw [lex, if_neg hc]
  split_ifs with hgt
  · exact ⟨_, _, rfl, .inl hgt.symm⟩
  · exact ⟨_, _, rfl, .inl hgt.symm⟩
  · cases hsym : symbol c with
    | none => exact ⟨_, _, rfl, .inr ⟨rfl, not_mem_symbols hgt hsym⟩⟩
    | some t => exact ⟨t, _, rfl, .inl (symbol_eq_some hsym).1⟩

/-- `peek` looks at the next token. -/
theorem peek_eq (hnul : '\x00' ∉ line) (s : ℕ) {cs : List Char} (hcs : cs ⊆ symbols) :
    ∃ s', peek line s cs = ((toks line s).head?.any fun t => t.first ∈ cs, s') ∧
      toks line s' = toks line s := by
  refine ⟨skip line s, ?_, toks_skip⟩
  rw [← toks_skip, peek, toks, deref_eq]
  obtain hnil | ⟨c, cs', hcons, hc⟩ := drop_skip line s
  · rw [hnil, lex]
    simp
  · have hc0 : c ≠ '\x00' := by
      rintro rfl
      exact hnul (List.mem_of_mem_drop (hcons ▸ List.mem_cons_self))
    obtain ⟨t, ts, hlex, hfirst⟩ := exists_lex hc cs'
    rw [hcons, hlex]
    obtain rfl | ⟨hfirst, hsym⟩ := hfirst
    · simp [hc0]
    · have hca : 'a' ∉ cs := fun ha => absurd (hcs ha) (by decide)
      have hcc : c ∉ cs := fun hc => hsym (hcs hc)
      simp [hc0, hfirst, hca, hcc]

theorem peek_true (hnul : '\x00' ∉ line) (cs : List Char) (hcs : cs ⊆ symbols)
    (h : toks line s = t :: ts) (ht : t.first ∈ cs) :
    ∃ s', peek line s cs = (true, s') ∧ toks line s' = t :: ts := by
  obtain ⟨s', hpeek, htoks⟩ := peek_eq hnul s hcs
  refine ⟨s', ?_, htoks.trans h⟩
  rw [hpeek, h]
  simp [ht]

theorem peek_false (hnul : '\x00' ∉ line) (cs : List Char) (hcs : cs ⊆ symbols)
    (h : ∀ t ∈ (toks line s).head?, t.first ∉ cs) :
    ∃ s', peek line s cs = (false, s') ∧ toks line s' = toks line s := by
  obtain ⟨s', hpeek, htoks⟩ := peek_eq hnul s hcs
  refine ⟨s', ?_, htoks⟩
  rw [hpeek]
  cases htoks' : toks line s with
  | nil => rfl
  | cons t ts =>
    have ht := h t (by rw [htoks']; rfl)
    simp [ht]

/-! ## Words -/

/-- The word that starts at the first of the pointers. -/
def word (line : List Char) (a : Span) : List Char := (line.drop a.1).takeWhile isWord

/-- The second pointer is behind the word. -/
def IsSpan (line : List Char) (a : Span) : Prop := a.2 = a.1 + (word line a).length

theorem gettoken_nil (h : toks line s = []) :
    ∃ a s', gettoken line s = ('\x00', a, s') ∧ toks line s' = [] := by
  rw [← toks_skip] at h
  have hnil : line.drop (skip line s) = [] := by
    obtain hnil | ⟨c, cs, hcons, hc⟩ := drop_skip line s
    · exact hnil
    · obtain ⟨t, ts, hlex, -⟩ := exists_lex hc cs
      rw [toks, hcons, hlex] at h
      cases h
  refine ⟨_, _, by rw [gettoken, deref_eq, hnil]; rfl, ?_⟩
  rw [toks_skip]
  exact h

/-- `gettoken` reads the next token. -/
theorem gettoken_cons (hnul : '\x00' ∉ line) (h : toks line s = t :: ts) :
    ∃ a s', gettoken line s = (t.kind, a, s') ∧ toks line s' = ts ∧
      ∀ w, t = .word w → IsSpan line a ∧ word line a = w := by
  rw [← toks_skip, toks] at h
  obtain hnil | ⟨c, cs, hcons, hc⟩ := drop_skip line s
  · rw [hnil, lex] at h
    cases h
  have hc0 : c ≠ '\x00' := by
    rintro rfl
    exact hnul (List.mem_of_mem_drop (hcons ▸ List.mem_cons_self))
  have hderef : deref line (skip line s) = c := by rw [deref_eq, hcons]; rfl
  have hdrop : line.drop (skip line s + 1) = cs := by rw [← List.drop_drop, hcons]; rfl
  have hderef' : deref line (skip line s + 1) = cs.head?.getD '\x00' := by rw [deref_eq, hdrop]
  rw [hcons, lex, if_neg hc] at h
  rw [gettoken, hderef]
  simp only [if_neg hc0, hderef']
  by_cases hgt : c = '>'
  · subst hgt
    rw [if_pos rfl] at h
    rw [if_neg (by decide), if_pos rfl]
    by_cases hhead : cs.head? = some '>'
    · rw [if_pos hhead] at h
      obtain ⟨rfl, rfl⟩ := List.cons.inj h
      rw [hhead, Option.getD_some, if_pos rfl]
      refine ⟨_, _, rfl, ?_, fun w => nofun⟩
      rw [toks_skip, toks, ← List.drop_drop (i := 1), hdrop, List.drop_one]
    · rw [if_neg hhead] at h
      obtain ⟨rfl, rfl⟩ := List.cons.inj h
      rw [if_neg fun hd => hhead ?_]
      · refine ⟨_, _, rfl, ?_, fun w => nofun⟩
        rw [toks_skip, toks, hdrop]
      · cases cs with
        | nil => exact absurd hd (by decide)
        | cons c cs => exact congrArg some hd
  · rw [if_neg hgt] at h
    cases hsym : symbol c with
    | some t' =>
      obtain ⟨-, hkind, hmem, hne⟩ := symbol_eq_some hsym
      rw [hsym] at h
      obtain ⟨rfl, rfl⟩ := List.cons.inj h
      rw [if_pos hmem]
      refine ⟨_, _, by rw [hkind], ?_, fun w hw => absurd hw (hne w)⟩
      rw [toks_skip, toks, hdrop]
    | none =>
      have hnot := symbol_eq_none hsym
      rw [hsym] at h
      obtain ⟨rfl, rfl⟩ := List.cons.inj h
      rw [if_neg hnot, if_neg hgt]
      have hword : isWord c = true := decide_eq_true ⟨hc, not_mem_symbols hgt hsym⟩
      have htake : word line (skip line s, 0) = c :: cs.takeWhile isWord := by
        rw [word, hcons, List.takeWhile_cons, if_pos hword]
      refine ⟨_, _, rfl, ?_, ?_⟩
      · rw [toks_skip, toks, drop_scan, hcons]
        exact congrArg lex (List.dropWhile_cons_of_pos hword)
      · rintro w ⟨⟩
        exact ⟨scan_eq, htake⟩

theorem Token.kind_eq_word (h : t.kind = 'a') : ∃ w, t = .word w := by
  cases t with
  | word w => exact ⟨w, rfl⟩
  | lt | gt | gtgt | pipe | amp | semi | lpar | rpar => exact absurd h (by decide)

/-- `gettoken` reads something else than a word. -/
theorem gettoken_ne_word (hnul : '\x00' ∉ line)
    (h : ∀ w, (toks line s).head? ≠ some (.word w)) : (gettoken line s).1 ≠ 'a' := by
  cases htoks : toks line s with
  | nil =>
    obtain ⟨a, s', hget, -⟩ := gettoken_nil htoks
    rw [hget]
    exact show '\x00' ≠ 'a' by decide
  | cons t ts =>
    obtain ⟨a, s', hget, -⟩ := gettoken_cons hnul htoks
    rw [hget]
    intro hkind
    obtain ⟨w, rfl⟩ := Token.kind_eq_word hkind
    exact h w (by rw [htoks]; rfl)

end Xv6.Sh
