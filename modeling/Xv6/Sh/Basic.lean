import Mathlib.Data.List.Basic
import Xv6.Lib.Fuel

/-!
# The parser of the shell

A line is parsed to a tree of commands by recursive descent (`sh.c`). The line ends with a NUL,
which is not in the list of its characters, and a pointer into it is an index. The strings in the
tree are pointers to their first characters and behind their last ones, and `nulterminate` puts a
NUL behind each of them when all is parsed.

A function that recurses or loops has a bound on the depth and the rounds, and the result is `none`
when it takes more. `panic` ends the shell's child, so that it is a result like the tree.
-/

namespace Xv6.Sh

abbrev MAXARGS : ℕ := 10
abbrev O_RDONLY : ℕ := 0x000
abbrev O_WRONLY : ℕ := 0x001
abbrev O_CREATE : ℕ := 0x200

/-- `struct cmd`, with strings of type `σ`. -/
inductive Cmd (σ : Type*)
  | exec (argv : List σ)
  | redir (cmd : Cmd σ) (file : σ) (mode fd : ℕ)
  | pipe (left right : Cmd σ)
  | list (left right : Cmd σ)
  | back (cmd : Cmd σ)
  deriving DecidableEq

/-- The pointers to a string and behind it. -/
abbrev Span := ℕ × ℕ

/-- A message of `panic`, and what is printed before. -/
structure Panic where
  printed : List Char := []
  msg : String
  deriving DecidableEq

/-- What a function returns, if it does. -/
abbrev Res (α : Type) := Option (Except Panic α)

/-- The parser goes on with `a`. -/
def Res.ok {α : Type} (a : α) : Res α := some (.ok a)

/-- The parser panics. -/
def Res.panic {α : Type} (msg : String) : Res α := some (.error { msg := msg })

/-! ## Tokens -/

/-- The characters between tokens. -/
def whitespace : List Char := [' ', '\t', '\r', '\n', '\x0b']

/-- The characters that are tokens, or begin one. -/
def symbols : List Char := ['<', '|', '>', '&', ';', '(', ')']

section Line

variable (line : List Char)

/-- `*s`. -/
def deref (s : ℕ) : Char := line.getD s '\x00'

/-- `while(s < es && p(*s)) s++`, with the characters from `s` on. -/
def scan (p : Char → Bool) : List Char → ℕ → ℕ
  | [], s => s
  | c :: cs, s => if p c then scan p cs (s + 1) else s

/-- The position of the next character that is no whitespace. -/
def skip (s : ℕ) : ℕ := scan (· ∈ whitespace) (line.drop s) s

/-- The kind of the token, its pointers, and where the next one is. -/
def gettoken (s : ℕ) : Char × Span × ℕ :=
  let q := skip line s
  let c := deref line q
  let (ret, s) :=
    if c = '\x00' then (c, q)
    else if c ∈ ['|', '(', ')', ';', '&', '<'] then (c, q + 1)
    else if c = '>' then
      if deref line (q + 1) = '>' then ('+', q + 2) else (c, q + 1)
    else ('a', scan (fun c => c ∉ whitespace ∧ c ∉ symbols) (line.drop q) q)
  (ret, (q, s), skip line s)

/-- Whether the next character is one of `toks`, and where it is. -/
def peek (s : ℕ) (toks : List Char) : Bool × ℕ :=
  let s := skip line s
  (deref line s ≠ '\x00' ∧ deref line s ∈ toks, s)

/-! ## Commands -/

/-- `redircmd`, for the token `tok`. -/
def redircmd (cmd : Cmd Span) (tok : Char) (file : Span) : Cmd Span :=
  if tok = '<' then .redir cmd file O_RDONLY 0
  else if tok = '>' then .redir cmd file (O_WRONLY ||| O_CREATE) 1
  else if tok = '+' then .redir cmd file (O_WRONLY ||| O_CREATE) 1
  else cmd

/-- The redirections of a command, as long as there are any. -/
def parseredirs : ℕ → Cmd Span → ℕ → Res (Cmd Span × ℕ)
  | 0, _, _ => none
  | k + 1, cmd, s =>
    let (more, s) := peek line s ['<', '>']
    if more then
      let (tok, _, s) := gettoken line s
      let (tok', file, s) := gettoken line s
      if tok' ≠ 'a' then Res.panic "missing file for redirection"
      else parseredirs k (redircmd cmd tok file) s
    else Res.ok (cmd, s)

/-- `cmd->argv[argc] = q`, where `cmd` is the command inside of the redirections. -/
def Cmd.addArg {σ : Type*} (a : σ) : Cmd σ → Cmd σ
  | .exec argv => .exec (argv ++ [a])
  | .redir cmd file mode fd => .redir (cmd.addArg a) file mode fd
  | cmd => cmd

/-- The loop of `parseexec`. -/
def parseargs : ℕ → ℕ → Cmd Span → ℕ → Res (Cmd Span × ℕ)
  | 0, _, _, _ => none
  | k + 1, argc, ret, s =>
    let (stop, s) := peek line s ['|', ')', '&', ';']
    if stop then Res.ok (ret, s)
    else
      let (tok, a, s) := gettoken line s
      if tok = '\x00' then Res.ok (ret, s)
      else if tok ≠ 'a' then Res.panic "syntax"
      else if MAXARGS ≤ argc + 1 then Res.panic "too many args"
      else andThen (parseredirs line k (ret.addArg a) s) fun (ret, s) => parseargs k
        (argc + 1) ret s

/-- The loop of `parseline`. -/
def parsebacks : ℕ → Cmd Span → ℕ → Res (Cmd Span × ℕ)
  | 0, _, _ => none
  | k + 1, cmd, s =>
    let (more, s) := peek line s ['&']
    if more then
      let (_, _, s) := gettoken line s
      parsebacks k (.back cmd) s
    else Res.ok (cmd, s)

mutual

/-- A line: a pipe, some `&`, and another line behind a `;`. -/
def parseline : ℕ → ℕ → Res (Cmd Span × ℕ)
  | 0, _ => none
  | k + 1, s =>
    andThen (parsepipe k s) fun (cmd, s) =>
    andThen (parsebacks line k cmd s) fun (cmd, s) =>
    let (more, s) := peek line s [';']
    if more then
      let (_, _, s) := gettoken line s
      andThen (parseline k s) fun (right, s) => Res.ok (.list cmd right, s)
    else Res.ok (cmd, s)
termination_by structural k => k

/-- A pipe: a command, and another pipe behind a `|`. -/
def parsepipe : ℕ → ℕ → Res (Cmd Span × ℕ)
  | 0, _ => none
  | k + 1, s =>
    andThen (parseexec k s) fun (cmd, s) =>
    let (more, s) := peek line s ['|']
    if more then
      let (_, _, s) := gettoken line s
      andThen (parsepipe k s) fun (right, s) => Res.ok (.pipe cmd right, s)
    else Res.ok (cmd, s)
termination_by structural k => k

/-- A line in parentheses, and its redirections. -/
def parseblock : ℕ → ℕ → Res (Cmd Span × ℕ)
  | 0, _ => none
  | k + 1, s =>
    let (opens, s) := peek line s ['(']
    if !opens then Res.panic "parseblock"
    else
      let (_, _, s) := gettoken line s
      andThen (parseline k s) fun (cmd, s) =>
      let (closes, s) := peek line s [')']
      if !closes then Res.panic "syntax - missing )"
      else
        let (_, _, s) := gettoken line s
        parseredirs line k cmd s
termination_by structural k => k

/-- A block, or a command with its arguments. -/
def parseexec : ℕ → ℕ → Res (Cmd Span × ℕ)
  | 0, _ => none
  | k + 1, s =>
    let (opens, s) := peek line s ['(']
    if opens then parseblock k s
    else andThen (parseredirs line k (.exec []) s) fun (ret, s) => parseargs line k 0 ret s
termination_by structural k => k

end

end Line

/-- The line with a NUL behind each string of the command. -/
def nulterminate : Cmd Span → List Char → List Char
  | .exec argv, line => argv.foldl (fun line a => line.set a.2 '\x00') line
  | .redir cmd file _ _, line => (nulterminate cmd line).set file.2 '\x00'
  | .pipe left right, line => nulterminate right (nulterminate left line)
  | .list left right, line => nulterminate right (nulterminate left line)
  | .back cmd, line => nulterminate cmd line

/-- The tree, and the line that its strings are in. -/
def parsecmd (k : ℕ) (line : List Char) : Res (Cmd Span × List Char) :=
  andThen (parseline line k 0) fun (cmd, s) =>
  let (_, s) := peek line s []
  if s ≠ line.length then
    some (.error { printed := "leftovers: ".toList ++ line.drop s ++ ['\n'], msg := "syntax" })
  else Res.ok (cmd, nulterminate cmd line)

end Xv6.Sh
