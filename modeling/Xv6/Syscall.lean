import Xv6.Vm.Exec

/-!
# The arguments of system calls

A system call finds its arguments on the stack of the caller (`syscall.c`): words, pointers to
buffers, and strings. All of them are chosen by the caller, the stack pointer as well, and so they
are checked against the size of the process before the kernel reads them. `sys_exec` (`sysfile.c`)
reads a whole array of strings in this way.

A read of the kernel outside of the caller's memory is a fault, which ends the call. None of the
functions can cause one, and what they let pass is in the caller's memory (`args_inside`).
-/

namespace Xv6.Syscall

/-! ## The functions

`-1` is `none`.
-/

/-- What the functions know of the caller. -/
structure Proc where
  sz : UInt32
  /-- `tf->esp`. -/
  esp : UInt32
  mem : UInt32 → UInt8

/-- Why a call would not come back. -/
inductive Stop
  | fault (a : UInt32)
  | rounds
  deriving DecidableEq

section Caller

variable (p : Proc)

/-- Reads the byte at an address. -/
def load (a : UInt32) : Except Stop UInt8 := if a < p.sz then .ok (p.mem a) else .error (.fault a)

/-- `*(int*)(a)`. -/
def loadWord (a : UInt32) : Except Stop UInt32 := do
  let b₀ ← load p a
  let b₁ ← load p (a + 1)
  let b₂ ← load p (a + 2)
  let b₃ ← load p (a + 3)
  return b₀.toUInt32 ||| b₁.toUInt32 <<< 8 ||| b₂.toUInt32 <<< 16 ||| b₃.toUInt32 <<< 24

/-- The word at `addr`, if it is in the memory of the process. -/
def fetchint (addr : UInt32) : Except Stop (Option UInt32) :=
  if p.sz ≤ addr ∨ p.sz < addr + 4 then .ok none else some <$> loadWord p addr

/-- The loop of `fetchstr`, from `s` on. -/
def strlen (addr s : UInt32) : Except Stop (Option UInt32) :=
  if _h : s < p.sz then do
    if (← load p s) = 0 then return some (s - addr)
    else strlen addr (s + 1)
  else .ok none
termination_by p.sz.toNat - s.toNat
decreasing_by
  have hlt := UInt32.lt_iff_toNat_lt.1 _h
  have hsz := p.sz.toNat_lt
  rw [UInt32.toNat_add, UInt32.toNat_one]
  omega

/-- The length of the string. -/
def fetchstr (addr : UInt32) : Except Stop (Option UInt32) :=
    if p.sz ≤ addr then .ok none else strlen p addr addr

/-- Where the `n`-th argument is. -/
def argaddr (n : UInt32) : UInt32 := p.esp + 4 + 4 * n

/-- The argument `n` of a call. -/
def argint (n : UInt32) : Except Stop (Option UInt32) := fetchint p (argaddr p n)

/-- The argument `n`, if it points to `size` bytes. -/
def argptr (n : UInt32) (size : Int32) : Except Stop (Option UInt32) := do
  match ← argint p n with
  | none => return none
  | some i => if Vm.argptr p.sz i size then return some i else return none

/-- The string, and its length. -/
def argstr (n : UInt32) : Except Stop (Option (UInt32 × UInt32)) := do
  match ← argint p n with
  | none => return none
  | some addr => return (← fetchstr p addr).map fun k => (addr, k)

/-- The loop of `sys_exec`, with a bound on its rounds. -/
def execArgs (uargv : UInt32) : ℕ → ℕ → List UInt32 → Except Stop (Option (List UInt32))
  | k, i, argv =>
    if MAXARG ≤ i then .ok none
    else match k with
      | 0 => .error .rounds
      | k + 1 => do
        match ← fetchint p (uargv + 4 * .ofNat i) with
        | none => return none
        | some uarg =>
          if uarg = 0 then return some argv
          else match ← fetchstr p uarg with
            | none => return none
            | some _ => execArgs uargv k (i + 1) (argv ++ [uarg])

/-- What `sys_exec` passes to `exec`. -/
def sysExec (k : ℕ) : Except Stop (Option (UInt32 × List UInt32)) := do
  match ← argstr p 0 with
  | none => return none
  | some (path, _) =>
    match ← argint p 1 with
    | none => return none
    | some uargv => return (← execArgs p uargv k 0 []).map fun argv => (path, argv)

end Caller

/-! ## What they read -/

/-- There is a result, and it satisfies `P`. -/
def Returns {α : Type} (x : Except Stop α) (P : α → Prop) : Prop := ∃ r, x = .ok r ∧ P r

theorem Returns.bind {α β : Type} {x : Except Stop α} {f : α → Except Stop β} {P : α → Prop}
    {Q : β → Prop} (hx : Returns x P) (hf : ∀ r, P r → Returns (f r) Q) : Returns (x >>= f) Q := by
  obtain ⟨r, rfl, hr⟩ := hx
  exact hf r hr

theorem returns_ok {α : Type} {r : α} {P : α → Prop} (h : P r) :
    Returns (.ok r : Except Stop α) P :=
  ⟨r, rfl, h⟩

variable {p : Proc} {addr s i : UInt32}

theorem load_eq {a : UInt32} (h : a.toNat < p.sz.toNat) : load p a = .ok (p.mem a) :=
  if_pos (UInt32.lt_iff_toNat_lt.2 h)

theorem returns_loadWord (h : addr.toNat + 4 ≤ p.sz.toNat) :
    Returns (loadWord p addr) fun _ => True := by
  have hsz := p.sz.toNat_lt
  rw [loadWord, load_eq (by omega), load_eq (by rw [UInt32.toNat_add]; simp; omega),
    load_eq (by rw [UInt32.toNat_add]; simp; omega),
    load_eq (by rw [UInt32.toNat_add]; simp; omega)]
  exact returns_ok trivial

/-- A string of length `k` in the caller's memory. -/
structure Str (p : Proc) (addr k : UInt32) : Prop where
  inside : addr.toNat + k.toNat + 1 ≤ p.sz.toNat
  nul : p.mem (addr + k) = 0
  only : ∀ j < k.toNat, p.mem (addr + .ofNat j) ≠ 0

theorem returns_fetchint (hsz : p.sz ≤ KERNBASE) (addr : UInt32) :
    Returns (fetchint p addr) fun r => ∀ v, r = some v → addr.toNat + 4 ≤ p.sz.toNat := by
  have hsz := UInt32.le_iff_toNat_le.1 hsz
  rw [fetchint]
  split
  next => exact returns_ok fun v hv => by cases hv
  next h =>
    rw [not_or, UInt32.not_le, UInt32.not_lt, UInt32.lt_iff_toNat_lt, UInt32.le_iff_toNat_le,
      UInt32.toNat_add] at h
    have hin : addr.toNat + 4 ≤ p.sz.toNat := by
      have h4 : (4 : UInt32).toNat = 4 := rfl
      have hK : KERNBASE.toNat = 2 ^ 31 := rfl
      omega
    obtain ⟨v, hv, -⟩ := returns_loadWord hin
    exact ⟨some v, by rw [hv]; rfl, fun _ _ => hin⟩

/-- The loop has passed no NUL before `s`. -/
theorem returns_strlen (addr s : UInt32) (hle : addr.toNat ≤ s.toNat)
    (hpassed : ∀ j < s.toNat - addr.toNat, p.mem (addr + .ofNat j) ≠ 0) :
    Returns (strlen p addr s) fun r => ∀ k, r = some k → Str p addr k := by
  rw [strlen]
  split
  next hin =>
    have hlt := UInt32.lt_iff_toNat_lt.1 hin
    rw [load_eq hlt]
    have hsub : (s - addr).toNat = s.toNat - addr.toNat :=
      UInt32.toNat_sub_of_le _ _ (UInt32.le_iff_toNat_le.2 hle)
    have hs : addr + (s - addr) = s := by rw [UInt32.add_comm, UInt32.sub_add_cancel]
    change Returns (if p.mem s = 0 then _ else _) _
    split
    next hnul =>
      refine returns_ok fun k hk => ?_
      obtain rfl := Option.some.inj hk
      refine ⟨by omega, by rw [hs]; exact hnul, fun j hj => hpassed j (by omega)⟩
    next hne =>
      have hsucc : (s + 1).toNat = s.toNat + 1 := by
        have hsz := p.sz.toNat_lt
        rw [UInt32.toNat_add, UInt32.toNat_one]
        omega
      refine returns_strlen addr (s + 1) (by omega) fun j hj => ?_
      by_cases hlast : j = s.toNat - addr.toNat
      · rw [hlast, ← hsub, UInt32.ofNat_toNat, hs]
        exact hne
      · exact hpassed j (by omega)
  next => exact returns_ok fun k hk => by cases hk
termination_by p.sz.toNat - s.toNat
decreasing_by omega

theorem returns_fetchstr (p : Proc) (addr : UInt32) :
    Returns (fetchstr p addr) fun r => ∀ k, r = some k → Str p addr k := by
  rw [fetchstr]
  split
  next => exact returns_ok fun k hk => by cases hk
  next => exact returns_strlen addr addr le_rfl fun j hj => by omega

theorem returns_argptr (hsz : p.sz ≤ KERNBASE) (n : UInt32) (size : Int32) :
    Returns (argptr p n size) fun r => ∀ a, r = some a →
      0 ≤ size ∧ a.toNat + size.toNatClampNeg ≤ p.sz.toNat := by
  refine (returns_fetchint hsz _).bind fun r hr => ?_
  cases r with
  | none => exact returns_ok fun a h => by cases h
  | some i =>
    change Returns (if Vm.argptr p.sz i size then _ else _) _
    split
    next hpass =>
      refine returns_ok fun a ha => ?_
      obtain rfl := Option.some.inj ha
      obtain ⟨hpos, hi, hend⟩ : 0 ≤ size ∧ i < p.sz ∧ i + size.toUInt32 ≤ p.sz := by
        simpa [Vm.argptr, Int32.not_lt, UInt32.not_le, UInt32.not_lt] using hpass
      have hsz := UInt32.le_iff_toNat_le.1 hsz
      have hi := UInt32.lt_iff_toNat_lt.1 hi
      have hsize := size.toNatClampNeg_lt
      have hK : KERNBASE.toNat = 2 ^ 31 := rfl
      -- Neither of the two is above `KERNBASE`, so that their sum does not wrap.
      rw [UInt32.le_iff_toNat_le, UInt32.toNat_add, Int32.toNat_toUInt32_of_le hpos,
        Nat.mod_eq_of_lt (by omega)] at hend
      exact ⟨hpos, hend⟩
    next => exact returns_ok fun a h => by cases h

theorem returns_argstr (hsz : p.sz ≤ KERNBASE) (n : UInt32) :
    Returns (argstr p n) fun r => ∀ a k, r = some (a, k) → Str p a k := by
  refine (returns_fetchint hsz _).bind fun r hr => ?_
  cases r with
  | none => exact returns_ok fun a k h => by cases h
  | some addr =>
    refine (returns_fetchstr p addr).bind fun r hr => returns_ok fun a k h => ?_
    obtain ⟨k', hk', heq⟩ := Option.map_eq_some_iff.1 h
    obtain ⟨rfl, rfl⟩ := Prod.mk.inj heq
    exact hr _ hk'

/-- The loop of `sys_exec` ends, with as many rounds as there is room for arguments. -/
theorem returns_execArgs (hsz : p.sz ≤ KERNBASE) {uargv : UInt32} {k i : ℕ} {argv : List UInt32}
    (hk : MAXARG ≤ k + i) (hargv : ∀ a ∈ argv, ∃ n, Str p a n) :
    Returns (execArgs p uargv k i argv) fun r =>
      ∀ argv, r = some argv → ∀ a ∈ argv, ∃ n, Str p a n := by
  induction k generalizing i argv with
  | zero =>
    rw [execArgs, if_pos (by omega)]
    exact returns_ok fun _ h => by cases h
  | succ k ih =>
    rw [execArgs]
    split
    next => exact returns_ok fun _ h => by cases h
    next =>
      refine (returns_fetchint hsz _).bind fun r hr => ?_
      cases r with
      | none => exact returns_ok fun _ h => by cases h
      | some uarg =>
        change Returns (if uarg = 0 then _ else _) _
        split
        next => exact returns_ok fun argv' h => by rw [← Option.some.inj h]; exact hargv
        next =>
          refine (returns_fetchstr p uarg).bind fun r hr => ?_
          cases r with
          | none => exact returns_ok fun _ h => by cases h
          | some n =>
            refine ih (by omega) fun a ha => ?_
            rcases List.mem_append.1 ha with ha | ha
            · exact hargv a ha
            · rw [List.mem_singleton.1 ha]
              exact ⟨n, hr n rfl⟩

theorem returns_sysExec (hsz : p.sz ≤ KERNBASE) :
    Returns (sysExec p MAXARG) fun r => ∀ path argv, r = some (path, argv) →
      (∃ n, Str p path n) ∧ ∀ a ∈ argv, ∃ n, Str p a n := by
  refine (returns_argstr hsz 0).bind fun r hr => ?_
  cases r with
  | none => exact returns_ok fun _ _ h => by cases h
  | some path =>
    refine (returns_fetchint hsz _).bind fun r _ => ?_
    cases r with
    | none => exact returns_ok fun _ _ h => by cases h
    | some uargv =>
      refine (returns_execArgs hsz (by decide) (fun a ha => absurd ha List.not_mem_nil)).bind
        fun r hargs => returns_ok fun a argv h => ?_
      obtain ⟨argv', hargv', heq⟩ := Option.map_eq_some_iff.1 h
      obtain ⟨rfl, rfl⟩ := Prod.mk.inj heq
      exact ⟨⟨path.2, hr _ _ rfl⟩, hargs _ hargv'⟩

/-- What the functions let pass is in the caller's memory, and they read nothing outside of it,
    whatever the stack pointer and the contents of the memory are. -/
theorem args_inside (p : Proc) (hsz : p.sz ≤ KERNBASE) :
    (∀ n size, Returns (argptr p n size) fun r => ∀ a, r = some a →
      0 ≤ size ∧ a.toNat + size.toNatClampNeg ≤ p.sz.toNat) ∧
    (∀ addr, Returns (fetchint p addr) fun r => ∀ v, r = some v → addr.toNat + 4 ≤ p.sz.toNat) ∧
    (∀ n, Returns (argint p n) fun r => ∀ v, r = some v → (argaddr p n).toNat + 4 ≤ p.sz.toNat) ∧
    (∀ addr, Returns (fetchstr p addr) fun r => ∀ k, r = some k → Str p addr k) ∧
    (∀ n, Returns (argstr p n) fun r => ∀ a k, r = some (a, k) → Str p a k) ∧
    Returns (sysExec p MAXARG) fun r => ∀ path argv, r = some (path, argv) →
      (∃ n, Str p path n) ∧ ∀ a ∈ argv, ∃ n, Str p a n :=
  ⟨returns_argptr hsz, returns_fetchint hsz, fun _ => returns_fetchint hsz _, returns_fetchstr p,
    returns_argstr hsz, returns_sysExec hsz⟩

/-- A caller with the string `a` at address 16, and pointers to it at 0 and 4. -/
def oneString : Proc where
  sz := 4096
  esp := 0xfffffffc
  mem a := if a = 0 then 16 else if a = 4 then 8 else if a = 8 then 16 else if a = 16 then 97 else 0

/-- The stack pointer is near the end of the address space, so that the arguments are at 0 and 4. -/
theorem args_inside_oneString : sysExec oneString MAXARG = .ok (some (16, [16])) ∧
    ∃ n, Str oneString 16 n := by
  have hexec : sysExec oneString MAXARG = .ok (some (16, [16])) := by decide +kernel
  obtain ⟨-, -, -, -, -, r, hr, hargs⟩ := args_inside oneString (by decide)
  rw [hexec] at hr
  obtain rfl := Except.ok.inj hr
  exact ⟨hexec, (hargs 16 [16] rfl).1⟩

end Xv6.Syscall
