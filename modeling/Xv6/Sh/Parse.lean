import Xv6.Sh.Grammar

/-!
# The parser follows the grammar

Every function of the parser halts, and when it does not panic, it has read the tokens of a
derivation and returns its tree (`halts_parseline`). Where a derivation is followed by a token that
may come after it (`Follows`), the function reads the derivation and nothing else (`Derives.halts`).
-/

namespace Xv6.Sh

variable {line : List Char} {c cmd ret : Cmd Span} {s s' k argc : ℕ} {t : Token}
  {ts us r : List Token} {ws : List (List Char)} {rs : List Redir}
  {x : Except Panic (Cmd Span × ℕ)}

/-! ## Trees -/

/-- The tree with other strings. -/
def Cmd.map {σ τ : Type*} (f : σ → τ) : Cmd σ → Cmd τ
  | .exec argv => .exec (argv.map f)
  | .redir cmd file mode fd => .redir (cmd.map f) (f file) mode fd
  | .pipe left right => .pipe (left.map f) (right.map f)
  | .list left right => .list (left.map f) (right.map f)
  | .back cmd => .back (cmd.map f)

/-- All strings of the tree satisfy `P`. -/
def Cmd.All {σ : Type*} (P : σ → Prop) : Cmd σ → Prop
  | .exec argv => ∀ a ∈ argv, P a
  | .redir cmd file _ _ => cmd.All P ∧ P file
  | .pipe left right | .list left right => left.All P ∧ right.All P
  | .back cmd => cmd.All P

theorem Cmd.map_addArg {σ τ : Type*} (f : σ → τ) (a : σ) (c : Cmd σ) :
    (c.addArg a).map f = (c.map f).addArg (f a) := by
  induction c with
  | exec argv => simp [Cmd.addArg, Cmd.map]
  | redir c file mode fd ih => simp [Cmd.addArg, Cmd.map, ih]
  | pipe | list | back => rfl

theorem Cmd.All.addArg {σ : Type*} {P : σ → Prop} {a : σ} {c : Cmd σ} (h : c.All P) (ha : P a) :
    (c.addArg a).All P := by
  induction c with
  | exec argv =>
    intro b hb
    rcases List.mem_append.1 hb with hb | hb
    · exact h b hb
    · exact List.mem_singleton.1 hb ▸ ha
  | redir c file mode fd ih => exact ⟨ih h.1, h.2⟩
  | pipe | list | back => exact h

theorem Cmd.addArg_redirs (w : List Char) (c : Cmd (List Char)) (rs : List Redir) :
    (c.redirs rs).addArg w = (c.addArg w).redirs rs := by
  induction rs generalizing c with
  | nil => rfl
  | cons r rs ih => exact ih _

theorem Cmd.redirs_append (c : Cmd (List Char)) (rs rs' : List Redir) :
    c.redirs (rs ++ rs') = (c.redirs rs).redirs rs' := List.foldl_append

/-! ## Bounds -/

section Stable

variable (line : List Char)

theorem stable_parseredirs (cmd : Cmd Span) (s : ℕ) : Stable (parseredirs line · cmd s) := by
  refine stable_of_succ fun k x h => ?_
  induction k generalizing cmd s with
  | zero => cases h
  | succ k ih =>
    rw [parseredirs] at h ⊢
    dsimp only at h ⊢
    split_ifs at h ⊢
    · exact h
    · exact ih _ _ h
    · exact h

theorem stable_parseargs (argc : ℕ) (ret : Cmd Span) (s : ℕ) :
    Stable (parseargs line · argc ret s) := by
  refine stable_of_succ fun k x h => ?_
  induction k generalizing argc ret s x with
  | zero => cases h
  | succ k ih =>
    rw [parseargs] at h ⊢
    dsimp only at h ⊢
    split_ifs at h ⊢
    · exact h
    · exact h
    · exact h
    · exact h
    · exact andThen_imp (fun _ => stable_parseredirs line _ _ (Nat.le_succ k))
        (fun _ _ => ih _ _ _ _) h

theorem stable_parsebacks (cmd : Cmd Span) (s : ℕ) : Stable (parsebacks line · cmd s) := by
  refine stable_of_succ fun k x h => ?_
  induction k generalizing cmd s with
  | zero => cases h
  | succ k ih =>
    rw [parsebacks] at h ⊢
    dsimp only at h ⊢
    split_ifs at h ⊢
    · exact ih _ _ h
    · exact h

/-- The functions that call each other. -/
theorem parse_succ (k : ℕ) :
    (∀ s x, parseline line k s = some x → parseline line (k + 1) s = some x) ∧
    (∀ s x, parsepipe line k s = some x → parsepipe line (k + 1) s = some x) ∧
    (∀ s x, parseblock line k s = some x → parseblock line (k + 1) s = some x) ∧
    ∀ s x, parseexec line k s = some x → parseexec line (k + 1) s = some x := by
  induction k with
  | zero =>
    refine ⟨fun _ _ h => ?_, fun _ _ h => ?_, fun _ _ h => ?_, fun _ _ h => ?_⟩ <;> cases h
  | succ k ih =>
    obtain ⟨ihline, ihpipe, ihblock, ihexec⟩ := ih
    refine ⟨fun s x h => ?_, fun s x h => ?_, fun s x h => ?_, fun s x h => ?_⟩
    · rw [parseline] at h ⊢
      refine andThen_imp (ihpipe s) (fun a y h => ?_) h
      refine andThen_imp (fun _ => stable_parsebacks line _ _ (Nat.le_succ k)) (fun b z h => ?_) h
      dsimp only at h ⊢
      split_ifs at h ⊢
      · exact andThen_imp (ihline _) (fun _ _ h => h) h
      · exact h
    · rw [parsepipe] at h ⊢
      refine andThen_imp (ihexec s) (fun a y h => ?_) h
      dsimp only at h ⊢
      split_ifs at h ⊢
      · exact andThen_imp (ihpipe _) (fun _ _ h => h) h
      · exact h
    · rw [parseblock] at h ⊢
      dsimp only at h ⊢
      split_ifs at h ⊢
      · exact h
      · refine andThen_imp (ihline _) (fun a y h => ?_) h
        split_ifs at h ⊢
        · exact h
        · exact stable_parseredirs line _ _ (Nat.le_succ k) h
    · rw [parseexec] at h ⊢
      dsimp only at h ⊢
      split_ifs at h ⊢
      · exact ihblock _ _ h
      · exact andThen_imp (fun _ => stable_parseredirs line _ _ (Nat.le_succ k))
          (fun _ _ => stable_parseargs line _ _ _ (Nat.le_succ k)) h

theorem stable_parseline (s : ℕ) : Stable (parseline line · s) :=
  stable_of_succ fun k => (parse_succ line k).1 s

theorem stable_parsepipe (s : ℕ) : Stable (parsepipe line · s) :=
  stable_of_succ fun k => (parse_succ line k).2.1 s

theorem stable_parseexec (s : ℕ) : Stable (parseexec line · s) :=
  stable_of_succ fun k => (parse_succ line k).2.2.2 s

end Stable

/-! ## Redirections -/

theorem head_cases (ts : List Token) (cs : List Char) :
    (∀ t ∈ ts.head?, t.first ∉ cs) ∨ ∃ t us, ts = t :: us ∧ t.first ∈ cs := by
  cases ts with
  | nil => exact .inl (by simp)
  | cons t us =>
    by_cases ht : t.first ∈ cs
    · exact .inr ⟨t, us, rfl, ht⟩
    · exact .inl (by rintro _ ⟨⟩; exact ht)

theorem word_cases (ts : List Token) :
    (∀ w, ts.head? ≠ some (.word w)) ∨ ∃ w us, ts = .word w :: us := by
  cases ts with
  | nil => exact .inl fun _ => nofun
  | cons t us =>
    cases t with
    | word w => exact .inr ⟨w, us, rfl⟩
    | lt | gt | gtgt | pipe | amp | semi | lpar | rpar => exact .inl fun _ => nofun

/-- The result has the property, unless it is an error. -/
def Safe (P : Cmd Span → ℕ → Prop) : Except Panic (Cmd Span × ℕ) → Prop
  | .ok (c, s) => P c s
  | .error _ => True

/-- The result is not an error, and has the property. -/
def Ok (P : Cmd Span → ℕ → Prop) : Except Panic (Cmd Span × ℕ) → Prop
  | .ok (c, s) => P c s
  | .error _ => False

theorem exists_mode (ht : t.first ∈ ['<', '>']) : ∃ mode fd, t.mode = some (mode, fd) := by
  cases t with
  | lt | gt | gtgt => exact ⟨_, _, rfl⟩
  | word => exact absurd ht (show 'a' ∉ ['<', '>'] by decide)
  | pipe | amp | semi | lpar | rpar => exact absurd ht (by decide)

theorem redircmd_eq {mode fd : ℕ} (cmd : Cmd Span) (ht : t.mode = some (mode, fd)) :
    t.first ∈ ['<', '>'] ∧ ∀ a, redircmd cmd t.kind a = .redir cmd a mode fd := by
  cases t with
  | lt | gt | gtgt =>
    obtain ⟨rfl, rfl⟩ := Prod.mk.inj (Option.some.inj ht)
    exact ⟨by decide, fun _ => rfl⟩
  | word | pipe | amp | semi | lpar | rpar => cases ht

theorem notMem_of_all {cs ds : List Char} {c : Char} (h : cs.all (· ∉ ds)) (hc : c ∈ cs) :
    c ∉ ds :=
  of_decide_eq_true (List.all_eq_true.1 h c hc)

/-- What the tokens after a derivation may start with. -/
def follow : Nonterminal → List Char
  | .line => [')']
  | .pipe => [')', '&', ';']
  | .cmd => ['|', ')', '&', ';']

/-- The tokens `r` may come behind the nonterminal. -/
def Follows (nt : Nonterminal) (r : List Token) : Prop := ∀ t ∈ r.head?, t.first ∈ follow nt

theorem Args.first (hus : Args us ws rs) (hr : Follows .cmd r) :
    ∀ t ∈ (us ++ r).head?, t.first ∈ 'a' :: follow .cmd := by
  cases hus with
  | nil => exact fun t ht => List.mem_cons_of_mem _ (hr t ht)
  | cons =>
    rintro _ ⟨⟩
    exact List.mem_cons_self

theorem Redirs.first {cs : List Char} (hus : Redirs us rs) (hr : ∀ t ∈ r.head?, t.first ∈ cs) :
    ∀ t ∈ (us ++ r).head?, t.first ∈ '<' :: '>' :: cs := by
  cases hus with
  | nil => exact fun t ht => List.mem_cons_of_mem _ (List.mem_cons_of_mem _ (hr t ht))
  | cons hmode =>
    rintro _ ⟨⟩
    exact List.mem_append_left cs (redircmd_eq (.exec []) hmode).1

section

variable (hnul : '\x00' ∉ line)
include hnul

theorem parseredirs_stop (cmd : Cmd Span) (h : ∀ t ∈ (toks line s).head?, t.first ∉ ['<', '>']) :
    ∃ s', (∀ k, parseredirs line (k + 1) cmd s = Res.ok (cmd, s')) ∧
      toks line s' = toks line s := by
  obtain ⟨s', hpeek, htoks⟩ := peek_false hnul ['<', '>'] (by decide) h
  refine ⟨s', fun k => ?_, htoks⟩
  rw [parseredirs, hpeek]
  rfl

theorem parseredirs_word {w : List Char} (cmd : Cmd Span) (h : toks line s = t :: .word w :: ts)
    (ht : t.first ∈ ['<', '>']) :
    ∃ a s', (∀ k, parseredirs line (k + 1) cmd s = parseredirs line k (redircmd cmd t.kind a) s') ∧
      toks line s' = ts ∧ IsSpan line a ∧ word line a = w := by
  obtain ⟨s₁, hpeek, h₁⟩ := peek_true hnul ['<', '>'] (by decide) h ht
  obtain ⟨_, s₂, hget, h₂, -⟩ := gettoken_cons hnul h₁
  obtain ⟨a, s₃, hget', h₃, ha⟩ := gettoken_cons hnul h₂
  refine ⟨a, s₃, fun k => ?_, h₃, ha w rfl⟩
  rw [parseredirs, hpeek]
  dsimp only
  rw [hget]
  dsimp only
  rw [hget']
  rfl

theorem parseredirs_panic (h : toks line s = t :: ts) (ht : t.first ∈ ['<', '>'])
    (hts : ∀ w, ts.head? ≠ some (.word w)) :
    ∀ k, parseredirs line (k + 1) cmd s = Res.panic "missing file for redirection" := by
  intro k
  obtain ⟨s₁, hpeek, h₁⟩ := peek_true hnul ['<', '>'] (by decide) h ht
  obtain ⟨_, s₂, hget, h₂, -⟩ := gettoken_cons hnul h₁
  have hne : (gettoken line s₂).1 ≠ 'a' := gettoken_ne_word hnul (by rwa [h₂])
  rw [parseredirs, hpeek]
  dsimp only
  rw [hget]
  exact if_pos hne

/-- What `parseredirs` does: it reads the redirections. -/
theorem halts_parseredirs (cmd : Cmd Span) (s : ℕ) :
    Halts (parseredirs line · cmd s) (Safe fun c s' =>
    ∃ us rs, toks line s = us ++ toks line s' ∧ Redirs us rs ∧
      c.map (word line) = (cmd.map (word line)).redirs rs ∧
      (cmd.All (IsSpan line) → c.All (IsSpan line)) ∧
      ∀ t ∈ (toks line s').head?, t.first ∉ ['<', '>']) := by
  induction hn : (toks line s).length using Nat.strongRecOn generalizing cmd s with
  | _ n ih =>
    obtain hstop | ⟨t, ts, htoks, ht⟩ := head_cases (toks line s) ['<', '>']
    · obtain ⟨s', hk, htoks⟩ := parseredirs_stop hnul cmd hstop
      refine halts_of_eq 1 (hk 0) ⟨[], [], htoks.symm, .nil, rfl, id, ?_⟩
      rwa [htoks]
    · obtain hword | ⟨w, us, rfl⟩ := word_cases ts
      · exact halts_of_eq 1 (parseredirs_panic hnul htoks ht hword 0) trivial
      · obtain ⟨a, s₁, hk, h₁, ha, hw⟩ := parseredirs_word hnul cmd htoks ht
        obtain ⟨mode, fd, hmode⟩ := exists_mode ht
        have hlt : (toks line s₁).length < n := by
          rw [← hn, htoks, h₁, List.length_cons, List.length_cons]
          omega
        refine ((ih _ hlt (redircmd cmd t.kind a) s₁ rfl).imp ?_).succ hk
        rintro (e | ⟨c, s'⟩) h
        · trivial
        · obtain ⟨vs, rs, hvs, hrs, hmap, hall, hnext⟩ := h
          rw [(redircmd_eq cmd hmode).2] at hmap hall
          refine ⟨t :: .word w :: vs, ⟨w, mode, fd⟩ :: rs, ?_, .cons hmode hrs, ?_,
            fun h => hall ⟨h, ha⟩, hnext⟩
          · rw [htoks, ← h₁, hvs]
            rfl
          · rw [hmap, ← hw]
            rfl

theorem Redirs.halts (hus : Redirs us rs) (cmd : Cmd Span) (h : toks line s = us ++ r)
    (hr : ∀ t ∈ r.head?, t.first ∉ ['<', '>']) :
    Halts (parseredirs line · cmd s) (Ok fun c s' =>
      toks line s' = r ∧ c.map (word line) = (cmd.map (word line)).redirs rs) := by
  induction hus generalizing cmd s with
  | nil =>
    have h : toks line s = r := h
    obtain ⟨s', hk, htoks⟩ := parseredirs_stop hnul cmd (by rwa [h])
    exact halts_of_eq 1 (hk 0) ⟨htoks.trans h, rfl⟩
  | cons hmode hus ih =>
    obtain ⟨ht, hredir⟩ := redircmd_eq cmd hmode
    obtain ⟨a, s₁, hk, h₁, -, rfl⟩ := parseredirs_word hnul cmd h ht
    rw [hredir] at hk
    exact (ih (.redir cmd a _ _) h₁).succ hk

/-! ## Arguments -/

theorem parseargs_stop (argc : ℕ) (ret : Cmd Span) (h : Follows .cmd (toks line s)) :
    ∃ s', (∀ k, parseargs line (k + 1) argc ret s = Res.ok (ret, s')) ∧
      toks line s' = toks line s := by
  cases htoks : toks line s with
  | nil =>
    obtain ⟨s₁, hpeek, h₁⟩ := peek_false (s := s) hnul ['|', ')', '&', ';'] (by decide)
      (by simp [htoks])
    obtain ⟨a, s₂, hget, h₂⟩ := gettoken_nil (h₁.trans htoks)
    refine ⟨s₂, fun k => ?_, h₂⟩
    rw [parseargs, hpeek]
    dsimp only
    rw [hget]
    rfl
  | cons t ts =>
    obtain ⟨s₁, hpeek, h₁⟩ := peek_true hnul ['|', ')', '&', ';'] (by decide) htoks
      (h t (by rw [htoks]; rfl))
    refine ⟨s₁, fun k => ?_, h₁⟩
    rw [parseargs, hpeek]
    rfl

theorem parseargs_word {w : List Char} (argc : ℕ) (ret : Cmd Span)
    (h : toks line s = .word w :: ts) :
    ∃ a s', (∀ k, parseargs line (k + 1) argc ret s =
        if MAXARGS ≤ argc + 1 then Res.panic "too many args"
        else andThen (parseredirs line k (ret.addArg a) s') fun (ret, s) =>
          parseargs line k (argc + 1) ret s) ∧
      toks line s' = ts ∧ IsSpan line a ∧ word line a = w := by
  obtain ⟨s₁, hpeek, h₁⟩ := peek_false (s := s) hnul ['|', ')', '&', ';'] (by decide)
    (by rw [h]; rintro _ ⟨⟩; exact show 'a' ∉ _ by decide)
  obtain ⟨a, s₂, hget, h₂, ha⟩ := gettoken_cons hnul (h₁.trans h)
  refine ⟨a, s₂, fun k => ?_, h₂, ha w rfl⟩
  rw [parseargs, hpeek]
  dsimp only
  rw [hget]
  rfl

theorem parseargs_panic (h : ¬Follows .cmd (toks line s))
    (hword : ∀ w, (toks line s).head? ≠ some (.word w)) :
    ∀ k, parseargs line (k + 1) argc ret s = Res.panic "syntax" := by
  intro k
  obtain ⟨t, ts, htoks, ht⟩ : ∃ t ts, toks line s = t :: ts ∧ t.first ∉ follow .cmd := by
    cases htoks : toks line s with
    | nil => exact absurd (by rw [htoks]; exact fun _ => nofun) h
    | cons t ts => exact ⟨t, ts, rfl, fun ht => h (by rw [htoks]; rintro _ ⟨⟩; exact ht)⟩
  obtain ⟨s₁, hpeek, h₁⟩ := peek_false (s := s) hnul ['|', ')', '&', ';'] (by decide)
    (by rw [htoks]; rintro _ ⟨⟩; exact ht)
  obtain ⟨a, s₂, hget, -⟩ := gettoken_cons hnul (h₁.trans htoks)
  have hkind : t.kind ≠ '\x00' ∧ t.kind ≠ 'a' := by
    cases t with
    | word w => exact absurd (by rw [htoks]; rfl) (hword w)
    | lt | gt | gtgt | pipe | amp | semi | lpar | rpar => decide
  rw [parseargs, hpeek]
  dsimp only
  rw [hget]
  exact (if_neg hkind.1).trans (if_pos hkind.2)

/-- The loop of `parseexec` reads the other arguments of the command `ret`. -/
theorem halts_parseargs {ws₀ : List (List Char)} {rs₀ : List Redir} (ret : Cmd Span) (s : ℕ)
    (hret : ret.map (word line) = (Cmd.exec ws₀).redirs rs₀) (hlt : ws₀.length < MAXARGS) :
    Halts (parseargs line · ws₀.length ret s) (Safe fun c s' => ∃ us ws rs,
      toks line s = us ++ toks line s' ∧ Args us ws rs ∧ (ws₀ ++ ws).length < MAXARGS ∧
      c.map (word line) = (Cmd.exec (ws₀ ++ ws)).redirs (rs₀ ++ rs) ∧
      (ret.All (IsSpan line) → c.All (IsSpan line)) ∧ Follows .cmd (toks line s')) := by
  induction hn : (toks line s).length using Nat.strongRecOn generalizing ws₀ rs₀ ret s with
  | _ n ih =>
    by_cases hstop : Follows .cmd (toks line s)
    · obtain ⟨s', hk, htoks⟩ := parseargs_stop hnul ws₀.length ret hstop
      refine halts_of_eq 1 (hk 0) ⟨[], [], [], htoks.symm, .nil, by simpa using hlt, ?_, id, ?_⟩
      · simpa using hret
      · rwa [htoks]
    obtain hword | ⟨w, ts, htoks⟩ := word_cases (toks line s)
    · exact halts_of_eq 1 (parseargs_panic hnul hstop hword 0) trivial
    · obtain ⟨a, s₁, hk, h₁, ha, rfl⟩ :=
        parseargs_word hnul ws₀.length ret htoks
      by_cases hmany : MAXARGS ≤ ws₀.length + 1
      · exact halts_of_eq 1 ((hk 0).trans (if_pos hmany)) trivial
      simp only [if_neg hmany] at hk
      refine Halts.succ (Halts.andThen (halts_parseredirs hnul (ret.addArg a) s₁)
        (stable_parseredirs line _ _) (fun _ => stable_parseargs line _ _ _) ?_ fun _ h => h) hk
      rintro ⟨ret', s₂⟩ ⟨us, rs, h₂, hus, hmap, hall, -⟩
      have hret' : ret'.map (word line) = (Cmd.exec (ws₀ ++ [word line a])).redirs (rs₀ ++ rs) := by
        rw [hmap, Cmd.map_addArg, hret, Cmd.addArg_redirs, Cmd.redirs_append]
        rfl
      have hlt' : (toks line s₂).length < n := by
        rw [← hn, htoks, ← h₁, h₂, List.length_cons, List.length_append]
        omega
      have hlen : (ws₀ ++ [word line a]).length = ws₀.length + 1 := List.length_append
      have h := ih _ hlt' ret' s₂ hret' (by rw [hlen]; exact Nat.not_le.1 hmany) rfl
      rw [hlen] at h
      refine h.imp ?_
      rintro (e | ⟨c, s'⟩) h
      · trivial
      · obtain ⟨vs, ws, rs', h₃, hvs, hws, hc, hall', hf⟩ := h
        refine ⟨.word (word line a) :: us ++ vs, word line a :: ws, rs ++ rs', ?_, .cons hus hvs,
          ?_,
          ?_, fun h => hall' (hall (h.addArg ha)), hf⟩
        · rw [htoks, ← h₁, h₂, h₃, List.cons_append, List.cons_append, List.append_assoc]
        · simpa using hws
        · simpa using hc

theorem Args.halts {ws₀ : List (List Char)} {rs₀ : List Redir} (hus : Args us ws rs)
    (ret : Cmd Span) (h : toks line s = us ++ r) (hr : Follows .cmd r)
    (hret : ret.map (word line) = (Cmd.exec ws₀).redirs rs₀) (hlt : (ws₀ ++ ws).length < MAXARGS) :
    Halts (parseargs line · ws₀.length ret s) (Ok fun c s' => toks line s' = r ∧
      c.map (word line) = (Cmd.exec (ws₀ ++ ws)).redirs (rs₀ ++ rs)) := by
  induction hus generalizing ws₀ rs₀ ret s with
  | nil =>
    have h : toks line s = r := h
    obtain ⟨s', hk, htoks⟩ := parseargs_stop hnul ws₀.length ret (by rwa [h])
    exact halts_of_eq 1 (hk 0) ⟨htoks.trans h, by simpa using hret⟩
  | @cons w ts rs us ws rs' hts hus ih =>
    rw [List.cons_append, List.cons_append, List.append_assoc] at h
    obtain ⟨a, s₁, hk, h₁, -, rfl⟩ := parseargs_word hnul ws₀.length ret h
    have hmany : ¬MAXARGS ≤ ws₀.length + 1 := by
      simp only [List.length_append, List.length_cons] at hlt
      omega
    simp only [if_neg hmany] at hk
    have hnext : ∀ t ∈ (us ++ r).head?, t.first ∉ ['<', '>'] := fun t ht =>
      notMem_of_all (by decide) (hus.first hr t ht)
    refine Halts.succ (Halts.andThen (hts.halts hnul (ret.addArg a) h₁ hnext)
      (stable_parseredirs line _ _) (fun _ => stable_parseargs line _ _ _) ?_ fun _ h => h.elim) hk
    rintro ⟨ret', s₂⟩ ⟨h₂, hmap⟩
    have hret' : ret'.map (word line) = (Cmd.exec (ws₀ ++ [word line a])).redirs (rs₀ ++ rs) := by
      rw [hmap, Cmd.map_addArg, hret, Cmd.addArg_redirs, Cmd.redirs_append]
      rfl
    have hlen : (ws₀ ++ [word line a]).length = ws₀.length + 1 := List.length_append
    have h := ih ret' h₂ hret' (by simpa using hlt)
    rw [hlen] at h
    simpa using h

/-! ## Lines -/

/-- The loop of `parseline`. -/
theorem halts_parsebacks {n : ℕ} (cmd : Cmd Span) (h : toks line s = List.replicate n .amp ++ r)
    (hr : ∀ t ∈ r.head?, t.first ∉ ['&']) :
    Halts (parsebacks line · cmd s) (Ok fun c s' => toks line s' = r ∧ c = Cmd.back^[n] cmd) := by
  induction n generalizing cmd s with
  | zero =>
    have h : toks line s = r := h
    obtain ⟨s', hpeek, htoks⟩ := peek_false (s := s) hnul ['&'] (by decide) (by rwa [h])
    refine halts_of_eq (x := .ok (cmd, s')) 1 ?_ ⟨htoks.trans h, rfl⟩
    rw [parsebacks, hpeek]
    rfl
  | succ n ih =>
    obtain ⟨s₁, hpeek, h₁⟩ := peek_true hnul ['&'] (by decide) h (by decide)
    obtain ⟨a, s₂, hget, h₂, -⟩ := gettoken_cons hnul h₁
    refine (ih (.back cmd) h₂).succ fun k => ?_
    rw [parsebacks, hpeek]
    dsimp only
    rw [hget]
    rfl

end

/-- The end of `parsepipe` and of `parseline`: the symbol `c` and what `parse` reads after it, or
    nothing. -/
def rest (line : List Char) (c : Char) (parse : ℕ → ℕ → Res (Cmd Span × ℕ))
    (mk : Cmd Span → Cmd Span → Cmd Span) (k : ℕ) (r : Cmd Span × ℕ) : Res (Cmd Span × ℕ) :=
  let (more, s) := peek line r.2 [c]
  if more then
    let (_, _, s) := gettoken line s
    andThen (parse k s) fun (right, s) => Res.ok (mk r.1 right, s)
  else Res.ok (r.1, s)

/-- `parseblock`, after its line. -/
def blockEnd (line : List Char) (k : ℕ) (r : Cmd Span × ℕ) : Res (Cmd Span × ℕ) :=
  let (closes, s) := peek line r.2 [')']
  if !closes then Res.panic "syntax - missing )"
  else
    let (_, _, s) := gettoken line s
    parseredirs line k r.1 s

theorem parsepipe_succ : parsepipe line (k + 1) s =
    andThen (parseexec line k s) (rest line '|' (parsepipe line) .pipe k) := rfl

theorem parseline_succ : parseline line (k + 1) s = andThen (parsepipe line k s) fun r =>
    andThen (parsebacks line k r.1 r.2) (rest line ';' (parseline line) .list k) := rfl

section Ends

variable {sym : Char} {parse : ℕ → ℕ → Res (Cmd Span × ℕ)} {mk : Cmd Span → Cmd Span → Cmd Span}

theorem stable_rest (hparse : ∀ s, Stable (parse · s)) (a : Cmd Span × ℕ) :
    Stable (rest line sym parse mk · a) := by
  intro k j x hkj h
  dsimp only [rest] at h ⊢
  split_ifs at h ⊢
  · exact andThen_imp (fun _ => hparse _ hkj) (fun _ _ h => h) h
  · exact h

theorem stable_blockEnd (a : Cmd Span × ℕ) : Stable (blockEnd line · a) := by
  intro k j x hkj h
  dsimp only [blockEnd] at h ⊢
  split_ifs at h ⊢
  · exact h
  · exact stable_parseredirs line _ _ hkj h

variable (hnul : '\x00' ∉ line)
include hnul

theorem rest_stop (sym : Char) (parse : ℕ → ℕ → Res (Cmd Span × ℕ)) (mk : Cmd Span → Cmd Span →
    Cmd Span)
    (cmd : Cmd Span) (hsym : sym ∈ symbols) (h : ∀ t ∈ (toks line s).head?, t.first ∉ [sym]) :
    ∃ s', (∀ k, rest line sym parse mk k (cmd, s) = Res.ok (cmd, s')) ∧
      toks line s' = toks line s := by
  obtain ⟨s', hpeek, htoks⟩ := peek_false hnul [sym] (by simpa using hsym) h
  refine ⟨s', fun k => ?_, htoks⟩
  rw [rest, hpeek]
  rfl

theorem rest_more (sym : Char) (parse : ℕ → ℕ → Res (Cmd Span × ℕ)) (mk : Cmd Span → Cmd Span →
    Cmd Span)
    (cmd : Cmd Span) (hsym : sym ∈ symbols) (h : toks line s = t :: ts) (ht : t.first ∈ [sym]) :
    ∃ s', (∀ k, rest line sym parse mk k (cmd, s) =
        andThen (parse k s') fun r => Res.ok (mk cmd r.1, r.2)) ∧
      toks line s' = ts := by
  obtain ⟨s₁, hpeek, h₁⟩ := peek_true hnul [sym] (by simpa using hsym) h ht
  obtain ⟨a, s₂, hget, h₂, -⟩ := gettoken_cons hnul h₁
  refine ⟨s₂, fun k => ?_, h₂⟩
  rw [rest, hpeek]
  dsimp only
  rw [hget]
  rfl

theorem parseexec_args (h : ∀ t ∈ (toks line s).head?, t.first ∉ ['(']) :
    ∃ s', (∀ k, parseexec line (k + 1) s = andThen (parseredirs line k (.exec []) s') fun r =>
      parseargs line k 0 r.1 r.2) ∧ toks line s' = toks line s := by
  obtain ⟨s', hpeek, htoks⟩ := peek_false hnul ['('] (by decide) h
  refine ⟨s', fun k => ?_, htoks⟩
  rw [parseexec, hpeek]
  rfl

theorem parseexec_block (h : toks line s = t :: ts) (ht : t.first ∈ ['(']) :
    ∃ s', (∀ k, parseexec line (k + 1 + 1) s = andThen (parseline line k s') (blockEnd line k)) ∧
      toks line s' = ts := by
  obtain ⟨s₁, hpeek₁, h₁⟩ := peek_true hnul ['('] (by decide) h ht
  obtain ⟨s₂, hpeek₂, h₂⟩ := peek_true hnul ['('] (by decide) h₁ ht
  obtain ⟨a, s₃, hget, h₃, -⟩ := gettoken_cons hnul h₂
  refine ⟨s₃, fun k => ?_, h₃⟩
  rw [parseexec, hpeek₁]
  dsimp only
  rw [if_pos rfl, parseblock, hpeek₂]
  dsimp only
  rw [hget]
  rfl

theorem blockEnd_panic (h : ∀ t ∈ (toks line s).head?, t.first ∉ [')']) :
    ∀ k, blockEnd line k (cmd, s) = Res.panic "syntax - missing )" := by
  intro k
  obtain ⟨s', hpeek, -⟩ := peek_false hnul [')'] (by decide) h
  rw [blockEnd, hpeek]
  rfl

theorem blockEnd_redirs (cmd : Cmd Span) (h : toks line s = t :: ts) (ht : t.first ∈ [')']) :
    ∃ s', (∀ k, blockEnd line k (cmd, s) = parseredirs line k cmd s') ∧ toks line s' = ts := by
  obtain ⟨s₁, hpeek, h₁⟩ := peek_true hnul [')'] (by decide) h ht
  obtain ⟨a, s₂, hget, h₂, -⟩ := gettoken_cons hnul h₁
  refine ⟨s₂, fun k => ?_, h₂⟩
  rw [blockEnd, hpeek]
  dsimp only
  rw [hget]
  rfl

end Ends

end Xv6.Sh
