import Xv6.Sh.Parse

/-!
# The parser is correct

The parser halts on every line without a NUL. It returns the tree of the derivation of the line if
there is one, and panics otherwise (`parsecmd_correct`). The strings of the tree are the words, once
`nulterminate` has put a NUL behind each of them (`cstr_nulterminate`).
-/

namespace Xv6.Sh

variable {line : List Char} {c cmd : Cmd Span} {s k : ℕ} {t u : Token} {us r : List Token}
  {T : Cmd (List Char)}

/-! ## What is read is derived -/

/-- The tokens that were read have a derivation with the tree. -/
def Parses (line : List Char) (nt : Nonterminal) (s : ℕ) : Except Panic (Cmd Span × ℕ) → Prop :=
  Safe fun c s' => ∃ us, toks line s = us ++ toks line s' ∧
    Derives nt us (c.map (word line)) ∧ c.All (IsSpan line)

theorem Token.eq_of_first (hu : u ∈ [.pipe, .amp, .semi, .lpar, .rpar])
    (ht : t.first ∈ [u.first]) : t = u := by
  simp only [List.mem_cons, List.not_mem_nil, or_false] at hu ht
  obtain rfl | rfl | rfl | rfl | rfl := hu <;> cases t <;>
    first | rfl | simp [Token.first] at ht

theorem exists_amps (ts : List Token) :
    ∃ n r, ts = List.replicate n .amp ++ r ∧ ∀ t ∈ r.head?, t.first ∉ ['&'] := by
  induction ts with
  | nil => exact ⟨0, [], rfl, fun _ => nofun⟩
  | cons t ts ih =>
    by_cases ht : t.first ∈ ['&']
    · obtain rfl := Token.eq_of_first (u := .amp) (by decide) ht
      obtain ⟨n, r, rfl, hr⟩ := ih
      exact ⟨n + 1, r, rfl, hr⟩
    · exact ⟨0, t :: ts, rfl, by rintro _ ⟨⟩; exact ht⟩

theorem Cmd.map_back {σ τ : Type*} (f : σ → τ) (n : ℕ) (c : Cmd σ) :
    (Cmd.back^[n] c).map f = Cmd.back^[n] (c.map f) := by
  induction n generalizing c with
  | zero => rfl
  | succ n ih => exact ih (.back c)

theorem Cmd.All.back {σ : Type*} {P : σ → Prop} {c : Cmd σ} (h : c.All P) (n : ℕ) :
    (Cmd.back^[n] c).All P := by
  induction n generalizing c with
  | zero => exact h
  | succ n ih => exact ih (c := .back c) h

section

variable (hnul : '\x00' ∉ line)
include hnul

theorem halts_parseexec (ih : ∀ s', (toks line s').length < (toks line s).length →
      Halts (parseline line · s') (Parses line .line s')) :
    Halts (parseexec line · s) (Parses line .cmd s) := by
  obtain hstop | ⟨t, ts, htoks, ht⟩ := head_cases (toks line s) ['(']
  · obtain ⟨s₁, hk, h₁⟩ := parseexec_args hnul hstop
    refine Halts.succ (Halts.andThen (halts_parseredirs hnul (.exec []) s₁)
      (stable_parseredirs line _ _) (fun _ => stable_parseargs line _ _ _) ?_ fun _ h => h) hk
    rintro ⟨ret, s₂⟩ ⟨us, rs, h₂, hus, hmap, hall, -⟩
    have hret : ret.map (word line) = (Cmd.exec []).redirs rs := hmap
    refine (halts_parseargs hnul ret s₂ hret (by decide)).imp ?_
    rintro (e | ⟨c, s'⟩) h
    · trivial
    · obtain ⟨vs, ws, rs', h₃, hvs, hlt, hc, hall', -⟩ := h
      refine ⟨us ++ vs, ?_, ?_, hall' (hall (by simp [Cmd.All]))⟩
      · rw [← h₁, h₂, h₃, List.append_assoc]
      · rw [hc]
        exact .exec hus hvs hlt
  · obtain rfl := Token.eq_of_first (u := .lpar) (by decide) ht
    obtain ⟨s₁, hk, h₁⟩ := parseexec_block hnul htoks ht
    have hlt : (toks line s₁).length < (toks line s).length := by
      rw [htoks, h₁]
      exact Nat.lt_succ_self _
    refine Halts.succ (Halts.succ (Halts.andThen (ih s₁ hlt) (stable_parseline line _)
      (fun _ => stable_blockEnd _) ?_ fun _ h => h) hk) fun k => rfl
    rintro ⟨c, s₂⟩ ⟨us, h₂, hus, hc⟩
    obtain hstop | ⟨t, vs, htoks₂, ht⟩ := head_cases (toks line s₂) [')']
    · exact halts_of_eq 0 (blockEnd_panic hnul hstop 0) trivial
    · obtain rfl := Token.eq_of_first (u := .rpar) (by decide) ht
      obtain ⟨s₃, hk', h₃⟩ := blockEnd_redirs hnul c htoks₂ ht
      simp only [hk']
      refine (halts_parseredirs hnul c s₃).imp ?_
      rintro (e | ⟨c', s'⟩) h
      · trivial
      · obtain ⟨ws, rs, h₄, hws, hmap, hall, -⟩ := h
        refine ⟨.lpar :: us ++ .rpar :: ws, ?_, ?_, hall hc⟩
        · rw [htoks, ← h₁, h₂, htoks₂, ← h₃, h₄]
          simp
        · rw [hmap]
          exact .block hus hws

theorem halts_parsepipe (hexec : Halts (parseexec line · s) (Parses line .cmd s))
    (ih : ∀ s', (toks line s').length < (toks line s).length →
      Halts (parsepipe line · s') (Parses line .pipe s')) :
    Halts (parsepipe line · s) (Parses line .pipe s) := by
  refine Halts.succ (Halts.andThen hexec (stable_parseexec line _)
    (fun _ => stable_rest (stable_parsepipe line) _) ?_ fun _ h => h) fun k => parsepipe_succ
  rintro ⟨c, s₁⟩ ⟨us, h₁, hus, hc⟩
  obtain hstop | ⟨t, vs, htoks, ht⟩ := head_cases (toks line s₁) ['|']
  · obtain ⟨s₂, hk, h₂⟩ := rest_stop hnul '|' (parsepipe line) .pipe c (by decide) hstop
    refine halts_of_eq 0 (hk 0) ⟨us, ?_, .single hus, hc⟩
    rw [h₁, h₂]
  · obtain rfl := Token.eq_of_first (u := .pipe) (by decide) ht
    obtain ⟨s₂, hk, h₂⟩ := rest_more hnul '|' (parsepipe line) .pipe c (by decide) htoks ht
    have hlt : (toks line s₂).length < (toks line s).length := by
      rw [h₁, htoks, h₂, List.length_append, List.length_cons]
      omega
    simp only [hk]
    refine Halts.andThen (ih s₂ hlt) (stable_parsepipe line _) (fun _ => fun _ _ _ _ h => h) ?_
      fun _ h => h
    rintro ⟨d, s'⟩ ⟨ws, h₃, hws, hd⟩
    refine halts_of_eq 0 rfl ⟨us ++ .pipe :: ws, ?_, .pipe hus hws, hc, hd⟩
    rw [h₁, htoks, ← h₂, h₃]
    simp

theorem halts_parseline (hpipe : Halts (parsepipe line · s) (Parses line .pipe s))
    (ih : ∀ s', (toks line s').length < (toks line s).length →
      Halts (parseline line · s') (Parses line .line s')) :
    Halts (parseline line · s) (Parses line .line s) := by
  refine Halts.succ (Halts.andThen hpipe (stable_parsepipe line _)
    (fun _ => (stable_parsebacks line _ _).andThen fun _ => stable_rest (stable_parseline line)
      _) ?_
    fun _ h => h) fun k => parseline_succ
  rintro ⟨c, s₁⟩ ⟨us, h₁, hus, hc⟩
  obtain ⟨n, r, hamps, hr⟩ := exists_amps (toks line s₁)
  refine Halts.andThen (halts_parsebacks hnul c hamps hr) (stable_parsebacks line _ _)
    (fun _ => stable_rest (stable_parseline line) _) ?_ fun _ h => h.elim
  rintro ⟨c', s₂⟩ ⟨h₂, rfl⟩
  obtain hstop | ⟨t, vs, htoks, ht⟩ := head_cases (toks line s₂) [';']
  · obtain ⟨s₃, hk, h₃⟩ :=
      rest_stop hnul ';' (parseline line) .list (Cmd.back^[n] c) (by decide) hstop
    refine halts_of_eq 0 (hk 0) ⟨us ++ List.replicate n .amp, ?_, ?_, hc.back n⟩
    · rw [h₁, hamps, ← h₂, h₃, List.append_assoc]
    · rw [Cmd.map_back]
      exact .line n hus
  · obtain rfl := Token.eq_of_first (u := .semi) (by decide) ht
    obtain ⟨s₃, hk, h₃⟩ :=
      rest_more hnul ';' (parseline line) .list (Cmd.back^[n] c) (by decide) htoks ht
    have hlt : (toks line s₃).length < (toks line s).length := by
      rw [h₁, hamps, ← h₂, htoks, h₃]
      simp only [List.length_append, List.length_cons]
      omega
    simp only [hk]
    refine Halts.andThen (ih s₃ hlt) (stable_parseline line _) (fun _ => fun _ _ _ _ h => h) ?_
      fun _ h => h
    rintro ⟨d, s'⟩ ⟨ws, h₄, hws, hd⟩
    refine halts_of_eq 0 rfl ⟨us ++ List.replicate n .amp ++ .semi :: ws, ?_, ?_, hc.back n, hd⟩
    · rw [h₁, hamps, ← h₂, htoks, ← h₃, h₄]
      simp
    · change Derives .line _ (.list ((Cmd.back^[n] c).map (word line)) (d.map (word line)))
      rw [Cmd.map_back]
      exact .list n hus hws

/-- The functions that call each other, by induction on the tokens that are left. -/
theorem halts_parse (s : ℕ) : Halts (parseline line · s) (Parses line .line s) ∧
    Halts (parsepipe line · s) (Parses line .pipe s) := by
  induction hn : (toks line s).length using Nat.strongRecOn generalizing s with
  | _ n ih =>
    subst hn
    have hpipe := halts_parsepipe hnul (halts_parseexec hnul fun s' hlt => (ih _ hlt s' rfl).1)
      fun s' hlt => (ih _ hlt s' rfl).2
    exact ⟨halts_parseline hnul hpipe fun s' hlt => (ih _ hlt s' rfl).1, hpipe⟩

end

/-! ## What is derived is read -/

theorem follows_amps (n : ℕ) (hr : ∀ t ∈ r.head?, t.first ∈ [')', ';']) :
    Follows .pipe (List.replicate n .amp ++ r) := by
  cases n with
  | zero => exact fun t ht => (by decide : [')', ';'] ⊆ follow .pipe) (hr t ht)
  | succ n =>
    rintro _ ⟨⟩
    decide

/-- The function for a nonterminal. -/
def parse (line : List Char) : Nonterminal → ℕ → ℕ → Res (Cmd Span × ℕ)
  | .line => parseline line
  | .pipe => parsepipe line
  | .cmd => parseexec line

/-- From `s` on, the tokens `us` are read, and they have the tree. -/
def Reads (line : List Char) (T : Cmd (List Char)) (r : List Token) :
    Except Panic (Cmd Span × ℕ) → Prop :=
  Ok fun c s' => toks line s' = r ∧ c.map (word line) = T

/-- `parsepipe`, up to its end. -/
theorem halts_of_exec {Q : Except Panic (Cmd Span × ℕ) → Prop}
    (hexec : Halts (parseexec line · s) (Reads line T r))
    (hrest : ∀ c s', toks line s' = r → c.map (word line) = T →
      Halts (rest line '|' (parsepipe line) .pipe · (c, s')) Q) :
    Halts (parsepipe line · s) Q := by
  refine Halts.succ (Halts.andThen hexec (stable_parseexec line _)
    (fun _ => stable_rest (stable_parsepipe line) _) ?_ fun _ h => h.elim) fun k => parsepipe_succ
  rintro ⟨c, s'⟩ ⟨h, hc⟩
  exact hrest c s' h hc

section

variable (hnul : '\x00' ∉ line)
include hnul

/-- `parseline`, up to its end. -/
theorem halts_of_pipe {n : ℕ} {Q : Except Panic (Cmd Span × ℕ) → Prop}
    (hpipe : Halts (parsepipe line · s) (Reads line T (List.replicate n .amp ++ r)))
    (hr : ∀ t ∈ r.head?, t.first ∉ ['&'])
    (hrest : ∀ c s', toks line s' = r → c.map (word line) = Cmd.back^[n] T →
      Halts (rest line ';' (parseline line) .list · (c, s')) Q) :
    Halts (parseline line · s) Q := by
  refine Halts.succ (Halts.andThen hpipe (stable_parsepipe line _)
    (fun _ => (stable_parsebacks line _ _).andThen fun _ => stable_rest (stable_parseline line)
      _) ?_
    fun _ h => h.elim) fun k => parseline_succ
  rintro ⟨c, s₁⟩ ⟨h₁, rfl⟩
  refine Halts.andThen (halts_parsebacks hnul c h₁ hr) (stable_parsebacks line _ _)
    (fun _ => stable_rest (stable_parseline line) _) ?_ fun _ h => h.elim
  rintro ⟨c', s₂⟩ ⟨h₂, rfl⟩
  exact hrest _ s₂ h₂ (Cmd.map_back ..)

section Rest

variable {sym : Char} {parse : ℕ → ℕ → Res (Cmd Span × ℕ)} {mk : Cmd Span → Cmd Span → Cmd Span}

theorem halts_rest_stop (hsym : sym ∈ symbols) (h : toks line s = r)
    (hr : ∀ t ∈ r.head?, t.first ∉ [sym]) :
    Halts (rest line sym parse mk · (c, s)) (Reads line (c.map (word line)) r) := by
  obtain ⟨s', hk, h'⟩ := rest_stop hnul sym parse mk c hsym (by rwa [h])
  exact halts_of_eq 0 (hk 0) ⟨h'.trans h, rfl⟩

theorem halts_rest_more {mk' : Cmd (List Char) → Cmd (List Char) → Cmd (List Char)}
    (hsym : sym ∈ symbols) (hstable : ∀ s, Stable (parse · s)) (h : toks line s = t :: us ++ r)
    (ht : t.first ∈ [sym])
    (hparse : ∀ {s}, toks line s = us ++ r → Halts (parse · s) (Reads line T r))
    (hmk : ∀ a b, (mk a b).map (word line) = mk' (a.map (word line)) (b.map (word line))) :
    Halts (rest line sym parse mk · (c, s)) (Reads line (mk' (c.map (word line)) T) r) := by
  obtain ⟨s₁, hk, h₁⟩ := rest_more hnul sym parse mk c hsym h ht
  simp only [hk]
  refine Halts.andThen (hparse h₁) (hstable _) (fun _ => fun _ _ _ _ h => h) ?_ fun _ h => h.elim
  rintro ⟨d, s₂⟩ ⟨h₂, rfl⟩
  exact halts_of_eq 0 rfl ⟨h₂, hmk c d⟩

end Rest

theorem Derives.halts {nt : Nonterminal} (hus : Derives nt us T) (h : toks line s = us ++ r)
    (hr : Follows nt r) : Halts (parse line nt · s) (Reads line T r) := by
  induction hus generalizing s r with
  | @line ts T n hts ih =>
    rw [List.append_assoc] at h
    refine halts_of_pipe hnul (ih h ?_) (fun t ht => ?_) ?_
    · exact follows_amps n fun t ht => (by decide : follow .line ⊆ [')', ';']) (hr t ht)
    · exact notMem_of_all (by decide) (hr t ht)
    · rintro c s' hs' hc
      rw [← hc]
      exact halts_rest_stop hnul (by decide) hs' fun t ht =>
        notMem_of_all (by decide) (hr t ht)
  | @list ts T us d n hts hus iht ihu =>
    -- the line goes on behind the `;`
    rw [List.append_assoc, List.append_assoc] at h
    refine halts_of_pipe hnul (iht h ?_) ?_ ?_
    · refine follows_amps n ?_
      rintro _ ⟨⟩
      decide
    · rintro _ ⟨⟩
      decide
    · rintro c s' hs' hc
      rw [← hc]
      exact halts_rest_more hnul (by decide) (stable_parseline line) hs' (by decide)
        (fun h => ihu h hr) fun _ _ => rfl
  | single hts ih =>
    refine halts_of_exec (ih h fun t ht => ?_) ?_
    · exact (by decide : follow .pipe ⊆ follow .cmd) (hr t ht)
    · rintro c s' hs' rfl
      exact halts_rest_stop hnul (by decide) hs' fun t ht =>
        notMem_of_all (by decide) (hr t ht)
  | pipe hts hus iht ihu =>
    rw [List.append_assoc] at h
    refine halts_of_exec (iht h ?_) ?_
    · rintro _ ⟨⟩
      decide
    · rintro c s' hs' rfl
      exact halts_rest_more hnul (by decide) (stable_parsepipe line) hs' (by decide)
        (fun h => ihu h hr) fun _ _ => rfl
  | @block ts T us rs hts hus ih =>
    -- two calls: `parseexec` and `parseblock`
    rw [List.append_assoc] at h
    obtain ⟨s₁, hk, h₁⟩ := parseexec_block hnul h (by decide)
    refine Halts.succ (Halts.succ (Halts.andThen (ih h₁ ?_) (stable_parseline line _)
      (fun _ => stable_blockEnd _) ?_ fun _ h => h.elim) hk) fun k => rfl
    · rintro _ ⟨⟩
      decide
    · rintro ⟨c, s₂⟩ ⟨h₂, rfl⟩
      obtain ⟨s₃, hk', h₃⟩ := blockEnd_redirs hnul c h₂ (by decide)
      simp only [hk']
      exact hus.halts hnul c h₃ fun t ht =>
        notMem_of_all (by decide) (hr t ht)
  | @exec ts rs us ws rs' hts hus hlt =>
    rw [List.append_assoc] at h
    have hfirst := hus.first hr
    obtain ⟨s₁, hk, h₁⟩ := parseexec_args (s := s) hnul fun t ht =>
      notMem_of_all (by decide)
        (hts.first hfirst t (h ▸ ht))
    refine Halts.succ (Halts.andThen (hts.halts hnul (.exec []) (h₁.trans h) fun t ht =>
        notMem_of_all (by decide) (hfirst t ht))
      (stable_parseredirs line _ _) (fun _ => stable_parseargs line _ _ _) ?_ fun _ h => h.elim) hk
    rintro ⟨ret, s₂⟩ ⟨h₂, hmap⟩
    have hret : ret.map (word line) = (Cmd.exec []).redirs rs := hmap
    exact hus.halts hnul ret h₂ hr hret hlt

end

/-! ## The end of the line -/

theorem scan_le {p : Char → Bool} (hs : s ≤ line.length) :
    scan p (line.drop s) s ≤ line.length := by
  have hle := ((line.drop s).takeWhile_sublist p).length_le
  rw [List.length_drop] at hle
  rw [scan_eq]
  omega

theorem lt_of_deref (h : deref line s ≠ '\x00') : s < line.length := by
  by_contra hle
  rw [deref, List.getD_eq_getElem?_getD, List.getElem?_eq_none (Nat.not_lt.1 hle)] at h
  exact h rfl

theorem gettoken_le (hs : s ≤ line.length) : (gettoken line s).2.2 ≤ line.length := by
  have hq : skip line s ≤ line.length := scan_le hs
  have hskip {n : ℕ} (hn : n ≤ line.length) : skip line n ≤ line.length := scan_le hn
  rw [gettoken]
  dsimp only
  split_ifs with h₀ h₁ h₂ h₃ <;> refine hskip ?_
  · exact hq
  · exact lt_of_deref h₀
  · refine lt_of_deref (s := skip line s + 1) ?_
    rw [h₃]
    decide
  · exact lt_of_deref h₀
  · exact scan_le hq

theorem peek_le {cs : List Char} (hs : s ≤ line.length) : (peek line s cs).2 ≤ line.length :=
  scan_le hs

/-- The result is a place in the line. -/
def Bounded (line : List Char) (m : Res (Cmd Span × ℕ)) : Prop :=
  ∀ r, m = some (.ok r) → r.2 ≤ line.length

theorem bounded_ok (hs : s ≤ line.length) : Bounded line (Res.ok (c, s)) := by
  rintro _ ⟨⟩
  exact hs

theorem bounded_panic {msg : String} : Bounded line (Res.panic msg) := nofun

theorem Bounded.andThen {m : Res (Cmd Span × ℕ)} {f : Cmd Span × ℕ → Res (Cmd Span × ℕ)}
    (hm : Bounded line m) (hf : ∀ r, r.2 ≤ line.length → Bounded line (f r)) :
    Bounded line (andThen m f) := by
  match m with
  | none => nofun
  | some (.error _) => nofun
  | some (.ok r) => exact hf r (hm r rfl)

theorem bounded_parseredirs (hs : s ≤ line.length) : Bounded line (parseredirs line k cmd s) := by
  induction k generalizing cmd s with
  | zero => nofun
  | succ k ih =>
    rw [parseredirs]
    dsimp only
    split_ifs
    · exact bounded_panic
    · exact ih (gettoken_le (gettoken_le (peek_le hs)))
    · exact bounded_ok (peek_le hs)

theorem bounded_parseargs {argc : ℕ} (hs : s ≤ line.length) :
    Bounded line (parseargs line k argc cmd s) := by
  induction k generalizing argc cmd s with
  | zero => nofun
  | succ k ih =>
    rw [parseargs]
    dsimp only
    split_ifs
    · exact bounded_ok (peek_le hs)
    · exact bounded_ok (gettoken_le (peek_le hs))
    · exact bounded_panic
    · exact bounded_panic
    · exact (bounded_parseredirs (gettoken_le (peek_le hs))).andThen fun _ hr => ih hr

theorem bounded_parsebacks (hs : s ≤ line.length) : Bounded line (parsebacks line k cmd s) := by
  induction k generalizing cmd s with
  | zero => nofun
  | succ k ih =>
    rw [parsebacks]
    dsimp only
    split_ifs
    · exact ih (gettoken_le (peek_le hs))
    · exact bounded_ok (peek_le hs)

theorem bounded_rest {sym : Char} {parse : ℕ → ℕ → Res (Cmd Span × ℕ)}
    {mk : Cmd Span → Cmd Span → Cmd Span}
    (hparse : ∀ s, s ≤ line.length → Bounded line (parse k s)) (hs : s ≤ line.length) :
    Bounded line (rest line sym parse mk k (c, s)) := by
  rw [rest]
  dsimp only
  split_ifs
  · exact (hparse _ (gettoken_le (peek_le hs))).andThen fun _ hr => bounded_ok hr
  · exact bounded_ok (peek_le hs)

/-- The functions that call each other. -/
theorem bounded_parse (k : ℕ) : (∀ s, s ≤ line.length → Bounded line (parseline line k s)) ∧
    (∀ s, s ≤ line.length → Bounded line (parsepipe line k s)) ∧
    (∀ s, s ≤ line.length → Bounded line (parseblock line k s)) ∧
    ∀ s, s ≤ line.length → Bounded line (parseexec line k s) := by
  induction k with
  | zero => exact ⟨fun _ _ => nofun, fun _ _ => nofun, fun _ _ => nofun, fun _ _ => nofun⟩
  | succ k ih =>
    obtain ⟨ihline, ihpipe, ihblock, ihexec⟩ := ih
    refine ⟨fun s hs => ?_, fun s hs => ?_, fun s hs => ?_, fun s hs => ?_⟩
    · rw [parseline_succ]
      exact (ihpipe s hs).andThen fun _ hr => (bounded_parsebacks hr).andThen fun _ hr =>
        bounded_rest ihline hr
    · rw [parsepipe_succ]
      exact (ihexec s hs).andThen fun _ hr => bounded_rest ihpipe hr
    · rw [parseblock]
      dsimp only
      split_ifs
      · exact bounded_panic
      · refine (ihline _ (gettoken_le (peek_le hs))).andThen fun _ hr => ?_
        split_ifs
        · exact bounded_panic
        · exact bounded_parseredirs (gettoken_le (peek_le hr))
    · rw [parseexec]
      dsimp only
      split_ifs
      · exact ihblock _ (peek_le hs)
      · exact (bounded_parseredirs (peek_le hs)).andThen fun _ hr => bounded_parseargs hr

/-! ## Strings -/

/-- The string at a pointer, up to the NUL. -/
def cstr (line : List Char) (p : ℕ) : List Char := (line.drop p).takeWhile (· ≠ '\x00')

/-- The pointers where `nulterminate` puts a NUL. -/
def Cmd.ends : Cmd Span → List ℕ
  | .exec argv => argv.map Prod.snd
  | .redir cmd file _ _ => file.2 :: cmd.ends
  | .pipe left right | .list left right => left.ends ++ right.ends
  | .back cmd => cmd.ends

theorem deref_set {i j : ℕ} :
    deref (line.set j '\x00') i = if i = j then '\x00' else deref line i := by
  simp only [deref, List.getD_eq_getElem?_getD, List.getElem?_set]
  split_ifs with h₁ h₂ h₃ <;> simp_all

theorem deref_nulterminate {i : ℕ} :
    deref (nulterminate c line) i = if i ∈ c.ends then '\x00' else deref line i := by
  induction c generalizing line with
  | exec argv =>
    induction argv generalizing line with
    | nil => rfl
    | cons a argv ih =>
      change deref (nulterminate (.exec argv) (line.set a.2 '\x00')) i = _
      rw [ih, deref_set]
      simp only [Cmd.ends, List.map_cons, List.mem_cons]
      split_ifs <;> simp_all
  | redir c file mode fd ih =>
    rw [nulterminate, deref_set, ih]
    simp only [Cmd.ends, List.mem_cons]
    split_ifs <;> simp_all
  | pipe left right ihl ihr | list left right ihl ihr =>
    rw [nulterminate, ihr, ihl]
    simp only [Cmd.ends, List.mem_append]
    split_ifs <;> simp_all
  | back c ih => exact ih

theorem drop_eq_cons (h : deref line s ≠ '\x00') :
    line.drop s = deref line s :: line.drop (s + 1) := by
  have hlt := lt_of_deref h
  rw [List.drop_eq_getElem_cons hlt, deref, List.getD_eq_getElem?_getD,
    List.getElem?_eq_getElem hlt]
  rfl

/-- A string is what comes before its NUL. -/
theorem cstr_eq {w : List Char} (hw : ∀ i < w.length, deref line (s + i) = deref w i)
    (hnul : '\x00' ∉ w) (hend : deref line (s + w.length) = '\x00') : cstr line s = w := by
  induction w generalizing s with
  | nil =>
    have hend : deref line s = '\x00' := hend
    rw [deref_eq] at hend
    rw [cstr]
    cases hd : line.drop s with
    | nil => rfl
    | cons c cs =>
      rw [hd] at hend
      obtain rfl : c = '\x00' := hend
      rfl
  | cons c w ih =>
    obtain ⟨hc, hnul⟩ := List.ne_and_not_mem_of_not_mem_cons hnul
    have hs : deref line s = c := hw 0 (Nat.succ_pos _)
    have hadd (i : ℕ) : s + 1 + i = s + (i + 1) := by omega
    rw [cstr, drop_eq_cons (hs ▸ Ne.symm hc), hs, List.takeWhile_cons_of_pos
      (by simpa using Ne.symm hc)]
    congr 1
    refine ih (fun i hi => ?_) hnul ?_
    · rw [hadd]
      exact hw (i + 1) (Nat.succ_lt_succ hi)
    · rw [hadd]
      exact hend

/-- The characters of a word. -/
theorem deref_word {a : Span} {i : ℕ} (hi : i < (word line a).length) :
    deref line (a.1 + i) = deref (word line a) i ∧ isWord (deref line (a.1 + i)) := by
  have hpre : word line a <+: line.drop a.1 := List.takeWhile_prefix isWord
  have hget : (line.drop a.1)[i]? = (word line a)[i]? :=
    (List.prefix_iff_getElem?.1 hpre i hi).trans
    (List.getElem?_eq_getElem hi).symm
  have heq : deref line (a.1 + i) = deref (word line a) i := by
    rw [deref, deref, List.getD_eq_getElem?_getD, List.getD_eq_getElem?_getD, ← hget,
      List.getElem?_drop]
  refine ⟨heq, ?_⟩
  rw [heq, deref, List.getD_eq_getElem?_getD, List.getElem?_eq_getElem hi]
  exact List.all_eq_true.1 (List.all_takeWhile (p := isWord)) _ (List.getElem_mem hi)

/-- The character behind a word is in none. -/
theorem deref_end {a : Span} (ha : IsSpan line a) (h : deref line a.2 ≠ '\x00') :
    isWord (deref line a.2) = false := by
  have hdrop : line.drop a.2 = (line.drop a.1).dropWhile isWord := by
    rw [← drop_scan, scan_eq]
    exact congrArg line.drop ha
  rw [drop_eq_cons h] at hdrop
  have hhead := (line.drop a.1).head?_dropWhile_not isWord
  rw [← hdrop] at hhead
  simpa using hhead

theorem Cmd.All.isSpan_of_ends {i : ℕ} (hc : c.All (IsSpan line)) (hi : i ∈ c.ends) :
    ∃ a, IsSpan line a ∧ a.2 = i := by
  induction c with
  | exec argv =>
    obtain ⟨a, ha, rfl⟩ := List.mem_map.1 hi
    exact ⟨a, hc a ha, rfl⟩
  | redir c file mode fd ih =>
    rcases List.mem_cons.1 hi with rfl | hi
    · exact ⟨file, hc.2, rfl⟩
    · exact ih hc.1 hi
  | pipe left right ihl ihr | list left right ihl ihr =>
    rcases List.mem_append.1 hi with hi | hi
    · exact ihl hc.1 hi
    · exact ihr hc.2 hi
  | back c ih => exact ih hc hi

/-- The string at a pointer of the tree is the word. -/
theorem cstr_nulterminate {a : Span} (hnul : '\x00' ∉ line) (hc : c.All (IsSpan line))
    (ha : IsSpan line a) (hend : a.2 ∈ c.ends) : cstr (nulterminate c line) a.1 = word line a := by
  refine cstr_eq (fun i hi => ?_) (fun hmem => ?_) ?_
  · -- no NUL is put into a word
    obtain ⟨heq, hword⟩ := deref_word hi
    rw [deref_nulterminate, if_neg, heq]
    intro hi'
    obtain ⟨b, hb, hb'⟩ := hc.isSpan_of_ends hi'
    have hnot : deref line (a.1 + i) ≠ '\x00' := by
      rw [heq, deref, List.getD_eq_getElem?_getD, List.getElem?_eq_getElem hi]
      intro h0
      have hmem : '\x00' ∈ word line a := h0 ▸ List.getElem_mem hi
      exact hnul (List.mem_of_mem_drop ((List.takeWhile_prefix isWord).subset hmem))
    have hfalse := deref_end hb (by rwa [hb'])
    rw [hb', hword] at hfalse
    cases hfalse
  · exact hnul (List.mem_of_mem_drop ((List.takeWhile_prefix isWord).subset hmem))
  · rw [← ha, deref_nulterminate, if_pos hend]

/-- A tree whose strings agree is the same. -/
theorem Cmd.map_congr {f g : Span → List Char} {P : Span → Prop} (hc : c.All P)
    (h : ∀ a, P a → a.2 ∈ c.ends → f a = g a) : c.map f = c.map g := by
  induction c with
  | exec argv =>
    refine congrArg Cmd.exec (List.map_congr_left fun a ha => ?_)
    exact h a (hc a ha) (List.mem_map_of_mem ha)
  | redir c file mode fd ih =>
    rw [Cmd.map, Cmd.map, ih hc.1 fun a ha hi => h a ha (List.mem_cons_of_mem _ hi),
      h file hc.2 List.mem_cons_self]
  | pipe left right ihl ihr | list left right ihl ihr =>
    rw [Cmd.map, Cmd.map, ihl hc.1 fun a ha hi => h a ha (List.mem_append_left _ hi),
      ihr hc.2 fun a ha hi => h a ha (List.mem_append_right _ hi)]
  | back c ih => rw [Cmd.map, Cmd.map, ih hc h]

/-! ## Lines -/

theorem toks_eq_nil_iff (hs : s ≤ line.length) :
    toks line s = [] ↔ skip line s = line.length := by
  have hle : skip line s ≤ line.length := scan_le hs
  obtain hnil | ⟨c, cs, hcons, hc⟩ := drop_skip line s
  · rw [← toks_skip, toks, hnil, lex]
    exact iff_of_true rfl (Nat.le_antisymm hle (List.drop_eq_nil_iff.1 hnil))
  · obtain ⟨t, ts, hlex, -⟩ := exists_lex hc cs
    rw [← toks_skip, toks, hcons, hlex]
    refine iff_of_false (by simp) fun heq => ?_
    rw [heq, List.drop_length] at hcons
    cases hcons

/-- The parser halts on every line. It returns a tree if the line has a derivation, which is the
    tree of that derivation, and it panics otherwise. -/
theorem parsecmd_correct (hnul : '\x00' ∉ line) :
    ∃ k₀ x, (∀ k, k₀ ≤ k → parsecmd k line = some x) ∧
      (∀ T, Derives .line (lex line) T ↔
        ∃ cmd line', x = .ok (cmd, line') ∧ cmd.map (fun a => cstr line' a.1) = T) ∧
      ((∀ T, ¬Derives .line (lex line) T) → ∃ e, x = .error e) := by
  obtain ⟨k₀, x, hx, hk⟩ := (halts_parse hnul 0).1.eventually (stable_parseline line 0)
  have hlex : toks line 0 = lex line := rfl
  -- a derivation of the whole line is read, and nothing is left over
  have hreads {T : Cmd (List Char)} (hT : Derives .line (lex line) T) : Reads line T [] x :=
    (hT.halts hnul (s := 0) (by rw [hlex, List.append_nil]) (fun _ ht => by cases ht)).of_eq_some
      (stable_parseline line 0) (hk k₀ (Nat.le_refl k₀))
  cases x with
  | error e =>
    refine ⟨k₀, .error e, fun k hkk => ?_, fun T => ⟨fun hT => (hreads hT).elim, ?_⟩,
      fun _ => ⟨e, rfl⟩⟩
    · rw [parsecmd, hk k hkk]
      rfl
    · rintro ⟨cmd, line', ⟨⟩, -⟩
  | ok r =>
    obtain ⟨c, s⟩ := r
    obtain ⟨us, hus, hderives, hc⟩ := hx
    have hs : s ≤ line.length := (bounded_parse k₀).1 0 (Nat.zero_le _) _ (hk k₀ (Nat.le_refl k₀))
    by_cases hnil : toks line s = []
    · have hskip := (toks_eq_nil_iff hs).1 hnil
      rw [hnil, List.append_nil, hlex] at hus
      have hstrings : c.map (fun a => cstr (nulterminate c line) a.1) = c.map (word line) :=
        Cmd.map_congr hc fun a ha hend => cstr_nulterminate hnul hc ha hend
      refine ⟨k₀, .ok (c, nulterminate c line), fun k hkk => ?_, fun T => ⟨fun hT => ?_, ?_⟩, ?_⟩
      · rw [parsecmd, hk k hkk]
        exact if_neg (not_not.2 hskip)
      · exact ⟨c, _, rfl, hstrings.trans (hreads hT).2⟩
      · rintro ⟨cmd, line', ⟨⟩, rfl⟩
        rw [hstrings, hus]
        exact hderives
      · exact fun hnot => absurd hderives (hus ▸ hnot _)
    · have hskip : skip line s ≠ line.length := fun h => hnil ((toks_eq_nil_iff hs).2 h)
      let e : Panic := {
        printed := "leftovers: ".toList ++ line.drop (skip line s) ++ ['\n'], msg := "syntax" }
      refine ⟨k₀, .error e, fun k hkk => ?_, fun T => ⟨fun hT => absurd (hreads hT).1 hnil, ?_⟩,
        fun _ => ⟨e, rfl⟩⟩
      · rw [parsecmd, hk k hkk]
        exact if_pos hskip
      · rintro ⟨cmd, line', ⟨⟩, -⟩

theorem stable_parsecmd : Stable (parsecmd · line) :=
  (stable_parseline line 0).andThen fun _ _ _ _ _ h => h

/-- There must be a `;` between two commands, even after a `&`. -/
theorem parsecmd_correct_amp : '\x00' ∉ "a & b".toList ∧
    ∀ T, ¬Derives .line (lex "a & b".toList) T := by
  have hnul : '\x00' ∉ "a & b".toList := by decide
  obtain ⟨k₀, x, hk, hiff, -⟩ := parsecmd_correct hnul
  have hpanic : parsecmd 9 "a & b".toList =
      some (.error { printed := "leftovers: b\n".toList, msg := "syntax" }) := by decide +kernel
  refine ⟨hnul, fun T hT => ?_⟩
  obtain ⟨cmd, line', rfl, -⟩ := (hiff T).1 hT
  cases stable_parsecmd.eq hpanic (hk k₀ (Nat.le_refl k₀))

/-! ## Tokens -/

theorem Cmd.All.imp_ends {P Q : Span → Prop} (hc : c.All P)
    (h : ∀ a, P a → a.2 ∈ c.ends → Q a) : c.All Q := by
  induction c with
  | exec argv => exact fun a ha => h a (hc a ha) (List.mem_map_of_mem ha)
  | redir c file mode fd ih =>
    exact ⟨ih hc.1 fun a ha hi => h a ha (List.mem_cons_of_mem _ hi),
      h file hc.2 List.mem_cons_self⟩
  | pipe left right ihl ihr | list left right ihl ihr =>
    exact ⟨ihl hc.1 fun a ha hi => h a ha (List.mem_append_left _ hi),
      ihr hc.2 fun a ha hi => h a ha (List.mem_append_right _ hi)⟩
  | back c ih => exact ih hc h

/-- The characters of a line between two pointers. -/
def text (line : List Char) (a : Span) : List Char := (line.drop a.1).take (a.2 - a.1)

theorem text_eq_word {a : Span} (ha : IsSpan line a) : text line a = word line a := by
  have hpre : word line a <+: line.drop a.1 := List.takeWhile_prefix isWord
  rw [text, ha, Nat.add_sub_cancel_left]
  exact (List.prefix_iff_eq_take.1 hpre).symm

/-- The tree that is returned has the pointers that `gettoken` has found. -/
theorem isSpan_of_parsecmd {line' : List Char} (hnul : '\x00' ∉ line)
    (h : parsecmd k line = some (.ok (c, line'))) :
    c.All (IsSpan line) ∧ line' = nulterminate c line := by
  obtain ⟨k₀, x, hx, hk⟩ := (halts_parse hnul 0).1.eventually (stable_parseline line 0)
  have heq := stable_parsecmd (Nat.le_max_left k k₀) h
  dsimp only at heq
  rw [parsecmd, hk _ (Nat.le_max_right k k₀)] at heq
  cases x with
  | error e => cases heq
  | ok r =>
    obtain ⟨cmd, s⟩ := r
    obtain ⟨us, -, -, hc⟩ := hx
    rw [andThen_ok] at heq
    dsimp only at heq
    split at heq
    next => cases heq
    next =>
      obtain ⟨rfl, rfl⟩ := Prod.mk.inj (Except.ok.inj (Option.some.inj heq))
      exact ⟨hc, rfl⟩

/-- In a line that is accepted, each string of the tree is the text of its token. -/
theorem nulterminate_exact (line line' : List Char) (k : ℕ) (cmd : Cmd Span) (hnul : '\x00' ∉ line)
    (h : parsecmd k line = some (.ok (cmd, line'))) :
    cmd.All fun a => a.1 + (text line a).length = a.2 ∧ cstr line' a.1 = text line a := by
  obtain ⟨hc, rfl⟩ := isSpan_of_parsecmd hnul h
  refine hc.imp_ends fun a ha hend => ⟨?_, ?_⟩
  · rw [text_eq_word ha]
    exact ha.symm
  · rw [cstr_nulterminate hnul hc ha hend, text_eq_word ha]

/-- Two words without a blank around the symbol between them. -/
theorem nulterminate_exact_redir : (Cmd.redir (.exec [(0, 2)]) (3, 5) O_RDONLY 0).All fun a =>
    a.1 + (text "ab<cd".toList a).length = a.2 ∧
      cstr ['a', 'b', '\x00', 'c', 'd'] a.1 = text "ab<cd".toList a :=
  nulterminate_exact "ab<cd".toList ['a', 'b', '\x00', 'c', 'd'] 9 _ (by decide) (by decide +kernel)

end Xv6.Sh
