import Xv6.Console.Basic

/-!
# The line discipline

What the console input is for: a queue of committed bytes, and the line that is being edited
(`Line`). A character is appended to the line, edits it, or commits it to the queue; a reader takes
the bytes of the queue in order. The input buffer refines this (`console_refines`): every step of
the handler or of a reader is the step of the line discipline that it should be, for any
interleaving, wherever the indices start.
-/

namespace Xv6.Console

open Monitor TransitionSystem Function

/-- The committed bytes `C` and the edited line `E`. -/
structure Line where
  C : List UInt8
  E : List UInt8

/-- The end of a line. -/
def ends (c : UInt8) : Prop := c = newline ∨ c = ctrl 'D'

instance : DecidablePred ends := fun _ => inferInstanceAs (Decidable (_ ∨ _))

namespace Line

/-- The line goes to the end of the queue. -/
def commit (a : Line) : Line := ⟨a.C ++ a.E, []⟩

/-- A character is appended; the line ends with some. -/
def append (a : Line) (c : UInt8) : Line :=
  let c := if c = carriageReturn then newline else c
  let a : Line := ⟨a.C, a.E ++ [c]⟩
  if ends c ∨ a.C.length + a.E.length = INPUT_BUF then a.commit else a

/-- A character arrives. -/
def key (a : Line) (c : UInt8) : Line :=
  if c = ctrl 'P' then a
  else if c = ctrl 'U' then ⟨a.C, []⟩
  else if c = ctrl 'H' ∨ c = delete then ⟨a.C, a.E.dropLast⟩
  else if c ≠ 0 ∧ a.C.length + a.E.length < INPUT_BUF then a.append c
  else a

end Line

/-- A reader. -/
inductive Reader
  | idle
  /-- It wants `n` bytes, and has got some. -/
  | reading (n : ℕ) (dst : List UInt8)
  /-- It is about to return. -/
  | finished (dst : List UInt8)

/-- The line discipline with its readers. -/
structure Tty where
  line : Line
  reader : Pid → Reader

/-- What happens. -/
inductive Event
  | key (c : UInt8)
  | call (t : Pid) (n : ℕ)
  /-- The reader looks at the next byte. -/
  | take (t : Pid)
  /-- The call returns; `none` is -1. -/
  | ret (t : Pid) (r : Option ℕ) (dst : List UInt8)

namespace Tty

/-- The reader `t` becomes `q`. -/
def setReader (a : Tty) (t : Pid) (q : Reader) : Tty :=
  { a with reader := Function.update a.reader t q }

/-- The next byte of the queue goes to the reader, up to a newline or up to a `^D`. The `^D` stays
    if the reader has got bytes already. -/
def take (a : Tty) (t : Pid) (n : ℕ) (dst : List UInt8) : Option Tty :=
  match a.line.C with
  | [] => none
  | c :: C =>
    if dst.length < n then
      if c = ctrl 'D' then
        some ({ a with line := if dst = [] then ⟨C, a.line.E⟩ else a.line }.setReader t
          (.finished dst))
      else if c = newline then
        some ({ a with line := ⟨C, a.line.E⟩ }.setReader t (.finished (dst ++ [c])))
      else some ({ a with line := ⟨C, a.line.E⟩ }.setReader t (.reading n (dst ++ [c])))
    else none

/-- A call returns the bytes it has got once it is finished or has got all it wants, and -1 only
    while there are no committed bytes. -/
def ret (a : Tty) (t : Pid) (r : Option ℕ) (dst : List UInt8) : Prop :=
  match a.reader t with
  | .idle => False
  | .reading n dst' => dst' = dst ∧ (dst.length = n ∧ r = some n ∨ a.line.C = [] ∧ r = none)
  | .finished dst' => dst' = dst ∧ r = some dst.length

/-- The steps of the line discipline. -/
inductive Step (a : Tty) : Event → Tty → Prop
  | key (c : UInt8) : Step a (.key c) { a with line := a.line.key c }
  | call (t : Pid) (n : ℕ) : Step a (.call t n) (a.setReader t (.reading n []))
  | take {t : Pid} {n : ℕ} {dst : List UInt8} {b : Tty} (ht : a.reader t = .reading n dst)
    (htake : a.take t n dst = some b) : Step a (.take t) b
  | ret {t : Pid} {r : Option ℕ} {dst : List UInt8} (hret : a.ret t r dst) :
    Step a (.ret t r dst) (a.setReader t .idle)

end Tty

/-! ## The buffer as a line -/

namespace Input

variable {i : Input} {c : UInt8}

/-- The indices are in order, and the line has no end. -/
structure Ordered (i : Input) : Prop where
  le : (i.w - i.r).toNat ≤ (i.e - i.r).toNat
  bound : (i.e - i.r).toNat ≤ INPUT_BUF
  open_ : newline ∉ i.line

/-- What the buffer stands for. -/
def abs (i : Input) : Line := ⟨i.queue, i.line⟩

theorem ring_length : i.ring.length = (i.e - i.r).toNat := rfl

theorem length_ring : i.ring.contents.length = (i.e - i.r).toNat := Ring.length_contents

theorem Ordered.length_queue (h : i.Ordered) : i.queue.length = (i.w - i.r).toNat := by
  rw [queue, List.length_take, length_ring, Nat.min_eq_left h.le]

theorem queue_append_line : i.queue ++ i.line = i.ring.contents := List.take_append_drop ..

theorem length_add : i.queue.length + i.line.length = (i.e - i.r).toNat := by
  rw [← List.length_append, queue_append_line, length_ring]

theorem Ordered.lt_of_ne (h : i.Ordered) (hne : i.e ≠ i.w) :
    (i.w - i.r).toNat < (i.e - i.r).toNat := by
  refine lt_of_le_of_ne h.le fun heq => hne ?_
  rw [UInt32.toNat_inj] at heq
  grind

/-- The last character of the line is taken back. -/
def pred (i : Input) : Input := { i with e := i.e - 1 }

theorem Ordered.length_pred (h : i.Ordered) (hne : i.e ≠ i.w) :
    (i.pred.e - i.r).toNat = (i.e - i.r).toNat - 1 := by
  have hlt := h.lt_of_ne hne
  exact Ring.length_pred (b := i.ring) (by rw [ring_length]; omega)

theorem Ordered.pred_eq (h : i.Ordered) (hne : i.e ≠ i.w) :
    i.pred.queue = i.queue ∧ i.line = i.pred.line ++ [i.get (i.e - 1)] := by
  have hlt := h.lt_of_ne hne
  have hcontents : i.ring.contents = i.pred.ring.contents ++ [i.get (i.e - 1)] :=
    Ring.contents_concat (b := i.ring) (by rw [ring_length]; omega)
  have hle : (i.w - i.r).toNat ≤ i.pred.ring.contents.length := by
    have hlen : i.pred.ring.contents.length = (i.e - i.r).toNat - 1 :=
      length_ring.trans (h.length_pred hne)
    omega
  constructor
  · rw [queue, queue, hcontents, List.take_append_of_le_length hle]
    rfl
  · rw [line, line, hcontents, List.drop_append_of_le_length hle]
    rfl

theorem Ordered.pred (h : i.Ordered) (hne : i.e ≠ i.w) : i.pred.Ordered := by
  have hlt := h.lt_of_ne hne
  have he := h.length_pred hne
  have hle := h.bound
  refine ⟨?_, ?_, fun hmem => h.open_ ?_⟩
  · change (i.w - i.r).toNat ≤ (i.pred.e - i.r).toNat; omega
  · change (i.pred.e - i.r).toNat ≤ _; omega
  · rw [(h.pred_eq hne).2]
    exact List.mem_append_left _ hmem

/-- The line is empty. -/
theorem Ordered.line_eq_nil (h : i.Ordered) (heq : i.e = i.w) : i.line = [] := by
  have hadd := length_add (i := i)
  rw [h.length_queue, heq] at hadd
  exact List.length_eq_zero_iff.1 (by omega)

theorem backspace_spec (h : i.Ordered) :
    i.backspace.Ordered ∧ i.backspace.abs = ⟨i.queue, i.line.dropLast⟩ := by
  rw [backspace]
  split_ifs with hne
  · obtain ⟨hqueue, hline⟩ := h.pred_eq hne
    refine ⟨h.pred hne, ?_⟩
    rw [hline, List.dropLast_concat, ← hqueue]
    rfl
  · refine ⟨h, ?_⟩
    rw [abs, h.line_eq_nil (not_not.1 hne), List.dropLast_nil]

/-- The loop of `^U` goes on to the start of the line, as there is no newline in it. -/
theorem killLine_spec (k : ℕ) : ∀ {i : Input}, i.Ordered → i.line.length = k →
    (i.killLine k).Ordered ∧ (i.killLine k).abs = ⟨i.queue, []⟩ := by
  induction k with
  | zero =>
    intro i h hk
    exact ⟨h, by rw [killLine, abs, List.length_eq_zero_iff.1 hk]⟩
  | succ k ih =>
    intro i h hk
    have hne : i.e ≠ i.w := by
      intro heq
      rw [h.line_eq_nil heq] at hk
      cases hk
    obtain ⟨hqueue, hline⟩ := h.pred_eq hne
    have hlast : i.get (i.e - 1) ≠ newline := fun heq => h.open_ (by rw [hline, heq]; simp)
    have hlen : i.pred.line.length = k := by
      rw [hline, List.length_append, List.length_singleton] at hk
      omega
    rw [killLine, if_pos ⟨hne, hlast⟩, ← hqueue]
    exact ih (h.pred hne) hlen

theorem Ordered.length_line (h : i.Ordered) : i.line.length = (i.e - i.w).toNat := by
  have hadd := length_add (i := i)
  have heq : i.e - i.w = i.e - i.r - (i.w - i.r) := by grind
  rw [heq, UInt32.toNat_sub_of_le _ _ (UInt32.le_iff_toNat_le.2 h.le), ← h.length_queue]
  omega

theorem length_store (hroom : (i.e - i.r).toNat < INPUT_BUF) :
    ((i.store c).e - i.r).toNat = (i.e - i.r).toNat + 1 :=
  Ring.length_push (b := i.ring) (a := c) hroom (by decide)

theorem Ordered.store_eq (h : i.Ordered) (hroom : (i.e - i.r).toNat < INPUT_BUF) :
    (i.store c).queue = i.queue ∧ (i.store c).line = i.line ++ [c] := by
  have hcontents : (i.store c).ring.contents = i.ring.contents ++ [c] :=
    Ring.contents_push (b := i.ring) (by decide) (by decide) hroom
  have hle : (i.w - i.r).toNat ≤ i.ring.contents.length := by rw [length_ring]; exact h.le
  have hw : (i.store c).w - (i.store c).r = i.w - i.r := rfl
  constructor
  · rw [queue, queue, hcontents, hw, List.take_append_of_le_length hle]
  · rw [line, line, hcontents, hw, List.drop_append_of_le_length hle]

theorem commit_abs : i.commit.abs = i.abs.commit := by
  have hlen : (i.commit.w - i.commit.r).toNat = i.ring.contents.length := length_ring.symm
  have hring : i.commit.ring = i.ring := rfl
  rw [abs, queue, line, hlen, hring, List.take_length, List.drop_length, Line.commit, abs,
    queue_append_line]

theorem Ordered.commit (hbound : (i.e - i.r).toNat ≤ INPUT_BUF) : i.commit.Ordered := by
  refine ⟨le_rfl, hbound, ?_⟩
  have hline : i.commit.line = [] := congrArg Line.E commit_abs
  rw [hline]
  nofun

theorem put_spec (h : i.Ordered) (hroom : (i.e - i.r).toNat < INPUT_BUF) :
    (i.put c).1.Ordered ∧ (i.put c).1.abs = i.abs.append c := by
  rw [put, Line.append]
  generalize (if c = carriageReturn then newline else c) = c'
  obtain ⟨hqueue, hline⟩ := h.store_eq (c := c') hroom
  have hlen : ((i.store c').e - (i.store c').r).toNat = (i.e - i.r).toNat + 1 := length_store hroom
  have habs : (i.store c').abs = ⟨i.queue, i.line ++ [c']⟩ := by rw [abs, hqueue, hline]
  have hfull : (i.store c').e = (i.store c').r + UInt32.ofNat INPUT_BUF ↔
      i.queue.length + (i.line ++ [c']).length = INPUT_BUF := by
    rw [← hqueue, ← hline, length_add]
    exact (Ring.length_eq_iff (b := (i.store c').ring) (by decide)).symm
  have hiff : (c' = newline ∨ c' = ctrl 'D' ∨
      (i.store c').e = (i.store c').r + UInt32.ofNat INPUT_BUF) ↔
      (ends c' ∨ i.abs.C.length + (i.abs.E ++ [c']).length = INPUT_BUF) := by
    rw [hfull, ← or_assoc]
    rfl
  by_cases hends : ends c' ∨ i.abs.C.length + (i.abs.E ++ [c']).length = INPUT_BUF
  · simp only [if_pos (hiff.2 hends), if_pos hends]
    exact ⟨.commit (by omega), by rw [commit_abs, habs]; rfl⟩
  · simp only [if_neg (mt hiff.1 hends), if_neg hends]
    refine ⟨⟨?_, by omega, ?_⟩, habs⟩
    · have hle := h.le
      rw [hlen]
      exact hle.trans (Nat.le_succ _)
    · rw [hline, List.mem_append, List.mem_singleton, not_or]
      exact ⟨h.open_, fun hc => hends (.inl (.inl hc.symm))⟩

/-- A character does to the buffer what it should do to the line. -/
theorem key_spec (h : i.Ordered) (c : UInt8) :
    (i.key c).1.Ordered ∧ (i.key c).1.abs = i.abs.key c := by
  have hroom : i.e - i.r < UInt32.ofNat INPUT_BUF ↔
      i.abs.C.length + i.abs.E.length < INPUT_BUF := by
    rw [UInt32.lt_iff_toNat_lt, ← length_add]
    rfl
  rw [key, Line.key]
  simp only [hroom]
  split_ifs with hp hu hb hc
  · exact ⟨h, rfl⟩
  · exact killLine_spec _ h h.length_line
  · exact backspace_spec h
  · refine put_spec h ?_
    rw [← length_add]
    exact hc.2
  · exact ⟨h, rfl⟩

theorem pop_sub (j : UInt32) : j - i.pop.r = j - (i.r + 1) := rfl

/-- The first committed byte is taken. -/
theorem pop_spec (h : i.Ordered) (hne : i.r ≠ i.w) :
    i.pop.Ordered ∧ i.queue = i.get i.r :: i.pop.queue ∧ i.pop.line = i.line := by
  have hle := h.le
  have hbound := h.bound
  have hK : (i.w - i.r).toNat ≠ 0 := fun h0 => hne (by
    rw [← UInt32.toNat_zero, UInt32.toNat_inj, sub_eq_zero] at h0
    exact h0.symm)
  have hK' := toNat_sub_add_one hK
  have hL' := toNat_sub_add_one (w := i.e) (r := i.r) (by omega)
  have hcontents : i.ring.contents = i.get i.r :: i.pop.ring.contents :=
    Ring.contents_pop (by rw [ring_length]; omega)
  obtain ⟨k, hk⟩ := Nat.exists_eq_succ_of_ne_zero hK
  have hk' : (i.pop.w - i.pop.r).toNat = k := by
    rw [pop_sub]
    exact hK'.trans (by omega)
  have hline : i.pop.line = i.line := by
    rw [line, line, hcontents, hk, hk', List.drop_succ_cons]
  have he : (i.pop.e - i.pop.r).toNat = (i.e - i.r).toNat - 1 := by
    rw [pop_sub]
    exact hL'
  refine ⟨⟨by omega, by omega, hline ▸ h.open_⟩, ?_, hline⟩
  rw [queue, queue, hcontents, hk, hk', List.take_succ_cons]

theorem Ordered.queue_eq_nil_iff (h : i.Ordered) : i.queue = [] ↔ i.r = i.w := by
  rw [← List.length_eq_zero_iff, h.length_queue]
  exact Ring.length_eq_zero_iff (b := ⟨i.buf, i.r, i.w⟩)

/-! ## Which steps move which index -/

theorem killLine_w (k : ℕ) : ∀ i : Input, (i.killLine k).w = i.w ∧ (i.killLine k).r = i.r := by
  induction k with
  | zero => exact fun i => ⟨rfl, rfl⟩
  | succ k ih =>
    intro i
    rw [killLine]
    split_ifs
    · exact ih _
    · exact ⟨rfl, rfl⟩

theorem backspace_w : i.backspace.w = i.w ∧ i.backspace.r = i.r := by
  rw [backspace]
  split_ifs
  · exact ⟨rfl, rfl⟩
  · exact ⟨rfl, rfl⟩

theorem put_w : ((i.put c).2 = false → (i.put c).1.w = i.w) ∧ (i.put c).1.r = i.r := by
  rw [put]
  generalize (if c = carriageReturn then newline else c) = c'
  by_cases hc : c' = newline ∨ c' = ctrl 'D' ∨
      (i.store c').e = (i.store c').r + UInt32.ofNat INPUT_BUF
  · simp only [if_pos hc]
    exact ⟨nofun, rfl⟩
  · simp only [if_neg hc]
    exact ⟨fun _ => rfl, rfl⟩

/-- A character moves the write index only if the readers are to be woken up. -/
theorem key_w : ((i.key c).2 = false → (i.key c).1.w = i.w) ∧ (i.key c).1.r = i.r := by
  rw [key]
  split_ifs
  · exact ⟨fun _ => rfl, rfl⟩
  · exact ⟨fun _ => (killLine_w _ i).1, (killLine_w _ i).2⟩
  · exact ⟨fun _ => backspace_w.1, backspace_w.2⟩
  · exact put_w
  · exact ⟨fun _ => rfl, rfl⟩

end Input

/-! ## The data -/

/-- The bytes that were committed are the ones that were read and the ones that are in the queue. -/
structure Good (d : Data) : Prop where
  ordered : d.input.Ordered
  committed : d.committed = d.consumed ++ d.input.queue

variable {d : Data} {c : UInt8} {target n : ℕ} {dst : List UInt8}

/-- A character only appends to the queue. -/
theorem Line.prefix_key (a : Line) (c : UInt8) : a.C <+: (a.key c).C := by
  rw [key, append]
  split_ifs
  all_goals first | exact List.prefix_rfl | exact List.prefix_append ..

theorem Good.key (h : Good d) (c : UInt8) : Good (d.key c) := by
  obtain ⟨hordered, habs⟩ := Input.key_spec h.ordered c
  refine ⟨hordered, ?_⟩
  have hqueue : (d.input.key c).1.queue = (d.input.abs.key c).C := congrArg Line.C habs
  have hprefix : d.input.queue <+: (d.input.key c).1.queue := hqueue ▸ Line.prefix_key d.input.abs c
  have hdrop : d.input.queue ++ (d.input.key c).1.queue.drop d.input.queue.length =
      (d.input.key c).1.queue := List.prefix_iff_eq_append.1 hprefix
  change d.committed ++ _ = d.consumed ++ (d.input.key c).1.queue
  rw [h.committed, List.append_assoc, hdrop]

theorem Good.take (h : Good d) (hne : d.input.r ≠ d.input.w) : Good d.take := by
  obtain ⟨hordered, hqueue, -⟩ := Input.pop_spec h.ordered hne
  refine ⟨hordered, ?_⟩
  have hcommitted := h.committed
  rw [hqueue] at hcommitted
  change d.committed = d.consumed ++ [d.input.get d.input.r] ++ d.input.pop.queue
  rw [hcommitted, List.append_assoc]
  rfl

theorem Data.putBack_take (d : Data) : d.take.putBack = d := by
  have hr : d.input.r + 1 - 1 = d.input.r := by grind
  rw [putBack, take, Input.pop]
  simp only [hr, List.dropLast_concat]

/-- The bytes stored and the ones still wanted make up what the call asked for. -/
def Counted : Local → Prop
  | .intr _ | .wake _ => True
  | .read target n dst | .finish target n dst => dst.length + n = target

theorem readByte_good (h : Good d) (hne : d.input.r ≠ d.input.w) :
    Good (readByte d target n dst).1 := by
  rw [readByte]
  split_ifs
  · rw [Data.putBack_take]; exact h
  · exact h.take hne
  · exact h.take hne
  · exact h.take hne

theorem readByte_counted (hn : n ≠ 0) (h : dst.length + n = target) :
    Counted (readByte d target n dst).2 := by
  rw [readByte]
  split_ifs
  · exact h
  · exact h
  · rw [Counted, List.length_append, List.length_singleton]; omega
  · rw [Counted, List.length_append, List.length_singleton]; omega

theorem body_meets {killed : Bool} {l : Local} (hd : Good d) (hl : Counted l) :
    (body d killed l).Meets Good Counted := by
  cases l with
  | intr cs =>
    cases cs with
    | nil => trivial
    | cons c cs =>
      refine ⟨hd.key c, ?_⟩
      split_ifs
      · trivial
      · trivial
  | wake cs => trivial
  | read target n dst =>
    rw [body]
    split_ifs with hn hempty
    · trivial
    · trivial
    · exact hl
    · exact ⟨readByte_good hd hempty, readByte_counted hn hl⟩
  | finish target n dst => trivial

variable {s s' : State} {t : Pid} {a : Act Pid Call}

/-- The buffer is empty at the start. -/
theorem contents_of_init (h : monitor.init d) : d.input.ring.contents = [] := by
  obtain ⟨hrw, hwe, -, -⟩ := h
  refine List.length_eq_zero_iff.1 (Input.length_ring.trans ?_)
  rw [hrw, hwe, sub_self, UInt32.toNat_zero]

theorem good_of_reachable (h : system.Reachable Any s) :
    Good s.data ∧ ∀ t l, (s.pc t).code = some l → Counted l := by
  refine invariant_of_reachable (fun d hd => ?_) (@fun d _ _ c d' r hd hcall => ?_)
    (fun hd hl => body_meets hd hl) h
  · have hnil := contents_of_init hd
    obtain ⟨hrw, hwe, hcommitted, hconsumed⟩ := hd
    have hw : (d.input.w - d.input.r).toNat = 0 := by rw [hrw, sub_self, UInt32.toNat_zero]
    have he : (d.input.e - d.input.r).toNat = 0 := by rw [hrw, hwe, sub_self, UInt32.toNat_zero]
    refine ⟨⟨by omega, by omega, ?_⟩, ?_⟩
    · rw [Input.line, hnil, List.drop_nil]
      nofun
    · rw [hcommitted, hconsumed, Input.queue, hnil, List.take_nil, List.append_nil]
  · obtain ⟨rfl, rfl⟩ := Prod.mk.inj (Option.some.inj hcall)
    refine ⟨hd, fun l hl => ?_⟩
    obtain rfl := Sum.inr.inj hl
    cases c with
    | intr cs => trivial
    | read n => exact Nat.zero_add n

/-! ## Refinement -/

/-- What a process is doing, for the line discipline. -/
def readerOf (pc : Pc Chan Local Out) : Reader :=
  match pc.code with
  | some (.read target _ dst) => .reading target dst
  | some (.finish _ _ dst) => .finished dst
  | _ => .idle

/-- What the state stands for. -/
def tty (s : State) : Tty := ⟨s.data.input.abs, fun t => readerOf (s.pc t)⟩

/-- What a step does, for the line discipline, if anything. -/
def event (s : State) : Act Pid Call → Option Event
  | .call t (.read n) => some (.call t n)
  | .step t =>
    match s.pc t with
    | .inside (.intr (c :: _)) => some (.key c)
    | .inside (.read target n dst) =>
      if n = 0 then some (.ret t (some (target - n)) dst)
      else if s.data.input.r = s.data.input.w then
        if s.killed t then some (.ret t none dst) else none
      else some (.take t)
    | .inside (.finish target n dst) => some (.ret t (some (target - n)) dst)
    | _ => none
  | _ => none

theorem tty_eq {pc : Pc Chan Local Out} (hpc : s'.pc = update s.pc t pc) :
    tty s' = { line := s'.data.input.abs, reader := update (tty s).reader t (readerOf pc) } := by
  rw [tty, hpc]
  congr 1
  exact Function.comp_update readerOf s.pc t pc

theorem tty_of_init (h : system.init s) : tty s = ⟨⟨[], []⟩, fun _ => .idle⟩ := by
  have hnil := contents_of_init h.1
  rw [h.2, tty, Input.abs, Input.queue, Input.line]
  simp only [hnil, List.take_nil, List.drop_nil]
  rfl

theorem tty_goto (d : Data) (pc : Pc Chan Local Out) : tty { s.goto t pc with data := d } =
    { line := d.input.abs, reader := update (tty s).reader t (readerOf pc) } := tty_eq rfl

/-- A step that does nothing to the line, and leaves the process where it is. -/
theorem tty_of_eq {pc : Pc Chan Local Out} (hpc : s'.pc = update s.pc t pc)
    (hdata : s'.data = s.data) (hreader : readerOf pc = readerOf (s.pc t)) : tty s' = tty s := by
  rw [tty_eq hpc, hdata, hreader]
  congr 1
  exact update_eq_self t _

/-- The line after a byte was taken. -/
theorem take_abs (hd : Good d) (hne : d.input.r ≠ d.input.w) :
    d.take.input.abs = ⟨d.input.pop.queue, d.input.line⟩ := by
  obtain ⟨-, -, hline⟩ := Input.pop_spec hd.ordered hne
  rw [← hline]
  rfl

theorem readByte_step (hd : Good s.data) (hne : s.data.input.r ≠ s.data.input.w) (hn : n ≠ 0)
    (hcount : dst.length + n = target) (hpc : s.pc t = .inside (.read target n dst)) :
    (tty s).Step (.take t) (tty { s.goto t (.inside (readByte s.data target n dst).2) with
      data := (readByte s.data target n dst).1 }) := by
  have hreader : (tty s).reader t = .reading target dst := by
    change readerOf (s.pc t) = _
    rw [hpc]
    rfl
  obtain ⟨-, hqueue, -⟩ := Input.pop_spec hd.ordered hne
  have hC : (tty s).line.C = s.data.input.get s.data.input.r :: s.data.input.pop.queue := hqueue
  have habs := take_abs hd hne
  refine .take hreader ?_
  rw [tty_goto, Tty.take, hC]
  simp only
  rw [if_pos (by omega : dst.length < target), readByte]
  by_cases hD : s.data.input.get s.data.input.r = ctrl 'D'
  · simp only [if_pos hD]
    by_cases hnil : dst = []
    · -- the end of the file, as nothing was read
      have hlt : ¬n < target := by rw [← hcount, hnil, List.length_nil]; omega
      rw [if_neg hlt, if_pos hnil, habs]
      rfl
    · have hlt : n < target := by
        have := List.length_pos_iff.2 hnil
        omega
      rw [if_pos hlt, if_neg hnil, Data.putBack_take]
      rfl
  · simp only [if_neg hD]
    by_cases hnl : s.data.input.get s.data.input.r = newline
    · simp only [if_pos hnl, habs]
      rfl
    · simp only [if_neg hnl, habs]
      rfl

/-- A call returns. -/
theorem ret_step {o : Out} {r : Option ℕ} (hret : (tty s).ret t r dst) :
    (tty s).Step (.ret t r dst) (tty { s.goto t (.outside o) with lock := none }) := by
  have htty : tty { s.goto t (.outside o) with lock := none } = {
    line := s.data.input.abs
    reader := update (tty s).reader t (readerOf (.outside o)) } := tty_eq rfl
  rw [htty]
  exact .ret hret

/-- Every step is the step of the line discipline that it should be. -/
theorem tty_step (h : system.Reachable Any s) (hs : system.step s a = some s') :
    match event s a with
    | none => tty s' = tty s
    | some e => (tty s).Step e (tty s') := by
  obtain ⟨hd, hcount⟩ := good_of_reachable h
  obtain ⟨t, o, c, d, r, rfl, ho, hcall, rfl⟩ | ⟨t, rfl, hm⟩ | ⟨t, rfl, -, rfl⟩ := step_cases hs
  · obtain ⟨rfl, rfl⟩ := Prod.mk.inj (Option.some.inj hcall)
    cases c with
    | intr cs => exact tty_of_eq rfl rfl (by rw [ho]; rfl)
    | read n =>
      change (tty s).Step (.call t n) _
      rw [tty_goto]
      exact .call t n
  · have ht := hcount t
    rw [event]
    generalize hq : s.pc t = q at hm ht
    -- the steps of the lock and of `sleep` are none of the line discipline
    have stay {s'' : State} {pc : Pc Chan Local Out} (hpc : s''.pc = update s.pc t pc)
        (hdata : s''.data = s.data) (hreader : readerOf pc = readerOf q) : tty s'' = tty s :=
      tty_of_eq hpc hdata (hq ▸ hreader)
    have reader : (tty s).reader t = readerOf q := congrArg readerOf hq
    cases hm with
    | acquire l hchan hlock => exact stay rfl rfl rfl
    | unlock c l => exact stay rfl rfl rfl
    | sched c l => exact stay rfl rfl rfl
    | next l d l' hbody =>
      cases l with
      | intr cs =>
        cases cs with
        | nil => cases hbody
        | cons c cs =>
          obtain ⟨rfl, rfl⟩ := Op.next.inj hbody
          have hidle : readerOf (.inside (if (s.data.input.key c).2 then .wake cs else .intr cs)) =
              (tty s).reader t := by
            rw [reader]
            split_ifs
            · rfl
            · rfl
          rw [tty_goto, hidle, update_eq_self]
          have habs : (s.data.key c).input.abs = s.data.input.abs.key c :=
            (Input.key_spec hd.ordered c).2
          rw [habs]
          exact .key c
      | wake cs => cases hbody
      | read target n dst =>
        change body s.data (s.killed t) (.read target n dst) = .next d l' at hbody
        rw [body] at hbody
        split_ifs at hbody with hn hempty
        obtain ⟨rfl, rfl⟩ := Op.next.inj hbody
        simp only [if_neg hn, if_neg hempty]
        exact readByte_step hd hempty hn (ht _ rfl) hq
      | finish target n dst => cases hbody
    | wakeup l c l' hbody hgate =>
      cases l with
      | intr cs => cases cs <;> cases hbody
      | wake cs =>
        obtain ⟨-, rfl⟩ := Op.wakeup.inj hbody
        exact stay rfl rfl rfl
      | read target n dst =>
        change body s.data (s.killed t) (.read target n dst) = _ at hbody
        rw [body] at hbody
        split_ifs at hbody
      | finish target n dst => cases hbody
    | sleep l c l' hbody hgate =>
      cases l with
      | intr cs => cases cs <;> cases hbody
      | wake cs => cases hbody
      | read target n dst =>
        change body s.data (s.killed t) (.read target n dst) = _ at hbody
        rw [body] at hbody
        split_ifs at hbody with hn hempty hkilled
        obtain ⟨-, rfl⟩ := Op.sleep.inj hbody
        simp only [if_neg hn, if_pos hempty, if_neg hkilled]
        exact stay rfl rfl rfl
      | finish target n dst => cases hbody
    | leave l o hbody =>
      cases l with
      | intr cs =>
        cases cs with
        | nil => exact stay rfl rfl rfl
        | cons c cs => cases hbody
      | wake cs => cases hbody
      | read target n dst =>
        have hlen : dst.length + n = target := ht _ rfl
        change body s.data (s.killed t) (.read target n dst) = _ at hbody
        rw [body] at hbody
        split_ifs at hbody with hn hempty hkilled
        · simp only [if_pos hn]
          refine ret_step ?_
          rw [Tty.ret, reader]
          exact ⟨rfl, .inl ⟨by omega, by rw [hn]; rfl⟩⟩
        · simp only [if_neg hn, if_pos hempty, if_pos hkilled]
          refine ret_step ?_
          rw [Tty.ret, reader]
          exact ⟨rfl, .inr ⟨hd.ordered.queue_eq_nil_iff.2 hempty, rfl⟩⟩
      | finish target n dst =>
        have hlen : dst.length + n = target := ht _ rfl
        refine ret_step ?_
        rw [Tty.ret, reader]
        exact ⟨rfl, congrArg some (by omega)⟩
  · rfl

/-! ## Wakeups -/

/-- The handler wakes up the readers when it has committed a line. -/
theorem pays : Pays monitor (Any (σ := State)) (fun d _ => d.input.r = d.input.w)
    fun l _ => ∃ cs, l = .wake cs where
  call _ _ hcall _ hr := by
    obtain ⟨rfl, -⟩ := Prod.mk.inj (Option.some.inj hcall)
    exact hr
  next := by
    intro s t l d l' c _ _ _ hbody
    cases l with
    | intr cs =>
      cases cs with
      | nil => cases hbody
      | cons c cs =>
        obtain ⟨rfl, rfl⟩ := Op.next.inj hbody
        refine ⟨fun hr => ?_, nofun⟩
        obtain ⟨hw, hr'⟩ := Input.key_w (i := s.data.input) (c := c)
        cases hk : (s.data.input.key c).2 with
        | true => exact .inr ⟨cs, if_pos rfl⟩
        | false => exact .inl (hr'.trans (hr.trans (hw hk).symm))
    | wake cs => cases hbody
    | read target n dst =>
      change body s.data (s.killed t) (.read target n dst) = _ at hbody
      rw [body] at hbody
      split_ifs at hbody with hn hempty
      exact ⟨fun hr => absurd hr hempty, nofun⟩
    | finish target n dst => cases hbody
  wakeup := by
    rintro s t l ⟨⟩ ⟨⟩ l' _ _ _ _
    exact .inl rfl
  sleep := by
    intro s t l c l' _ _ hbody
    cases l with
    | intr cs => cases cs <;> cases hbody
    | wake cs => cases hbody
    | read target n dst =>
      change body s.data (s.killed t) (.read target n dst) = _ at hbody
      rw [body] at hbody
      split_ifs at hbody with hn hempty
      exact ⟨hempty, nofun⟩
    | finish target n dst => cases hbody
  leave := by
    rintro s t l o c _ _ hbody ⟨cs, rfl⟩
    cases hbody

/-- The indices stay in order; the line is empty at the start, and every step of the handler or of a
    reader is a step of the line discipline; the bytes that were committed are those that were read,
    in order, and then those that are in the queue; and no reader sleeps while there are committed
    bytes. -/
theorem console_refines (h : system.Reachable Any s) :
    ((s.data.input.w - s.data.input.r).toNat ≤ (s.data.input.e - s.data.input.r).toNat ∧
      (s.data.input.e - s.data.input.r).toNat ≤ INPUT_BUF) ∧
    (tty s).line.C.length + (tty s).line.E.length ≤ INPUT_BUF ∧
    (system.init s → tty s = ⟨⟨[], []⟩, fun _ => .idle⟩) ∧
    (∀ a s', system.step s a = some s' →
      match event s a with
      | none => tty s' = tty s
      | some e => (tty s).Step e (tty s')) ∧
    s.data.committed = s.data.consumed ++ (tty s).line.C ∧
    (s.lock = none → s.data.input.r ≠ s.data.input.w → ∀ t, s.chan t ≠ some .r) := by
  have hd := (good_of_reachable h).1
  refine ⟨⟨hd.ordered.le, hd.ordered.bound⟩, ?_, tty_of_init, fun a s' => tty_step h,
    hd.committed, ?_⟩
  · exact Input.length_add.trans_le hd.ordered.bound
  · exact fun hlock hne t hc => hne (pays.reason_of_chan h hlock hc)

/-- An empty buffer, with the indices about to wrap around. -/
def wrapping : State where
  data := { input := { buf := fun _ => 0, r := 0xffffffff, w := 0xffffffff, e := 0xffffffff } }
  pc := fun _ => .outside .idle

/-- A line of two characters and a newline arrives, with one more that is taken back. Process 1
    reads two bytes. -/
theorem console_refines_wrapping : ∃ s : State, system.Reachable Any s ∧
    s.data.consumed = [97, 98] ∧ (tty s).line.C = [newline] := by
  obtain ⟨s, hs, hP⟩ := exists_reachable (S := system) (s := wrapping) ⟨⟨rfl, rfl, rfl, rfl⟩, rfl⟩
    (show (system.exec Any wrapping ([.call 0 (.intr [97, 99, 8, 98, 13])] ++
        List.replicate 8 (.step 0) ++ [.call 1 (.read 2)] ++ List.replicate 4 (.step 1))).any
      (fun s => decide (s.data.committed = [97, 98, newline] ∧ s.data.consumed = [97, 98])) by
      decide +kernel)
  obtain ⟨hcommitted, hconsumed⟩ := of_decide_eq_true hP
  obtain ⟨-, -, -, -, hqueue, -⟩ := console_refines hs
  rw [hcommitted, hconsumed] at hqueue
  exact ⟨s, hs, hconsumed,
    (List.append_cancel_left (show [97, 98] ++ [newline] = [97, 98] ++ _ from hqueue)).symm⟩

end Xv6.Console
