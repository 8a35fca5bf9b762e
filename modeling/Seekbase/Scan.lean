/-
# Seekbase.Scan — where a pipeline text is cut, and that nothing of it is lost.

The splitter looks ahead twice: a doubled quote does not end a literal, and a doubled pipe is not a cut.
Neither look is needed to say what it does.  A literal that ends and begins again is the same literal,
and of a run of pipes the first pairs up with the second, so one automaton over the characters, with
the open quote and the parity of the run, says at every place whether a pipe there is a cut.

* `Scan`, `Scan.step`, `Scan.over` — the automaton;
* `IsCut`, `cuts_iff`      — the splitter cuts exactly at an unpaired pipe outside literals;
* `cutPipes_append`        — a cut splits the text into two texts that are split alone;
* `split_lossless`         — nothing is lost, and the stripped pieces are split into themselves.
-/
import Seekbase.Text
import Mathlib.Data.List.DropRight
import Mathlib.Data.List.ModifyLast

namespace Seekbase

/-! ## The automaton -/

/-- Outside literals, after an odd run of pipes or not; or in a literal. -/
inductive Scan where
  | code (odd : Bool)
  | quoted (q : Char)
  deriving DecidableEq

def Scan.step : Scan → Char → Scan
  | .code odd, c => if isQuote c then .quoted c else if c = '|' then .code !odd else .code false
  | .quoted q, c => if c = q then .code false else .quoted q

def Scan.over (s : Scan) (cs : List Char) : Scan := cs.foldl Scan.step s

/-- The state the splitter's loop is in. -/
def Scan.ofQuote : Option Char → Scan
  | none => .code false
  | some q => .quoted q

/-- The splitter's quote is one. -/
def QuoteState (q : Option Char) : Prop := ∀ c, q = some c → isQuote c = true

/-- Between these parts of a text the pipe is a cut: outside literals, and neither the second of a pair
nor the first of one. -/
def IsCut (s : Scan) (x y : List Char) : Prop := s.over x = .code false ∧ y.head? ≠ some '|'

/-- The pieces as they were in the text. -/
def joined (ps : List (List Char)) : List Char := ['|'].intercalate ps

/-- The pieces meet between these parts. -/
def MeetAt (ps : List (List Char)) (x y : List Char) : Prop :=
  ∃ a b, a ≠ [] ∧ b ≠ [] ∧ ps = a ++ b ∧ x = joined a ∧ y = joined b

@[simp] theorem Scan.over_nil (s : Scan) : s.over [] = s := rfl

@[simp] theorem Scan.over_cons (s : Scan) (c : Char) (cs : List Char) :
    s.over (c :: cs) = (s.step c).over cs := rfl

theorem Scan.over_append (s : Scan) (a b : List Char) : s.over (a ++ b) = (s.over a).over b :=
  List.foldl_append

theorem step_quote {odd : Bool} {c : Char} (h : isQuote c = true) :
    (Scan.code odd).step c = .quoted c := if_pos h

theorem step_pipe (odd : Bool) : (Scan.code odd).step '|' = .code !odd := rfl

theorem step_plain {odd : Bool} {c : Char} (hq : isQuote c = false) (hc : c ≠ '|') :
    (Scan.code odd).step c = .code false :=
  (if_neg (Bool.eq_false_iff.mp hq)).trans (if_neg hc)

theorem step_closing (q : Char) : (Scan.quoted q).step q = .code false := if_pos rfl

theorem step_inside {c q : Char} (h : c ≠ q) : (Scan.quoted q).step c = .quoted q := if_neg h

theorem quoteState_none : QuoteState none := fun _ h => nomatch h

theorem quoteState_some {c : Char} (h : isQuote c = true) : QuoteState (some c) :=
  fun _ hd => Option.some.inj hd ▸ h

theorem ne_pipe_of_quote {c : Char} (h : isQuote c = true) : c ≠ '|' := by
  rintro rfl
  cases h

/-- The pipe before these characters is not the first of a pair. -/
theorem head_ne_pipe {rest : List Char} (h : ∀ rest', rest = '|' :: rest' → False) :
    rest.head? ≠ some '|' := by
  cases rest with
  | nil => simp
  | cons c rest =>
    intro hc
    exact h rest (by rw [Option.some.inj hc])

theorem joined_cons {p : List Char} {ps : List (List Char)} (h : ps ≠ []) :
    joined (p :: ps) = p ++ '|' :: joined ps := by
  cases ps with
  | nil => exact absurd rfl h
  | cons q ps => simp [joined, List.intercalate]

@[simp] theorem joined_singleton (p : List Char) : joined [p] = p := by
  simp [joined, List.intercalate]

/-! ## The splitter -/

theorem cutPipes_nil (q : Option Char) (buf : List Char) : cutPipes q buf [] = [buf] := rfl

theorem cutPipes_last (q : Char) (buf : List Char) : cutPipes (some q) buf [q] = [buf ++ [q]] :=
  if_pos rfl

theorem cutPipes_quote {buf rest : List Char} {c : Char} (h : isQuote c = true) :
    cutPipes none buf (c :: rest) = cutPipes (some c) (buf ++ [c]) rest := by
  rw [cutPipes.eq_def]
  exact if_pos h

theorem cutPipes_plain {buf rest : List Char} {c : Char} (h : isQuote c = false) (hc : c ≠ '|') :
    cutPipes none buf (c :: rest) = cutPipes none (buf ++ [c]) rest := by
  rw [cutPipes.eq_def]
  exact (if_neg (Bool.eq_false_iff.mp h)).trans (if_neg hc)

theorem cutPipes_inside {buf rest : List Char} {c q : Char} (h : c ≠ q) :
    cutPipes (some q) buf (c :: rest) = cutPipes (some q) (buf ++ [c]) rest := by
  rw [cutPipes.eq_def]
  exact if_neg h

theorem cutPipes_doubled {buf rest : List Char} {q : Char} :
    cutPipes (some q) buf (q :: q :: rest) = cutPipes (some q) (buf ++ [q, q]) rest :=
  (if_pos rfl).trans (if_pos rfl)

theorem cutPipes_closing {buf rest : List Char} {q d : Char} (h : d ≠ q) :
    cutPipes (some q) buf (q :: d :: rest) = cutPipes none (buf ++ [q]) (d :: rest) :=
  (if_pos rfl).trans (if_neg h)

theorem cutPipes_pair {buf rest : List Char} :
    cutPipes none buf ('|' :: '|' :: rest) = cutPipes none (buf ++ ['|', '|']) rest := rfl

theorem cutPipes_pipe {buf y : List Char} (h : y.head? ≠ some '|') :
    cutPipes none buf ('|' :: y) = buf :: cutPipes none [] y := by
  cases y with
  | nil => rfl
  | cons c y =>
    have hc : c ≠ '|' := fun he => h (by rw [he]; rfl)
    simp [cutPipes, isQuote, hc]

/-- Joined by pipes, the pieces are the text. -/
theorem joined_cutPipes (q : Option Char) (buf cs : List Char) :
    joined (cutPipes q buf cs) = buf ++ cs := by
  fun_induction cutPipes q buf cs with
  | case8 buf rest _ _ ih =>
    rw [joined_cons (cutPipes_ne_nil _ _ _), ih]
    rfl
  | _ => simp_all

theorem meetAt_cons_iff {p : List Char} {ps : List (List Char)} {x y : List Char} (h : ps ≠ []) :
    MeetAt (p :: ps) x y ↔ x = p ∧ y = joined ps ∨ ∃ x', x = p ++ '|' :: x' ∧ MeetAt ps x' y := by
  constructor
  · rintro ⟨a, b, ha, hb, hps, rfl, rfl⟩
    cases a with
    | nil => exact absurd rfl ha
    | cons a as =>
      obtain ⟨rfl, rfl⟩ := List.cons.inj hps
      cases as with
      | nil => exact Or.inl ⟨joined_singleton p, rfl⟩
      | cons a as =>
        refine Or.inr ⟨joined (a :: as), joined_cons (List.cons_ne_nil _ _), ?_⟩
        exact ⟨a :: as, b, List.cons_ne_nil _ _, hb, rfl, rfl, rfl⟩
  · rintro (⟨rfl, rfl⟩ | ⟨x', rfl, a, b, ha, hb, rfl, rfl, rfl⟩)
    · exact ⟨[x], ps, List.cons_ne_nil _ _, h, rfl, (joined_singleton x).symm, rfl⟩
    · exact ⟨p :: a, b, List.cons_ne_nil _ _, hb, rfl, (joined_cons ha).symm, rfl⟩

/-- A character after a pipe that is not one ends the run. -/
theorem step_after_pipe {c : Char} (h : c ≠ '|') (odd : Bool) :
    (Scan.code odd).step c = (Scan.code false).step c := by
  by_cases hq : isQuote c = true
  · rw [step_quote hq, step_quote hq]
  · rw [step_plain (by simpa using hq) h, step_plain (by simpa using hq) h]

/-- The first piece begins with what was read before. -/
theorem cutPipes_head (q : Option Char) (buf cs : List Char) :
    ∃ t ps, cutPipes q buf cs = (buf ++ t) :: ps := by
  fun_induction cutPipes q buf cs with
  | case1 buf => exact ⟨[], [], by simp⟩
  | case4 buf c => exact ⟨[c], [], rfl⟩
  | case8 buf rest => exact ⟨[], _, by rw [List.append_nil]⟩
  | case2 buf d rest ih | case7 buf rest _ ih =>
    obtain ⟨t, ps, hps⟩ := ih
    exact ⟨_, ps, by rw [hps, List.append_assoc]⟩
  | case3 buf c d rest _ ih | case5 q buf c rest _ ih | case6 buf c rest _ ih
  | case9 buf c rest _ _ ih =>
    obtain ⟨t, ps, hps⟩ := ih
    exact ⟨_, ps, by rw [hps, List.append_assoc]⟩

/-- No two pieces meet before that. -/
theorem meetAt_length {q : Option Char} {buf cs x y : List Char}
    (h : MeetAt (cutPipes q buf cs) x y) : buf.length ≤ x.length := by
  obtain ⟨t, ps, hps⟩ := cutPipes_head q buf cs
  obtain ⟨a, b, ha, hb, hab, rfl, -⟩ := h
  cases a with
  | nil => exact absurd rfl ha
  | cons p a =>
    rw [hps, List.cons_append] at hab
    obtain ⟨rfl, -⟩ := List.cons.inj hab
    cases a with
    | nil =>
      rw [joined_singleton, List.length_append]
      omega
    | cons p a =>
      rw [joined_cons (List.cons_ne_nil _ _), List.length_append, List.length_append]
      omega

/-- One character that is not a cut. -/
theorem cuts_next {q : Option Char} {buf cs x y : List Char} {c : Char} {s : Scan}
    (hx : c :: cs = x ++ '|' :: y) (hc : c = '|' → s ≠ .code false)
    (ih : ∀ x', cs = x' ++ '|' :: y →
      (MeetAt (cutPipes q (buf ++ [c]) cs) (buf ++ [c] ++ x') y ↔ IsCut (s.step c) x' y)) :
    MeetAt (cutPipes q (buf ++ [c]) cs) (buf ++ x) y ↔ IsCut s x y := by
  cases x with
  | nil =>
    obtain ⟨rfl, rfl⟩ := List.cons.inj hx
    constructor
    · intro h
      have hlen := meetAt_length h
      simp only [List.length_append, List.length_singleton, List.length_nil] at hlen
      omega
    · intro h
      exact absurd h.1 (hc rfl)
  | cons d x =>
    obtain ⟨rfl, hcs⟩ := List.cons.inj hx
    rw [List.append_cons buf c x]
    exact ih x hcs

/-- The splitter cuts exactly at the pipes that are cuts. -/
theorem cuts_iff (q : Option Char) (buf cs : List Char) (hq : QuoteState q) (x y : List Char)
    (hcs : cs = x ++ '|' :: y) :
    MeetAt (cutPipes q buf cs) (buf ++ x) y ↔ IsCut (Scan.ofQuote q) x y := by
  fun_induction cutPipes q buf cs generalizing x with
  | case1 => simp at hcs
  | case2 buf d rest ih =>
    have hd := ne_pipe_of_quote (hq d rfl)
    rcases x with _ | ⟨e, _ | ⟨f, x⟩⟩
    · exact absurd (List.cons.inj hcs).1 hd
    · exact absurd (List.cons.inj (List.cons.inj hcs).2).1 hd
    · simp only [List.cons_append, List.cons.injEq] at hcs
      obtain ⟨rfl, rfl, hcs⟩ := hcs
      -- a literal that ends and begins again is the same literal
      have hover : IsCut (.quoted d) (d :: d :: x) y ↔ IsCut (.quoted d) x y := by
        rw [IsCut, Scan.over_cons, Scan.over_cons, step_closing, step_quote (hq d rfl), IsCut]
      rw [Scan.ofQuote, hover, show buf ++ d :: d :: x = buf ++ [d, d] ++ x by simp]
      exact ih hq x hcs
  | case3 buf c d rest hne ih =>
    have hc := ne_pipe_of_quote (hq c rfl)
    refine cuts_next hcs (absurd · hc) fun x' hx' => ?_
    rw [Scan.ofQuote, step_closing]
    exact ih quoteState_none x' hx'
  | case4 buf c =>
    have hc := ne_pipe_of_quote (hq c rfl)
    cases x with
    | nil => exact absurd (List.cons.inj hcs).1 hc
    | cons d x => simp at hcs
  | case5 q buf c rest hne ih =>
    refine cuts_next hcs (by simp [Scan.ofQuote]) fun x' hx' => ?_
    rw [Scan.ofQuote, step_inside hne]
    exact ih hq x' hx'
  | case6 buf c rest hquote ih =>
    have hc := ne_pipe_of_quote hquote
    refine cuts_next hcs (absurd · hc) fun x' hx' => ?_
    rw [Scan.ofQuote, step_quote hquote]
    exact ih (quoteState_some hquote) x' hx'
  | case7 buf rest _ ih =>
    rcases x with _ | ⟨e, _ | ⟨f, x⟩⟩
    · obtain ⟨-, rfl⟩ := List.cons.inj hcs
      constructor
      · intro h
        have hlen := meetAt_length h
        simp only [List.length_append, List.length_cons, List.length_nil] at hlen
        omega
      · intro h
        exact absurd rfl h.2
    · simp only [List.cons_append, List.nil_append, List.cons.injEq] at hcs
      obtain ⟨rfl, -, rfl⟩ := hcs
      constructor
      · intro h
        have hlen := meetAt_length h
        simp only [List.length_append, List.length_cons, List.length_nil] at hlen
        omega
      · intro h
        exact absurd h.1 (by decide)
    · simp only [List.cons_append, List.cons.injEq] at hcs
      obtain ⟨rfl, rfl, hcs⟩ := hcs
      have hover : IsCut (.code false) ('|' :: '|' :: x) y ↔ IsCut (.code false) x y := Iff.rfl
      rw [Scan.ofQuote, hover, show buf ++ '|' :: '|' :: x = buf ++ ['|', '|'] ++ x by simp]
      exact ih hq x hcs
  | case8 buf rest hne _ ih =>
    rw [meetAt_cons_iff (cutPipes_ne_nil _ _ _), joined_cutPipes, List.nil_append]
    cases x with
    | nil =>
      obtain ⟨-, rfl⟩ := List.cons.inj hcs
      exact ⟨fun _ => ⟨rfl, head_ne_pipe hne⟩, fun _ => Or.inl ⟨List.append_nil _, rfl⟩⟩
    | cons e x =>
      obtain ⟨rfl, hrest⟩ := List.cons.inj hcs
      have hx := ih hq x hrest
      rw [List.nil_append] at hx
      have hover : IsCut (.code false) ('|' :: x) y ↔ IsCut (.code false) x y := by
        -- the next character is no pipe, so the run ends with this one
        cases x with
        | nil => exact absurd hrest (hne y)
        | cons c x =>
          have hc : c ≠ '|' := fun he => hne (x ++ '|' :: y) (by rw [hrest, he]; rfl)
          rw [IsCut, IsCut, Scan.over_cons, Scan.over_cons, Scan.over_cons]
          rw [step_pipe, step_after_pipe hc]
      rw [Scan.ofQuote, hover, ← Scan.ofQuote, ← hx]
      constructor
      · rintro (⟨h, -⟩ | ⟨x', h, hmeet⟩)
        · simp at h
        · obtain rfl := (List.cons.inj (List.append_cancel_left h)).2
          exact hmeet
      · intro hmeet
        exact Or.inr ⟨x, rfl, hmeet⟩
  | case9 buf c rest hquote hpipe ih =>
    refine cuts_next hcs (absurd · hpipe) fun x' hx' => ?_
    rw [Scan.ofQuote, step_plain (by simpa using hquote) hpipe]
    exact ih hq x' hx'

/-! ## The pieces -/

/-- Every piece but the last ends outside literals, and not after the first pipe of a pair. -/
theorem cutPipes_closed (q : Option Char) (buf cs : List Char) (hq : QuoteState q)
    (hbuf : (Scan.code false).over buf = Scan.ofQuote q) :
    ∀ p ∈ (cutPipes q buf cs).dropLast, (Scan.code false).over p = .code false := by
  fun_induction cutPipes q buf cs with
  | case1 | case4 => simp
  | case2 buf d rest ih =>
    refine ih hq ?_
    rw [Scan.over_append, hbuf, Scan.ofQuote, Scan.over_cons, Scan.over_cons, step_closing,
      step_quote (hq d rfl), Scan.over_nil]
  | case3 buf c d rest hne ih =>
    refine ih quoteState_none ?_
    rw [Scan.over_append, hbuf]
    exact step_closing c
  | case5 q buf c rest hne ih =>
    refine ih hq ?_
    rw [Scan.over_append, hbuf]
    exact step_inside hne
  | case6 buf c rest hquote ih =>
    refine ih (quoteState_some hquote) ?_
    rw [Scan.over_append, hbuf]
    exact step_quote hquote
  | case7 buf rest _ ih =>
    refine ih hq ?_
    rw [Scan.over_append, hbuf]
    rfl
  | case8 buf rest _ _ ih =>
    intro p hp
    rw [List.dropLast_cons_of_ne_nil (cutPipes_ne_nil _ _ _)] at hp
    rcases List.mem_cons.mp hp with rfl | hp
    · exact hbuf
    · exact ih hq rfl p hp
  | case9 buf c rest hquote hpipe ih =>
    refine ih hq ?_
    rw [Scan.over_append, hbuf]
    exact step_plain (by simpa using hquote) hpipe

/-- A cut splits the text into two that are split alone. -/
theorem cutPipes_append (q : Option Char) (buf x y : List Char) (hq : QuoteState q)
    (h : IsCut (Scan.ofQuote q) x y) :
    cutPipes q buf (x ++ '|' :: y) = cutPipes q buf x ++ cutPipes none [] y := by
  fun_induction cutPipes q buf x with
  | case1 q buf =>
    cases q with
    | none => exact cutPipes_pipe h.2
    | some q => exact absurd h.1 (by simp [Scan.ofQuote])
  | case2 buf d rest ih =>
    have hrest : IsCut (.quoted d) rest y := by
      rwa [IsCut, Scan.ofQuote, Scan.over_cons, Scan.over_cons, step_closing,
        step_quote (hq d rfl)] at h
    rw [← ih hq hrest]
    exact cutPipes_doubled
  | case3 buf c d rest hne ih =>
    have hrest : IsCut (.code false) (d :: rest) y := by
      rwa [IsCut, Scan.ofQuote, Scan.over_cons, step_closing] at h
    rw [← ih quoteState_none hrest]
    exact cutPipes_closing hne
  | case4 buf c =>
    have hc := ne_pipe_of_quote (hq c rfl)
    rw [List.singleton_append, cutPipes_closing (Ne.symm hc)]
    exact cutPipes_pipe h.2
  | case5 q buf c rest hne ih =>
    have hrest : IsCut (.quoted q) rest y := by
      rwa [IsCut, Scan.ofQuote, Scan.over_cons, step_inside hne] at h
    rw [← ih hq hrest]
    exact cutPipes_inside hne
  | case6 buf c rest hquote ih =>
    have hrest : IsCut (.quoted c) rest y := by
      rwa [IsCut, Scan.ofQuote, Scan.over_cons, step_quote hquote] at h
    rw [← ih (quoteState_some hquote) hrest]
    exact cutPipes_quote hquote
  | case7 buf rest _ ih =>
    rw [← ih hq h]
    exact cutPipes_pair
  | case8 buf rest hne _ ih =>
    cases rest with
    | nil => exact absurd h.1 (by decide)
    | cons c rest =>
      have hc : c ≠ '|' := fun he => hne rest (by rw [he])
      have hrest : IsCut (.code false) (c :: rest) y := by
        rw [IsCut, Scan.over_cons, ← step_after_pipe hc true]
        exact h
      have hsplit := ih hq hrest
      show _ = buf :: (cutPipes none [] (c :: rest) ++ cutPipes none [] y)
      rw [← hsplit]
      exact cutPipes_pipe (by simpa using hc)
  | case9 buf c rest hquote hpipe ih =>
    have hrest : IsCut (.code false) rest y := by
      rwa [IsCut, Scan.ofQuote, Scan.over_cons, step_plain (by simpa using hquote) hpipe] at h
    rw [← ih hq hrest]
    exact cutPipes_plain (by simpa using hquote) hpipe

/-- What was read before is only carried. -/
theorem cutPipes_buf (q : Option Char) (b buf cs : List Char) :
    cutPipes q (b ++ buf) cs = (cutPipes q buf cs).modifyHead (b ++ ·) := by
  fun_induction cutPipes q buf cs with
  | case1 => rfl
  | case2 buf d rest ih =>
    rw [← ih, ← List.append_assoc]
    exact cutPipes_doubled
  | case3 buf c d rest hne ih =>
    rw [← ih, ← List.append_assoc]
    exact cutPipes_closing hne
  | case4 buf c => simp [cutPipes_last]
  | case5 q buf c rest hne ih =>
    rw [← ih, ← List.append_assoc]
    exact cutPipes_inside hne
  | case6 buf c rest hquote ih =>
    rw [← ih, ← List.append_assoc]
    exact cutPipes_quote hquote
  | case7 buf rest _ ih =>
    rw [← ih, ← List.append_assoc]
    exact cutPipes_pair
  | case8 buf rest hne _ ih =>
    exact cutPipes_pipe (head_ne_pipe hne)
  | case9 buf c rest hquote hpipe ih =>
    rw [← ih, ← List.append_assoc]
    exact cutPipes_plain (by simpa using hquote) hpipe

theorem modifyLast_cons {α : Type} (f : α → α) (a : α) {l : List α} (h : l ≠ []) :
    (a :: l).modifyLast f = a :: l.modifyLast f :=
  List.modifyLast_append_of_right_ne_nil f [a] l h

/-- A character at the end that is neither quote nor pipe belongs to the last piece. -/
theorem cutPipes_snoc (q : Option Char) (buf cs : List Char) {c : Char} (hc : isQuote c = false)
    (hp : c ≠ '|') (hq : QuoteState q) :
    cutPipes q buf (cs ++ [c]) = (cutPipes q buf cs).modifyLast (· ++ [c]) := by
  fun_induction cutPipes q buf cs with
  | case1 q buf =>
    cases q with
    | none => exact cutPipes_plain hc hp
    | some q =>
      have hne : c ≠ q := fun he => absurd (hq q rfl) (by rw [← he, hc]; decide)
      exact cutPipes_inside hne
  | case2 buf d rest ih =>
    rw [← ih hq]
    exact cutPipes_doubled
  | case3 buf e d rest hne ih =>
    rw [← ih quoteState_none]
    exact cutPipes_closing hne
  | case4 buf e =>
    have hne : c ≠ e := fun he => absurd (hq e rfl) (by rw [← he, hc]; decide)
    refine (cutPipes_closing hne).trans ?_
    exact cutPipes_plain hc hp
  | case5 q buf e rest hne ih =>
    rw [← ih hq]
    exact cutPipes_inside hne
  | case6 buf e rest hquote ih =>
    rw [← ih (quoteState_some hquote)]
    exact cutPipes_quote hquote
  | case7 buf rest _ ih =>
    rw [← ih hq]
    exact cutPipes_pair
  | case8 buf rest hne _ ih =>
    rw [modifyLast_cons _ _ (cutPipes_ne_nil _ _ _), ← ih hq]
    refine cutPipes_pipe ?_
    intro hhead
    cases rest with
    | nil => exact hp (Option.some.inj hhead)
    | cons e rest => exact hne rest (by rw [Option.some.inj hhead])
  | case9 buf e rest hquote hpipe ih =>
    rw [← ih hq]
    exact cutPipes_plain (by simpa using hquote) hpipe

/-- No pipe in the text is a cut. -/
def Uncut (p : List Char) : Prop := ∀ x y, p = x ++ '|' :: y → ¬ IsCut (.code false) x y

theorem cutPipes_of_uncut {p : List Char} (h : Uncut p) : cutPipes none [] p = [p] := by
  have hjoined := joined_cutPipes none [] p
  rw [List.nil_append] at hjoined
  cases hps : cutPipes none [] p with
  | nil => exact absurd hps (cutPipes_ne_nil _ _ _)
  | cons a ps =>
    cases ps with
    | nil =>
      rw [hps, joined_singleton] at hjoined
      rw [hjoined]
    | cons b ps =>
      rw [hps, joined_cons (List.cons_ne_nil _ _)] at hjoined
      have hmeet : MeetAt (cutPipes none [] p) ([] ++ a) (joined (b :: ps)) := by
        rw [hps]
        exact (meetAt_cons_iff (List.cons_ne_nil _ _)).mpr (Or.inl ⟨rfl, rfl⟩)
      have hcut := (cuts_iff none [] p quoteState_none a _ hjoined.symm).mp hmeet
      exact absurd hcut (h a _ hjoined.symm)

/-- One more character is no cut in the middle of a literal, nor one that is no pipe. -/
theorem Uncut.snoc {p : List Char} {c : Char} (h : Uncut p)
    (hp : (Scan.code false).over p ≠ .code true)
    (hc : c = '|' → (Scan.code false).over p ≠ .code false) : Uncut (p ++ [c]) := by
  intro x y hxy hcut
  rcases List.eq_nil_or_concat y with rfl | ⟨y, d, rfl⟩
  · obtain ⟨rfl, hpipe⟩ := List.append_inj' hxy rfl
    exact hc (List.cons.inj hpipe).1 hcut.1
  · rw [List.concat_eq_append, ← List.cons_append, ← List.append_assoc] at hxy
    obtain ⟨rfl, hd⟩ := List.append_inj' hxy rfl
    cases y with
    | nil =>
      rw [Scan.over_append, hcut.1] at hp
      exact hp rfl
    | cons e y => exact h x (e :: y) rfl ⟨hcut.1, by simpa using hcut.2⟩

/-- Nor a pair of pipes. -/
theorem Uncut.pair {p : List Char} (h : Uncut p) (hp : (Scan.code false).over p = .code false) :
    Uncut (p ++ ['|', '|']) := by
  intro x y hxy hcut
  rcases List.append_eq_append_iff.mp hxy with ⟨e, rfl, hy⟩ | ⟨e, rfl, hy⟩
  · match e with
    | [] =>
      obtain ⟨-, rfl⟩ := List.cons.inj hy
      exact hcut.2 rfl
    | [f] =>
      -- the second pipe comes after an odd run
      obtain ⟨rfl, -⟩ := List.cons.inj hy
      have hodd := hcut.1
      rw [Scan.over_append, hp] at hodd
      cases hodd
    | f :: g :: e => simp at hy
  · cases e with
    | nil =>
      obtain ⟨-, rfl⟩ := List.cons.inj hy
      exact hcut.2 rfl
    | cons f e =>
      obtain ⟨rfl, rfl⟩ := List.cons.inj hy
      refine h x e rfl ⟨hcut.1, ?_⟩
      intro hhead
      apply hcut.2
      show (e ++ ['|', '|']).head? = some '|'
      rw [List.head?_append, hhead]
      rfl

/-- The pieces have no cuts. -/
theorem cutPipes_uncut (q : Option Char) (buf cs : List Char) (hq : QuoteState q)
    (hbuf : (Scan.code false).over buf = Scan.ofQuote q) (hu : Uncut buf) :
    ∀ p ∈ cutPipes q buf cs, Uncut p := by
  have hopen {b : List Char} {q : Char} (h : (Scan.code false).over b = .quoted q) :
      (Scan.code false).over b ≠ .code true ∧ (Scan.code false).over b ≠ .code false := by
    rw [h]
    exact ⟨by simp, by simp⟩
  fun_induction cutPipes q buf cs with
  | case1 =>
    intro p hp
    rwa [List.mem_singleton.mp hp]
  | case2 buf d rest ih =>
    have hd := hq d rfl
    have hne := ne_pipe_of_quote hd
    have hone : (Scan.code false).over (buf ++ [d]) = .code false := by
      rw [Scan.over_append, hbuf]
      exact step_closing d
    refine ih hq ?_ ?_
    · rw [Scan.over_append, hbuf, Scan.ofQuote, Scan.over_cons, Scan.over_cons, step_closing,
        step_quote hd, Scan.over_nil]
    · rw [show buf ++ [d, d] = buf ++ [d] ++ [d] by simp]
      refine (hu.snoc (hopen hbuf).1 fun _ => (hopen hbuf).2).snoc ?_ (absurd · hne)
      rw [hone]
      simp
  | case3 buf c d rest hne ih =>
    refine ih quoteState_none ?_ (hu.snoc (hopen hbuf).1 fun _ => (hopen hbuf).2)
    rw [Scan.over_append, hbuf]
    exact step_closing c
  | case4 buf c =>
    intro p hp
    rw [List.mem_singleton.mp hp]
    exact hu.snoc (hopen hbuf).1 fun _ => (hopen hbuf).2
  | case5 q buf c rest hne ih =>
    refine ih hq ?_ (hu.snoc (hopen hbuf).1 fun _ => (hopen hbuf).2)
    rw [Scan.over_append, hbuf]
    exact step_inside hne
  | case6 buf c rest hquote ih =>
    have hne := ne_pipe_of_quote hquote
    refine ih (quoteState_some hquote) ?_ (hu.snoc ?_ (absurd · hne))
    · rw [Scan.over_append, hbuf]
      exact step_quote hquote
    · rw [hbuf]
      simp [Scan.ofQuote]
  | case7 buf rest _ ih =>
    refine ih hq ?_ ?_
    · rw [Scan.over_append, hbuf]
      rfl
    · exact hu.pair hbuf
  | case8 buf rest _ _ ih =>
    intro p hp
    rcases List.mem_cons.mp hp with rfl | hp
    · exact hu
    · refine ih hq rfl ?_ p hp
      intro x y hxy
      simp at hxy
  | case9 buf c rest hquote hpipe ih =>
    refine ih hq ?_ (hu.snoc ?_ (absurd · hpipe))
    · rw [Scan.over_append, hbuf]
      exact step_plain (by simpa using hquote) hpipe
    · rw [hbuf]
      simp [Scan.ofQuote]

/-! ## Stripping -/

def Blank (cs : List Char) : Prop := ∀ c ∈ cs, isSpace c = true

/-- A class of characters without the quotes and the pipe. -/
theorem plain_of {P : Char → Bool} (hone : P '\'' = false) (htwo : P '"' = false) (hpipe : P '|' = false)
    {c : Char} (hc : P c = true) : isQuote c = false ∧ c ≠ '|' := by
  refine ⟨?_, ?_⟩
  · by_contra hq
    have hq : c = '\'' ∨ c = '"' := by simpa [isQuote, ← Classical.or_iff_not_imp_left] using hq
    obtain rfl | rfl := hq
    · rw [hone] at hc
      cases hc
    · rw [htwo] at hc
      cases hc
  · rintro rfl
    rw [hpipe] at hc
    cases hc

theorem isQuote_of_space {c : Char} (h : isSpace c = true) : isQuote c = false :=
  (plain_of rfl rfl rfl h).1

theorem ne_pipe_of_space {c : Char} (h : isSpace c = true) : c ≠ '|' :=
  (plain_of (P := isSpace) rfl rfl rfl h).2

theorem strip_split (p : List Char) :
    ∃ a b, Blank a ∧ Blank b ∧ p = a ++ (strip p ++ b) := by
  refine ⟨p.takeWhile isSpace, (p.dropWhile isSpace).rtakeWhile isSpace, ?_, ?_, ?_⟩
  · exact fun c hc => List.mem_takeWhile_imp hc
  · exact fun c hc => List.mem_rtakeWhile_imp hc
  · rw [strip, List.rdropWhile_append_rtakeWhile, List.takeWhile_append_dropWhile]

theorem strip_cons_space {c : Char} (h : isSpace c = true) (p : List Char) :
    strip (c :: p) = strip p := by
  rw [strip, strip, List.dropWhile_cons, if_pos h]

theorem strip_snoc_space {c : Char} (h : isSpace c = true) (p : List Char) :
    strip (p ++ [c]) = strip p := by
  rw [strip, strip, List.dropWhile_append]
  split
  · next hp =>
    rw [List.isEmpty_iff.mp hp, List.dropWhile_cons, if_pos h]
    rfl
  · exact List.rdropWhile_concat_pos _ _ _ h

theorem strip_strip (p : List Char) : strip (strip p) = strip p := by
  have hhead : (strip p).dropWhile isSpace = strip p := by
    rw [List.dropWhile_eq_self_iff]
    intro hl
    obtain ⟨t, ht⟩ := List.rdropWhile_prefix isSpace (p.dropWhile isSpace)
    have hpos : 0 < (p.dropWhile isSpace).length := by
      rw [← ht, List.length_append]
      exact Nat.lt_add_right _ hl
    have hget := List.dropWhile_get_zero_not isSpace p hpos
    have hsame : (p.dropWhile isSpace).get ⟨0, hpos⟩ = (strip p).get ⟨0, hl⟩ := by
      show (p.dropWhile isSpace)[0] = (strip p)[0]
      exact (List.IsPrefix.getElem ⟨t, ht⟩ hl).symm
    rwa [hsame] at hget
  rw [strip, hhead]
  exact List.rdropWhile_idempotent isSpace _

theorem over_plain {a : List Char} (h : ∀ c ∈ a, isQuote c = false ∧ c ≠ '|') :
    (Scan.code false).over a = .code false := by
  induction a with
  | nil => rfl
  | cons c a ih =>
    have hc := h c List.mem_cons_self
    have hstep : (Scan.code false).step c = .code false := step_plain hc.1 hc.2
    rw [Scan.over_cons, hstep]
    exact ih fun d hd => h d (List.mem_cons_of_mem c hd)

theorem over_blank {a : List Char} (h : Blank a) : (Scan.code false).over a = .code false :=
  over_plain fun c hc => plain_of rfl rfl rfl (h c hc)

/-- Without quotes a literal stays open. -/
theorem over_literal {a : List Char} (h : ∀ c ∈ a, isQuote c = false) {q : Char}
    (hq : isQuote q = true) : (Scan.quoted q).over a = .quoted q := by
  induction a with
  | nil => rfl
  | cons c a ih =>
    have hc := h c List.mem_cons_self
    have hne : c ≠ q := by
      rintro rfl
      rw [hq] at hc
      cases hc
    rw [Scan.over_cons, step_inside hne]
    exact ih fun d hd => h d (List.mem_cons_of_mem c hd)

/-- The open quote of a text is one. -/
theorem over_quote {p : List Char} {s : Scan} {q : Char} (hs : ∀ c, s = .quoted c → isQuote c = true)
    (h : s.over p = .quoted q) : isQuote q = true := by
  induction p generalizing s with
  | nil => exact hs q h
  | cons c p ih =>
    refine ih ?_ h
    intro d hd
    cases s with
    | code odd =>
      by_cases hq : isQuote c = true
      · rw [step_quote hq, Scan.quoted.injEq] at hd
        rwa [← hd]
      · by_cases hpipe : c = '|'
        · rw [hpipe, step_pipe] at hd
          cases hd
        · rw [step_plain (by simpa using hq) hpipe] at hd
          cases hd
    | quoted e =>
      by_cases hc : c = e
      · rw [hc, step_closing] at hd
        cases hd
      · rw [step_inside hc, Scan.quoted.injEq] at hd
        rw [← hd]
        exact hs e rfl

theorem over_odd {p : List Char} (h : (Scan.code false).over p = .code true) :
    ∃ x, p = x ++ ['|'] ∧ (Scan.code false).over x = .code false := by
  rcases List.eq_nil_or_concat p with rfl | ⟨x, c, rfl⟩
  · cases h
  rw [List.concat_eq_append, Scan.over_append] at h
  cases hx : (Scan.code false).over x with
  | quoted q =>
    rw [hx, Scan.over_cons] at h
    by_cases hc : c = q
    · rw [hc, step_closing] at h
      cases h
    · rw [step_inside hc] at h
      cases h
  | code odd =>
    rw [hx, Scan.over_cons] at h
    by_cases hq : isQuote c = true
    · rw [step_quote hq] at h
      cases h
    · by_cases hc : c = '|'
      · -- a run that is odd now was not before
        rw [hc, step_pipe] at h
        have hodd : odd = false := by simpa using h
        rw [hodd] at hx
        rw [hc]
        exact ⟨x, List.concat_eq_append, hx⟩
      · rw [step_plain (by simpa using hq) hc] at h
        cases h

/-- Stripped, a text without cuts has none. -/
theorem Uncut.strip {p : List Char} (h : Uncut p) : Uncut (strip p) := by
  obtain ⟨a, b, ha, hb, hp⟩ := strip_split p
  intro x y hxy hcut
  refine h (a ++ x) (y ++ b) ?_ ⟨?_, ?_⟩
  · rw [hp, hxy, List.append_assoc, List.append_assoc, List.cons_append]
  · rw [Scan.over_append, over_blank ha]
    exact hcut.1
  · cases y with
    | cons c y => exact hcut.2
    | nil =>
      intro hhead
      exact ne_pipe_of_space (hb '|' (List.mem_of_mem_head? hhead)) rfl

/-- Stripped, a text that ends outside literals does, and not after the first pipe of a pair. -/
theorem closed_strip {p : List Char} (hu : Uncut p) (h : (Scan.code false).over p = .code false) :
    (Scan.code false).over (strip p) = .code false := by
  obtain ⟨a, b, ha, hb, hp⟩ := strip_split p
  have hover : ((Scan.code false).over (strip p)).over b = .code false := by
    have hall := h
    rw [hp, Scan.over_append, Scan.over_append, over_blank ha] at hall
    exact hall
  cases hs : (Scan.code false).over (strip p) with
  | quoted q =>
    rw [hs, over_literal (fun c hc => isQuote_of_space (hb c hc)) (over_quote (by simp) hs)] at hover
    cases hover
  | code odd =>
    cases odd with
    | false => rfl
    | true =>
      -- a pipe at the end was a cut
      obtain ⟨x, hx, hcode⟩ := over_odd hs
      refine absurd ⟨?_, ?_⟩ (hu (a ++ x) b (by rw [hp, hx]; simp))
      · rw [Scan.over_append, over_blank ha, hcode]
      · intro hhead
        exact ne_pipe_of_space (hb '|' (List.mem_of_mem_head? hhead)) rfl

/-! ## The whole text -/

theorem cutPipes_space {c : Char} (hc : isSpace c = true) (cs : List Char) :
    (cutPipes none [] (c :: cs)).map strip = (cutPipes none [] cs).map strip := by
  have hread : cutPipes none [] (c :: cs) = cutPipes none ([c] ++ []) cs :=
    cutPipes_plain (isQuote_of_space hc) (ne_pipe_of_space hc)
  rw [hread, cutPipes_buf]
  obtain ⟨t, ps, hps⟩ := cutPipes_head none [] cs
  rw [hps]
  show strip (c :: t) :: ps.map strip = strip t :: ps.map strip
  rw [strip_cons_space hc]

theorem cutPipes_space_right {c : Char} (hc : isSpace c = true) (cs : List Char) :
    (cutPipes none [] (cs ++ [c])).map strip = (cutPipes none [] cs).map strip := by
  rw [cutPipes_snoc none [] cs (isQuote_of_space hc) (ne_pipe_of_space hc) quoteState_none]
  rcases List.eq_nil_or_concat (cutPipes none [] cs) with h | ⟨ps, p, h⟩
  · rw [h]
    rfl
  · rw [h, List.concat_eq_append, List.modifyLast_concat, List.map_append, List.map_append]
    show ps.map strip ++ [strip (p ++ [c])] = ps.map strip ++ [strip p]
    rw [strip_snoc_space hc]

theorem strip_eq_nil_iff (p : List Char) : strip p = [] ↔ Blank p := by
  obtain ⟨a, b, ha, hb, hp⟩ := strip_split p
  constructor
  · intro h c hc
    rw [hp, h, List.nil_append] at hc
    exact (List.mem_append.mp hc).elim (ha c) (hb c)
  · intro h
    rw [strip, List.rdropWhile_eq_nil_iff]
    exact fun c hc => h c ((List.dropWhile_suffix isSpace).mem hc)

theorem splitPipeline_eq_some_iff {text : List Char} {segments : List (List Char)} :
    splitPipeline text = some segments
      ↔ segments = (cutPipes none [] text).map strip ∧ [] ∉ segments := by
  rw [splitPipeline]
  split
  · next h =>
    constructor
    · intro hs
      cases hs
    · rintro ⟨rfl, hs⟩
      exact absurd h hs
  · next h =>
    constructor
    · intro hs
      rw [← Option.some.inj hs]
      exact ⟨rfl, h⟩
    · rintro ⟨rfl, -⟩
      rfl

/-- Pieces without cuts, all but the last of them closed, are the pieces of their text. -/
theorem cutPipes_intercalate {ms : List (List Char)} (hms : ms ≠ []) (hu : ∀ m ∈ ms, Uncut m)
    (hclosed : ∀ m ∈ ms.dropLast, (Scan.code false).over m = .code false) :
    (cutPipes none [] ([' ', '|', ' '].intercalate ms)).map strip = ms.map strip := by
  induction ms with
  | nil => exact absurd rfl hms
  | cons m ms ih =>
    have hm := cutPipes_of_uncut (hu m List.mem_cons_self)
    cases ms with
    | nil =>
      rw [show [' ', '|', ' '].intercalate [m] = m by simp [List.intercalate], hm]
    | cons m' ms =>
      rw [List.dropLast_cons_of_ne_nil (List.cons_ne_nil m' ms)] at hclosed
      have htext : [' ', '|', ' '].intercalate (m :: m' :: ms)
          = (m ++ [' ']) ++ '|' :: ([' '] ++ [' ', '|', ' '].intercalate (m' :: ms)) := by
        simp [List.intercalate]
      have hcut : IsCut (.code false) (m ++ [' '])
          ([' '] ++ [' ', '|', ' '].intercalate (m' :: ms)) := by
        refine ⟨?_, by simp⟩
        rw [Scan.over_append, hclosed m List.mem_cons_self]
        rfl
      have hfirst : cutPipes none [] (m ++ [' ']) = [m ++ [' ']] := by
        rw [cutPipes_snoc none [] m rfl (by decide) quoteState_none, hm]
        rfl
      have hrest : (cutPipes none [] ([' '] ++ [' ', '|', ' '].intercalate (m' :: ms))).map strip
          = (m' :: ms).map strip := by
        rw [← ih (List.cons_ne_nil _ _) (fun d hd => hu d (List.mem_cons_of_mem m hd))
          fun d hd => hclosed d (List.mem_cons_of_mem m hd)]
        exact cutPipes_space rfl _
      rw [htext, cutPipes_append none [] _ _ quoteState_none hcut, hfirst, List.map_append,
        hrest, List.map_singleton, strip_snoc_space rfl]
      rfl

/-- Blanks around a text are not read. -/
theorem splitPipeline_blanks {a b : List Char} (ha : Blank a) (hb : Blank b) (cs : List Char) :
    splitPipeline (a ++ cs ++ b) = splitPipeline cs := by
  have hright : (cutPipes none [] (cs ++ b)).map strip = (cutPipes none [] cs).map strip := by
    induction b using List.reverseRecOn with
    | nil => rw [List.append_nil]
    | append_singleton b c ih =>
      rw [← List.append_assoc, cutPipes_space_right (hb c (by simp))]
      exact ih fun d hd => hb d (List.mem_append_left _ hd)
  have hleft : (cutPipes none [] (a ++ (cs ++ b))).map strip = (cutPipes none [] (cs ++ b)).map strip := by
    induction a with
    | nil => rfl
    | cons c a ih =>
      rw [List.cons_append, cutPipes_space (ha c List.mem_cons_self)]
      exact ih fun d hd => ha d (List.mem_cons_of_mem c hd)
  simp only [splitPipeline, List.append_assoc, hleft, hright]

/-- Nothing of a text is lost.  The raw pieces joined by pipes are the text; two of them meet exactly
at a pipe outside literals that pairs up with none; every piece but the last is closed; an error is
raised exactly when a piece is blank; and the pieces joined by ` | ` are split into themselves. -/
theorem split_lossless (text : List Char) :
    joined (cutPipes none [] text) = text
      ∧ (∀ x y, text = x ++ '|' :: y →
        (MeetAt (cutPipes none [] text) x y ↔ IsCut (.code false) x y))
      ∧ (∀ p ∈ (cutPipes none [] text).dropLast, (Scan.code false).over p = .code false)
      ∧ (splitPipeline text = none ↔ ∃ p ∈ cutPipes none [] text, Blank p)
      ∧ ∀ segments, splitPipeline text = some segments →
        segments = (cutPipes none [] text).map strip
          ∧ splitPipeline ([' ', '|', ' '].intercalate segments) = some segments := by
  have hnil : Uncut [] := fun x y h => by simp at h
  have hclosed := cutPipes_closed none [] text quoteState_none rfl
  have huncut := cutPipes_uncut none [] text quoteState_none rfl hnil
  refine ⟨joined_cutPipes none [] text, fun x y h => cuts_iff none [] text quoteState_none x y h, hclosed, ?_, ?_⟩
  · have hblank : [] ∈ (cutPipes none [] text).map strip ↔ ∃ p ∈ cutPipes none [] text, Blank p := by
      simp only [List.mem_map, strip_eq_nil_iff]
    rw [← hblank, splitPipeline]
    split
    · next h => exact iff_of_true rfl h
    · next h => exact iff_of_false (by simp) h
  · intro segments h
    obtain ⟨rfl, hne⟩ := splitPipeline_eq_some_iff.mp h
    refine ⟨rfl, splitPipeline_eq_some_iff.mpr ⟨?_, hne⟩⟩
    rw [cutPipes_intercalate, List.map_map]
    · exact (List.map_congr_left fun p _ => strip_strip p).symm
    · simpa using cutPipes_ne_nil none [] text
    · intro m hm
      obtain ⟨p, hp, rfl⟩ := List.mem_map.mp hm
      exact (huncut p hp).strip
    · intro m hm
      rw [← List.map_dropLast] at hm
      obtain ⟨p, hp, rfl⟩ := List.mem_map.mp hm
      exact closed_strip (huncut p (List.dropLast_subset _ hp)) (hclosed p hp)

end Seekbase
