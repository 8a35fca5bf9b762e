/-
# Seekbase.Shell — the splitter and the shell tokenizer, and the texts that pass through both.

A pipeline is cut by one scanner and the arguments of an operator are read by another, and the two were
written against different conventions.  In the first the quotes are the only escape that matters, and a
backslash is a character like any other; in the second a backslash takes the next character out of its
meaning.  Run side by side they hold the same quote open for as long as no quote has been escaped.

* `Lexing.over`, `lexArgs_append` — the tokenizer's state at a place of the text;
* `splitter_agrees`   — a pipe is a cut exactly where the tokenizer is outside quotes and no pair is;
* `escaped_pipe`      — with a backslash before it the two differ;
* `shlexQuote`, `any_text_read` — a quoted text is one argument, whatever it holds, and the segments
  around it are not touched; as a positional it must not look like an option.
-/
import Seekbase.Scan
import Seekbase.Pipeline

namespace Seekbase

/-! ## The tokenizer's state -/

/-- One character of `shlex`, without what it collects. -/
def Lexing.step : Lexing → Char → Lexing
  | .space, c | .word, c =>
    if isArgSpace c then .space
    else if c = '\\' then .escaped none
    else if isQuote c then .quoted c
    else .word
  | .quoted q, c =>
    if c = q then .word
    else if c = '\\' ∧ q = '"' then .escaped (some q)
    else .quoted q
  | .escaped none, _ => .word
  | .escaped (some q), _ => .quoted q

def Lexing.over (l : Lexing) (cs : List Char) : Lexing := cs.foldl Lexing.step l

/-- Inside a quoted part of an argument, escaped there or not. -/
def Lexing.inQuotes : Lexing → Bool
  | .quoted _ | .escaped (some _) => true
  | _ => false

/-- Inside a quoted or backslash-escaped part. -/
def Lexing.shielded : Lexing → Bool
  | .quoted _ | .escaped _ => true
  | _ => false

@[simp] theorem Lexing.over_nil (l : Lexing) : l.over [] = l := rfl

@[simp] theorem Lexing.over_cons (l : Lexing) (c : Char) (cs : List Char) :
    l.over (c :: cs) = (l.step c).over cs := rfl

/-- The tokenizer reads on from its state: it has completed some tokens and holds one. -/
theorem lexArgs_append (l : Lexing) (token : List Char) (live : Bool) (x y : List Char) :
    ∃ token' live' done, lexArgs l token live (x ++ y)
      = (lexArgs (l.over x) token' live' y).map (done ++ ·) := by
  induction x generalizing l token live with
  | nil =>
    refine ⟨token, live, [], ?_⟩
    show lexArgs l token live y = (lexArgs l token live y).map fun ts => ts
    cases lexArgs l token live y <;> rfl
  | cons c x ih =>
    rw [List.cons_append, Lexing.over_cons]
    match l with
    | .space =>
      rw [lexArgs_space, Lexing.step]
      split
      · exact ih _ _ _
      · split
        · exact ih _ _ _
        · split
          · exact ih _ _ _
          · exact ih _ _ _
    | .word =>
      rw [lexArgs_word, Lexing.step]
      split
      · obtain ⟨token', live', done, h⟩ := ih .space [] false
        refine ⟨token', live', String.ofList token :: done, ?_⟩
        rw [h]
        cases lexArgs (Lexing.over .space x) token' live' y <;> rfl
      · split
        · exact ih _ _ _
        · split
          · exact ih _ _ _
          · exact ih _ _ _
    | .quoted q =>
      rw [lexArgs_quoted, Lexing.step]
      split
      · exact ih _ _ _
      · split
        · exact ih _ _ _
        · exact ih _ _ _
    | .escaped none =>
      rw [lexArgs_escaped]
      exact ih _ _ _
    | .escaped (some q) =>
      rw [lexArgs_escaped_quoted]
      split
      · exact ih _ _ _
      · exact ih _ _ _

/-! ## Side by side -/

/-- The two scanners hold the same quote open, or none. -/
def Agree : Scan → Lexing → Prop
  | .code _, l => l.inQuotes = false
  | .quoted q, .quoted r | .quoted q, .escaped (some r) => q = r ∧ isQuote q = true
  | .quoted _, _ => False

/-- No quote in the arguments is escaped. -/
def BareQuotes (a : List Char) : Prop :=
  ∀ x c y, a = x ++ c :: y → isQuote c = true →
    Lexing.space.over x ≠ .escaped none ∧ Lexing.space.over x ≠ .escaped (some c)

theorem isQuote_of_argSpace {c : Char} (h : isArgSpace c = true) : isQuote c = false := by
  have hc : isSpace c = true := by
    simp only [isArgSpace, Bool.or_eq_true, beq_iff_eq] at h
    rcases h with ((rfl | rfl) | rfl) | rfl <;> rfl
  exact isQuote_of_space hc

theorem code_step {odd : Bool} {c : Char} (hq : isQuote c = false) :
    ∃ b, (Scan.code odd).step c = .code b := by
  by_cases hc : c = '|'
  · exact ⟨!odd, by rw [hc, step_pipe]⟩
  · exact ⟨false, step_plain hq hc⟩

theorem Agree.code_step {odd : Bool} {l : Lexing} {c : Char} (hq : isQuote c = false)
    (hl : l.inQuotes = false) : Agree ((Scan.code odd).step c) l := by
  obtain ⟨b, hb⟩ : ∃ b, (Scan.code odd).step c = .code b := Seekbase.code_step hq
  rw [hb]
  exact hl

theorem Agree.open_step {odd : Bool} {c : Char} :
    Agree ((Scan.code odd).step c) (if isQuote c then .quoted c else .word) := by
  split
  · next hq =>
    rw [step_quote hq]
    exact ⟨rfl, hq⟩
  · next hq => exact Agree.code_step (by simpa using hq) rfl

/-- One character keeps the two together, unless it is a quote that the tokenizer has escaped. -/
theorem Agree.step {s : Scan} {l : Lexing} {c : Char} (h : Agree s l)
    (hc : isQuote c = true → l ≠ .escaped none ∧ l ≠ .escaped (some c)) :
    Agree (s.step c) (l.step c) := by
  match s, l with
  | .code odd, .space | .code odd, .word =>
    rw [Lexing.step]
    split
    · next hspace => exact Agree.code_step (isQuote_of_argSpace hspace) rfl
    · split
      · next hback => exact Agree.code_step (by rw [hback]; rfl) rfl
      · exact Agree.open_step
  | .code odd, .escaped none =>
    have hq : isQuote c = false := by
      by_contra hq
      exact (hc (by simpa using hq)).1 rfl
    exact Agree.code_step hq rfl
  | .quoted q, .quoted r =>
    obtain ⟨rfl, hq⟩ := h
    rw [Lexing.step]
    by_cases hcq : c = q
    · rw [if_pos hcq, hcq, step_closing]
      rfl
    · rw [if_neg hcq, step_inside hcq]
      split
      · exact ⟨rfl, hq⟩
      · exact ⟨rfl, hq⟩
  | .quoted q, .escaped (some r) =>
    obtain ⟨rfl, hq⟩ := h
    have hne : c ≠ q := by
      rintro rfl
      exact (hc hq).2 rfl
    rw [step_inside hne]
    exact ⟨rfl, hq⟩

theorem agree_over {s : Scan} {l : Lexing} {a : List Char} (h : Agree s l)
    (ha : ∀ x c y, a = x ++ c :: y → isQuote c = true →
      l.over x ≠ .escaped none ∧ l.over x ≠ .escaped (some c)) : Agree (s.over a) (l.over a) := by
  induction a generalizing s l with
  | nil => exact h
  | cons c a ih =>
    refine ih (h.step (ha [] c a rfl)) ?_
    intro x d y hxy hd
    exact ha (c :: x) d y (by rw [hxy]; rfl) hd

/-! ## Segments -/

/-- A segment of the text begins here: at the start of the text, or after a cut. -/
def SegmentAt (text before rest : List Char) : Prop :=
  text = before ++ rest
    ∧ (before = [] ∨ ∃ x, before = x ++ ['|'] ∧ MeetAt (cutPipes none [] text) x rest)

/-- Of a run of pipes the first pairs up with the second: the pipe between these parts is in a pair. -/
def InPair (x y : List Char) : Prop :=
  (x.rtakeWhile (· == '|')).length % 2 = 1 ∨ y.head? = some '|'

/-- The parity the automaton carries is that of the run of pipes at the end. -/
theorem over_code_odd {x : List Char} {odd : Bool} (h : (Scan.code false).over x = .code odd) :
    odd = true ↔ (x.rtakeWhile (· == '|')).length % 2 = 1 := by
  induction x using List.reverseRecOn generalizing odd with
  | nil =>
    cases h
    decide
  | append_singleton x c ih =>
    rw [Scan.over_append] at h
    by_cases hc : c = '|'
    · subst hc
      rw [List.rtakeWhile_concat_pos _ _ _ (by rfl), List.length_append, List.length_singleton]
      cases hx : (Scan.code false).over x with
      | quoted q =>
        have hne := ne_pipe_of_quote (over_quote (by simp) hx)
        rw [hx, Scan.over_cons, step_inside (Ne.symm hne)] at h
        cases h
      | code b =>
        rw [hx, Scan.over_cons, step_pipe] at h
        have hb : odd = !b := (Scan.code.inj h).symm
        have hpar := ih hx
        subst hb
        cases b
        · simp only [Bool.not_false, true_iff]
          simp only [Bool.false_eq_true, false_iff] at hpar
          omega
        · simp only [Bool.not_true, Bool.false_eq_true, false_iff]
          simp only [true_iff] at hpar
          omega
    · rw [List.rtakeWhile_concat_neg _ _ _ (by simpa using hc)]
      have hodd : odd = false := by
        cases hx : (Scan.code false).over x with
        | quoted q =>
          rw [hx, Scan.over_cons] at h
          by_cases hq : c = q
          · rw [hq, step_closing] at h
            exact (Scan.code.inj h).symm
          · rw [step_inside hq] at h
            cases h
        | code b =>
          rw [hx, Scan.over_cons] at h
          by_cases hq : isQuote c = true
          · rw [step_quote hq] at h
            cases h
          · rw [step_plain (by simpa using hq) hc] at h
            exact (Scan.code.inj h).symm
      simp [hodd]

theorem isCut_iff {x y : List Char} :
    IsCut (.code false) x y ↔ (∀ q, (Scan.code false).over x ≠ .quoted q) ∧ ¬ InPair x y := by
  rw [IsCut, InPair, not_or]
  cases hx : (Scan.code false).over x with
  | quoted q => simp
  | code odd =>
    have hodd := over_code_odd hx
    rw [← hodd]
    simp

/-- The leading token opens no literal and ends a run of pipes. -/
theorem lead_split {rest args : List Char} {name : String} (h : lead rest = some (name, args)) :
    ∃ w, rest = w ++ args ∧ ∀ odd, (Scan.code odd).over w = .code false := by
  rw [lead] at h
  cases hrest : rest.dropWhile isSpace with
  | nil => simp [hrest] at h
  | cons c r =>
    rw [hrest] at h
    by_cases hc : isIdentStart c = true
    · obtain ⟨-, rfl⟩ := Prod.mk.inj (Option.some.inj ((if_pos hc).symm.trans h))
      have hplain : ∀ d ∈ rest.takeWhile isSpace ++ c :: r.takeWhile isIdentChar,
          isQuote d = false ∧ d ≠ '|' := by
        intro d hd
        rcases List.mem_append.mp hd with hd | hd
        · exact plain_of (P := isSpace) rfl rfl rfl (List.mem_takeWhile_imp hd)
        · refine plain_of (P := isIdentChar) rfl rfl rfl ?_
          rcases List.mem_cons.mp hd with rfl | hd
          · simp [isIdentChar, hc]
          · exact List.mem_takeWhile_imp hd
      refine ⟨rest.takeWhile isSpace ++ c :: r.takeWhile isIdentChar, ?_, ?_⟩
      · rw [List.append_assoc, List.cons_append, List.takeWhile_append_dropWhile, ← hrest,
          List.takeWhile_append_dropWhile]
      · intro odd
        cases hw : rest.takeWhile isSpace ++ c :: r.takeWhile isIdentChar with
        | nil => simp at hw
        | cons d w =>
          rw [hw] at hplain
          obtain ⟨hd, hpipe⟩ := hplain d List.mem_cons_self
          rw [Scan.over_cons, step_plain hd hpipe]
          exact over_plain fun e he => hplain e (List.mem_cons_of_mem d he)
    · simp [hc] at h

/-- In the arguments of a segment, with no quote escaped, a pipe is a cut exactly where the tokenizer is
outside quotes and the pipe is in no pair. -/
theorem splitter_agrees {text before rest args a x y : List Char} {name : String}
    (hsegment : SegmentAt text before rest) (hlead : lead rest = some (name, args))
    (hargs : args = a ++ '|' :: y) (hx : text = x ++ '|' :: y) (hquotes : BareQuotes a) :
    MeetAt (cutPipes none [] text) x y
      ↔ (Lexing.space.over a).inQuotes = false ∧ ¬ InPair x y := by
  obtain ⟨htext, hbefore⟩ := hsegment
  obtain ⟨w, hw, hover⟩ := lead_split hlead
  have hstart : ∃ odd, (Scan.code false).over before = .code odd := by
    rcases hbefore with rfl | ⟨z, rfl, hmeet⟩
    · exact ⟨false, rfl⟩
    · have hz : text = z ++ '|' :: rest := by rw [htext, List.append_assoc]; rfl
      obtain ⟨hz, -⟩ := (cuts_iff none [] text quoteState_none z rest hz).mp hmeet
      have hz : (Scan.code false).over z = .code false := hz
      refine ⟨true, ?_⟩
      rw [Scan.over_append, hz]
      rfl
  have hxa : x = before ++ w ++ a := by
    rw [htext, hw, hargs, ← List.append_assoc, ← List.append_assoc] at hx
    exact (List.append_cancel_right hx).symm
  have hagree : Agree ((Scan.code false).over x) (Lexing.space.over a) := by
    obtain ⟨odd, hodd⟩ := hstart
    rw [hxa, Scan.over_append, Scan.over_append, hodd, hover]
    exact agree_over rfl hquotes
  rw [← List.nil_append x, cuts_iff none [] text quoteState_none x y hx]
  show IsCut (.code false) x y ↔ (Lexing.space.over a).inQuotes = false ∧ ¬ InPair x y
  rw [isCut_iff]
  refine and_congr_left fun _ => ?_
  match hs : (Scan.code false).over x, hl : Lexing.space.over a with
  | .code odd, l =>
    rw [hs, hl] at hagree
    exact iff_of_true (by simp) hagree
  | .quoted q, .quoted r | .quoted q, .escaped (some r) =>
    exact iff_of_false (fun h => h q rfl) (by simp [Lexing.inQuotes])
  | .quoted q, .space | .quoted q, .word | .quoted q, .escaped none =>
    rw [hs, hl] at hagree
    exact hagree.elim

/-- A text without backslashes escapes nothing. -/
theorem bareQuotes_of_not_mem {a : List Char} (h : '\\' ∉ a) : BareQuotes a := by
  have hover (l : Lexing) (hl : ∀ back, l ≠ .escaped back) (x : List Char) (hx : '\\' ∉ x) :
      ∀ back, l.over x ≠ .escaped back := by
    induction x generalizing l with
    | nil => exact hl
    | cons c x ih =>
      have hc : c ≠ '\\' := fun he => hx (he ▸ List.mem_cons_self)
      refine ih (l.step c) ?_ fun hm => hx (List.mem_cons_of_mem c hm)
      match l with
      | .space | .word =>
        rw [Lexing.step, if_neg hc]
        split
        · simp
        · split <;> simp
      | .quoted q =>
        have hnot : ¬ (c = '\\' ∧ q = '"') := fun hq => hc hq.1
        rw [Lexing.step, if_neg hnot]
        split <;> simp
      | .escaped back => exact absurd rfl (hl back)
  intro x c y hxy _
  have hx : '\\' ∉ x := fun hm => h (by rw [hxy]; exact List.mem_append_left _ hm)
  exact ⟨hover _ (by simp) x hx _, hover _ (by simp) x hx _⟩

theorem splitter_agrees_grep :
    MeetAt (cutPipes none [] "scan notes | grep 'a|b' --field c".toList)
        "scan notes | grep 'a".toList "b' --field c".toList
      ↔ (Lexing.space.over " 'a".toList).inQuotes = false
        ∧ ¬ InPair "scan notes | grep 'a".toList "b' --field c".toList := by
  have hmeet : MeetAt (cutPipes none [] "scan notes | grep 'a|b' --field c".toList)
      "scan notes ".toList " grep 'a|b' --field c".toList :=
    ⟨["scan notes ".toList], [" grep 'a|b' --field c".toList], by simp, by simp, by decide +kernel,
      by decide +kernel, by decide +kernel⟩
  have hsegment : SegmentAt "scan notes | grep 'a|b' --field c".toList "scan notes |".toList
      " grep 'a|b' --field c".toList :=
    ⟨by decide +kernel, Or.inr ⟨"scan notes ".toList, by decide +kernel, hmeet⟩⟩
  have hlead : lead " grep 'a|b' --field c".toList = some ("grep", " 'a|b' --field c".toList) := by
    decide +kernel
  have hargs : " 'a|b' --field c".toList = " 'a".toList ++ '|' :: "b' --field c".toList := by
    decide +kernel
  exact splitter_agrees hsegment hlead hargs (by decide +kernel)
    (bareQuotes_of_not_mem (by decide +kernel))

/-- A backslash before the pipe takes it out of its meaning for the tokenizer alone, and one before a
quote makes the two see different literals: here each time the pipe is a cut inside an argument. -/
theorem escapes_differ :
    (lead "grep a\\|b --field c".toList = some ("grep", " a\\".toList ++ '|' :: "b --field c".toList)
      ∧ (Lexing.space.over " a\\".toList).shielded = true
      ∧ MeetAt (cutPipes none [] "grep a\\|b --field c".toList) "grep a\\".toList
        "b --field c".toList)
      ∧ lead "sh 'a'\\''b|c'".toList = some ("sh", " 'a'\\''b".toList ++ '|' :: "c'".toList)
      ∧ (Lexing.space.over " 'a'\\''b".toList).shielded = true
      ∧ MeetAt (cutPipes none [] "sh 'a'\\''b|c'".toList) "sh 'a'\\''b".toList "c'".toList := by
  refine ⟨⟨by decide +kernel, by decide +kernel, ?_⟩, by decide +kernel, by decide +kernel, ?_⟩
  · exact ⟨["grep a\\".toList], ["b --field c".toList], by simp, by simp, by decide +kernel,
      by decide +kernel, by decide +kernel⟩
  · exact ⟨["sh 'a'\\''b".toList], ["c'".toList], by simp, by simp, by decide +kernel,
      by decide +kernel, by decide +kernel⟩

/-! ## Quoted texts -/

/-- A character `shlex.quote` leaves bare: of a word, or one of these. -/
def isShellSafe (c : Char) : Bool :=
  isIdentChar c || ['@', '%', '+', '=', ':', ',', '.', '/', '-'].contains c

/-- A quote in a single-quoted text ends it, stands in double quotes, and begins it again. -/
def quoteChar (c : Char) : List Char := if c = '\'' then ['\'', '"', '\'', '"', '\''] else [c]

/-- `shlex.quote`. -/
def shlexQuote (s : List Char) : List Char :=
  if s = [] then ['\'', '\'']
  else if s.all isShellSafe then s
  else '\'' :: s.flatMap quoteChar ++ ['\'']

theorem ident_not_space {c : Char} (h : isIdentChar c = true) : isSpace c = false := by
  have hrange : 48 ≤ c.toNat ∧ c.toNat ≤ 122 := by
    simp only [isIdentChar, isIdentStart, Bool.or_eq_true, Bool.and_eq_true, decide_eq_true_eq,
      beq_iff_eq, Char.le_def, UInt32.le_iff_toNat_le] at h
    show 48 ≤ c.val.toNat ∧ c.val.toNat ≤ 122
    obtain ((⟨hlo, hhi⟩ | ⟨hlo, hhi⟩) | rfl) | ⟨hlo, hhi⟩ := h
    · have hlo : 65 ≤ c.val.toNat := hlo
      have hhi : c.val.toNat ≤ 90 := hhi
      omega
    · have hlo : 97 ≤ c.val.toNat := hlo
      have hhi : c.val.toNat ≤ 122 := hhi
      omega
    · decide
    · have hlo : 48 ≤ c.val.toNat := hlo
      have hhi : c.val.toNat ≤ 57 := hhi
      omega
  simp only [isSpace, Bool.or_eq_false_iff, Bool.and_eq_false_iff, decide_eq_false_iff_not,
    beq_eq_false_iff_ne]
  omega

theorem safe_not_space {c : Char} (h : isShellSafe c = true) : isSpace c = false := by
  rcases Bool.or_eq_true_iff.mp h with hc | hc
  · exact ident_not_space hc
  · simp only [List.contains_eq_mem, List.mem_cons, List.not_mem_nil, or_false,
      decide_eq_true_eq] at hc
    rcases hc with rfl | rfl | rfl | rfl | rfl | rfl | rfl | rfl | rfl <;> rfl

/-- What `shlex.quote` leaves bare means nothing to the tokenizer. -/
theorem safe_lex {c : Char} (h : isShellSafe c = true) :
    isArgSpace c = false ∧ c ≠ '\\' ∧ isQuote c = false := by
  refine ⟨?_, ?_, (plain_of (P := isShellSafe) rfl rfl rfl h).1⟩
  · by_contra hc
    simp only [isArgSpace, Bool.not_eq_false, Bool.or_eq_true, beq_iff_eq] at hc
    rcases hc with ((rfl | rfl) | rfl) | rfl <;> cases h
  · rintro rfl
    cases h

theorem lex_word {w : List Char} (hw : ∀ c ∈ w, isShellSafe c = true) (token y : List Char)
    (live : Bool) : lexArgs .word token live (w ++ y) = lexArgs .word (token ++ w) live y := by
  induction w generalizing token with
  | nil => rw [List.nil_append, List.append_nil]
  | cons c w ih =>
    obtain ⟨hspace, hback, hquote⟩ := safe_lex (hw c List.mem_cons_self)
    rw [List.cons_append, lexArgs_word, hspace, hquote, if_neg (by simp), if_neg hback, if_neg (by simp),
      ih fun d hd => hw d (List.mem_cons_of_mem c hd)]
    rw [List.append_assoc]
    rfl

theorem lex_bare {w : List Char} (hne : w ≠ []) (hw : ∀ c ∈ w, isShellSafe c = true) (y : List Char)
    (live : Bool) : lexArgs .space [] live (w ++ y) = lexArgs .word w true y := by
  cases w with
  | nil => exact absurd rfl hne
  | cons c w =>
    obtain ⟨hspace, hback, hquote⟩ := safe_lex (hw c List.mem_cons_self)
    rw [List.cons_append, lexArgs_space, hspace, hquote, if_neg (by simp), if_neg hback, if_neg (by simp)]
    exact lex_word (fun d hd => hw d (List.mem_cons_of_mem c hd)) [c] y true

theorem lex_inside (s token y : List Char) (live : Bool) :
    lexArgs (.quoted '\'') token live (s.flatMap quoteChar ++ '\'' :: y)
      = lexArgs .word (token ++ s) live y := by
  induction s generalizing token with
  | nil => simp [lexArgs_quoted]
  | cons c s ih =>
    rw [List.flatMap_cons, quoteChar]
    split
    · next hc =>
      -- out of the quotes, into the double ones and back
      subst hc
      simp [lexArgs_quoted, lexArgs_word, isArgSpace, isQuote, ih]
    · next hc => simp [lexArgs_quoted, hc, ih]

/-- A quoted text is read as one token, whatever it holds. -/
theorem lex_quote (s y : List Char) (live : Bool) :
    lexArgs .space [] live (shlexQuote s ++ y) = lexArgs .word s true y := by
  rw [shlexQuote]
  split
  · next hs =>
    subst hs
    simp [lexArgs_space, lexArgs_quoted, isArgSpace, isQuote]
  · next hne =>
    split
    · next hsafe => exact lex_bare hne (by simpa using hsafe) y live
    · have hopen := lex_inside s [] y true
      rw [List.nil_append] at hopen
      rw [← hopen]
      simp [lexArgs_space, isArgSpace, isQuote]

theorem over_inside (s : List Char) :
    (Scan.quoted '\'').over (s.flatMap quoteChar) = .quoted '\'' := by
  induction s with
  | nil => rfl
  | cons c s ih =>
    rw [List.flatMap_cons, quoteChar, Scan.over_append]
    split
    · exact ih
    · next hc =>
      rw [Scan.over_cons, step_inside hc]
      exact ih

/-- The splitter leaves a quoted text as it enters it. -/
theorem over_quoted (s : List Char) : (Scan.code false).over (shlexQuote s) = .code false := by
  rw [shlexQuote]
  split
  · rfl
  · split
    · next hsafe =>
      have hsafe : ∀ c ∈ s, isShellSafe c = true := by simpa using hsafe
      exact over_plain fun c hc => plain_of (P := isShellSafe) rfl rfl rfl (hsafe c hc)
    · rw [List.cons_append, Scan.over_cons, Scan.over_append]
      show ((Scan.quoted '\'').over (s.flatMap quoteChar)).over ['\''] = .code false
      rw [over_inside]
      rfl

/-! ## Whole segments -/

/-- Put together at a cut, two texts are split as each is. -/
theorem splitPipeline_append {x y : List Char} (h : IsCut (.code false) x y) :
    splitPipeline (x ++ '|' :: y)
      = (splitPipeline x).bind fun a => (splitPipeline y).map (a ++ ·) := by
  have hcut := cutPipes_append none [] x y quoteState_none h
  simp only [splitPipeline, hcut, List.map_append, List.mem_append]
  by_cases hx : [] ∈ (cutPipes none [] x).map strip <;>
    by_cases hy : [] ∈ (cutPipes none [] y).map strip <;> simp [hx, hy]

/-- A text the splitter leaves alone. -/
structure Whole (g : List Char) : Prop where
  closed : (Scan.code false).over g = .code false
  uncut : Uncut g
  stripped : strip g = g
  nonempty : g ≠ []

theorem Whole.split {g a b : List Char} (h : Whole g) (ha : Blank a) (hb : Blank b) :
    splitPipeline (a ++ g ++ b) = some [g] := by
  rw [splitPipeline_blanks ha hb, splitPipeline_eq_some_iff, cutPipes_of_uncut h.uncut]
  refine ⟨by rw [List.map_singleton, h.stripped], ?_⟩
  intro hm
  exact h.nonempty (List.mem_singleton.mp hm).symm

/-- A whole segment at the start of a pipeline is its first segment. -/
theorem Whole.first {g a b y : List Char} (h : Whole g) (ha : Blank a) (hb : Blank b)
    (hy : y.head? ≠ some '|') :
    splitPipeline (a ++ g ++ b ++ '|' :: y) = (splitPipeline y).map (g :: ·) := by
  have hclosed : (Scan.code false).over (a ++ g ++ b) = .code false := by
    rw [Scan.over_append, Scan.over_append, over_blank ha, h.closed, over_blank hb]
  rw [splitPipeline_append ⟨hclosed, hy⟩, h.split ha hb]
  rfl

theorem strip_eq_self {g : List Char} (hhead : ∀ c ∈ g.head?, isSpace c = false)
    (hlast : ∀ c ∈ g.getLast?, isSpace c = false) : strip g = g := by
  have hdrop : g.dropWhile isSpace = g := by
    cases g with
    | nil => rfl
    | cons c g => rw [List.dropWhile_cons, hhead c rfl, if_neg (by simp)]
  rw [strip, hdrop, List.rdropWhile_eq_self_iff]
  intro hg
  rw [hlast _ (List.getLast?_eq_some_getLast hg)]
  simp

theorem shlexQuote_ne_nil (s : List Char) : shlexQuote s ≠ [] := by
  rw [shlexQuote]
  split
  · simp
  · next hs =>
    split
    · exact hs
    · simp

/-- A quoted text ends in no blank. -/
theorem shlexQuote_last (s : List Char) : ∀ c ∈ (shlexQuote s).getLast?, isSpace c = false := by
  intro c hc
  rw [shlexQuote] at hc
  split at hc
  · cases hc
    rfl
  · split at hc
    · next hsafe =>
      have hsafe : ∀ c ∈ s, isShellSafe c = true := by simpa using hsafe
      exact safe_not_space (hsafe c (List.mem_of_mem_getLast? hc))
    · rw [List.getLast?_append] at hc
      cases hc
      rfl

theorem Uncut.append {x y : List Char} (hx : Uncut x) (hclosed : (Scan.code false).over x = .code false)
    (hy : Uncut y) (hhead : y.head? ≠ some '|') : Uncut (x ++ y) := by
  intro u v huv hcut
  rcases List.append_eq_append_iff.mp huv with ⟨e, rfl, rfl⟩ | ⟨e, rfl, hv⟩
  · rw [IsCut, Scan.over_append, hclosed] at hcut
    exact hy e v rfl hcut
  · cases e with
    | nil =>
      rw [List.nil_append] at hv
      exact hhead (by rw [← hv]; rfl)
    | cons c e =>
      obtain ⟨rfl, rfl⟩ := List.cons.inj hv
      refine hx u e rfl ⟨hcut.1, ?_⟩
      intro he
      apply hcut.2
      show (e ++ y).head? = some '|'
      rw [List.head?_append, he]
      rfl

theorem Uncut.append_plain {x t : List Char} (hx : Uncut x) (hodd : (Scan.code false).over x ≠ .code true)
    (ht : '|' ∉ t) : Uncut (x ++ t) := by
  intro u v huv hcut
  rcases List.append_eq_append_iff.mp huv with ⟨e, rfl, rfl⟩ | ⟨e, rfl, hv⟩
  · exact ht (by simp)
  · cases e with
    | nil => exact ht (by rw [List.nil_append] at hv; rw [← hv]; exact List.mem_cons_self)
    | cons c e =>
      obtain ⟨rfl, rfl⟩ := List.cons.inj hv
      refine hx u e rfl ⟨hcut.1, ?_⟩
      intro he
      apply hcut.2
      show (e ++ t).head? = some '|'
      rw [List.head?_append, he]
      rfl

theorem uncut_plain {x : List Char} (h : '|' ∉ x) : Uncut x := by
  intro u v huv _
  exact h (by rw [huv]; simp)

theorem uncut_quoted (s : List Char) : Uncut (shlexQuote s) := by
  have hinside : Uncut ('\'' :: s.flatMap quoteChar) := by
    induction s using List.reverseRecOn with
    | nil => exact uncut_plain (by simp)
    | append_singleton s c ih =>
      have hopen : (Scan.code false).over ('\'' :: s.flatMap quoteChar) = .quoted '\'' := over_inside s
      rw [List.flatMap_append, List.flatMap_singleton, ← List.cons_append]
      rw [quoteChar]
      split
      · exact ih.append_plain (by rw [hopen]; simp) (by simp)
      · exact ih.snoc (by rw [hopen]; simp) fun _ => by rw [hopen]; simp
  rw [shlexQuote]
  split
  · exact uncut_plain (by simp)
  · split
    · next hsafe =>
      have hsafe : ∀ c ∈ s, isShellSafe c = true := by simpa using hsafe
      exact uncut_plain fun hm => absurd (hsafe '|' hm) (by decide)
    · have hopen : (Scan.code false).over ('\'' :: s.flatMap quoteChar) = .quoted '\'' := over_inside s
      exact hinside.append_plain (by rw [hopen]; simp) (by simp)

theorem shlexQuote_head (s : List Char) : (shlexQuote s).head? ≠ some '|' := by
  rw [shlexQuote]
  split
  · simp
  · split
    · next hsafe =>
      have hsafe : ∀ c ∈ s, isShellSafe c = true := by simpa using hsafe
      exact fun hm => absurd (hsafe '|' (List.mem_of_mem_head? hm)) (by decide)
    · simp

/-- A closed text and a quoted one. -/
theorem whole_quoted {g : List Char} (hne : g ≠ []) (hhead : ∀ d ∈ g.head?, isSpace d = false)
    (hclosed : (Scan.code false).over g = .code false) (huncut : Uncut g) (s : List Char) :
    Whole (g ++ shlexQuote s) where
  closed := by rw [Scan.over_append, hclosed, over_quoted]
  uncut := huncut.append hclosed (uncut_quoted s) (shlexQuote_head s)
  stripped := by
    refine strip_eq_self ?_ ?_
    · cases g with
      | nil => exact absurd rfl hne
      | cons c g => exact hhead
    · rw [List.getLast?_append_of_ne_nil _ (shlexQuote_ne_nil s)]
      exact shlexQuote_last s
  nonempty := by simp [hne]

def searchSegment (s : List Char) : List Char := "search cards ".toList ++ shlexQuote s

def grepSegment (pattern field : List Char) : List Char :=
  "grep ".toList ++ shlexQuote pattern ++ " --field ".toList ++ shlexQuote field

/-- A token that `parse_tokens` takes for an option. -/
def Dashed (s : List Char) : Prop := s.take 2 = ['-', '-']

instance (s : List Char) : Decidable (Dashed s) := inferInstanceAs (Decidable (_ = _))

/-- The operator of a segment reads the text after the leading token. -/
def readSegment {ι α : Type} (h : Held ι) (op : Operator ι α) (segment : List Char) :
    Option (String × Except PipeExc α) :=
  (lead segment).map fun r => (r.1, (readArgs h op.name op r.2).1)

theorem searchSegment_eq (s : List Char) : searchSegment s
    = ['s', 'e', 'a', 'r', 'c', 'h', ' ', 'c', 'a', 'r', 'd', 's', ' '] ++ shlexQuote s := by
  have hsearch : "search cards ".toList
      = ['s', 'e', 'a', 'r', 'c', 'h', ' ', 'c', 'a', 'r', 'd', 's', ' '] := by decide +kernel
  exact congrArg (· ++ shlexQuote s) hsearch

theorem grepSegment_eq (pattern field : List Char) : grepSegment pattern field
    = ['g', 'r', 'e', 'p', ' '] ++ shlexQuote pattern
      ++ [' ', '-', '-', 'f', 'i', 'e', 'l', 'd', ' '] ++ shlexQuote field := by
  have hgrep : "grep ".toList = ['g', 'r', 'e', 'p', ' '] := by decide +kernel
  have hfield : " --field ".toList = [' ', '-', '-', 'f', 'i', 'e', 'l', 'd', ' '] := by decide +kernel
  exact congrArg₂ (fun x y => x ++ shlexQuote pattern ++ y ++ shlexQuote field) hgrep hfield

theorem whole_search (s : List Char) : Whole (searchSegment s) := by
  rw [searchSegment_eq]
  exact whole_quoted (by simp) (by simp [isSpace]) (by decide) (uncut_plain (by decide)) s

theorem whole_grep (pattern field : List Char) : Whole (grepSegment pattern field) := by
  rw [grepSegment_eq]
  have hhead : ∀ d ∈ (['g', 'r', 'e', 'p', ' '] ++ shlexQuote pattern
      ++ [' ', '-', '-', 'f', 'i', 'e', 'l', 'd', ' ']).head?, isSpace d = false := by
    intro d hd
    rw [← Option.some.inj hd]
    decide
  refine whole_quoted (by simp) hhead ?_ ?_ field
  · rw [Scan.over_append, Scan.over_append]
    show ((Scan.code false).over (shlexQuote pattern)).over _ = _
    rw [over_quoted]
    rfl
  · have hfirst : Uncut (['g', 'r', 'e', 'p', ' '] ++ shlexQuote pattern) :=
      (uncut_plain (by decide)).append rfl (uncut_quoted pattern) (shlexQuote_head pattern)
    refine hfirst.append_plain ?_ (by decide)
    rw [Scan.over_append]
    show (Scan.code false).over (shlexQuote pattern) ≠ _
    rw [over_quoted]
    simp

theorem splitArgs_search (s : List Char) :
    splitArgs ([' ', 'c', 'a', 'r', 'd', 's', ' '] ++ shlexQuote s)
      = .ok ["cards", String.ofList s] := by
  have hquote := lex_quote s [] false
  rw [List.append_nil] at hquote
  have hword : lexArgs .space [] false (['c', 'a', 'r', 'd', 's'] ++ ' ' :: shlexQuote s)
      = lexArgs .word ['c', 'a', 'r', 'd', 's'] true (' ' :: shlexQuote s) :=
    lex_bare (by simp) (List.all_eq_true.mp (by decide)) _ false
  show lexArgs .space [] false (['c', 'a', 'r', 'd', 's'] ++ ' ' :: shlexQuote s) = _
  rw [hword]
  show (lexArgs .space [] false (shlexQuote s)).map (String.ofList ['c', 'a', 'r', 'd', 's'] :: ·) = _
  rw [hquote]
  rfl

theorem splitArgs_grep (pattern field : List Char) :
    splitArgs (' ' :: (shlexQuote pattern ++ ([' ', '-', '-', 'f', 'i', 'e', 'l', 'd', ' ']
      ++ shlexQuote field))) = .ok [String.ofList pattern, "--field", String.ofList field] := by
  have hfield := lex_quote field [] false
  rw [List.append_nil] at hfield
  have hoption : lexArgs .space [] false (['-', '-', 'f', 'i', 'e', 'l', 'd'] ++ ' ' :: shlexQuote field)
      = lexArgs .word ['-', '-', 'f', 'i', 'e', 'l', 'd'] true (' ' :: shlexQuote field) :=
    lex_bare (by simp) (List.all_eq_true.mp (by decide)) _ false
  show lexArgs .space [] false (shlexQuote pattern ++ _) = _
  rw [lex_quote]
  show (lexArgs .space [] false (['-', '-', 'f', 'i', 'e', 'l', 'd'] ++ ' ' :: shlexQuote field)).map
    (String.ofList pattern :: ·) = _
  rw [hoption]
  show ((lexArgs .space [] false (shlexQuote field)).map
    (String.ofList ['-', '-', 'f', 'i', 'e', 'l', 'd'] :: ·)).map (String.ofList pattern :: ·) = _
  rw [hfield]
  rfl

theorem lead_search (s : List Char) :
    lead (searchSegment s) = some ("search", [' ', 'c', 'a', 'r', 'd', 's', ' '] ++ shlexQuote s) := by
  rw [searchSegment_eq]
  rfl

theorem lead_grep (pattern field : List Char) :
    lead (grepSegment pattern field) = some ("grep", ' ' :: (shlexQuote pattern
      ++ ([' ', '-', '-', 'f', 'i', 'e', 'l', 'd', ' '] ++ shlexQuote field))) := by
  rw [grepSegment_eq, List.append_assoc, List.append_assoc]
  rfl

theorem cards_not_dashed : ¬ "cards".toList.take 2 = ['-', '-'] := by decide +kernel

theorem parseTokens_dashed {s : List Char} (h : Dashed s) (v : String) (rest : List String) :
    parseTokens (String.ofList s :: v :: rest)
      = (parseTokens rest).map fun r => (r.1, (String.ofList (s.drop 2), v) :: r.2) := by
  have hs : (String.ofList s).toList.take 2 = ['-', '-'] := by rwa [String.toList_ofList]
  rw [parseTokens, if_pos hs]
  simp only [String.toList_ofList]

theorem parseTokens_last {s : List Char} (h : Dashed s) :
    parseTokens [String.ofList s] = .error (String.ofList s) := by
  have hs : (String.ofList s).toList.take 2 = ['-', '-'] := by rwa [String.toList_ofList]
  rw [parseTokens.eq_def]
  exact if_pos hs

theorem parseTokens_plain {s : List Char} (h : ¬ Dashed s) (rest : List String) :
    parseTokens (String.ofList s :: rest)
      = (parseTokens rest).map fun r => (String.ofList s :: r.1, r.2) := by
  have hs : ¬ (String.ofList s).toList.take 2 = ['-', '-'] := by rwa [String.toList_ofList]
  rw [parseTokens.eq_def]
  exact if_neg hs

theorem tokensOf_search (s : List Char) :
    tokensOf ["cards", String.ofList s] = if Dashed s then .error (.optionValue (String.ofList s))
      else .ok (["cards", String.ofList s], []) := by
  have hcards : parseTokens ["cards", String.ofList s]
      = (parseTokens [String.ofList s]).map fun r => ("cards" :: r.1, r.2) := by
    rw [parseTokens.eq_def]
    exact if_neg cards_not_dashed
  rw [tokensOf, hcards]
  split
  · next hs =>
    rw [parseTokens_last hs]
    rfl
  · next hs =>
    rw [parseTokens_plain hs]
    rfl

theorem searchArgs_quoted (s : List Char) :
    searchArgs ["cards", String.ofList s] = if Dashed s then .error (.optionValue (String.ofList s))
      else .ok (.search "cards" (String.ofList s) none 100 none) := by
  have hk : pyInt ((lookup "k" []).getD "100") = some 100 := by decide +kernel
  rw [searchArgs, tokensOf_search]
  split
  · rfl
  · simp only [bind, Except.bind, hk]
    rfl

/-- A pattern that is taken for an option takes the option's name with it. -/
theorem grepArgs_quoted (pattern field : List Char) :
    grepArgs [String.ofList pattern, "--field", String.ofList field]
        = .ok (.grep (String.ofList pattern) (String.ofList field)) ↔ ¬ Dashed pattern := by
  have hoption : parseTokens ["--field", String.ofList field]
      = .ok ([], [("field", String.ofList field)]) := by
    have hfield : parseTokens ["--field", String.ofList field]
        = .ok ([], [(String.ofList ("--field".toList.drop 2), String.ofList field)]) := by
      have hdashed : "--field".toList.take 2 = ['-', '-'] := by decide +kernel
      rw [parseTokens, if_pos hdashed]
      rfl
    have hname : String.ofList ("--field".toList.drop 2) = "field" := by decide +kernel
    rw [hfield, hname]
  by_cases hp : Dashed pattern
  · refine iff_of_false ?_ (not_not.mpr hp)
    by_cases hf : Dashed field
    · rw [grepArgs, tokensOf, parseTokens_dashed hp, parseTokens_last hf]
      intro h
      cases h
    · -- `--field` was the value of the first option, and the column the pattern
      have htokens : tokensOf [String.ofList pattern, "--field", String.ofList field]
          = .ok ([String.ofList field], [(String.ofList (pattern.drop 2), "--field")]) := by
        rw [tokensOf, parseTokens_dashed hp, parseTokens_plain hf]
        rfl
      intro h
      rw [grepArgs, htokens] at h
      dsimp only [bind, Except.bind] at h
      split at h
      · next name hname =>
        obtain ⟨-, rfl⟩ := Args.grep.inj (Except.ok.inj h)
        have hvalue : "--field" = String.ofList field := by
          by_cases hk : String.ofList (pattern.drop 2) = "field"
          · simpa [lookup, hk] using hname
          · simp [lookup, hk] at hname
        refine hf ?_
        show field.take 2 = _
        rw [← String.toList_ofList (l := field), ← hvalue]
        decide +kernel
      · cases h
  · refine iff_of_true ?_ hp
    rw [grepArgs, tokensOf, parseTokens_plain hp, hoption]
    rfl

theorem readSegment_search {ι : Type} (held : Held ι) (s : List Char) :
    readSegment held search (searchSegment s) = some ("search",
      if Dashed s then .error (.optionValue (String.ofList s))
      else .ok (.search "cards" (String.ofList s) none 100 none)) := by
  rw [readSegment, lead_search, Option.map_some, readArgs, splitArgs_search]
  exact congrArg (fun r => some ("search", r)) (searchArgs_quoted s)

theorem readSegment_grep {ι : Type} (held : Held ι) (alnum : Char → Bool) (pattern field : List Char) :
    readSegment held (grep alnum) (grepSegment pattern field)
        = some ("grep", .ok (.grep (String.ofList pattern) (String.ofList field)))
      ↔ ¬ Dashed pattern := by
  rw [readSegment, lead_grep, Option.map_some, readArgs, splitArgs_grep, ← grepArgs_quoted pattern field]
  constructor
  · intro h
    exact (Prod.mk.inj (Option.some.inj h)).2
  · intro h
    exact congrArg (fun r => some ("grep", r)) h

/-- Any text can be quoted into a segment.  Whatever it holds, the segment is cut off whole, alone, before
other segments and after them; the operator reads the text back exactly when it does not begin like an
option, which the two leading dashes make of it. -/
theorem quoted_text_read {ι : Type} (held : Held ι) (alnum : Char → Bool) (s field up a b y : List Char)
    (hup : (Scan.code false).over up = .code false) (ha : Blank a) (hb : Blank b)
    (hy : y.head? ≠ some '|') :
    (∀ g, g = searchSegment s ∨ g = grepSegment s field →
      splitPipeline (a ++ g ++ b) = some [g]
        ∧ splitPipeline (a ++ g ++ b ++ '|' :: y) = (splitPipeline y).map (g :: ·)
        ∧ splitPipeline (up ++ '|' :: (a ++ g ++ b ++ '|' :: y))
          = (splitPipeline up).bind fun ps => (splitPipeline y).map (ps ++ g :: ·))
      ∧ readSegment held search (searchSegment s) = some ("search",
        if Dashed s then .error (.optionValue (String.ofList s))
        else .ok (.search "cards" (String.ofList s) none 100 none))
      ∧ (readSegment held (grep alnum) (grepSegment s field)
          = some ("grep", .ok (.grep (String.ofList s) (String.ofList field))) ↔ ¬ Dashed s) := by
  refine ⟨?_, readSegment_search held s, readSegment_grep held alnum s field⟩
  intro g hg
  have hwhole : Whole g := by
    rcases hg with rfl | rfl
    · exact whole_search s
    · exact whole_grep s field
  have hfirst := hwhole.first ha hb hy
  refine ⟨hwhole.split ha hb, hfirst, ?_⟩
  have hhead : (a ++ g ++ b ++ '|' :: y).head? ≠ some '|' := by
    intro hhead
    cases a with
    | cons c a =>
      apply ne_pipe_of_space (ha c List.mem_cons_self)
      exact Option.some.inj hhead
    | nil =>
      rcases hg with rfl | rfl
      · rw [searchSegment_eq] at hhead
        exact absurd (Option.some.inj hhead) (by decide)
      · rw [grepSegment_eq] at hhead
        exact absurd (Option.some.inj hhead) (by decide)
  rw [splitPipeline_append ⟨hup, hhead⟩, hfirst]
  cases splitPipeline up <;> cases splitPipeline y <;> rfl

theorem quoted_text_read_pipe :
    splitPipeline ([' '] ++ searchSegment "it's a|b".toList ++ [' '] ++ '|' :: " jq '.'".toList)
      = (splitPipeline " jq '.'".toList).map (searchSegment "it's a|b".toList :: ·) :=
  ((quoted_text_read (fun _ => ()) (fun _ => true) "it's a|b".toList "body".toList "scan cards ".toList
    [' '] [' '] " jq '.'".toList (by decide +kernel) (by simp [Blank, isSpace])
    (by simp [Blank, isSpace]) (by decide +kernel)).1 _ (Or.inl rfl)).2.1

/-- A text that begins with two dashes is not read as the text. -/
theorem dashes_are_an_option :
    readSegment (fun _ => ()) search (searchSegment "--k".toList)
      = some ("search", .error (.optionValue "--k")) := by
  have htext : String.ofList "--k".toList = "--k" := by decide +kernel
  rw [readSegment_search, if_pos (by decide +kernel), htext]

end Seekbase
