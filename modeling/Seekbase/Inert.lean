/-
# Seekbase.Inert — what stands in a literal decides nothing.

Four scans look at a text before any SQL parser does: the cut into segments, the count of placeholders,
and the two guards that look for a second statement.  Take the contents of all literals out of a text and
each scan finds what it found before, so two texts that differ only there are compiled to the same plan,
statement by statement apart.

The guards look for a semicolon everywhere, literals included, so the contents are assumed to have none.
A comment is no literal: its text is read like any other, and a quote in it opens a literal.

* `emptied`, `contents` — a text without what its literals hold, and what they hold;
* `cutPipes_emptied`, `lead_emptied`, `countPlaceholders_emptied` — the scans, one by one;
* `literals_inert`      — the whole compilation, and the guard of a where clause;
* `comment_cut`         — a comment and a semicolon that are not inert.
-/
import Seekbase.Shell
import Seekbase.Authorize

namespace Seekbase

/-! ## Taking the contents out -/

/-- The text with its literals empty: the loop's lookahead keeps a doubled quote in the literal. -/
def emptied : Option Char → List Char → List Char
  | _, [] => []
  | some q, c :: rest =>
    if c = q then
      match rest with
      | d :: rest' => if d = q then emptied (some q) rest' else c :: emptied none (d :: rest')
      | [] => [c]
    else emptied (some q) rest
  | none, c :: rest => if isQuote c then c :: emptied (some c) rest else c :: emptied none rest

/-- What the literals hold. -/
def contents : Option Char → List Char → List Char
  | _, [] => []
  | some q, c :: rest =>
    if c = q then
      match rest with
      | d :: rest' => if d = q then c :: d :: contents (some q) rest' else contents none (d :: rest')
      | [] => []
    else c :: contents (some q) rest
  | none, c :: rest => if isQuote c then contents (some c) rest else contents none rest

theorem emptied_none (c : Char) (rest : List Char) : emptied none (c :: rest)
    = if isQuote c then c :: emptied (some c) rest else c :: emptied none rest := by
  cases rest <;> rfl

theorem emptied_some (q c : Char) (rest : List Char) : emptied (some q) (c :: rest)
    = if c = q then
      match rest with
      | d :: rest' => if d = q then emptied (some q) rest' else c :: emptied none (d :: rest')
      | [] => [c]
    else emptied (some q) rest := by
  cases rest <;> rfl

theorem emptied_code {c : Char} (h : isQuote c = false) (rest : List Char) :
    emptied none (c :: rest) = c :: emptied none rest := by
  rw [emptied_none, h, if_neg Bool.false_ne_true]

theorem emptied_quote {c : Char} (h : isQuote c = true) (rest : List Char) :
    emptied none (c :: rest) = c :: emptied (some c) rest := by
  rw [emptied_none, if_pos h]

theorem emptied_inside {c q : Char} (h : c ≠ q) (rest : List Char) :
    emptied (some q) (c :: rest) = emptied (some q) rest := by
  rw [emptied_some, if_neg h]

theorem emptied_doubled (q : Char) (rest : List Char) :
    emptied (some q) (q :: q :: rest) = emptied (some q) rest := by
  rw [emptied_some, if_pos rfl]
  exact if_pos rfl

theorem emptied_closing {q : Char} {rest : List Char} (h : rest.head? ≠ some q) :
    emptied (some q) (q :: rest) = q :: emptied none rest := by
  rw [emptied_some, if_pos rfl]
  cases rest with
  | nil => rfl
  | cons d rest => exact if_neg fun he => h (by rw [he]; rfl)

/-- Outside literals a text keeps its first character. -/
theorem emptied_cons (c : Char) (rest : List Char) : ∃ r, emptied none (c :: rest) = c :: r := by
  by_cases hc : isQuote c = true
  · exact ⟨_, emptied_quote hc rest⟩
  · exact ⟨_, emptied_code (by simpa using hc) rest⟩

theorem emptied_head (cs : List Char) : (emptied none cs).head? = cs.head? := by
  cases cs with
  | nil => rfl
  | cons c rest =>
    obtain ⟨r, hr⟩ := emptied_cons c rest
    rw [hr]
    rfl

theorem emptied_eq_nil_iff (cs : List Char) : emptied none cs = [] ↔ cs = [] := by
  rw [← List.head?_eq_none_iff, emptied_head, List.head?_eq_none_iff]

theorem contents_none (c : Char) (rest : List Char) : contents none (c :: rest)
    = if isQuote c then contents (some c) rest else contents none rest := by
  cases rest <;> rfl

theorem contents_some (q c : Char) (rest : List Char) : contents (some q) (c :: rest)
    = if c = q then
      match rest with
      | d :: rest' => if d = q then c :: d :: contents (some q) rest' else contents none (d :: rest')
      | [] => []
    else c :: contents (some q) rest := by
  cases rest <;> rfl

theorem contents_code {c : Char} (h : isQuote c = false) (rest : List Char) :
    contents none (c :: rest) = contents none rest := by
  rw [contents_none, h, if_neg Bool.false_ne_true]

theorem contents_quote {c : Char} (h : isQuote c = true) (rest : List Char) :
    contents none (c :: rest) = contents (some c) rest := by
  rw [contents_none, if_pos h]

theorem contents_inside {c q : Char} (h : c ≠ q) (rest : List Char) :
    contents (some q) (c :: rest) = c :: contents (some q) rest := by
  rw [contents_some, if_neg h]

theorem contents_doubled (q : Char) (rest : List Char) :
    contents (some q) (q :: q :: rest) = q :: q :: contents (some q) rest := by
  rw [contents_some, if_pos rfl]
  exact if_pos rfl

theorem contents_closing {q : Char} {rest : List Char} (h : rest.head? ≠ some q) :
    contents (some q) (q :: rest) = contents none rest := by
  rw [contents_some, if_pos rfl]
  cases rest with
  | nil => rfl
  | cons d rest => exact if_neg fun he => h (by rw [he]; rfl)

/-! ## The cut -/

/-- The pieces without contents: the first one begins in the state the loop is in. -/
def emptiedPieces (q : Option Char) : List (List Char) → List (List Char)
  | [] => []
  | p :: ps => emptied q p :: ps.map (emptied none)

theorem emptiedPieces_none (ps : List (List Char)) : emptiedPieces none ps = ps.map (emptied none) := by
  cases ps <;> rfl

/-- A character that the loop reads first is at the front of the first piece. -/
theorem cutPipes_first (q : Option Char) (b cs : List Char) :
    cutPipes q b cs = (cutPipes q [] cs).modifyHead (b ++ ·) := by
  have h := cutPipes_buf q b [] cs
  rwa [List.append_nil] at h

/-- The first piece begins as the text does, if it does not end at once. -/
theorem first_head {q : Option Char} {cs p : List Char} {ps : List (List Char)}
    (h : cutPipes q [] cs = p :: ps) : p = [] ∨ p.head? = cs.head? := by
  have hjoin := joined_cutPipes q [] cs
  rw [h, List.nil_append] at hjoin
  cases p with
  | nil => exact Or.inl rfl
  | cons c p =>
    refine Or.inr ?_
    rw [← hjoin]
    cases ps with
    | nil => rw [joined_singleton]
    | cons p' ps => rw [joined_cons (List.cons_ne_nil _ _)]; rfl

theorem emptiedPieces_modifyHead {q q' : Option Char} {ps : List (List Char)}
    {f g : List Char → List Char} (h : ∀ p ∈ ps.head?, g (emptied q' p) = emptied q (f p)) :
    (emptiedPieces q' ps).modifyHead g = emptiedPieces q (ps.modifyHead f) := by
  cases ps with
  | nil => rfl
  | cons p ps =>
    show g (emptied q' p) :: _ = emptied q (f p) :: _
    rw [h p rfl]

theorem emptiedPieces_inside {q : Option Char} {ps : List (List Char)} {f : List Char → List Char}
    (h : ∀ p, emptied q (f p) = emptied q p) : emptiedPieces q ps = emptiedPieces q (ps.modifyHead f) := by
  cases ps with
  | nil => rfl
  | cons p ps =>
    show emptied q p :: _ = emptied q (f p) :: _
    rw [h p]

/-- The splitter does not see the contents. -/
theorem cutPipes_emptied (q : Option Char) (buf cs : List Char) (hq : QuoteState q) :
    cutPipes q [] (emptied q cs) = emptiedPieces q (cutPipes q [] cs) := by
  fun_induction cutPipes q buf cs with
  | case1 q buf => simp [emptied, cutPipes_nil, emptiedPieces]
  | case2 buf d rest ih =>
    rw [emptied_doubled, ih hq, cutPipes_doubled, cutPipes_first _ ([] ++ [d, d])]
    exact emptiedPieces_inside fun p => emptied_doubled d p
  | case3 buf c d rest hne ih =>
    rw [emptied_closing (by simpa using hne)]
    have hstep (y : List Char) (hy : y.head? = some d) :
        cutPipes (some c) [] (c :: y) = (cutPipes none [] y).modifyHead ([c] ++ ·) := by
      cases y with
      | nil => cases hy
      | cons e y =>
        rw [Option.some.inj hy, cutPipes_closing hne]
        exact cutPipes_first _ _ _
    rw [hstep _ (emptied_head _), hstep _ rfl, ih quoteState_none]
    refine emptiedPieces_modifyHead fun p hp => ?_
    refine (emptied_closing ?_).symm
    cases hps : cutPipes none [] (d :: rest) with
    | nil => exact absurd hps (cutPipes_ne_nil _ _ _)
    | cons p' ps =>
      rw [hps] at hp
      obtain rfl := Option.some.inj hp
      rcases first_head hps with rfl | hhead
      · simp
      · rw [hhead]
        simpa using hne
  | case4 buf c => simp [emptied, cutPipes_last, emptiedPieces]
  | case5 q buf c rest hne ih =>
    rw [emptied_inside hne, ih hq, cutPipes_inside hne, cutPipes_first _ ([] ++ [c])]
    exact emptiedPieces_inside fun p => emptied_inside hne p
  | case6 buf c rest hquote ih =>
    rw [emptied_quote hquote, cutPipes_quote hquote, cutPipes_quote hquote, cutPipes_first,
      ih (quoteState_some hquote)]
    rw [cutPipes_first _ ([] ++ [c])]
    exact emptiedPieces_modifyHead fun p _ => (emptied_quote hquote p).symm
  | case7 buf rest _ ih =>
    rw [emptied_code rfl, emptied_code rfl, cutPipes_pair, cutPipes_pair, cutPipes_first, ih hq]
    rw [cutPipes_first _ ([] ++ ['|', '|'])]
    refine emptiedPieces_modifyHead fun p _ => ?_
    show _ = emptied none ('|' :: '|' :: p)
    rw [emptied_code rfl, emptied_code rfl]
    rfl
  | case8 buf rest hne _ ih =>
    have hhead := head_ne_pipe hne
    rw [emptied_code rfl, cutPipes_pipe (by rwa [emptied_head]), cutPipes_pipe hhead, ih hq,
      emptiedPieces_none]
    rfl
  | case9 buf c rest hquote hpipe ih =>
    have hquote : isQuote c = false := by simpa using hquote
    rw [emptied_code hquote, cutPipes_plain hquote hpipe, cutPipes_plain hquote hpipe, cutPipes_first,
      ih hq]
    rw [cutPipes_first _ ([] ++ [c])]
    exact emptiedPieces_modifyHead fun p _ => (emptied_code hquote p).symm

/-! ## The other scans -/

theorem countPlaceholders_none (c : Char) (rest : List Char) : countPlaceholders none (c :: rest)
    = if isQuote c then countPlaceholders (some c) rest
      else if c = '?' then countPlaceholders none rest + 1 else countPlaceholders none rest := by
  cases rest <;> rfl

theorem countPlaceholders_some (q c : Char) (rest : List Char) : countPlaceholders (some q) (c :: rest)
    = if c = q then
      match rest with
      | d :: rest' =>
        if d = q then countPlaceholders (some q) rest' else countPlaceholders none (d :: rest')
      | [] => 0
    else countPlaceholders (some q) rest := by
  cases rest <;> rfl

theorem countPlaceholders_doubled (q : Char) (rest : List Char) :
    countPlaceholders (some q) (q :: q :: rest) = countPlaceholders (some q) rest := by
  rw [countPlaceholders_some, if_pos rfl]
  exact if_pos rfl

theorem countPlaceholders_closing {q : Char} {rest : List Char} (h : rest.head? ≠ some q) :
    countPlaceholders (some q) (q :: rest) = countPlaceholders none rest := by
  rw [countPlaceholders_some, if_pos rfl]
  cases rest with
  | nil => rfl
  | cons d rest => exact if_neg fun he => h (by rw [he]; rfl)

theorem countPlaceholders_inside {c q : Char} (h : c ≠ q) (rest : List Char) :
    countPlaceholders (some q) (c :: rest) = countPlaceholders (some q) rest := by
  rw [countPlaceholders_some, if_neg h]

theorem countPlaceholders_quote {c : Char} (h : isQuote c = true) (rest : List Char) :
    countPlaceholders none (c :: rest) = countPlaceholders (some c) rest := by
  rw [countPlaceholders_none, if_pos h]

theorem countPlaceholders_code {c : Char} (h : isQuote c = false) (rest : List Char) :
    countPlaceholders none (c :: rest)
      = countPlaceholders none rest + if c = '?' then 1 else 0 := by
  rw [countPlaceholders_none, h, if_neg Bool.false_ne_true]
  split <;> rfl

theorem countPlaceholders_emptied (q : Option Char) (cs : List Char) :
    countPlaceholders q (emptied q cs) = countPlaceholders q cs := by
  fun_induction emptied q cs with
  | case1 => rfl
  | case2 d rest ih => rw [ih, countPlaceholders_doubled]
  | case3 q d rest hne ih =>
    have hhead : (d :: rest).head? ≠ some q := by simpa using hne
    rw [countPlaceholders_closing (by rwa [emptied_head]), ih, countPlaceholders_closing hhead]
  | case4 q => rfl
  | case5 q c rest hne ih => rw [ih, countPlaceholders_inside hne]
  | case6 c rest hquote ih => rw [countPlaceholders_quote hquote, ih, countPlaceholders_quote hquote]
  | case7 c rest hquote ih =>
    have hquote : isQuote c = false := by simpa using hquote
    rw [countPlaceholders_code hquote, ih, countPlaceholders_code hquote]

/-- Text outside literals is skipped and taken as if they were empty. -/
theorem dropWhile_emptied {P : Char → Bool} (hP : ∀ c, P c = true → isQuote c = false) (cs : List Char) :
    (emptied none cs).dropWhile P = emptied none (cs.dropWhile P)
      ∧ (emptied none cs).takeWhile P = cs.takeWhile P := by
  induction cs with
  | nil => exact ⟨rfl, rfl⟩
  | cons c cs ih =>
    by_cases hc : P c = true
    · rw [emptied_code (hP c hc)]
      simp [hc, ih]
    · obtain ⟨r, hr⟩ := emptied_cons c cs
      have hc : P c = false := by simpa using hc
      simp [hr, hc]

/-- The leading token stands before any literal. -/
theorem lead_emptied (cs : List Char) :
    lead (emptied none cs) = (lead cs).map fun r => (r.1, emptied none r.2) := by
  have hspace := dropWhile_emptied (fun c hc => isQuote_of_space hc) cs
  rw [lead, lead, hspace.1]
  cases cs.dropWhile isSpace with
  | nil => rfl
  | cons c rest =>
    by_cases hc : isIdentStart c = true
    · have hquote : isQuote c = false := (plain_of (P := isIdentStart) rfl rfl rfl hc).1
      obtain ⟨hdrop, htake⟩ :=
        dropWhile_emptied (fun c hc => (plain_of (P := isIdentChar) rfl rfl rfl hc).1) rest
      simp [emptied_code hquote, hc, hdrop, htake]
    · obtain ⟨r, hr⟩ := emptied_cons c rest
      simp [hr, hc]

/-- What is no quote stands in the emptied text or in the contents. -/
theorem mem_emptied {c : Char} (hc : isQuote c = false) (q : Option Char) (cs : List Char)
    (hq : QuoteState q) : c ∈ cs ↔ c ∈ emptied q cs ∨ c ∈ contents q cs := by
  fun_induction emptied q cs with
  | case1 => simp [contents]
  | case2 d rest ih =>
    have hne : c ≠ d := fun he => absurd (hq d rfl) (by rw [← he, hc]; simp)
    rw [contents_doubled]
    simp [hne, ih hq]
  | case3 q d rest hne ih =>
    have hhead : (d :: rest).head? ≠ some q := by simpa using hne
    rw [contents_closing hhead, List.mem_cons, ih quoteState_none, List.mem_cons, or_assoc]
  | case4 q => simp [contents]
  | case5 q d rest hne ih =>
    rw [contents_inside hne, List.mem_cons, List.mem_cons, ih hq]
    exact or_left_comm
  | case6 d rest hquote ih =>
    rw [contents_quote hquote, List.mem_cons, List.mem_cons,
      ih fun e he => by rwa [← Option.some.inj he], or_assoc]
  | case7 d rest hquote ih =>
    rw [contents_code (by simpa using hquote), List.mem_cons, List.mem_cons, ih hq, or_assoc]

/-! ## Stripping -/

/-- One more character that is no quote is kept, or is one more of the contents. -/
theorem emptied_snoc {c : Char} (hc : isQuote c = false) (q : Option Char) (cs : List Char)
    (hq : QuoteState q) :
    (emptied q (cs ++ [c]) = emptied q cs ++ [c] ∧ contents q (cs ++ [c]) = contents q cs)
      ∨ emptied q (cs ++ [c]) = emptied q cs ∧ contents q (cs ++ [c]) = contents q cs ++ [c] := by
  fun_induction emptied q cs with
  | case1 q =>
    cases q with
    | none => exact Or.inl ⟨emptied_code hc [], contents_code hc []⟩
    | some q =>
      have hne : c ≠ q := fun he => absurd (hq q rfl) (by rw [← he, hc]; simp)
      exact Or.inr ⟨emptied_inside hne [], contents_inside hne []⟩
  | case2 d rest ih =>
    rw [List.cons_append, List.cons_append, emptied_doubled, contents_doubled, contents_doubled]
    rcases ih hq with ⟨he, hcon⟩ | ⟨he, hcon⟩
    · exact Or.inl ⟨he, by rw [hcon]⟩
    · exact Or.inr ⟨he, by rw [hcon]; rfl⟩
  | case3 q d rest hne ih =>
    have hhead (y : List Char) : (d :: y).head? ≠ some q := by simpa using hne
    rw [List.cons_append, List.cons_append, emptied_closing (hhead _), contents_closing (hhead _),
      contents_closing (hhead _)]
    rcases ih quoteState_none with ⟨he, hcon⟩ | ⟨he, hcon⟩
    · exact Or.inl ⟨congrArg (q :: ·) he, hcon⟩
    · exact Or.inr ⟨congrArg (q :: ·) he, hcon⟩
  | case4 q =>
    have hne : c ≠ q := fun he => absurd (hq q rfl) (by rw [← he, hc]; simp)
    have hhead : [c].head? ≠ some q := by simpa using hne
    refine Or.inl ⟨?_, ?_⟩
    · rw [List.singleton_append, emptied_closing hhead, emptied_code hc]
      rfl
    · rw [List.singleton_append, contents_closing hhead, contents_code hc]
      exact (contents_closing (by simp)).symm
  | case5 q d rest hne ih =>
    rw [List.cons_append, emptied_inside hne, contents_inside hne, contents_inside hne]
    rcases ih hq with ⟨he, hcon⟩ | ⟨he, hcon⟩
    · exact Or.inl ⟨he, congrArg (d :: ·) hcon⟩
    · exact Or.inr ⟨he, congrArg (d :: ·) hcon⟩
  | case6 d rest hquote ih =>
    rw [List.cons_append, emptied_quote hquote, contents_quote hquote, contents_quote hquote]
    rcases ih fun e he => by rwa [← Option.some.inj he] with ⟨he, hcon⟩ | ⟨he, hcon⟩
    · exact Or.inl ⟨congrArg (d :: ·) he, hcon⟩
    · exact Or.inr ⟨congrArg (d :: ·) he, hcon⟩
  | case7 d rest hquote ih =>
    have hquote : isQuote d = false := by simpa using hquote
    rw [List.cons_append, emptied_code hquote, contents_code hquote, contents_code hquote]
    rcases ih hq with ⟨he, hcon⟩ | ⟨he, hcon⟩
    · exact Or.inl ⟨congrArg (d :: ·) he, hcon⟩
    · exact Or.inr ⟨congrArg (d :: ·) he, hcon⟩

theorem getLast?_cons_of_some {c d : Char} {cs : List Char} (h : cs.getLast? = some d) :
    (c :: cs).getLast? = some d := by
  rw [List.getLast?_cons, h]
  rfl

/-- The emptied text ends as the text does, or with a quote. -/
theorem emptied_last (q : Option Char) (cs : List Char) (hq : QuoteState q) :
    ∀ d ∈ (emptied q cs).getLast?, isQuote d = true ∨ cs.getLast? = some d := by
  fun_induction emptied q cs with
  | case1 => simp
  | case2 e rest ih =>
    intro d hd
    exact (ih hq d hd).imp_right fun h => getLast?_cons_of_some (getLast?_cons_of_some h)
  | case3 q e rest hne ih =>
    intro d hd
    obtain ⟨r, hr⟩ := emptied_cons e rest
    rw [List.getLast?_cons] at hd
    cases hlast : (emptied none (e :: rest)).getLast? with
    | none => rw [hr] at hlast; simp at hlast
    | some e' =>
      rw [hlast] at hd
      obtain rfl := Option.some.inj hd
      exact (ih quoteState_none _ hlast).imp_right getLast?_cons_of_some
  | case4 q =>
    intro d hd
    exact Or.inr hd
  | case5 q e rest hne ih =>
    intro d hd
    exact (ih hq d hd).imp_right getLast?_cons_of_some
  | case6 e rest hquote ih =>
    intro d hd
    rw [List.getLast?_cons] at hd
    cases hlast : (emptied (some e) rest).getLast? with
    | none =>
      rw [hlast] at hd
      obtain rfl := Option.some.inj hd
      exact Or.inl hquote
    | some e' =>
      rw [hlast] at hd
      obtain rfl := Option.some.inj hd
      exact (ih (fun c hc => by rwa [← Option.some.inj hc]) _ hlast).imp_right getLast?_cons_of_some
  | case7 e rest hquote ih =>
    intro d hd
    rw [List.getLast?_cons] at hd
    cases hlast : (emptied none rest).getLast? with
    | none =>
      rw [hlast] at hd
      obtain rfl := Option.some.inj hd
      rw [List.getLast?_eq_none_iff, emptied_eq_nil_iff] at hlast
      exact Or.inr (by rw [hlast]; rfl)
    | some e' =>
      rw [hlast] at hd
      obtain rfl := Option.some.inj hd
      exact (ih hq _ hlast).imp_right getLast?_cons_of_some

section Dropping

variable {P : Char → Bool} (hP : ∀ c, P c = true → isQuote c = false)
include hP

theorem rdropWhile_emptied (cs : List Char) :
    (emptied none cs).rdropWhile P = emptied none (cs.rdropWhile P)
      ∧ ∀ c, c ∈ contents none (cs.rdropWhile P) → c ∈ contents none cs := by
  induction cs using List.reverseRecOn with
  | nil => exact ⟨rfl, fun c h => h⟩
  | append_singleton cs c ih =>
    by_cases hc : P c = true
    · rw [List.rdropWhile_concat_pos _ _ _ hc]
      rcases emptied_snoc (hP c hc) none cs quoteState_none with ⟨he, hcon⟩ | ⟨he, hcon⟩
      · rw [he, List.rdropWhile_concat_pos _ _ _ hc, hcon]
        exact ih
      · rw [he, hcon]
        exact ⟨ih.1, fun d hd => List.mem_append_left _ (ih.2 d hd)⟩
    · rw [List.rdropWhile_concat_neg _ _ _ hc]
      refine ⟨?_, fun d hd => hd⟩
      rw [List.rdropWhile_eq_self_iff]
      intro hne hlast
      -- the end is a quote or this character, and neither is dropped
      rcases emptied_last none (cs ++ [c]) quoteState_none _ (List.getLast?_eq_some_getLast hne) with hq | hsame
      · rw [hP _ hlast] at hq
        cases hq
      · rw [List.getLast?_concat] at hsame
        rw [← Option.some.inj hsame] at hlast
        exact hc hlast

theorem contents_dropWhile (cs : List Char) :
    contents none (cs.dropWhile P) = contents none cs := by
  induction cs with
  | nil => rfl
  | cons c cs ih =>
    by_cases hc : P c = true
    · rw [List.dropWhile_cons, if_pos hc, ih, contents_code (hP c hc)]
    · rw [List.dropWhile_cons, if_neg hc]

end Dropping

theorem strip_emptied (cs : List Char) : strip (emptied none cs) = emptied none (strip cs) := by
  have hspace (c : Char) (hc : isSpace c = true) : isQuote c = false := isQuote_of_space hc
  rw [strip, strip, (dropWhile_emptied hspace cs).1, (rdropWhile_emptied hspace _).1]

theorem contents_strip {cs : List Char} {c : Char} (h : c ∈ contents none (strip cs)) :
    c ∈ contents none cs := by
  have hspace (c : Char) (hc : isSpace c = true) : isQuote c = false := isQuote_of_space hc
  have hmem := (rdropWhile_emptied hspace _).2 c h
  rwa [contents_dropWhile hspace] at hmem

/-! ## The guards -/

theorem semicolon_emptied {cs : List Char} (h : ';' ∉ contents none cs) :
    ';' ∈ cs ↔ ';' ∈ emptied none cs := by
  rw [mem_emptied rfl none cs quoteState_none]
  exact or_iff_left h

/-- The guard of a where clause gives the same verdict. -/
theorem oneStatement_emptied {w : String} (hw : ';' ∉ contents none w.toList) (label : String) :
    (oneStatement (String.ofList (emptied none w.toList)) label).map String.toList
      = (oneStatement w label).map fun s => emptied none s.toList := by
  have hsemi (c : Char) (hc : (c == ';') = true) : isQuote c = false := by
    rw [beq_iff_eq.mp hc]
    rfl
  have htrim : strip ((strip (emptied none w.toList)).rdropWhile (· == ';'))
      = emptied none (strip ((strip w.toList).rdropWhile (· == ';'))) := by
    rw [strip_emptied, (rdropWhile_emptied hsemi _).1, strip_emptied]
  have hnone : ';' ∉ contents none (strip ((strip w.toList).rdropWhile (· == ';'))) := fun h =>
    hw (contents_strip ((rdropWhile_emptied hsemi _).2 _ (contents_strip h)))
  simp only [oneStatement, String.toList_ofList, htrim, ← semicolon_emptied hnone]
  split
  · rfl
  · simp [Except.map]

/-! ## The compiler -/

/-- Two results that agree up to what is left out. -/
theorem map_eq_map {ε β γ δ : Type} {f : β → δ} {g : γ → δ} {a : Except ε β} {b : Except ε γ}
    (h : a.map f = b.map g) :
    (∃ e, a = .error e ∧ b = .error e) ∨ ∃ x y, a = .ok x ∧ b = .ok y ∧ f x = g y := by
  cases a with
  | error e =>
    cases b with
    | error e' => exact Or.inl ⟨e, rfl, congrArg Except.error (Except.error.inj h).symm⟩
    | ok y => cases h
  | ok x =>
    cases b with
    | error e => cases h
    | ok y => exact Or.inr ⟨x, y, rfl, rfl, Except.ok.inj h⟩

section Compile

variable {ι α : Type}

def Staged.emptied : Staged ι α → Staged ι α
  | .sql segment => .sql (Seekbase.emptied none segment)
  | s => s

def Run.emptied : Run ι α → Run ι α
  | .duck items => .duck (items.map Staged.emptied)
  | .bash items => .bash (items.map Staged.emptied)

/-- A phase without the text of its statement: the parameters, or the processes. -/
def PlanPhase.bare : PlanPhase → List Val ⊕ List (List String)
  | .duck _ params => .inl params
  | .bash argvs => .inr argvs

def Outcome.over {β γ : Type} (f : β → γ) (o : Outcome ι α β) : Outcome ι α γ :=
  ⟨o.result.map f, o.held, o.events⟩

theorem fuseItem_emptied (h : Held ι) (prev : Option String) (params : List Val) (s : Staged ι α) :
    (fuseItem h prev params s.emptied).map Prod.snd = (fuseItem h prev params s).map Prod.snd := by
  cases s with
  | duck key op args => rfl
  | bash key op args => rfl
  | sql segment =>
    simp only [Staged.emptied, fuseItem, countPlaceholders_emptied]
    split <;> rfl

theorem fuseStages_emptied (h : Held ι) (n : Nat) (prev : Option String) (params : List Val)
    (run : List (Staged ι α)) :
    (fuseStages h n prev params (run.map Staged.emptied)).map Prod.snd
      = (fuseStages h n prev params run).map Prod.snd := by
  induction run generalizing n prev params with
  | nil => rfl
  | cons s run ih =>
    rw [List.map_cons, fuseStages, fuseStages]
    rcases map_eq_map (fuseItem_emptied h prev params s) with
      ⟨e, hs', hs⟩ | ⟨⟨body', used', left'⟩, ⟨body, used, left⟩, hs', hs, hsame⟩
    · rw [hs', hs]
    · obtain ⟨rfl, rfl⟩ := Prod.mk.inj hsame
      rw [hs', hs]
      rcases map_eq_map (ih (n + 1) (some (stageName n)) left') with
        ⟨e, hr', hr⟩ | ⟨r', r, hr', hr, hsame⟩
      · simp only [hr', hr]
        rfl
      · simp only [hr', hr, Except.map, hsame]

theorem fuseDuckRun_emptied (h : Held ι) (run : List (Staged ι α)) (params : List Val)
    (fromBridge : Bool) :
    (fuseDuckRun h (run.map Staged.emptied) params fromBridge).map Prod.snd
      = (fuseDuckRun h run params fromBridge).map Prod.snd := by
  simp only [fuseDuckRun]
  rcases map_eq_map (fuseStages_emptied h 0 (if fromBridge then some "_bridge" else none) params run)
    with ⟨e, hr', hr⟩ | ⟨r', r, hr', hr, hsame⟩
  · simp only [hr', hr, Except.map]
  · rw [hr', hr]
    exact congrArg Except.ok hsame

theorem runs_emptied (staged : List (Staged ι α)) :
    runs (staged.map Staged.emptied) = (runs staged).map Run.emptied := by
  induction staged with
  | nil => rfl
  | cons s rest ih =>
    have hbash : s.emptied.isBash = s.isBash := by cases s <;> rfl
    rw [List.map_cons, runs, runs, hbash, ih]
    cases s.isBash <;> cases runs rest with
    | nil => rfl
    | cons r more => cases r <;> rfl

theorem bashArgv_emptied (h : Held ι) (items : List (Staged ι α)) :
    (items.map Staged.emptied).mapM (bashArgv h) = items.mapM (bashArgv h) := by
  have hone (s : Staged ι α) : bashArgv h s.emptied = bashArgv h s := by cases s <;> rfl
  induction items with
  | nil => rfl
  | cons s items ih => simp only [List.map_cons, List.mapM_cons, hone, ih]

/-- The second loop sees the contents in the statements only. -/
theorem phasesOf_emptied (h : Held ι) (first : Bool) (params : List Val) (rs : List (Run ι α)) :
    (phasesOf h first params (rs.map Run.emptied)).map (fun r => (r.1.map PlanPhase.bare, r.2))
      = (phasesOf h first params rs).map fun r => (r.1.map PlanPhase.bare, r.2) := by
  induction rs generalizing first params with
  | nil => rfl
  | cons r rs ih =>
    cases r with
    | bash items =>
      rw [List.map_cons, Run.emptied, phasesOf, phasesOf, bashArgv_emptied]
      cases items.mapM (bashArgv h) with
      | error e => rfl
      | ok argvs =>
        cases first with
        | true => rfl
        | false =>
          show ((phasesOf h false params (rs.map Run.emptied)).map _).map _
            = ((phasesOf h false params rs).map _).map _
          rcases map_eq_map (ih false params) with ⟨e, hr', hr⟩ | ⟨r', r, hr', hr, hsame⟩
          · simp only [hr', hr, Except.map]
          · obtain ⟨hphases, hleft⟩ := Prod.mk.inj hsame
            simp only [hr', hr, Except.map, List.map_cons, hphases, hleft]
    | duck items =>
      rw [List.map_cons, Run.emptied, phasesOf, phasesOf]
      rcases map_eq_map (fuseDuckRun_emptied h items params !first) with
        ⟨e, hs', hs⟩ | ⟨⟨sql', used', left'⟩, ⟨sql, used, left⟩, hs', hs, hsame⟩
      · rw [hs', hs]
      · obtain ⟨rfl, rfl⟩ := Prod.mk.inj hsame
        rw [hs', hs]
        show ((phasesOf h false left' (rs.map Run.emptied)).map _).map _
          = ((phasesOf h false left' rs).map _).map _
        rcases map_eq_map (ih false left') with ⟨e, hr', hr⟩ | ⟨r', r, hr', hr, hsame⟩
        · simp only [hr', hr, Except.map]
        · obtain ⟨hphases, hleft⟩ := Prod.mk.inj hsame
          simp only [hr', hr, Except.map, List.map_cons, hphases, hleft]
          rfl

theorem planOf_emptied (h : Held ι) (params : List Val) (staged : List (Staged ι α)) :
    (planOf h params (staged.map Staged.emptied)).map (List.map PlanPhase.bare)
      = (planOf h params staged).map (List.map PlanPhase.bare) := by
  rw [planOf, planOf, runs_emptied]
  rcases map_eq_map (phasesOf_emptied h true params (runs staged)) with
    ⟨e, hr', hr⟩ | ⟨⟨phases', left'⟩, ⟨phases, left⟩, hr', hr, hsame⟩
  · rw [hr', hr]
  · obtain ⟨hphases, rfl⟩ := Prod.mk.inj hsame
    rw [hr', hr]
    cases left' with
    | nil => exact congrArg Except.ok hphases
    | cons v left => rfl

variable (reg : Registry ι α) (p : Policy) (ctx : OperatorCtx)

theorem classify_emptied (segment : List Char) :
    classify reg (emptied none segment)
      = (classify reg segment).map fun r => (r.1, r.2.1, emptied none r.2.2) := by
  rw [classify, classify, lead_emptied]
  cases lead segment with
  | none => rfl
  | some r => 
    show (reg.resolve r.1).map _ = ((reg.resolve r.1).map _).map _
    rw [Option.map_map]
    rfl

/-- Two segments that may differ: SQL in the contents of its literals, without semicolons. -/
def Alike (s s' : List Char) : Prop :=
  emptied none s = emptied none s'
    ∧ ((classify reg s).isSome = true → s = s')
    ∧ ((classify reg s).isSome = false → ';' ∉ contents none s ∧ ';' ∉ contents none s')

theorem stageSegment_alike {s s' : List Char} (hs : Alike reg s s') (h : Held ι) :
    (stageSegment reg p ctx h s).over Staged.emptied
      = (stageSegment reg p ctx h s').over Staged.emptied := by
  obtain ⟨hsame, hop, hsql⟩ := hs
  cases hc : classify reg s with
  | some r => rw [hop (by rw [hc]; rfl)]
  | none =>
    obtain ⟨hsemi, hsemi'⟩ := hsql (by rw [hc]; rfl)
    have hc' : classify reg s' = none := by
      have h' := classify_emptied reg s'
      rw [← hsame, classify_emptied, hc] at h'
      simpa using h'.symm
    rw [stageSegment, stageSegment, hc, hc']
    simp only [semicolon_emptied hsemi, semicolon_emptied hsemi', hsame]
    split
    · rfl
    · show (⟨.ok (Staged.sql (emptied none s)), h, []⟩ : Outcome ι α (Staged ι α))
        = ⟨.ok (Staged.sql (emptied none s')), h, []⟩
      rw [hsame]

/-- The first loop, over segments that are alike. -/
theorem stage_alike {ss ss' : List (List Char)} (hs : List.Forall₂ (Alike reg) ss ss') (h : Held ι) :
    (stage reg p ctx h ss).over (List.map Staged.emptied)
      = (stage reg p ctx h ss').over (List.map Staged.emptied) := by
  induction hs generalizing h with
  | nil => rfl
  | @cons s s' ss ss' hone _ ih =>
    have hsegment := stageSegment_alike reg p ctx hone h
    match hs : stageSegment reg p ctx h s, hs' : stageSegment reg p ctx h s' with
    | ⟨r, h₁, ev⟩, ⟨r', h₁', ev'⟩ =>
      rw [hs, hs'] at hsegment
      obtain ⟨hr, rfl, rfl⟩ := Outcome.mk.inj hsegment
      rcases map_eq_map hr with ⟨e, rfl, rfl⟩ | ⟨x, x', rfl, rfl, hx⟩
      · rw [stage, overSegments_error hs, overSegments_error hs']
      · have hrest := ih h₁
        rw [stage, overSegments_ok hs, overSegments_ok hs']
        rw [Outcome.over, Outcome.over, Outcome.mk.injEq] at hrest ⊢
        obtain ⟨hrest, hheld, hevents⟩ := hrest
        refine ⟨?_, hheld, congrArg (ev ++ ·) hevents⟩
        show (((stage reg p ctx h₁ ss).result.map _).map _) = ((stage reg p ctx h₁ ss').result.map _).map _
        rcases map_eq_map hrest with ⟨e, hl, hl'⟩ | ⟨xs, xs', hl, hl', hxs⟩
        · rw [hl, hl']
          rfl
        · rw [hl, hl']
          exact congrArg Except.ok (congrArg₂ List.cons hx hxs)

theorem compile_alike {ss ss' : List (List Char)} (hs : List.Forall₂ (Alike reg) ss ss') (h : Held ι)
    (params : List Val) :
    (compile reg p ctx h ss params).over (List.map PlanPhase.bare)
      = (compile reg p ctx h ss' params).over (List.map PlanPhase.bare) := by
  have hstage := stage_alike reg p ctx hs h
  rw [compile, compile]
  generalize stage reg p ctx h ss = o at hstage ⊢
  generalize stage reg p ctx h ss' = o' at hstage ⊢
  obtain ⟨r, h₁, ev⟩ := o
  obtain ⟨r', h₁', ev'⟩ := o'
  obtain ⟨hr, rfl, rfl⟩ := Outcome.mk.inj hstage
  rcases map_eq_map hr with ⟨e, rfl, rfl⟩ | ⟨x, x', rfl, rfl, hx⟩
  · rfl
  · show (⟨(planOf h₁ params x).map _, h₁, ev⟩ : Outcome ι α _) = ⟨(planOf h₁ params x').map _, h₁, ev⟩
    rw [← planOf_emptied, hx, planOf_emptied]

theorem map_strip_emptied (ps : List (List Char)) :
    (ps.map strip).map (emptied none) = (ps.map (emptied none)).map strip := by
  rw [List.map_map, List.map_map]
  exact List.map_congr_left fun p _ => (strip_emptied p).symm

theorem nil_mem_emptied (ps : List (List Char)) : [] ∈ ps ↔ [] ∈ ps.map (emptied none) := by
  simp only [List.mem_map, emptied_eq_nil_iff, exists_eq_right]

/-- What does not depend on the contents is the same of lists that are the same without them. -/
theorem map_eq_of_emptied {β : Type} {f : List Char → β} (hf : ∀ s, f s = f (emptied none s))
    {ps ps' : List (List Char)} (h : ps.map (emptied none) = ps'.map (emptied none)) :
    ps.map f = ps'.map f := by
  have hall (ps : List (List Char)) : ps.map f = (ps.map (emptied none)).map f := by
    rw [List.map_map]
    exact List.map_congr_left fun s _ => hf s
  rw [hall, h, ← hall]

/-- Where two texts differ in the contents of their literals alone, everything the compiler decides is
the same: the cuts, the operators, the placeholders of each segment and the whole plan apart from the
texts of its statements, or the error; and so is the verdict of the guard of a where clause. -/
theorem literals_inert (h : Held ι) (params : List Val) {t t' : List Char} {w w' : String}
    (hsame : emptied none t = emptied none t')
    (hkept : ∀ a b, splitPipeline t = some a → splitPipeline t' = some b → ∀ s s', (s, s') ∈ a.zip b →
      ((classify reg s).isSome = true → s = s')
        ∧ ((classify reg s).isSome = false → ';' ∉ contents none s ∧ ';' ∉ contents none s'))
    (hwhere : emptied none w.toList = emptied none w'.toList)
    (hw : ';' ∉ contents none w.toList) (hw' : ';' ∉ contents none w'.toList) (label : String) :
    (cutPipes none [] t).map (emptied none) = (cutPipes none [] t').map (emptied none)
      ∧ (splitPipeline t = none ↔ splitPipeline t' = none)
      ∧ (∀ a b, splitPipeline t = some a → splitPipeline t' = some b →
        a.map (emptied none) = b.map (emptied none)
          ∧ a.map (fun s => (classify reg s).map fun r => (r.1, r.2.1))
            = b.map (fun s => (classify reg s).map fun r => (r.1, r.2.1))
          ∧ a.map (countPlaceholders none) = b.map (countPlaceholders none)
          ∧ (compile reg p ctx h a params).over (List.map PlanPhase.bare)
            = (compile reg p ctx h b params).over (List.map PlanPhase.bare))
      ∧ (oneStatement w label).map (fun s => emptied none s.toList)
        = (oneStatement w' label).map fun s => emptied none s.toList := by
  have hcut (t : List Char) :
      (cutPipes none [] t).map (emptied none) = cutPipes none [] (emptied none t) := by
    rw [cutPipes_emptied none [] t quoteState_none, emptiedPieces_none]
  have hpieces : (cutPipes none [] t).map (emptied none) = (cutPipes none [] t').map (emptied none) := by
    rw [hcut, hcut, hsame]
  have hstrip : ((cutPipes none [] t).map strip).map (emptied none)
      = ((cutPipes none [] t').map strip).map (emptied none) := by
    rw [map_strip_emptied, map_strip_emptied, hpieces]
  refine ⟨hpieces, ?_, ?_, ?_⟩
  · have hblank := nil_mem_emptied ((cutPipes none [] t).map strip)
    rw [hstrip, ← nil_mem_emptied] at hblank
    rw [splitPipeline, splitPipeline]
    simp [hblank]
  · intro a b ha hb
    have hall := hkept a b ha hb
    obtain ⟨rfl, -⟩ := splitPipeline_eq_some_iff.mp ha
    obtain ⟨rfl, -⟩ := splitPipeline_eq_some_iff.mp hb
    refine ⟨hstrip, ?_, ?_, ?_⟩
    · have hclass (s : List Char) : ((classify reg s).map fun r => (r.1, r.2.1))
          = (classify reg (emptied none s)).map fun r => (r.1, r.2.1) := by
        rw [classify_emptied, Option.map_map]
        rfl
      exact map_eq_of_emptied hclass hstrip
    · exact map_eq_of_emptied (fun s => (countPlaceholders_emptied none s).symm) hstrip
    · refine compile_alike reg p ctx (List.forall₂_iff_zip.mpr ⟨?_, ?_⟩) h params
      · have hlength := congrArg List.length hstrip
        simpa using hlength
      · intro s s' hmem
        have hequal : List.Forall₂ (fun s s' => emptied none s = emptied none s')
            ((cutPipes none [] t).map strip) ((cutPipes none [] t').map strip) := by
          rw [← List.forall₂_map_left_iff (f := emptied none) (R := fun x s' => x = emptied none s'),
            ← List.forall₂_map_right_iff (f := emptied none) (R := fun x y => x = y), hstrip]
          exact List.forall₂_refl _
        exact ⟨(List.forall₂_iff_zip.mp hequal).2 hmem, hall s s' hmem⟩
  · rw [← oneStatement_emptied hw, ← oneStatement_emptied hw', hwhere]

end Compile

/-- A scan, and a statement with a pipe or a question mark in its literal. -/
theorem literals_inert_scan :
    (compile builtins readOnly notesCtx (fun _ => ())
        ["scan notes".toList, "SELECT 'a|b' AS x, ? AS y FROM _in".toList] [.json .null]).over
        (List.map PlanPhase.bare)
      = (compile builtins readOnly notesCtx (fun _ => ())
        ["scan notes".toList, "SELECT '?' AS x, ? AS y FROM _in".toList] [.json .null]).over
        (List.map PlanPhase.bare) := by
  have ha : splitPipeline "scan notes | SELECT 'a|b' AS x, ? AS y FROM _in".toList
      = some ["scan notes".toList, "SELECT 'a|b' AS x, ? AS y FROM _in".toList] := by decide +kernel
  have hb : splitPipeline "scan notes | SELECT '?' AS x, ? AS y FROM _in".toList
      = some ["scan notes".toList, "SELECT '?' AS x, ? AS y FROM _in".toList] := by decide +kernel
  have hwhere : emptied none "text = 'a'".toList = emptied none "text = '|'".toList := by
    decide +kernel
  refine ((literals_inert builtins readOnly notesCtx (fun _ => ()) [.json .null] (by decide +kernel) ?_
    hwhere (by decide +kernel) (by decide +kernel) "delete where").2.2.1 _ _ ha hb).2.2.2
  intro a b ha' hb' s s' hmem
  rw [ha] at ha'
  rw [hb] at hb'
  obtain rfl := Option.some.inj ha'
  obtain rfl := Option.some.inj hb'
  have hoperator : (classify builtins "scan notes".toList).isSome = true := by decide +kernel
  have hsql : (classify builtins "SELECT 'a|b' AS x, ? AS y FROM _in".toList).isSome = false := by
    decide +kernel
  rcases List.mem_cons.mp hmem with heq | hmem
  · obtain ⟨rfl, rfl⟩ := Prod.mk.inj heq
    exact ⟨fun _ => rfl, fun h => absurd h (by rw [hoperator]; simp)⟩
  · obtain ⟨rfl, rfl⟩ := Prod.mk.inj (List.mem_singleton.mp hmem)
    refine ⟨fun h => absurd h (by rw [hsql]; simp), fun _ => ⟨?_, ?_⟩⟩
    · decide +kernel
    · decide +kernel

/-- A comment is cut at its pipe; and a semicolon is seen in a literal. -/
theorem comment_cut :
    ((splitPipeline "SELECT 1 -- a|b".toList).map List.length = some 2
      ∧ (splitPipeline "SELECT 1 -- a.b".toList).map List.length = some 1)
      ∧ emptied none "SELECT ';'".toList = emptied none "SELECT '.'".toList
      ∧ (compile builtins readOnly notesCtx (fun _ => ()) ["SELECT ';'".toList] []).result.isOk = false
      ∧ (compile builtins readOnly notesCtx (fun _ => ()) ["SELECT '.'".toList] []).result.isOk = true := by
  refine ⟨⟨by decide +kernel, by decide +kernel⟩, by decide +kernel, by decide +kernel, by decide +kernel⟩

end Seekbase
