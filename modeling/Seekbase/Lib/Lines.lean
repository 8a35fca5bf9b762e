/-
# Seekbase.Lib.Lines — byte strings as lines.

A line ends at a line feed, at a carriage return, or at the two in this order, and keeps its ending;
only the last line may have none.  A reader that follows a growing file takes WHOLE lines, those that
end in a line feed, and of these a prefix stays what it is however the file grows.

* `splitLines`    — the lines of a byte string;
* `IsLine`        — one line that ends in a line feed;
* `completeLines` — the segments up to each line feed, and nothing of an unfinished tail;
* `Spans`         — a byte string cut at an offset between complete lines;
* `LineStart`, `between` — the offsets a reader may stop at, and what it has read from one to the next.
-/
import Mathlib.Data.List.DropRight
import Mathlib.Data.List.Flatten

namespace Lines

abbrev Bytes := List UInt8

def lf : UInt8 := 10

def cr : UInt8 := 13

/-- The lines of a byte string with their endings. -/
def splitLines : Bytes → List Bytes
  | [] => []
  | b :: bs =>
    match splitLines bs with
    | [] => [[b]]
    | l :: ls =>
      -- a return right before a line feed does not end the line yet
      if b = lf ∨ (b = cr ∧ l ≠ [lf]) then [b] :: l :: ls else (b :: l) :: ls

/-- An ASCII blank. -/
def isBlank (b : UInt8) : Bool := b == 32 || (9 ≤ b && b ≤ 13)

/-- A byte string without the blanks at its ends. -/
def trim (bs : Bytes) : Bytes := (bs.dropWhile isBlank).rdropWhile isBlank

/-! ## Lines -/

@[simp] theorem splitLines_nil : splitLines [] = [] := rfl

/-- The two shapes of a line that is put in front. -/
theorem splitLines_cons {b : UInt8} {bs l : Bytes} {ls : List Bytes}
    (h : splitLines bs = l :: ls) : splitLines (b :: bs)
      = if b = lf ∨ (b = cr ∧ l ≠ [lf]) then [b] :: l :: ls else (b :: l) :: ls := by
  rw [splitLines, h]

theorem splitLines_eq_nil {bs : Bytes} : splitLines bs = [] ↔ bs = [] := by
  cases bs with
  | nil => simp
  | cons b bs =>
    cases h : splitLines bs with
    | nil => simp [splitLines, h]
    | cons l ls =>
      rw [splitLines_cons h]
      by_cases hb : b = lf ∨ (b = cr ∧ l ≠ [lf])
      · simp [if_pos hb]
      · simp [if_neg hb]

theorem splitLines_single (b : UInt8) : splitLines [b] = [[b]] := rfl

/-- The lines of a string with a byte in front: the byte alone, a line of the string, or the byte
before one. -/
theorem mem_splitLines_cons {b : UInt8} {bs l : Bytes} (h : l ∈ splitLines (b :: bs)) :
    l = [b] ∨ l ∈ splitLines bs ∨
      ∃ x ∈ splitLines bs, ¬ (b = lf ∨ (b = cr ∧ x ≠ [lf])) ∧ l = b :: x := by
  cases hs : splitLines bs with
  | nil =>
    rw [splitLines_eq_nil.mp hs, splitLines_single, List.mem_singleton] at h
    exact Or.inl h
  | cons x xs =>
    rw [splitLines_cons hs] at h
    by_cases hb : b = lf ∨ (b = cr ∧ x ≠ [lf])
    · rw [if_pos hb, List.mem_cons] at h
      exact h.imp_right Or.inl
    · rw [if_neg hb, List.mem_cons] at h
      rcases h with rfl | h
      · exact Or.inr (Or.inr ⟨x, List.mem_cons_self, hb, rfl⟩)
      · exact Or.inr (Or.inl (List.mem_cons_of_mem _ h))

/-- Nothing is lost. -/
theorem flatten_splitLines (bs : Bytes) : (splitLines bs).flatten = bs := by
  induction bs with
  | nil => rfl
  | cons b bs ih =>
    cases h : splitLines bs with
    | nil =>
      rw [splitLines_eq_nil.mp h]
      rfl
    | cons l ls =>
      rw [h] at ih
      rw [splitLines_cons h]
      by_cases hb : b = lf ∨ (b = cr ∧ l ≠ [lf])
      · rw [if_pos hb, List.flatten_cons, ih]
        rfl
      · rw [if_neg hb, List.flatten_cons, List.cons_append, ← List.flatten_cons, ih]

/-- The first lines of a chunk of a content that has grown since. -/
theorem taken_prefix {content grown : Bytes} {off : Nat} {taken : List Bytes} (h : content <+: grown)
    (ht : taken <+: splitLines (content.drop off)) : taken.flatten <+: grown.drop off := by
  rcases ht with ⟨rest, hrest⟩
  rcases h with ⟨unseen, rfl⟩
  have hchunk := flatten_splitLines (content.drop off)
  rw [← hrest, List.flatten_append] at hchunk
  have htake : taken.flatten <+: content.drop off := ⟨rest.flatten, hchunk⟩
  rw [List.drop_append]
  exact htake.trans (List.prefix_append _ _)

theorem ne_nil_of_mem_splitLines {bs l : Bytes} (h : l ∈ splitLines bs) : l ≠ [] := by
  induction bs with
  | nil => simp at h
  | cons b bs ih =>
    rcases mem_splitLines_cons h with rfl | h | ⟨x, -, -, rfl⟩
    · simp
    · exact ih h
    · simp

/-- A line feed is nowhere but at the end of a line. -/
theorem lf_not_mem_dropLast {bs l : Bytes} (h : l ∈ splitLines bs) : lf ∉ l.dropLast := by
  induction bs generalizing l with
  | nil => simp at h
  | cons b bs ih =>
    rcases mem_splitLines_cons h with rfl | h | ⟨x, hx, hno, rfl⟩
    · simp
    · exact ih h
    · rw [List.dropLast_cons_of_ne_nil (ne_nil_of_mem_splitLines hx), List.mem_cons, not_or]
      exact ⟨fun hb => hno (Or.inl hb.symm), ih hx⟩

/-- After a line feed the lines start anew. -/
theorem splitLines_append {a : Bytes} (h : a.getLast? = some lf) (b : Bytes) :
    splitLines (a ++ b) = splitLines a ++ splitLines b := by
  induction a with
  | nil => simp at h
  | cons x a ih =>
    cases a with
    | nil =>
      have hx : x = lf := by simpa using h
      show splitLines (x :: b) = [[x]] ++ splitLines b
      cases hb : splitLines b with
      | nil =>
        rw [splitLines_eq_nil.mp hb]
        rfl
      | cons l ls =>
        rw [splitLines_cons hb, if_pos (Or.inl hx)]
        rfl
    | cons y a =>
      have hlast : (y :: a).getLast? = some lf := by simpa using h
      have hrest := ih hlast
      cases hy : splitLines (y :: a) with
      | nil => exact absurd (splitLines_eq_nil.mp hy) (by simp)
      | cons l ls =>
        rw [hy, List.cons_append] at hrest
        rw [List.cons_append, List.cons_append, splitLines_cons hrest, splitLines_cons hy]
        by_cases hx : x = lf ∨ (x = cr ∧ l ≠ [lf])
        · rw [if_pos hx, if_pos hx]
          rfl
        · rw [if_neg hx, if_neg hx]
          rfl

/-- A line is a line on its own. -/
theorem splitLines_of_mem {bs l : Bytes} (h : l ∈ splitLines bs) : splitLines l = [l] := by
  induction bs generalizing l with
  | nil => simp at h
  | cons b bs ih =>
    rcases mem_splitLines_cons h with rfl | h | ⟨x, hx, hno, rfl⟩
    · exact splitLines_single b
    · exact ih h
    · rw [splitLines_cons (ih hx), if_neg hno]

/-- A line that ends in a line feed. -/
structure IsLine (l : Bytes) : Prop where
  one : splitLines l = [l]
  ends : l.getLast? = some lf

/-- A line feed ends a line where no ending came before. -/
theorem isLine_of_body {body : Bytes} (h : ∀ b ∈ body, b ≠ lf ∧ b ≠ cr) : IsLine (body ++ [lf]) where
  one := by
    induction body with
    | nil => rfl
    | cons b body ih =>
      obtain ⟨hlf, hcr⟩ := h b List.mem_cons_self
      have hno : ¬ (b = lf ∨ (b = cr ∧ body ++ [lf] ≠ [lf])) := fun hb => hb.elim hlf fun hb => hcr hb.1
      rw [List.cons_append, splitLines_cons (ih fun d hd => h d (List.mem_cons_of_mem b hd)), if_neg hno]
  ends := List.getLast?_concat

/-- Stripped, such a line is what stands before the line feed, if that begins and ends with no blank. -/
theorem trim_line {a b : UInt8} (ha : isBlank a = false) (hb : isBlank b = false) (mid : Bytes) :
    trim (a :: mid ++ [b] ++ [lf]) = a :: mid ++ [b] := by
  have hlf : isBlank lf = true := rfl
  rw [trim, List.cons_append, List.cons_append, List.dropWhile_cons_of_neg (by simp [ha]),
    ← List.cons_append, ← List.cons_append, List.rdropWhile_concat_pos _ _ _ hlf,
    List.rdropWhile_concat_neg _ _ _ (by simp [hb])]

theorem isLine_of_mem {bs l : Bytes} (h : l ∈ splitLines bs) (he : l.getLast? = some lf) :
    IsLine l := ⟨splitLines_of_mem h, he⟩

theorem IsLine.lf_not_mem {l : Bytes} (h : IsLine l) : lf ∉ l.dropLast :=
  lf_not_mem_dropLast (h.one.symm ▸ List.mem_cons_self : l ∈ splitLines l)

/-- Lines one after another are split where they were joined. -/
theorem splitLines_flatten {ls : List Bytes} (h : ∀ l ∈ ls, IsLine l) : splitLines ls.flatten = ls := by
  induction ls with
  | nil => rfl
  | cons l ls ih =>
    have hl := h l List.mem_cons_self
    rw [List.flatten_cons, splitLines_append hl.ends, hl.one,
      ih fun x hx => h x (List.mem_cons_of_mem _ hx)]
    rfl

/-! ## Complete lines -/

/-- The segments of a byte string that end in a line feed. -/
def completeLines : Bytes → List Bytes
  | [] => []
  | b :: bs =>
    if b = lf then [b] :: completeLines bs
    else
      match completeLines bs with
      | [] => []
      | l :: ls => (b :: l) :: ls

theorem completeLines_line {body : Bytes} (h : lf ∉ body) (rest : Bytes) :
    completeLines (body ++ lf :: rest) = (body ++ [lf]) :: completeLines rest := by
  induction body with
  | nil => simp [completeLines]
  | cons b body ih =>
    rw [List.mem_cons, not_or] at h
    rw [List.cons_append, completeLines, if_neg (Ne.symm h.1), ih h.2]
    rfl

theorem IsLine.eq_append {l : Bytes} (h : IsLine l) : l = l.dropLast ++ [lf] := by
  have hne : l ≠ [] := by
    rintro rfl
    exact absurd h.ends (by simp)
  have hlast : l.getLast hne = lf := by
    have := h.ends
    rw [List.getLast?_eq_some_getLast hne] at this
    exact Option.some.inj this
  rw [← hlast, List.dropLast_append_getLast hne]

theorem completeLines_flatten {ls : List Bytes} (h : ∀ l ∈ ls, IsLine l) (rest : Bytes) :
    completeLines (ls.flatten ++ rest) = ls ++ completeLines rest := by
  induction ls with
  | nil => rfl
  | cons l ls ih =>
    have hl := h l List.mem_cons_self
    have hbody : l.dropLast ++ [lf] = l := hl.eq_append.symm
    have hsplit : (l :: ls).flatten ++ rest = l.dropLast ++ lf :: (ls.flatten ++ rest) := by
      rw [List.flatten_cons, List.append_assoc]
      nth_rewrite 1 [← hbody]
      simp
    rw [hsplit, completeLines_line hl.lf_not_mem, hbody,
      ih fun x hx => h x (List.mem_cons_of_mem _ hx)]
    rfl

/-- A file that grows keeps its complete lines. -/
theorem completeLines_grow (a b : Bytes) : completeLines a <+: completeLines (a ++ b) := by
  induction a with
  | nil => exact List.nil_prefix
  | cons x a ih =>
    rw [List.cons_append, completeLines, completeLines]
    split
    · exact List.cons_prefix_cons.mpr ⟨rfl, ih⟩
    · cases ha : completeLines a with
      | nil => exact List.nil_prefix
      | cons l ls =>
        rw [ha] at ih
        rcases ih with ⟨more, hmore⟩
        rw [← hmore]
        exact ⟨more, rfl⟩

/-! ## Offsets -/

/-- Up to the offset the byte string is complete lines, each blank or with a property. -/
def Spans (P : Bytes → Prop) (content : Bytes) (off : Nat) : Prop :=
  ∃ ls : List Bytes, off = ls.flatten.length ∧ ls.flatten <+: content ∧ ∀ l ∈ ls, IsLine l ∧ (trim l ≠ [] → P l)

variable {P Q : Bytes → Prop} {content : Bytes} {off : Nat}

theorem Spans.zero (P : Bytes → Prop) (content : Bytes) : Spans P content 0 :=
  ⟨[], rfl, List.nil_prefix, fun _ h => absurd h (by simp)⟩

theorem Spans.mono (h : Spans P content off) (hPQ : ∀ l, P l → Q l) : Spans Q content off := by
  rcases h with ⟨ls, hoff, hpre, hls⟩
  exact ⟨ls, hoff, hpre, fun l hl => ⟨(hls l hl).1, fun hne => hPQ l ((hls l hl).2 hne)⟩⟩

theorem Spans.grow (h : Spans P content off) (more : Bytes) : Spans P (content ++ more) off := by
  rcases h with ⟨ls, hoff, hpre, hls⟩
  exact ⟨ls, hoff, hpre.trans (List.prefix_append _ _), hls⟩

/-- The complete lines before such an offset. -/
theorem Spans.lines (h : Spans P content off) {l : Bytes}
    (hl : l ∈ completeLines (content.take off)) (hne : trim l ≠ []) : P l := by
  rcases h with ⟨ls, rfl, hpre, hls⟩
  have htake : content.take ls.flatten.length = ls.flatten ++ [] := by
    rw [List.append_nil]
    exact (List.prefix_iff_eq_take.mp hpre).symm
  rw [htake, completeLines_flatten fun x hx => (hls x hx).1] at hl
  exact (hls l (by simpa [completeLines] using hl)).2 hne

/-- More complete lines are read from the offset on. -/
theorem Spans.extend (h : Spans P content off) {ls : List Bytes}
    (hpre : ls.flatten <+: content.drop off) (hls : ∀ l ∈ ls, IsLine l ∧ (trim l ≠ [] → P l)) :
    Spans P content (off + ls.flatten.length) := by
  rcases h with ⟨before, rfl, hbefore, hall⟩
  rcases hbefore with ⟨rest, rfl⟩
  rw [List.drop_left] at hpre
  refine ⟨before ++ ls, ?_, ?_, ?_⟩
  · rw [List.flatten_append, List.length_append]
  · rw [List.flatten_append]
    exact (List.prefix_append_right_inj _).mpr hpre
  · exact List.forall_mem_append.mpr ⟨hall, hls⟩

/-- Lines read from such an offset on are complete lines of the whole. -/
theorem Spans.mem_completeLines (h : Spans P content off) {ls : List Bytes}
    (hpre : ls.flatten <+: content.drop off) (hls : ∀ l ∈ ls, IsLine l) {l : Bytes} (hl : l ∈ ls) :
    l ∈ completeLines content := by
  rcases h with ⟨before, rfl, hbefore, hall⟩
  rcases hbefore with ⟨rest, rfl⟩
  rw [List.drop_left] at hpre
  rcases hpre with ⟨tail, rfl⟩
  rw [completeLines_flatten fun x hx => (hall x hx).1, completeLines_flatten hls]
  exact List.mem_append_right _ (List.mem_append_left _ hl)

/-! ## From one offset to another -/

/-- The start of a line: of all, or right after a line feed. -/
def LineStart (content : Bytes) (off : Nat) : Prop :=
  off = 0 ∨ off ≤ content.length ∧ (content.take off).getLast? = some lf

/-- The complete lines between two offsets that are not blank. -/
def between (content : Bytes) (a b : Nat) : List Bytes :=
  (completeLines ((content.take b).drop a)).filter (trim · ≠ [])

theorem completeLines_cons {b : UInt8} {bs l : Bytes} {ls : List Bytes} (hb : b ≠ lf)
    (h : completeLines bs = l :: ls) : completeLines (b :: bs) = (b :: l) :: ls := by
  rw [completeLines, if_neg hb, h]

theorem completeLines_ne_nil {bs : Bytes} (h : lf ∈ bs) : ∃ l ls, completeLines bs = l :: ls := by
  induction bs with
  | nil => simp at h
  | cons b bs ih =>
    by_cases hb : b = lf
    · exact ⟨[b], completeLines bs, by rw [completeLines, if_pos hb]⟩
    · rcases ih ((List.mem_cons.mp h).resolve_left (Ne.symm hb)) with ⟨l, ls, hl⟩
      exact ⟨b :: l, ls, completeLines_cons hb hl⟩

theorem completeLines_append {a : Bytes} (h : a = [] ∨ a.getLast? = some lf) (b : Bytes) :
    completeLines (a ++ b) = completeLines a ++ completeLines b := by
  induction a with
  | nil => rfl
  | cons x a ih =>
    by_cases hx : x = lf
    · have hrest : a = [] ∨ a.getLast? = some lf := by
        cases a with
        | nil => exact Or.inl rfl
        | cons y a => exact Or.inr (by simpa using h)
      rw [List.cons_append, completeLines, if_pos hx, ih hrest, completeLines, if_pos hx]
      rfl
    · cases a with
      | nil => simp [hx] at h
      | cons y a =>
        have hlast : (y :: a).getLast? = some lf := by simpa using h
        rcases completeLines_ne_nil (List.mem_of_getLast? hlast) with ⟨l, ls, hl⟩
        have hrest := ih (Or.inr hlast)
        rw [hl] at hrest
        rw [List.cons_append, completeLines_cons hx hl]
        exact completeLines_cons hx hrest

/-- A byte string that ends in a line feed is its complete lines. -/
theorem flatten_completeLines {bs : Bytes} (h : bs.getLast? = some lf) :
    (completeLines bs).flatten = bs := by
  induction bs with
  | nil => simp at h
  | cons b bs ih =>
    cases bs with
    | nil =>
      have hb : b = lf := by simpa using h
      subst hb
      rfl
    | cons y bs =>
      have hlast : (y :: bs).getLast? = some lf := by simpa using h
      by_cases hb : b = lf
      · rw [completeLines, if_pos hb, List.flatten_cons, ih hlast]
        rfl
      · rcases completeLines_ne_nil (List.mem_of_getLast? hlast) with ⟨l, ls, hl⟩
        have hrest := ih hlast
        rw [hl] at hrest
        rw [completeLines_cons hb hl, List.flatten_cons, List.cons_append]
        exact congrArg (b :: ·) hrest

theorem LineStart.le {content : Bytes} {off : Nat} (h : LineStart content off) :
    off ≤ content.length := by
  rcases h with rfl | ⟨hle, -⟩
  · exact Nat.zero_le _
  · exact hle

theorem LineStart.take {content : Bytes} {off : Nat} (h : LineStart content off) :
    content.take off = [] ∨ (content.take off).getLast? = some lf := by
  rcases h with rfl | ⟨-, hlast⟩
  · exact Or.inl List.take_zero
  · exact Or.inr hlast

theorem LineStart.grow {content : Bytes} {off : Nat} (h : LineStart content off) (more : Bytes) :
    LineStart (content ++ more) off := by
  rcases h with rfl | ⟨hle, hlast⟩
  · exact Or.inl rfl
  · refine Or.inr ⟨?_, ?_⟩
    · rw [List.length_append]
      omega
    · rw [List.take_append_of_le_length hle]
      exact hlast

/-- No byte of an unfinished tail lies before the start of a line. -/
theorem LineStart.le_complete {content : Bytes} {off : Nat} (h : LineStart content off) :
    off ≤ (completeLines content).flatten.length := by
  rcases h with rfl | ⟨hle, hlast⟩
  · exact Nat.zero_le _
  · have hsplit := completeLines_append (Or.inr hlast) (content.drop off)
    rw [List.take_append_drop] at hsplit
    rw [hsplit, List.flatten_append, flatten_completeLines hlast, List.length_append,
      List.length_take]
    omega

theorem getLast?_flatten_lines {ls : List Bytes} (hls : ∀ l ∈ ls, l.getLast? = some lf) :
    ls.flatten = [] ∨ ls.flatten.getLast? = some lf := by
  induction ls with
  | nil => exact Or.inl rfl
  | cons l ls ih =>
    have hl := hls l List.mem_cons_self
    right
    rw [List.flatten_cons, List.getLast?_append]
    rcases ih fun x hx => hls x (List.mem_cons_of_mem _ hx) with hnil | hlast
    · rw [hnil]
      exact hl
    · rw [hlast]
      rfl

theorem take_extend {content more : Bytes} {off : Nat} (h : more <+: content.drop off) :
    content.take (off + more.length) = content.take off ++ more := by
  rw [List.take_add, ← List.prefix_iff_eq_take.mp h]

/-- Complete lines read from the start of a line lead to the start of a line. -/
theorem LineStart.extend {content : Bytes} {off : Nat} (h : LineStart content off) {ls : List Bytes}
    (hpre : ls.flatten <+: content.drop off) (hls : ∀ l ∈ ls, l.getLast? = some lf) :
    LineStart content (off + ls.flatten.length) := by
  rcases getLast?_flatten_lines hls with hnil | hlast
  · rw [hnil]
    exact h
  · refine Or.inr ⟨?_, ?_⟩
    · have hlen := hpre.length_le
      have hoff := h.le
      rw [List.length_drop] at hlen
      omega
    · rw [take_extend hpre, List.getLast?_append, hlast]
      rfl

theorem between_self (content : Bytes) (off : Nat) : between content off off = [] := by
  rw [between, List.drop_eq_nil_of_le (List.length_take_le _ _)]
  rfl

theorem between_grow {content : Bytes} {a b : Nat} (h : b ≤ content.length) (more : Bytes) :
    between (content ++ more) a b = between content a b := by
  rw [between, List.take_append_of_le_length h]
  rfl

/-- What is between three offsets. -/
theorem between_append {content : Bytes} {a b c : Nat} (hab : a ≤ b) (hbc : b ≤ c)
    (hb : LineStart content b) :
    between content a b ++ between content b c = between content a c := by
  have hle := hb.le
  have hsplit : (content.take c).drop a = (content.take b).drop a ++ (content.take c).drop b := by
    calc (content.take c).drop a
        = ((content.take c).take b ++ (content.take c).drop b).drop a := by
          rw [List.take_append_drop]
      _ = (content.take b ++ (content.take c).drop b).drop a := by
          rw [List.take_take, Nat.min_eq_left hbc]
      _ = (content.take b).drop a ++ (content.take c).drop b := by
          apply List.drop_append_of_le_length
          rw [List.length_take]
          omega
  have hmid : (content.take b).drop a = [] ∨ ((content.take b).drop a).getLast? = some lf := by
    rcases hb.take with hnil | hlast
    · left
      rw [hnil, List.drop_nil]
    · by_cases hlen : (content.take b).length ≤ a
      · exact Or.inl (List.drop_eq_nil_of_le hlen)
      · right
        rw [List.getLast?_drop, if_neg hlen]
        exact hlast
  rw [between, between, between, hsplit, completeLines_append hmid, List.filter_append]

/-- What lies between the offsets of complete lines is these lines. -/
theorem between_extend {content : Bytes} {off : Nat} (hoff : off ≤ content.length) {ls : List Bytes}
    (hpre : ls.flatten <+: content.drop off) (hls : ∀ l ∈ ls, IsLine l) :
    between content off (off + ls.flatten.length) = ls.filter (trim · ≠ []) := by
  have hlen : (content.take off).length = off := List.length_take_of_le hoff
  have hread : (content.take (off + ls.flatten.length)).drop off = ls.flatten ++ [] := by
    rw [take_extend hpre, List.drop_left' hlen, List.append_nil]
  rw [between, hread, completeLines_flatten hls]
  simp [completeLines]

/-- The first of the lines is a mere line feed iff a line feed comes first. -/
theorem first_mere_iff {bs l : Bytes} {ls : List Bytes} (h : splitLines bs = l :: ls) :
    l = [lf] ↔ bs.takeWhile (· ≠ lf) = [] := by
  have hflat := flatten_splitLines bs
  rw [h] at hflat
  constructor
  · rintro rfl
    rw [← hflat]
    rfl
  · intro hnone
    cases bs with
    | nil => cases h
    | cons b bs =>
      have hb : b = lf := by
        by_contra hb
        simp [hb] at hnone
      have hsplit := splitLines_append (a := [lf]) rfl bs
      rw [hb, show lf :: bs = [lf] ++ bs from rfl, hsplit] at h
      exact (List.cons.inj h).1.symm

/-- The first line ends in a line feed iff no carriage return stands before it, but for one right
before. -/
theorem first_line_iff {bs : Bytes} (h : lf ∈ bs) :
    (∃ l ls, splitLines bs = l :: ls ∧ l.getLast? = some lf)
      ↔ cr ∉ (bs.takeWhile (· ≠ lf)).dropLast := by
  induction bs with
  | nil => simp at h
  | cons b bs ih =>
    by_cases hb : b = lf
    · subst hb
      refine iff_of_true ⟨[lf], splitLines bs, splitLines_append (a := [lf]) rfl bs, rfl⟩ ?_
      simp
    · have hrest : lf ∈ bs := (List.mem_cons.mp h).resolve_left (Ne.symm hb)
      have hne : bs ≠ [] := List.ne_nil_of_mem hrest
      rcases List.exists_cons_of_ne_nil (splitLines_eq_nil.not.mpr hne) with ⟨l, ls, hs⟩
      have htake : (b :: bs).takeWhile (· ≠ lf) = b :: bs.takeWhile (· ≠ lf) := by
        simp [hb]
      rw [htake]
      by_cases hends : b = cr ∧ l ≠ [lf]
      · -- the line ends at this return, and the line feed is further on
        have hsplit : splitLines (b :: bs) = [b] :: l :: ls := by
          rw [splitLines_cons hs, if_pos (Or.inr hends)]
        refine iff_of_false ?_ ?_
        · rintro ⟨x, xs, hx, hlast⟩
          rw [hsplit] at hx
          rcases (List.cons.inj hx).1 with rfl
          exact hb (by simpa using hlast)
        · rw [List.dropLast_cons_of_ne_nil fun hnil => hends.2 ((first_mere_iff hs).mpr hnil), hends.1]
          simp
      · have hsplit : splitLines (b :: bs) = (b :: l) :: ls := by
          rw [splitLines_cons hs, if_neg]
          rintro (hlf | hcr)
          · exact hb hlf
          · exact hends hcr
        have hl : l ≠ [] := ne_nil_of_mem_splitLines (hs ▸ List.mem_cons_self)
        have hlast : (b :: l).getLast? = l.getLast? := by
          rw [List.getLast?_cons, List.getLast?_eq_some_getLast hl]
          rfl
        have hfirst : (∃ x xs, splitLines (b :: bs) = x :: xs ∧ x.getLast? = some lf)
            ↔ ∃ x xs, splitLines bs = x :: xs ∧ x.getLast? = some lf := by
          rw [hsplit, hs]
          constructor
          · rintro ⟨x, xs, hx, hends⟩
            rcases (List.cons.inj hx).1 with rfl
            exact ⟨l, ls, rfl, hlast ▸ hends⟩
          · rintro ⟨x, xs, hx, hends⟩
            rcases (List.cons.inj hx).1 with rfl
            exact ⟨b :: l, ls, rfl, hlast ▸ hends⟩
        rw [hfirst, ih hrest]
        by_cases hnil : bs.takeWhile (· ≠ lf) = []
        · rw [hnil]
          simp
        · have hcr : b ≠ cr := fun hcr => hends ⟨hcr, fun hl => hnil ((first_mere_iff hs).mp hl)⟩
          rw [List.dropLast_cons_of_ne_nil hnil, List.mem_cons, not_or]
          exact (and_iff_right (Ne.symm hcr)).symm

end Lines
