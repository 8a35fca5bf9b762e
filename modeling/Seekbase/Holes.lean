/-
# Seekbase.Holes — placeholders by position, through texts that are pasted together.

The database binds the i-th parameter to the i-th `?` outside quotes.  `fill` is that binding: the text
with the values in their places.  Where a text is closed, one that is pasted behind it is filled as it
would be alone, with the parameters that are left; so a chain of texts is filled stage by stage.

* `holes`, `fill`            — the placeholders of a text, and the text with values in them;
* `countPlaceholders_eq`     — the compiler counts those placeholders;
* `fill_append`, `fill_glue` — pasting;
* `Silent`                   — a closed text without placeholders.
-/
import Seekbase.Scan
import Seekbase.Struct

namespace Seekbase

/-! ## Filling -/

/-- A placeholder: a question mark outside literals. -/
def Scan.isHole : Scan → Char → Bool
  | .code _, c => c == '?'
  | .quoted _, _ => false

def holes : Scan → List Char → Nat
  | _, [] => 0
  | s, c :: cs => holes (s.step c) cs + if s.isHole c then 1 else 0

/-- A text with values in it. -/
abbrev Filled := List (Char ⊕ Val)

def ofChars (cs : List Char) : Filled := cs.map .inl

def ofText (s : String) : Filled := ofChars s.toList

/-- The i-th placeholder takes the i-th value; one that has none stays. -/
def fill : Scan → List Char → List Val → Filled
  | _, [], _ => []
  | s, c :: cs, vs =>
    if s.isHole c then (vs.head?.map .inr).getD (.inl c) :: fill (s.step c) cs vs.tail
    else .inl c :: fill (s.step c) cs vs

theorem holes_append (s : Scan) (a b : List Char) :
    holes s (a ++ b) = holes s a + holes (s.over a) b := by
  induction a generalizing s with
  | nil => rw [List.nil_append, holes, Nat.zero_add, Scan.over_nil]
  | cons c a ih =>
    rw [List.cons_append, holes, holes, ih, Scan.over_cons]
    omega

/-- A text behind another one is filled from where that one has ended. -/
theorem fill_append (s : Scan) (a b : List Char) (u v : List Val) (h : u.length = holes s a) :
    fill s (a ++ b) (u ++ v) = fill s a u ++ fill (s.over a) b v := by
  induction a generalizing s u with
  | nil =>
    have hu : u = [] := List.length_eq_zero_iff.mp h
    rw [hu]
    rfl
  | cons c a ih =>
    rw [holes] at h
    rw [List.cons_append, fill, fill, Scan.over_cons]
    split
    · next hc =>
      rw [if_pos hc] at h
      cases u with
      | nil =>
        rw [List.length_nil] at h
        omega
      | cons w u =>
        rw [List.length_cons] at h
        show .inr w :: fill (s.step c) (a ++ b) (u ++ v) = .inr w :: (fill (s.step c) a u ++ _)
        rw [ih (s.step c) u (by omega)]
    · next hc =>
      rw [if_neg hc] at h
      rw [ih (s.step c) u (by omega)]
      rfl

/-- Without question marks there is nothing to fill, in a literal or not. -/
theorem holes_of_not_mem (s : Scan) {a : List Char} (h : '?' ∉ a) : holes s a = 0 := by
  induction a generalizing s with
  | nil => rfl
  | cons c a ih =>
    have hc : s.isHole c = false := by
      have hne : c ≠ '?' := fun he => h (he ▸ List.mem_cons_self)
      cases s <;> simp [Scan.isHole, hne]
    rw [holes, ih _ fun hm => h (List.mem_cons_of_mem c hm), hc]
    rfl

theorem fill_of_no_holes (s : Scan) {a : List Char} (h : holes s a = 0) (v : List Val) :
    fill s a v = ofChars a := by
  induction a generalizing s with
  | nil => rfl
  | cons c a ih =>
    rw [holes] at h
    have hc : s.isHole c = false := by
      by_contra hc
      rw [if_pos (by simpa using hc)] at h
      omega
    rw [fill, if_neg (by simp [hc]), ih _ (by omega)]
    rfl

/-- The parity of a run of pipes does not matter here. -/
theorem holes_code (odd : Bool) (cs : List Char) : holes (.code odd) cs = holes (.code false) cs := by
  induction cs generalizing odd with
  | nil => rfl
  | cons c cs ih =>
    have hstep : holes ((Scan.code odd).step c) cs = holes ((Scan.code false).step c) cs := by
      by_cases hc : c = '|'
      · subst hc
        exact (ih _).trans (ih _).symm
      · rw [step_after_pipe hc]
    rw [holes, holes, hstep]
    rfl

theorem holes_inside {c q : Char} (h : c ≠ q) (cs : List Char) :
    holes (.quoted q) (c :: cs) = holes (.quoted q) cs := by
  rw [holes, step_inside h]
  rfl

theorem holes_closing (q : Char) (cs : List Char) :
    holes (.quoted q) (q :: cs) = holes (.code false) cs := by
  rw [holes, step_closing]
  rfl

theorem holes_quote {q : Char} (h : isQuote q = true) (cs : List Char) :
    holes (.code false) (q :: cs) = holes (.quoted q) cs := by
  have hhole : (Scan.code false).isHole q = false := by
    have hne : q ≠ '?' := fun he => absurd h (by rw [he]; decide)
    simp [Scan.isHole, hne]
  rw [holes, step_quote h, hhole]
  rfl

theorem holes_plain {c : Char} (h : isQuote c = false) (cs : List Char) :
    holes (.code false) (c :: cs) = holes (.code false) cs + if c = '?' then 1 else 0 := by
  have hstep : holes ((Scan.code false).step c) cs = holes (.code false) cs := by
    by_cases hc : c = '|'
    · subst hc
      exact holes_code _ cs
    · rw [step_plain h hc]
  rw [holes, hstep]
  simp [Scan.isHole]

/-- The compiler counts the placeholders. -/
theorem countPlaceholders_eq (q : Option Char) (cs : List Char) (hq : QuoteState q) :
    countPlaceholders q cs = holes (Scan.ofQuote q) cs := by
  fun_induction countPlaceholders q cs with
  | case1 q => rfl
  | case2 d rest ih =>
    -- the doubled quote ends the literal and begins it again
    rw [ih hq, Scan.ofQuote, holes_closing, holes_quote (hq d rfl)]
  | case3 q d rest hne ih =>
    rw [ih quoteState_none, Scan.ofQuote, Scan.ofQuote, holes_closing]
  | case4 q => exact (holes_closing q []).symm
  | case5 q c rest hne ih => rw [ih hq, Scan.ofQuote, holes_inside hne]
  | case6 c rest hquote ih =>
    rw [ih (quoteState_some hquote), Scan.ofQuote, Scan.ofQuote, holes_quote hquote]
  | case7 rest hquote ih =>
    rw [ih hq, Scan.ofQuote, holes_plain (by simpa using hquote), if_pos rfl]
  | case8 c rest hquote hne ih =>
    rw [ih hq, Scan.ofQuote, holes_plain (by simpa using hquote), if_neg hne]
    rfl

/-! ## Closed texts without placeholders -/

/-- Pasted anywhere outside literals, it changes neither the placeholders nor what is a literal. -/
structure Silent (cs : List Char) : Prop where
  noMark : '?' ∉ cs
  closed : (Scan.code false).over cs = .code false

instance (cs : List Char) : Decidable (Silent cs) :=
  decidable_of_iff ('?' ∉ cs ∧ (Scan.code false).over cs = .code false)
    ⟨fun h => ⟨h.1, h.2⟩, fun h => ⟨h.noMark, h.closed⟩⟩

theorem Silent.append {a b : List Char} (ha : Silent a) (hb : Silent b) : Silent (a ++ b) where
  noMark := fun h => (List.mem_append.mp h).elim ha.noMark hb.noMark
  closed := by rw [Scan.over_append, ha.closed, hb.closed]

theorem Silent.fill_append {a : List Char} (ha : Silent a) (cs : List Char) (vs : List Val) :
    fill (.code false) (a ++ cs) vs = ofChars a ++ fill (.code false) cs vs := by
  have hholes := holes_of_not_mem (.code false) ha.noMark
  have happend := Seekbase.fill_append (.code false) a cs [] vs (by rw [hholes]; rfl)
  rwa [List.nil_append, fill_of_no_holes _ hholes, ha.closed] at happend

theorem Silent.holes_append {a : List Char} (ha : Silent a) (cs : List Char) :
    holes (.code false) (a ++ cs) = holes (.code false) cs := by
  rw [Seekbase.holes_append, holes_of_not_mem _ ha.noMark, ha.closed, Nat.zero_add]

/-! ## Pasting -/

/-- A text and the values that belong to its placeholders. -/
structure Piece where
  text : List Char
  own : List Val

def Piece.filled (p : Piece) : Filled := fill (.code false) p.text p.own

def Piece.Fed (p : Piece) : Prop := p.own.length = holes (.code false) p.text

def Piece.Closed (p : Piece) : Prop := (Scan.code false).over p.text = .code false

theorem intercalate_cons {α : Type} (sep t : List α) {ts : List (List α)} (h : ts ≠ []) :
    sep.intercalate (t :: ts) = t ++ (sep ++ sep.intercalate ts) := by
  cases ts with
  | nil => exact absurd rfl h
  | cons t' ts => simp [List.intercalate]

/-- Pieces glued by a text of the framework's: each is filled with its own values. -/
theorem fill_glue {sep : List Char} (hsep : Silent sep) {tail : List Char} (htail : '?' ∉ tail)
    {ps : List Piece} (hne : ps ≠ []) (hfed : ∀ p ∈ ps, p.Fed) (hclosed : ∀ p ∈ ps.dropLast, p.Closed) :
    holes (.code false) (sep.intercalate (ps.map Piece.text) ++ tail) = (ps.flatMap Piece.own).length
      ∧ fill (.code false) (sep.intercalate (ps.map Piece.text) ++ tail) (ps.flatMap Piece.own)
        = (ofChars sep).intercalate (ps.map Piece.filled) ++ ofChars tail := by
  induction ps with
  | nil => exact absurd rfl hne
  | cons p ps ih =>
    have hp : p.own.length = holes (.code false) p.text := hfed p List.mem_cons_self
    cases ps with
    | nil =>
      have hnone := holes_of_not_mem ((Scan.code false).over p.text) htail
      have hfill := fill_append (.code false) p.text tail p.own [] hp
      rw [fill_of_no_holes _ hnone, List.append_nil] at hfill
      simp only [List.map_singleton, List.flatMap_singleton, List.intercalate, List.intersperse,
        List.flatten_cons, List.flatten_nil, List.append_nil]
      refine ⟨?_, hfill⟩
      rw [holes_append, hnone, hp, Nat.add_zero]
    | cons p' ps =>
      obtain ⟨hholes, hfilled⟩ := ih (List.cons_ne_nil _ _) (fun x hx => hfed x (List.mem_cons_of_mem p hx))
        fun x hx => hclosed x (List.mem_cons_of_mem p hx)
      have hend : (Scan.code false).over p.text = .code false := hclosed p List.mem_cons_self
      rw [List.map_cons, List.flatMap_cons, intercalate_cons _ _ (by simp), List.append_assoc,
        List.append_assoc]
      refine ⟨?_, ?_⟩
      · rw [holes_append, hend, hsep.holes_append, hholes, List.length_append, hp]
      · have hrest : (ofChars sep).intercalate ((p :: p' :: ps).map Piece.filled)
            = p.filled ++ (ofChars sep ++ (ofChars sep).intercalate ((p' :: ps).map Piece.filled)) :=
          intercalate_cons _ _ (by simp)
        rw [fill_append _ _ _ _ _ hp, hend, hsep.fill_append, hfilled, hrest, List.append_assoc,
          List.append_assoc]
        rfl

end Seekbase
