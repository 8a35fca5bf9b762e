/-
# Seekbase.Lib.Sql — SQL's tokens, and a SELECT as a chain of arms.

Just enough of the language to say where a piece of text stands in a statement: the lexer tells a
parenthesis or a keyword from the same character inside a literal, a quoted name or a comment, and
`chain` cuts a statement at the set operators outside all parentheses.  What an arm selects is not
defined here; `evalFrom` says what the operators make of the rows the arms give.

* `Lexer.step`, `Lexer.scan`, `lex` — the tokens of a text; a literal that does not end has none;
* `endsInComment`, `firstToken` — how a text ends and begins;
* `chain`                  — the arms of a statement, `chain_append` for a text with a known start;
* `evalFrom`               — INTERSECT before UNION and EXCEPT, these from the left;
* `evalFrom_sublist`       — without a UNION every row is one of the first arm's;
* `mem_evalFrom`           — with one, a row that only its arm gives is in the result.
-/
import Mathlib.Data.List.Dedup
import Mathlib.Data.List.Lattice
import Mathlib.Data.List.Sublists

namespace Sql

/-! ## Tokens -/

inductive Token where
  | opening
  | closing
  | word (w : List Char)
  | quoted (q : Char) (body : List Char)
  | symbol (c : Char)
  deriving DecidableEq

/-- Blanks; the other spaces of Unicode count as well. -/
def isBlank (c : Char) : Bool :=
  let n := c.toNat
  (9 ≤ n && n ≤ 13) || n == 32 || n == 160 || (8192 ≤ n && n ≤ 8205) || n == 8239 || n == 8287
    || n == 8288 || n == 12288 || n == 65279

def isWordStart (c : Char) : Bool := c.isAlpha || c == '_' || 128 ≤ c.toNat

def isWordChar (c : Char) : Bool := isWordStart c || c.isDigit || c == '$'

/-- What has been read of the token at hand. -/
inductive Lexer where
  | between
  | dash
  | slash
  | word (w : List Char)
  | quoted (q : Char) (body : List Char)
  | escapes (body : List Char)
  | escaped (body : List Char)
  | escapesQuote (body : List Char)
  | lineComment
  | comment (depth : Nat)
  | commentStar (depth : Nat)
  | commentSlash (depth : Nat)
  | tag (name : List Char)
  | dollar (name : List Char) (body : List Char) (closing : Option (List Char))
  deriving DecidableEq

/-- A character where no token is at hand. -/
def fresh (c : Char) : Lexer × List Token :=
  if c = '(' then (.between, [.opening])
  else if c = ')' then (.between, [.closing])
  else if c = '\'' ∨ c = '"' then (.quoted c [], [])
  else if c = '-' then (.dash, [])
  else if c = '/' then (.slash, [])
  else if c = '$' then (.tag [], [])
  else if isBlank c then (.between, [])
  else if isWordStart c then (.word [c], [])
  else (.between, [.symbol c])

/-- The tokens that ended before a character, and the character. -/
def after (ts : List Token) (c : Char) : Lexer × List Token := ((fresh c).1, ts ++ (fresh c).2)

/-- One character.  Outside `E'…'` a doubled quote ends a token and begins another, which no rule below
tells from one token. -/
def Lexer.step : Lexer → Char → Lexer × List Token
  | .between, c => fresh c
  | .dash, c => if c = '-' then (.lineComment, []) else after [.symbol '-'] c
  | .slash, c => if c = '*' then (.comment 0, []) else after [.symbol '/'] c
  | .word w, c =>
    if isWordChar c then (.word (w ++ [c]), [])
    -- `E'…'` is the literal in which a backslash hides a quote
    else if c = '\'' ∧ w.map Char.toLower = ['e'] then (.escapes [], [])
    else after [.word w] c
  | .quoted q body, c => if c = q then (.between, [.quoted q body]) else (.quoted q (body ++ [c]), [])
  | .escapes body, c =>
    if c = '\'' then (.escapesQuote body, [])
    else if c = '\\' then (.escaped (body ++ [c]), [])
    else (.escapes (body ++ [c]), [])
  | .escaped body, c => (.escapes (body ++ [c]), [])
  | .escapesQuote body, c =>
    if c = '\'' then (.escapes (body ++ [c]), []) else after [.quoted '\'' body] c
  | .lineComment, c => if c = '\n' ∨ c = '\r' then (.between, []) else (.lineComment, [])
  | .comment d, c => (if c = '*' then .commentStar d else if c = '/' then .commentSlash d else .comment d, [])
  | .commentStar d, c =>
    (if c = '/' then (match d with | 0 => .between | d + 1 => .comment d)
      else if c = '*' then .commentStar d else .comment d, [])
  | .commentSlash d, c =>
    (if c = '*' then .comment (d + 1) else if c = '/' then .commentSlash d else .comment d, [])
  | .tag name, c =>
    if c = '$' then (.dollar name [] none, [])
    else if isWordStart c ∨ (name ≠ [] ∧ c.isDigit) then (.tag (name ++ [c]), [])
    else after (.symbol '$' :: if name = [] then [] else [.word name]) c
  | .dollar name body closing, c =>
    if c = '$' then
      if closing = some name then (.between, [.quoted '$' body])
      else (.dollar name (body ++ [c]) (some []), [])
    else (.dollar name (body ++ [c]) (closing.map (· ++ [c])), [])

/-- The tokens still due at the end of the text; nothing where a literal or a comment is open. -/
def Lexer.finish : Lexer → Option (List Token)
  | .between | .lineComment => some []
  | .dash => some [.symbol '-']
  | .slash => some [.symbol '/']
  | .word w => some [.word w]
  | .escapesQuote body => some [.quoted '\'' body]
  | .tag name => some (.symbol '$' :: if name = [] then [] else [.word name])
  | _ => none

def Lexer.scan (l : Lexer) : List Char → Lexer × List Token
  | [] => (l, [])
  | c :: cs => (((l.step c).1.scan cs).1, (l.step c).2 ++ ((l.step c).1.scan cs).2)

/-- The tokens of a text that is read from a state of the lexer on. -/
def Lexer.lex (l : Lexer) (cs : List Char) : Option (List Token) :=
  (l.scan cs).1.finish.map ((l.scan cs).2 ++ ·)

def lex (cs : List Char) : Option (List Token) := Lexer.between.lex cs

theorem Lexer.scan_append (l : Lexer) (xs ys : List Char) :
    l.scan (xs ++ ys) = (((l.scan xs).1.scan ys).1, (l.scan xs).2 ++ ((l.scan xs).1.scan ys).2) := by
  induction xs generalizing l with
  | nil => rfl
  | cons c xs ih => simp only [List.cons_append, Lexer.scan, ih, List.append_assoc]

/-- A text with a known start: the tokens of the start and those of the rest. -/
theorem Lexer.lex_append {l l' : Lexer} {xs : List Char} {ts : List Token} (h : l.scan xs = (l', ts))
    (ys : List Char) : l.lex (xs ++ ys) = (l'.lex ys).map (ts ++ ·) := by
  simp only [Lexer.lex, Lexer.scan_append, h, Option.map_map, List.append_assoc]
  rfl

/-- A quoted name is one token, whatever else it holds. -/
theorem scan_quoted (q : Char) (body name : List Char) (h : q ∉ name) :
    (Lexer.quoted q body).scan (name ++ [q]) = (.between, [.quoted q (body ++ name)]) := by
  induction name generalizing body with
  | nil => simp [Lexer.scan, Lexer.step]
  | cons c name ih =>
    obtain ⟨hc, hname⟩ := not_or.mp fun hor => h (List.mem_cons.mpr hor)
    have hne : ¬ c = q := fun heq => hc heq.symm
    simp only [List.cons_append, Lexer.scan, Lexer.step, if_neg hne, ih (body ++ [c]) hname,
      List.nil_append, List.append_assoc]

/-! ## How a text begins and ends -/

/-- The text ends in a line comment: what is put behind it on the same line is part of that. -/
def endsInComment (cs : List Char) : Bool := (Lexer.between.scan cs).1 == .lineComment

/-- The first token. -/
def firstToken (cs : List Char) : Option Token := (lex cs).bind List.head?

/-- A line comment takes a dash. -/
theorem step_dashless {l : Lexer} {c : Char} (hc : c ≠ '-') (hdash : l ≠ .dash)
    (hcomment : l ≠ .lineComment) : (l.step c).1 ≠ .dash ∧ (l.step c).1 ≠ .lineComment := by
  have hfresh : (fresh c).1 ≠ .dash ∧ (fresh c).1 ≠ .lineComment := by
    unfold fresh
    split_ifs <;> simp_all
  cases l with
  | dash => exact absurd rfl hdash
  | lineComment => exact absurd rfl hcomment
  | between => exact hfresh
  | escaped body => simp [Lexer.step]
  | slash | word w | escapesQuote body | tag name | quoted q body | escapes body | comment d
  | commentSlash d | dollar name body closing =>
    simp only [Lexer.step, after]
    split_ifs <;> first | exact hfresh | simp
  | commentStar d =>
    cases d <;> simp only [Lexer.step] <;> split_ifs <;> simp

theorem endsInComment_dashless {cs : List Char} (h : '-' ∉ cs) : endsInComment cs = false := by
  have hall : ∀ (cs : List Char) (l : Lexer), '-' ∉ cs → l ≠ .dash → l ≠ .lineComment →
      (l.scan cs).1 ≠ .lineComment := by
    intro cs
    induction cs with
    | nil => exact fun l _ _ hl => hl
    | cons c cs ih =>
      intro l hcs hdash hcomment
      obtain ⟨hc, hcs⟩ := not_or.mp (fun hor => hcs (List.mem_cons.mpr hor))
      obtain ⟨hdash, hcomment⟩ := step_dashless (Ne.symm hc) hdash hcomment
      exact ih _ hcs hdash hcomment
  exact beq_eq_false_iff_ne.mpr (hall cs .between h (by simp) (by simp))

/-- A text with all its tokens, and a parenthesis behind it. -/
theorem scan_paren {cs : List Char} {ts : List Token} (h : lex cs = some ts)
    (hend : endsInComment cs = false) :
    Lexer.between.scan (cs ++ [')']) = (.between, ts ++ [.closing]) := by
  have hcomment := beq_eq_false_iff_ne.mp hend
  obtain ⟨last, hlast, rfl⟩ := Option.map_eq_some_iff.mp h
  suffices hstep : (Lexer.between.scan cs).1.step ')' = (.between, last ++ [.closing]) by
    rw [Lexer.scan_append, Lexer.scan, hstep, Lexer.scan, List.append_nil, List.append_assoc]
  cases hl : (Lexer.between.scan cs).1 with
  | lineComment => exact absurd hl hcomment
  | between | dash | slash | word w | escapesQuote body =>
    rw [hl] at hlast
    obtain rfl := Option.some.inj hlast
    rfl
  | tag name =>
    rw [hl] at hlast
    obtain rfl := Option.some.inj hlast
    cases name <;> rfl
  | _ =>
    rw [hl] at hlast
    cases hlast

/-- A word goes on. -/
theorem scan_word {w cs : List Char} (h : ∀ c ∈ cs, isWordChar c = true) :
    (Lexer.word w).scan cs = (.word (w ++ cs), []) := by
  induction cs generalizing w with
  | nil => rw [Lexer.scan, List.append_nil]
  | cons c cs ih =>
    have hstep : (Lexer.word w).step c = (.word (w ++ [c]), []) := if_pos (h c List.mem_cons_self)
    rw [Lexer.scan, hstep, ih fun x hx => h x (List.mem_cons_of_mem c hx), List.append_assoc]
    rfl

/-! ## Chains of arms -/

inductive SetOp where
  | union
  | except
  | intersect
  deriving DecidableEq

/-- A keyword, in any case. -/
def isWord (w : String) (t : Token) : Bool :=
  match t with
  | .word v => v.map Char.toLower == w.toList
  | _ => false

def setOp? (t : Token) : Option SetOp :=
  if isWord "union" t then some .union
  else if isWord "except" t then some .except
  else if isWord "intersect" t then some .intersect
  else none

/-- The tokens of the first arm, and the operators with the arms behind them. -/
abbrev Chain := List Token × List (SetOp × List Token)

def Chain.push (t : Token) (q : Chain) : Chain := (t :: q.1, q.2)

/-- The arms of a statement that begins inside `depth` parentheses; a statement in which these do not
close is none. -/
def chain : Nat → List Token → Option Chain
  | 0, [] => some ([], [])
  | _ + 1, [] => none
  | d, .opening :: ts => (chain (d + 1) ts).map (Chain.push .opening)
  | 0, .closing :: _ => none
  | d + 1, .closing :: ts => (chain d ts).map (Chain.push .closing)
  | 0, t :: ts =>
    match setOp? t with
    | some op => (chain 0 ts).map fun q => ([], (op, q.1) :: q.2)
    | none => (chain 0 ts).map (Chain.push t)
  | d + 1, t :: ts => (chain (d + 1) ts).map (Chain.push t)

/-- The keywords and names of an arm outside its parentheses. -/
def topWords : Nat → List Token → List (List Char)
  | _, [] => []
  | d, .opening :: ts => topWords (d + 1) ts
  | d, .closing :: ts => topWords (d - 1) ts
  | 0, .word w :: ts => w.map Char.toLower :: topWords 0 ts
  | d, _ :: ts => topWords d ts

/-- The keywords of a GROUP BY over grouping sets. -/
def groupings : List (List String) :=
  [["group", "rollup"], ["group", "cube"], ["group", "grouping", "sets"]]

/-- A GROUP BY over grouping sets, whose rows need not be rows of the table. -/
def Regroups (depth : Nat) (arm : List Token) : Prop :=
  ∃ ws ∈ groupings, (ws.map String.toList).Sublist (topWords depth arm)

instance (depth : Nat) (arm : List Token) : Decidable (Regroups depth arm) :=
  inferInstanceAs (Decidable (∃ ws ∈ _, _))

/-- A token that neither moves between parentheses nor ends an arm. -/
def Token.Plain (t : Token) : Prop := t ≠ .opening ∧ t ≠ .closing ∧ setOp? t = none

theorem chain_plain {t : Token} (h : t.Plain) (ts : List Token) :
    chain 0 (t :: ts) = (chain 0 ts).map (Chain.push t) := by
  obtain ⟨hopen, hclose, hop⟩ := h
  cases t with
  | opening => exact absurd rfl hopen
  | closing => exact absurd rfl hclose
  | word w => simp only [chain, hop]
  | quoted q body => rfl
  | symbol c => rfl

/-- A statement whose first parenthesis opens behind plain tokens is read on from inside it. -/
theorem chain_append {pre : List Token} (h : ∀ t ∈ pre, t.Plain) (ts : List Token) :
    chain 0 (pre ++ .opening :: ts) = (chain 1 ts).map fun q => (pre ++ .opening :: q.1, q.2) := by
  induction pre with
  | nil => rfl
  | cons t pre ih =>
    have hrest := ih fun t' ht' => h t' (List.mem_cons_of_mem t ht')
    rw [List.cons_append, chain_plain (h t List.mem_cons_self), hrest, Option.map_map]
    rfl

theorem topWords_append {pre : List Token} (h : ∀ t ∈ pre, t.Plain) (ts : List Token) :
    topWords 0 (pre ++ .opening :: ts) = topWords 0 pre ++ topWords 1 ts := by
  induction pre with
  | nil => rfl
  | cons t pre ih =>
    have hrest := ih fun t' ht' => h t' (List.mem_cons_of_mem t ht')
    obtain ⟨hopen, hclose, -⟩ := h t List.mem_cons_self
    cases t with
    | opening => exact absurd rfl hopen
    | closing => exact absurd rfl hclose
    | word w => simp only [List.cons_append, topWords, hrest]
    | quoted q body => simpa only [List.cons_append, topWords] using hrest
    | symbol c => simpa only [List.cons_append, topWords] using hrest

/-- `ALL` before an arm keeps duplicates. -/
def keepsAll (arm : List Token) : Bool := arm.head?.any (isWord "all")

section Values

variable {α : Type} [DecidableEq α]

/-- What a set operator makes of two lists of rows. -/
def combine : SetOp → Bool → List α → List α → List α
  | .union, true, l, r => l ++ r
  | .union, false, l, r => (l ++ r).dedup
  | .except, true, l, r => l.diff r
  | .except, false, l, r => l.dedup.filter (· ∉ r)
  | .intersect, true, l, r => l.bagInter r
  | .intersect, false, l, r => l.dedup.filter (· ∈ r)

/-- The operand on the left that waits for the arms of an INTERSECT on the right. -/
abbrev Pending (α : Type) := Option (SetOp × Bool × List α)

def flush : Pending α → List α → List α
  | none, cur => cur
  | some (op, all, l), cur => combine op all l cur

/-- The rows of a chain, from what is read of it and the operators and rows that follow. -/
def evalFrom (acc : Pending α) (cur : List α) : List (SetOp × Bool × List α) → List α
  | [] => flush acc cur
  | (.intersect, all, r) :: rest => evalFrom acc (combine .intersect all cur r) rest
  | (.union, all, r) :: rest => evalFrom (some (.union, all, flush acc cur)) r rest
  | (.except, all, r) :: rest => evalFrom (some (.except, all, flush acc cur)) r rest

/-- The operators of a chain with rows for their arms. -/
def withRows {β : Type} (links : List (SetOp × List Token)) (rows : List β) :
    List (SetOp × Bool × β) :=
  links.zipWith (fun l r => (l.1, keepsAll l.2, r)) rows

theorem withRows_op {β : Type} {links : List (SetOp × List Token)} {rows : List β}
    {x : SetOp × Bool × β} (h : x ∈ withRows links rows) : ∃ l ∈ links, l.1 = x.1 := by
  induction links generalizing rows with
  | nil => cases h
  | cons l links ih =>
    cases rows with
    | nil => cases h
    | cons r rows =>
      obtain rfl | hx := List.mem_cons.mp h
      · exact ⟨l, List.mem_cons_self, rfl⟩
      · obtain ⟨l', hl', hop⟩ := ih hx
        exact ⟨l', List.mem_cons_of_mem l hl', hop⟩

theorem combine_sublist {op : SetOp} (h : op ≠ .union) (all : Bool) (l r : List α) :
    (combine op all l r).Sublist l := by
  match op, all with
  | .union, _ => exact absurd rfl h
  | .except, true => exact List.diff_sublist l r
  | .except, false => exact List.filter_sublist.trans (List.dedup_sublist l)
  | .intersect, true => exact List.bagInter_sublist_left
  | .intersect, false => exact List.filter_sublist.trans (List.dedup_sublist l)

/-- Rows of which a chain without a further UNION takes its result. -/
def Pending.leftmost : Pending α → List α → List α
  | none, cur => cur
  | some (_, _, l), _ => l

/-- Without a UNION every row of the result is a row of the first arm, and none is there more often. -/
theorem evalFrom_sublist {acc : Pending α} {cur : List α} {rest : List (SetOp × Bool × List α)}
    (hacc : ∀ op all l, acc = some (op, all, l) → op ≠ .union) (hrest : ∀ x ∈ rest, x.1 ≠ .union) :
    (evalFrom acc cur rest).Sublist (acc.leftmost cur) := by
  have hflush (cur : List α) : (flush acc cur).Sublist (acc.leftmost cur) := by
    match acc, hacc with
    | none, _ => exact List.Sublist.refl cur
    | some (op, all, l), hacc => exact combine_sublist (hacc op all l rfl) all l cur
  induction rest generalizing acc cur with
  | nil => exact hflush cur
  | cons x rest ih =>
    obtain ⟨op, all, r⟩ := x
    have htail : ∀ x ∈ rest, x.1 ≠ .union := fun x hx => hrest x (List.mem_cons_of_mem _ hx)
    cases op with
    | union => exact absurd rfl (hrest _ List.mem_cons_self)
    | intersect =>
      have hnext : (evalFrom acc (combine .intersect all cur r) rest).Sublist
          (acc.leftmost (combine .intersect all cur r)) := ih hacc htail hflush
      refine hnext.trans ?_
      match acc with
      | none => exact combine_sublist (by decide) all cur r
      | some (op, all', l) => exact List.Sublist.refl l
    | except =>
      have hnext : (evalFrom (some (.except, all, flush acc cur)) r rest).Sublist (flush acc cur) := by
        apply ih
        · intro op all' l heq
          cases heq
          decide
        · exact htail
        · intro cur'
          exact combine_sublist (by decide) all _ cur'
      exact hnext.trans (hflush cur)

/-- The rows given to the arms so that one row, `x`, comes from every UNION. -/
def only (x : α) : SetOp → List α
  | .except => []
  | _ => [x]

/-- `x` is in what has been read, and no arm to come takes it away. -/
def Held (x : α) : Pending α → List α → Prop
  | none, cur => x ∈ cur
  | some (.union, _, l), cur => x ∈ l ∨ x ∈ cur
  | some (.except, _, l), cur => x ∈ l ∧ cur = []
  | some (.intersect, _, _), _ => False

theorem mem_union {all : Bool} {x : α} {l r : List α} :
    x ∈ combine .union all l r ↔ x ∈ l ∨ x ∈ r := by
  cases all <;> simp [combine]

theorem mem_intersect {all : Bool} {x : α} {l r : List α} :
    x ∈ combine .intersect all l r ↔ x ∈ l ∧ x ∈ r := by
  cases all <;> simp [combine]

theorem mem_except_nil {all : Bool} {x : α} {l : List α} :
    x ∈ combine .except all l [] ↔ x ∈ l := by
  cases all <;> simp [combine]

theorem Held.flush {x : α} {acc : Pending α} {cur : List α} (h : Held x acc cur) :
    x ∈ flush acc cur := by
  match acc, h with
  | none, h => exact h
  | some (.union, all, l), h => exact mem_union.mpr h
  | some (.except, all, l), ⟨hx, hcur⟩ =>
    subst hcur
    exact mem_except_nil.mpr hx

/-- A row held so far, or the row of a later UNION, is in the result. -/
theorem mem_evalFrom {x : α} (links : List (SetOp × List Token)) (acc : Pending α) (cur : List α)
    (h : Held x acc cur ∨ ∃ l ∈ links, l.1 = .union) :
    x ∈ evalFrom acc cur (withRows links (links.map fun l => only x l.1)) := by
  induction links generalizing acc cur with
  | nil =>
    obtain h | ⟨l, hl, -⟩ := h
    · exact h.flush
    · cases hl
  | cons l links ih =>
    obtain ⟨op, arm⟩ := l
    cases op with
    | union =>
      exact ih _ _ (Or.inl (Or.inr List.mem_cons_self))
    | except =>
      apply ih
      obtain h | ⟨l, hl, hop⟩ := h
      · exact Or.inl ⟨h.flush, rfl⟩
      · obtain rfl | hl := List.mem_cons.mp hl
        · cases hop
        · exact Or.inr ⟨l, hl, hop⟩
    | intersect =>
      apply ih
      obtain h | ⟨l, hl, hop⟩ := h
      · refine Or.inl ?_
        match acc, h with
        | none, h => exact mem_intersect.mpr ⟨h, List.mem_cons_self⟩
        | some (.union, _, _), h =>
          exact h.imp_right fun hcur => mem_intersect.mpr ⟨hcur, List.mem_cons_self⟩
        | some (.except, _, _), ⟨hx, hcur⟩ =>
          subst hcur
          refine ⟨hx, List.eq_nil_iff_forall_not_mem.mpr fun y hy => ?_⟩
          exact List.not_mem_nil (mem_intersect.mp hy).1
      · obtain rfl | hl := List.mem_cons.mp hl
        · cases hop
        · exact Or.inr ⟨l, hl, hop⟩

end Values

end Sql
