/-
# Seekbase.Lib.Cte — named queries in scope, and chains of them.

`WITH n AS (q), … f` binds names to queries, each in the scope of those before it, for `f`.  What stands
in a query besides is a body, and nothing is looked into: what it means where names stand for values is
a parameter, `Bodies`, with the one law that it depends on the names it uses.  A value may be an error,
so a name that nobody uses costs nothing.

* `Query.eval`, `eval_congr` — the meaning of a query, and that it depends on the names it uses;
* `feed`, `inTurn`           — links that are each fed by the one before, bound or one after another;
* `chain_eval`               — the two agree where no link uses the name of one before it;
* `Reads`                    — the text of a query, with its parameters by position;
* `parse`, `parse_reads`     — a reader of such texts, so that a text has one reading.
-/
import Mathlib.Logic.Function.Basic

namespace Cte

/-! ## Queries -/

/-- A body, or a query in whose scope a name is bound. -/
inductive Query (ν β : Type) where
  | body (b : β)
  | bind (n : ν) (q rest : Query ν β)

/-- Names bound one after the other. -/
def binds {ν β : Type} : List (ν × Query ν β) → Query ν β → Query ν β
  | [], q => q
  | (n, d) :: ctes, q => .bind n d (binds ctes q)

/-- What bodies mean in a scope, and what a name means that nothing binds; `star` is the body that takes
a named relation as it is. -/
structure Bodies (ν β ρ : Type) (star : ν → β) (uses : β → ν → Prop) where
  base : ν → ρ
  den : (ν → Option ρ) → β → ρ
  den_congr : ∀ b s s', (∀ n, uses b n → s n = s' n) → den s b = den s' b
  den_star : ∀ n s, den s (star n) = (s n).getD (base n)

section Eval

variable {ν β ρ : Type} [DecidableEq ν] {star : ν → β} {uses : β → ν → Prop}

def Query.eval (M : Bodies ν β ρ star uses) : (ν → Option ρ) → Query ν β → ρ
  | s, .body b => M.den s b
  | s, .bind n q rest => rest.eval M (Function.update s n (some (q.eval M s)))

/-- A body behind another relation, which it knows as `input`. -/
def link (star : ν → β) (input : ν) (prev : Option ν) (b : β) : Query ν β :=
  match prev with
  | none => .body b
  | some p => .bind input (.body (star p)) (.body b)

/-- Links by name, each with the one before as `input`. -/
def feed (star : ν → β) (input : ν) : Option ν → List (ν × β) → List (ν × Query ν β)
  | _, [] => []
  | prev, (n, b) :: links => (n, link star input prev b) :: feed star input (some n) links

/-- The name of the last link. -/
def lastName (prev : Option ν) (links : List (ν × β)) : Option ν :=
  (links.getLast?.map Prod.fst).or prev

/-- The scope of a link behind this value. -/
def fedScope (s : ν → Option ρ) (input : ν) : Option ρ → ν → Option ρ
  | none => s
  | some r => Function.update s input (some r)

/-- The bodies one after another, each on what the one before it gives. -/
def inTurn (M : Bodies ν β ρ star uses) (input : ν) (s : ν → Option ρ) : Option ρ → List β → Option ρ
  | prev, [] => prev
  | prev, b :: bs => inTurn M input s (some (M.den (fedScope s input prev) b)) bs

variable {M : Bodies ν β ρ star uses} {input : ν} {s s' : ν → Option ρ}

/-- Behind a value, a body means the same in scopes that agree on the names it uses. -/
theorem den_apart {b : β} (hs : ∀ n, uses b n → s' n = s n) (prev : Option ρ) :
    M.den (fedScope s' input prev) b = M.den (fedScope s input prev) b := by
  apply M.den_congr
  intro n hn
  have hsame := hs n hn
  cases prev with
  | none => exact hsame
  | some r =>
    by_cases hinput : n = input
    · simp [fedScope, hinput]
    · simpa [fedScope, hinput] using hsame

theorem link_eval {b : β} {prev : Option ν} : (link star input prev b).eval M s'
    = M.den (fedScope s' input (prev.map fun p => (s' p).getD (M.base p))) b := by
  cases prev with
  | none => rfl
  | some p =>
    show M.den (Function.update s' input (some (M.den s' (star p)))) b = _
    rw [M.den_star]
    rfl

omit [DecidableEq ν] in
theorem lastName_cons (prev : Option ν) (l : ν × β) (links : List (ν × β)) :
    lastName prev (l :: links) = lastName (some l.1) links := by
  unfold lastName
  cases links with
  | nil => rfl
  | cons l' links => simp [List.getLast?_eq_some_getLast]

/-- CHAIN.  Bound one after the other, links mean what they mean one after another, if none uses the name
of one before it. -/
theorem chain_eval {links : List (ν × β)} (hapart : links.Pairwise fun a b => ¬ uses b.2 a.1)
    {prev : Option ν} (hs : ∀ l ∈ links, ∀ n, uses l.2 n → s' n = s n) {last : ν}
    (hlast : lastName prev links = some last) :
    some ((binds (feed star input prev links) (.body (star last))).eval M s')
      = inTurn M input s (prev.map fun p => (s' p).getD (M.base p)) (links.map Prod.snd) := by
  induction links generalizing prev s' with
  | nil =>
    obtain rfl : prev = some last := hlast
    exact congrArg some (M.den_star last s')
  | cons l links ih =>
    obtain ⟨n, b⟩ := l
    obtain ⟨hfirst, hrest⟩ := List.pairwise_cons.mp hapart
    -- the link means in the scope that the chain has by now what it means in the scope without it
    have hlink := (@link_eval _ _ _ _ _ _ M input s' b prev).trans
      (den_apart (hs _ List.mem_cons_self) (prev.map fun p => (s' p).getD (M.base p)))
    have hscope : ∀ l ∈ links, ∀ m, uses l.2 m →
        Function.update s' n (some ((link star input prev b).eval M s')) m = s m := by
      intro l hl m hm
      have hne : m ≠ n := fun h => hfirst l hl (h ▸ hm)
      rw [Function.update_of_ne hne, hs l (List.mem_cons_of_mem _ hl) m hm]
    have hchain := ih hrest hscope ((lastName_cons prev (n, b) links).symm.trans hlast)
    rw [Option.map_some, Function.update_self, Option.getD_some] at hchain
    refine hchain.trans ?_
    rw [hlink]
    rfl

end Eval

/-! ## Texts -/

/-- A text, and the parameters that are bound to its placeholders by position. -/
abbrev Said (V : Type) := List Char × List V

/-- Which texts are queries by themselves and may be put between parentheses, and which may follow a list
of named queries. -/
structure Grammar (V : Type) where
  query : Said V → Prop
  headless : Said V → Prop

def isNameChar (c : Char) : Bool := c.isAlphanum || c == '_'

def IsName (n : String) : Prop := ∀ c ∈ n.toList, isNameChar c = true

/-- `SELECT * FROM n`. -/
def starText {V : Type} (n : String) : Said V := ("SELECT * FROM ".toList ++ n.toList, [])

structure Clause (V : Type) where
  name : String
  said : Said V
  query : Query String (Said V)

section Texts

variable {V : Type}

/-- `n AS (q)`. -/
def Clause.text (c : Clause V) : List Char := (c.name ++ " AS (").toList ++ (c.said.1 ++ [')'])

def clausesText (cs : List (Clause V)) (last : List Char) : List Char :=
  ", ".toList.intercalate (cs.map Clause.text) ++ ' ' :: last

/-- A text reads as a query if it is one of the grammar's, or names queries for one that may follow. -/
inductive Reads (G : Grammar V) : Said V → Query String (Said V) → Prop where
  | body {b : Said V} : G.query b → Reads G b (.body b)
  | chain {cs : List (Clause V)} {b : Said V} : cs ≠ [] → (∀ c ∈ cs, IsName c.name) →
    (∀ c ∈ cs, Reads G c.said c.query) → G.headless b →
    Reads G ("WITH ".toList ++ clausesText cs b.1, cs.flatMap (fun c => c.said.2) ++ b.2)
      (binds (cs.map fun c => (c.name, c.query)) (.body b))

/-! ## Reading -/

/-- Up to the parenthesis that closes, at this depth, and what is behind it. -/
def closing : Nat → List Char → Option (List Char × List Char)
  | _, [] => none
  | d, c :: cs =>
    if c = '(' then (closing (d + 1) cs).map fun p => (c :: p.1, p.2)
    else if c = ')' then
      if d = 0 then some ([], cs) else (closing (d - 1) cs).map fun p => (c :: p.1, p.2)
    else (closing d cs).map fun p => (c :: p.1, p.2)

def marks (t : List Char) : Nat := t.count '?'

mutual
/-- The query of a text that reads as one; `fuel` is more than its length. -/
def parse : Nat → List Char → List V → Option (Query String (Said V))
  | 0, _, _ => none
  | fuel + 1, t, own =>
    if "WITH ".toList.isPrefixOf t then clauses fuel (t.drop 5) own else some (.body (t, own))
def clauses : Nat → List Char → List V → Option (Query String (Said V))
  | 0, _, _ => none
  | fuel + 1, t, own =>
    let name := t.takeWhile isNameChar
    match closing 0 (t.drop (name.length + 5)) with
    | none => none
    | some (inner, behind) =>
      match parse fuel inner (own.take (marks inner)) with
      | none => none
      | some q =>
        (if ", ".toList.isPrefixOf behind then clauses fuel (behind.drop 2) (own.drop (marks inner))
        else some (.body (behind.drop 1, own.drop (marks inner)))).map fun rest =>
          .bind (String.ofList name) q rest
end

/-- The parentheses of a text are its own. -/
def Level (t : List Char) : Prop :=
  ∀ d more, closing d (t ++ more) = (closing d more).map fun p => (t ++ p.1, p.2)

/-- Its parentheses are its own, and it has a parameter for each placeholder. -/
structure Shaped (b : Said V) : Prop where
  level : Level b.1
  fed : b.2.length = marks b.1

/-- Texts of the grammar are no chains, and look to nothing outside. -/
structure Grammar.Plain (G : Grammar V) : Prop where
  shaped : ∀ b, G.query b → Shaped b
  headless : ∀ b, G.headless b → Shaped b
  noChain : ∀ b, G.query b → ¬ "WITH ".toList <+: b.1

theorem Level.append {a b : List Char} (ha : Level a) (hb : Level b) : Level (a ++ b) := by
  intro d more
  rw [List.append_assoc, ha, hb, Option.map_map]
  simp [Function.comp_def]

theorem level_of {t : List Char} (h : ∀ c ∈ t, c ≠ '(' ∧ c ≠ ')') : Level t := by
  intro d more
  induction t with
  | nil => simp
  | cons c t ih =>
    have hc := h c List.mem_cons_self
    rw [List.cons_append, closing, if_neg hc.1, if_neg hc.2,
      ih fun x hx => h x (List.mem_cons_of_mem c hx), Option.map_map]
    rfl

/-- A level text between parentheses. -/
theorem Level.paren {t : List Char} (h : Level t) : Level ('(' :: (t ++ [')'])) := by
  intro d more
  rw [List.cons_append, closing, if_pos rfl, List.append_assoc, h, List.singleton_append, closing,
    if_neg (by decide), if_pos rfl, if_neg (Nat.succ_ne_zero d), Nat.add_sub_cancel, Option.map_map,
    Option.map_map]
  simp [Function.comp_def]

theorem Level.closes {t : List Char} (h : Level t) (more : List Char) :
    closing 0 (t ++ ')' :: more) = some (t, more) := by
  rw [h, closing, if_neg (by decide), if_pos rfl, if_pos rfl]
  simp

theorem isName_level {n : String} (h : IsName n) : Level n.toList := by
  apply level_of
  intro c hc
  have hname := h c hc
  constructor
  · rintro rfl
    revert hname
    decide
  · rintro rfl
    revert hname
    decide

theorem marks_append (a b : List Char) : marks (a ++ b) = marks a + marks b := List.count_append

theorem isName_marks {n : String} (h : IsName n) : marks n.toList = 0 := by
  apply List.count_eq_zero.mpr
  intro hmem
  have hname := h _ hmem
  revert hname
  decide

theorem Shaped.append {a b : Said V} (ha : Shaped a) (hb : Shaped b) :
    Shaped (a.1 ++ b.1, a.2 ++ b.2) where
  level := ha.level.append hb.level
  fed := by
    show (a.2 ++ b.2).length = marks (a.1 ++ b.1)
    rw [List.length_append, marks_append, ha.fed, hb.fed]

/-- Neither a parenthesis nor a placeholder. -/
def isPlain (c : Char) : Bool := c != '(' && c != ')' && c != '?'

theorem shaped_plain {t : List Char} (h : t.all isPlain = true) : Shaped ((t, []) : Said V) := by
  have hplain : ∀ c ∈ t, (c ≠ '(' ∧ c ≠ ')') ∧ c ≠ '?' := by
    intro c hc
    simpa [isPlain] using List.all_eq_true.mp h c hc
  refine ⟨level_of fun c hc => (hplain c hc).1, ?_⟩
  exact (List.count_eq_zero.mpr fun hmem => (hplain _ hmem).2 rfl).symm

/-- The head of a clause, up to its parenthesis. -/
theorem clause_text (c : Clause V) :
    c.text = c.name.toList ++ (" AS ".toList ++ '(' :: (c.said.1 ++ [')'])) := by
  rw [Clause.text, String.toList_append, List.append_assoc]
  rfl

theorem clause_shaped {c : Clause V} (hname : IsName c.name) (h : Shaped c.said) :
    Shaped ((c.text, c.said.2) : Said V) := by
  have hmarks : marks ('(' :: (c.said.1 ++ [')'])) = marks c.said.1 := by
    simp [marks]
  rw [clause_text]
  refine Shaped.append (a := (c.name.toList, [])) (b := (_, c.said.2)) ⟨isName_level hname, ?_⟩ ?_
  · exact (isName_marks hname).symm
  · refine Shaped.append (a := (" AS ".toList, [])) (b := (_, c.said.2)) (shaped_plain rfl) ?_
    exact ⟨h.level.paren, h.fed.trans hmarks.symm⟩

theorem clausesText_single (c : Clause V) (last : List Char) :
    clausesText [c] last = c.text ++ ' ' :: last := by
  rw [clausesText, List.map_singleton, List.intercalate_singleton]

theorem clausesText_cons (c : Clause V) {cs : List (Clause V)} (h : cs ≠ []) (last : List Char) :
    clausesText (c :: cs) last = c.text ++ (", ".toList ++ clausesText cs last) := by
  unfold clausesText
  rw [List.map_cons, List.intercalate_cons_of_ne_nil (by simpa using h), List.append_assoc,
    List.append_assoc]

theorem clauses_shaped {cs : List (Clause V)} {b : Said V} (hne : cs ≠ [])
    (h : ∀ c ∈ cs, Shaped ((c.text, c.said.2) : Said V)) (hb : Shaped b) :
    Shaped (clausesText cs b.1, cs.flatMap (fun c => c.said.2) ++ b.2) := by
  induction cs with
  | nil => exact absurd rfl hne
  | cons c cs ih =>
    have hc := h c List.mem_cons_self
    by_cases hcs : cs = []
    · subst hcs
      have hlast : Shaped ((' ' :: b.1, b.2) : Said V) :=
        Shaped.append (a := ([' '], [])) (shaped_plain rfl) hb
      simpa [clausesText_single] using hc.append hlast
    · have hrest := ih hcs fun c hc => h c (List.mem_cons_of_mem _ hc)
      have hsep : Shaped
          ((", ".toList ++ clausesText cs b.1, cs.flatMap (fun c => c.said.2) ++ b.2) : Said V) :=
        Shaped.append (a := (", ".toList, [])) (shaped_plain rfl) hrest
      rw [clausesText_cons c hcs, List.flatMap_cons, List.append_assoc]
      exact hc.append hsep

variable {G : Grammar V} {b : Said V} {q : Query String (Said V)}

theorem reads_shaped (hG : G.Plain) (h : Reads G b q) : Shaped b := by
  induction h with
  | body hq => exact hG.shaped _ hq
  | chain hne hnames _ hlast ih =>
    have hrest := clauses_shaped hne (fun c hc => clause_shaped (hnames c hc) (ih c hc))
      (hG.headless _ hlast)
    exact Shaped.append (a := ("WITH ".toList, [])) (shaped_plain rfl) hrest

theorem clauses_parse {cs : List (Clause V)} (hne : cs ≠ []) (hnames : ∀ c ∈ cs, IsName c.name)
    (hshaped : ∀ c ∈ cs, Shaped c.said)
    (hparse : ∀ c ∈ cs, ∀ fuel > c.said.1.length, parse fuel c.said.1 c.said.2 = some c.query)
    (b : Said V) {fuel : Nat} (hfuel : (clausesText cs b.1).length < fuel) :
    clauses fuel (clausesText cs b.1) (cs.flatMap (fun c => c.said.2) ++ b.2)
      = some (binds (cs.map fun c => (c.name, c.query)) (.body b)) := by
  induction cs generalizing fuel with
  | nil => exact absurd rfl hne
  | cons c cs ih =>
    -- the text is the head, the query, the parenthesis that closes, and what is behind it
    obtain ⟨behind, hbehind, hrest⟩ : ∃ behind, clausesText (c :: cs) b.1
        = c.name.toList ++ (" AS (".toList ++ (c.said.1 ++ ')' :: behind))
        ∧ behind = if cs = [] then ' ' :: b.1 else ", ".toList ++ clausesText cs b.1 := by
      refine ⟨_, ?_, rfl⟩
      by_cases hcs : cs = []
      · subst hcs
        rw [clausesText_single, clause_text, if_pos rfl]
        simp
      · rw [clausesText_cons c hcs, clause_text, if_neg hcs]
        simp
    have hc := hshaped c List.mem_cons_self
    have htake : (clausesText (c :: cs) b.1).takeWhile isNameChar = c.name.toList := by
      rw [hbehind, List.takeWhile_append_of_pos (hnames c List.mem_cons_self)]
      exact List.append_nil _
    have hdrop : (clausesText (c :: cs) b.1).drop (c.name.toList.length + 5)
        = c.said.1 ++ ')' :: behind := by
      rw [hbehind, ← List.drop_drop, List.drop_left]
      rfl
    have hown : (c :: cs).flatMap (fun c => c.said.2) ++ b.2
        = c.said.2 ++ (cs.flatMap (fun c => c.said.2) ++ b.2) := by
      rw [List.flatMap_cons, List.append_assoc]
    have hlength : (clausesText (c :: cs) b.1).length
        = c.name.toList.length + 5 + c.said.1.length + 1 + behind.length := by
      rw [hbehind]
      simp
      omega
    obtain ⟨k, rfl⟩ : ∃ k, fuel = k + 1 := ⟨fuel - 1, by omega⟩
    rw [clauses]
    rw [htake, hdrop, hc.level.closes, hown]
    dsimp only
    rw [← hc.fed, List.take_left, List.drop_left, hparse c List.mem_cons_self k (by omega)]
    dsimp only
    by_cases hcs : cs = []
    · subst hcs
      rw [hrest, if_pos rfl]
      simp [binds, String.ofList_toList]
    · rw [if_neg hcs] at hrest
      have hsub : (clausesText cs b.1).length < k := by
        rw [hrest] at hlength
        simp at hlength
        omega
      have htail := ih hcs (fun c hc => hnames c (List.mem_cons_of_mem _ hc))
        (fun c hc => hshaped c (List.mem_cons_of_mem _ hc))
        (fun c hc => hparse c (List.mem_cons_of_mem _ hc)) hsub
      have hcomma : ", ".toList.isPrefixOf behind = true := by
        rw [hrest]
        rfl
      rw [if_pos hcomma, hrest]
      show (clauses k (clausesText cs b.1) _).map _ = _
      rw [htail]
      simp [binds]

/-- READING.  A text of a query is read as that query. -/
theorem parse_reads (hG : G.Plain) (h : Reads G b q) :
    ∀ fuel > b.1.length, parse fuel b.1 b.2 = some q := by
  induction h with
  | body hq =>
    intro fuel hfuel
    obtain ⟨k, rfl⟩ : ∃ k, fuel = k + 1 := ⟨fuel - 1, by omega⟩
    rw [parse, if_neg fun hwith => hG.noChain _ hq (List.isPrefixOf_iff_prefix.mp hwith)]
  | chain hne hnames hreads hlast ih =>
    intro fuel hfuel
    rw [List.length_append] at hfuel
    obtain ⟨k, rfl⟩ : ∃ k, fuel = k + 1 := ⟨fuel - 1, by omega⟩
    rw [parse, if_pos (List.isPrefixOf_iff_prefix.mpr (List.prefix_append _ _))]
    exact clauses_parse hne hnames (fun c hc => reads_shaped hG (hreads c hc)) ih _ (by
      simp only [String.reduceToList, List.length_cons, List.length_nil] at hfuel
      omega)

end Texts

end Cte
