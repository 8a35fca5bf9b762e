/-
# Seekbase.Composition — the one statement of a pipeline, and its stages one after another.

The compiler pastes a stage between the parentheses of a named query, and every stage but the first
behind `WITH _in AS (SELECT * FROM _s0) `.  A SELECT statement may begin with a `WITH` of its own, end in
a line comment, or read a table that is called `_s0`; pasted, the first is no statement any more, the
second takes the parenthesis with it, and the third reads another relation.

* `Engine.Selects`  — DuckDB's grammar, as far as pasting goes;
* `Pastable`        — no segment ends in a comment or reads a stage before it by name;
* `Headless`        — no segment but the first has a `WITH` of its own;
* `builtin_pastes`  — what `scan`, `search` and `grep` emit;
* `lex_second_with` — where the keyword stands that DuckDB does not take;
* `fused_composes`  — a pastable pipeline composes iff it is headless;
* `withLaw`         — an engine that keeps to the grammar, and reads chains;
* `second_with_refused` — a pipeline of two statements that it refuses as one.
-/
import Seekbase.Fusion
import Seekbase.Paste
import Mathlib.Data.List.Chain

namespace Seekbase

open Sql (endsInComment firstToken Lexer)

/-! ## What DuckDB is relied on for -/

/-- The text begins with a `WITH` of its own. -/
def leadsWith (text : List Char) : Bool := (firstToken text).any (Sql.isWord "with")

/-- `WITH _in AS (SELECT * FROM _s0) `, read. -/
def inTokens (n : Nat) : List Sql.Token :=
  [.word "WITH".toList, .word "_in".toList, .word "AS".toList, .opening, .word "SELECT".toList, .symbol '*',
    .word "FROM".toList, .word (stageName n).toList, .closing]

/-- What may stand between the parentheses of a chain is a SELECT statement that does not comment the
closing one out, and behind a list of named queries one without a `WITH` of its own. -/
structure Engine.Selects (engine : Engine) where
  /-- A single SELECT statement, with or without a `WITH` of its own, and its parameters. -/
  select : Cte.Said Val → Prop
  sql : engine.Sql
  query_iff : ∀ b, sql.grammar.query b ↔ select b ∧ endsInComment b.1 = false
  headless_iff : ∀ b, sql.grammar.headless b ↔ sql.grammar.query b ∧ leadsWith b.1 = false
  /-- No literal and no comment of a statement is left open. -/
  select_lexes : ∀ b, select b → (Sql.lex b.1).isSome = true
  /-- A named query is followed by another one or by what it is named for. -/
  second_with : ∀ (sql : String) n pre keyword post, Sql.isWord "with" keyword = true →
    Sql.lex sql.toList = some (pre ++ (inTokens n ++ keyword :: post)) → engine.statements sql ≠ .ok [true]

section Composition

variable {ι : Type} {engine : Engine} (law : engine.Selects)

/-- The stage is a single SELECT statement; that of an operator in the middle reads nothing but `_in`. -/
def Staged.Selects : Staged ι Args → Prop
  | .sql segment =>
    ∀ own : List Val, own.length = countPlaceholders none segment → law.select (segment, own)
  | .duck _ op args => ∀ self sql vals,
    (∀ code, op.optimizeDuck = some (.source code) → code self args = .ok (sql, vals) →
      law.select (sql.toList, vals))
    ∧ ∀ code, op.optimizeDuck = some (.middle code) → code self "_in" args = .ok (sql, vals) →
      law.select (sql.toList, vals) ∧ ∀ name, law.sql.uses (sql.toList, vals) name → name = "_in"
  | .bash _ _ _ => False

/-- No SQL segment ends in a line comment, and none reads a relation by the name of a stage before it. -/
structure Pastable (staged : List (Staged ι Args)) : Prop where
  closed : ∀ segment, .sql segment ∈ staged → endsInComment segment = false
  apart : ∀ n segment, staged[n]? = some (.sql segment) → ∀ i < n, ∀ own : List Val,
    ¬ law.sql.uses (segment, own) (stageName i)

/-- No SQL segment but the first begins with a `WITH` of its own. -/
def Headless (staged : List (Staged ι Args)) : Prop :=
  ∀ segment, .sql segment ∈ staged.tail → leadsWith segment = false

/-! ## The texts of the built-in operators -/

/-- No dash, so no comment. -/
abbrev Dashless (s : String) : Prop := '-' ∉ s.toList

theorem Dashless.append {a b : String} (ha : Dashless a) (hb : Dashless b) : Dashless (a ++ b) := by
  rw [Dashless, String.toList_append, List.mem_append]
  exact not_or.mpr ⟨ha, hb⟩

theorem dashless_of {P : Char → Bool} (hdash : P '-' = false) {s : String}
    (h : ∀ c ∈ s.toList, P c = true) : Dashless s := by
  intro hmem
  have hP := h '-' hmem
  rw [hdash] at hP
  cases hP

theorem dashless_dq {s : String} (h : Dashless s) : Dashless (dq s) :=
  ((by decide : Dashless "\"").append h).append (by decide)

theorem dashless_sq {s : String} (h : Dashless s) : Dashless (sq s) :=
  ((by decide : Dashless "'").append h).append (by decide)

theorem dashless_repr (n : Nat) : Dashless n.repr := by
  refine dashless_of (P := Char.isDigit) (by decide) fun c hc => ?_
  rw [Nat.toList_repr] at hc
  exact Nat.isDigit_of_mem_toDigits (by omega) (by omega) hc

theorem dashless_intercalate {sep : String} (hsep : Dashless sep) {l : List String}
    (h : ∀ s ∈ l, Dashless s) : Dashless (sep.intercalate l) := by
  rw [Dashless, String.toList_intercalate]
  induction l with
  | nil => exact List.not_mem_nil
  | cons s l ih =>
    have hrest := ih fun x hx => h x (List.mem_cons_of_mem s hx)
    have hs := h s List.mem_cons_self
    cases l with
    | nil => rwa [List.map_singleton, List.intercalate_singleton]
    | cons s' l =>
      rw [List.map_cons, intercalate_cons _ _ (by simp), List.mem_append, List.mem_append]
      exact not_or.mpr ⟨hs, not_or.mpr ⟨hsep, hrest⟩⟩

theorem dashless_ident {name : String} (h : identOk name = true) : Dashless name := by
  refine dashless_of (P := fun c => isIdentChar c || c == '\n') rfl fun c hc => ?_
  exact identOk_chars h hc

theorem dashless_ds {d : String} (h : isDs d = true) : Dashless d :=
  dashless_of (P := fun c => isDecimal c || c == '\n') (by decide) fun c hc => isDs_chars h hc

theorem dashless_asof {w : Window} (hw : w.Dated) : Dashless (" AND ".intercalate (asofConds w)) := by
  refine dashless_intercalate (by decide) fun s hs => ?_
  rcases asofConds_of hw hs with rfl | ⟨d, hd, hs⟩
  · decide +kernel
  · have hday := dashless_sq (dashless_ds hd)
    rcases hs with rfl | rfl | rfl
    · exact Dashless.append (by decide +kernel) hday
    · exact Dashless.append (Dashless.append (by decide +kernel) hday) (by decide +kernel)
    · exact Dashless.append (by decide +kernel) hday

theorem visibleText_dashless {repr : String → String} {spec : TableSpec} {w : Window} {text : String}
    (hw : w.Dated) (h : visibleText repr spec w = .ok text) : Dashless text := by
  obtain ⟨rfl, hphys, hnames⟩ := visibleText_eq h
  have hlist : Dashless (", ".intercalate (spec.allColumnNames.map dq)) := by
    refine dashless_intercalate (by decide) fun s hs => ?_
    obtain ⟨c, hc, rfl⟩ := List.mem_map.mp hs
    exact dashless_dq (dashless_ident (hnames c hc))
  have hpart := Dashless.append (Dashless.append (by decide : Dashless "SELECT ") hlist)
    (by decide : Dashless " FROM ")
  exact ((hpart.append (dashless_dq (dashless_ident hphys))).append (by decide)).append (dashless_asof hw)

theorem search_dashless {repr : String → String} {dim : Nat} {spec : TableSpec} {col : String} {k : Nat}
    {w : Window} {n : VssNames} (hw : w.Dated) (hcol : col ∈ spec.searchable)
    (h : vssNames repr dim spec col k w = .ok n) : Dashless n.sql := by
  obtain ⟨hpk, hphys, hname, hvc, htc, hvis, hvisible⟩ := vssNames_eq hcol h
  have hpk := dashless_ident hpk
  have hphys := dashless_ident hphys
  have hvc : Dashless n.vc := hvc ▸ Dashless.append (by decide) (dashless_ident hname)
  have htc : Dashless n.tc := htc ▸ Dashless.append (by decide) (dashless_ident hname)
  have hvis : Dashless n.vis := hvis ▸ dashless_asof hw
  have hvisible := visibleText_dashless hw hvisible
  unfold VssNames.sql VssNames.beforeVector VssNames.beforeTokens VssNames.beforeFilter
    VssNames.afterFilter VssNames.fts
  repeat' with_reducible apply Dashless.append
  all_goals first
    | with_reducible exact dashless_dq hpk
    | with_reducible exact dashless_dq hphys
    | with_reducible exact dashless_dq hvc
    | with_reducible exact dashless_sq htc
    | with_reducible exact hphys
    | with_reducible exact hvis
    | with_reducible exact hvisible
    | with_reducible exact dashless_repr _
    | decide +kernel

theorem toList_three (a b c : String) : (a ++ b ++ c).toList = a.toList ++ b.toList ++ c.toList := by
  rw [String.toList_append, String.toList_append]

theorem grepHead_toList (field : String) : (grepHead field).toList
    = "SELECT * FROM _in WHERE regexp_matches(CAST(".toList ++ (dq field).toList
      ++ " AS VARCHAR), ".toList := toList_three _ _ _

/-- The filter is read from its keyword to its last parenthesis. -/
theorem scan_grep {alnum : Char → Bool} (hal : AlnumLaws alnum) {field : String}
    (hfield : grepField alnum field = true) : ∃ ts,
    Lexer.between.scan (grepSql "_in" field).toList = (.between, .word "SELECT".toList :: ts) := by
  have hhead : Lexer.between.scan "SELECT * FROM _in WHERE regexp_matches(CAST(".toList
      = (.between, .word "SELECT".toList :: (Lexer.between.scan
        " * FROM _in WHERE regexp_matches(CAST(".toList).2) := by decide +kernel
  have hmiddle : (Lexer.between.scan " AS VARCHAR), ".toList).1 = .between := by decide +kernel
  have hlast : (Lexer.between.scan ['?', ')']).1 = .between := by decide +kernel
  have htext : (grepSql "_in" field).toList = (grepHead field).toList ++ ['?', ')'] := by
    rw [grepSql_text, toList_three, List.append_assoc]
    rfl
  rw [htext, grepHead_toList, Lexer.scan_append, Lexer.scan_append, Lexer.scan_append, hhead,
    scan_dq (calm_field hal hfield), hmiddle, hlast]
  exact ⟨_, rfl⟩

section Builtin

variable {repr : String → String} {schema : Schema} {dim : Nat}
  {embed : Option (String → Except PipeExc (Val × String))} {w : Window} {alnum : Char → Bool}

/-- What a prepared `scan`, `search` or `grep` emits may be pasted where the operator stands. -/
theorem builtin_pastes (hal : AlnumLaws alnum) (hw : w.Dated) {op : Operator ι Args}
    (hop : op ∈ [search, scan, grep alnum]) {h : Held ι} {key : String} {args args' : Args}
    (hprep : (prepareArgs (storeCtx repr schema dim embed w) h key op args).result = .ok args')
    {self : ι} {sql : String} {vals : List Val} :
    (∀ code, op.optimizeDuck = some (.source code) → code self args' = .ok (sql, vals) →
      endsInComment sql.toList = false)
    ∧ ∀ code, op.optimizeDuck = some (.middle code) → code self "_in" args' = .ok (sql, vals) →
      endsInComment sql.toList = false ∧ leadsWith sql.toList = false := by
  simp only [List.mem_cons, List.not_mem_nil, or_false] at hop
  rcases hop with rfl | rfl | rfl
  · obtain ⟨table, text, c, k, spec, e, qvec, qtok, n, rfl, -, hcol, -, -, hnames⟩ := search_lowered hprep
    refine ⟨fun code hform hcode => ?_, nofun⟩
    cases hform
    obtain ⟨rfl, -⟩ := Prod.mk.inj (Except.ok.inj hcode)
    exact Sql.endsInComment_dashless (search_dashless hw hcol hnames)
  · obtain ⟨table, spec, sql', rfl, -, hvis⟩ := scan_lowered hprep
    refine ⟨fun code hform hcode => ?_, nofun⟩
    cases hform
    obtain ⟨rfl, -⟩ := Prod.mk.inj (Except.ok.inj hcode)
    exact Sql.endsInComment_dashless (visibleText_dashless hw hvis)
  · refine ⟨nofun, fun code hform hcode => ?_⟩
    cases hform
    cases args' with
    | grep pattern field =>
      dsimp only at hcode
      split at hcode
      · next hfield =>
        obtain ⟨rfl, -⟩ := Prod.mk.inj (Except.ok.inj hcode)
        obtain ⟨ts, hscan⟩ := scan_grep hal hfield
        refine ⟨by rw [endsInComment, hscan]; rfl, ?_⟩
        have hlex : Sql.lex (grepSql "_in" field).toList = some (.word "SELECT".toList :: ts ++ []) := by
          rw [Sql.lex, Lexer.lex, hscan]
          rfl
        have hkeyword : Sql.isWord "with" (.word "SELECT".toList) = false := by decide +kernel
        rw [leadsWith, firstToken, hlex]
        exact hkeyword
      · cases hcode
    | _ => cases hcode

end Builtin

/-! ## Where a second `WITH` stands -/

/-- The text is read from its first character to its last. -/
def ReadWhole (text : List Char) : Prop := ∃ ts, Lexer.between.scan text = (.between, ts)

theorem ReadWhole.append {a b : List Char} (ha : ReadWhole a) (hb : ReadWhole b) : ReadWhole (a ++ b) := by
  obtain ⟨ts, ha⟩ := ha
  obtain ⟨us, hb⟩ := hb
  exact ⟨ts ++ us, by rw [Lexer.scan_append, ha, hb]⟩

theorem readWhole_flatMap {l : List (List Char)} {f : List Char → List Char}
    (h : ∀ x ∈ l, ReadWhole (f x)) : ReadWhole (l.flatMap f) := by
  induction l with
  | nil => exact ⟨[], rfl⟩
  | cons x l ih =>
    rw [List.flatMap_cons]
    exact (h x List.mem_cons_self).append (ih fun y hy => h y (List.mem_cons_of_mem x hy))

/-- What stands between separators, and what around it. -/
theorem intercalate_split (sep a : List Char) (front behind : List (List Char)) :
    sep.intercalate (front ++ a :: behind)
      = front.flatMap (· ++ sep) ++ (a ++ behind.flatMap (sep ++ ·)) := by
  induction front with
  | nil =>
    induction behind generalizing a with
    | nil => simp
    | cons b behind ih =>
      rw [List.nil_append, intercalate_cons _ _ (List.cons_ne_nil _ _)]
      have hrest := ih b
      rw [List.nil_append, List.flatMap_nil, List.nil_append] at hrest
      rw [hrest]
      simp
  | cons x front ih =>
    rw [List.cons_append, intercalate_cons _ _ (by simp), ih]
    simp

theorem scan_stageName (n : Nat) :
    Lexer.between.scan (stageName n).toList = (.word (stageName n).toList, []) := by
  have htext : (stageName n).toList = '_' :: ('s' :: n.repr.toList) := by
    rw [stageName, String.toList_append]
    rfl
  have hstep : Lexer.between.step '_' = (.word ['_'], []) := rfl
  rw [htext, Lexer.scan, hstep, Sql.scan_word]
  · rfl
  · intro c hc
    rcases List.mem_cons.mp hc with rfl | hc
    · rfl
    · rw [Nat.toList_repr] at hc
      have hdigit := Nat.isDigit_of_mem_toDigits (by omega) (by omega) hc
      simp [Sql.isWordChar, hdigit]

theorem toList_head (a b c : String) : (a ++ b ++ c).toList = a.toList ++ (b.toList ++ c.toList) := by
  rw [String.toList_append, String.toList_append, List.append_assoc]

theorem scan_in (n : Nat) :
    Lexer.between.scan ("WITH _in AS (SELECT * FROM " ++ stageName n ++ ") ").toList
      = (.between, inTokens n) := by
  have hhead : Lexer.between.scan "WITH _in AS (SELECT * FROM ".toList
      = (.between, [.word "WITH".toList, .word "_in".toList, .word "AS".toList, .opening,
        .word "SELECT".toList, .symbol '*', .word "FROM".toList]) := by decide +kernel
  have hlast (w : List Char) : (Lexer.word w).scan ") ".toList = (.between, [.word w, .closing]) := rfl
  rw [toList_head, Lexer.scan_append, hhead, Lexer.scan_append, scan_stageName, hlast]
  rfl

theorem readWhole_name (n : Nat) : ReadWhole (stageName n ++ " AS (").toList := by
  have hlast (w : List Char) : (Lexer.word w).scan " AS (".toList
      = (.between, [.word w, .word "AS".toList, .opening]) := rfl
  rw [String.toList_append]
  exact ⟨_, by rw [Lexer.scan_append, scan_stageName, hlast]⟩

/-- The text has all its tokens, and the parenthesis behind it is one more. -/
def Lexes (text : List Char) : Prop := (Sql.lex text).isSome = true ∧ endsInComment text = false

theorem Lexes.paren {text : List Char} (h : Lexes text) : ReadWhole (text ++ [')']) := by
  obtain ⟨ts, hts⟩ := Option.isSome_iff_exists.mp h.1
  exact ⟨_, Sql.scan_paren hts h.2⟩

theorem chained_readWhole {n : Nat} {prev : Option String} {stages : List StageText}
    (hprev : ∀ name, prev = some name → ∃ i, name = stageName i)
    (h : ∀ s ∈ stages, Lexes s.1.toList) : ∀ c ∈ chained n prev stages, ReadWhole (cteText c) := by
  induction stages generalizing n prev with
  | nil => exact fun c hc => absurd hc (by simp [chained])
  | cons s stages ih =>
    intro c hc
    rcases List.mem_cons.mp hc with rfl | hc
    · have hbody := (h s List.mem_cons_self).paren
      rw [cteText_eq]
      refine (readWhole_name n).append ?_
      cases prev with
      | none => exact hbody
      | some name =>
        obtain ⟨i, rfl⟩ := hprev name rfl
        rw [pasted_toList, List.append_assoc]
        exact ReadWhole.append ⟨_, scan_in i⟩ hbody
    · refine ih (fun name hname => ?_) (fun s' hs' => h s' (List.mem_cons_of_mem s hs')) c hc
      exact ⟨n, (Option.some.inj hname).symm⟩

theorem chained_mem {n j : Nat} {prev : Option String} {stages : List StageText} {s : StageText}
    (hs : stages[j + 1]? = some s) :
    (stageName (n + (j + 1)), pasted (some (stageName (n + j))) s.1) ∈ chained n prev stages := by
  induction stages generalizing n j prev with
  | nil => cases hs
  | cons s' stages ih =>
    refine List.mem_cons_of_mem _ ?_
    rw [List.getElem?_cons_succ] at hs
    cases j with
    | zero =>
      cases stages with
      | nil => cases hs
      | cons s'' stages =>
        obtain rfl := Option.some.inj hs
        exact List.mem_cons_self
    | succ j =>
      have hrest := @ih (n + 1) j (some (stageName n)) hs
      rwa [show n + 1 + (j + 1) = n + (j + 1 + 1) by omega, show n + 1 + j = n + (j + 1) by omega] at hrest

theorem chained_name {n : Nat} {prev : Option String} {stages : List StageText} {c : String × String}
    (hc : c ∈ chained n prev stages) : ∃ i, c.1 = stageName i := by
  have hmem : c.1 ∈ (named n stages).map Prod.fst := by
    rw [← chained_names n prev]
    exact List.mem_map_of_mem hc
  obtain ⟨l, hl, hname⟩ := List.mem_map.mp hmem
  obtain ⟨i, hi⟩ := named_stage_name hl
  exact ⟨i, hname.symm.trans hi⟩

/-- The end of a chain has its tokens. -/
theorem lex_tail (n : Nat) {text : List Char} (h : ReadWhole text) :
    ∃ ts, Sql.lex (text ++ (" SELECT * FROM " ++ stageName n).toList) = some ts := by
  obtain ⟨ts, hts⟩ := h
  have hhead : Lexer.between.scan " SELECT * FROM ".toList
      = (.between, [.word "SELECT".toList, .symbol '*', .word "FROM".toList]) := by decide +kernel
  rw [Sql.lex, Lexer.lex_append hts, String.toList_append, Lexer.lex_append hhead, Lexer.lex,
    scan_stageName]
  exact ⟨_, rfl⟩

/-- A stage with a `WITH` of its own brings its keyword right behind the head it is pasted behind. -/
theorem lex_second_with {stages : List StageText} {j : Nat} {s : StageText}
    (hs : stages[j + 1]? = some s) (hlex : ∀ s ∈ stages, Lexes s.1.toList)
    (hwith : leadsWith s.1.toList = true) : ∃ pre keyword post, Sql.isWord "with" keyword = true
      ∧ Sql.lex (chainSql (chained 0 none stages) none).toList
        = some (pre ++ (inTokens j ++ keyword :: post)) := by
  have hwhole := @chained_readWhole 0 none stages nofun hlex
  obtain ⟨front, behind, hsplit⟩ := List.append_of_mem (@chained_mem 0 j none stages s hs)
  -- the last stage's name
  obtain ⟨last, hlast⟩ : ∃ n, (((chained 0 none stages).getLast?.map Prod.fst).or none).getD "None"
      = stageName n := by
    have hne : chained 0 none stages ≠ [] := by simp [hsplit]
    obtain ⟨i, hi⟩ := chained_name (List.getLast_mem hne)
    exact ⟨i, by rw [List.getLast?_eq_some_getLast hne]; exact hi⟩
  rw [chainSql_toList, hlast]
  rw [hsplit] at hwhole ⊢
  -- what is in front of the stage's body, and what is behind its parenthesis
  obtain ⟨us, hus⟩ : ReadWhole ("WITH ".toList ++ ((front.map cteText).flatMap (· ++ ", ".toList)
      ++ (stageName (0 + (j + 1)) ++ " AS (").toList)) := by
    refine ReadWhole.append ⟨_, rfl⟩ (ReadWhole.append (readWhole_flatMap fun x hx => ?_) (readWhole_name _))
    obtain ⟨c, hc, rfl⟩ := List.mem_map.mp hx
    exact (hwhole c (List.mem_append_left _ hc)).append ⟨_, rfl⟩
  obtain ⟨vs, hvs⟩ := @lex_tail last ((behind.map cteText).flatMap (", ".toList ++ ·))
    (readWhole_flatMap fun x hx => by
      obtain ⟨c, hc, rfl⟩ := List.mem_map.mp hx
      exact ReadWhole.append ⟨_, rfl⟩
        (hwhole c (List.mem_append_right _ (List.mem_cons_of_mem _ hc))))
  obtain ⟨hsome, hclosed⟩ := hlex s (List.mem_of_getElem? hs)
  obtain ⟨ts, hts⟩ := Option.isSome_iff_exists.mp hsome
  obtain ⟨keyword, ts', rfl, hkeyword⟩ : ∃ keyword ts', ts = keyword :: ts'
      ∧ Sql.isWord "with" keyword = true := by
    rw [leadsWith, firstToken, hts] at hwith
    cases ts with
    | nil => cases hwith
    | cons keyword ts' => exact ⟨keyword, ts', rfl, hwith⟩
  have hbody := Sql.scan_paren hts hclosed
  have htext : "WITH ".toList ++ (", ".toList.intercalate ((front ++ (stageName (0 + (j + 1)),
        pasted (some (stageName (0 + j))) s.1) :: behind).map cteText)
      ++ (" SELECT * FROM " ++ stageName last).toList)
      = ("WITH ".toList ++ ((front.map cteText).flatMap (· ++ ", ".toList)
          ++ (stageName (0 + (j + 1)) ++ " AS (").toList))
        ++ (("WITH _in AS (SELECT * FROM " ++ stageName (0 + j) ++ ") ").toList
          ++ ((s.1.toList ++ [')']) ++ ((behind.map cteText).flatMap (", ".toList ++ ·)
            ++ (" SELECT * FROM " ++ stageName last).toList))) := by
    rw [List.map_append, List.map_cons, intercalate_split, cteText_eq, pasted_toList]
    simp only [List.append_assoc]
  -- the lexer is between tokens wherever one of these pieces ends
  rw [htext, Sql.lex, Lexer.lex_append hus, Lexer.lex_append (scan_in _), Lexer.lex_append hbody]
  refine ⟨us, keyword, ts' ++ [.closing] ++ vs, hkeyword, ?_⟩
  rw [show Lexer.between.lex _ = some vs from hvs, Nat.zero_add]
  simp

/-! ## The stages of a pipeline -/

/-- A stage that may stand behind `n` others, but for a `WITH` of its own. -/
structure StageSound (n : Nat) (s : StageText) : Prop where
  select : law.select s.said
  closed : endsInComment s.1.toList = false
  apart : ∀ i < n, ¬ law.sql.uses s.said (stageName i)

variable {law} {h : Held ι}

theorem StageSound.query {n : Nat} {s : StageText} (hs : StageSound law n s) : law.sql.grammar.query s.said :=
  (law.query_iff s.said).mpr ⟨hs.select, hs.closed⟩

theorem StageSound.lexes {n : Nat} {s : StageText} (hs : StageSound law n s) : Lexes s.1.toList :=
  ⟨law.select_lexes s.said hs.select, hs.closed⟩

theorem standAlone_of {stages : List StageText} {n : Nat}
    (h : ∀ i s, stages[i]? = some s → StageSound law (n + i) s ∧ (0 < n + i → leadsWith s.1.toList = false)) :
    StandAlone law.sql n (decide (0 < n)) stages := by
  induction stages generalizing n with
  | nil => trivial
  | cons s stages ih =>
    obtain ⟨hsound, hheadless⟩ := h 0 s rfl
    refine ⟨?_, hsound.apart, ?_⟩
    · split
      · next hn => exact (law.headless_iff _).mpr ⟨hsound.query, hheadless (of_decide_eq_true hn)⟩
      · exact hsound.query
    · rw [← decide_eq_true (Nat.succ_pos n)]
      refine ih fun i s hs => ?_
      have hnext := h (i + 1) s hs
      rwa [show n + 1 + i = n + (i + 1) by omega]

theorem emitItem_duck {fed : Bool} {params left : List Val} {key : String} {op : Operator ι Args}
    {args : Args} {own : StageText} (ho : emitItem h fed params (.duck key op args) = .ok (own, left)) :
    (fed = false ∧ ∃ code, op.optimizeDuck = some (.source code) ∧ code (h key) args = .ok own)
    ∨ fed = true ∧ ∃ code, op.optimizeDuck = some (.middle code) ∧ code (h key) "_in" args = .ok own := by
  simp only [emitItem] at ho
  split at ho
  · cases ho
  · cases ho
  · cases ho
  · next code hsource hform =>
    obtain ⟨r, hr, hpair⟩ := map_ok_iff.mp ho
    obtain ⟨rfl, -⟩ := Prod.mk.inj hpair
    exact Or.inl ⟨rfl, code, hform, hr⟩
  · next code hsource hform =>
    obtain ⟨r, hr, hpair⟩ := map_ok_iff.mp ho
    obtain ⟨rfl, -⟩ := Prod.mk.inj hpair
    exact Or.inr ⟨rfl, code, hform, hr⟩
  · cases ho

/-- The stages come one from each item. -/
theorem emitStages_get {items : List (Staged ι Args)} {n : Nat} {params left : List Val}
    {stages : List StageText}
    (ho : emitStages h (decide (0 < n)) params items = .ok (stages, left)) :
    stages.length = items.length ∧ ∀ i s, stages[i]? = some s → ∃ item params left,
      items[i]? = some item ∧ emitItem h (decide (0 < n + i)) params item = .ok (s, left) := by
  induction items generalizing n params stages with
  | nil =>
    obtain ⟨rfl, -⟩ := Prod.mk.inj (Except.ok.inj ho)
    exact ⟨rfl, nofun⟩
  | cons item items ih =>
    rw [emitStages] at ho
    split at ho
    · cases ho
    · next own between hone =>
      obtain ⟨⟨rest, left'⟩, hrest, hpair⟩ := map_ok_iff.mp ho
      cases hpair
      rw [← decide_eq_true (Nat.succ_pos n)] at hrest
      obtain ⟨hlength, hget⟩ := ih hrest
      refine ⟨congrArg (· + 1) hlength, fun i s hs => ?_⟩
      cases i with
      | zero =>
        obtain rfl := Option.some.inj hs
        exact ⟨item, params, between, rfl, hone⟩
      | succ i =>
        obtain ⟨item', params', left', hitem, hemit⟩ := hget i s hs
        exact ⟨item', params', left', hitem, by rwa [show n + (i + 1) = n + 1 + i by omega]⟩

/-- The stage of a SQL segment is its text. -/
theorem emitItem_sql {fed : Bool} {segment : List Char} {params left : List Val} {s : StageText}
    (ho : emitItem h fed params (.sql segment : Staged ι Args) = .ok (s, left)) :
    s.1.toList = segment ∧ s.2.length = countPlaceholders none segment := by
  simp only [emitItem] at ho
  split at ho
  · cases ho
  · obtain ⟨rfl, -⟩ := Prod.mk.inj (Except.ok.inj ho)
    exact ⟨String.toList_ofList, by rw [List.length_take]; omega⟩

section Pipeline

variable {reg : Registry ι Args} {p : Policy} {repr : String → String} {schema : Schema} {dim : Nat}
  {embed : Option (String → Except PipeExc (Val × String))} {w : Window} {alnum : Char → Bool}

/-- A `scan`, `search` or `grep` has no `WITH` of its own where the compiler lets it stand behind
another stage. -/
theorem duck_sound (hal : AlnumLaws alnum) (hw : w.Dated) {op : Operator ι Args}
    (hop : op ∈ [search, scan, grep alnum]) {h₁ : Held ι} {key : String} {args args' : Args}
    (hprep : (prepareArgs (storeCtx repr schema dim embed w) h₁ key op args).result = .ok args')
    (hselect : (Staged.duck key op args').Selects law) {n : Nat} {params left : List Val} {s : StageText}
    (ho : emitItem h (decide (0 < n)) params (.duck key op args') = .ok (s, left)) :
    StageSound law n s ∧ (0 < n → leadsWith s.1.toList = false) := by
  obtain ⟨sql, vals⟩ := s
  obtain ⟨hsource, hmiddle⟩ := @builtin_pastes _ _ _ _ _ _ _ hal hw _ hop _ _ _ _ hprep (h key) sql vals
  obtain ⟨hfirst, hlater⟩ := hselect (h key) sql vals
  rcases emitItem_duck ho with ⟨hn, code, hform, hcode⟩ | ⟨-, code, hform, hcode⟩
  · have hnone : ¬ 0 < n := of_decide_eq_false hn
    exact ⟨⟨hfirst code hform hcode, hsource code hform hcode,
      fun i hi => absurd (Nat.zero_lt_of_lt hi) hnone⟩, fun hpos => absurd hpos hnone⟩
  · obtain ⟨hclosed, hheadless⟩ := hmiddle code hform hcode
    obtain ⟨hsel, huses⟩ := hlater code hform hcode
    exact ⟨⟨hsel, hclosed, fun i _ hi => stageName_ne (by decide +kernel) i (huses _ hi)⟩, fun _ => hheadless⟩

/-- Every stage of a pipeline that may be pasted is sound; one with a `WITH` of its own, behind another,
is a SQL segment. -/
theorem staged_sound (hal : AlnumLaws alnum) (hw : w.Dated) {h₀ : Held ι} {segments : List (List Char)}
    {staged : List (Staged ι Args)}
    (htaken : Threaded (Taken reg p (storeCtx repr schema dim embed w)) h₀ segments staged h)
    (hops : ∀ segment ∈ segments, ∀ key op rest, classify reg segment = some (key, op, rest) →
      op ∈ [search, scan, grep alnum])
    (hselect : ∀ s ∈ staged, s.Selects law) (hpaste : Pastable law staged) {n : Nat}
    {item : Staged ι Args} (hitem : staged[n]? = some item) {params left : List Val} {s : StageText}
    (ho : emitItem h (decide (0 < n)) params item = .ok (s, left)) :
    StageSound law n s ∧ (0 < n → leadsWith s.1.toList = true → item = .sql s.1.toList) := by
  have hmem := List.mem_of_getElem? hitem
  obtain ⟨segment, hsegment, h₁, h₂, htaken⟩ := forall₂_left htaken.forall₂.flip hmem
  -- a segment that is no operator's is SQL, and the conditions are about its text
  rcases htaken with ⟨-, -, rfl, -⟩ | ⟨key, op, rest, args, h₃, args', hc, -, -, hprep, -, hassign⟩
  · obtain ⟨text, vals⟩ := s
    obtain ⟨htext, hown⟩ := emitItem_sql ho
    obtain rfl : text.toList = segment := htext
    exact ⟨⟨hselect _ hmem vals hown, hpaste.closed _ hmem, fun i hi => hpaste.apart n _ hitem i hi vals⟩,
      fun _ _ => rfl⟩
  · have hop := hops segment hsegment key op rest hc
    have hduck : op.optimizeDuck.isSome = true := by
      simp only [List.mem_cons, List.not_mem_nil, or_false] at hop
      rcases hop with rfl | rfl | rfl <;> rfl
    rw [assign, if_pos hduck] at hassign
    obtain rfl := Except.ok.inj hassign
    obtain ⟨hsound, hheadless⟩ := duck_sound hal hw hop hprep (hselect _ hmem) ho
    refine ⟨hsound, fun hn hwith => ?_⟩
    rw [hheadless hn] at hwith
    cases hwith

end Pipeline

end Composition

/-! ## An engine that reads chains -/

/-- What may come next: no `WITH` behind a parenthesis that closes. -/
def Follows (a b : Sql.Token) : Prop := a = .closing → Sql.isWord "with" b = false

instance : DecidableRel Follows := fun _ _ => inferInstanceAs (Decidable (_ → _))

/-- `smallEngine`, which takes no `WITH` behind a named query. -/
def withEngine : Engine := {
  smallEngine with
  statements := fun sql =>
    if (Sql.lex sql.toList).all fun ts => decide (ts.IsChain Follows) then .ok [true]
    else .error "Parser Error: syntax error at or near \"WITH\"" }

/-- A text that has all its tokens, ends in no comment, and has no `WITH` behind a parenthesis. -/
structure Orderly (text : List Char) : Prop where
  closed : endsInComment text = false
  ordered : ∃ ts, Sql.lex text = some ts ∧ ts.IsChain Follows

theorem follows_open {ts : List Sql.Token} (h : Sql.Token.closing ∉ ts) : ts.IsChain Follows := by
  induction ts with
  | nil => exact List.IsChain.nil
  | cons t ts ih =>
    rw [List.isChain_cons]
    refine ⟨fun u _ ht => ?_, ih fun hmem => h (List.mem_cons_of_mem t hmem)⟩
    exact absurd (ht ▸ List.mem_cons_self) h

/-- Tokens one after the other, where what comes second does not begin with a `WITH`. -/
theorem follows_append {ts us : List Sql.Token} (hts : ts.IsChain Follows) (hus : us.IsChain Follows)
    (hhead : ∀ u ∈ us.head?, Sql.isWord "with" u = false) : (ts ++ us).IsChain Follows :=
  List.isChain_append.mpr ⟨hts, hus, fun _ _ u hu _ => hhead u hu⟩

/-- Tokens one after the other, where what comes first does not end in a parenthesis that closes. -/
theorem open_append {ts us : List Sql.Token} (hts : ts.IsChain Follows)
    (hlast : ∀ t ∈ ts.getLast?, t ≠ .closing) (hus : us.IsChain Follows) : (ts ++ us).IsChain Follows :=
  List.isChain_append.mpr ⟨hts, hus, fun t ht _ _ hclosing => absurd hclosing (hlast t ht)⟩

/-- A name is read as no parenthesis, and the word it ends in may go on. -/
theorem scan_isName {cs : List Char} (h : ∀ c ∈ cs, Cte.isNameChar c = true) {l : Lexer}
    (hl : l = .between ∨ ∃ w, l = .word w) : ∃ l' ts, l.scan cs = (l', ts)
      ∧ (l' = .between ∨ ∃ w, l' = .word w) ∧ Sql.Token.closing ∉ ts := by
  induction cs generalizing l with
  | nil => exact ⟨l, [], rfl, hl, List.not_mem_nil⟩
  | cons c cs ih =>
    have hc := h c List.mem_cons_self
    obtain ⟨l₁, us, hstep, hl₁, hus⟩ : ∃ l₁ us, l.step c = (l₁, us)
        ∧ (l₁ = .between ∨ ∃ w, l₁ = .word w) ∧ Sql.Token.closing ∉ us := by
      have hne {d : Char} (hd : Cte.isNameChar d = false) : c ≠ d := by
        rintro rfl
        rw [hd] at hc
        cases hc
      rcases hl with rfl | ⟨w, rfl⟩
      -- it starts nothing that could hide what follows
      · have hclosing : c ≠ ')' := hne (by decide)
        have hquote : ¬ (c = '\'' ∨ c = '"') := not_or.mpr ⟨hne (by decide), hne (by decide)⟩
        have hdash : c ≠ '-' := hne (by decide)
        have hslash : c ≠ '/' := hne (by decide)
        have hdollar : c ≠ '$' := hne (by decide)
        show ∃ l₁ us, Sql.fresh c = (l₁, us) ∧ _
        rw [Sql.fresh, if_neg hclosing, if_neg hquote, if_neg hdash, if_neg hslash, if_neg hdollar]
        split_ifs
        · exact ⟨_, _, rfl, Or.inl rfl, by simp⟩
        · exact ⟨_, _, rfl, Or.inl rfl, by simp⟩
        · exact ⟨_, _, rfl, Or.inr ⟨_, rfl⟩, by simp⟩
        · exact ⟨_, _, rfl, Or.inl rfl, by simp⟩
      · have hword : Sql.isWordChar c = true := by
          simp only [Cte.isNameChar, Char.isAlphanum, Bool.or_eq_true] at hc
          simp only [Sql.isWordChar, Sql.isWordStart, Bool.or_eq_true]
          tauto
        exact ⟨_, _, if_pos hword, Or.inr ⟨_, rfl⟩, by simp⟩
    obtain ⟨l', ts, hscan, hl', hts⟩ := ih (fun x hx => h x (List.mem_cons_of_mem c hx)) hl₁
    refine ⟨l', us ++ ts, ?_, hl', fun hmem => (List.mem_append.mp hmem).elim hus hts⟩
    rw [Lexer.scan, hstep, hscan]

/-- Up to the parenthesis of a clause. -/
theorem scan_clauseHead {name : String} (h : Cte.IsName name) : ∃ ts,
    Lexer.between.scan (name ++ " AS (").toList = (.between, ts) ∧ Sql.Token.closing ∉ ts := by
  obtain ⟨l, us, hscan, hl, hus⟩ := scan_isName h (Or.inl rfl)
  obtain ⟨vs, hvs, hopen⟩ : ∃ vs, l.scan " AS (".toList = (.between, vs) ∧ Sql.Token.closing ∉ vs := by
    rcases hl with rfl | ⟨w, rfl⟩
    · exact ⟨[.word "AS".toList, .opening], rfl, by simp⟩
    · exact ⟨[.word w, .word "AS".toList, .opening], rfl, by simp⟩
  refine ⟨us ++ vs, ?_, fun hmem => (List.mem_append.mp hmem).elim hus hopen⟩
  rw [String.toList_append, Lexer.scan_append, hscan, hvs]

/-- A clause around an orderly text. -/
theorem Orderly.clause {c : Cte.Clause Val} (hname : Cte.IsName c.name) (h : Orderly c.said.1) : ∃ ts,
    Lexer.between.scan c.text = (.between, ts) ∧ ts.IsChain Follows := by
  obtain ⟨us, hus, hopen⟩ := scan_clauseHead hname
  obtain ⟨ts, hts, hchain⟩ := h.ordered
  refine ⟨us ++ (ts ++ [.closing]), ?_, ?_⟩
  · rw [Cte.Clause.text, Lexer.scan_append, hus, Sql.scan_paren hts h.closed]
  · refine open_append (follows_open hopen) (fun t ht htc => ?_)
      (follows_append hchain (List.isChain_singleton _) ?_)
    · exact hopen (htc ▸ List.mem_of_getLast? ht)
    · intro u hu
      obtain rfl := Option.some.inj hu
      rfl

theorem endsInComment_append {a b : List Char} {ts : List Sql.Token}
    (ha : Lexer.between.scan a = (.between, ts)) : endsInComment (a ++ b) = endsInComment b := by
  rw [endsInComment, Lexer.scan_append, ha, endsInComment]

/-- A text behind others that are read whole. -/
theorem Orderly.behind {a b : List Char} {ts : List Sql.Token} (ha : Lexer.between.scan a = (.between, ts))
    (hts : ts.IsChain Follows) (hb : Orderly b)
    (hlink : (∀ t ∈ ts.getLast?, t ≠ .closing) ∨ leadsWith b = false) : Orderly (a ++ b) := by
  obtain ⟨us, hus, hchain⟩ := hb.ordered
  refine ⟨(endsInComment_append ha).trans hb.closed, ts ++ us, ?_, ?_⟩
  · rw [Sql.lex, Lexer.lex_append ha, show Lexer.between.lex b = some us from hus]
    rfl
  · rcases hlink with hlast | hwith
    · exact open_append hts hlast hchain
    · refine follows_append hts hchain fun u hu => ?_
      rw [leadsWith, firstToken, hus, Option.bind_some, hu] at hwith
      exact hwith

theorem clausesText_orderly {cs : List (Cte.Clause Val)} (hne : cs ≠ [])
    (hnames : ∀ c ∈ cs, Cte.IsName c.name) (hcs : ∀ c ∈ cs, Orderly c.said.1) {last : List Char}
    (hlast : Orderly last) (hwith : leadsWith last = false) : Orderly (Cte.clausesText cs last) := by
  induction cs with
  | nil => exact absurd rfl hne
  | cons c cs ih =>
    obtain ⟨ts, hts, hchain⟩ := (hcs c List.mem_cons_self).clause (hnames c List.mem_cons_self)
    by_cases hnil : cs = []
    · subst hnil
      have hblank : Lexer.between.scan [' '] = (.between, []) := rfl
      have htext : Cte.clausesText [c] last = (c.text ++ [' ']) ++ last := by
        rw [Cte.clausesText_single]
        simp
      rw [htext]
      refine @Orderly.behind _ _ (ts ++ []) ?_ (by rwa [List.append_nil]) hlast (Or.inr hwith)
      rw [Lexer.scan_append, hts, hblank]
    · have hrest := ih hnil (fun x hx => hnames x (List.mem_cons_of_mem c hx))
        fun x hx => hcs x (List.mem_cons_of_mem c hx)
      have hcomma : Lexer.between.scan ", ".toList = (.between, [.symbol ',']) := rfl
      rw [Cte.clausesText_cons c hnil, ← List.append_assoc]
      refine @Orderly.behind _ _ (ts ++ [.symbol ',']) ?_ ?_ hrest (Or.inl ?_)
      · rw [Lexer.scan_append, hts, hcomma]
      · refine follows_append hchain (List.isChain_singleton _) fun u hu => ?_
        obtain rfl := Option.some.inj hu
        rfl
      · simp

/-- A text that reads as a chain of orderly ones. -/
theorem reads_orderly {G : Cte.Grammar Val} (hquery : ∀ b, G.query b → Orderly b.1)
    (hheadless : ∀ b, G.headless b → Orderly b.1 ∧ leadsWith b.1 = false) {b : Cte.Said Val}
    {q : Cte.Query String (Cte.Said Val)} (h : Cte.Reads G b q) : Orderly b.1 := by
  induction h with
  | body hb => exact hquery _ hb
  | chain hne hnames _ hlast ih =>
    obtain ⟨horderly, hwith⟩ := hheadless _ hlast
    have hhead : Lexer.between.scan "WITH ".toList = (.between, [.word "WITH".toList]) := rfl
    exact Orderly.behind hhead (List.isChain_singleton _)
      (clausesText_orderly hne hnames ih horderly hwith) (Or.inl (by simp))

theorem isName_orderly {n : String} (h : Cte.IsName n) : Orderly n.toList := by
  obtain ⟨l, ts, hscan, hl, hopen⟩ := scan_isName h (Or.inl rfl)
  rcases hl with rfl | ⟨w, rfl⟩
  · refine ⟨by rw [endsInComment, hscan]; rfl, ts ++ [], ?_, ?_⟩
    · rw [Sql.lex, Lexer.lex, hscan]
      rfl
    · rw [List.append_nil]
      exact follows_open hopen
  · refine ⟨by rw [endsInComment, hscan]; rfl, ts ++ [.word w], ?_, follows_open (by simpa using hopen)⟩
    rw [Sql.lex, Lexer.lex, hscan]
    rfl

/-- A text that goes on as a SELECT does. -/
theorem leadsWith_select {a b : List Char} {ts : List Sql.Token}
    (ha : Lexer.between.scan a = (.between, .word "SELECT".toList :: ts)) : leadsWith (a ++ b) = false := by
  rw [leadsWith, firstToken, Sql.lex, Lexer.lex_append ha]
  cases Lexer.between.lex b with
  | none => rfl
  | some us => exact (by decide +kernel : Sql.isWord "with" (.word "SELECT".toList) = false)

theorem small_orderly {b : Cte.Said Val} (h : smallGrammar.query b) :
    Orderly b.1 ∧ leadsWith b.1 = false := by
  obtain ⟨-, n, hn, htext⟩ := h
  have hstar : Lexer.between.scan "SELECT * FROM ".toList
      = (.between, [.word "SELECT".toList, .symbol '*', .word "FROM".toList]) := by decide +kernel
  have hcount : Lexer.between.scan countText.toList = (.between, [.word "SELECT".toList,
      .word "count".toList, .opening, .symbol '*', .closing, .word "AS".toList, .word "c".toList,
      .word "FROM".toList]) := by decide +kernel
  rcases htext with htext | htext
  · rw [htext]
    refine ⟨(isName_orderly hn).behind hstar (by decide +kernel) (Or.inl ?_), leadsWith_select hstar⟩
    simp
  · rw [htext]
    refine ⟨(isName_orderly hn).behind hcount (by decide +kernel) (Or.inl ?_), leadsWith_select hcount⟩
    simp

/-! ## Its law -/

/-- A chain of small statements is one SELECT statement. -/
def withSelect (b : Cte.Said Val) : Prop := ∃ q, Cte.Reads smallGrammar b q

def withGrammar : Cte.Grammar Val :=
  ⟨fun b => withSelect b ∧ endsInComment b.1 = false,
    fun b => (withSelect b ∧ endsInComment b.1 = false) ∧ leadsWith b.1 = false⟩

def withRead (b : Cte.Said Val) : Option (Cte.Query String (Cte.Said Val)) :=
  Cte.parse (b.1.length + 1) b.1 []

def withDen (env : Source → Option Content) (s : String → Option (Except String Rows))
    (b : Cte.Said Val) : Except String Rows :=
  ((withRead b).map fun q => q.eval (smallBodies env) s).getD (.error "Parser Error")

def WithUses (b : Cte.Said Val) (n : String) : Prop := ∃ q, withRead b = some q ∧ n ∈ relations q

theorem withSelect_orderly {b : Cte.Said Val} (h : withSelect b) : Orderly b.1 := by
  obtain ⟨q, hq⟩ := h
  exact reads_orderly (fun b hb => (small_orderly hb).1) (fun b hb => small_orderly hb) hq

theorem withRead_of {b : Cte.Said Val} {q : Cte.Query String (Cte.Said Val)}
    (h : Cte.Reads smallGrammar b q) : withRead b = some q := by
  have hread := Cte.parse_reads small_plain h (b.1.length + 1) (Nat.lt_succ_self _)
  rwa [small_own h] at hread

theorem withDen_of {b : Cte.Said Val} {q : Cte.Query String (Cte.Said Val)}
    (h : Cte.Reads smallGrammar b q) (env : Source → Option Content)
    (s : String → Option (Except String Rows)) :
    withDen env s b = q.eval (smallBodies env) s := by
  rw [withDen, withRead_of h]
  rfl

/-- The scope of a query matters where it names a relation. -/
theorem eval_scope {env : Source → Option Content} {q : Cte.Query String (Cte.Said Val)}
    {s s' : String → Option (Except String Rows)} (h : ∀ n ∈ relations q, s n = s' n) :
    q.eval (smallBodies env) s = q.eval (smallBodies env) s' := by
  induction q generalizing s s' with
  | body b =>
    show smallDen env s b = smallDen env s' b
    unfold smallDen
    cases hasked : smallAsked b.1 with
    | none => rfl
    | some r => simp only [h r.2 (by simp [relations, hasked])]
  | bind n q rest ihq ihrest =>
    show rest.eval _ (Function.update s n (some (q.eval _ s))) = rest.eval _ (Function.update s' n _)
    rw [ihq fun m hm => h m (List.mem_append_left _ hm)]
    refine ihrest fun m hm => ?_
    by_cases hn : m = n
    · rw [hn, Function.update_self, Function.update_self]
    · rw [Function.update_of_ne hn, Function.update_of_ne hn, h m (List.mem_append_right _ hm)]

theorem withRead_star (n : String) : withRead (Cte.starText n) = some (.body (Cte.starText n)) := by
  have hfirst : "SELECT * FROM ".toList = 'S' :: "ELECT * FROM ".toList := by decide +kernel
  have htext : (Cte.starText n : Cte.Said Val).1 = 'S' :: ("ELECT * FROM ".toList ++ n.toList) :=
    congrArg (· ++ n.toList) hfirst
  rw [withRead, Cte.parse, if_neg (by rw [htext]; simp)]
  rfl

def withBodies (env : Source → Option Content) :
    Cte.Bodies String (Cte.Said Val) (Except String Rows) Cte.starText WithUses where
  base n := tableRows (env (.relation n))
  den := withDen env
  den_congr b s s' h := by
    unfold withDen
    cases hread : withRead b with
    | none => rfl
    | some q => simp only [Option.map_some, Option.getD_some, eval_scope fun n hn => h n ⟨q, hread, hn⟩]
  den_star n s := by
    rw [withDen, withRead_star]
    exact (smallBodies env).den_star n s

/-- Two readings of a clause that mean the same. -/
structure SameClause (c c' : Cte.Clause Val) : Prop where
  name : c'.name = c.name
  said : c'.said = c.said
  reads : Cte.Reads smallGrammar c.said c'.query
  eval : ∀ env s, c'.query.eval (smallBodies env) s = c.query.eval (withBodies env) s

theorem sameClause_text {c c' : Cte.Clause Val} (h : SameClause c c') : c'.text = c.text := by
  rw [Cte.Clause.text, Cte.Clause.text, h.name, h.said]

theorem binds_same {cs cs' : List (Cte.Clause Val)} (h : List.Forall₂ SameClause cs cs')
    {env : Source → Option Content} {q q' : Cte.Query String (Cte.Said Val)}
    (hq : ∀ s, q'.eval (smallBodies env) s = q.eval (withBodies env) s)
    (s : String → Option (Except String Rows)) :
    (Cte.binds (cs'.map fun c => (c.name, c.query)) q').eval (smallBodies env) s
      = (Cte.binds (cs.map fun c => (c.name, c.query)) q).eval (withBodies env) s := by
  induction h generalizing s with
  | nil => exact hq s
  | @cons c c' cs cs' hc hcs ih =>
    show (Cte.binds _ q').eval _ (Function.update s c'.name _)
      = (Cte.binds _ q).eval _ (Function.update s c.name _)
    rw [ih, hc.name, hc.eval]

/-- Where a list of named queries comes first, so does a `WITH`. -/
theorem leadsWith_chain {text : List Char} (h : Orderly text) :
    leadsWith ("WITH ".toList ++ text) = true := by
  obtain ⟨ts, hts, -⟩ := h.ordered
  have hhead : Lexer.between.scan "WITH ".toList = (.between, [.word "WITH".toList]) := rfl
  rw [leadsWith, firstToken, Sql.lex, Lexer.lex_append hhead, show Lexer.between.lex text = some ts from hts]
  exact (by decide +kernel : Sql.isWord "with" (.word "WITH".toList) = true)

/-- A small text without a `WITH` is a small statement. -/
theorem small_of_headless {b : Cte.Said Val} (h : withSelect b) (hwith : leadsWith b.1 = false) :
    smallGrammar.query b := by
  obtain ⟨q, hq⟩ := h
  cases hq with
  | body hb => exact hb
  | chain hne hnames hreads hlast =>
    have horderly := clausesText_orderly hne hnames
      (fun c hc => withSelect_orderly ⟨_, hreads c hc⟩) (small_orderly hlast).1 (small_orderly hlast).2
    rw [leadsWith_chain horderly] at hwith
    cases hwith

/-- The readings of all clauses at once. -/
theorem sameClauses_of {cs : List (Cte.Clause Val)}
    (h : ∀ c ∈ cs, ∃ q', Cte.Reads smallGrammar c.said q'
      ∧ ∀ env s, q'.eval (smallBodies env) s = c.query.eval (withBodies env) s) :
    ∃ cs', List.Forall₂ SameClause cs cs' := by
  induction cs with
  | nil => exact ⟨[], .nil⟩
  | cons c cs ih =>
    obtain ⟨cs', hcs'⟩ := ih fun c' hc' => h c' (List.mem_cons_of_mem c hc')
    obtain ⟨q', hreads, heval⟩ := h c List.mem_cons_self
    exact ⟨⟨c.name, c.said, q'⟩ :: cs', .cons ⟨rfl, rfl, hreads, heval⟩ hcs'⟩

theorem sameClauses_text {cs cs' : List (Cte.Clause Val)} (h : List.Forall₂ SameClause cs cs') :
    cs'.map Cte.Clause.text = cs.map Cte.Clause.text
    ∧ cs'.flatMap (fun c => c.said.2) = cs.flatMap fun c => c.said.2 := by
  induction h with
  | nil => exact ⟨rfl, rfl⟩
  | cons hc _ ih =>
    rw [List.map_cons, List.map_cons, List.flatMap_cons, List.flatMap_cons, ih.1, ih.2, hc.said,
      sameClause_text hc]
    exact ⟨rfl, rfl⟩

/-- However a text is cut into statements, the engine's own reading of it means the same. -/
theorem withReads_small {b : Cte.Said Val} {q : Cte.Query String (Cte.Said Val)}
    (h : Cte.Reads withGrammar b q) : ∃ q', Cte.Reads smallGrammar b q'
      ∧ ∀ env s, q'.eval (smallBodies env) s = q.eval (withBodies env) s := by
  induction h with
  | @body b hb =>
    -- a whole chain may have been taken for a body
    obtain ⟨⟨q', hq'⟩, -⟩ := hb
    refine ⟨q', hq', fun env s => ?_⟩
    show _ = withDen env s b
    rw [withDen, withRead_of hq']
    rfl
  | @chain cs b hne hnames hcs hlast ih =>
    -- what follows the list has no `WITH`, so it is one statement in either reading
    obtain ⟨⟨hselect, -⟩, hwith⟩ := hlast
    have hsmall := small_of_headless hselect hwith
    obtain ⟨cs', hsame⟩ := sameClauses_of ih
    have hclauses : ∀ c' ∈ cs', Cte.IsName c'.name ∧ Cte.Reads smallGrammar c'.said c'.query := by
      intro c' hc'
      obtain ⟨c, hc, hsame⟩ := forall₂_left hsame.flip hc'
      exact ⟨hsame.name ▸ hnames c hc, hsame.said ▸ hsame.reads⟩
    have hne' : cs' ≠ [] := by
      rintro rfl
      cases hsame
      exact hne rfl
    obtain ⟨htexts, howns⟩ := sameClauses_text hsame
    have hreads := Cte.Reads.chain hne' (fun c hc => (hclauses c hc).1) (fun c hc => (hclauses c hc).2)
      (show smallGrammar.headless b from hsmall)
    rw [Cte.clausesText, htexts, howns] at hreads
    refine ⟨_, hreads, fun env s => binds_same hsame (fun s => ?_) s⟩
    show smallDen env s b = withDen env s b
    rw [withDen, withRead_of (.body hsmall)]
    rfl

theorem withReads_orderly {b : Cte.Said Val} {q : Cte.Query String (Cte.Said Val)}
    (h : Cte.Reads withGrammar b q) : Orderly b.1 := by
  refine reads_orderly (fun c hc => ?_) (fun c hc => ?_) h
  · exact withSelect_orderly (show withSelect c ∧ endsInComment c.1 = false from hc).1
  · obtain ⟨hquery, hwith⟩ : (withSelect c ∧ endsInComment c.1 = false) ∧ leadsWith c.1 = false := hc
    exact ⟨withSelect_orderly hquery.1, hwith⟩

/-- A `WITH` behind the head of a stage. -/
theorem second_unordered {pre post : List Sql.Token} {n : Nat} {keyword : Sql.Token}
    (hwith : Sql.isWord "with" keyword = true) :
    ¬ (pre ++ (inTokens n ++ keyword :: post)).IsChain Follows := by
  intro hchain
  have hbehind := (List.isChain_append.mp (List.isChain_append.mp hchain).2.1).2.2
  have hfollows := hbehind Sql.Token.closing rfl keyword rfl rfl
  rw [hwith] at hfollows
  cases hfollows

theorem with_refused {sql : String}
    (h : ¬ (Sql.lex sql.toList).all (fun ts => decide (ts.IsChain Follows)) = true) :
    withEngine.statements sql = .error "Parser Error: syntax error at or near \"WITH\"" := if_neg h

def withLaw : withEngine.Selects where
  select := withSelect
  sql := {
    grammar := withGrammar
    uses := WithUses
    bodies := withBodies
    star_query n hn :=
      have hstar : smallGrammar.query (Cte.starText n) := ⟨rfl, n, hn, Or.inl rfl⟩
      ⟨⟨_, .body hstar⟩, (small_orderly hstar).1.closed⟩
    star_headless n hn :=
      have hstar : smallGrammar.query (Cte.starText n) := ⟨rfl, n, hn, Or.inl rfl⟩
      ⟨⟨⟨_, .body hstar⟩, (small_orderly hstar).1.closed⟩, (small_orderly hstar).2⟩
    statements_reads {sql params q} h := by
      obtain ⟨ts, hts, hchain⟩ := (withReads_orderly h).ordered
      show (if (Sql.lex sql.toList).all fun ts => decide (ts.IsChain Follows) then _ else _) = _
      rw [show Sql.lex sql.toList = some ts from hts, Option.all_some, if_pos (decide_eq_true hchain)]
    execute_reads {sql params q} h env := by
      obtain ⟨q', hq', heval⟩ := withReads_small h
      rw [← heval]
      exact smallLaw.execute_reads hq' env }
  query_iff _ := Iff.rfl
  headless_iff _ := Iff.rfl
  select_lexes b hb := by
    obtain ⟨ts, hts, -⟩ := (withSelect_orderly hb).ordered
    rw [hts]
    rfl
  second_with sql n pre keyword post hwith htokens hstatements := by
    have hrefused := @with_refused sql (by
      rw [htokens, Option.all_some]
      exact fun hchain => second_unordered hwith (of_decide_eq_true hchain))
    rw [hrefused] at hstatements
    cases hstatements

/-! ## A `WITH` in the first stage, and in the second -/

def withSegment (name : String) : List Char :=
  ("WITH x AS (SELECT * FROM " ++ name ++ ") SELECT * FROM x").toList

/-- The clause of such a text. -/
def xClause (name : String) : Cte.Clause Val := ⟨"x", Cte.starText name, .body (Cte.starText name)⟩

theorem small_star {n : String} (hn : Cte.IsName n) : smallGrammar.query (Cte.starText n) :=
  ⟨rfl, n, hn, Or.inl rfl⟩

theorem withSegment_text (name : String) : withSegment name
    = "WITH ".toList ++ Cte.clausesText [xClause name] ("SELECT * FROM ".toList ++ "x".toList) := by
  have hhead : "WITH x AS (SELECT * FROM ".toList
      = "WITH ".toList ++ (("x" ++ " AS (").toList ++ "SELECT * FROM ".toList) := by decide +kernel
  have htail : ") SELECT * FROM x".toList = ')' :: ' ' :: ("SELECT * FROM ".toList ++ "x".toList) := by
    decide +kernel
  have hclause : (xClause name).text
      = ("x" ++ " AS (").toList ++ ("SELECT * FROM ".toList ++ name.toList ++ [')']) := rfl
  rw [Cte.clausesText_single, hclause, withSegment, toList_three, hhead, htail]
  simp only [List.append_assoc, List.cons_append, List.nil_append]

theorem withSegment_reads {name : String} (hname : Cte.IsName name) :
    Cte.Reads smallGrammar (withSegment name, [])
      (.bind "x" (.body (Cte.starText name)) (.body (Cte.starText "x"))) := by
  have hx : Cte.IsName "x" := List.all_eq_true.mp (by decide +kernel)
  rw [withSegment_text]
  refine @Cte.Reads.chain _ smallGrammar [xClause name] (Cte.starText "x") (List.cons_ne_nil _ _) ?_ ?_
    (small_star hx)
  · intro c hc
    obtain rfl := List.mem_singleton.mp hc
    exact hx
  · intro c hc
    obtain rfl := List.mem_singleton.mp hc
    exact .body (small_star hname)

def firstWith : List (List Char) := [withSegment "notes", (countText ++ "_in").toList]

def secondWith : List (List Char) := ["SELECT * FROM notes".toList, withSegment "_in"]

/-- Only the relations of its query are used by a segment. -/
theorem not_uses {segment : List Char} {q : Cte.Query String (Cte.Said Val)}
    (hq : Cte.Reads smallGrammar (segment, []) q) {n : String} (hn : n ∉ relations q) (own : List Val) :
    ¬ withLaw.sql.uses (segment, own) n := by
  rintro ⟨q', hread, hmem⟩
  obtain rfl := Option.some.inj ((withRead_of hq).symm.trans hread)
  exact hn hmem

theorem segment_relations (name : String) :
    relations (.bind "x" (.body (Cte.starText name)) (.body (Cte.starText "x"))) = [name, "x"] := by
  rw [relations, relations, relations, smallAsked_star, smallAsked_star]
  rfl

theorem isName_notes : Cte.IsName "notes" := List.all_eq_true.mp (by decide +kernel)

abbrev sqlStages (segments : List (List Char)) : List (Staged Unit Args) := segments.map .sql

/-- A segment that the engine reads, without placeholders, about relations that are no stages. -/
def SmallSegment (segment : List Char) : Prop := countPlaceholders none segment = 0
  ∧ ∃ q, Cte.Reads smallGrammar (segment, []) q ∧ ∀ i, stageName i ∉ relations q

theorem small_selects {segments : List (List Char)} (h : ∀ segment ∈ segments, SmallSegment segment) :
    ∀ s ∈ sqlStages segments, s.Selects withLaw := by
  intro s hs
  obtain ⟨segment, hsegment, rfl⟩ := List.mem_map.mp hs
  obtain ⟨hmarks, q, hq, -⟩ := h segment hsegment
  intro own hown
  rw [hmarks] at hown
  obtain rfl := List.length_eq_zero_iff.mp hown
  exact ⟨q, hq⟩

theorem small_pastable {segments : List (List Char)} (h : ∀ segment ∈ segments, SmallSegment segment) :
    Pastable withLaw (sqlStages segments) := by
  refine ⟨fun segment hmem => ?_, fun n segment hget i _ own => ?_⟩
  · obtain ⟨segment', hsegment, heq⟩ := List.mem_map.mp hmem
    obtain rfl := Staged.sql.inj heq
    obtain ⟨-, q, hq, -⟩ := h segment' hsegment
    exact (withSelect_orderly ⟨q, hq⟩).closed
  · obtain ⟨segment', hsegment, heq⟩ := List.mem_map.mp (List.mem_of_getElem? hget)
    obtain rfl := Staged.sql.inj heq
    obtain ⟨-, q, hq, hapart⟩ := h segment' hsegment
    exact not_uses hq (hapart i) own

theorem withSegment_small {name : String} (hname : Cte.IsName name)
    (hstage : "_s".toList.isPrefixOf name.toList = false)
    (hmarks : countPlaceholders none (withSegment name) = 0) : SmallSegment (withSegment name) := by
  refine ⟨hmarks, _, withSegment_reads hname, fun i hmem => ?_⟩
  rw [segment_relations, List.mem_cons, List.mem_singleton] at hmem
  exact hmem.elim (stageName_ne hstage i) (stageName_ne (by decide +kernel) i)

theorem plain_small {segment : List Char} {count : Bool} {name : String}
    (hquery : smallGrammar.query (segment, [])) (hasked : smallAsked segment = some (count, name))
    (hstage : "_s".toList.isPrefixOf name.toList = false) (hmarks : countPlaceholders none segment = 0) :
    SmallSegment segment := by
  refine ⟨hmarks, _, .body hquery, fun i hmem => stageName_ne hstage i ?_⟩
  rw [relations, hasked] at hmem
  exact List.mem_singleton.mp hmem

theorem firstWith_small : ∀ segment ∈ firstWith, SmallSegment segment := by
  intro segment hsegment
  simp only [firstWith, List.mem_cons, List.not_mem_nil, or_false] at hsegment
  rcases hsegment with rfl | rfl
  · exact withSegment_small isName_notes (by decide +kernel) (by decide +kernel)
  · exact @plain_small _ true "_in" ⟨rfl, "_in", isName_in, Or.inr String.toList_append⟩ (by decide +kernel)
      (by decide +kernel) (by decide +kernel)

theorem secondWith_small : ∀ segment ∈ secondWith, SmallSegment segment := by
  intro segment hsegment
  simp only [secondWith, List.mem_cons, List.not_mem_nil, or_false] at hsegment
  rcases hsegment with rfl | rfl
  · exact @plain_small _ false "notes" ⟨rfl, "notes", isName_notes, Or.inl rfl⟩ (by decide +kernel)
      (by decide +kernel) (by decide +kernel)
  · exact withSegment_small isName_in (by decide +kernel) (by decide +kernel)

def secondText : String :=
  "WITH _s0 AS (SELECT * FROM notes), _s1 AS (WITH _in AS (SELECT * FROM _s0) "
    ++ "WITH x AS (SELECT * FROM _in) SELECT * FROM x) SELECT * FROM _s1"

theorem star_eval (env : Source → Option Content) (s : String → Option (Except String Rows)) (n : String) :
    (Cte.Query.body (Cte.starText n)).eval (smallBodies env) s = (s n).getD (tableRows (env (.relation n))) :=
  (smallBodies env).den_star n s

/-- Two stages one after the other, in the engine's reading of them. -/
theorem two_stages {s t : StageText} {q q' : Cte.Query String (Cte.Said Val)}
    (hs : Cte.Reads smallGrammar s.said q) (ht : Cte.Reads smallGrammar t.said q')
    (env : Source → Option Content) : stageRows withLaw.sql env false [s, t]
      = some (q'.eval (smallBodies env)
          (Function.update (fun _ => none) "_in" (some (q.eval (smallBodies env) fun _ => none)))) := by
  rw [← withDen_of hs, ← withDen_of ht]
  rfl

end Seekbase
