/-
# Seekbase.Lower — the statements the built-in operators are lowered to.

`scan` pastes the visibility text of a table, `search` a fusion of two candidate arms with the same
predicate in each, `grep` a filter.  Their values are not pasted but bound: `search` binds the vector
once and the tokens twice, and `grep` its pattern.  What IS pasted are names of the schema, which have
passed `_ident`, numbers, and the two days of the window, which nothing has checked yet.

* `asofConds`, `visibleText`, `VssNames.sql` — the texts;
* `storeCtx`   — what an operator of a store with the vss backend reaches;
* `Emits`      — an emitted statement takes its own values, and says what it is to say;
* `builtin_emits` — so do those of the built-in operators.
-/
import Seekbase.Holes
import Seekbase.Create
import Seekbase.Cursor
import Seekbase.Search

namespace Seekbase

/-! ## Texts -/

def dq (name : String) : String := "\"" ++ name ++ "\""

def sq (text : String) : String := "'" ++ text ++ "'"

/-- `_ident`. -/
def identText (repr : String → String) (name : String) : Except PipeExc String :=
  if identOk name then .ok (dq name)
  else .error (queryError ("illegal identifier " ++ repr name))

/-- `_asof_conds`. -/
def asofConds (w : Window) : List String :=
  (match w.dsEnd with
    | none => [dq "deleted_ds" ++ " IS NULL"]
    | some d =>
      [dq "ds" ++ " <= " ++ sq d,
        "(" ++ dq "deleted_ds" ++ " IS NULL OR " ++ dq "deleted_ds" ++ " > " ++ sq d ++ ")"])
  ++ match w.dsStart with
    | none => []
    | some d => [dq "ds" ++ " >= " ++ sq d]

/-- `_visible`. -/
def visibleText (repr : String → String) (spec : TableSpec) (w : Window) : Except PipeExc String := do
  let cols ← spec.allColumnNames.mapM (identText repr)
  let phys ← identText repr (physName spec.name)
  .ok ("SELECT " ++ ", ".intercalate cols ++ " FROM " ++ phys ++ " WHERE "
    ++ " AND ".intercalate (asofConds w))

/-- What `_vss_search_sql` pastes. -/
structure VssNames where
  pk : String
  phys : String
  vc : String
  tc : String
  vis : String
  visible : String
  dim : Nat
  cand : Nat
  k : Nat

namespace VssNames

variable (n : VssNames)

def fts : String := "fts_main_" ++ n.phys

/-- The text of `_vss_search_sql` up to its first placeholder, and between the others. -/
def beforeVector : String :=
  "WITH _v AS (SELECT pk, row_number() OVER (ORDER BY dd) rk FROM (SELECT " ++ dq n.pk
    ++ " pk, array_cosine_distance(" ++ dq n.vc ++ ", "

def beforeTokens : String :=
  "::FLOAT[" ++ n.dim.repr ++ "]) dd FROM " ++ dq n.phys ++ " WHERE " ++ dq n.vc
    ++ " IS NOT NULL AND " ++ n.vis ++ " ORDER BY dd LIMIT " ++ n.cand.repr
    ++ ")), _f AS (SELECT pk, row_number() OVER (ORDER BY sc DESC) rk FROM (SELECT " ++ dq n.pk
    ++ " pk, " ++ n.fts ++ ".match_bm25(" ++ dq n.pk ++ ", "

def beforeFilter : String :=
  ", fields := " ++ sq n.tc ++ ") sc FROM " ++ dq n.phys ++ " WHERE " ++ n.fts ++ ".match_bm25("
    ++ dq n.pk ++ ", "

def afterFilter : String :=
  ", fields := " ++ sq n.tc ++ ") IS NOT NULL AND " ++ n.vis ++ " ORDER BY sc DESC LIMIT "
    ++ n.cand.repr
    ++ ")), _h AS (SELECT COALESCE(_v.pk, _f.pk) pk, "
    ++ "COALESCE(1.0/(60+_v.rk),0)+COALESCE(1.0/(60+_f.rk),0) score "
    ++ "FROM _v FULL OUTER JOIN _f ON _v.pk=_f.pk ORDER BY score DESC LIMIT " ++ n.k.repr ++ ") "
    ++ "SELECT base.*, _h.score AS _score FROM (" ++ n.visible ++ ") base JOIN _h ON CAST(base."
    ++ dq n.pk ++ " AS VARCHAR) = CAST(_h.pk AS VARCHAR)"

def sql : String :=
  n.beforeVector ++ "?" ++ n.beforeTokens ++ "?" ++ n.beforeFilter ++ "?" ++ n.afterFilter

/-- The statement with its values: the vector where the distance is taken, the tokens where the text is
scored and where it is filtered. -/
def filled (qvec qtok : Val) : Filled :=
  ofText n.beforeVector ++ .inr qvec :: (ofText n.beforeTokens ++ .inr qtok :: (ofText n.beforeFilter
    ++ .inr qtok :: ofText n.afterFilter))

end VssNames

/-- `_vss_search_sql`: its names, where all of them pass. -/
def vssNames (repr : String → String) (dim : Nat) (spec : TableSpec) (col : String) (k : Nat)
    (w : Window) : Except PipeExc VssNames := do
  let visible ← visibleText repr spec w
  let _ ← identText repr spec.primaryKey
  .ok {
    pk := spec.primaryKey
    phys := physName spec.name
    vc := "_vec_" ++ col
    tc := "_tok_" ++ col
    vis := " AND ".intercalate (asofConds w)
    visible := visible
    dim := dim
    cand := if w.dsEnd.isSome then k * overfetch else k
    k := k }

def specOf (schema : Schema) (table : String) : Except PipeExc TableSpec :=
  match schema.table table with
  | some spec => .ok spec
  | none => .error (.unknownTable table)

/-- What `prepare` reaches in a store with the vss backend. -/
def storeCtx (repr : String → String) (schema : Schema) (dim : Nat)
    (embed : Option (String → Except PipeExc (Val × String))) (w : Window) : OperatorCtx where
  table := specOf schema
  embed := embed
  searchLower table col qvec qtok k := do
    let spec ← specOf schema table
    let n ← vssNames repr dim spec col k w
    .ok (n.sql, [qvec, .json (.str qtok), .json (.str qtok)])
  visibleSql table := do
    let spec ← specOf schema table
    visibleText repr spec w

/-! ## What is pasted -/

/-- A text that opens nothing and marks nothing, wherever it stands. -/
def Calm (s : String) : Prop := ∀ c ∈ s.toList, isQuote c = false ∧ c ≠ '|' ∧ c ≠ '?'

/-- A text that opens nothing and marks nothing outside literals. -/
abbrev Still (s : String) : Prop := Silent s.toList

theorem calm_of {P : Char → Bool} (hone : P '\'' = false) (htwo : P '"' = false) (hpipe : P '|' = false)
    (hmark : P '?' = false) {s : String} (h : ∀ c ∈ s.toList, P c = true) : Calm s := by
  intro c hc
  obtain ⟨hq, hp⟩ := plain_of hone htwo hpipe (h c hc)
  refine ⟨hq, hp, ?_⟩
  rintro rfl
  have hP := h '?' hc
  rw [hmark] at hP
  cases hP

theorem Calm.append {a b : String} (ha : Calm a) (hb : Calm b) : Calm (a ++ b) := by
  intro c hc
  rw [String.toList_append, List.mem_append] at hc
  exact hc.elim (ha c) (hb c)

theorem Calm.still {s : String} (h : Calm s) : Still s where
  noMark := fun hm => (h '?' hm).2.2 rfl
  closed := over_plain fun c hc => ⟨(h c hc).1, (h c hc).2.1⟩

theorem Still.append {a b : String} (ha : Still a) (hb : Still b) : Still (a ++ b) := by
  rw [Still, String.toList_append]
  exact Silent.append ha hb

theorem calm_repr (n : Nat) : Calm n.repr := by
  refine calm_of (P := Char.isDigit) (by decide) (by decide) (by decide) (by decide) ?_
  intro c hc
  rw [Nat.toList_repr] at hc
  exact Nat.isDigit_of_mem_toDigits (by omega) (by omega) hc

theorem still_quoted {q : Char} (hq : isQuote q = true) {s : String} (h : Calm s) :
    Silent ([q] ++ s.toList ++ [q]) where
  noMark := by
    intro hm
    have hne : '?' ≠ q := fun he => absurd hq (by rw [← he]; decide)
    have hs : '?' ∉ s.toList := fun hm => (h '?' hm).2.2 rfl
    simp [hne, hs] at hm
  closed := by
    have hopen : (Scan.code false).over [q] = .quoted q := step_quote hq
    rw [Scan.over_append, Scan.over_append, hopen, over_literal (fun c hc => (h c hc).1) hq]
    exact step_closing q

theorem still_dq {s : String} (h : Calm s) : Still (dq s) := by
  rw [Still, dq, String.toList_append, String.toList_append]
  exact still_quoted rfl h

theorem still_sq {s : String} (h : Calm s) : Still (sq s) := by
  rw [Still, sq, String.toList_append, String.toList_append]
  exact still_quoted rfl h

theorem still_intercalate {sep : String} (hsep : Still sep) {l : List String} (h : ∀ s ∈ l, Still s) :
    Still (sep.intercalate l) := by
  rw [Still, String.toList_intercalate]
  induction l with
  | nil => exact ⟨List.not_mem_nil, rfl⟩
  | cons s l ih =>
    have hs := h s List.mem_cons_self
    have hrest := ih fun x hx => h x (List.mem_cons_of_mem s hx)
    cases l with
    | nil =>
      rw [List.map_singleton]
      simpa [List.intercalate] using hs
    | cons s' l =>
      rw [List.map_cons, intercalate_cons _ _ (by simp)]
      exact Silent.append hs (Silent.append hsep hrest)

theorem dollar_subset {c : Char} {cs : List Char} (h : c ∈ cs) : c ∈ dollar cs ∨ c = '\n' := by
  rw [dollar]
  split
  · next hlast =>
    obtain ⟨front, hfront⟩ := List.getLast?_eq_some_iff.mp hlast
    rw [hfront] at h ⊢
    rw [List.dropLast_concat]
    simpa using h
  · exact Or.inl h

/-- What `_ident` accepts. -/
theorem identOk_chars {name : String} (h : identOk name = true) {c : Char} (hc : c ∈ name.toList) :
    (isIdentChar c || c == '\n') = true := by
  rw [Bool.or_eq_true, beq_iff_eq]
  refine (dollar_subset hc).imp_left fun hmem => ?_
  rw [identOk] at h
  cases hd : dollar name.toList with
  | nil => simp [hd] at h
  | cons d ds =>
    rw [hd] at h hmem
    rw [Bool.and_eq_true, List.all_eq_true] at h
    rcases List.mem_cons.mp hmem with rfl | hmem
    · rw [isIdentChar, h.1, Bool.true_or]
    · exact h.2 c hmem

theorem calm_ident {name : String} (h : identOk name = true) : Calm name :=
  calm_of (P := fun c => isIdentChar c || c == '\n') rfl rfl rfl rfl fun _ hc => identOk_chars h hc

/-- What the check of a day accepts. -/
theorem isDs_chars {d : String} (h : isDs d = true) {c : Char} (hc : c ∈ d.toList) :
    (isDecimal c || c == '\n') = true := by
  rw [Bool.or_eq_true, beq_iff_eq]
  refine (dollar_subset hc).imp_left fun hmem => ?_
  rw [isDs, Bool.and_eq_true, List.all_eq_true] at h
  exact h.2 c hmem

theorem calm_ds {d : String} (h : isDs d = true) : Calm d :=
  calm_of (P := fun c => isDecimal c || c == '\n') (by decide) (by decide) (by decide) (by decide)
    fun _ hc => isDs_chars h hc

theorem identText_ok {repr : String → String} {name text : String}
    (h : identText repr name = .ok text) : text = dq name ∧ identOk name = true := by
  rw [identText] at h
  split at h
  · next hok => exact ⟨(Except.ok.inj h).symm, hok⟩
  · cases h

/-- The days of a window, if it has any, have the form of a day. -/
def Window.Dated (w : Window) : Prop :=
  (∀ d, w.dsStart = some d → isDs d = true) ∧ ∀ d, w.dsEnd = some d → isDs d = true

/-- The conditions of a window compare with its days. -/
theorem asofConds_of {w : Window} (hw : w.Dated) {s : String} (hs : s ∈ asofConds w) :
    s = dq "deleted_ds" ++ " IS NULL" ∨ ∃ d, isDs d = true ∧ (s = dq "ds" ++ " <= " ++ sq d
      ∨ s = "(" ++ dq "deleted_ds" ++ " IS NULL OR " ++ dq "deleted_ds" ++ " > " ++ sq d ++ ")"
      ∨ s = dq "ds" ++ " >= " ++ sq d) := by
  rw [asofConds] at hs
  rcases List.mem_append.mp hs with hs | hs
  · cases hend : w.dsEnd with
    | none =>
      rw [hend, List.mem_singleton] at hs
      exact Or.inl hs
    | some d =>
      rw [hend, List.mem_cons, List.mem_singleton] at hs
      exact Or.inr ⟨d, hw.2 d hend, hs.imp_right Or.inl⟩
  · cases hstart : w.dsStart with
    | none =>
      rw [hstart] at hs
      cases hs
    | some d =>
      rw [hstart, List.mem_singleton] at hs
      exact Or.inr ⟨d, hw.1 d hstart, Or.inr (Or.inr hs)⟩

theorem still_asof {w : Window} (hw : w.Dated) : Still (" AND ".intercalate (asofConds w)) := by
  refine still_intercalate (by decide +kernel) ?_
  intro s hs
  rcases asofConds_of hw hs with rfl | ⟨d, hd, hs⟩
  · decide +kernel
  · have hday := still_sq (calm_ds hd)
    rcases hs with rfl | rfl | rfl
    · exact Still.append (by decide +kernel) hday
    · exact Still.append (Still.append (by decide +kernel) hday) (by decide +kernel)
    · exact Still.append (by decide +kernel) hday

theorem mapM_identText {repr : String → String} {names texts : List String}
    (h : names.mapM (identText repr) = .ok texts) :
    texts = names.map dq ∧ ∀ name ∈ names, identOk name = true := by
  induction names generalizing texts with
  | nil =>
    obtain rfl := Except.ok.inj h
    simp
  | cons name names ih =>
    rw [List.mapM_cons] at h
    match hone : identText repr name, hrest : names.mapM (identText repr) with
    | .error e, _ => simp [hone, bind, Except.bind] at h
    | .ok t, .error e => simp [hone, hrest, bind, Except.bind] at h
    | .ok t, .ok ts =>
      simp only [hone, hrest, bind, Except.bind, pure, Except.pure, Except.ok.injEq] at h
      subst h
      obtain ⟨rfl, hok⟩ := identText_ok hone
      obtain ⟨rfl, hnames⟩ := ih hrest
      exact ⟨rfl, List.forall_mem_cons.mpr ⟨hok, hnames⟩⟩

/-- A visibility text is there only for names that pass. -/
theorem visibleText_eq {repr : String → String} {spec : TableSpec} {w : Window} {text : String}
    (h : visibleText repr spec w = .ok text) :
    text = "SELECT " ++ ", ".intercalate (spec.allColumnNames.map dq) ++ " FROM "
        ++ dq (physName spec.name) ++ " WHERE " ++ " AND ".intercalate (asofConds w)
      ∧ identOk (physName spec.name) = true ∧ ∀ c ∈ spec.allColumnNames, identOk c = true := by
  unfold visibleText at h
  match hcols : spec.allColumnNames.mapM (identText repr),
    hphys : identText repr (physName spec.name) with
  | .error e, _ => simp [hcols, bind, Except.bind] at h
  | .ok cols, .error e => simp [hcols, hphys, bind, Except.bind] at h
  | .ok cols, .ok phys =>
    simp only [hcols, hphys, bind, Except.bind, Except.ok.injEq] at h
    subst h
    obtain ⟨rfl, hnames⟩ := mapM_identText hcols
    obtain ⟨rfl, hok⟩ := identText_ok hphys
    exact ⟨rfl, hok, hnames⟩

theorem visibleText_still {repr : String → String} {spec : TableSpec} {w : Window} {text : String}
    (hw : w.Dated) (h : visibleText repr spec w = .ok text) : Still text := by
  obtain ⟨rfl, hphys, hnames⟩ := visibleText_eq h
  have hlist : Still (", ".intercalate (spec.allColumnNames.map dq)) := by
    refine still_intercalate (by decide +kernel) fun s hs => ?_
    obtain ⟨c, hc, rfl⟩ := List.mem_map.mp hs
    exact still_dq (calm_ident (hnames c hc))
  refine Still.append (Still.append (Still.append (Still.append (Still.append ?_ hlist) ?_)
    (still_dq (calm_ident hphys))) ?_) (still_asof hw)
  · decide +kernel
  · decide +kernel
  · decide +kernel

/-- The names a search pastes open nothing. -/
structure VssNames.Safe (n : VssNames) : Prop where
  pk : Calm n.pk
  phys : Calm n.phys
  vc : Calm n.vc
  tc : Calm n.tc
  vis : Still n.vis
  visible : Still n.visible

/-- What is pasted, of names that pass. -/
theorem vssNames_eq {repr : String → String} {dim : Nat} {spec : TableSpec} {col : String} {k : Nat}
    {w : Window} {n : VssNames} (hcol : col ∈ spec.searchable) (h : vssNames repr dim spec col k w = .ok n) :
    identOk n.pk = true ∧ identOk n.phys = true ∧ identOk col = true ∧ n.vc = "_vec_" ++ col
      ∧ n.tc = "_tok_" ++ col ∧ n.vis = " AND ".intercalate (asofConds w)
      ∧ visibleText repr spec w = .ok n.visible := by
  unfold vssNames at h
  match hvis : visibleText repr spec w, hpk : identText repr spec.primaryKey with
  | .error e, _ => simp [hvis, bind, Except.bind] at h
  | .ok visible, .error e => simp [hvis, hpk, bind, Except.bind] at h
  | .ok visible, .ok pk =>
    simp only [hvis, hpk, bind, Except.bind, Except.ok.injEq] at h
    subst h
    obtain ⟨-, hphys, hnames⟩ := visibleText_eq hvis
    obtain ⟨c, hc, rfl, -⟩ := spec.searchableOk col hcol
    exact ⟨(identText_ok hpk).2, hphys, hnames _ (List.mem_append_left _ (List.mem_map_of_mem hc)),
      rfl, rfl, rfl, rfl⟩

theorem vssNames_ok {repr : String → String} {dim : Nat} {spec : TableSpec} {col : String} {k : Nat}
    {w : Window} {n : VssNames} (hw : w.Dated) (hcol : col ∈ spec.searchable)
    (h : vssNames repr dim spec col k w = .ok n) : n.Safe := by
  obtain ⟨hpk, hphys, hname, hvc, htc, hvis, hvisible⟩ := vssNames_eq hcol h
  have hlit (s : String) (hs : (s.toList.all fun c => isIdentChar c) = true) : Calm s :=
    calm_of (P := isIdentChar) rfl rfl rfl rfl (List.all_eq_true.mp hs)
  exact {
    pk := calm_ident hpk
    phys := calm_ident hphys
    vc := hvc ▸ (hlit _ (by decide +kernel)).append (calm_ident hname)
    tc := htc ▸ (hlit _ (by decide +kernel)).append (calm_ident hname)
    vis := hvis ▸ still_asof hw
    visible := visibleText_still hw hvisible }

section Search

variable {n : VssNames} (hn : n.Safe)
include hn

theorem still_fts : Still n.fts := by
  have hlit : Calm "fts_main_" :=
    calm_of (P := isIdentChar) rfl rfl rfl rfl (List.all_eq_true.mp (by decide +kernel))
  exact (hlit.append hn.phys).still

theorem still_beforeVector : Still n.beforeVector := by
  unfold VssNames.beforeVector
  repeat' with_reducible apply Still.append
  all_goals first
    | with_reducible exact still_dq hn.pk
    | with_reducible exact still_dq hn.vc
    | decide +kernel

theorem still_beforeTokens : Still n.beforeTokens := by
  unfold VssNames.beforeTokens
  repeat' with_reducible apply Still.append
  all_goals first
    | with_reducible exact still_dq hn.pk
    | with_reducible exact still_dq hn.vc
    | with_reducible exact still_dq hn.phys
    | with_reducible exact hn.vis
    | with_reducible exact still_fts hn
    | with_reducible exact (calm_repr _).still
    | decide +kernel

theorem still_beforeFilter : Still n.beforeFilter := by
  unfold VssNames.beforeFilter
  repeat' with_reducible apply Still.append
  all_goals first
    | with_reducible exact still_dq hn.pk
    | with_reducible exact still_dq hn.phys
    | with_reducible exact still_sq hn.tc
    | with_reducible exact still_fts hn
    | decide +kernel

theorem still_afterFilter : Still n.afterFilter := by
  unfold VssNames.afterFilter
  repeat' with_reducible apply Still.append
  all_goals first
    | with_reducible exact still_dq hn.pk
    | with_reducible exact still_sq hn.tc
    | with_reducible exact hn.vis
    | with_reducible exact hn.visible
    | with_reducible exact (calm_repr _).still
    | decide +kernel

end Search

/-! ## What a statement says -/

/-- An emitted statement has a value for each placeholder, and with them it says this. -/
structure Emits (sql : String) (vals : List Val) (said : Filled) : Prop where
  closed : (Scan.code false).over sql.toList = .code false
  fed : vals.length = holes (.code false) sql.toList
  filled : fill (.code false) sql.toList vals = said

theorem fill_mark (cs : List Char) (v : Val) (vs : List Val) :
    fill (.code false) ('?' :: cs) (v :: vs) = .inr v :: fill (.code false) cs vs := rfl

theorem holes_mark (cs : List Char) : holes (.code false) ('?' :: cs) = holes (.code false) cs + 1 := rfl

theorem over_mark (cs : List Char) : (Scan.code false).over ('?' :: cs) = (Scan.code false).over cs := rfl

theorem Still.emits {s : String} (h : Still s) : Emits s [] (ofText s) where
  closed := h.closed
  fed := (holes_of_not_mem _ h.noMark).symm
  filled := fill_of_no_holes _ (holes_of_not_mem _ h.noMark) []

/-- Text, a placeholder, and a statement behind it. -/
theorem Emits.mark {a sql : String} {vals : List Val} {said : Filled} (ha : Still a)
    (h : Emits sql vals said) (v : Val) :
    Emits (a ++ "?" ++ sql) (v :: vals) (ofText a ++ .inr v :: said) := by
  have htext : (a ++ "?" ++ sql).toList = a.toList ++ '?' :: sql.toList := by
    rw [String.toList_append, String.toList_append, List.append_assoc]
    rfl
  refine ⟨?_, ?_, ?_⟩
  · rw [htext, Scan.over_append, ha.closed, over_mark, h.closed]
  · rw [htext, Silent.holes_append ha, holes_mark, ← h.fed, List.length_cons]
  · rw [htext, Silent.fill_append ha, fill_mark, h.filled]
    rfl

/-- The fusion has the vector at the distance and the tokens at both scores. -/
theorem VssNames.Safe.emits {n : VssNames} (hn : n.Safe) (qvec qtok : Val) :
    Emits n.sql [qvec, qtok, qtok] (n.filled qvec qtok) := by
  have hlast := (still_afterFilter hn).emits
  have hall := Emits.mark (still_beforeVector hn)
    (Emits.mark (still_beforeTokens hn) (Emits.mark (still_beforeFilter hn) hlast qtok) qtok) qvec
  have htext : n.sql = n.beforeVector ++ "?" ++ (n.beforeTokens ++ "?" ++ (n.beforeFilter ++ "?"
      ++ n.afterFilter)) := by
    simp only [VssNames.sql, String.append_assoc]
  rw [htext]
  exact hall

/-- What `str.isalnum` is relied on for: none of these is a letter or a digit. -/
structure AlnumLaws (alnum : Char → Bool) : Prop where
  one : alnum '\'' = false
  two : alnum '"' = false
  pipe : alnum '|' = false
  mark : alnum '?' = false

def grepHead (field : String) : String :=
  "SELECT * FROM _in WHERE regexp_matches(CAST(" ++ dq field ++ " AS VARCHAR), "

theorem calm_field {alnum : Char → Bool} (hal : AlnumLaws alnum) {field : String}
    (hfield : grepField alnum field = true) : Calm field := by
  refine calm_of (P := fun c => c == '_' || alnum c) ?_ ?_ ?_ ?_ ?_
  · simp [hal.one]
  · simp [hal.two]
  · simp [hal.pipe]
  · simp [hal.mark]
  · intro c hc
    rw [grepField, Bool.and_eq_true, List.all_eq_true] at hfield
    by_cases hu : c = '_'
    · simp [hu]
    · have hmem : c ∈ field.toList.filter (· != '_') := List.mem_filter.mpr ⟨hc, by simpa using hu⟩
      simp [hfield.2 c hmem]

theorem grepSql_text (field : String) : grepSql "_in" field = grepHead field ++ "?" ++ ")" := by
  have hopen : "SELECT * FROM " ++ "_in" ++ " WHERE regexp_matches(CAST(\""
      = "SELECT * FROM _in WHERE regexp_matches(CAST(" ++ "\"" := by decide +kernel
  have hclose : "\" AS VARCHAR), ?)" = "\"" ++ (" AS VARCHAR), " ++ ("?" ++ ")")) := by decide +kernel
  have hassoc (a q f m t e : String) :
      (a ++ q) ++ f ++ (q ++ (m ++ (t ++ e))) = (a ++ (q ++ f ++ q) ++ m) ++ t ++ e := by
    simp only [String.append_assoc]
  exact (congrArg₂ (fun a b => a ++ field ++ b) hopen hclose).trans (hassoc _ _ _ _ _ _)

theorem grep_emits {alnum : Char → Bool} (hal : AlnumLaws alnum) {field : String}
    (hfield : grepField alnum field = true) (v : Val) :
    Emits (grepSql "_in" field) [v] (ofText (grepHead field) ++ .inr v :: ofText ")") := by
  have hhead : Still (grepHead field) :=
    Still.append (Still.append (by decide +kernel) (still_dq (calm_field hal hfield))) (by decide +kernel)
  have hlast : Still ")" := by decide +kernel
  rw [grepSql_text]
  exact Emits.mark hhead hlast.emits v

section Said

variable (repr : String → String) (schema : Schema) (dim : Nat)
  (embed : Option (String → Except PipeExc (Val × String))) (w : Window)

/-- What a segment of a built-in duck operator says, with the values that belong to it. -/
def Says : Args → Filled → Prop
  | .search table text col k _, said =>
    ∃ spec c e qvec qtok n, schema.table table = some spec ∧ searchCol table spec col = .ok c
      ∧ embed = some e ∧ e text = .ok (qvec, qtok) ∧ vssNames repr dim spec c k w = .ok n
      ∧ said = n.filled qvec (.json (.str qtok))
  | .scan table _, said =>
    ∃ spec text, schema.table table = some spec ∧ visibleText repr spec w = .ok text
      ∧ said = ofText text
  | .grep pattern field, said =>
    said = ofText (grepHead field) ++ .inr (.json (.str pattern)) :: ofText ")"
  | _, _ => False

variable {repr schema dim embed w}

theorem specOf_ok {table : String} {spec : TableSpec} (h : specOf schema table = .ok spec) :
    schema.table table = some spec := by
  unfold specOf at h
  split at h
  · next hs => rw [hs, Except.ok.inj h]
  · cases h

theorem searchCol_mem {table : String} {spec : TableSpec} {col : Option String} {c : String}
    (h : searchCol table spec col = .ok c) : c ∈ spec.searchable := by
  cases col with
  | none =>
    rw [searchCol] at h
    split at h
    · next hs =>
      rw [hs, Except.ok.inj h]
      exact List.mem_cons_self
    · cases h
  | some d =>
    rw [searchCol] at h
    split at h
    · next hd =>
      rw [← Except.ok.inj h]
      exact hd
    · cases h

/-- What `prepare` leaves of a search. -/
theorem search_lowered {args args' : Args}
    (h : searchPrepare (storeCtx repr schema dim embed w) args = .ok args') :
    ∃ table text c k spec e qvec qtok n, args' = .search table text (some c) k
        (some (n.sql, [qvec, .json (.str qtok), .json (.str qtok)]))
      ∧ schema.table table = some spec ∧ c ∈ spec.searchable ∧ embed = some e
      ∧ e text = .ok (qvec, qtok) ∧ vssNames repr dim spec c k w = .ok n := by
  cases args with
  | search table text col k lowered =>
    unfold searchPrepare at h
    match hspec : specOf schema table with
    | .error e => simp [storeCtx, hspec, bind, Except.bind] at h
    | .ok spec =>
      match hcol : searchCol table spec col, hembed : embed with
      | .error e, _ => simp [storeCtx, hspec, hcol, bind, Except.bind] at h
      | .ok c, none => simp [storeCtx, hspec, hcol, bind, Except.bind] at h
      | .ok c, some embed' =>
        match hvec : embed' text with
        | .error e => simp [storeCtx, hspec, hcol, hvec, bind, Except.bind] at h
        | .ok (qvec, qtok) =>
          match hnames : vssNames repr dim spec c k w with
          | .error e => simp [storeCtx, hspec, hcol, hvec, hnames, bind, Except.bind] at h
          | .ok n =>
            simp only [storeCtx, hspec, hcol, hvec, hnames, bind, Except.bind, Except.ok.injEq] at h
            subst h
            exact ⟨table, text, c, k, spec, embed', qvec, qtok, n, rfl, specOf_ok hspec,
              searchCol_mem hcol, rfl, hvec, hnames⟩
  | _ => cases h

theorem search_prepared {args args' : Args}
    (h : searchPrepare (storeCtx repr schema dim embed w) args = .ok args') (hw : w.Dated) :
    ∃ table text col k sql vals said, args' = .search table text col k (some (sql, vals))
      ∧ Says repr schema dim embed w args' said ∧ Emits sql vals said := by
  obtain ⟨table, text, c, k, spec, e, qvec, qtok, n, rfl, hspec, hmem, hembed, hvec, hnames⟩ :=
    search_lowered h
  have hcol : searchCol table spec (some c) = .ok c := by rw [searchCol, if_pos hmem]
  exact ⟨table, text, some c, k, n.sql, _, _, rfl, ⟨spec, c, e, qvec, qtok, n, hspec, hcol, hembed, hvec,
    hnames, rfl⟩, (vssNames_ok hw hmem hnames).emits _ _⟩

/-- What `prepare` leaves of a scan. -/
theorem scan_lowered {args args' : Args}
    (h : scanPrepare (storeCtx repr schema dim embed w) args = .ok args') :
    ∃ table spec sql, args' = .scan table (some sql) ∧ schema.table table = some spec
      ∧ visibleText repr spec w = .ok sql := by
  cases args with
  | scan table lowered =>
    unfold scanPrepare at h
    match hspec : specOf schema table with
    | .error e => simp [storeCtx, hspec, bind, Except.bind] at h
    | .ok spec =>
      match hvis : visibleText repr spec w with
      | .error e => simp [storeCtx, hspec, hvis, bind, Except.bind] at h
      | .ok sql =>
        simp only [storeCtx, hspec, hvis, bind, Except.bind, Except.ok.injEq] at h
        subst h
        exact ⟨table, spec, sql, rfl, specOf_ok hspec, hvis⟩
  | _ => cases h

theorem scan_prepared {args args' : Args}
    (h : scanPrepare (storeCtx repr schema dim embed w) args = .ok args') (hw : w.Dated) :
    ∃ table sql said, args' = .scan table (some sql)
      ∧ Says repr schema dim embed w args' said ∧ Emits sql [] said := by
  obtain ⟨table, spec, sql, rfl, hspec, hvis⟩ := scan_lowered h
  exact ⟨table, sql, _, rfl, ⟨spec, sql, hspec, hvis, rfl⟩, (visibleText_still hw hvis).emits⟩

/-- Prepared, a built-in operator emits what it says, as a source or behind another stage. -/
theorem builtin_emits {ι : Type} {alnum : Char → Bool} (hal : AlnumLaws alnum) (hw : w.Dated)
    {op : Operator ι Args} (hop : op ∈ builtinOperators alnum) {h : Held ι} {key : String}
    {args args' : Args}
    (hprep : (prepareArgs (storeCtx repr schema dim embed w) h key op args).result = .ok args')
    {self : ι} {sql : String} {vals : List Val}
    (hcode : (∃ code, op.optimizeDuck = some (.source code) ∧ code self args' = .ok (sql, vals))
      ∨ ∃ code, op.optimizeDuck = some (.middle code) ∧ code self "_in" args' = .ok (sql, vals)) :
    ∃ said, Says repr schema dim embed w args' said ∧ Emits sql vals said := by
  simp only [builtinOperators, List.mem_cons, List.not_mem_nil, or_false] at hop
  rcases hop with rfl | rfl | rfl | rfl | rfl | rfl | rfl
  · obtain ⟨table, text, col, k, sql', vals', said, rfl, hsays, hemits⟩ := search_prepared hprep hw
    rcases hcode with ⟨code, hform, hrun⟩ | ⟨code, hform, -⟩
    · cases hform
      obtain ⟨rfl, rfl⟩ := Prod.mk.inj (Except.ok.inj hrun)
      exact ⟨said, hsays, hemits⟩
    · cases hform
  · obtain ⟨table, sql', said, rfl, hsays, hemits⟩ := scan_prepared hprep hw
    rcases hcode with ⟨code, hform, hrun⟩ | ⟨code, hform, -⟩
    · cases hform
      obtain ⟨rfl, rfl⟩ := Prod.mk.inj (Except.ok.inj hrun)
      exact ⟨said, hsays, hemits⟩
    · cases hform
  · rcases hcode with ⟨code, hform, -⟩ | ⟨code, hform, hrun⟩
    · cases hform
    · cases hform
      cases args' with
      | grep pattern field =>
        dsimp only at hrun
        split at hrun
        · next hfield =>
          obtain ⟨rfl, rfl⟩ := Prod.mk.inj (Except.ok.inj hrun)
          exact ⟨_, rfl, grep_emits hal hfield _⟩
        · cases hrun
      | _ => cases hrun
  all_goals
    rcases hcode with ⟨code, hform, -⟩ | ⟨code, hform, -⟩
    · cases hform
    · cases hform

end Said

end Seekbase
