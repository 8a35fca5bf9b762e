/-
# Seekbase.Create — the tables of a parsed schema, and which schemas have them all.

What the parser lets through is pasted into CREATE TABLE statements by another module, which checks
each name once more and leaves the rest to DuckDB: that the columns are distinct, that a decimal is
not too wide.  A name that is taken, `IF NOT EXISTS` passes over in silence.  DuckDB compares names
without their case.

* `tableDdl`, `createTables` — `_create_tables`, against a catalog;
* `CreatesOwn`               — every statement is legal and creates its own table;
* `Sane`                     — what that takes of the parsed tables;
* `complete_iff`             — which inputs are rejected with a SchemaError or have all their tables.
-/
import Seekbase.Parse

namespace Seekbase

open JsonText

/-! ## Statements -/

/-- `_IDENT`. -/
def identOk (name : String) : Bool :=
  match dollar name.toList with
  | c :: cs => isIdentStart c && cs.all isIdentChar
  | [] => false

/-- `_ident`, but for the quotes. -/
def ident : Json → Except SchemaFail String
  | .str name => if identOk name then .ok name else .error (.foreign "QueryError")
  | _ => .error (.foreign "TypeError")

inductive ColType where
  | declared (t : SqlType)
  | varchar
  | vector

/-- A CREATE TABLE statement. -/
structure Ddl where
  table : String
  columns : List (String × ColType)
  primary : String

/-- An identifier as DuckDB compares it. -/
def folded (name : String) : List Char := name.toList.map Char.toLower

/-- DuckDB accepts the statement. -/
structure Ddl.Legal (d : Ddl) : Prop where
  distinct : (d.columns.map fun c => folded c.1).Nodup
  decimals : ∀ c ∈ d.columns, ∀ p s, c.2 = .declared (.decimal p s) → p ≤ 38
  primary : folded d.primary ∈ d.columns.map fun c => folded c.1

def ColType.narrow : ColType → Bool
  | .declared (.decimal p _) => p ≤ 38
  | _ => true

instance (d : Ddl) : Decidable d.Legal :=
  decidable_of_iff ((d.columns.map fun c => folded c.1).Nodup ∧ (∀ c ∈ d.columns, c.2.narrow = true)
      ∧ folded d.primary ∈ d.columns.map fun c => folded c.1) <| by
    constructor
    · rintro ⟨hd, hn, hp⟩
      refine ⟨hd, fun c hc p s heq => ?_, hp⟩
      have hnarrow := hn c hc
      rw [heq] at hnarrow
      exact of_decide_eq_true hnarrow
    · rintro ⟨hd, hn, hp⟩
      refine ⟨hd, fun c hc => ?_, hp⟩
      cases htype : c.2 with
      | declared t =>
        cases t with
        | decimal p s => exact decide_eq_true (hn c hc p s htype)
        | _ => rfl
      | _ => rfl

section Statements

variable (py : Python)

/-- `veccol` and `tokcol`. -/
def searchNames (col : Json) : List String := ["_vec_" ++ py.text col, "_tok_" ++ py.text col]

/-- The two columns of a searchable one. -/
def searchDefs (col : Json) : Except SchemaFail (List (String × ColType)) := do
  let vec ← ident (.str ("_vec_" ++ py.text col))
  let tok ← ident (.str ("_tok_" ++ py.text col))
  pure [(vec, .vector), (tok, .varchar)]

def physText (t : ParsedTable) : String := "_sb_" ++ py.text t.name

/-- The statement for one table. -/
def tableDdl (vss : Bool) (t : ParsedTable) : Except SchemaFail Ddl := do
  let columns ← t.columns.mapM fun c => (ident c.name).map fun n => (n, ColType.declared c.sqlType)
  let search ← (if vss then t.searchable.mapM (searchDefs py) else .ok [])
  let primary ← ident t.primary
  let table ← ident (.str (physText py t))
  pure ⟨table, columns ++ metaColumns.map (·, .varchar) ++ search.flatten, primary⟩

/-- `_create_tables`, over the names the catalog has: of each statement whether it creates a table. -/
def createTables (vss : Bool) : List (List Char) → List ParsedTable → Option (List Bool)
  | _, [] => some []
  | catalog, t :: ts =>
    match tableDdl py vss t with
    | .error _ => none
    | .ok d =>
      if d.Legal then
        if folded d.table ∈ catalog then (createTables vss catalog ts).map (false :: ·)
        else (createTables vss (catalog ++ [folded d.table]) ts).map (true :: ·)
      else none

/-- Every statement is legal and creates its own table. -/
def CreatesOwn (vss : Bool) (tables : List ParsedTable) : Prop :=
  ∃ created, createTables py vss [] tables = some created ∧ ∀ b ∈ created, b = true

/-! ## What it takes -/

/-- All column names of a table, as DuckDB compares them. -/
def columnFolds (vss : Bool) (t : ParsedTable) : List (List Char) :=
  (t.columns.map (fun c => py.text c.name) ++ metaColumns
    ++ (if vss then t.searchable.flatMap (searchNames py) else [])).map folded

structure ParsedTable.Sane (t : ParsedTable) : Prop where
  names : ∀ c ∈ t.columns, ∃ name, c.name = .str name ∧ identOk name = true
  distinct : (columnFolds py true t).Nodup
  table : identOk (physText py t) = true
  decimals : ∀ c ∈ t.columns, ∀ p s, c.sqlType = .decimal p s → p ≤ 38

/-- Tables that are all right, and are apart. -/
structure Sane (tables : List ParsedTable) : Prop where
  each : ∀ t ∈ tables, t.Sane py
  apart : (tables.map fun t => folded (physText py t)).Nodup

/-- What the parser has checked of the names in a table spec. -/
structure ParsedTable.Declares (t : ParsedTable) : Prop where
  primary : ∃ c ∈ t.columns, py.same t.primary c.name = true
  searchable : ∀ s ∈ t.searchable, ∃ c ∈ t.columns, py.same s c.name = true

/-- The statement without its checks. -/
def ddlOf (vss : Bool) (t : ParsedTable) : Ddl :=
  ⟨physText py t, t.columns.map (fun c => (py.text c.name, ColType.declared c.sqlType))
    ++ metaColumns.map (·, .varchar)
    ++ (if vss then t.searchable.flatMap fun s =>
        [("_vec_" ++ py.text s, .vector), ("_tok_" ++ py.text s, .varchar)] else []),
    py.text t.primary⟩

variable {py} {vss : Bool} {t : ParsedTable}

@[simp] theorem text_str (name : String) : py.text (.str name) = name := rfl

theorem ident_ok_iff {j : Json} {name : String} :
    ident j = .ok name ↔ j = .str name ∧ identOk name = true := by
  cases j with
  | str s =>
    rw [ident]
    split
    · next hs =>
      constructor
      · intro h
        rcases Except.ok.inj h with rfl
        exact ⟨rfl, hs⟩
      · rintro ⟨h, -⟩
        rw [Json.str.inj h]
    · next hs =>
      constructor
      · intro h
        cases h
      · rintro ⟨h, hname⟩
        rw [← Json.str.inj h] at hname
        exact absurd hname hs
  | _ => simp [ident]

theorem identOk_append {a : String} {c : Char} {cs : List Char} (ha : a.toList = c :: cs)
    (hc : isIdentStart c = true) (hcs : cs.all isIdentChar = true) {name : String}
    (h : identOk name = true) : identOk (a ++ name) = true := by
  unfold identOk at h ⊢
  -- a text that is empty but for the line feed is no identifier, so the line feed stays at the end
  have hne : name.toList ≠ [] := by
    intro hnil
    rw [hnil] at h
    cases h
  have hdollar : dollar (a ++ name).toList = c :: (cs ++ dollar name.toList) := by
    rw [String.toList_append, ha, dollar, dollar, List.cons_append,
      show c :: (cs ++ name.toList) = (c :: cs) ++ name.toList from rfl,
      List.getLast?_append_of_ne_nil _ hne]
    split
    · rw [List.dropLast_append_of_ne_nil hne]
      rfl
    · rfl
  rw [hdollar]
  match hname : dollar name.toList, h with
  | d :: ds, h =>
    rw [Bool.and_eq_true] at h ⊢
    refine ⟨hc, ?_⟩
    rw [List.all_append, hcs, Bool.true_and, List.all_cons, h.2, Bool.and_true, isIdentChar, h.1,
      Bool.true_or]

theorem vec_ok {name : String} (h : identOk name = true) : identOk ("_vec_" ++ name) = true :=
  identOk_append (show "_vec_".toList = '_' :: ['v', 'e', 'c', '_'] from rfl) (by decide) (by decide) h

theorem tok_ok {name : String} (h : identOk name = true) : identOk ("_tok_" ++ name) = true :=
  identOk_append (show "_tok_".toList = '_' :: ['t', 'o', 'k', '_'] from rfl) (by decide) (by decide) h

/-- A declared name that is a text is the declared name. -/
theorem same_name {j : Json} {name : String} (h : py.same j (.str name) = true) : j = .str name := by
  cases j with
  | str s =>
    rw [py.same_str, beq_iff_eq] at h
    rw [h]
  | _ =>
    rw [py.same_right name _ (by simp)] at h
    cases h

/-- The names of a table are identifiers. -/
def ParsedTable.Idents (py : Python) (t : ParsedTable) : Prop :=
  (∀ c ∈ t.columns, ∃ name, c.name = .str name ∧ identOk name = true)
    ∧ identOk (physText py t) = true

/-- A name that is among the declared ones is an identifier when all of these are. -/
theorem declared_ident {j : Json} (h : ∃ c ∈ t.columns, py.same j c.name = true)
    (hnames : ∀ c ∈ t.columns, ∃ name, c.name = .str name ∧ identOk name = true) :
    ∃ c ∈ t.columns, c.name = j ∧ ∃ name, j = .str name ∧ identOk name = true := by
  obtain ⟨c, hc, hsame⟩ := h
  obtain ⟨name, hname, hok⟩ := hnames c hc
  rw [hname] at hsame
  have hj := same_name hsame
  exact ⟨c, hc, hname.trans hj.symm, name, hj, hok⟩

theorem searchDefs_ok {col : Json} (h : ∃ name, col = .str name ∧ identOk name = true) :
    searchDefs py col
      = .ok [("_vec_" ++ py.text col, .vector), ("_tok_" ++ py.text col, .varchar)] := by
  obtain ⟨name, rfl, hname⟩ := h
  rw [searchDefs, text_str, ident_ok_iff.mpr ⟨rfl, vec_ok hname⟩, ident_ok_iff.mpr ⟨rfl, tok_ok hname⟩]
  rfl

theorem ident_text {c : ParsedColumn} {x : String × ColType} :
    (ident c.name).map (fun n => (n, ColType.declared c.sqlType)) = .ok x
      ↔ (∃ name, c.name = .str name ∧ identOk name = true)
        ∧ x = (py.text c.name, .declared c.sqlType) := by
  constructor
  · intro h
    cases hident : ident c.name with
    | error e =>
      rw [hident] at h
      cases h
    | ok name =>
      rw [hident] at h
      obtain ⟨hname, hok⟩ := ident_ok_iff.mp hident
      refine ⟨⟨name, hname, hok⟩, ?_⟩
      rw [hname, text_str]
      exact (Except.ok.inj h).symm
  · rintro ⟨⟨name, hname, hok⟩, rfl⟩
    rw [ident_ok_iff.mpr ⟨hname, hok⟩, hname]
    rfl

/-- The columns of the searchable ones, which the parser has found among the declared. -/
theorem searchable_ok (hd : t.Declares py)
    (hnames : ∀ c ∈ t.columns, ∃ name, c.name = .str name ∧ identOk name = true) :
    ∃ defs, (if vss then t.searchable.mapM (searchDefs py) else .ok []) = .ok defs
      ∧ defs.flatten = if vss then t.searchable.flatMap fun s =>
        [("_vec_" ++ py.text s, .vector), ("_tok_" ++ py.text s, .varchar)] else [] := by
  cases vss with
  | false => exact ⟨[], rfl, rfl⟩
  | true =>
    refine ⟨t.searchable.map fun s =>
      [("_vec_" ++ py.text s, .vector), ("_tok_" ++ py.text s, .varchar)], ?_, ?_⟩
    · rw [if_pos rfl, mapM_ok_iff, List.forall₂_map_right_iff, List.forall₂_same]
      intro s hs
      obtain ⟨c, -, -, hname⟩ := declared_ident (hd.searchable s hs) hnames
      exact searchDefs_ok hname
    · rw [if_pos rfl, List.flatMap_def]

/-- The statement is built exactly when the names are identifiers. -/
theorem tableDdl_ok_iff (hd : t.Declares py) {d : Ddl} :
    tableDdl py vss t = .ok d ↔ t.Idents py ∧ d = ddlOf py vss t := by
  have hcolumns : ∀ {ys}, (t.columns.mapM fun c =>
        (ident c.name).map fun n => (n, ColType.declared c.sqlType)) = .ok ys
      ↔ (∀ c ∈ t.columns, ∃ name, c.name = .str name ∧ identOk name = true)
        ∧ ys = t.columns.map fun c => (py.text c.name, ColType.declared c.sqlType) :=
    mapM_ok_map_iff fun c _ x => ident_text
  have hprimary : (∀ c ∈ t.columns, ∃ name, c.name = .str name ∧ identOk name = true) →
      ident t.primary = .ok (py.text t.primary) := by
    intro hnames
    obtain ⟨c, -, -, name, hname, hok⟩ := declared_ident hd.primary hnames
    rw [hname]
    exact ident_ok_iff.mpr ⟨rfl, hok⟩
  unfold tableDdl
  simp only [bind_ok_iff]
  constructor
  · rintro ⟨cols, hcols, search, hs, primary, hp, table, htable, hd'⟩
    obtain ⟨hnames, rfl⟩ := hcolumns.mp hcols
    obtain ⟨hphys, hok⟩ := ident_ok_iff.mp htable
    obtain ⟨defs, hdefs, hflat⟩ := @searchable_ok py vss t hd hnames
    rw [hprimary hnames, Except.ok.injEq] at hp
    rw [hdefs, Except.ok.injEq] at hs
    refine ⟨⟨hnames, Json.str.inj hphys ▸ hok⟩, ?_⟩
    rw [← Except.ok.inj hd', ← hp, ← Json.str.inj hphys, ← hs, hflat]
    rfl
  · rintro ⟨⟨hnames, hok⟩, rfl⟩
    obtain ⟨defs, hdefs, hflat⟩ := @searchable_ok py vss t hd hnames
    refine ⟨_, hcolumns.mpr ⟨hnames, rfl⟩, defs, hdefs, _, hprimary hnames, _,
      ident_ok_iff.mpr ⟨rfl, hok⟩, ?_⟩
    rw [hflat]
    rfl

theorem ddl_folds : (ddlOf py vss t).columns.map (fun c => folded c.1) = columnFolds py vss t := by
  cases vss <;> simp [ddlOf, columnFolds, searchNames, List.map_flatMap, Function.comp_def]

theorem ddl_decimals : (∀ c ∈ (ddlOf py vss t).columns, ∀ p s, c.2 = .declared (.decimal p s) → p ≤ 38)
    ↔ ∀ c ∈ t.columns, ∀ p s, c.sqlType = .decimal p s → p ≤ 38 := by
  constructor
  · intro h c hc p s htype
    refine h (py.text c.name, .declared c.sqlType) ?_ p s (congrArg ColType.declared htype)
    rw [ddlOf, List.mem_append, List.mem_append]
    exact .inl (.inl (List.mem_map_of_mem hc))
  · intro h c hc p s htype
    rw [ddlOf, List.mem_append, List.mem_append] at hc
    rcases hc with (hc | hc) | hc
    · obtain ⟨d, hd, rfl⟩ := List.mem_map.mp hc
      exact h d hd p s (ColType.declared.inj htype)
    · obtain ⟨name, -, rfl⟩ := List.mem_map.mp hc
      cases htype
    · cases vss with
      | false => cases hc
      | true =>
        obtain ⟨s', -, hc⟩ := List.mem_flatMap.mp hc
        rcases List.mem_pair.mp hc with rfl | rfl <;> cases htype

/-- The key is among the declared columns, so it is among the columns of the statement. -/
theorem ddl_primary (hd : t.Declares py) (hi : t.Idents py) :
    folded (ddlOf py vss t).primary ∈ (ddlOf py vss t).columns.map fun c => folded c.1 := by
  obtain ⟨c, hc, hname, -⟩ := declared_ident hd.primary hi.1
  rw [ddl_folds, columnFolds, List.map_append, List.map_append, List.mem_append, List.mem_append,
    List.map_map]
  refine .inl (.inl (List.mem_map.mpr ⟨c, hc, ?_⟩))
  show folded (py.text c.name) = folded (py.text t.primary)
  rw [hname]

theorem ddl_legal_iff (hd : t.Declares py) (hi : t.Idents py) : (ddlOf py vss t).Legal
    ↔ (columnFolds py vss t).Nodup ∧ ∀ c ∈ t.columns, ∀ p s, c.sqlType = .decimal p s → p ≤ 38 := by
  constructor
  · intro h
    exact ⟨ddl_folds ▸ h.distinct, ddl_decimals.mp h.decimals⟩
  · rintro ⟨hfolds, hdec⟩
    exact ⟨ddl_folds ▸ hfolds, ddl_decimals.mpr hdec, ddl_primary hd hi⟩

/-- A table is created with its own statement, and the next ones against a catalog that has it. -/
theorem createTables_cons {catalog : List (List Char)} {ts : List ParsedTable}
    (hd : t.Declares py) : (∃ created, createTables py vss catalog (t :: ts) = some created
        ∧ ∀ b ∈ created, b = true)
      ↔ (t.Idents py ∧ (ddlOf py vss t).Legal ∧ folded (physText py t) ∉ catalog)
        ∧ ∃ created, createTables py vss (catalog ++ [folded (physText py t)]) ts = some created
          ∧ ∀ b ∈ created, b = true := by
  constructor
  · rintro ⟨created, hcreated, hall⟩
    rw [createTables] at hcreated
    split at hcreated
    · cases hcreated
    · next d hddl =>
      obtain ⟨hi, rfl⟩ := (tableDdl_ok_iff hd).mp hddl
      split at hcreated
      · next hlegal =>
        split at hcreated
        · obtain ⟨rest, -, rfl⟩ := Option.map_eq_some_iff.mp hcreated
          exact absurd (hall false (by simp)) (by decide)
        · next hfree =>
          obtain ⟨rest, hrest, rfl⟩ := Option.map_eq_some_iff.mp hcreated
          exact ⟨⟨hi, hlegal, hfree⟩, rest, hrest, fun b hb => hall b (by simp [hb])⟩
      · cases hcreated
  · rintro ⟨⟨hi, hlegal, hfree⟩, created, hcreated, hall⟩
    refine ⟨true :: created, ?_, by simpa using hall⟩
    have hddl : tableDdl py vss t = .ok (ddlOf py vss t) := (tableDdl_ok_iff hd).mpr ⟨hi, rfl⟩
    have hname : (ddlOf py vss t).table = physText py t := rfl
    rw [createTables, hddl]
    dsimp only
    rw [if_pos hlegal, hname, if_neg hfree, hcreated]
    rfl

/-- Which tables are all created. -/
theorem createTables_iff {catalog : List (List Char)} {ts : List ParsedTable}
    (hd : ∀ t ∈ ts, t.Declares py) : (∃ created, createTables py vss catalog ts = some created
        ∧ ∀ b ∈ created, b = true)
      ↔ (∀ t ∈ ts, t.Idents py ∧ (ddlOf py vss t).Legal)
        ∧ (ts.map fun t => folded (physText py t)).Nodup
        ∧ ∀ t ∈ ts, folded (physText py t) ∉ catalog := by
  induction ts generalizing catalog with
  | nil => simp [createTables]
  | cons t ts ih =>
    rw [createTables_cons (hd t (by simp)), ih fun t ht => hd t (by simp [ht]), List.map_cons,
      List.nodup_cons, List.forall_mem_cons, List.forall_mem_cons]
    constructor
    · rintro ⟨⟨hi, hlegal, hfree⟩, heach, hnodup, hrest⟩
      refine ⟨⟨⟨hi, hlegal⟩, heach⟩, ⟨?_, hnodup⟩, hfree, ?_⟩
      · intro hmem
        obtain ⟨u, hu, heq⟩ := List.mem_map.mp hmem
        exact hrest u hu (by simp [heq])
      · intro u hu hmem
        exact hrest u hu (by simp [hmem])
    · rintro ⟨⟨⟨hi, hlegal⟩, heach⟩, ⟨hnew, hnodup⟩, hfree, hrest⟩
      refine ⟨⟨hi, hlegal, hfree⟩, heach, hnodup, ?_⟩
      intro u hu hmem
      rcases List.mem_append.mp hmem with hmem | hmem
      · exact hrest u hu hmem
      · exact hnew (List.mem_map.mpr ⟨u, hu, List.mem_singleton.mp hmem⟩)

theorem folds_of_vss (h : (columnFolds py true t).Nodup) : (columnFolds py vss t).Nodup := by
  cases vss with
  | true => exact h
  | false =>
    rw [columnFolds, List.map_append] at h
    rw [columnFolds, List.map_append]
    exact (List.nodup_append.mp h).1.append List.nodup_nil (by simp)

/-- All tables are created, with search columns and without, exactly when they are sane. -/
theorem createsOwn_iff {ts : List ParsedTable} (hd : ∀ t ∈ ts, t.Declares py) :
    (∀ vss, CreatesOwn py vss ts) ↔ Sane py ts := by
  have hown : ∀ vss, CreatesOwn py vss ts ↔ (∀ t ∈ ts, t.Idents py ∧ (ddlOf py vss t).Legal)
      ∧ (ts.map fun t => folded (physText py t)).Nodup := by
    intro vss
    rw [CreatesOwn, createTables_iff hd]
    simp
  constructor
  · intro h
    obtain ⟨heach, hapart⟩ := (hown true).mp (h true)
    refine ⟨fun t ht => ?_, hapart⟩
    obtain ⟨hi, hlegal⟩ := heach t ht
    obtain ⟨hfolds, hdec⟩ := (ddl_legal_iff (hd t ht) hi).mp hlegal
    exact ⟨hi.1, hfolds, hi.2, hdec⟩
  · intro h vss
    refine (hown vss).mpr ⟨fun t ht => ?_, h.apart⟩
    have hsane := h.each t ht
    have hi : t.Idents py := ⟨hsane.names, hsane.table⟩
    exact ⟨hi, (ddl_legal_iff (hd t ht) hi).mpr ⟨folds_of_vss hsane.distinct, hsane.decimals⟩⟩

/-! ## Which inputs are rejected or have their tables -/

variable {raw : Json}

theorem specItems_sub {entry : Json} {before entries : List Json} (he : entry ∈ entries) :
    ∀ x ∈ specItems py entry, x ∈ tableItems py before entries := by
  induction entries generalizing before with
  | nil => cases he
  | cons e es ih =>
    intro x hx
    rw [tableItems, List.mem_append, List.mem_cons]
    rcases List.mem_cons.mp he with rfl | he
    · exact .inl hx
    · exact .inr (.inr (ih he x hx))

theorem declared_of_clean {columns : List ParsedColumn} {types : List String} {name : Json}
    (h : declaredFault py columns types name = none) : ∃ c ∈ columns, py.same name c.name = true := by
  unfold declaredFault at h
  split at h
  · cases h
  · split at h
    · cases h
    · next c hc =>
      have hsame := List.find?_some hc
      exact ⟨c, List.mem_of_find?_eq_some hc, hsame⟩

/-- What the parser has checked of a table when it found no fault. -/
theorem clean_declares (h : ∀ x ∈ items py raw, x.fault py = none) :
    ∀ t ∈ tablesOf py raw, t.Declares py := by
  intro t ht
  obtain ⟨entry, hentry, rfl⟩ := List.mem_map.mp ht
  have hspec : ∀ x ∈ specItems py entry, x.fault py = none := fun x hx =>
    h x (List.mem_cons_of_mem _ (specItems_sub hentry x hx))
  constructor
  · have hkey := hspec (.primary (columnsOf py entry) entry) (by simp [specItems])
    rw [Item.fault] at hkey
    cases hlook : lookup "primary" (membersOf entry) with
    | none =>
      rw [hlook] at hkey
      cases hkey
    | some key =>
      rw [hlook] at hkey
      have hprimary : (tableOf py entry).primary = key := by
        show (membersOf entry).get "primary" = key
        rw [Members.get, hlook]
        rfl
      rw [hprimary]
      exact declared_of_clean hkey
  · intro s hs
    have hsearched := hspec (.searched (columnsOf py entry) s) (by
      simp only [specItems, List.mem_cons, List.mem_append, List.mem_map]
      exact .inr (.inr (.inr (.inr ⟨s, hs, rfl⟩))))
    exact declared_of_clean hsearched

/-- Every fault that is not told comes after one that is. -/
def TellsFirst (py : Python) (raw : Json) : Prop :=
  ∀ pre x post, items py raw = pre ++ x :: post → x.fault py = some .untold →
    ∃ v ∈ pre, v.fault py = some .told

/-- The input is rejected with a SchemaError, or a database gets each of its tables. -/
def Complete (py : Python) (raw : Json) : Prop :=
  (∃ message, parseSchema py raw = .error (.schema message))
    ∨ ∃ tables, parseSchema py raw = .ok tables ∧ ∀ vss, CreatesOwn py vss tables

theorem tellsFirst_of_clean (h : ∀ x ∈ items py raw, x.fault py = none) : TellsFirst py raw := by
  intro pre x post heq hx
  rw [h x (by simp [heq])] at hx
  cases hx

/-- The first fault is one that is told. -/
theorem tellsFirst_told (h : (items py raw).findSome? (Item.fault py) = some .told) :
    TellsFirst py raw := by
  obtain ⟨as, a, bs, hsplit, ha, has⟩ := List.findSome?_eq_some_iff.mp h
  intro pre x post heq hx
  rw [heq] at hsplit
  rcases List.append_eq_append_iff.mp hsplit with ⟨mid, hmid, hrest⟩ | ⟨mid, hmid, hrest⟩
  · -- `x` is the told fault itself, or stands before it, where there is none
    cases mid with
    | nil =>
      rcases List.cons.inj hrest with ⟨rfl, -⟩
      rw [ha] at hx
      cases hx
    | cons m mid =>
      rcases List.cons.inj hrest with ⟨rfl, -⟩
      rw [has x (by simp [hmid])] at hx
      cases hx
  · cases mid with
    | nil =>
      rcases List.cons.inj hrest with ⟨rfl, -⟩
      rw [ha] at hx
      cases hx
    | cons m mid =>
      rcases List.cons.inj hrest with ⟨rfl, -⟩
      exact ⟨a, by simp [hmid], ha⟩

theorem not_tellsFirst (h : (items py raw).findSome? (Item.fault py) = some .untold) :
    ¬ TellsFirst py raw := by
  obtain ⟨as, a, bs, hsplit, ha, has⟩ := List.findSome?_eq_some_iff.mp h
  intro hfirst
  obtain ⟨v, hv, htold⟩ := hfirst as a bs hsplit ha
  rw [has v hv] at htold
  cases htold

/-- An input is rejected or has all its tables exactly when no fault goes unreported before one that
is reported and, where there is no fault, the tables are sane. -/
theorem complete_iff (py : Python) (raw : Json) : Complete py raw ↔ TellsFirst py raw
    ∧ ((∀ x ∈ items py raw, x.fault py = none) → Sane py (tablesOf py raw)) := by
  have hmatch : Matches (parseSchema py raw) ((items py raw).findSome? (Item.fault py))
    (tablesOf py raw) := parse_matches raw
  unfold Complete
  cases hfault : (items py raw).findSome? (Item.fault py) with
  | none =>
    have hclean := List.findSome?_eq_none_iff.mp hfault
    have hok := parse_clean hfault
    have hsane := createsOwn_iff (clean_declares hclean)
    constructor
    · rintro (⟨message, herr⟩ | ⟨tables, htables, hown⟩)
      · rw [hok] at herr
        cases herr
      · rw [hok, Except.ok.injEq] at htables
        rw [← htables] at hown
        exact ⟨tellsFirst_of_clean hclean, fun _ => hsane.mp hown⟩
    · rintro ⟨-, h⟩
      exact .inr ⟨_, hok, hsane.mpr (h hclean)⟩
  | some fault =>
    have hdirty : ¬ ∀ x ∈ items py raw, x.fault py = none := by
      intro hclean
      rw [List.findSome?_eq_none_iff.mpr hclean] at hfault
      cases hfault
    rw [hfault] at hmatch
    cases fault with
    | told => exact ⟨fun _ => ⟨tellsFirst_told hfault, fun hclean => absurd hclean hdirty⟩,
        fun _ => .inl hmatch⟩
    | untold =>
      obtain ⟨cls, herr⟩ := hmatch
      rw [herr]
      constructor
      · rintro (⟨message, h⟩ | ⟨tables, h, -⟩) <;> cases h
      · rintro ⟨h, -⟩
        exact absurd h (not_tellsFirst hfault)

/-- Python as far as texts go. -/
def plainPython : Python where
  repr _ := ""
  same
    | .str a, .str b => a == b
    | _, _ => false
  same_str _ _ := rfl
  same_left a j h := by
    cases j with
    | str b => exact absurd rfl (h b)
    | _ => rfl
  same_right a j h := by
    cases j with
    | str b => exact absurd rfl (h b)
    | _ => rfl

def oneColumn (table : String) : Json :=
  .obj [("table", .str table), ("columns", .arr [.obj [("name", .str "id"), ("type", .str "str")]]),
    ("primary", .str "id")]

/-- Two tables whose names differ in their case: both are accepted, and the second statement is
skipped. -/
theorem shared_table : parseSchema plainPython (.arr [oneColumn "note", oneColumn "Note"])
      = .ok (tablesOf plainPython (.arr [oneColumn "note", oneColumn "Note"]))
    ∧ createTables plainPython false [] (tablesOf plainPython
      (.arr [oneColumn "note", oneColumn "Note"])) = some [true, false]
    ∧ ¬ Complete plainPython (.arr [oneColumn "note", oneColumn "Note"]) := by
  have hclean : (items plainPython (.arr [oneColumn "note", oneColumn "Note"])).findSome?
      (Item.fault plainPython) = none := by decide +kernel
  have hok : parseSchema plainPython (.arr [oneColumn "note", oneColumn "Note"])
      = .ok (tablesOf plainPython (.arr [oneColumn "note", oneColumn "Note"])) :=
    parse_clean hclean
  have hskip : createTables plainPython false [] (tablesOf plainPython
      (.arr [oneColumn "note", oneColumn "Note"])) = some [true, false] := by decide +kernel
  refine ⟨hok, hskip, ?_⟩
  rintro (⟨message, herr⟩ | ⟨tables, htables, hown⟩)
  · rw [hok] at herr
    cases herr
  · rw [hok, Except.ok.injEq] at htables
    obtain ⟨created, hcreated, hall⟩ := hown false
    rw [← htables, hskip, Option.some.injEq] at hcreated
    exact absurd (hall false (by simp [← hcreated])) (by decide)

end Statements

end Seekbase
