/-
# Seekbase.Keys — what a strict validation promises of the PRIMARY KEY.

`validate` compares keys by Python's `str` of what the caller wrote, the table by what DuckDB has cast
it to.  The two notions agree on a key that is SPELLED as the table spells its cell, and nothing makes
a caller spell one so: a number may be written as a text with a leading zero, a boolean is `True` to
one and `true` or `1` to the other, and a key that is left out is the text `None` to one and NULL to
the other.

* `Env.Casts`            — DuckDB's usual casts of keys;
* `Env.Fits`             — the PRIMARY KEY holds of the new rows and of the table with them;
* `fits_runs`            — then no INSERT of the batch is refused for it;
* `Spelled`              — a key that both sides write the same way, and which keys these are;
* `predicts_iff`         — a validated batch fits exactly when its keys are given, and those that are
                           spelled otherwise stand alone.
-/
import Seekbase.WriteOnce

namespace Seekbase

open JsonText

/-! ## Casts -/

/-- The value of a decimal text. -/
def decimalInt : List Char → Option Int
  | '-' :: ds =>
    if ds ≠ [] ∧ ds.all Char.isDigit then some (-(Nat.ofDigitChars 10 ds 0 : Int)) else none
  | ds => if ds ≠ [] ∧ ds.all Char.isDigit then some (Nat.ofDigitChars 10 ds 0 : Int) else none

def InBigint (i : Int) : Prop := -2 ^ 63 ≤ i ∧ i < 2 ^ 63

/-- DuckDB's casts of a key: only `None` becomes NULL, and a boolean or a decimal text has its value. -/
structure Env.Casts (env : Env) : Prop where
  null : ∀ t v, env.bind t v = some .null ↔ v.isNone = true
  int_text : ∀ i, InBigint i → env.bind .varchar (.json (.int i)) = some (.varchar i.repr)
  bool_text : ∀ b,
    env.bind .varchar (.json (.bool b)) = some (.varchar (if b then "true" else "false"))
  int : ∀ i, InBigint i → env.bind .bigint (.json (.int i)) = some (.bigint i)
  bool : ∀ b, env.bind .bigint (.json (.bool b)) = some (.bigint (if b then 1 else 0))
  text : ∀ s i, decimalInt s.toList = some i → InBigint i →
    env.bind .bigint (strVal s) = some (.bigint i)

section Batches

variable (env : Env) (spec : TableSpec)

/-- The cell a record's key is cast to, where DuckDB casts it. -/
def Env.keyCell (r : Record) : Option Cell := env.bind spec.primary.sqlType (r.get spec.primaryKey)

/-- The keys of the records are no NULL, pairwise distinct and not in the table. -/
structure Env.Fits (t : PhysTable) (records : List Record) : Prop where
  nonNull : ∀ r ∈ records, env.keyCell spec r ≠ some .null
  distinct : (records.filterMap (env.keyCell spec)).Nodup
  fresh : ∀ r ∈ records, ∀ c, env.keyCell spec r = some c → c ∉ t.rows.map Row.key

/-- A key whose text is the text of its cell. -/
def Spelled (r : Record) : Prop :=
  ∀ c, env.keyCell spec r = some c → c.text = some (keyText env.repr spec r)

/-- Every record has a key, and a key that is spelled otherwise than its cell has the value of no
other key and of no row. -/
structure Env.Alone (t : PhysTable) (records : List Record) : Prop where
  given : ∀ r ∈ records, (r.get spec.primaryKey).isNone = false
  batch : records.Pairwise fun a b => ¬ (Spelled env spec a ∧ Spelled env spec b) →
    ∀ c, env.keyCell spec a = some c → env.keyCell spec b ≠ some c
  stored : ∀ r ∈ records, ¬ Spelled env spec r → ∀ c, env.keyCell spec r = some c →
    c ∉ t.rows.map Row.key

end Batches

section Keys

variable {env : Env} {spec : TableSpec} {t : PhysTable} {rows records : List Record} {r : Record}

/-! ## Which keys are spelled as their cells -/

theorem spelled_str {s : String} (ht : spec.primary.sqlType = .varchar)
    (hr : r.get spec.primaryKey = strVal s) : Spelled env spec r := by
  intro c hc
  rw [Env.keyCell, ht, hr, env.bind_str, Option.some.injEq] at hc
  rw [← hc, keyText, hr]
  rfl

theorem spelled_int (hcasts : env.Casts) {i : Int} (hi : InBigint i)
    (hr : r.get spec.primaryKey = .json (.int i)) : Spelled env spec r := by
  intro c hc
  rw [keyText, hr]
  rcases spec.primaryOk with ⟨-, ht⟩ | ⟨-, ht⟩
  · rw [Env.keyCell, ht, hr, hcasts.int_text i hi, Option.some.injEq] at hc
    rw [← hc]
    rfl
  · rw [Env.keyCell, ht, hr, hcasts.int i hi, Option.some.injEq] at hc
    rw [← hc]
    rfl

/-- A boolean never is: Python writes it with a capital. -/
theorem not_spelled_bool (hcasts : env.Casts) {b : Bool}
    (hr : r.get spec.primaryKey = .json (.bool b)) : ¬ Spelled env spec r := by
  intro h
  rcases spec.primaryOk with ⟨-, ht⟩ | ⟨-, ht⟩
  · have htext := h _ (by rw [Env.keyCell, ht, hr, hcasts.bool_text])
    rw [keyText, hr] at htext
    cases b <;> simp [Cell.text, Val.str] at htext
  · have htext := h _ (by rw [Env.keyCell, ht, hr, hcasts.bool])
    rw [keyText, hr] at htext
    cases b with
    | false => exact absurd htext (show ¬ some "0" = some "False" by decide)
    | true => exact absurd htext (show ¬ some "1" = some "True" by decide)

/-- A decimal text in a column of numbers is, when it is the one its number is written as. -/
theorem spelled_decimal (hcasts : env.Casts) {s : String} {i : Int}
    (ht : spec.primary.sqlType = .bigint) (hs : decimalInt s.toList = some i) (hi : InBigint i)
    (hr : r.get spec.primaryKey = strVal s) : Spelled env spec r ↔ s = i.repr := by
  have hcell : env.keyCell spec r = some (.bigint i) := by
    rw [Env.keyCell, ht, hr, hcasts.text s i hs hi]
  have htext : keyText env.repr spec r = s := by
    rw [keyText, hr]
    rfl
  rw [Spelled, hcell, htext]
  constructor
  · intro h
    exact (Option.some.inj (h _ rfl)).symm
  · rintro rfl c hc
    rw [← Option.some.inj hc]
    rfl

/-! ## A strict validation -/

/-- The texts of the keys are distinct, and none is the text of a stored key. -/
theorem validate_keys (h : validate env.repr spec t rows false = .ok records) :
    (records.map (keyText env.repr spec)).Nodup
      ∧ ∀ row ∈ t.rows, ∀ r ∈ records, row.key.text ≠ some (keyText env.repr spec r) := by
  have hrecords := validate_strict h
  simp only [validate, Bool.false_eq_true, if_false] at h
  rw [← hrecords] at h
  split at h
  · cases h
  split at h
  · cases h
  next hnodup =>
  split at h
  · cases h
  next hnone =>
  refine ⟨not_not.mp hnodup, fun row hrow r hr heq => ?_⟩
  have hmem : keyText env.repr spec r ∈ existingKeys t (records.map (keyText env.repr spec)) := by
    rw [existingKeys, List.mem_filter, List.mem_filterMap]
    exact ⟨⟨row, hrow, heq⟩, decide_eq_true (List.mem_map_of_mem hr)⟩
  rw [hnone] at hmem
  cases hmem

theorem given_iff (hcasts : env.Casts) :
    (r.get spec.primaryKey).isNone = false ↔ env.keyCell spec r ≠ some .null := by
  rw [Env.keyCell, Ne, hcasts.null, Bool.not_eq_true]

theorem distinct_iff : (records.filterMap (env.keyCell spec)).Nodup
    ↔ records.Pairwise fun a b => ∀ c, env.keyCell spec a = some c → env.keyCell spec b ≠ some c := by
  rw [List.Nodup, List.pairwise_filterMap]
  constructor
  · intro h
    refine h.imp ?_
    intro a b hab c ha hb
    exact hab c ha c hb rfl
  · intro h
    refine h.imp ?_
    rintro a b hab c ha c' hb rfl
    exact hab c ha hb

/-- A validated batch fits exactly when its keys are given and those that are spelled otherwise stand
alone. -/
theorem fits_iff (hcasts : env.Casts)
    (hv : validate env.repr spec t rows false = .ok records) :
    env.Fits spec t records ↔ env.Alone spec t records := by
  obtain ⟨hnodup, hnew⟩ := validate_keys hv
  constructor
  · rintro ⟨hnull, hdistinct, hfresh⟩
    refine ⟨fun r hr => (given_iff hcasts).mpr (hnull r hr), ?_, fun r hr _ => hfresh r hr⟩
    refine (distinct_iff.mp hdistinct).imp ?_
    intro a b hab _
    exact hab
  · rintro ⟨hgiven, hbatch, hstored⟩
    refine ⟨fun r hr => (given_iff hcasts).mp (hgiven r hr), ?_, fun r hr c hc hmem => ?_⟩
    · rw [distinct_iff]
      rw [List.Nodup, List.pairwise_map] at hnodup
      refine (hbatch.and hnodup).imp ?_
      rintro a b ⟨hapart, hne⟩ c ha hb
      by_cases hboth : Spelled env spec a ∧ Spelled env spec b
      · -- both texts are the text of the one cell
        have htext := (hboth.1 c ha).symm.trans (hboth.2 c hb)
        exact hne (Option.some.inj htext)
      · exact hapart hboth c ha hb
    · by_cases hsp : Spelled env spec r
      · obtain ⟨row, hrow, hkey⟩ := List.mem_map.mp hmem
        refine hnew row hrow r hr ?_
        rw [hkey]
        exact hsp c hc
      · exact hstored r hr hsp c hc hmem

/-! ## The INSERT -/

theorem bindText_error {v : Val} {e : Exc} (h : accept (env.bindText v) = .error e) : e = .refused := by
  cases hv : env.bindText v with
  | none =>
    rw [hv] at h
    exact (Except.error.inj h).symm
  | some a =>
    rw [hv] at h
    cases h

theorem cell_error {c : Column} {v : Val} {e : Exc} (h : env.cell c v = .error e) :
    e ≠ .constraint := by
  rintro rfl
  rw [Env.cell, bind_error_iff] at h
  rcases h with h | ⟨w, -, h⟩
  · rw [storeVal] at h
    split at h
    · split at h <;> cases h
    · cases h
  · cases hb : env.bind c.sqlType w <;> rw [hb] at h <;> cases h

/-- A row that is not stored is refused for another reason than its key. -/
theorem newRow_error {search : List Search} {ds ca : Val} {e : Exc}
    (h : env.newRow spec r search ds ca = .error e) : e ≠ .constraint := by
  have hstored : env.stored spec r ds ca = .error e := by
    unfold Env.newRow at h
    cases hs : env.stored spec r ds ca with
    | error e' =>
      rw [hs] at h
      exact congrArg Except.error (Except.error.inj h)
    | ok row =>
      rw [hs] at h
      cases h
  simp only [Env.stored, bind_error_iff] at hstored
  rcases hstored with hcells | ⟨cells, -, hrest⟩
  · obtain ⟨c, -, hc⟩ := mapM_error hcells
    exact cell_error hc
  rcases hrest with hkey | ⟨key, -, hrest⟩
  · exact cell_error hkey
  rcases hrest with hds | ⟨d, -, hrest⟩
  · rw [bindText_error hds]
    simp
  rcases hrest with hca | ⟨c, -, hrest⟩
  · rw [bindText_error hca]
    simp
  · cases hrest

theorem newRow_keyCell {search : List Search} {ds ca : Val} {row : Row}
    (h : env.newRow spec r search ds ca = .ok row) : env.keyCell spec r = some row.key := by
  have hkey := stored_key (newRow_shown h)
  exact hkey

/-- A fitting batch after its first row. -/
theorem fits_tail {row : Row} {t' : PhysTable} (h : env.Fits spec t (r :: records))
    (hkey : env.keyCell spec r = some row.key) (ht : t'.rows = t.rows ++ [row]) :
    env.Fits spec t' records := by
  obtain ⟨hnull, hdistinct, hfresh⟩ := h
  rw [List.filterMap_cons, hkey] at hdistinct
  obtain ⟨hnew, hdistinct⟩ := List.nodup_cons.mp hdistinct
  refine ⟨fun x hx => hnull x (by simp [hx]), hdistinct, fun x hx c hc hmem => ?_⟩
  rw [ht, List.map_append, List.mem_append] at hmem
  rcases hmem with hmem | hmem
  · exact hfresh x (by simp [hx]) c hc hmem
  · rw [List.map_singleton, List.mem_singleton] at hmem
    exact hnew (List.mem_filterMap.mpr ⟨x, hx, by rw [hc, hmem]⟩)

/-- No INSERT of a fitting batch is refused for the PRIMARY KEY. -/
theorem fits_runs {ds ca : Val} {batch : List (Record × List Search)} {db : Db}
    (h : env.Fits spec (db.tables spec.name) (batch.map Prod.fst)) :
    (execAll env (batch.map fun p => .insert spec p.1 p.2 ds ca) db).2 ≠ some .constraint := by
  induction batch generalizing db with
  | nil => simp [execAll]
  | cons p batch ih =>
    rw [List.map_cons, execAll]
    cases hexec : exec env (.insert spec p.1 p.2 ds ca) db with
    | ok db' =>
      obtain ⟨row, t', hrow, -, -, ht', rfl⟩ := exec_insert_iff.mp hexec
      apply ih
      rw [setTable_self]
      exact fits_tail h (newRow_keyCell hrow) ht'
    | error e =>
      intro heq
      obtain rfl := Option.some.inj heq
      simp only [exec, bind_error_iff] at hexec
      rcases hexec with hrow | ⟨row, hrow, hexec⟩
      · exact newRow_error hrow rfl
      rcases hexec with hins | ⟨t', -, hexec⟩
      · -- the key is given and not in the table
        have hkey := newRow_keyCell hrow
        have hnull : row.key ≠ .null := fun h0 => h.nonNull p.1 (by simp) (by rw [hkey, h0])
        have hfresh := h.fresh p.1 (by simp) row.key hkey
        rw [insertRow, dif_pos ⟨hnull, hfresh⟩] at hins
        cases hins
      · cases hexec

theorem fits_cons {row : Row} {t' : PhysTable} (hkey : env.keyCell spec r = some row.key)
    (hnull : row.key ≠ .null) (hfresh : row.key ∉ t.rows.map Row.key)
    (ht : t'.rows = t.rows ++ [row]) (h : env.Fits spec t' records) :
    env.Fits spec t (r :: records) := by
  have hkeys : t'.rows.map Row.key = t.rows.map Row.key ++ [row.key] := by
    rw [ht, List.map_append]
    rfl
  refine ⟨?_, ?_, ?_⟩
  · intro x hx
    rcases List.mem_cons.mp hx with rfl | hx
    · rw [hkey]
      exact fun h0 => hnull (Option.some.inj h0)
    · exact h.nonNull x hx
  · rw [List.filterMap_cons, hkey]
    refine List.nodup_cons.mpr ⟨fun hmem => ?_, h.distinct⟩
    obtain ⟨x, hx, hc⟩ := List.mem_filterMap.mp hmem
    exact h.fresh x hx _ hc (by simp [hkeys])
  · intro x hx c hc hmem
    rcases List.mem_cons.mp hx with rfl | hx
    · rw [hkey, Option.some.injEq] at hc
      exact hfresh (hc ▸ hmem)
    · exact h.fresh x hx c hc (by rw [hkeys]; exact List.mem_append_left _ hmem)

/-- A batch that does not fit is refused for the PRIMARY KEY, when nothing else is wrong with it. -/
theorem unfit_violates {ds ca : Val} {batch : List (Record × List Search)} {db : Db}
    (hstores : ∀ p ∈ batch, ∃ row, env.newRow spec p.1 p.2 ds ca = .ok row)
    (h : ¬ env.Fits spec (db.tables spec.name) (batch.map Prod.fst)) :
    (execAll env (batch.map fun p => .insert spec p.1 p.2 ds ca) db).2 = some .constraint := by
  induction batch generalizing db with
  | nil => exact absurd ⟨by simp, by simp, by simp⟩ h
  | cons p batch ih =>
    obtain ⟨row, hrow⟩ := hstores p (by simp)
    have hkey := newRow_keyCell hrow
    rw [List.map_cons, execAll]
    by_cases hok : row.key ≠ .null ∧ row.key ∉ (db.tables spec.name).rows.map Row.key
    · have hexec : exec env (.insert spec p.1 p.2 ds ca) db
          = .ok (db.setTable spec.name ((db.tables spec.name).push row hok.1 hok.2)) :=
        exec_insert_iff.mpr ⟨row, _, hrow, hok.1, hok.2, rfl, rfl⟩
      rw [hexec]
      refine ih (fun q hq => hstores q (by simp [hq])) fun hfits => ?_
      rw [setTable_self] at hfits
      exact h (fits_cons hkey hok.1 hok.2 rfl hfits)
    · have hexec : exec env (.insert spec p.1 p.2 ds ca) db = .error .constraint := by
        have hins : insertRow (db.tables spec.name) row = .error .constraint := by
          rw [insertRow, dif_neg hok]
        simp only [exec, bind_error_iff]
        exact .inr ⟨row, hrow, .inl hins⟩
      rw [hexec]

/-- `_insert_rows` goes through the records with their vectors and tokens. -/
theorem rowActs_eq (spec : TableSpec) (rs : List Record) (emb : List (String × List Search))
    (st : Stamp) : rowActs spec rs emb st = (rs.mapIdx fun i r => (r, searchAt spec emb i)).map
      fun p => .insert spec p.1 p.2 (strVal st.ds) (strVal st.ts) := by
  rw [rowActs, List.mapIdx_eq_zipIdx_map, List.mapIdx_eq_zipIdx_map, List.map_map]
  rfl

theorem records_of_rows (spec : TableSpec) (rs : List Record) (emb : List (String × List Search)) :
    (rs.mapIdx fun i r => (r, searchAt spec emb i)).map Prod.fst = rs := by
  rw [List.mapIdx_eq_zipIdx_map, List.map_map]
  exact List.zipIdx_map_fst 0 rs

/-- What a strict validation says of the INSERT that follows: the keys of the batch fit exactly when
they are given and those that are spelled otherwise stand alone, then no row is refused for its key,
and else one is, where every row can be stored. -/
theorem predicts_iff (hcasts : env.Casts)
    (hv : validate env.repr spec t rows false = .ok records) :
    (env.Fits spec t records ↔ env.Alone spec t records)
      ∧ ∀ emb st db, db.tables spec.name = t →
        (env.Alone spec t records →
          (execAll env (rowActs spec records emb st) db).2 ≠ some .constraint)
        ∧ ((∀ r ∈ records, ∃ row, env.stored spec r (strVal st.ds) (strVal st.ts) = .ok row) →
          ¬ env.Alone spec t records →
            (execAll env (rowActs spec records emb st) db).2 = some .constraint) := by
  have hiff := fits_iff hcasts hv
  refine ⟨hiff, ?_⟩
  intro emb st db hdb
  have hrecords := records_of_rows spec records emb
  rw [← hiff, rowActs_eq]
  refine ⟨fun hfits => ?_, fun hstores hunfit => ?_⟩
  · apply fits_runs
    rwa [hrecords, hdb]
  · refine unfit_violates (fun p hp => ?_) (by rwa [hrecords, hdb])
    obtain ⟨row, hrow⟩ := hstores p.1 (by rw [← hrecords]; exact List.mem_map_of_mem hp)
    exact ⟨_, newRow_ok_iff.mpr ⟨row, hrow, rfl⟩⟩

end Keys

/-! ## Two spellings of one number -/

/-- DuckDB's casts of texts, integers and booleans to a key column. -/
def castKey (t : SqlType) (j : Json) : Option Cell :=
  match t, j with
  | _, .null => some .null
  | .varchar, .str s => some (.varchar s)
  | .varchar, .int i => some (.varchar i.repr)
  | .varchar, .bool b => some (.varchar (if b then "true" else "false"))
  | .bigint, .int i => if -2 ^ 63 ≤ i ∧ i < 2 ^ 63 then some (.bigint i) else none
  | .bigint, .bool b => some (.bigint (if b then 1 else 0))
  | .bigint, .str s => (decimalInt s.toList).bind fun i =>
    if -2 ^ 63 ≤ i ∧ i < 2 ^ 63 then some (.bigint i) else none
  | _, _ => none

def castEnv : Env := {
  plainEnv with
  bind := fun t v => v.toJson?.bind (castKey t)
  bind_null := by
    intro t
    cases t <;> rfl
  bind_str := fun _ => rfl
  bind_varchar := by
    intro v c h
    obtain ⟨j, -, h⟩ := Option.bind_eq_some_iff.mp h
    simp only [castKey] at h
    split at h <;> first | contradiction | simp [← Option.some.inj h]
  bind_bigint := by
    intro v c h
    obtain ⟨j, -, h⟩ := Option.bind_eq_some_iff.mp h
    simp only [castKey] at h
    split at h <;> try contradiction
    · simp [← Option.some.inj h]
    · split at h
      · simp [← Option.some.inj h]
      · cases h
    · simp [← Option.some.inj h]
    · obtain ⟨i, -, h⟩ := Option.bind_eq_some_iff.mp h
      split at h
      · simp [← Option.some.inj h]
      · cases h }

theorem castKey_null {t : SqlType} {j : Json} : castKey t j = some .null ↔ j = .null := by
  constructor
  · intro h
    simp only [castKey] at h
    split at h
    · rfl
    · cases h
    · cases h
    · cases h
    · split at h <;> cases h
    · cases h
    · obtain ⟨i, -, h⟩ := Option.bind_eq_some_iff.mp h
      split at h <;> cases h
    · cases h
  · rintro rfl
    cases t <;> rfl

theorem castEnv_casts : castEnv.Casts where
  null t v := by
    show v.toJson?.bind (castKey t) = some .null ↔ v.isNone = true
    rw [isNone_iff]
    cases v.toJson? with
    | none => simp
    | some j => rw [Option.bind_some, castKey_null, Option.some.injEq]
  int_text _ _ := rfl
  bool_text _ := rfl
  int i h := if_pos h
  bool _ := rfl
  text s i hs h := by
    show (decimalInt s.toList).bind _ = _
    rw [hs]
    exact if_pos h

/-- `{"table": "counts", "columns": [n int], "primary": "n"}`. -/
def counts : TableSpec where
  name := "counts"
  columns := [⟨"n", "int", .bigint⟩]
  primary := ⟨"n", "int", .bigint⟩
  searchable := []
  namesNodup := by decide
  noMeta := by decide
  identNames := by
    intro c hc
    obtain rfl := List.mem_singleton.mp hc
    exact ⟨'n', [], by decide, by decide⟩
  primaryMem := List.mem_cons_self
  primaryOk := .inr ⟨rfl, rfl⟩
  searchableOk := by simp

theorem predicts_iff_counts : validate castEnv.repr counts .empty [[("n", .json (.int 1))]] false
      = .ok [[("n", .json (.int 1))]]
    ∧ castEnv.Alone counts .empty [[("n", .json (.int 1))]]
    ∧ ∀ emb st, (execAll castEnv (rowActs counts [[("n", .json (.int 1))]] emb st) Db.init).2
      ≠ some .constraint := by
  have hv : validate castEnv.repr counts .empty [[("n", .json (.int 1))]] false
      = .ok [[("n", .json (.int 1))]] := rfl
  have hfits : castEnv.Fits counts .empty [[("n", .json (.int 1))]] := by
    refine ⟨?_, by decide, ?_⟩
    · intro r hr
      obtain rfl := List.mem_singleton.mp hr
      decide
    · intro r hr c hc hmem
      cases hmem
  have halone := (predicts_iff castEnv_casts hv).1.mp hfits
  exact ⟨hv, halone, fun emb st => ((predicts_iff castEnv_casts hv).2 emb st Db.init rfl).1 halone⟩

/-- Two spellings of one number pass the validation and break the PRIMARY KEY. -/
theorem two_spellings : validate castEnv.repr counts .empty
      [[("n", strVal "1")], [("n", strVal "01")]] false
        = .ok [[("n", strVal "1")], [("n", strVal "01")]]
    ∧ ¬ castEnv.Fits counts .empty [[("n", strVal "1")], [("n", strVal "01")]]
    ∧ ∀ st, (execAll castEnv (rowActs counts [[("n", strVal "1")], [("n", strVal "01")]] [] st)
      Db.init).2 = some .constraint := by
  refine ⟨rfl, ?_, ?_⟩
  · intro h
    exact absurd h.distinct (by decide)
  · intro st
    rfl

end Seekbase
