/-
# Seekbase.Search — the hybrid search of both backends, as a sub-view of the scan.

A search ranks keys twice, by vector and by text, fuses the two rankings by rank and joins the keys
back to the view of the window.  The vss backend takes its candidates from the rows of the window, and
the best `k` before it joins; the lance backend takes them from a side dataset that knows no windows,
and the best `k` after it has joined.  What the engines rank, and how well, is open: an arm is any pick
of as many candidates as it may have.

* `fused`, `rrf`                  — the common table expression `_h`, without its limit;
* `VssSelects`, `LanceSelects`    — what the two statements may answer over given arms;
* `SearchAnswers`                 — `search_lower`;
* `SubView`                       — what the scan and the limit promise of an answer;
* `search_is_subview`             — in which runs every answer of every search is a sub-view.
-/
import Mathlib.Algebra.Order.Field.Rat
import Mathlib.Tactic.Positivity
import Seekbase.Lib.Ranked
import Seekbase.Keys
import Seekbase.Delivery
import Seekbase.Done

namespace Seekbase

open JsonText Ranked Transition

/-! ## The statements -/

/-- `_OVERFETCH`. -/
def overfetch : ℕ := 4

/-- `COALESCE(1.0/(60+rk),0)`. -/
def rankWeight : Option ℕ → ℚ
  | some rk => 1 / (60 + rk)
  | none => 0

/-- The score of a key with these two ranks. -/
def rrf (v f : Option ℕ) : ℚ := rankWeight v + rankWeight f

section Statements

variable {κ : Type} [DecidableEq κ]

/-- `_h` without its limit: the two arms on their keys, each key with its score. -/
def fused (v f : List κ) : List (κ × ℚ) :=
  (outerJoin (numbered v) (numbered f)).map fun x => (x.1, rrf x.2.1 x.2.2)

/-- The ON clause: the text of the row's key, where it has one. -/
def joins (r : Row) (key : Option String) : Bool := r.key.text.isSome && r.key.text == key

variable (k : ℕ) (dsStart dsEnd : Option String) (t : PhysTable)

/-- The candidates of an arm of the vss backend. -/
def vssCand : ℕ := if dsEnd.isSome then k * overfetch else k

/-- The candidates of an arm of the lance backend. -/
def lanceCand : ℕ := k * overfetch

/-- What `_vss_search_sql` may select over two arms: the limit first, then the join. -/
def VssSelects (v f : List Cell) (out : List (Row × ℚ)) : Prop :=
  ∃ h, Leading Prod.snd k (fused v f) h
    ∧ out.Perm (joinBack (fun r key => joins r key.text) (visible dsStart dsEnd t) h)

/-- What `_lance_search_sql` may select over two arms: the join first, then the limit. -/
def LanceSelects (v f : List String) (out : List (Row × ℚ)) : Prop :=
  Leading Prod.snd k
    (joinBack (fun r pk => joins r (some pk)) (visible dsStart dsEnd t) (fused v f)) out

end Statements

/-- The vector and the tokens of a searchable column. -/
def searchOf (spec : TableSpec) (col : String) (s : List Search) : Search :=
  (lookup col (spec.searchable.zip s)).getD (none, none)

section Arms

variable (spec : TableSpec) (col : String) (k : ℕ) (dsStart dsEnd : Option String)

/-- The candidates of the vss backend: rows of the window, of the vector arm those with a vector. -/
structure VssArms (t : PhysTable) (v f : List Cell) : Prop where
  vector : Picks (vssCand k dsEnd) ((t.rows.filter fun r => asof dsStart dsEnd r
    && (searchOf spec col r.search).1.isSome).map Row.key) v
  text : Picks (vssCand k dsEnd) ((t.rows.filter (asof dsStart dsEnd)).map Row.key) f

/-- The candidates of the lance backend: entries of the side dataset. -/
structure LanceArms (index : List IndexRow) (v f : List String) : Prop where
  vector : Picks (lanceCand k)
    ((index.filter fun x => (searchOf spec col x.search).1.isSome).map IndexRow.pk) v
  text : Picks (lanceCand k)
    ((index.filter fun x => (searchOf spec col x.search).2.isSome).map IndexRow.pk) f

/-- What a search of the column may answer. -/
def SearchAnswers (env : Env) (db : Db) (out : List (Row × ℚ)) : Prop :=
  if env.vss then
    ∃ v f, VssArms spec col k dsStart dsEnd (db.tables spec.name) v f
      ∧ VssSelects k dsStart dsEnd (db.tables spec.name) v f out
  else if env.lance then
    ∃ v f, LanceArms spec col k (db.index spec.name) v f
      ∧ LanceSelects k dsStart dsEnd (db.tables spec.name) v f out
  else False

/-- At most `k` rows of the scan, no key twice, each with a positive score, and a `_score` that is not
also a column of the table. -/
structure SubView (t : PhysTable) (out : List (Row × ℚ)) : Prop where
  length : out.length ≤ k
  keys : (out.map fun x => x.1.key).Nodup
  positive : ∀ x ∈ out, 0 < x.2
  rows : ∀ x ∈ out, x.1 ∈ visible dsStart dsEnd t
  names : (spec.allColumnNames ++ ["_score"]).Nodup

end Arms

/-! ## Scores and keys -/

theorem rankWeight_pos (rk : ℕ) : 0 < rankWeight (some rk) := by
  unfold rankWeight
  positivity

theorem rankWeight_nonneg (x : Option ℕ) : 0 ≤ rankWeight x := by
  cases x with
  | none => exact le_refl _
  | some rk => exact (rankWeight_pos rk).le

section Fused

variable {κ : Type} [DecidableEq κ] {v f : List κ}

theorem fused_keys (hv : v.Nodup) (hf : f.Nodup) : ((fused v f).map Prod.fst).Nodup := by
  rw [fused, List.map_map]
  exact outerJoin_keys (by rwa [numbered_keys]) (by rwa [numbered_keys])

/-- Each key of an arm is fused, with the score of its two ranks. -/
theorem mem_fused (hv : v.Nodup) (hf : f.Nodup) {a : κ} {s : ℚ} :
    (a, s) ∈ fused v f ↔ (a ∈ v ∨ a ∈ f) ∧ s = rrf (rank v a) (rank f a) := by
  have hjoin := fun x y => mem_outerJoin (v := numbered v) (f := numbered f) (a := a) (x := x) (y := y)
    (by rwa [numbered_keys]) (by rwa [numbered_keys])
  simp only [numbered_keys] at hjoin
  rw [fused, List.mem_map]
  constructor
  · rintro ⟨⟨b, x, y⟩, hmem, heq⟩
    obtain ⟨hb, rfl⟩ := Prod.mk.inj heq
    obtain rfl : b = a := hb
    obtain ⟨hin, rfl, rfl⟩ := (hjoin x y).mp hmem
    exact ⟨hin, rfl⟩
  · rintro ⟨hin, rfl⟩
    exact ⟨_, (hjoin _ _).mpr ⟨hin, rfl, rfl⟩, rfl⟩

theorem fused_pos (hv : v.Nodup) (hf : f.Nodup) {x : κ × ℚ} (hx : x ∈ fused v f) : 0 < x.2 := by
  obtain ⟨hin, hs⟩ := (mem_fused hv hf).mp hx
  rw [hs, rrf]
  rcases hin with h | h
  · obtain ⟨i, hi⟩ := rank_of_mem h
    rw [hi]
    exact add_pos_of_pos_of_nonneg (rankWeight_pos i) (rankWeight_nonneg _)
  · obtain ⟨i, hi⟩ := rank_of_mem h
    rw [hi]
    exact add_pos_of_nonneg_of_pos (rankWeight_nonneg _) (rankWeight_pos i)

end Fused

theorem joins_iff {r : Row} {key : Option String} :
    joins r key = true ↔ ∃ s, r.key.text = some s ∧ key = some s := by
  rw [joins, Bool.and_eq_true, beq_iff_eq, Option.isSome_iff_exists]
  constructor
  · rintro ⟨⟨s, hs⟩, heq⟩
    exact ⟨s, hs, heq ▸ hs⟩
  · rintro ⟨s, hs, rfl⟩
    exact ⟨⟨s, hs⟩, hs⟩

section Views

variable {spec : TableSpec} {k : ℕ} {dsStart dsEnd : Option String} {t : PhysTable}
  {out : List (Row × ℚ)}

theorem mem_visible {r : Row} : r ∈ visible dsStart dsEnd t
    ↔ ∃ row ∈ t.rows, asof dsStart dsEnd row = true ∧ r = row.shown := by
  rw [visible, List.mem_map]
  constructor
  · rintro ⟨row, hrow, rfl⟩
    obtain ⟨hrow, hasof⟩ := List.mem_filter.mp hrow
    exact ⟨row, hrow, hasof, rfl⟩
  · rintro ⟨row, hrow, hasof, rfl⟩
    exact ⟨row, List.mem_filter.mpr ⟨hrow, hasof⟩, rfl⟩

theorem visible_keys : (visible dsStart dsEnd t).map Row.key
    = (t.rows.filter (asof dsStart dsEnd)).map Row.key := by
  rw [visible, List.map_map]
  rfl

theorem visible_nodup : ((visible dsStart dsEnd t).map Row.key).Nodup := by
  rw [visible_keys]
  exact t.pkUnique.sublist (List.Sublist.map Row.key List.filter_sublist)

/-- The keys of a table's rows are cells of its key column. -/
def PhysTable.Keyed (spec : TableSpec) (t : PhysTable) : Prop := ∀ r ∈ t.rows, KeyCell spec r.key

/-- A row of the window and a key of the table with the same text. -/
theorem key_of_joins (ht : t.Keyed spec) {r : Row} (hr : r ∈ visible dsStart dsEnd t) {key : Cell}
    (hkey : key ∈ t.rows.map Row.key) (hon : joins r key.text = true) : r.key = key := by
  obtain ⟨row, hrow, -, rfl⟩ := mem_visible.mp hr
  obtain ⟨other, hother, rfl⟩ := List.mem_map.mp hkey
  obtain ⟨s, hs, hs'⟩ := joins_iff.mp hon
  refine (ht row hrow).text_inj (ht other hother) (t.pkNotNull row hrow) (t.pkNotNull other hother) ?_
  rw [hs']
  exact hs

/-- Distinct keys of which a row matches no two. -/
theorem matches_one {κ : Type} (on : Row → κ → Bool) {h : List (κ × ℚ)}
    (hkeys : (h.map Prod.fst).Nodup) {r : Row} (hon : ∀ x ∈ h, ∀ y ∈ h, on r x.1 = true → on r y.1 = true → x.1 = y.1) :
    (h.filter fun x => on r x.1).length ≤ 1 := by
  cases hm : h.filter fun x => on r x.1 with
  | nil => simp
  | cons x rest =>
    cases rest with
    | nil => simp
    | cons y rest =>
      have hx : x ∈ h.filter fun x => on r x.1 := by simp [hm]
      have hy : y ∈ h.filter fun x => on r x.1 := by simp [hm]
      have hsub : (h.filter fun x => on r x.1).Sublist h := List.filter_sublist
      have hnodup := hkeys.sublist (hsub.map Prod.fst)
      rw [hm, List.map_cons, List.map_cons, List.nodup_cons] at hnodup
      obtain ⟨hx, honx⟩ := List.mem_filter.mp hx
      obtain ⟨hy, hony⟩ := List.mem_filter.mp hy
      exact absurd (List.mem_cons.mpr (.inl (hon x hx y hy honx hony))) hnodup.1

theorem names_nodup (hname : "_score" ∉ spec.columnNames) :
    (spec.allColumnNames ++ ["_score"]).Nodup := by
  have hall : spec.allColumnNames.Nodup := by
    refine spec.namesNodup.append (by decide) fun c hc => ?_
    exact spec.not_mem_meta hc
  refine hall.append (by decide) ?_
  intro c hc hscore
  rw [List.mem_singleton.mp hscore] at hc
  rcases List.mem_append.mp hc with hc | hc
  · exact hname hc
  · exact absurd hc (by decide)

/-- The keys of a join whose rows match one key at most. -/
theorem joinBack_keys {κ : Type} (on : Row → κ → Bool) {h : List (κ × ℚ)}
    (hone : ∀ r ∈ visible dsStart dsEnd t, (h.filter fun x => on r x.1).length ≤ 1) :
    ((joinBack on (visible dsStart dsEnd t) h).map fun x => x.1.key).Nodup := by
  have hsub := (joinBack_rows hone).map Row.key
  rw [List.map_map] at hsub
  exact visible_nodup.sublist hsub

variable {col : String}

theorem VssArms.keys {v f : List Cell} (h : VssArms spec col k dsStart dsEnd t v f) :
    v.Nodup ∧ f.Nodup ∧ ∀ key, key ∈ v ∨ key ∈ f → key ∈ t.rows.map Row.key := by
  refine ⟨?_, ?_, ?_⟩
  · exact h.vector.nodup (t.pkUnique.sublist (List.filter_sublist.map Row.key))
  · exact h.text.nodup (t.pkUnique.sublist (List.filter_sublist.map Row.key))
  · rintro key (hv | hf)
    · exact (List.filter_sublist.map Row.key).subset (h.vector.mem hv)
    · exact (List.filter_sublist.map Row.key).subset (h.text.mem hf)

/-- What the vss backend selects, over any arms. -/
theorem vss_subView (ht : t.Keyed spec) (hname : "_score" ∉ spec.columnNames) {v f : List Cell}
    (harms : VssArms spec col k dsStart dsEnd t v f) (hsel : VssSelects k dsStart dsEnd t v f out) :
    SubView spec k dsStart dsEnd t out := by
  obtain ⟨h, htop, hout⟩ := hsel
  obtain ⟨hv, hf, htable⟩ := harms.keys
  have hkeys : (h.map Prod.fst).Nodup := by
    obtain ⟨m, hperm, hsub⟩ := htop.picks.sub
    exact (hperm.map Prod.fst).nodup_iff.mp ((fused_keys hv hf).sublist (hsub.map Prod.fst))
  have hon : ∀ r ∈ visible dsStart dsEnd t, ∀ x ∈ h, joins r x.1.text = true → r.key = x.1 := by
    intro r hr x hx hjoins
    have hmem := htop.picks.mem hx
    exact key_of_joins ht hr (htable x.1 ((mem_fused hv hf).mp hmem).1) hjoins
  let on : Row → Cell → Bool := fun r key => joins r key.text
  have hjoin := joinBack_keys on fun r hr => matches_one on hkeys fun x hx y hy h1 h2 =>
    (hon r hr x hx h1).symm.trans (hon r hr y hy h2)
  have hmem : ∀ x ∈ out, x.1 ∈ visible dsStart dsEnd t ∧ (x.1.key, x.2) ∈ h := by
    intro x hx
    obtain ⟨hr, key, hkey, hjoins⟩ := mem_joinBack.mp (hout.subset hx)
    refine ⟨hr, ?_⟩
    rw [hon x.1 hr _ hkey hjoins]
    exact hkey
  have hnodup : (out.map fun x => x.1.key).Nodup := (hout.map _).nodup_iff.mpr hjoin
  refine ⟨?_, hnodup, ?_, fun x hx => (hmem x hx).1, names_nodup hname⟩
  · -- each row that is emitted has its own entry among the best
    have hsub : (out.map fun x => x.1.key) ⊆ h.map Prod.fst := by
      intro key hkey
      obtain ⟨x, hx, rfl⟩ := List.mem_map.mp hkey
      exact List.mem_map.mpr ⟨_, (hmem x hx).2, rfl⟩
    have hle := (List.subperm_of_subset hnodup hsub).length_le
    rw [List.length_map, List.length_map] at hle
    exact hle.trans htop.picks.length
  · intro x hx
    exact fused_pos hv hf (htop.picks.mem (hmem x hx).2)

/-- What the lance backend selects, over any arms of a side dataset with distinct keys. -/
theorem lance_subView {index : List IndexRow} (hindex : (index.map IndexRow.pk).Nodup)
    (hname : "_score" ∉ spec.columnNames) {v f : List String}
    (harms : LanceArms spec col k index v f) (hsel : LanceSelects k dsStart dsEnd t v f out) :
    SubView spec k dsStart dsEnd t out := by
  have hv : v.Nodup := harms.vector.nodup (hindex.sublist (List.filter_sublist.map IndexRow.pk))
  have hf : f.Nodup := harms.text.nodup (hindex.sublist (List.filter_sublist.map IndexRow.pk))
  let on : Row → String → Bool := fun r pk => joins r (some pk)
  have hon : ∀ r x y, on r x = true → on r y = true → x = y := by
    intro r x y hx hy
    obtain ⟨s, hs, hx⟩ := joins_iff.mp hx
    obtain ⟨s', hs', hy⟩ := joins_iff.mp hy
    rw [Option.some.inj hx, Option.some.inj hy, Option.some.inj (hs.symm.trans hs')]
  have hjoin := @joinBack_keys dsStart dsEnd t String on (fused v f) fun r _ =>
    matches_one on (fused_keys hv hf) fun x _ y _ => hon r x.1 y.1
  obtain ⟨m, hperm, hsub⟩ := hsel.picks.sub
  refine ⟨hsel.picks.length, ?_, ?_, ?_, names_nodup hname⟩
  · exact (hperm.map fun x : Row × ℚ => x.1.key).nodup_iff.mp (hjoin.sublist (hsub.map _))
  · intro x hx
    obtain ⟨-, pk, hpk, -⟩ := mem_joinBack.mp (hsel.picks.mem hx)
    exact fused_pos hv hf hpk
  · intro x hx
    exact (mem_joinBack.mp (hsel.picks.mem hx)).1

end Views

/-! ## Runs of writes and rebuilds -/

/-- What happens to a store when nothing runs beside anything: a write, the refresh of a full-text
index, a rebuild. -/
inductive Change where
  | write (st : Stamp) (op : Op)
  | refresh (spec : TableSpec)
  | rebuild (now : String → Nat → String)

/-- One after another.  A write may fail half way, a rebuild completes. -/
def change (env : Env) (schema : Schema) (db : Db) : Change → Option Db
  | .write st op => some (execute env schema st op db).1
  | .refresh spec =>
    match exec env (.rebuildFts spec) db with
    | .ok db' => some db'
    | .error _ => some db
  | .rebuild now =>
    match rebuild env schema now db with
    | (db', .ok _) => some db'
    | (_, .error _) => none

section Turns

variable (env : Env) (schema : Schema)

/-- The keys that are indexed have Python texts of their own: a new one that an entry of the side
dataset has already is the text of a stored key, and no two put lines share one. -/
def Change.Apart (db : Db) : Change → Prop
  | .write _ (.insert table rows _) => ∀ spec ∈ schema.tables, spec.name = table →
    ∀ row ∈ rows, keyText env.repr spec row ∈ (db.index spec.name).map IndexRow.pk →
      ∃ r ∈ (db.tables spec.name).rows, r.key.text = some (keyText env.repr spec row)
  | .write _ (.delete _ _ _) => True
  | .refresh _ => True
  | .rebuild _ => ∀ spec ∈ schema.tables, ((putsOf (iterEvents db.files spec.name)).map fun m =>
    keyText env.repr spec (jsonRecord spec m)).Nodup

def Db.Keyed (db : Db) : Prop := ∀ spec ∈ schema.tables, (db.tables spec.name).Keyed spec

/-- The keys of a side dataset are distinct. -/
def Db.IndexApart (db : Db) : Prop :=
  ∀ spec ∈ schema.tables, ((db.index spec.name).map IndexRow.pk).Nodup

end Turns

section Steps

variable {env : Env} {schema : Schema} {db db' : Db}

/-- What each act keeps, acts keep up to the one that fails. -/
theorem execAll_keeps {I : Db → Prop} {acts : List Act} (hdb : I db)
    (hstep : ∀ a ∈ acts, ∀ mid mid', I mid → exec env a mid = .ok mid' → I mid') :
    I (execAll env acts db).1 := by
  induction acts generalizing db with
  | nil => exact hdb
  | cons a acts ih =>
    rw [execAll]
    cases h : exec env a db with
    | error e => exact hdb
    | ok mid =>
      apply ih (hstep a List.mem_cons_self db mid hdb h)
      intro b hb
      exact hstep b (List.mem_cons_of_mem _ hb)

/-- Rows go into tables of the schema only. -/
def Act.Known (schema : Schema) : Act → Prop
  | .insert spec _ _ _ _ => spec ∈ schema.tables
  | _ => True

theorem exec_keyed {a : Act} (ha : a.Known schema) (hdb : db.Keyed schema)
    (h : exec env a db = .ok db') : db'.Keyed schema := by
  intro spec hspec r hr
  have hold : ∀ x ∈ db.shown spec.name, KeyCell spec x.key := by
    intro x hx
    obtain ⟨y, hy, rfl⟩ := List.mem_map.mp hx
    exact hdb spec hspec y hy
  have hshown : r.shown ∈ db'.shown spec.name := List.mem_map_of_mem hr
  rw [exec_shown h] at hshown
  show KeyCell spec r.shown.key
  generalize r.shown = x at hshown
  cases a with
  | insert other rec search ds ca =>
    by_cases hn : other.name = spec.name
    · obtain rfl := schema.eq_of_name ha hspec hn
      rw [Act.effect, if_pos rfl] at hshown
      rcases List.mem_append.mp hshown with hx | hx
      · exact hold x hx
      · exact stored_keyCell (toOption_some_iff.mp (Option.mem_toList.mp hx))
    · rw [Act.effect, if_neg hn] at hshown
      exact hold x hshown
  | softDelete other keys ds at' =>
    rw [Act.effect] at hshown
    split at hshown
    · split at hshown
      · obtain ⟨y, hy, rfl⟩ := List.mem_map.mp hshown
        rw [mark_key]
        exact hold y hy
      · exact hold x hshown
    · exact hold x hshown
  | clear other =>
    rw [Act.effect] at hshown
    split at hshown
    · cases hshown
    · exact hold x hshown
  | append _ _ _ | rebuildFts _ | indexAppend _ _ | indexOverwrite _ _ => exact hold x hshown

/-- An act that leaves the side datasets alone. -/
def Act.Unindexed : Act → Prop
  | .indexAppend _ _ | .indexOverwrite _ _ => False
  | _ => True

theorem exec_index {a : Act} (ha : a.Unindexed) (h : exec env a db = .ok db') :
    db'.index = db.index := by
  cases a with
  | append ds table line =>
    obtain ⟨m, -, rfl⟩ := exec_append_iff.mp h
    rfl
  | insert spec r search ds ca =>
    obtain ⟨row, t, -, -, -, -, rfl⟩ := exec_insert_iff.mp h
    rfl
  | softDelete spec keys ds at' =>
    rcases exec_softDelete_iff.mp h with ⟨-, rfl⟩ | ⟨-, x, -, rfl⟩ <;> rfl
  | clear spec =>
    obtain rfl := Except.ok.inj h
    rfl
  | rebuildFts spec =>
    obtain rfl := Except.ok.inj h
    split <;> rfl
  | indexAppend spec rows | indexOverwrite spec rows => exact ha.elim

theorem execAll_index {acts : List Act} (h : ∀ a ∈ acts, a.Unindexed) :
    (execAll env acts db).1.index = db.index := by
  refine execAll_keeps (I := fun d => d.index = db.index) rfl ?_
  intro a ha mid mid' hmid hexec
  exact (exec_index (h a ha) hexec).trans hmid

/-- An act after which the keys of a side dataset are distinct if they were. -/
def Act.Resets : Act → Prop
  | .indexAppend _ _ => False
  | .indexOverwrite _ rows => (rows.map IndexRow.pk).Nodup
  | _ => True

theorem Db.IndexApart.congr (hdb : db.IndexApart schema) (h : db'.index = db.index) :
    db'.IndexApart schema := by
  intro spec hspec
  rw [h]
  exact hdb spec hspec

theorem Db.IndexApart.update (hdb : db.IndexApart schema) {name : String} {rows : List IndexRow}
    (hrows : (rows.map IndexRow.pk).Nodup) :
    Db.IndexApart schema { db with index := Function.update db.index name rows } := by
  intro spec hspec
  show ((Function.update db.index name rows spec.name).map IndexRow.pk).Nodup
  by_cases hn : spec.name = name
  · rw [hn, Function.update_self]
    exact hrows
  · rw [Function.update_of_ne hn]
    exact hdb spec hspec

theorem exec_apart {a : Act} (ha : a.Resets) (hdb : db.IndexApart schema)
    (h : exec env a db = .ok db') : db'.IndexApart schema := by
  cases a with
  | indexOverwrite other rows =>
    simp only [exec] at h
    split at h
    · obtain rfl := Except.ok.inj h
      exact hdb.update ha
    · cases h
  | indexAppend other rows => exact ha.elim
  | append ds table line => exact hdb.congr (exec_index (a := .append ds table line) trivial h)
  | insert spec r search ds ca =>
    exact hdb.congr (exec_index (a := .insert spec r search ds ca) trivial h)
  | softDelete spec keys ds at' =>
    exact hdb.congr (exec_index (a := .softDelete spec keys ds at') trivial h)
  | clear spec => exact hdb.congr (exec_index (a := .clear spec) trivial h)
  | rebuildFts spec => exact hdb.congr (exec_index (a := .rebuildFts spec) trivial h)

/-! ## The write -/

theorem lancePayload_pks (env : Env) (spec : TableSpec) (rs : List Record)
    (emb : List (String × List Search)) :
    (lancePayload env spec rs emb).map IndexRow.pk = rs.map (keyText env.repr spec) := by
  have hzip : rs.map (keyText env.repr spec)
      = (rs.zipIdx.map Prod.fst).map (keyText env.repr spec) := by rw [List.zipIdx_map_fst]
  rw [lancePayload, List.mapIdx_eq_zipIdx_map, hzip, List.map_map, List.map_map]
  rfl

theorem dedupKeys_apart (repr : Json → String) (spec : TableSpec) (records : List Record)
    (seen : List String) :
    ((dedupKeys repr spec seen records).map (keyText repr spec)).Nodup
      ∧ ∀ r ∈ dedupKeys repr spec seen records, keyText repr spec r ∉ seen := by
  induction records generalizing seen with
  | nil => exact ⟨List.nodup_nil, fun r hr => absurd hr List.not_mem_nil⟩
  | cons r records ih =>
    rw [dedupKeys]
    split
    · exact ih seen
    · next hnew =>
      obtain ⟨hnodup, hrest⟩ := ih (keyText repr spec r :: seen)
      refine ⟨?_, fun x hx => ?_⟩
      · rw [List.map_cons, List.nodup_cons]
        refine ⟨fun hmem => ?_, hnodup⟩
        obtain ⟨x, hx, heq⟩ := List.mem_map.mp hmem
        exact hrest x hx (heq ▸ List.mem_cons_self)
      · rcases List.mem_cons.mp hx with rfl | hx
        · exact hnew
        · exact fun hseen => hrest x hx (List.mem_cons_of_mem _ hseen)

/-- What either validation lets through comes from the batch, under texts that are distinct and no
text of a stored key. -/
theorem validate_apart {spec : TableSpec} {t : PhysTable} {rows rs : List Record} {skip : Bool}
    (h : validate env.repr spec t rows skip = .ok rs) : (rs.map (keyText env.repr spec)).Nodup
      ∧ (∀ row ∈ t.rows, ∀ r ∈ rs, row.key.text ≠ some (keyText env.repr spec r))
      ∧ ∀ r ∈ rs, ∃ row ∈ rows, keyText env.repr spec r = keyText env.repr spec row := by
  have hproject : ∀ row, keyText env.repr spec (project spec row) = keyText env.repr spec row := by
    intro row
    rw [keyText, project_primary]
    rfl
  cases skip with
  | false =>
    obtain ⟨hnodup, hnew⟩ := validate_keys h
    refine ⟨hnodup, hnew, fun r hr => ?_⟩
    rw [validate_strict h] at hr
    obtain ⟨row, hrow, rfl⟩ := List.mem_map.mp hr
    exact ⟨row, hrow, hproject row⟩
  | true =>
    have hfrom := (validate_skip h).1
    simp only [validate, if_true] at h
    split at h
    · cases h
    · obtain rfl := Except.ok.inj h
      have hdedup := (dedupKeys_apart env.repr spec (rows.map (project spec)) []).1
      refine ⟨hdedup.sublist (List.filter_sublist.map _), fun row hrow r hr heq => ?_, fun r hr => ?_⟩
      · -- a text that is stored is filtered out
        obtain ⟨hr, hnot⟩ := List.mem_filter.mp hr
        refine of_decide_eq_true hnot ?_
        rw [existingKeys, List.mem_filter, List.mem_filterMap]
        exact ⟨⟨row, hrow, heq⟩, decide_eq_true (List.mem_map_of_mem hr)⟩
      · obtain ⟨row, hrow, rfl⟩ := hfrom r hr
        exact ⟨row, hrow, hproject row⟩

/-- The acts of an operation, but for the last one of an insert, leave the side datasets alone. -/
theorem plan_splits {st : Stamp} {d : Decision} {acts : List Act} (h : plan env st d = .ok acts) :
    ∃ before last, acts = before ++ last ∧ (∀ a ∈ before, a.Unindexed)
      ∧ (last = [] ∨ ∃ spec rs emb, d = .records spec rs ∧ env.lance = true
        ∧ last = [.indexAppend spec (lancePayload env spec rs emb)]) := by
  cases d with
  | records spec rs =>
    rcases plan_records h with rfl | ⟨emb, -, rfl⟩
    · exact ⟨[], [], rfl, by simp, .inl rfl⟩
    · refine ⟨putActs spec rs st ++ rowActs spec rs emb st, indexActs env spec rs emb, rfl, ?_, ?_⟩
      · intro a ha
        rcases List.mem_append.mp ha with ha | ha
        · obtain ⟨r, -, rfl⟩ := List.mem_map.mp ha
          trivial
        · obtain ⟨i, hi, rfl⟩ := List.mem_mapIdx.mp ha
          trivial
      · rw [indexActs]
        split
        · next hcond =>
          exact .inr ⟨spec, rs, emb, rfl, (Bool.and_eq_true_iff.mp hcond.1).1, rfl⟩
        · exact .inl rfl
  | keys spec ks =>
    obtain rfl := Except.ok.inj h
    refine ⟨_, [], (List.append_nil _).symm, ?_, .inl rfl⟩
    intro a ha
    rcases mem_deleteActs ha with ⟨k, -, rfl⟩ | rfl <;> trivial

/-- An operation leaves the state alone, or as its acts leave it. -/
theorem execute_state (env : Env) (schema : Schema) (st : Stamp) (op : Op) (db : Db) :
    (execute env schema st op db).1 = db ∨ ∃ d acts, decideOp env schema db.tables op = .ok d
      ∧ plan env st d = .ok acts ∧ (execute env schema st op db).1 = (execAll env acts db).1 := by
  unfold execute
  split
  · exact .inl rfl
  next d hd =>
  split
  · exact .inl rfl
  next acts hacts =>
  refine .inr ⟨d, acts, hd, hacts, ?_⟩
  split
  · next hrun => rw [hrun]
  · next hrun => rw [hrun]

/-- The new keys of an insert beside the keys that are indexed. -/
theorem insert_keys_apart {spec : TableSpec} {rows rs : List Record} {skip : Bool}
    (hold : ((db.index spec.name).map IndexRow.pk).Nodup)
    (hval : validate env.repr spec (db.tables spec.name) rows skip = .ok rs)
    (hapart : ∀ row ∈ rows, keyText env.repr spec row ∈ (db.index spec.name).map IndexRow.pk →
      ∃ r ∈ (db.tables spec.name).rows, r.key.text = some (keyText env.repr spec row))
    (emb : List (String × List Search)) :
    ((db.index spec.name ++ lancePayload env spec rs emb).map IndexRow.pk).Nodup := by
  obtain ⟨hnodup, hnew, hfrom⟩ := validate_apart hval
  rw [List.map_append, lancePayload_pks]
  refine hold.append hnodup ?_
  intro key hindexed hkey
  obtain ⟨r, hr, rfl⟩ := List.mem_map.mp hkey
  obtain ⟨row, hrow, heq⟩ := hfrom r hr
  rw [heq] at hindexed
  obtain ⟨old, hold, htext⟩ := hapart row hrow hindexed
  exact hnew old hold r hr (heq ▸ htext)

/-- A write of keys with texts of their own. -/
theorem execute_apart {st : Stamp} {op : Op} (hdb : db.IndexApart schema)
    (hop : Change.Apart env schema db (.write st op)) :
    (execute env schema st op db).1.IndexApart schema := by
  rcases execute_state env schema st op db with hsame | ⟨d, acts, hd, hacts, heq⟩
  · rw [hsame]
    exact hdb
  obtain ⟨before, last, rfl, hbefore, hlast⟩ := plan_splits hacts
  have hindex : (execAll env before db).1.index = db.index := execAll_index hbefore
  rw [heq, execAll_append]
  split
  · next mid hmid =>
    rw [hmid] at hindex
    have hapart : mid.IndexApart schema := hdb.congr hindex
    rcases hlast with rfl | ⟨spec, rs, emb, rfl, -, rfl⟩
    · exact hapart
    cases op with
    | delete table cond params =>
      obtain ⟨text, spec', ks, -, -, -, hd'⟩ := decide_delete hd
      cases hd'
    | insert table rows skip =>
      obtain ⟨spec', rs', htable, hval, hd'⟩ := decide_insert hd
      obtain ⟨rfl, rfl⟩ := Decision.records.inj hd'
      obtain ⟨hspec, hname⟩ := schema.table_mem htable
      have hnew := insert_keys_apart (hdb spec hspec) hval (hop spec hspec hname) emb
      rw [execAll]
      split
      · next db' hexec =>
        simp only [exec] at hexec
        split at hexec
        · obtain rfl := Except.ok.inj hexec
          refine hapart.update ?_
          rw [show mid.index spec.name = db.index spec.name from congrFun hindex spec.name]
          exact hnew
        · cases hexec
      · exact hapart
  · next mid e hmid =>
    rw [hmid] at hindex
    exact hdb.congr hindex

/-! ## The run -/

theorem plan_known {st : Stamp} {op : Op} {d : Decision} {acts : List Act}
    (hd : decideOp env schema db.tables op = .ok d) (h : plan env st d = .ok acts) :
    ∀ a ∈ acts, a.Known schema := by
  intro a ha
  have hadds := plan_adds (decide_of hd) h a ha
  cases a with
  | insert spec r search ds ca => exact hadds
  | _ => trivial

theorem replayActs_known {now : String → Nat → String} {snaps : List Snap}
    (h : ∀ s ∈ snaps, s.spec ∈ schema.tables) :
    ∀ a ∈ replayActs env schema now snaps, a.Known schema := by
  intro a ha
  rcases mem_replayActs ha with ⟨spec, -, rfl⟩ | ⟨s, hs, ha⟩
  · trivial
  · rcases mem_loadActs ha with ⟨_, _, _, _, rfl⟩ | ⟨_, -, rfl⟩ | rfl | ⟨-, rfl⟩
    · exact h s hs
    all_goals trivial

theorem replayActs_resets {now : String → Nat → String} {snaps : List Snap}
    (h : ∀ s ∈ snaps, (s.recs.map (keyText env.repr s.spec)).Nodup) :
    ∀ a ∈ replayActs env schema now snaps, a.Resets := by
  intro a ha
  rcases mem_replayActs ha with ⟨spec, -, rfl⟩ | ⟨s, hs, ha⟩
  · trivial
  · rcases mem_loadActs ha with ⟨_, _, _, _, rfl⟩ | ⟨_, -, rfl⟩ | rfl | ⟨-, rfl⟩
    · trivial
    · trivial
    · trivial
    · show (List.map IndexRow.pk _).Nodup
      rw [lancePayload_pks]
      exact h s hs

theorem change_refresh {spec : TableSpec} (h : change env schema db (.refresh spec) = some db') :
    exec env (.rebuildFts spec) db = .ok db' ∨ db' = db := by
  simp only [change] at h
  split at h
  · next hexec => exact .inl (Option.some.inj h ▸ hexec)
  · exact .inr (Option.some.inj h).symm

theorem change_rebuild {now : String → Nat → String}
    (h : change env schema db (.rebuild now) = some db') : ∃ snaps,
      (schema.tables.mapM fun spec => snapshot env spec db.files) = .ok snaps
        ∧ execAll env (replayActs env schema now snaps) db = (db', none) := by
  simp only [change] at h
  split at h
  · next hrun =>
    obtain rfl := Option.some.inj h
    obtain ⟨snaps, hsnaps, hacts, -⟩ := rebuild_ok_iff.mp hrun
    exact ⟨snaps, hsnaps, hacts⟩
  · cases h

theorem change_keyed {l : Change} (hdb : db.Keyed schema) (h : change env schema db l = some db') :
    db'.Keyed schema := by
  cases l with
  | write st op =>
    obtain rfl := Option.some.inj h
    rcases execute_state env schema st op db with hsame | ⟨d, acts, hd, hacts, heq⟩
    · rw [hsame]
      exact hdb
    · rw [heq]
      exact execAll_keeps hdb fun a ha mid mid' hmid => exec_keyed (plan_known hd hacts a ha) hmid
  | refresh spec =>
    rcases change_refresh h with hexec | rfl
    · exact exec_keyed (a := .rebuildFts spec) trivial hdb hexec
    · exact hdb
  | rebuild now =>
    obtain ⟨snaps, hsnaps, hacts⟩ := change_rebuild h
    have hknown : ∀ a ∈ replayActs env schema now snaps, a.Known schema :=
      replayActs_known fun s hs => (mem_snapshots hsnaps hs).1
    have hkept : (execAll env (replayActs env schema now snaps) db).1.Keyed schema :=
      execAll_keeps hdb fun a ha mid mid' hmid => exec_keyed (hknown a ha) hmid
    rw [hacts] at hkept
    exact hkept

theorem change_apart {l : Change} (hdb : db.IndexApart schema) (hl : l.Apart env schema db)
    (h : change env schema db l = some db') : db'.IndexApart schema := by
  cases l with
  | write st op =>
    obtain rfl := Option.some.inj h
    exact execute_apart hdb hl
  | refresh spec =>
    rcases change_refresh h with hexec | rfl
    · exact exec_apart (a := .rebuildFts spec) trivial hdb hexec
    · exact hdb
  | rebuild now =>
    obtain ⟨snaps, hsnaps, hacts⟩ := change_rebuild h
    have hresets : ∀ a ∈ replayActs env schema now snaps, a.Resets := by
      refine replayActs_resets fun s hs => ?_
      obtain ⟨hspec, hsnap⟩ := mem_snapshots hsnaps hs
      obtain ⟨emb, -, heq⟩ := snapshot_ok_iff.mp hsnap
      have hputs : s.puts = putsOf (iterEvents db.files s.spec.name) := by rw [heq]
      rw [Snap.recs, List.map_map, hputs]
      exact hl s.spec hspec
    have hkept : (execAll env (replayActs env schema now snaps) db).1.IndexApart schema :=
      execAll_keeps hdb fun a ha mid mid' hmid => exec_apart (hresets a ha) hmid
    rw [hacts] at hkept
    exact hkept

theorem init_keyed : Db.init.Keyed schema := by
  intro spec _ r hr
  cases hr

theorem init_apart : Db.init.IndexApart schema := fun _ _ => List.nodup_nil

/-- In every run the answers of the vss backend are sub-views of the scan of a table without a column
`_score`, and those of the lance backend in every run whose keys have texts of their own. -/
theorem search_is_subview {changes : List Change}
    (hapart : env.lance = true → Guarded (change env schema) (Change.Apart env schema) Db.init changes)
    (hrun : run (change env schema) Db.init changes = some db) {spec : TableSpec}
    (hspec : spec ∈ schema.tables) (hname : "_score" ∉ spec.columnNames) {col : String}
    {k : ℕ} {dsStart dsEnd : Option String} {out : List (Row × ℚ)}
    (hout : SearchAnswers spec col k dsStart dsEnd env db out) :
    SubView spec k dsStart dsEnd (db.tables spec.name) out := by
  rw [SearchAnswers] at hout
  split at hout
  · obtain ⟨v, f, harms, hsel⟩ := hout
    have hkeyed : db.Keyed schema := run_invariant (fun _ _ _ => change_keyed) init_keyed hrun
    exact vss_subView (hkeyed spec hspec) hname harms hsel
  split at hout
  · next hlance =>
    obtain ⟨v, f, harms, hsel⟩ := hout
    have hindex : db.IndexApart schema :=
      run_guarded (fun _ _ _ hdb hl => change_apart hdb hl) init_apart (hapart hlance) hrun
    exact lance_subView (hindex spec hspec) hname harms hsel
  · exact hout.elim

end Steps

/-! ## Two keys with one text -/

/-- The lance backend, with DuckDB's casts. -/
def lanceEnv : Env := { castEnv with embedder := some textEmbedder, backend := .lance }

/-- Notes that are written at once. -/
def noteInsert (notes : List (Val × String)) : Change :=
  .write ⟨"20260102", "t1", t1_ne⟩
    (.insert "notes" (notes.map fun n => [("id", n.1), ("text", strVal n.2)]) false)

def noteRow (id text : String) : Row :=
  ⟨.varchar id, [.varchar id, .varchar text], some "20260102", some "t1", none, none, []⟩

def indexedNote (id text : String) : IndexRow := ⟨id, [(some ⟨[text]⟩, some text)]⟩

/-- Two arms over a dataset of notes, each with a vector and tokens. -/
theorem note_answers {db : Db} {rows : List Row} {index : List IndexRow} {k : ℕ}
    (hrows : (db.tables "notes").rows = rows) (hindex : db.index "notes" = index)
    (hvec : ∀ x ∈ index, (searchOf searchNotes "text" x.search).1.isSome = true)
    (htok : ∀ x ∈ index, (searchOf searchNotes "text" x.search).2.isSome = true)
    {v f : List String} (hv : v.Subperm (index.map IndexRow.pk)) (hf : f.Subperm (index.map IndexRow.pk))
    (hlen : v.length ≤ lanceCand k ∧ f.length ≤ lanceCand k) {found out : List (Row × ℚ)}
    (hfound : joinBack (fun r pk => joins r (some pk)) ((rows.filter (asof none none)).map Row.shown)
      (fused v f) = found) (hout : Leading Prod.snd k found out) :
    SearchAnswers searchNotes "text" k none none lanceEnv db out := by
  subst hrows hindex hfound
  refine ⟨v, f, ⟨⟨?_, hlen.1⟩, ⟨?_, hlen.2⟩⟩, hout⟩
  · show v.Subperm (((db.index "notes").filter _).map IndexRow.pk)
    rw [List.filter_eq_self.mpr hvec]
    exact hv
  · show f.Subperm (((db.index "notes").filter _).map IndexRow.pk)
    rw [List.filter_eq_self.mpr htok]
    exact hf

/-- Two notes, the second of which both arms find. -/
theorem search_is_subview_notes : ∃ db,
    run (change lanceEnv searchSchema) Db.init [noteInsert [(strVal "n1", "v1"), (strVal "n2", "v2")]]
        = some db
      ∧ SubView searchNotes 2 none none (db.tables "notes")
        [(noteRow "n2" "v2", 1 / 62 + 1 / 61), (noteRow "n1" "v1", 1 / 61)] := by
  have hsome : (run (change lanceEnv searchSchema) Db.init
      [noteInsert [(strVal "n1", "v1"), (strVal "n2", "v2")]]).map
        (fun db => ((db.tables "notes").rows, db.index "notes"))
      = some ([noteRow "n1" "v1", noteRow "n2" "v2"], [indexedNote "n1" "v1", indexedNote "n2" "v2"]) := by
    decide +kernel
  obtain ⟨db, hrun, hdb⟩ := Option.map_eq_some_iff.mp hsome
  obtain ⟨hrows, hindex⟩ := Prod.mk.inj hdb
  refine ⟨db, hrun, ?_⟩
  have hv : ["n1", "n2"].Subperm ([indexedNote "n1" "v1", indexedNote "n2" "v2"].map IndexRow.pk) :=
    List.Subperm.refl _
  have hf : ["n2"].Subperm ([indexedNote "n1" "v1", indexedNote "n2" "v2"].map IndexRow.pk) :=
    (List.sublist_cons_self "n1" ["n2"]).subperm
  have hfound : joinBack (fun r pk => joins r (some pk))
      (([noteRow "n1" "v1", noteRow "n2" "v2"].filter (asof none none)).map Row.shown)
        (fused ["n1", "n2"] ["n2"])
      = [(noteRow "n1" "v1", 1 / 61), (noteRow "n2" "v2", 1 / 62 + 1 / 61)] := by
    decide +kernel
  have hout := note_answers hrows hindex (by decide) (by decide) hv hf (by decide) hfound
    (Leading.perm (n := 2) (Leading.of_sorted (by decide +kernel) (by decide))
      (List.Perm.swap (noteRow "n1" "v1", (1 / 61 : ℚ)) (noteRow "n2" "v2", 1 / 62 + 1 / 61) []))
  have hapart : Guarded (change lanceEnv searchSchema) (Change.Apart lanceEnv searchSchema) Db.init
      [noteInsert [(strVal "n1", "v1"), (strVal "n2", "v2")]] := by
    refine ⟨?_, fun _ _ => trivial⟩
    intro spec _ _ row _ hmem
    cases hmem
  exact search_is_subview (fun _ => hapart) hrun (by simp [searchSchema]) (by decide) hout

/-- A boolean and a text are indexed under one text, and the row of the text is emitted twice. -/
theorem emitted_twice : ∃ db out,
    run (change lanceEnv searchSchema) Db.init
        [noteInsert [(.json (.bool true), "v1")], noteInsert [(strVal "True", "v2")]] = some db
      ∧ SearchAnswers searchNotes "text" 2 none none lanceEnv db out
      ∧ ¬ SubView searchNotes 2 none none (db.tables "notes") out := by
  have hsome : (run (change lanceEnv searchSchema) Db.init
      [noteInsert [(.json (.bool true), "v1")], noteInsert [(strVal "True", "v2")]]).map
        (fun db => ((db.tables "notes").rows, db.index "notes"))
      = some ([noteRow "true" "v1", noteRow "True" "v2"],
        [indexedNote "True" "v1", indexedNote "True" "v2"]) := by
    decide +kernel
  obtain ⟨db, hrun, hdb⟩ := Option.map_eq_some_iff.mp hsome
  obtain ⟨hrows, hindex⟩ := Prod.mk.inj hdb
  have hv : ["True", "True"].Subperm ([indexedNote "True" "v1", indexedNote "True" "v2"].map IndexRow.pk) :=
    List.Subperm.refl _
  have hfound : joinBack (fun r pk => joins r (some pk))
      (([noteRow "true" "v1", noteRow "True" "v2"].filter (asof none none)).map Row.shown)
        (fused ["True", "True"] [])
      = [(noteRow "True" "v2", 1 / 61), (noteRow "True" "v2", 1 / 62)] := by
    decide +kernel
  have hout := note_answers (k := 2) hrows hindex (by decide) (by decide) hv List.nil_subperm (by decide)
    hfound (Leading.of_sorted (by decide +kernel) (by decide))
  exact ⟨db, _, hrun, hout, fun h => absurd h.keys (by decide)⟩

end Seekbase
