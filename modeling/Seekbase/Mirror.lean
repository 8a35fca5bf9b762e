/-
# Seekbase.Mirror — file ≥ DuckDB: no row without its line, whatever is interrupted.

The invariant of the tables is `Covered`: a row's put line, and its tombstone if it is marked, are in
the mirror.  What carries it through every interleaving is a property of the PROGRAMS rather than of
the state: a list of acts is `Backed` by a mirror when every row it will insert and every mark it
will set has its line in the mirror already, or an append of it earlier in the same list.

* `Act.Backed`, `Backed` — the mirror only grows, so being backed outlives every other step;
* `insertActs_backed`, `deleteActs_backed` — the worker appends before it commits;
* `replayActs_backed`    — a rebuild re-inserts nothing but lines it has read;
* `file_ge_duckdb`       — so every run keeps every row covered, a crash after any step included.
-/
import Seekbase.Fidelity
import Seekbase.System

namespace Seekbase

open JsonText Transition

/-! ## Lines and rows -/

section Lines

variable (env : Env) (schema : Schema)

/-- A record the mirror writes into a partition of a table. -/
inductive Written (spec : TableSpec) (ds : String) : Record → Prop
  | put (r : Record) (ts : String) (hts : ts ≠ "") : Written spec ds (putLine spec r ds ts)
  | del (k : Val) (ts : String) : Written spec ds (tombstone k ts)

/-- Every line is the image of a record the mirror writes. -/
def LinesWritten (files : Files) : Prop :=
  ∀ l ∈ files, ∃ spec ∈ schema.tables, spec.name = l.table
    ∧ ∃ line, Written spec l.ds line ∧ line.toMembers? = some l.members

/-- A put line from whose record the row was stored: the same business values, `ds` and
`created_at`. -/
def HasPut (files : Files) (spec : TableSpec) (row : Row) : Prop :=
  ∃ r ds ts m, (putLine spec r ds ts).toMembers? = some m
    ∧ (⟨ds, spec.name, m⟩ : Line) ∈ files
    ∧ env.stored spec r (strVal ds) (strVal ts) = .ok row.shown.unmarked

/-- A tombstone line for a key's text in the partition `ds`, with this `deleted_at`. -/
def HasTombstone (files : Files) (spec : TableSpec) (key : String) (ds : String)
    (deletedAt : Option String) : Prop :=
  ∃ k ts m, (tombstone k ts).toMembers? = some m ∧ (⟨ds, spec.name, m⟩ : Line) ∈ files
    ∧ k.str env.repr = key ∧ deletedAt = some ts

/-- A row whose lines are in the mirror. -/
structure Covered (files : Files) (spec : TableSpec) (row : Row) : Prop where
  put : HasPut env files spec row
  mark : ∀ d, row.deletedDs = some d → ∃ key, row.key.text = some key
    ∧ HasTombstone env files spec key d row.deletedAt

end Lines

theorem stored_unmarked {env : Env} {spec : TableSpec} {r : Record} {ds ca : Val} {row : Row}
    (h : env.stored spec r ds ca = .ok row) : row.shown.unmarked = row := by
  obtain ⟨cells, key, d, c, -, -, -, -, rfl⟩ := stored_ok_iff.mp h
  rfl

section Monotone

variable {env : Env} {spec : TableSpec} {files more : Files} {row : Row}

theorem HasPut.mono (h : HasPut env files spec row) (hsub : files ⊆ more) :
    HasPut env more spec row := by
  obtain ⟨r, ds, ts, m, hm, hl, hrow⟩ := h
  exact ⟨r, ds, ts, m, hm, hsub hl, hrow⟩

theorem HasTombstone.mono {key ds : String} {at' : Option String}
    (h : HasTombstone env files spec key ds at') (hsub : files ⊆ more) :
    HasTombstone env more spec key ds at' := by
  obtain ⟨k, ts, m, hm, hl, hk, hat⟩ := h
  exact ⟨k, ts, m, hm, hsub hl, hk, hat⟩

theorem Covered.mono (h : Covered env files spec row) (hsub : files ⊆ more) :
    Covered env more spec row where
  put := h.put.mono hsub
  mark := by
    intro d hd
    obtain ⟨key, hkey, ht⟩ := h.mark d hd
    exact ⟨key, hkey, ht.mono hsub⟩

/-- What the put line of a row says of its metadata columns. -/
theorem HasPut.columns (h : HasPut env files spec row) : ∃ ds ts m,
    (⟨ds, spec.name, m⟩ : Line) ∈ files ∧ m.get "ds" = .str ds ∧ m.get "created_at" = .str ts
      ∧ row.ds = some ds ∧ row.createdAt = some ts := by
  obtain ⟨r, ds, ts, m, hm, hl, hrow⟩ := h
  obtain ⟨cells, key, d, c, -, -, hd, hc, heq⟩ := stored_ok_iff.mp hrow
  rw [env.bindText_str] at hd hc
  obtain rfl := Option.some.inj hd
  obtain rfl := Option.some.inj hc
  have hds : row.shown.unmarked.ds = some ds := by rw [heq]
  have hca : row.shown.unmarked.createdAt = some ts := by rw [heq]
  exact ⟨ds, ts, m, hl, put_ds hm, put_createdAt hm, hds, hca⟩

end Monotone

/-! ## Programs backed by the mirror -/

section Backed

variable (env : Env) (schema : Schema)

/-- What an act appends is a line of one of the tables. -/
def Act.Logs : Act → Prop
  | .append ds table line => ∃ spec ∈ schema.tables, spec.name = table ∧ Written spec ds line
  | _ => True

/-- The lines an act relies on are in the mirror. -/
def Act.Backed (files : Files) : Act → Prop
  | .append ds table line => Act.Logs schema (.append ds table line)
  | .insert spec r _ ds ca => spec ∈ schema.tables
    ∧ ∀ row, env.stored spec r ds ca = .ok row → HasPut env files spec row
  | .softDelete spec keys ds deletedAt => spec ∈ schema.tables
    ∧ ∀ at', env.bindText deletedAt = some at' →
      ∀ key ∈ keys, HasTombstone env files spec key ds at'
  | _ => True

/-- Each act is backed by the mirror as the acts before it leave it. -/
abbrev Backed : Files → List Act → Prop := Along (Act.Backed env schema)

variable {env schema} {files more : Files}

theorem backed_mono (files more : Files) (a : Act) (h : a.Backed env schema files)
    (hsub : files ⊆ more) : a.Backed env schema more := by
  cases a with
  | append ds table line => exact h
  | insert spec r search ds ca => exact ⟨h.1, fun row hrow => (h.2 row hrow).mono hsub⟩
  | softDelete spec keys ds at' =>
    exact ⟨h.1, fun x hx key hkey => (h.2 x hx key hkey).mono hsub⟩
  | clear spec | rebuildFts spec => trivial
  | indexAppend spec rows | indexOverwrite spec rows => trivial

end Backed

/-! ## The programs of the system are backed -/

section Programs

variable {env : Env} {schema : Schema} {files : Files} {spec : TableSpec}

theorem putActs_backed (hspec : spec ∈ schema.tables) (rs : List Record) (st : Stamp) :
    Backed env schema files (putActs spec rs st) := by
  apply along_of_forall backed_mono
  intro a ha
  obtain ⟨r, -, rfl⟩ := List.mem_map.mp ha
  exact ⟨spec, hspec, rfl, .put r st.ts st.tsNe⟩

theorem insertActs_backed (hspec : spec ∈ schema.tables) (rs : List Record)
    (emb : List (String × List Search)) (st : Stamp) :
    Backed env schema files (insertActs env spec rs emb st) := by
  rw [insertActs, List.append_assoc]
  refine along_append (putActs_backed hspec rs st) fun hdumps => along_of_forall backed_mono ?_
  intro a ha
  rcases List.mem_append.mp ha with ha | ha
  · obtain ⟨i, hi, rfl⟩ := List.mem_mapIdx.mp ha
    refine ⟨hspec, fun row hrow => ?_⟩
    -- the record's own append is among those before
    have hput : Act.append st.ds spec.name (putLine spec rs[i] st.ds st.ts)
        ∈ putActs spec rs st := List.mem_map_of_mem (List.getElem_mem hi)
    obtain ⟨m, hm, hline⟩ := dumped_line hdumps hput
    refine ⟨rs[i], st.ds, st.ts, m, hm, List.mem_append_right _ hline, ?_⟩
    rw [stored_unmarked hrow]; exact hrow
  · rw [indexActs_mem ha]; trivial

theorem deleteActs_backed (hspec : spec ∈ schema.tables) (ks : List Val) (st : Stamp) :
    Backed env schema files (deleteActs env.repr spec ks st) := by
  have htomb : Backed env schema files (tombstoneActs spec ks st) := by
    apply along_of_forall backed_mono
    intro a ha
    obtain ⟨k, -, rfl⟩ := List.mem_map.mp ha
    exact ⟨spec, hspec, rfl, .del k st.ts⟩
  refine along_append htomb fun hdumps => ⟨⟨hspec, fun x hx key hkey => ?_⟩, fun _ => trivial⟩
  obtain ⟨k, hk, rfl⟩ := List.mem_map.mp hkey
  have happ : Act.append st.ds spec.name (tombstone k st.ts) ∈ tombstoneActs spec ks st :=
    List.mem_map_of_mem hk
  obtain ⟨m, hm, hline⟩ := dumped_line hdumps happ
  rw [env.bindText_str] at hx
  exact ⟨k, st.ts, m, hm, List.mem_append_right _ hline, rfl, (Option.some.inj hx).symm⟩

theorem plan_backed {st : Stamp} {d : Decision} {acts : List Act} (hd : d.Of schema)
    (h : plan env st d = .ok acts) : Backed env schema files acts := by
  cases d with
  | records spec rs =>
    rcases plan_records h with rfl | ⟨emb, -, rfl⟩
    · trivial
    · exact insertActs_backed hd rs emb st
  | keys spec ks =>
    obtain rfl := Except.ok.inj h
    exact deleteActs_backed hd ks st

/-- A snapshot of lines that are in the mirror. -/
structure SnapOf (env : Env) (schema : Schema) (files : Files) (s : Snap) : Prop where
  spec : s.spec ∈ schema.tables
  puts : ∀ m ∈ s.puts, ∃ r ds ts, ts ≠ "" ∧ (putLine s.spec r ds ts).toMembers? = some m
    ∧ (⟨ds, s.spec.name, m⟩ : Line) ∈ files
  dels : ∀ d ∈ s.dels, ∃ k ts m, (tombstone k ts).toMembers? = some m
    ∧ (⟨d.ds, s.spec.name, m⟩ : Line) ∈ files ∧ k.str env.repr = d.key ∧ d.deletedAt = .str ts

theorem SnapOf.mono {more : Files} {s : Snap} (h : SnapOf env schema files s)
    (hsub : files ⊆ more) : SnapOf env schema more s where
  spec := h.spec
  puts := by
    intro m hm
    obtain ⟨r, ds, ts, hts, hput, hl⟩ := h.puts m hm
    exact ⟨r, ds, ts, hts, hput, hsub hl⟩
  dels := by
    intro d hd
    obtain ⟨k, ts, m, hm, hl, hk, hat⟩ := h.dels d hd
    exact ⟨k, ts, m, hm, hsub hl, hk, hat⟩

/-- Phase one reads lines of the mirror. -/
theorem snapshot_of (hdel : ∀ spec ∈ schema.tables, "_deleted" ∉ spec.columnNames)
    (hlines : LinesWritten schema files) (hspec : spec ∈ schema.tables) {s : Snap}
    (h : snapshot env spec files = .ok s) : SnapOf env schema files s := by
  obtain ⟨emb, -, rfl⟩ := snapshot_ok_iff.mp h
  have hwritten : ∀ ds m, (ds, m) ∈ iterEvents files spec.name →
      (⟨ds, spec.name, m⟩ : Line) ∈ files ∧ ∃ line, Written spec ds line
        ∧ line.toMembers? = some m := by
    intro ds m hev
    obtain ⟨l, hl, rfl, ht, rfl⟩ := mem_iterEvents.mp hev
    obtain ⟨other, hother, hname, line, hw, hm⟩ := hlines l hl
    obtain rfl := schema.eq_of_name hother hspec (hname.trans ht)
    exact ⟨ht ▸ hl, line, hw, hm⟩
  refine ⟨hspec, fun m hm => ?_, fun d hd => ?_⟩
  · obtain ⟨ds, hev, hput⟩ := mem_putsOf.mp hm
    obtain ⟨hl, line, hw, hm⟩ := hwritten ds m hev
    cases hw with
    | put r ts hts => exact ⟨r, ds, ts, hts, hm, hl⟩
    | del k ts =>
      rw [tombstone_isTombstone hm] at hput
      cases hput
  · obtain ⟨m, hev, htomb, hdeq⟩ := mem_delsOf.mp hd
    obtain ⟨hl, line, hw, hm⟩ := hwritten d.ds m hev
    cases hw with
    | put r ts hts =>
      rw [put_not_tombstone hm (hdel spec hspec)] at htomb
      cases htomb
    | del k ts =>
      obtain ⟨j, hj, rfl⟩ := tombstone_members hm
      refine ⟨.json j, ts, _, ?_, hl, ?_, ?_⟩
      · rw [tombstone, Record.toMembers?_cons, Record.toMembers?_cons, Record.toMembers?_nil]
        rfl
      · rw [hdeq]; rfl
      · rw [hdeq]; rfl

theorem loadActs_backed (now : Nat → String) {s : Snap} (h : SnapOf env schema files s) :
    ∀ a ∈ loadActs env now s, a.Backed env schema files := by
  intro a ha
  simp only [loadActs, List.mem_append] at ha
  rcases ha with (ha | ha) | ha
  · obtain ⟨i, hi, rfl⟩ := List.mem_mapIdx.mp ha
    obtain ⟨r, ds, ts, hts, hput, hl⟩ := h.puts _ (List.getElem_mem hi)
    refine ⟨h.spec, fun row hrow => ?_⟩
    rw [put_ds hput, put_createdAt hput, orNow_truthy (truthy_str hts)] at hrow
    refine ⟨jsonRecord s.spec s.puts[i], ds, ts, s.puts[i], putLine_reload hput, hl, ?_⟩
    rw [stored_unmarked hrow]; exact hrow
  · obtain ⟨d, hd, rfl⟩ := List.mem_map.mp ha
    obtain ⟨k, ts, m, hm, hl, hk, hat⟩ := h.dels d hd
    refine ⟨h.spec, fun x hx key hkey => ?_⟩
    rw [hat] at hx
    obtain rfl := List.mem_singleton.mp hkey
    exact ⟨k, ts, m, hm, hl, hk, (Option.some.inj ((env.bindText_str ts).symm.trans hx)).symm⟩
  · unfold refreshActs at ha
    rcases List.mem_cons.mp ha with rfl | ha
    · trivial
    · split at ha
      · rw [List.mem_singleton.mp ha]; trivial
      · cases ha

theorem replayActs_backed (now : String → Nat → String) {snaps : List Snap}
    (h : ∀ s ∈ snaps, SnapOf env schema files s) :
    Backed env schema files (replayActs env schema now snaps) := by
  apply along_of_forall backed_mono
  intro a ha
  rcases mem_replayActs ha with ⟨spec, -, rfl⟩ | ⟨s, hs, ha⟩
  · trivial
  · exact loadActs_backed _ (h s hs) a ha

end Programs

/-! ## Steps and runs -/

section Steps

variable {env : Env} {schema : Schema}

/-- The mirror holds only lines it wrote, and the lines of every row. -/
structure Mirrored (env : Env) (schema : Schema) (db : Db) : Prop where
  lines : LinesWritten schema db.files
  rows : ∀ spec ∈ schema.tables, ∀ row ∈ db.shown spec.name, Covered env db.files spec row

theorem Act.Backed.logs {a : Act} {files : Files} (h : a.Backed env schema files) :
    a.Logs schema := by
  cases a with
  | append ds table line => exact h
  | _ => trivial

theorem exec_lines {a : Act} {db db' : Db} (h : LinesWritten schema db.files)
    (hb : a.Logs schema) (he : exec env a db = .ok db') :
    LinesWritten schema db'.files := by
  rw [exec_files he]
  intro l hl
  rcases List.mem_append.mp hl with hl | hl
  · exact h l hl
  · cases a with
    | append ds table line =>
      obtain ⟨spec, hspec, hname, hw⟩ := hb
      obtain ⟨m, hm, rfl⟩ := Option.map_eq_some_iff.mp (Option.mem_toList.mp hl)
      exact ⟨spec, hspec, hname, line, hw, hm⟩
    | _ => cases hl

/-- An act that is backed keeps every row covered. -/
theorem exec_mirrored {a : Act} {db db' : Db} (h : Mirrored env schema db)
    (hb : a.Backed env schema db.files) (he : exec env a db = .ok db') :
    Mirrored env schema db' := by
  have hsub : db.files ⊆ db'.files := by
    rw [exec_files he]; exact List.subset_append_left _ _
  refine ⟨exec_lines h.lines hb.logs he, fun spec hspec row hrow => ?_⟩
  rw [exec_shown he] at hrow
  cases a with
  | insert other r search ds ca =>
    by_cases hn : other.name = spec.name
    · obtain rfl := schema.eq_of_name hb.1 hspec hn
      rw [Act.effect, if_pos rfl] at hrow
      rcases List.mem_append.mp hrow with hrow | hrow
      · exact (h.rows other hspec row hrow).mono hsub
      · have hstored := toOption_some_iff.mp (Option.mem_toList.mp hrow)
        refine ⟨(hb.2 row hstored).mono hsub, fun d hd => ?_⟩
        rw [(stored_live hstored).1] at hd
        cases hd
    · rw [Act.effect, if_neg hn] at hrow
      exact (h.rows spec hspec row hrow).mono hsub
  | softDelete other keys ds at' =>
    cases hx : env.bindText at' with
    | none =>
      simp only [Act.effect, hx] at hrow
      exact (h.rows spec hspec row hrow).mono hsub
    | some x =>
      by_cases hn : other.name = spec.name
      · obtain rfl := schema.eq_of_name hb.1 hspec hn
        simp only [Act.effect, hx, if_true] at hrow
        obtain ⟨old, hold, rfl⟩ := List.mem_map.mp hrow
        have hcov := (h.rows other hspec old hold).mono hsub
        by_cases hm : old.key.text ∈ keys.map some ∧ old.deletedDs = none
        · rw [mark, if_pos hm]
          obtain ⟨key, hkey, htext⟩ := List.mem_map.mp hm.1
          refine ⟨hcov.put, fun d hd => ⟨key, htext.symm, ?_⟩⟩
          obtain rfl := Option.some.inj hd
          exact (hb.2 x hx key hkey).mono hsub
        · rw [mark, if_neg hm]; exact hcov
      · simp only [Act.effect, hx, hn, if_false] at hrow
        exact (h.rows spec hspec row hrow).mono hsub
  | clear other =>
    by_cases hn : other.name = spec.name
    · rw [Act.effect, if_pos hn] at hrow; cases hrow
    · rw [Act.effect, if_neg hn] at hrow
      exact (h.rows spec hspec row hrow).mono hsub
  | append _ _ _ | rebuildFts _ => exact (h.rows spec hspec row hrow).mono hsub
  | indexAppend _ _ | indexOverwrite _ _ => exact (h.rows spec hspec row hrow).mono hsub

/-- The programs of the system keep to the mirror. -/
theorem mirrored_stable (hdel : ∀ spec ∈ schema.tables, "_deleted" ∉ spec.columnNames) :
    Stable env schema (Mirrored env schema) (Decision.Of schema) (Backed env schema)
      (SnapOf env schema) where
  init := ⟨fun l hl => absurd hl (by simp [Db.init]),
    fun spec _ row hrow => absurd hrow (by simp [Db.init, Db.shown, PhysTable.empty])⟩
  exec := by
    intro db db' a acts hdb hb he
    exact ⟨exec_mirrored hdb hb.1 he, exec_along hb he⟩
  refresh spec db db' hdb he := exec_mirrored hdb (a := .rebuildFts spec) trivial he
  decide tables op d := decide_of
  plan files st d acts := plan_backed
  read db spec snap hdb hspec := snapshot_of hdel hdb.lines hspec
  replay files now snaps _ := replayActs_backed now
  acts_mono files more acts h := along_mono backed_mono h
  snap_mono files more snap h := h.mono

/-- file ≥ DuckDB: in every reachable state every physical row has its put line, and every deleted
row a tombstone line for its key in the partition of its `deleted_ds`. -/
theorem file_ge_duckdb (hdel : ∀ spec ∈ schema.tables, "_deleted" ∉ spec.columnNames)
    {labels : List Label} {s : System} (hrun : run (step env schema) System.init labels = some s)
    {spec : TableSpec} (hspec : spec ∈ schema.tables) {row : Row}
    (hrow : row ∈ (s.db.tables spec.name).rows) : HasPut env s.db.files spec row
      ∧ ∀ ds, row.deletedDs = some ds → ∃ key, row.key.text = some key
        ∧ HasTombstone env s.db.files spec key ds row.deletedAt := by
  have hdb := (holds_run (mirrored_stable hdel) hrun).db
  have hcov := hdb.rows spec hspec row.shown (List.mem_map_of_mem hrow)
  exact ⟨hcov.put, hcov.mark⟩

/-- The two notes and the delete, and a rebuild that a crash ends after its first mark. -/
def crashedReload : List Label :=
  opLabels ⟨"20260102", "t1", t1_ne⟩ (.insert "notes"
      [[("id", strVal "n1"), ("text", strVal "v1")], [("id", strVal "n2")]] false) 4
    ++ opLabels ⟨"20260105", "t2", t2_ne⟩ (.delete "notes" (some "id = ?") [strVal "n1"]) 2
    ++ [.rebuild fun _ _ => "t3", .read 0] ++ List.replicate 5 (.replay 0) ++ [.crash]

theorem file_ge_duckdb_notes : ∃ s,
    run (step plainEnv notesSchema) System.init crashedReload = some s
      ∧ ∃ row ∈ (s.db.tables notes.name).rows, HasPut plainEnv s.db.files notes row
        ∧ row.deletedDs = some "20260105" ∧ ∃ key, row.key.text = some key
        ∧ HasTombstone plainEnv s.db.files notes key "20260105" row.deletedAt := by
  have hsome : ((run (step plainEnv notesSchema) System.init crashedReload).map fun s =>
      (s.db.tables notes.name).rows.any (·.deletedDs = some "20260105")) = some true := by decide
  obtain ⟨s, hrun, hany⟩ := Option.map_eq_some_iff.mp hsome
  obtain ⟨row, hrow, hdel⟩ := List.any_eq_true.mp hany
  have h := file_ge_duckdb notes_noDeleted hrun (by simp [notesSchema]) hrow
  exact ⟨s, hrun, row, hrow, h.1, of_decide_eq_true hdel, h.2 _ (of_decide_eq_true hdel)⟩

end Steps

end Seekbase
