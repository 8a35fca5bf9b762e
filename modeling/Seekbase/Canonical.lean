/-
# Seekbase.Canonical — when the canonical log can be replayed.

The mirror is canonical only if a rebuild of it completes.  Nothing of the database helps there: the
tables are cleared first, and then every put line is inserted under the PRIMARY KEY.  So a log can be
replayed exactly when its put lines are `Sound`: they store, under keys that are not null and not put
twice, in tables whose put lines are read as such.

* `rebuild_iff_sound` — of one log: a rebuild alone gives every put key its one row IFF it is sound;
* `step_sound`        — of one step: a sound log stays sound IFF what the step appends is `Clean`;
* `replays_iff_clean` — of a run: so the log at its end can be replayed IFF every append of the run
                        was clean.  A put line whose commit was lost to a crash or an exception is
                        not cleaned up, and the retry of the same row is the append that is not clean.
-/
import Seekbase.Mirror

namespace Seekbase

open JsonText Transition

/-! ## Put lines -/

/-- A put line, and no tombstone, has a `ds`. -/
def isPut (m : Members) : Bool := (lookup "ds" m).isSome

/-- The put lines of a table, in append order. -/
def putLines (files : Files) (spec : TableSpec) : List Members :=
  (files.filter fun l => decide (l.table = spec.name) && isPut l.members).map Line.members

theorem putLines_append (a b : Files) (spec : TableSpec) :
    putLines (a ++ b) spec = putLines a spec ++ putLines b spec := by
  simp [putLines]

section Shapes

variable {env : Env} {schema : Schema} {spec : TableSpec} {files : Files}

theorem put_isPut {r : Record} {ds ts : String} {m : Members}
    (h : (putLine spec r ds ts).toMembers? = some m) : isPut m = true := by
  rw [isPut, isSome_lookup_toMembers? h, lookup_isSome_iff, putLine_names]
  simp

theorem tombstone_not_put {k : Val} {ts : String} {m : Members}
    (h : (tombstone k ts).toMembers? = some m) : isPut m = false := by
  obtain ⟨j, -, rfl⟩ := tombstone_members h
  rfl

/-- A line of a table, by its shape. -/
theorem written_cases (hlines : LinesWritten schema files) (hspec : spec ∈ schema.tables) {l : Line}
    (hl : l ∈ files) (ht : l.table = spec.name) :
    (isPut l.members = true ∧ truthy (l.members.get "created_at") = true
      ∧ ("_deleted" ∉ spec.columnNames → isTombstone l.members = false)
      ∧ ("_deleted" ∈ spec.columnNames → isTombstone l.members = true))
    ∨ (isPut l.members = false ∧ isTombstone l.members = true) := by
  obtain ⟨other, hother, hname, line, hw, hm⟩ := hlines l hl
  obtain rfl := schema.eq_of_name hother hspec (hname.trans ht)
  cases hw with
  | put r ts hts =>
    refine Or.inl ⟨put_isPut hm, ?_, put_not_tombstone hm, fun hdel => ?_⟩
    · rw [put_createdAt hm]; exact truthy_str hts
    · rw [isTombstone, isSome_lookup_toMembers? hm, lookup_isSome_iff, putLine_names]
      exact List.mem_append_left _ hdel
  | del k ts => exact Or.inr ⟨tombstone_not_put hm, tombstone_isTombstone hm⟩

/-- Without a column `_deleted` the put lines are what a replay reads as puts. -/
theorem putsOf_eq_putLines (hlines : LinesWritten schema files) (hspec : spec ∈ schema.tables)
    (hdel : "_deleted" ∉ spec.columnNames) :
    putsOf (tableEvents files spec.name) = putLines files spec := by
  rw [putsOf, tableEvents, List.filter_map, List.map_map, List.filter_filter, putLines]
  congr 1
  refine List.filter_congr fun l hl => ?_
  by_cases ht : l.table = spec.name
  · rcases written_cases hlines hspec hl ht with ⟨hp, -, htomb, -⟩ | ⟨hp, htomb⟩
    · simp [ht, hp, htomb hdel]
    · simp [ht, hp, htomb]
  · simp [ht]

/-- With one, nothing is. -/
theorem putsOf_eq_nil (hlines : LinesWritten schema files) (hspec : spec ∈ schema.tables)
    (hdel : "_deleted" ∈ spec.columnNames) : putsOf (iterEvents files spec.name) = [] := by
  refine List.eq_nil_iff_forall_not_mem.mpr fun m hm => ?_
  obtain ⟨ds, hev, hno⟩ := mem_putsOf.mp hm
  obtain ⟨l, hl, -, ht, rfl⟩ := mem_iterEvents.mp hev
  rcases written_cases hlines hspec hl ht with ⟨-, -, -, htomb⟩ | ⟨-, htomb⟩
  · rw [htomb hdel] at hno; cases hno
  · rw [htomb] at hno; cases hno

theorem putsOf_created (hlines : LinesWritten schema files) (hspec : spec ∈ schema.tables) :
    ∀ m ∈ putsOf (iterEvents files spec.name), truthy (m.get "created_at") = true := by
  intro m hm
  obtain ⟨ds, hev, hno⟩ := mem_putsOf.mp hm
  obtain ⟨l, hl, -, ht, rfl⟩ := mem_iterEvents.mp hev
  rcases written_cases hlines hspec hl ht with ⟨-, hts, -, -⟩ | ⟨-, htomb⟩
  · exact hts
  · rw [htomb] at hno; cases hno

/-- Every `deleted_at` of the mirror binds, also the missing one of a put read as a tombstone. -/
theorem delsOf_bind (hlines : LinesWritten schema files) (spec : TableSpec) :
    ∀ d ∈ delsOf env.repr (iterEvents files spec.name),
      ∃ x, env.bindText (.json d.deletedAt) = some x := by
  intro d hd
  obtain ⟨m, hev, -, hdeq⟩ := mem_delsOf.mp hd
  obtain ⟨l, hl, -, ht, rfl⟩ := mem_iterEvents.mp hev
  obtain ⟨other, hother, hname, line, hw, hm⟩ := hlines l hl
  cases hw with
  | put r ts hts =>
    have hget := toMembers?_get hm "deleted_at"
    have hnone : lookup "deleted_at" (putLine other r l.ds ts) = none := by
      rw [← Option.not_isSome_iff_eq_none, lookup_isSome_iff, putLine_names]
      have hmeta : "deleted_at" ∉ other.columnNames := fun h => other.not_mem_meta h (by decide)
      simp [hmeta]
    rw [Record.get, hnone] at hget
    rw [hdeq, ← Option.some.inj hget]
    exact ⟨_, congrArg (Option.map Cell.text) (env.bind_null .varchar)⟩
  | del k ts =>
    obtain ⟨j, -, heq⟩ := tombstone_members hm
    rw [hdeq, heq]
    exact ⟨_, env.bindText_str ts⟩

end Shapes

/-! ## One log -/

section Sound

variable (env : Env) (schema : Schema) (spec : TableSpec)

/-- Put lines that a rebuild turns into one row for each of their keys. -/
structure Sound (ms : List Members) : Prop where
  plain : ms ≠ [] → "_deleted" ∉ spec.columnNames
  stores : ∀ m ∈ ms, ∃ row, env.lineRow spec m = .ok row ∧ row.key ≠ .null
  keysNodup : (ms.map (env.lineKey spec)).Nodup

/-- A put line that can follow others: it is read as one, it stores, and its key is new. -/
structure Clean (ms : List Members) (m : Members) : Prop where
  plain : "_deleted" ∉ spec.columnNames
  stores : ∃ row, env.lineRow spec m = .ok row ∧ row.key ≠ .null
  fresh : env.lineKey spec m ∉ ms.map (env.lineKey spec)

/-- A put line can be tested for it. -/
instance (ms : List Members) (m : Members) : Decidable (Clean env spec ms m) :=
  match h : env.lineRow spec m with
  | .ok row => decidable_of_iff ("_deleted" ∉ spec.columnNames ∧ row.key ≠ .null
      ∧ env.lineKey spec m ∉ ms.map (env.lineKey spec))
    ⟨fun ⟨h1, h2, h3⟩ => ⟨h1, ⟨row, h, h2⟩, h3⟩, fun ⟨h1, ⟨row', h', h2⟩, h3⟩ =>
      ⟨h1, Except.ok.inj (h.symm.trans h') ▸ h2, h3⟩⟩
  | .error _ => isFalse fun ⟨_, ⟨_, h', _⟩, _⟩ => by rw [h] at h'; cases h'

/-- A rebuild alone completes and leaves exactly one row for every key that has a put line. -/
def ReplaysAlone (now : String → Nat → String) (db : Db) : Prop :=
  ∃ db' stats, rebuild env schema now db = (db', .ok stats)
    ∧ ∀ spec ∈ schema.tables, ∀ m ∈ putLines db.files spec,
      ((db'.shown spec.name).filter (·.key = env.lineKey spec m)).length = 1

def SoundLog (files : Files) : Prop := ∀ spec ∈ schema.tables, Sound env spec (putLines files spec)

variable {env schema spec}

theorem sound_snoc {ms : List Members} {m : Members} :
    Sound env spec (ms ++ [m]) ↔ Sound env spec ms ∧ Clean env spec ms m := by
  constructor
  · intro h
    have hnd := h.keysNodup
    rw [List.map_append, List.nodup_append] at hnd
    refine ⟨⟨fun _ => h.plain (by simp), fun m' hm' => h.stores m' (by simp [hm']), hnd.1⟩,
      h.plain (by simp), h.stores m (by simp), fun hin => ?_⟩
    exact hnd.2.2 _ hin (env.lineKey spec m) (by simp) rfl
  · rintro ⟨h, hc⟩
    refine ⟨fun _ => hc.plain, fun m' hm' => ?_, ?_⟩
    · rcases List.mem_append.mp hm' with hm' | hm'
      · exact h.stores m' hm'
      · rw [List.mem_singleton.mp hm']; exact hc.stores
    · rw [List.map_append, List.map_singleton]
      refine List.Nodup.append h.keysNodup (by simp) fun k hk hk' => ?_
      rw [List.mem_singleton.mp hk'] at hk
      exact hc.fresh hk

/-- In a list without repeated keys a key it has is the key of one row. -/
theorem length_filter_key {rows : List Row} (hnd : (rows.map Row.key).Nodup) {k : Cell}
    (hk : k ∈ rows.map Row.key) : (rows.filter (·.key = k)).length = 1 := by
  have hcount : (rows.map Row.key).count k = 1 := List.count_eq_one_of_mem hnd hk
  rw [← hcount, List.count_eq_countP, List.countP_map, List.countP_eq_length_filter]
  congr 1

/-- The puts of a rebuild that completed stored, under distinct keys that are not null. -/
theorem rebuild_good {now : String → Nat → String} {db db' : Db} {stats : Stats}
    (h : rebuild env schema now db = (db', .ok stats)) (hspec : spec ∈ schema.tables)
    (hcreated : ∀ m ∈ putsOf (iterEvents db.files spec.name), truthy (m.get "created_at") = true) :
    GoodPuts env spec (putsOf (iterEvents db.files spec.name)) := by
  obtain ⟨snaps, hsnaps, hrun, -⟩ := rebuild_ok_iff.mp h
  obtain ⟨s, hs, hseq, hputs, -⟩ := snapshots_find hsnaps hspec
  have hrows := (rebuild_rows h).2 spec hspec hcreated
  have hstored : ∀ m ∈ putsOf (iterEvents db.files spec.name),
      ∃ row, env.lineRow spec m = .ok row := by
    intro m hm
    obtain ⟨i, hi, hget⟩ := List.getElem_of_mem (hputs ▸ hm)
    have hact : Act.insert s.spec (jsonRecord s.spec m) (searchAt s.spec s.emb i)
        (.json (m.get "ds")) (orNow (m.get "created_at") (now s.spec.name i))
        ∈ replayActs env schema now snaps := by
      refine List.mem_append_right _ (List.mem_flatMap.mpr ⟨s, hs, ?_⟩)
      refine List.mem_append_left _ (List.mem_append_left _ ?_)
      exact List.mem_mapIdx.mpr ⟨i, hi, by rw [hget]⟩
    obtain ⟨mid, mid', hmid⟩ := mem_execAll hrun hact
    obtain ⟨row, t, hrow, -⟩ := exec_insert_iff.mp hmid
    obtain ⟨base, hbase, -⟩ := newRow_ok_iff.mp hrow
    rw [orNow_truthy (hcreated m hm), hseq] at hbase
    exact ⟨base, hbase⟩
  have hkeys : (db'.shown spec.name).map Row.key
      = (putsOf (iterEvents db.files spec.name)).map (env.lineKey spec) := by
    rw [hrows, replayRows, List.map_map, ← lineRows_keys hstored]
    exact List.map_congr_left fun r _ => applyDels_key env _ r
  refine ⟨fun m hm => ?_, hcreated, hkeys ▸ shown_nodup db' spec.name⟩
  obtain ⟨row, hrow⟩ := hstored m hm
  refine ⟨row, hrow, ?_⟩
  have hin : row.key ∈ (db'.shown spec.name).map Row.key := by
    rw [hkeys, lineRow_key hrow]; exact List.mem_map_of_mem hm
  obtain ⟨r, hr, heq⟩ := List.mem_map.mp hin
  exact heq ▸ shown_notNull db' spec.name r hr

theorem SoundLog.good {files : Files} (h : SoundLog env schema files)
    (hlines : LinesWritten schema files) (hspec : spec ∈ schema.tables) :
    GoodPuts env spec (putsOf (iterEvents files spec.name)) := by
  by_cases hdel : "_deleted" ∈ spec.columnNames
  · rw [putsOf_eq_nil hlines hspec hdel]
    exact ⟨by simp, by simp, by simp⟩
  · have hperm := putsOf_perm (iterEvents_perm_tableEvents files spec.name)
    rw [putsOf_eq_putLines hlines hspec hdel] at hperm
    have hs := h spec hspec
    refine ⟨fun m hm => hs.stores m (hperm.mem_iff.mp hm), putsOf_created hlines hspec, ?_⟩
    exact (hperm.map _).nodup_iff.mpr hs.keysNodup

/-- Of one log: a rebuild alone gives every put key its one row exactly when the log is sound. -/
theorem rebuild_iff_sound (hp : env.Provides) {db : Db} (hlines : LinesWritten schema db.files)
    (now : String → Nat → String) : ReplaysAlone env schema now db ↔ SoundLog env schema db.files := by
  constructor
  · rintro ⟨db', stats, hreb, hone⟩ spec hspec
    have hgood := rebuild_good hreb hspec (putsOf_created hlines hspec)
    by_cases hdel : "_deleted" ∈ spec.columnNames
    · -- no line is read as a put, so no row is there for a put line to have
      have hnone : putLines db.files spec = [] := by
        refine List.eq_nil_iff_forall_not_mem.mpr fun m hm => ?_
        have hlen := hone spec hspec m hm
        rw [(rebuild_rows hreb).2 spec hspec hgood.created, replayRows,
          putsOf_eq_nil hlines hspec hdel] at hlen
        simp [lineRows] at hlen
      rw [hnone]
      exact ⟨fun h => absurd rfl h, by simp, by simp⟩
    · have hperm := putsOf_perm (iterEvents_perm_tableEvents db.files spec.name)
      rw [putsOf_eq_putLines hlines hspec hdel] at hperm
      exact ⟨fun _ => hdel, fun m hm => hgood.stores m (hperm.mem_iff.mpr hm),
        (hperm.map _).nodup_iff.mp hgood.keysNodup⟩
  · intro h
    obtain ⟨db', stats, hreb⟩ := rebuild_completes hp
      (fun spec hspec => ⟨h.good hlines hspec, delsOf_bind hlines spec⟩) now
    refine ⟨db', stats, hreb, fun spec hspec m hm => ?_⟩
    have hgood := h.good hlines hspec
    refine length_filter_key (shown_nodup db' spec.name) ?_
    have hdel := (h spec hspec).plain (List.ne_nil_of_mem hm)
    have hperm := putsOf_perm (iterEvents_perm_tableEvents db.files spec.name)
    rw [putsOf_eq_putLines hlines hspec hdel] at hperm
    rw [(rebuild_rows hreb).2 spec hspec hgood.created, replayRows_keys hgood]
    exact List.mem_map_of_mem (hperm.mem_iff.mpr hm)

end Sound

/-! ## Runs -/

section Runs

variable {env : Env} {schema : Schema}

theorem insertActs_logs {spec : TableSpec} (hspec : spec ∈ schema.tables) (rs : List Record)
    (emb : List (String × List Search)) (st : Stamp) :
    ∀ a ∈ insertActs env spec rs emb st, a.Logs schema := by
  intro a ha
  rcases mem_insertActs ha with ⟨r, -, rfl⟩ | ⟨i, r, -, rfl⟩ | rfl
  · exact ⟨spec, hspec, rfl, .put r st.ts st.tsNe⟩
  · trivial
  · trivial

theorem deleteActs_logs {spec : TableSpec} (hspec : spec ∈ schema.tables) (ks : List Val)
    (st : Stamp) : ∀ a ∈ deleteActs env.repr spec ks st, a.Logs schema := by
  intro a ha
  rcases mem_deleteActs ha with ⟨k, -, rfl⟩ | rfl
  · exact ⟨spec, hspec, rfl, .del k st.ts⟩
  · trivial

/-- Every run leaves lines of the two shapes, also in tables with a column `_deleted`. -/
theorem lines_stable : Stable env schema (fun db => LinesWritten schema db.files)
    (Decision.Of schema) (fun _ acts => ∀ a ∈ acts, a.Logs schema) (fun _ _ => True) where
  init := fun l hl => absurd hl (by simp [Db.init])
  exec db db' a acts hdb hacts he :=
    ⟨exec_lines hdb (hacts a (by simp)) he, fun b hb => hacts b (by simp [hb])⟩
  refresh spec db db' hdb he := exec_lines hdb (a := .rebuildFts spec) trivial he
  decide tables op d := decide_of
  plan := by
    intro files st d acts hd h a ha
    cases d with
    | records spec rs =>
      rcases plan_records h with rfl | ⟨emb, -, rfl⟩
      · cases ha
      · exact insertActs_logs hd rs emb st a ha
    | keys spec ks =>
      obtain rfl := Except.ok.inj h
      exact deleteActs_logs hd ks st a ha
  read _ _ _ _ _ _ := trivial
  replay := by
    intro files now snaps _ _ a ha
    rcases mem_replayActs ha with ⟨spec, -, rfl⟩ | ⟨s, -, ha⟩
    · trivial
    · rcases mem_loadActs ha with ⟨_, _, _, _, rfl⟩ | ⟨_, -, rfl⟩ | rfl | ⟨-, rfl⟩ <;> trivial
  acts_mono _ _ _ h _ := h
  snap_mono _ _ _ _ _ := trivial

/-- The lines a step appends to the mirror: at most one. -/
def System.appends (s : System) : Label → List Line
  | .write =>
    match s.worker with
    | .acting _ _ (a :: _) => a.lines
    | _ => []
  | .replay i =>
    match s.rebuilds[i]? with
    | some (.acting _ (a :: _)) => a.lines
    | _ => []
  | _ => []

/-- An act that raises would have appended nothing. -/
theorem exec_error_lines {a : Act} {db : Db} {e : Exc} (h : exec env a db = .error e) :
    a.lines = [] := by
  cases a with
  | append ds table line =>
    cases hm : line.toMembers? with
    | none => simp [Act.lines, hm]
    | some m => simp [exec, hm] at h
  | _ => rfl

theorem step_files {s t : System} {l : Label} (h : step env schema s l = some t) :
    t.db.files = s.db.files ++ s.appends l := by
  obtain ⟨i, r, rfl, hi, hr⟩ | hm := step_cases h
  · rw [System.appends, hi]
    cases hr with
    | act he => exact exec_files he
    | refuse he =>
      simp only [exec_error_lines he, List.append_nil]
      rfl
    | start | finish => exact (List.append_nil _).symm
  · cases hm with
    | write hw he =>
      rw [System.appends, hw]
      exact exec_files he
    | refuse hw he =>
      rw [System.appends, hw]
      simp only [exec_error_lines he, List.append_nil]
    | refresh hw ht he => exact exec_files he
    | skip hw ht hl => rcases hl with rfl | rfl <;> exact (List.append_nil _).symm
    | background hl =>
      cases l with
      | rebuild | read | stop => exact (List.append_nil _).symm
      | _ => exact hl.elim
    | _ => exact (List.append_nil _).symm

theorem lines_cases (a : Act) : a.lines = [] ∨ ∃ l, a.lines = [l] := by
  cases a with
  | append ds table line => cases hm : line.toMembers? <;> simp [Act.lines, hm]
  | _ => exact Or.inl rfl

theorem appends_cases (s : System) (l : Label) : s.appends l = [] ∨ ∃ x, s.appends l = [x] := by
  unfold System.appends
  split
  · split
    · exact lines_cases _
    · exact Or.inl rfl
  · split
    · exact lines_cases _
    · exact Or.inl rfl
  · exact Or.inl rfl

/-- A step whose put line, if it appends one, is clean. -/
def CleanAppend (env : Env) (schema : Schema) (s : System) (l : Label) : Prop :=
  ∀ x ∈ s.appends l, isPut x.members = true → ∀ spec ∈ schema.tables, spec.name = x.table →
    Clean env spec (putLines s.db.files spec) x.members

theorem soundLog_snoc {files : Files} {x : Line} : SoundLog env schema (files ++ [x])
    ↔ SoundLog env schema files ∧ (isPut x.members = true → ∀ spec ∈ schema.tables,
      spec.name = x.table → Clean env spec (putLines files spec) x.members) := by
  have hone : ∀ spec : TableSpec, putLines [x] spec
      = if x.table = spec.name ∧ isPut x.members = true then [x.members] else [] := by
    intro spec
    by_cases ht : x.table = spec.name <;> by_cases hp : isPut x.members = true <;>
      simp [putLines, ht, hp]
  constructor
  · intro h
    refine ⟨fun spec hspec => ?_, fun hp spec hspec ht => ?_⟩
    · have hs := h spec hspec
      rw [putLines_append, hone] at hs
      split at hs
      · exact (sound_snoc.mp hs).1
      · rwa [List.append_nil] at hs
    · have hs := h spec hspec
      rw [putLines_append, hone, if_pos ⟨ht.symm, hp⟩] at hs
      exact (sound_snoc.mp hs).2
  · rintro ⟨h, hc⟩ spec hspec
    rw [putLines_append, hone]
    split
    · rename_i hx
      exact sound_snoc.mpr ⟨h spec hspec, hc hx.2 spec hspec hx.1.symm⟩
    · rw [List.append_nil]; exact h spec hspec

/-- Of one step: the log after it is sound exactly when the log before it is and the append clean. -/
theorem step_sound {s t : System} {l : Label} (h : step env schema s l = some t) :
    SoundLog env schema t.db.files
      ↔ SoundLog env schema s.db.files ∧ CleanAppend env schema s l := by
  rw [step_files h, CleanAppend]
  rcases appends_cases s l with hx | ⟨x, hx⟩
  · simp [hx]
  · rw [hx, soundLog_snoc]
    simp

/-- Of a run: the log at its end can be replayed by a rebuild alone, one row for every key put,
exactly when every put line the run appended was clean when it was. -/
theorem replays_iff_clean (hp : env.Provides) {labels : List Label} {s : System}
    (hrun : run (step env schema) System.init labels = some s) (now : String → Nat → String) :
    ReplaysAlone env schema now s.db
      ↔ Guarded (step env schema) (CleanAppend env schema) System.init labels := by
  have hinit : SoundLog env schema System.init.db.files := fun spec _ =>
    ⟨fun h => absurd rfl h, fun m hm => absurd hm (by simp [System.init, Db.init, putLines]),
      by simp [System.init, Db.init, putLines]⟩
  rw [rebuild_iff_sound hp (holds_run lines_stable hrun).db now,
    run_iff (I := fun _ => True) (P := fun s => SoundLog env schema s.db.files)
      (fun _ _ _ _ _ => trivial) (fun _ _ _ _ h => step_sound h) trivial hrun]
  exact and_iff_right hinit

/-- A run that a crash ends inside a reload, but none inside an insert. -/
theorem replays_iff_clean_notes : ∃ s,
    run (step plainEnv notesSchema) System.init crashedReload = some s
      ∧ ReplaysAlone plainEnv notesSchema (fun _ _ => "t4") s.db
      ∧ Guarded (step plainEnv notesSchema) (CleanAppend plainEnv notesSchema) System.init
        crashedReload := by
  have hsome : ((run (step plainEnv notesSchema) System.init crashedReload).map fun s =>
      match rebuild plainEnv notesSchema (fun _ _ => "t4") s.db with
      | (db', .ok _) => decide (∀ spec ∈ notesSchema.tables, ∀ m ∈ putLines s.db.files spec,
          ((db'.shown spec.name).filter (·.key = plainEnv.lineKey spec m)).length = 1)
      | (_, .error _) => false) = some true := by decide
  obtain ⟨s, hrun, hone⟩ := Option.map_eq_some_iff.mp hsome
  have hreplays : ReplaysAlone plainEnv notesSchema (fun _ _ => "t4") s.db := by
    split at hone
    · rename_i db' stats hreb
      exact ⟨db', stats, hreb, of_decide_eq_true hone⟩
    · cases hone
  have hp : plainEnv.Provides := ⟨fun _ _ => ⟨[], rfl⟩, fun _ _ => rfl⟩
  exact ⟨s, hrun, hreplays, (replays_iff_clean hp hrun _).mp hreplays⟩

/-- A crash between the append and the commit of a note, and the retry of the same note. -/
def retriedInsert : List Label :=
  [.take (.insert "notes" [[("id", strVal "n1"), ("text", strVal "v1")]] false), .decide,
      .plan ⟨"20260102", "t1", t1_ne⟩, .write, .crash]
    ++ opLabels ⟨"20260102", "t2", t2_ne⟩
      (.insert "notes" [[("id", strVal "n1"), ("text", strVal "v1")]] false) 2

/-- The retry is acknowledged, and no rebuild of the log completes any more. -/
theorem retry_breaks_replay : ∃ s, run (step plainEnv notesSchema) System.init retriedInsert = some s
    ∧ s.acked.length = 1 ∧ ¬ ReplaysAlone plainEnv notesSchema (fun _ _ => "t3") s.db := by
  have hsome : ((run (step plainEnv notesSchema) System.init retriedInsert).map fun s =>
      (s.acked.length, (rebuild plainEnv notesSchema (fun _ _ => "t3") s.db).2.toOption))
      = some (1, none) := by decide
  obtain ⟨s, hrun, h⟩ := Option.map_eq_some_iff.mp hsome
  obtain ⟨hacked, hfail⟩ := Prod.mk.inj h
  refine ⟨s, hrun, hacked, ?_⟩
  rintro ⟨db', stats, hreb, -⟩
  rw [hreb] at hfail
  cases hfail


end Runs

end Seekbase
