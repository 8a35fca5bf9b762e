/-
# Seekbase.Replay — what a log MEANS: the table its lines stand for.

`replayRows` is the purpose of the mirror, stated without clearing, statements or days of work: a
table is the rows of its put lines, each with the deletion mark of the tombstones for its key.  The
rest of the module connects it to the code on both sides: what a completed write leaves in the log
(`putLine_lineRow`, `tombstone_del`), and what the reload of a snapshot leaves in the table
(`load_rows`).

A log can be replayed when its puts are `GoodPuts`: every line stores, and no key is put twice.
-/
import Seekbase.Admin

namespace Seekbase

open JsonText

/-! ## Line shapes -/

section Shapes

variable {spec : TableSpec} {r : Record} {ds ts : String} {m : Members}

theorem putLine_ds (spec : TableSpec) (r : Record) (ds ts : String) :
    (putLine spec r ds ts).get "ds" = strVal ds := by
  simp [Record.get, putLine, lookup_append, lookup]

theorem putLine_createdAt (spec : TableSpec) (r : Record) (ds ts : String) :
    (putLine spec r ds ts).get "created_at" = strVal ts := by
  simp [Record.get, putLine, lookup_append, lookup]

theorem put_ds (h : (putLine spec r ds ts).toMembers? = some m) : m.get "ds" = .str ds := by
  have hget := toMembers?_get h "ds"
  rw [putLine_ds] at hget
  exact (Option.some.inj hget).symm

theorem put_createdAt (h : (putLine spec r ds ts).toMembers? = some m) :
    m.get "created_at" = .str ts := by
  have hget := toMembers?_get h "created_at"
  rw [putLine_createdAt] at hget
  exact (Option.some.inj hget).symm

theorem put_get (h : (putLine spec r ds ts).toMembers? = some m) {c : String}
    (hc : c ∈ spec.columnNames) : (r.get c).toJson? = some (m.get c) := by
  rw [← putLine_get spec r ds ts hc]; exact toMembers?_get h c

/-- A dict's JSON image binds the same names. -/
theorem isSome_lookup_toMembers? {r : Record} {m : Members} (h : r.toMembers? = some m)
    (c : String) : (lookup c m).isSome = (lookup c r).isSome := by
  obtain ⟨hlook, hsome⟩ := lookup_toMembers? h c
  cases hr : lookup c r with
  | none => rw [hlook, hr]; rfl
  | some v => rw [hlook, hr]; exact hsome v hr

/-- A put line of a table without a column `_deleted` is read as a put. -/
theorem put_not_tombstone (h : (putLine spec r ds ts).toMembers? = some m)
    (hdel : "_deleted" ∉ spec.columnNames) : isTombstone m = false := by
  rw [isTombstone, isSome_lookup_toMembers? h, ← Bool.not_eq_true, lookup_isSome_iff,
    putLine_names]
  simp [hdel]

theorem tombstone_isTombstone {k : Val} (h : (tombstone k ts).toMembers? = some m) :
    isTombstone m = true := by
  rw [isTombstone, isSome_lookup_toMembers? h]; rfl

theorem tombstone_members {k : Val} (h : (tombstone k ts).toMembers? = some m) :
    ∃ j, k.toJson? = some j ∧ m = [("_deleted", j), ("deleted_at", .str ts)] := by
  rw [tombstone, Record.toMembers?_cons] at h
  obtain ⟨j, hj, h⟩ := Option.bind_eq_some_iff.mp h
  rw [Record.toMembers?_cons, Record.toMembers?_nil] at h
  exact ⟨j, hj, by simpa [strVal, Val.toJson?, eq_comm] using h⟩

/-- Reading a put line back and writing it again gives the line. -/
theorem putLine_reload (h : (putLine spec r ds ts).toMembers? = some m) :
    (putLine spec (jsonRecord spec m) ds ts).toMembers? = some m := by
  have hcols : ∀ (cs : List String) (f : String → Val) (tl : Record) (m' : Members),
      (∀ c ∈ cs, (f c).toJson? = some (m.get c)) →
      Record.toMembers? (cs.map (fun c => (c, f c)) ++ tl) = some m' →
      ∀ g : String → Val, (∀ c ∈ cs, (g c).toJson? = some (m.get c)) →
      Record.toMembers? (cs.map (fun c => (c, g c)) ++ tl) = some m' := by
    intro cs f tl
    induction cs with
    | nil => intro m' _ h g _; exact h
    | cons c cs ih =>
      intro m' hf h g hg
      rw [List.map_cons, List.cons_append, Record.toMembers?_cons] at h ⊢
      rw [hf c (by simp)] at h
      rw [hg c (by simp)]
      obtain ⟨m'', hm'', rfl⟩ := Option.map_eq_some_iff.mp h
      rw [Option.bind_some, ih m'' (fun d hd => hf d (by simp [hd])) hm'' g
        (fun d hd => hg d (by simp [hd]))]
      rfl
  refine hcols spec.columnNames _ _ m (fun c hc => put_get h hc) h _ fun c hc => ?_
  have hnew : (jsonRecord spec m).get c = .json (m.get c) := by
    simp [Record.get, jsonRecord, lookup_map, hc]
  rw [hnew]; rfl

end Shapes

/-! ## Keys -/

theorem int_repr_inj {i j : Int} (h : i.repr = j.repr) : i = j := by
  have hi := Int.toInt?_repr i
  rw [h, Int.toInt?_repr j] at hi
  exact (Option.some.inj hi).symm

/-- A cell that a key column of the table can hold. -/
def KeyCell (spec : TableSpec) (c : Cell) : Prop :=
  c = .null ∨ (spec.primary.sqlType = .varchar ∧ ∃ s, c = .varchar s) ∨
    (spec.primary.sqlType = .bigint ∧ ∃ i, c = .bigint i)

/-- Two keys of one table with the same text are the same key. -/
theorem KeyCell.text_inj {spec : TableSpec} {a b : Cell} (ha : KeyCell spec a)
    (hb : KeyCell spec b) (ha0 : a ≠ .null) (hb0 : b ≠ .null) (h : a.text = b.text) : a = b := by
  rcases ha.resolve_left ha0 with ⟨hta, s, rfl⟩ | ⟨hta, i, rfl⟩ <;>
    rcases hb.resolve_left hb0 with ⟨htb, s', rfl⟩ | ⟨htb, j, rfl⟩
  · simpa [Cell.text] using h
  · rw [hta] at htb; exact absurd htb (by decide)
  · rw [hta] at htb; exact absurd htb (by decide)
  · have hij : i = j := int_repr_inj (by simpa [Cell.text] using h)
    rw [hij]

theorem KeyCell.text_some {spec : TableSpec} {a : Cell} (ha : KeyCell spec a) (ha0 : a ≠ .null) :
    ∃ s, a.text = some s := by
  rcases ha.resolve_left ha0 with ⟨-, s, rfl⟩ | ⟨-, i, rfl⟩
  · exact ⟨s, rfl⟩
  · exact ⟨i.repr, rfl⟩

section Stored

variable {env : Env} {spec : TableSpec} {r : Record} {ds ca : Val} {row : Row}

theorem cell_primary (env : Env) (spec : TableSpec) (v : Val) :
    env.cell spec.primary v = accept (env.bind spec.primary.sqlType v) := by
  have htype : spec.primary.type ≠ "json" := by
    rcases spec.primaryOk with ⟨h, _⟩ | ⟨h, _⟩ <;> rw [h] <;> decide
  simp [Env.cell, storeVal, htype, bind, Except.bind]

theorem stored_keyCell (h : env.stored spec r ds ca = .ok row) : KeyCell spec row.key := by
  obtain ⟨cells, key, d, c, -, hk, -, -, rfl⟩ := stored_ok_iff.mp h
  rw [cell_primary, accept_ok_iff] at hk
  rcases spec.primaryOk with ⟨-, ht⟩ | ⟨-, ht⟩ <;> rw [ht] at hk
  · rcases env.bind_varchar _ _ hk with h0 | h0
    · exact Or.inl h0
    · exact Or.inr (Or.inl ⟨ht, h0⟩)
  · rcases env.bind_bigint _ _ hk with h0 | h0
    · exact Or.inl h0
    · exact Or.inr (Or.inr ⟨ht, h0⟩)

end Stored

/-! ## The table a log stands for -/

/-- The row a put line stands for. -/
def Env.lineRow (env : Env) (spec : TableSpec) (m : Members) : Except Exc Row :=
  env.stored spec (jsonRecord spec m) (.json (m.get "ds")) (.json (m.get "created_at"))

/-- The key a put line stands for. -/
def Env.lineKey (env : Env) (spec : TableSpec) (m : Members) : Cell :=
  (env.bind spec.primary.sqlType (.json (m.get spec.primaryKey))).getD .null

/-- A tombstone marks the row of its key unless an earlier one has. -/
def applyDel (env : Env) (r : Row) (d : Del) : Row :=
  match env.bindText (.json d.deletedAt) with
  | some at' => mark [d.key] d.ds at' r
  | none => r

def applyDels (env : Env) (dels : List Del) (r : Row) : Row := dels.foldl (applyDel env) r

/-- The rows put lines stand for. -/
def lineRows (env : Env) (spec : TableSpec) (ms : List Members) : List Row :=
  ms.filterMap fun m => (env.lineRow spec m).toOption

/-- The table the events of a log stand for. -/
def replayRows (env : Env) (spec : TableSpec) (events : List (String × Members)) : List Row :=
  (lineRows env spec (putsOf events)).map (applyDels env (delsOf env.repr events))

/-- Put lines that a replay can load: every one stores under a key of its own. -/
structure GoodPuts (env : Env) (spec : TableSpec) (ms : List Members) : Prop where
  stores : ∀ m ∈ ms, ∃ row, env.lineRow spec m = .ok row ∧ row.key ≠ .null
  created : ∀ m ∈ ms, truthy (m.get "created_at") = true
  keysNodup : (ms.map (env.lineKey spec)).Nodup

/-- Storing a value and storing its JSON round trip give the same cell. -/
def Env.RoundTrip (env : Env) : Prop :=
  ∀ c v j, v.toJson? = some j → env.cell c v = env.cell c (.json j)

section Lines

variable {env : Env} {spec : TableSpec} {r : Record} {ds ts : String} {m : Members} {row : Row}

theorem lineRow_key (h : env.lineRow spec m = .ok row) : row.key = env.lineKey spec m := by
  obtain ⟨cells, key, d, c, -, hk, -, -, rfl⟩ := stored_ok_iff.mp h
  have hget : (jsonRecord spec m).get spec.primaryKey = .json (m.get spec.primaryKey) := by
    simp [Record.get, jsonRecord, lookup_map, spec.primaryKey_mem]
  rw [hget, cell_primary, accept_ok_iff] at hk
  simp [Env.lineKey, hk]

theorem toOption_some_iff {x : Except Exc Row} : x.toOption = some row ↔ x = .ok row := by
  cases x <;> simp [Except.toOption]

theorem mem_lineRows {ms : List Members} :
    row ∈ lineRows env spec ms ↔ ∃ m ∈ ms, env.lineRow spec m = .ok row := by
  simp only [lineRows, List.mem_filterMap, toOption_some_iff]

theorem lineRows_keys {ms : List Members} (h : ∀ m ∈ ms, ∃ row, env.lineRow spec m = .ok row) :
    (lineRows env spec ms).map Row.key = ms.map (env.lineKey spec) := by
  induction ms with
  | nil => rfl
  | cons m ms ih =>
    obtain ⟨row, hrow⟩ := h m (by simp)
    have htail := ih fun m' hm' => h m' (by simp [hm'])
    rw [lineRows, List.filterMap_cons, toOption_some_iff.mpr hrow]
    simp only [List.map_cons, lineRow_key hrow]
    rw [← htail, lineRows]

theorem lineRow_put (h : (putLine spec r ds ts).toMembers? = some m) :
    env.lineRow spec m = env.stored spec (jsonRecord spec m) (strVal ds) (strVal ts) := by
  rw [Env.lineRow, put_ds h, put_createdAt h]; rfl

theorem columnName_mem {c : Column} (h : c ∈ spec.columns) : c.name ∈ spec.columnNames :=
  List.mem_map_of_mem h

/-- A record and its put line store as the same row. -/
theorem stored_roundTrip (hrt : env.RoundTrip) (h : (putLine spec r ds ts).toMembers? = some m) :
    env.stored spec r (strVal ds) (strVal ts) = env.lineRow spec m := by
  have hcell : ∀ c ∈ spec.columns,
      env.cell c (r.get c.name) = env.cell c ((jsonRecord spec m).get c.name) := by
    intro c hc
    have hmem := columnName_mem hc
    have hnew : (jsonRecord spec m).get c.name = .json (m.get c.name) := by
      simp [Record.get, jsonRecord, lookup_map, hmem]
    rw [hnew]; exact hrt c _ _ (put_get h hmem)
  rw [lineRow_put h, Env.stored, Env.stored, TableSpec.primaryKey, hcell _ spec.primaryMem,
    mapM_congr hcell]

end Lines

/-! ## What the acts of a replay do to a table -/

section Load

variable {env : Env}

/-- The row an act inserts. -/
def Act.newRows (env : Env) : Act → List Row
  | .insert spec r _ ds ca => (env.stored spec r ds ca).toOption.toList
  | _ => []

def Act.InsertsInto (spec : TableSpec) (a : Act) : Prop :=
  ∃ r search ds ca, a = .insert spec r search ds ca

theorem foldl_inserts {spec : TableSpec} {acts : List Act} (h : ∀ a ∈ acts, a.InsertsInto spec)
    (rows : List Row) :
    acts.foldl (Act.effect env spec.name) rows = rows ++ acts.flatMap (Act.newRows env) := by
  induction acts generalizing rows with
  | nil => simp
  | cons a acts ih =>
    obtain ⟨r, search, ds, ca, rfl⟩ := h a (by simp)
    rw [List.foldl_cons, ih fun b hb => h b (by simp [hb])]
    simp [Act.effect, Act.newRows]

theorem reloadActs_insert (now : Nat → String) (s : Snap) :
    ∀ a ∈ reloadActs now s, a.InsertsInto s.spec := by
  intro a ha
  obtain ⟨i, hi, rfl⟩ := List.mem_mapIdx.mp ha
  exact ⟨_, _, _, _, rfl⟩

theorem applyDel_key (env : Env) (r : Row) (d : Del) : (applyDel env r d).key = r.key := by
  unfold applyDel; split <;> simp

theorem applyDels_key (env : Env) (dels : List Del) (r : Row) :
    (applyDels env dels r).key = r.key := by
  induction dels generalizing r with
  | nil => rfl
  | cons d dels ih => rw [applyDels, List.foldl_cons]; exact (ih _).trans (applyDel_key env r d)

theorem foldl_remarks (spec : TableSpec) (dels : List Del) (rows : List Row) :
    (dels.map fun d => Act.softDelete spec [d.key] d.ds (.json d.deletedAt)).foldl
      (Act.effect env spec.name) rows = rows.map (applyDels env dels) := by
  induction dels generalizing rows with
  | nil => exact (List.map_id rows).symm
  | cons d dels ih =>
    have hone : Act.effect env spec.name rows (.softDelete spec [d.key] d.ds (.json d.deletedAt))
        = rows.map fun r => applyDel env r d := by
      cases hb : env.bindText (.json d.deletedAt) <;> simp [Act.effect, applyDel, hb]
    rw [List.map_cons, List.foldl_cons, hone, ih, List.map_map]
    rfl

theorem foldl_refresh (name : String) (s : Snap) (rows : List Row) :
    (refreshActs env s).foldl (Act.effect env name) rows = rows := by
  unfold refreshActs
  split <;> rfl

/-- The rows a table's reload inserts. -/
def reloadRows (env : Env) (now : Nat → String) (s : Snap) : List Row :=
  (reloadActs now s).flatMap (Act.newRows env)

theorem foldl_load (now : Nat → String) (s : Snap) (rows : List Row) :
    (loadActs env now s).foldl (Act.effect env s.spec.name) rows
      = (rows ++ reloadRows env now s).map (applyDels env s.dels) := by
  rw [loadActs, List.foldl_append, List.foldl_append, foldl_inserts (reloadActs_insert now s),
    remarkActs, foldl_remarks, foldl_refresh, reloadRows]

/-- Acts that touch no row of a table. -/
theorem foldl_other {name : String} {acts : List Act} (rows : List Row)
    (h : ∀ a ∈ acts, ∀ rs, a.effect env name rs = rs) :
    acts.foldl (Act.effect env name) rows = rows := by
  induction acts generalizing rows with
  | nil => rfl
  | cons a acts ih =>
    rw [List.foldl_cons, h a (by simp), ih rows fun b hb => h b (by simp [hb])]

theorem mem_loadActs {now : Nat → String} {s : Snap} {a : Act} (h : a ∈ loadActs env now s) :
    a.InsertsInto s.spec ∨ (∃ d ∈ s.dels, a = .softDelete s.spec [d.key] d.ds (.json d.deletedAt))
      ∨ a = .rebuildFts s.spec
      ∨ (env.indexes s.spec = true
        ∧ a = .indexOverwrite s.spec (lancePayload env s.spec s.recs s.emb)) := by
  simp only [loadActs, List.mem_append] at h
  rcases h with (h | h) | h
  · exact Or.inl (reloadActs_insert now s a h)
  · obtain ⟨d, hd, rfl⟩ := List.mem_map.mp h
    exact Or.inr (Or.inl ⟨d, hd, rfl⟩)
  · rcases List.mem_cons.mp h with rfl | h
    · exact Or.inr (Or.inr (Or.inl rfl))
    · by_cases hi : env.indexes s.spec = true
      · rw [if_pos hi, List.mem_singleton] at h
        exact Or.inr (Or.inr (Or.inr ⟨hi, h⟩))
      · rw [if_neg hi] at h; cases h

theorem loadActs_effect_other {now : Nat → String} {s : Snap} {name : String}
    (hn : s.spec.name ≠ name) {a : Act} (ha : a ∈ loadActs env now s) (rows : List Row) :
    a.effect env name rows = rows := by
  rcases mem_loadActs ha with ⟨r, search, ds, ca, rfl⟩ | ⟨d, -, rfl⟩ | rfl | ⟨-, rfl⟩
  · simp [Act.effect, hn]
  · cases hb : env.bindText (.json d.deletedAt) <;> simp [Act.effect, hn, hb]
  · rfl
  · rfl

theorem loadActs_other {now : Nat → String} {s : Snap} {name : String} (hn : s.spec.name ≠ name)
    (rows : List Row) : (loadActs env now s).foldl (Act.effect env name) rows = rows :=
  foldl_other rows fun _ ha rs => loadActs_effect_other hn ha rs

theorem loads_other {now : String → Nat → String} {snaps : List Snap} {name : String}
    (hn : ∀ s ∈ snaps, s.spec.name ≠ name) (rows : List Row) :
    (snaps.flatMap fun s => loadActs env (now s.spec.name) s).foldl (Act.effect env name) rows
      = rows := by
  induction snaps generalizing rows with
  | nil => rfl
  | cons s snaps ih =>
    rw [List.flatMap_cons, List.foldl_append, loadActs_other (hn s (by simp)),
      ih fun t ht => hn t (by simp [ht])]

/-- Of all loads, a table only sees its own. -/
theorem foldl_loads {now : String → Nat → String} {snaps : List Snap}
    (hnd : (snaps.map (·.spec.name)).Nodup) {s : Snap} (hs : s ∈ snaps) (rows : List Row) :
    (snaps.flatMap fun s => loadActs env (now s.spec.name) s).foldl
      (Act.effect env s.spec.name) rows
      = (rows ++ reloadRows env (now s.spec.name) s).map (applyDels env s.dels) := by
  induction snaps generalizing rows with
  | nil => cases hs
  | cons t snaps ih =>
    obtain ⟨ht, hnd⟩ := List.nodup_cons.mp hnd
    rw [List.flatMap_cons, List.foldl_append]
    rcases List.mem_cons.mp hs with rfl | hs
    · rw [foldl_load, loads_other]
      exact fun u hu heq => ht (List.mem_map.mpr ⟨u, hu, heq⟩)
    · have hne : t.spec.name ≠ s.spec.name := fun heq => ht (List.mem_map.mpr ⟨s, hs, heq.symm⟩)
      rw [loadActs_other hne, ih hnd hs]

theorem foldl_clears (specs : List TableSpec) (name : String) (rows : List Row) :
    (specs.map Act.clear).foldl (Act.effect env name) rows
      = if name ∈ specs.map TableSpec.name then [] else rows := by
  induction specs generalizing rows with
  | nil => rfl
  | cons spec specs ih =>
    rw [List.map_cons, List.foldl_cons, ih]
    by_cases hn : spec.name = name
    · subst hn; simp [Act.effect]
    · simp [Act.effect, hn, Ne.symm hn]

theorem foldl_clear (schema : Schema) (name : String) (rows : List Row) :
    (clearActs schema).foldl (Act.effect env name) rows
      = if name ∈ schema.tables.map TableSpec.name then [] else rows :=
  foldl_clears schema.tables name rows

end Load

/-! ## A replay of good puts completes -/

section Completes

variable {env : Env}

/-- A snapshot that loads without an exception into an empty table. -/
structure Loadable (env : Env) (s : Snap) : Prop where
  good : GoodPuts env s.spec s.puts
  dels : ∀ d ∈ s.dels, ∃ x, env.bindText (.json d.deletedAt) = some x
  copies : env.indexes s.spec = true →
    env.copies s.spec.name (lancePayload env s.spec s.recs s.emb) = true

theorem truthy_str {s : String} (h : s ≠ "") : truthy (.str s) = true := by
  simp [truthy, h]

theorem orNow_truthy {ca : Json} (h : truthy ca = true) (now : String) :
    orNow ca now = .json ca := if_pos h

theorem toOption_toList_ok {row : Row} : (Except.toOption (ε := Exc) (.ok row)).toList = [row] := rfl

theorem flatMap_mapIdx {α β γ : Type} {xs : List α} {f : Nat → α → β} {g : β → List γ}
    {k : α → List γ} (h : ∀ i, ∀ x ∈ xs, g (f i x) = k x) :
    (xs.mapIdx f).flatMap g = xs.flatMap k := by
  induction xs generalizing f with
  | nil => rfl
  | cons x xs ih =>
    rw [List.mapIdx_cons, List.flatMap_cons, List.flatMap_cons, h 0 x (by simp),
      ih fun i y hy => h (i + 1) y (by simp [hy])]

theorem flatMap_toList {α β : Type} (f : α → Option β) (xs : List α) :
    (xs.flatMap fun x => (f x).toList) = xs.filterMap f := by
  induction xs with
  | nil => rfl
  | cons x xs ih => cases hx : f x <;> simp [hx, ih]

/-- The rows of put lines with a `created_at`, in order. -/
theorem reloadRows_created {s : Snap} (h : ∀ m ∈ s.puts, truthy (m.get "created_at") = true)
    (now : Nat → String) :
    reloadRows env now s = lineRows env s.spec s.puts := by
  rw [reloadRows, lineRows, ← flatMap_toList]
  refine flatMap_mapIdx fun i m hm => ?_
  rw [Act.newRows, orNow_truthy (h m hm)]
  rfl

theorem GoodPuts.rows {spec : TableSpec} {ms : List Members} (h : GoodPuts env spec ms) :
    ∀ m ∈ ms, ∃ row, env.lineRow spec m = .ok row := fun m hm => (h.stores m hm).imp fun _ h => h.1

theorem execAll_ok {acts : List Act} (db : Db)
    (h : ∀ a ∈ acts, ∀ db, ∃ db', exec env a db = .ok db') :
    ∃ db', execAll env acts db = (db', none) := by
  induction acts generalizing db with
  | nil => exact ⟨db, rfl⟩
  | cons a acts ih =>
    obtain ⟨mid, hmid⟩ := h a (by simp) db
    obtain ⟨db', hdb'⟩ := ih mid fun b hb => h b (by simp [hb])
    exact ⟨db', execAll_cons_none.mpr ⟨mid, hmid, hdb'⟩⟩

/-- An INSERT completes when its row stores under a key that is not there. -/
theorem exec_insert_ok {db : Db} {spec : TableSpec} {r : Record} (search : List Search)
    {ds ca : Val} {row : Row} (hs : env.stored spec r ds ca = .ok row) (h0 : row.key ≠ .null)
    (hfresh : row.key ∉ (db.shown spec.name).map Row.key) :
    ∃ db', exec env (.insert spec r search ds ca) db = .ok db' := by
  rw [shown_keys] at hfresh
  let row' : Row := { row with search := if env.vss then search else [] }
  have hnew : env.newRow spec r search ds ca = .ok row' := newRow_ok_iff.mpr ⟨row, hs, rfl⟩
  exact ⟨_, exec_insert_iff.mpr ⟨row', (db.tables spec.name).push row' h0 hfresh, hnew, h0, hfresh,
    rfl, rfl⟩⟩

theorem execAll_inserts_ok {spec : TableSpec} {acts : List Act} {db : Db}
    (hins : ∀ a ∈ acts, a.InsertsInto spec)
    (hrows : ∀ a ∈ acts, ∃ row, a.newRows env = [row] ∧ row.key ≠ .null)
    (hnd : ((db.shown spec.name ++ acts.flatMap (Act.newRows env)).map Row.key).Nodup) :
    ∃ db', execAll env acts db = (db', none) := by
  induction acts generalizing db with
  | nil => exact ⟨db, rfl⟩
  | cons a acts ih =>
    obtain ⟨r, search, ds, ca, rfl⟩ := hins a (by simp)
    obtain ⟨row, hrow, h0⟩ := hrows _ (List.mem_cons_self)
    have hs : env.stored spec r ds ca = .ok row := by
      cases hst : env.stored spec r ds ca with
      | error e => simp [Act.newRows, hst, Except.toOption] at hrow
      | ok row' =>
        simp only [Act.newRows, hst, toOption_toList_ok, List.cons.injEq, and_true] at hrow
        rw [hrow]
    have hfresh : row.key ∉ (db.shown spec.name).map Row.key := by
      intro hin
      rw [List.flatMap_cons, hrow, List.map_append, List.map_append] at hnd
      exact (List.nodup_append'.mp hnd).2.2 hin (by simp)
    obtain ⟨mid, hmid⟩ := exec_insert_ok search hs h0 hfresh
    have hshown : mid.shown spec.name = db.shown spec.name ++ [row] := by
      rw [exec_shown hmid]; simp [Act.effect, hs, toOption_toList_ok]
    have hrest : ((mid.shown spec.name ++ acts.flatMap (Act.newRows env)).map Row.key).Nodup := by
      rw [hshown, List.append_assoc]
      rwa [List.flatMap_cons, hrow] at hnd
    obtain ⟨db', hdb'⟩ := ih (fun b hb => hins b (by simp [hb])) (fun b hb => hrows b (by simp [hb]))
      hrest
    exact ⟨db', execAll_cons_none.mpr ⟨mid, hmid, hdb'⟩⟩

theorem reload_ok {s : Snap} (h : GoodPuts env s.spec s.puts) (now : Nat → String) {db : Db}
    (hempty : db.shown s.spec.name = []) :
    ∃ db', execAll env (reloadActs now s) db = (db', none) := by
  refine execAll_inserts_ok (reloadActs_insert now s) (fun a ha => ?_) ?_
  · obtain ⟨i, hi, rfl⟩ := List.mem_mapIdx.mp ha
    obtain ⟨row, hrow, h0⟩ := h.stores s.puts[i] (List.getElem_mem hi)
    refine ⟨row, ?_, h0⟩
    rw [Act.newRows, orNow_truthy (h.created _ (List.getElem_mem hi))]
    exact congrArg (fun x => (Except.toOption x).toList) hrow
  · rw [hempty, List.nil_append]
    change ((reloadRows env now s).map Row.key).Nodup
    rw [reloadRows_created h.created, lineRows_keys h.rows]
    exact h.keysNodup

theorem load_ok {s : Snap} (h : Loadable env s) (now : Nat → String) {db : Db}
    (hempty : db.shown s.spec.name = []) :
    ∃ db', execAll env (loadActs env now s) db = (db', none) := by
  obtain ⟨mid, hmid⟩ := reload_ok h.good now hempty
  have hrest : ∀ a ∈ remarkActs s ++ refreshActs env s, ∀ db, ∃ db', exec env a db = .ok db' := by
    intro a ha db
    rcases List.mem_append.mp ha with ha | ha
    · obtain ⟨d, hd, rfl⟩ := List.mem_map.mp ha
      obtain ⟨x, hx⟩ := h.dels d hd
      exact ⟨_, exec_softDelete_iff.mpr (Or.inr ⟨by simp, x, hx, rfl⟩)⟩
    · rcases List.mem_cons.mp ha with rfl | ha
      · exact ⟨_, rfl⟩
      · by_cases hi : env.indexes s.spec = true
        · rw [if_pos hi, List.mem_singleton] at ha
          subst ha
          exact ⟨_, if_pos (h.copies hi)⟩
        · rw [if_neg hi] at ha; cases ha
  obtain ⟨db', hdb'⟩ := execAll_ok mid hrest
  refine ⟨db', ?_⟩
  rw [loadActs, List.append_assoc]
  exact execAll_append_none.mpr ⟨mid, hmid, hdb'⟩

theorem loads_ok (now : String → Nat → String) {snaps : List Snap} {db : Db}
    (hnd : (snaps.map (·.spec.name)).Nodup) (h : ∀ s ∈ snaps, Loadable env s)
    (hempty : ∀ s ∈ snaps, db.shown s.spec.name = []) :
    ∃ db', execAll env (snaps.flatMap fun s => loadActs env (now s.spec.name) s) db
      = (db', none) := by
  induction snaps generalizing db with
  | nil => exact ⟨db, rfl⟩
  | cons s snaps ih =>
    obtain ⟨hs, hnd⟩ := List.nodup_cons.mp hnd
    obtain ⟨mid, hmid⟩ := load_ok (h s (by simp)) (now s.spec.name) (hempty s (by simp))
    have hrest : ∀ t ∈ snaps, mid.shown t.spec.name = [] := by
      intro t ht
      have hne : s.spec.name ≠ t.spec.name := fun heq => hs (List.mem_map.mpr ⟨t, ht, heq.symm⟩)
      rw [execAll_shown hmid, loadActs_other hne, hempty t (by simp [ht])]
    obtain ⟨db', hdb'⟩ := ih hnd (fun t ht => h t (by simp [ht])) hrest
    exact ⟨db', List.flatMap_cons ▸ execAll_append_none.mpr ⟨mid, hmid, hdb'⟩⟩

/-! ## Rebuild alone -/

/-- The log of a table can be replayed: its puts are good, its marks bind, and the providers
(embedder, side dataset) accept its rows. -/
structure Replayable (env : Env) (spec : TableSpec) (files : Files) : Prop where
  good : GoodPuts env spec (putsOf (iterEvents files spec.name))
  dels : ∀ d ∈ delsOf env.repr (iterEvents files spec.name),
    ∃ x, env.bindText (.json d.deletedAt) = some x

/-- The embedder and the side datasets accept every batch. -/
structure Env.Provides (env : Env) : Prop where
  embeds : ∀ spec rs, ∃ emb, embedRecords env spec rs = .ok emb
  copies : ∀ name rows, env.copies name rows = true

/-- A completed read keeps the events of the log as it is now. -/
theorem snapshot_ok_iff {spec : TableSpec} {files : Files} {s : Snap} :
    snapshot env spec files = .ok s ↔ ∃ emb,
      embedRecords env spec ((putsOf (iterEvents files spec.name)).map (jsonRecord spec)) = .ok emb
      ∧ s = ⟨spec, putsOf (iterEvents files spec.name),
        delsOf env.repr (iterEvents files spec.name), emb⟩ := by
  simp only [snapshot]
  generalize embedRecords env spec ((putsOf (iterEvents files spec.name)).map (jsonRecord spec)) = x
  cases x with
  | error e => simp [Except.map]
  | ok emb => simp [Except.map, eq_comm]

theorem snapshots_ok (hp : env.Provides) (files : Files) (specs : List TableSpec) :
    ∃ snaps, (specs.mapM fun spec => snapshot env spec files) = .ok snaps := by
  induction specs with
  | nil => exact ⟨[], rfl⟩
  | cons spec specs ih =>
    obtain ⟨snaps, hsnaps⟩ := ih
    obtain ⟨emb, hemb⟩ := hp.embeds spec
      ((putsOf (iterEvents files spec.name)).map (jsonRecord spec))
    have hs : ∃ s, snapshot env spec files = .ok s := ⟨_, snapshot_ok_iff.mpr ⟨emb, hemb, rfl⟩⟩
    obtain ⟨s, hs⟩ := hs
    refine ⟨s :: snaps, ?_⟩
    rw [List.mapM_cons, hs, hsnaps]
    rfl

/-- The snapshots are those of the schema's tables, in order. -/
theorem snapshots_specs {files : Files} {specs : List TableSpec} {snaps : List Snap}
    (h : (specs.mapM fun spec => snapshot env spec files) = .ok snaps) :
    snaps.map Snap.spec = specs := by
  induction mapM_ok_iff.mp h with
  | nil => rfl
  | cons hs _ ih =>
    obtain ⟨emb, -, rfl⟩ := snapshot_ok_iff.mp hs
    rw [List.map_cons, ih (mapM_ok_iff.mpr ‹_›)]

theorem mem_snapshots {files : Files} {specs : List TableSpec} {snaps : List Snap}
    (h : (specs.mapM fun spec => snapshot env spec files) = .ok snaps) {s : Snap}
    (hs : s ∈ snaps) : s.spec ∈ specs ∧ snapshot env s.spec files = .ok s := by
  induction mapM_ok_iff.mp h with
  | nil => cases hs
  | cons ha hrest ih =>
    rcases List.mem_cons.mp hs with rfl | hs
    · obtain ⟨emb, -, rfl⟩ := snapshot_ok_iff.mp ha
      exact ⟨by simp, ha⟩
    · obtain ⟨hm, hok⟩ := ih (mapM_ok_iff.mpr hrest) hs
      exact ⟨by simp [hm], hok⟩

theorem rebuild_ok_iff {schema : Schema} {now : String → Nat → String} {db db' : Db}
    {stats : Stats} : rebuild env schema now db = (db', .ok stats) ↔ ∃ snaps,
      (schema.tables.mapM fun spec => snapshot env spec db.files) = .ok snaps
      ∧ execAll env (replayActs env schema now snaps) db = (db', none) ∧ stats = statsOf snaps := by
  unfold rebuild
  cases schema.tables.mapM fun spec => snapshot env spec db.files with
  | error e => simp
  | ok snaps =>
    simp only [Except.ok.injEq, exists_eq_left']
    rcases hrun : execAll env (replayActs env schema now snaps) db with ⟨mid, _ | e⟩
    · simp [eq_comm]
    · simp

/-- The parts of a replay. -/
theorem mem_replayActs {schema : Schema} {now : String → Nat → String} {snaps : List Snap}
    {a : Act} (h : a ∈ replayActs env schema now snaps) :
    (∃ spec ∈ schema.tables, a = .clear spec)
      ∨ ∃ s ∈ snaps, a ∈ loadActs env (now s.spec.name) s := by
  rcases List.mem_append.mp h with h | h
  · obtain ⟨spec, hspec, rfl⟩ := List.mem_map.mp h
    exact Or.inl ⟨spec, hspec, rfl⟩
  · exact Or.inr (List.mem_flatMap.mp h)

theorem replayActs_lines {schema : Schema} {now : String → Nat → String} {snaps : List Snap}
    {a : Act} (ha : a ∈ replayActs env schema now snaps) : a.lines = [] := by
  rcases mem_replayActs ha with ⟨spec, -, rfl⟩ | ⟨s, -, ha⟩
  · rfl
  · rcases mem_loadActs ha with ⟨_, _, _, _, rfl⟩ | ⟨_, -, rfl⟩ | rfl | ⟨-, rfl⟩ <;> rfl

section Snapshots

variable {schema : Schema} {files : Files} {snaps : List Snap}

theorem snapshots_nodup
    (h : (schema.tables.mapM fun spec => snapshot env spec files) = .ok snaps) :
    (snaps.map (·.spec.name)).Nodup := by
  have hmap : snaps.map (·.spec.name) = (snaps.map Snap.spec).map TableSpec.name := by
    rw [List.map_map]; rfl
  rw [hmap, snapshots_specs h]; exact schema.namesNodup

theorem snapshots_name_mem
    (h : (schema.tables.mapM fun spec => snapshot env spec files) = .ok snaps) {s : Snap}
    (hs : s ∈ snaps) : s.spec.name ∈ schema.tables.map TableSpec.name :=
  List.mem_map_of_mem (mem_snapshots h hs).1

/-- The snapshot of a table of the schema. -/
theorem snapshots_find
    (h : (schema.tables.mapM fun spec => snapshot env spec files) = .ok snaps) {spec : TableSpec}
    (hspec : spec ∈ schema.tables) : ∃ s ∈ snaps, s.spec = spec
      ∧ s.puts = putsOf (iterEvents files spec.name)
      ∧ s.dels = delsOf env.repr (iterEvents files spec.name) := by
  rw [← snapshots_specs h] at hspec
  obtain ⟨s, hs, rfl⟩ := List.mem_map.mp hspec
  obtain ⟨emb, -, hse⟩ := snapshot_ok_iff.mp (mem_snapshots h hs).2
  exact ⟨s, hs, rfl, by rw [hse], by rw [hse]⟩

end Snapshots

/-- A rebuild that completes leaves the mirror alone, and a table is the one its log stands for. -/
theorem rebuild_rows {schema : Schema} {now : String → Nat → String} {db db' : Db} {stats : Stats}
    (h : rebuild env schema now db = (db', .ok stats)) : db'.files = db.files
      ∧ ∀ spec ∈ schema.tables,
        (∀ m ∈ putsOf (iterEvents db.files spec.name), truthy (m.get "created_at") = true) →
        db'.shown spec.name = replayRows env spec (iterEvents db.files spec.name) := by
  obtain ⟨snaps, hsnaps, hrun, -⟩ := rebuild_ok_iff.mp h
  constructor
  · have hlines : (replayActs env schema now snaps).flatMap Act.lines = [] :=
      List.flatMap_eq_nil_iff.mpr fun a ha => replayActs_lines ha
    rw [execAll_files hrun, hlines, List.append_nil]
  · intro spec hspec hcreated
    obtain ⟨s, hs, rfl, hputs, hdels⟩ := snapshots_find hsnaps hspec
    rw [← hputs] at hcreated
    rw [execAll_shown hrun, replayActs, List.foldl_append, foldl_clear,
      if_pos (snapshots_name_mem hsnaps hs), foldl_loads (snapshots_nodup hsnaps) hs,
      List.nil_append, reloadRows_created hcreated, replayRows, hputs, hdels]

/-- Rebuild alone completes over a log that can be replayed. -/
theorem rebuild_completes {schema : Schema} {db : Db} (hp : env.Provides)
    (hlog : ∀ spec ∈ schema.tables, Replayable env spec db.files)
    (now : String → Nat → String) :
    ∃ db' stats, rebuild env schema now db = (db', .ok stats) := by
  obtain ⟨snaps, hsnaps⟩ := snapshots_ok hp db.files schema.tables
  have hload : ∀ s ∈ snaps, Loadable env s := by
    intro s hs
    obtain ⟨hm, hok⟩ := mem_snapshots hsnaps hs
    obtain ⟨emb, -, hse⟩ := snapshot_ok_iff.mp hok
    have h := hlog s.spec hm
    exact ⟨by rw [hse]; exact h.good, by rw [hse]; exact h.dels, fun _ => hp.copies _ _⟩
  have hclear : ∀ a ∈ clearActs schema, ∀ db, ∃ db', exec env a db = .ok db' := by
    intro a ha db
    obtain ⟨spec, -, rfl⟩ := List.mem_map.mp ha
    exact ⟨_, rfl⟩
  obtain ⟨mid, hmid⟩ := execAll_ok db hclear
  have hempty : ∀ s ∈ snaps, mid.shown s.spec.name = [] := by
    intro s hs
    rw [execAll_shown hmid, foldl_clear, if_pos (snapshots_name_mem hsnaps hs)]
  obtain ⟨db', hdb'⟩ := loads_ok now (snapshots_nodup hsnaps) hload hempty
  have hrun : execAll env (replayActs env schema now snaps) db = (db', none) :=
    execAll_append_none.mpr ⟨mid, hmid, hdb'⟩
  exact ⟨db', statsOf snaps, rebuild_ok_iff.mpr ⟨snaps, hsnaps, hrun, rfl⟩⟩

end Completes

end Seekbase
