/-
# Seekbase.Atomicity — what an operation leaves when it stops half way.

Neither an insert nor a rebuild opens a transaction, so what an exception leaves is the state after
the acts before it.

* `insert_all_or_nothing` — an insert that raises changed nothing IFF it raised before its first line
  was appended or would not have raised at all: from the first put line on there is no way back;
* `rebuild_stopped`       — a rebuild that stops leaves the mirror alone, and of every table either
  the rows it had or a prefix of its reload, so that another rebuild finishes the work.
-/
import Seekbase.Fidelity

namespace Seekbase

open JsonText Transition

/-! ## Insert -/

section Insert

variable {env : Env} {db : Db}

/-- However far the acts got, the mirror only grew. -/
theorem execAll_grows (env : Env) (acts : List Act) (db : Db) :
    ∃ ls, (execAll env acts db).1.files = db.files ++ ls := by
  induction acts generalizing db with
  | nil => exact ⟨[], by simp [execAll]⟩
  | cons a acts ih =>
    cases ha : exec env a db with
    | error e => exact ⟨[], by simp [execAll, ha]⟩
    | ok mid =>
      obtain ⟨ls, hls⟩ := ih mid
      exact ⟨a.lines ++ ls, by rw [execAll, ha]; simp only [hls, exec_files ha, List.append_assoc]⟩

/-- The rows of a batch go through: every record is written as JSON and stored, under keys that are
given, distinct and new, and the side dataset takes the batch. -/
structure Acceptable (env : Env) (db : Db) (spec : TableSpec) (rs : List Record)
    (emb : List (String × List Search)) (st : Stamp) : Prop where
  dumps : ∀ r ∈ rs, ∃ m, (putLine spec r st.ds st.ts).toMembers? = some m
  stores : ∀ r ∈ rs, ∃ row, env.stored spec r (strVal st.ds) (strVal st.ts) = .ok row
    ∧ row.key ≠ .null
  keys : ((db.shown spec.name ++ rs.filterMap fun r =>
    (env.stored spec r (strVal st.ds) (strVal st.ts)).toOption).map Row.key).Nodup
  copies : env.indexes spec = true → env.copies spec.name (lancePayload env spec rs emb) = true

theorem rowActs_newRows (spec : TableSpec) (rs : List Record) (emb : List (String × List Search))
    (st : Stamp) : (rowActs spec rs emb st).flatMap (Act.newRows env)
      = rs.filterMap fun r => (env.stored spec r (strVal st.ds) (strVal st.ts)).toOption := by
  rw [← flatMap_toList, rowActs]
  exact flatMap_mapIdx fun i r _ => rfl

theorem putActs_shown {spec : TableSpec} {rs : List Record} {st : Stamp} {mid : Db}
    (h : execAll env (putActs spec rs st) db = (mid, none)) (name : String) :
    mid.shown name = db.shown name := by
  rw [execAll_shown h]
  refine foldl_other _ fun a ha rows => ?_
  obtain ⟨r, -, rfl⟩ := List.mem_map.mp ha
  rfl

theorem Acceptable.completes {spec : TableSpec} {rs : List Record}
    {emb : List (String × List Search)} {st : Stamp} (h : Acceptable env db spec rs emb st) :
    ∃ db', execAll env (insertActs env spec rs emb st) db = (db', none) := by
  have hputs : ∀ a ∈ putActs spec rs st, ∀ db, ∃ db', exec env a db = .ok db' := by
    intro a ha db
    obtain ⟨r, hr, rfl⟩ := List.mem_map.mp ha
    obtain ⟨m, hm⟩ := h.dumps r hr
    exact ⟨_, exec_append_iff.mpr ⟨m, hm, rfl⟩⟩
  obtain ⟨d1, h1⟩ := execAll_ok db hputs
  have hrows : ∃ d2, execAll env (rowActs spec rs emb st) d1 = (d2, none) := by
    refine execAll_inserts_ok (rowActs_insert spec rs emb st) (fun a ha => ?_) ?_
    · obtain ⟨i, hi, rfl⟩ := List.mem_mapIdx.mp ha
      obtain ⟨row, hrow, h0⟩ := h.stores _ (List.getElem_mem hi)
      exact ⟨row, by rw [Act.newRows, hrow]; rfl, h0⟩
    · rw [putActs_shown h1, rowActs_newRows]
      exact h.keys
  obtain ⟨d2, h2⟩ := hrows
  have hindex : ∀ a ∈ indexActs env spec rs emb, ∀ db, ∃ db', exec env a db = .ok db' := by
    intro a ha db
    have hidx : env.indexes spec = true := by
      by_contra hno
      simp [indexActs, hno] at ha
    rw [indexActs_mem ha]
    exact ⟨_, if_pos (h.copies hidx)⟩
  obtain ⟨d3, h3⟩ := execAll_ok d2 hindex
  refine ⟨d3, ?_⟩
  rw [insertActs]
  exact execAll_append_none.mpr ⟨d2, execAll_append_none.mpr ⟨d1, h1, h2⟩, h3⟩

/-- An insert that went through was acceptable. -/
theorem acceptable_of_complete {spec : TableSpec} {rs : List Record}
    {emb : List (String × List Search)} {st : Stamp} {db' : Db} (hne : rs ≠ [])
    (h : execAll env (insertActs env spec rs emb st) db = (db', none)) :
    Acceptable env db spec rs emb st := by
  have hstored := fun r hr => insert_stored h (r := r) hr
  have hshown : db'.shown spec.name = db.shown spec.name ++ rs.filterMap fun r =>
      (env.stored spec r (strVal st.ds) (strVal st.ts)).toOption := by
    rw [insert_shown h, rowActs_newRows]
  have hkeys := shown_nodup db' spec.name
  have hnull := shown_notNull db' spec.name
  rw [hshown] at hkeys hnull
  refine ⟨fun r hr => insert_dumps h hr, fun r hr => ?_, hkeys, fun hidx => ?_⟩
  · obtain ⟨row, hrow⟩ := hstored r hr
    refine ⟨row, hrow, hnull row (List.mem_append_right _ ?_)⟩
    exact List.mem_filterMap.mpr ⟨r, hr, by rw [hrow]; rfl⟩
  · have ha : Act.indexAppend spec (lancePayload env spec rs emb)
        ∈ insertActs env spec rs emb st := by
      simp [insertActs, indexActs, hidx, hne]
    obtain ⟨mid, mid', hmid⟩ := mem_execAll h ha
    by_contra hno
    simp [exec, hno] at hmid

end Insert

/-- An insert raised and left everything as it was, or did not raise. -/
def AllOrNothing (env : Env) (schema : Schema) (st : Stamp) (op : Op) (db : Db) : Prop :=
  ∀ db' e, execute env schema st op db = (db', .error e) → db' = db

/-- The batches an insert is all or nothing for: what validation lets through and the embedder
embeds is either refused as JSON at its very first record, or acceptable as a whole. -/
def SafeBatch (env : Env) (schema : Schema) (st : Stamp) (table : String) (rows : List Record)
    (skip : Bool) (db : Db) : Prop :=
  ∀ spec r rs emb, schema.table table = some spec →
    validate env.repr spec (db.tables spec.name) rows skip = .ok (r :: rs) →
    embedRecords env spec (r :: rs) = .ok emb →
    (putLine spec r st.ds st.ts).toMembers? = none ∨ Acceptable env db spec (r :: rs) emb st

theorem insert_all_or_nothing (env : Env) (schema : Schema) (st : Stamp) (table : String)
    (rows : List Record) (skip : Bool) (db : Db) :
    AllOrNothing env schema st (.insert table rows skip) db
      ↔ SafeBatch env schema st table rows skip db := by
  constructor
  · intro h spec r rs emb hspec hval hemb
    cases hm : (putLine spec r st.ds st.ts).toMembers? with
    | none => exact Or.inl rfl
    | some m =>
      refine Or.inr ?_
      have hdec : decideOp env schema db.tables (.insert table rows skip)
          = .ok (.records spec (r :: rs)) := by
        simp [decideOp, Schema.tableSpec, hspec, hval, bind, Except.bind, pure, Except.pure]
      have hplan : plan env st (.records spec (r :: rs))
          = .ok (insertActs env spec (r :: rs) emb st) := by
        simp [plan, hemb, Except.map]
      rcases hrun : execAll env (insertActs env spec (r :: rs) emb st) db with ⟨db', _ | e⟩
      · exact acceptable_of_complete (by simp) hrun
      · exfalso
        have hexec : execute env schema st (.insert table rows skip) db = (db', .error e) := by
          simp only [execute, hdec, hplan, hrun]
        have hsame := h db' e hexec
        -- the first line is in the mirror, and stays there
        obtain ⟨tail, htail⟩ : ∃ tail, insertActs env spec (r :: rs) emb st
            = .append st.ds spec.name (putLine spec r st.ds st.ts) :: tail := ⟨_, rfl⟩
        have hfirst : exec env (.append st.ds spec.name (putLine spec r st.ds st.ts)) db
            = .ok { db with files := db.files ++ [⟨st.ds, spec.name, m⟩] } :=
          exec_append_iff.mpr ⟨m, hm, rfl⟩
        have hrest : execAll env tail { db with files := db.files ++ [⟨st.ds, spec.name, m⟩] }
            = (db', some e) := by
          rw [htail, execAll, hfirst] at hrun
          exact hrun
        obtain ⟨ls, hls⟩ := execAll_grows env tail
          { db with files := db.files ++ [⟨st.ds, spec.name, m⟩] }
        rw [hrest, hsame] at hls
        have hlen := congrArg List.length hls
        simp at hlen
  · intro h db' e hexec
    unfold execute at hexec
    split at hexec
    · exact (Prod.mk.inj hexec).1.symm
    · rename_i d hd
      split at hexec
      · exact (Prod.mk.inj hexec).1.symm
      · rename_i acts hplan
        obtain ⟨spec, rs, hspec, hval, rfl⟩ := decide_insert hd
        rcases plan_records hplan with rfl | ⟨emb, hemb, rfl⟩
        · exact absurd hexec (by simp [execAll])
        · cases rs with
          | nil => exact absurd hexec (by simp [insertActs, putActs, rowActs, indexActs, execAll])
          | cons r rs =>
            rcases h spec r rs emb hspec hval hemb with hm | hacc
            · have hfail : execAll env (insertActs env spec (r :: rs) emb st) db
                  = (db, some .notSerializable) := by
                simp [insertActs, putActs, execAll, exec, hm]
              rw [hfail] at hexec
              exact (Prod.mk.inj hexec).1.symm
            · obtain ⟨mid, hmid⟩ := hacc.completes
              rw [hmid] at hexec
              exact absurd hexec (by simp)

/-- Two notes, the second with a text that is no JSON value: the first one's line stays. -/
theorem insert_leaves_line : ∃ db' e,
    execute plainEnv notesSchema ⟨"20260102", "t1", by decide⟩ (.insert "notes"
      [[("id", strVal "n1"), ("text", strVal "v1")],
        [("id", strVal "n2"), ("text", .other "<object>" none)]] false) Db.init = (db', .error e)
      ∧ db'.files.length = 1 ∧ (db'.shown "notes").length = 0
      ∧ ¬ AllOrNothing plainEnv notesSchema ⟨"20260102", "t1", by decide⟩ (.insert "notes"
        [[("id", strVal "n1"), ("text", strVal "v1")],
          [("id", strVal "n2"), ("text", .other "<object>" none)]] false) Db.init := by
  refine ⟨_, _, rfl, by decide, by decide, fun h => ?_⟩
  have hsame := congrArg (fun db => db.files.length) (h _ _ rfl)
  exact absurd hsame (by decide)

/-! ## Rebuild -/

section Stopped

variable {env : Env}

/-- A rebuild of `db` that stopped after `i` acts of its second phase (by an exception of the next
one, its timeout, a cancel or a shutdown), or in its first phase, before any act. -/
inductive StoppedAt (env : Env) (schema : Schema) (now : String → Nat → String) (db : Db) :
    Nat → Db → Prop
  | reading : StoppedAt env schema now db 0 db
  | acting {snaps : List Snap} {i : Nat} {db' : Db}
      (hsnaps : (schema.tables.mapM fun spec => snapshot env spec db.files) = .ok snaps)
      (hrun : execAll env ((replayActs env schema now snaps).take i) db = (db', none)) :
      StoppedAt env schema now db i db'

/-- A part of a table's reload: some of the first rows, and marks only once all are there. -/
def PartOfReload (env : Env) (now : Nat → String) (s : Snap) (rows : List Row) : Prop :=
  ∃ loaded k, loaded <+: reloadRows env now s ∧ (k = 0 ∨ loaded = reloadRows env now s)
    ∧ rows = loaded.map (applyDels env (s.dels.take k))

theorem flatMap_take_prefix {α β : Type} (f : α → List β) (xs : List α) (n : Nat) :
    (xs.take n).flatMap f <+: xs.flatMap f := by
  have h := congrArg (List.flatMap f) (List.take_append_drop n xs)
  rw [List.flatMap_append] at h
  exact ⟨_, h⟩

theorem take_load (now : Nat → String) (s : Snap) (n : Nat) : PartOfReload env now s
    (((loadActs env now s).take n).foldl (Act.effect env s.spec.name) []) := by
  rw [loadActs, List.append_assoc, List.take_append]
  have hins : ∀ a ∈ (reloadActs now s).take n, a.InsertsInto s.spec := fun a ha =>
    reloadActs_insert now s a (List.mem_of_mem_take ha)
  rw [List.foldl_append, foldl_inserts hins, List.nil_append]
  by_cases hn : n ≤ (reloadActs now s).length
  · rw [Nat.sub_eq_zero_of_le hn]
    exact ⟨_, 0, flatMap_take_prefix _ _ n, Or.inl rfl, (List.map_id _).symm⟩
  · have hall : (reloadActs now s).take n = reloadActs now s :=
      List.take_of_length_le (by omega)
    rw [hall, List.take_append, List.foldl_append, remarkActs, ← List.map_take, foldl_remarks]
    have hrefresh : ∀ (m : Nat) (rows : List Row),
        ((refreshActs env s).take m).foldl (Act.effect env s.spec.name) rows = rows := by
      refine fun m rows => foldl_other rows fun a ha rs => ?_
      unfold refreshActs at ha
      rcases List.mem_cons.mp (List.mem_of_mem_take ha) with rfl | ha
      · rfl
      · split at ha
        · rw [List.mem_singleton.mp ha]; rfl
        · cases ha
    rw [hrefresh]
    exact ⟨_, n - (reloadActs now s).length, List.prefix_rfl, Or.inr rfl, rfl⟩

theorem take_loads {now : String → Nat → String} {snaps : List Snap}
    (hnd : (snaps.map (·.spec.name)).Nodup) {s : Snap} (hs : s ∈ snaps) (n : Nat) :
    PartOfReload env (now s.spec.name) s
      (((snaps.flatMap fun s => loadActs env (now s.spec.name) s).take n).foldl
        (Act.effect env s.spec.name) []) := by
  induction snaps generalizing n with
  | nil => cases hs
  | cons t snaps ih =>
    obtain ⟨ht, hnd⟩ := List.nodup_cons.mp hnd
    rw [List.flatMap_cons, List.take_append, List.foldl_append]
    have hother : ∀ (acts : List Act) (m : Nat) (rows : List Row),
        (∀ a ∈ acts, ∀ rs, a.effect env s.spec.name rs = rs) →
        (acts.take m).foldl (Act.effect env s.spec.name) rows = rows := fun acts m rows h =>
      foldl_other rows fun a ha => h a (List.mem_of_mem_take ha)
    rcases List.mem_cons.mp hs with rfl | hs
    · rw [hother _ _ _ fun a ha rs => ?_]
      · exact take_load _ _ _
      · obtain ⟨u, hu, ha⟩ := List.mem_flatMap.mp ha
        have hne : u.spec.name ≠ s.spec.name := fun heq => ht (List.mem_map.mpr ⟨u, hu, heq⟩)
        exact loadActs_effect_other hne ha rs
    · have hne : t.spec.name ≠ s.spec.name := fun heq => ht (List.mem_map.mpr ⟨s, hs, heq.symm⟩)
      rw [hother _ _ _ fun a ha rs => loadActs_effect_other hne ha rs]
      exact ih hnd hs _

theorem StoppedAt.files {schema : Schema} {now : String → Nat → String} {db db' : Db} {i : Nat}
    (h : StoppedAt env schema now db i db') : db'.files = db.files := by
  cases h with
  | reading => rfl
  | @acting snaps _ _ hsnaps hrun =>
    have hlines : ((replayActs env schema now snaps).take i).flatMap Act.lines = [] :=
      List.flatMap_eq_nil_iff.mpr fun a ha => replayActs_lines (List.mem_of_mem_take ha)
    rw [execAll_files hrun, hlines, List.append_nil]

/-- The `p`-th table of the schema is cleared by the `p`-th act, and then reloaded. -/
theorem StoppedAt.table {schema : Schema} {now : String → Nat → String} {db db' : Db} {i p : Nat}
    {spec : TableSpec} (h : StoppedAt env schema now db i db') (hp : schema.tables[p]? = some spec) :
    (i ≤ p → db'.shown spec.name = db.shown spec.name)
      ∧ (p < i → ∃ s, snapshot env spec db.files = .ok s
        ∧ PartOfReload env (now spec.name) s (db'.shown spec.name)) := by
  obtain ⟨hlt, hget⟩ := List.getElem?_eq_some_iff.mp hp
  cases h with
  | reading => exact ⟨fun _ => rfl, fun h => absurd h (Nat.not_lt_zero p)⟩
  | @acting snaps _ _ hsnaps hrun =>
    have hcut : (clearActs schema).take i = (schema.tables.take i).map .clear := by
      rw [clearActs, List.map_take]
    have hshown := execAll_shown hrun spec.name
    rw [replayActs, List.take_append, List.foldl_append, hcut, foldl_clears] at hshown
    have hlen : (clearActs schema).length = schema.tables.length := by simp [clearActs]
    constructor
    · intro hip
      -- the clears up to `i` are of other tables, and no load has begun
      have hnot : spec.name ∉ (schema.tables.take i).map TableSpec.name := by
        intro hin
        obtain ⟨other, hother, hname⟩ := List.mem_map.mp hin
        obtain ⟨q, hq, hqeq⟩ := List.getElem_of_mem hother
        rw [List.getElem_take] at hqeq
        have hqi : q < i := by simp at hq; omega
        have hsame : other = spec := schema.eq_of_name (List.mem_of_mem_take hother)
          (hget ▸ List.getElem_mem hlt) hname
        have hqp := (List.Nodup.of_map _ schema.namesNodup).getElem_inj_iff.mp
          (hqeq.trans (hsame.trans hget.symm))
        omega
      rw [if_neg hnot, hlen, Nat.sub_eq_zero_of_le (by omega), List.take_zero] at hshown
      exact hshown
    · intro hpi
      have hin : spec.name ∈ (schema.tables.take i).map TableSpec.name := by
        refine List.mem_map_of_mem (List.mem_iff_getElem.mpr ⟨p, by simp; omega, ?_⟩)
        rw [List.getElem_take, hget]
      have hspec : spec ∈ schema.tables := hget ▸ List.getElem_mem hlt
      rw [if_pos hin] at hshown
      rw [← snapshots_specs hsnaps] at hspec
      obtain ⟨s, hs, rfl⟩ := List.mem_map.mp hspec
      refine ⟨s, (mem_snapshots hsnaps hs).2, ?_⟩
      rw [hshown]
      exact take_loads (snapshots_nodup hsnaps) hs _

/-- A stopped rebuild: the mirror is untouched; a table not yet cleared has the rows it had, and one
already cleared a part of its reload; and a rebuild that completes afterwards gives every table of a
replayable log the rows that log stands for, as if none had stopped. -/
theorem rebuild_stopped {schema : Schema} {now : String → Nat → String} {db db' : Db} {i : Nat}
    (h : StoppedAt env schema now db i db') : db'.files = db.files
      ∧ (∀ p spec, schema.tables[p]? = some spec →
        (i ≤ p → db'.shown spec.name = db.shown spec.name)
        ∧ (p < i → ∃ s, snapshot env spec db.files = .ok s
          ∧ PartOfReload env (now spec.name) s (db'.shown spec.name)))
      ∧ ∀ now' db'' stats, rebuild env schema now' db' = (db'', .ok stats) →
        ∀ spec ∈ schema.tables, GoodPuts env spec (putsOf (iterEvents db.files spec.name)) →
          db''.shown spec.name = replayRows env spec (iterEvents db.files spec.name) := by
  refine ⟨h.files, fun p spec hp => h.table hp, fun now' db'' stats hreb spec hspec hgood => ?_⟩
  rw [← h.files] at hgood ⊢
  exact (rebuild_rows hreb).2 spec hspec hgood.created

/-- A rebuild of two notes that stops after its first act: the rows are gone. -/
theorem rebuild_stopped_loses : ∃ db db',
    run (opStep plainEnv notesSchema) Db.init noteHistory = some db
      ∧ StoppedAt plainEnv notesSchema (fun _ _ => "t3") db 1 db'
      ∧ db'.shown "notes" ≠ db.shown "notes" := by
  have hsome : ((run (opStep plainEnv notesSchema) Db.init noteHistory).map fun db =>
      (db.shown "notes").length) = some 2 := by decide
  obtain ⟨db, hrun, hlen⟩ := Option.map_eq_some_iff.mp hsome
  refine ⟨db, db.setTable "notes" .empty, hrun, .acting rfl rfl, fun heq => ?_⟩
  rw [← heq, shown_setTable, if_pos rfl] at hlen
  cases hlen

theorem rebuild_stopped_notes : ∃ db db',
    run (opStep plainEnv notesSchema) Db.init noteHistory = some db
      ∧ StoppedAt plainEnv notesSchema (fun _ _ => "t3") db 1 db' ∧ db'.files = db.files
      ∧ ∃ s, snapshot plainEnv notes db.files = .ok s
        ∧ PartOfReload plainEnv (fun _ => "t3") s (db'.shown "notes") := by
  have hsome : (run (opStep plainEnv notesSchema) Db.init noteHistory).isSome = true := by decide
  obtain ⟨db, hrun⟩ := Option.isSome_iff_exists.mp hsome
  have hstop : StoppedAt plainEnv notesSchema (fun _ _ => "t3") db 1 (db.setTable "notes" .empty) :=
    .acting rfl rfl
  have h := rebuild_stopped hstop
  exact ⟨db, _, hrun, hstop, h.1, (h.2.1 0 notes rfl).2 (by decide)⟩

end Stopped

end Seekbase
