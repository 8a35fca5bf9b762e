/-
# Seekbase.Batch — what the worker REPORTS: the operations of a batch and their born-done tasks.

`System` says what a run of the worker does to the store.  Here the same run keeps a ledger: the
operation the worker is at with the database it decided on, the operations of the batch that ran to
their end, and the done tasks in the log, which the end of the batch appends one by one once the
full-text snapshots are behind it.

* `Batch`, `batchStep` — `System` with its ledger; a failing append of a task gives the batch up;
* `Db.Grew`            — what one database owes a later one while nothing is rebuilt: the mirror and
                         the side datasets are longer, every row is where it was, aged at most;
* `Report.Ran`         — a report is a decision, a plan and a complete run of its acts;
* `batch_traced`       — in every run in which no rebuild writes, all reports ran, ONE AFTER ANOTHER.

That no operation is taken while the tasks of a batch are being appended is nowhere used.
-/
import Seekbase.Programs

namespace Seekbase

open JsonText Transition

/-- An operation on its way through the worker, with the database it decided on. -/
structure Running where
  op : Op
  decision : Decision
  before : Db

/-- An operation that ran to its end, with the database it left. -/
structure Report extends Running where
  after : Db

structure Batch where
  sys : System
  job : Option Running
  /-- The operations of the batch that wait for its end. -/
  finished : List Report
  /-- The done tasks of the log. -/
  logged : List Report

def Batch.init : Batch := ⟨System.init, none, [], []⟩

inductive BatchLabel where
  | sys (l : Label)
  | log
  | logFault

/-- The operation the worker is at after a step to `s`. -/
def Batch.nextJob (b : Batch) (s : System) : Label → Option Running
  | .decide =>
    match b.sys.worker, s.worker with
    | .taken op, .decided d => some ⟨op, d, b.sys.db⟩
    | _, _ => none
  | _ => b.job

/-- The operations that wait for the end of the batch after a step. -/
def Batch.nextFinished (b : Batch) : Label → List Report
  | .finish => b.finished ++ (b.job.map fun j => ⟨j, b.sys.db⟩).toList
  | .crash => []
  | _ => b.finished

/-- The futures of a batch are resolved when all its tasks are in the log. -/
def Batch.ready (b : Batch) : Label → Bool
  | .settle => b.finished.isEmpty
  | _ => true

/-- A step of the store, or one of the tasks appended to the log last of all.  An append that raises
fails every future of the batch. -/
def batchStep (env : Env) (schema : Schema) (b : Batch) : BatchLabel → Option Batch
  | .sys l =>
    if b.ready l then
      (step env schema b.sys l).map fun s => ⟨s, b.nextJob s l, b.nextFinished l, b.logged⟩
    else none
  | .log =>
    match b.sys.worker, b.sys.touched, b.finished with
    | .idle, [], r :: rest => some { b with finished := rest, logged := b.logged ++ [r] }
    | _, _, _ => none
  | .logFault =>
    match b.sys.worker, b.sys.touched, b.finished with
    | .idle, [], _ :: _ => some { b with sys := { b.sys with executed := [] }, finished := [] }
    | _, _, _ => none

/-- No rebuild writes. -/
def BatchLabel.NoReload : BatchLabel → Prop
  | .sys (.replay _) => False
  | _ => True

/-- The operations that ran to their end, in the order they did, but for those a crash or a failing
append kept out of the log. -/
def Batch.reports (b : Batch) : List Report := b.logged ++ b.finished

/-! ## What one database owes a later one -/

/-- A row is as it was, or it was live and has got its two marks. -/
def Row.Ages (r r' : Row) : Prop :=
  r' = r ∨ r.deletedDs = none ∧ r.deletedAt = none
    ∧ ∃ ds at', r' = { r with deletedDs := some ds, deletedAt := some at' }

/-- The mirror, the rows of every table and the side datasets only grew. -/
structure Db.Grew (a b : Db) : Prop where
  files : a.files <+: b.files
  rows : ∀ (name : String) (i : Nat) (row : Row), (a.tables name).rows[i]? = some row →
    ∃ row', (b.tables name).rows[i]? = some row' ∧ row.Ages row'
  index : ∀ name, a.index name <+: b.index name

/-- A row of the table: a key of its kind, and both marks or none. -/
structure Row.Ok (spec : TableSpec) (r : Row) : Prop where
  key : KeyCell spec r.key
  marks : r.deletedDs.isSome = r.deletedAt.isSome

def Db.RowsOk (schema : Schema) (db : Db) : Prop :=
  ∀ spec ∈ schema.tables, ∀ r ∈ (db.tables spec.name).rows, r.Ok spec

/-- An act that takes nothing back. -/
def Act.Adds (schema : Schema) : Act → Prop
  | .insert spec _ _ _ _ => spec ∈ schema.tables
  | .softDelete spec _ _ deletedAt => spec ∈ schema.tables ∧ ∃ ts, deletedAt = strVal ts
  | .clear _ | .indexOverwrite _ _ => False
  | .append _ _ _ | .rebuildFts _ | .indexAppend _ _ => True

section Growth

variable {env : Env} {schema : Schema}

theorem Row.Ages.refl (r : Row) : r.Ages r := Or.inl rfl

/-- A row that has aged does not age again. -/
theorem Row.Ages.trans {a b c : Row} (hab : a.Ages b) (hbc : b.Ages c) : a.Ages c := by
  rcases hab with rfl | ⟨hds, hat, ds, at', rfl⟩
  · exact hbc
  · rcases hbc with rfl | ⟨hno, -, -⟩
    · exact Or.inr ⟨hds, hat, ds, at', rfl⟩
    · cases hno

theorem Row.Ages.key {a b : Row} (h : a.Ages b) : b.key = a.key := by
  rcases h with rfl | ⟨-, -, ds, at', rfl⟩ <;> rfl

theorem Row.Ages.search {a b : Row} (h : a.Ages b) : b.search = a.search := by
  rcases h with rfl | ⟨-, -, ds, at', rfl⟩ <;> rfl

theorem Db.Grew.refl (a : Db) : a.Grew a where
  files := List.prefix_refl _
  rows := fun _ _ row h => ⟨row, h, .refl row⟩
  index := fun _ => List.prefix_refl _

theorem Db.Grew.trans {a b c : Db} (hab : a.Grew b) (hbc : b.Grew c) : a.Grew c where
  files := hab.files.trans hbc.files
  rows := by
    intro name i row h
    rcases hab.rows name i row h with ⟨mid, hmid, hage⟩
    rcases hbc.rows name i mid hmid with ⟨last, hlast, hage'⟩
    exact ⟨last, hlast, hage.trans hage'⟩
  index := fun name => (hab.index name).trans (hbc.index name)

/-- A row that was there is there. -/
theorem Db.Grew.mem {a b : Db} (h : a.Grew b) {name : String} {row : Row}
    (hrow : row ∈ (a.tables name).rows) : ∃ row' ∈ (b.tables name).rows, row.Ages row' := by
  rcases List.mem_iff_getElem?.mp hrow with ⟨i, hi⟩
  rcases h.rows name i row hi with ⟨row', hrow', hage⟩
  exact ⟨row', List.mem_of_getElem? hrow', hage⟩

theorem mark_ages {keys : List String} {ds at' : String} {spec : TableSpec} {r : Row}
    (h : r.Ok spec) : r.Ages (mark keys ds (some at') r) := by
  unfold mark
  split
  · next hlive =>
    have hat : r.deletedAt = none := by
      have := h.marks
      rw [hlive.2] at this
      exact Option.not_isSome_iff_eq_none.mp (by rw [← this]; simp)
    exact Or.inr ⟨hlive.2, hat, ds, at', rfl⟩
  · exact .refl r

theorem mark_ok {keys : List String} {ds at' : String} {spec : TableSpec} {r : Row}
    (h : r.Ok spec) : (mark keys ds (some at') r).Ok spec := by
  unfold mark
  split
  · exact ⟨h.key, rfl⟩
  · exact h

theorem newRow_ok {spec : TableSpec} {r : Record} {search : List Search} {ds ca : Val} {row : Row}
    (h : env.newRow spec r search ds ca = .ok row) : row.Ok spec := by
  have hstored := newRow_shown h
  rcases stored_live hstored with ⟨hds, hat, -⟩
  refine ⟨show KeyCell spec row.shown.key from stored_keyCell hstored, ?_⟩
  show row.shown.deletedDs.isSome = row.shown.deletedAt.isSome
  rw [hds, hat]

/-- Rows that are kept where they are, beside tables that do not change. -/
theorem grew_setTable {db : Db} {name : String} {t : PhysTable}
    (h : ∀ (i : Nat) (row : Row), (db.tables name).rows[i]? = some row →
      ∃ row', t.rows[i]? = some row' ∧ row.Ages row') : db.Grew (db.setTable name t) where
  files := List.prefix_refl _
  rows := by
    intro other i row hrow
    by_cases hn : other = name
    · subst hn
      rw [setTable_self]
      exact h i row hrow
    · rw [setTable_other db t hn]
      exact ⟨row, hrow, .refl row⟩
  index := fun _ => List.prefix_refl _

/-- The rows of a schema's tables after one of them has changed. -/
theorem rowsOk_setTable {db : Db} (hdb : db.RowsOk schema) {name : String} {t : PhysTable}
    (h : ∀ spec ∈ schema.tables, spec.name = name → ∀ r ∈ t.rows, r.Ok spec) :
    (db.setTable name t).RowsOk schema := by
  intro spec hspec r hr
  by_cases hn : spec.name = name
  · rw [hn, setTable_self] at hr
    exact h spec hspec hn r hr
  · rw [setTable_other db t hn] at hr
    exact hdb spec hspec r hr

theorem update_append_prefix {f : String → List IndexRow} {name : String} {more : List IndexRow}
    (other : String) : f other <+: Function.update f name (f name ++ more) other := by
  by_cases hn : other = name
  · subst hn
    rw [Function.update_self]
    exact List.prefix_append _ _
  · have hsame : Function.update f name (f name ++ more) other = f other :=
      Function.update_of_ne hn _ _
    exact ⟨[], by rw [hsame, List.append_nil]⟩

/-- One act that takes nothing back, one case for each constructor. -/
theorem exec_grew {a : Act} {db db' : Db} (hadds : a.Adds schema) (hdb : db.RowsOk schema)
    (h : exec env a db = .ok db') : db.Grew db' ∧ db'.RowsOk schema := by
  cases a with
  | append ds table line =>
    rcases exec_append_iff.mp h with ⟨m, -, rfl⟩
    exact ⟨⟨List.prefix_append _ _, (Db.Grew.refl db).rows, (Db.Grew.refl db).index⟩, hdb⟩
  | insert spec r search ds ca =>
    rcases exec_insert_iff.mp h with ⟨row, t, hrow, -, -, ht, rfl⟩
    refine ⟨grew_setTable fun i old hold => ⟨old, ?_, .refl old⟩, rowsOk_setTable hdb ?_⟩
    · have hlt : i < (db.tables spec.name).rows.length := (List.getElem?_eq_some_iff.mp hold).1
      rw [ht, List.getElem?_append_left hlt]
      exact hold
    · intro other hother hname x hx
      rw [ht] at hx
      rcases List.mem_append.mp hx with hx | hx
      · rw [← hname] at hx
        exact hdb other hother x hx
      · rw [List.mem_singleton.mp hx, schema.eq_of_name hother hadds hname]
        exact newRow_ok hrow
  | softDelete spec keys ds at' =>
    rcases hadds with ⟨hspec, ts, rfl⟩
    rcases exec_softDelete_iff.mp h with ⟨-, rfl⟩ | ⟨-, x, hx, rfl⟩
    · exact ⟨.refl _, hdb⟩
    · rw [Env.bindText_str] at hx
      rcases Option.some.inj hx with rfl
      refine ⟨grew_setTable fun i old hold => ?_, rowsOk_setTable hdb ?_⟩
      · refine ⟨mark keys ds (some ts) old, ?_, mark_ages (hdb spec hspec old ?_)⟩
        · show ((db.tables spec.name).rows.map _)[i]? = _
          rw [List.getElem?_map, hold]
          rfl
        · exact List.mem_of_getElem? hold
      · intro other hother hname x hx
        rcases List.mem_map.mp hx with ⟨old, hold, rfl⟩
        rw [← hname] at hold
        exact mark_ok (hdb other hother old hold)
  | clear spec | indexOverwrite spec rows => exact hadds.elim
  | rebuildFts spec =>
    rcases Except.ok.inj h with rfl
    split
    · exact ⟨⟨List.prefix_refl _, (Db.Grew.refl db).rows, (Db.Grew.refl db).index⟩, hdb⟩
    · exact ⟨.refl _, hdb⟩
  | indexAppend spec rows =>
    simp only [exec] at h
    split at h
    · rcases Except.ok.inj h with rfl
      exact ⟨⟨List.prefix_refl _, (Db.Grew.refl db).rows, update_append_prefix⟩, hdb⟩
    · cases h

theorem execAll_db_grew {acts : List Act} {db db' : Db} (hadds : ∀ a ∈ acts, a.Adds schema)
    (hdb : db.RowsOk schema) (h : execAll env acts db = (db', none)) :
    db.Grew db' ∧ db'.RowsOk schema := by
  induction acts generalizing db with
  | nil =>
    rcases (Prod.mk.inj h).1 with rfl
    exact ⟨.refl db, hdb⟩
  | cons a acts ih =>
    rcases execAll_cons_none.mp h with ⟨mid, ha, hrest⟩
    rcases exec_grew (hadds a (by simp)) hdb ha with ⟨hgrew, hmid⟩
    rcases ih (fun b hb => hadds b (by simp [hb])) hmid hrest with ⟨hgrew', hok⟩
    exact ⟨hgrew.trans hgrew', hok⟩

/-- Each act of a complete run was executed, and what it left has only grown since. -/
theorem mem_execAll_grew {acts : List Act} {db db' : Db} (hadds : ∀ a ∈ acts, a.Adds schema)
    (hdb : db.RowsOk schema) (h : execAll env acts db = (db', none)) {a : Act} (ha : a ∈ acts) :
    ∃ mid mid', exec env a mid = .ok mid' ∧ mid'.Grew db' := by
  rcases List.append_of_mem ha with ⟨pre, post, rfl⟩
  rcases execAll_append_none.mp h with ⟨mid, hpre, hpost⟩
  rcases execAll_cons_none.mp hpost with ⟨mid', hexec, hrest⟩
  have hmid := (execAll_db_grew (fun b hb => hadds b (by simp [hb])) hdb hpre).2
  have hmid' := (exec_grew (hadds a (by simp)) hmid hexec).2
  exact ⟨mid, mid', hexec, (execAll_db_grew (fun b hb => hadds b (by simp [hb])) hmid' hrest).1⟩

theorem plan_adds {st : Stamp} {d : Decision} {acts : List Act} (hd : d.Of schema)
    (h : plan env st d = .ok acts) : ∀ a ∈ acts, a.Adds schema := by
  intro a ha
  cases d with
  | records spec rs =>
    rcases plan_records h with rfl | ⟨emb, -, rfl⟩
    · cases ha
    · rcases mem_insertActs ha with ⟨r, -, rfl⟩ | ⟨i, r, -, rfl⟩ | rfl
      · trivial
      · exact hd
      · trivial
  | keys spec ks =>
    rcases Except.ok.inj h with rfl
    rcases mem_deleteActs ha with ⟨k, -, rfl⟩ | rfl
    · trivial
    · exact ⟨hd, st.ts, rfl⟩

end Growth

/-! ## The ledger along a run -/

section Ledger

variable (env : Env) (schema : Schema)

/-- A job that is as the worker decided it. -/
structure Running.Decided (j : Running) : Prop where
  rows : j.before.RowsOk schema
  decision : decideOp env schema j.before.tables j.op = .ok j.decision

/-- A report is a decision, a plan and a complete run of its acts. -/
structure Report.Ran (r : Report) : Prop where
  decided : r.Decided env schema
  acts : ∃ st acts, plan env st r.decision = .ok acts ∧ execAll env acts r.before = (r.after, none)

/-- Where the worker is with its job: nothing else has written since the decision, and what had been
reported by then is behind it. -/
def Worker.Traced (reports : List Report) (job : Option Running) (db : Db) : Worker → Prop
  | .idle | .taken _ => True
  | .decided d => ∃ j ∈ job, j.Decided env schema ∧ j.decision = d ∧ j.before = db
  | .acting fts done todo => ∃ j ∈ job, j.Decided env schema ∧ fts = j.decision.fts env
    ∧ (∃ st, Seekbase.plan env st j.decision = .ok (done ++ todo))
    ∧ execAll env done j.before = (db, none) ∧ ∀ r ∈ reports, r.after.Grew j.before

structure Batch.Traced (b : Batch) : Prop where
  rows : b.sys.db.RowsOk schema
  worker : b.sys.worker.Traced env schema b.reports b.job b.sys.db
  ran : ∀ r ∈ b.reports, r.Ran env schema
  grew : ∀ r ∈ b.reports, r.after.Grew b.sys.db
  serial : b.reports.Pairwise fun r r' => r.after.Grew r'.before

end Ledger

section Steps

variable {env : Env} {schema : Schema} {b c : Batch}

theorem Running.Decided.adds {j : Running} (h : j.Decided env schema) {st : Stamp} {acts : List Act}
    (hplan : plan env st j.decision = .ok acts) : ∀ a ∈ acts, a.Adds schema :=
  plan_adds (decide_of h.decision) hplan

theorem Report.Ran.grew {r : Report} (h : r.Ran env schema) : r.before.Grew r.after := by
  rcases h.acts with ⟨st, acts, hplan, hrun⟩
  exact (execAll_db_grew (h.decided.adds hplan) h.decided.rows hrun).1

/-- A step that leaves the database and the ledger alone, with the worker idle or waiting. -/
theorem Batch.Traced.rest (h : b.Traced env schema) {s : System} {job : Option Running}
    (hdb : s.db = b.sys.db) (hw : s.worker.Traced env schema b.reports job b.sys.db) :
    Batch.Traced env schema ⟨s, job, b.finished, b.logged⟩ where
  rows := hdb ▸ h.rows
  worker := hdb ▸ hw
  ran := h.ran
  grew := hdb ▸ h.grew
  serial := h.serial

/-- Reports that are dropped from the end of the batch. -/
theorem Batch.Traced.drop (h : b.Traced env schema) {s : System} {job : Option Running}
    (hdb : s.db = b.sys.db) (hw : s.worker = .idle) :
    Batch.Traced env schema ⟨s, job, [], b.logged⟩ := by
  have hsub : (b.logged ++ []).Sublist b.reports := by
    rw [List.append_nil]
    exact List.sublist_append_left _ _
  refine ⟨hdb ▸ h.rows, ?_, fun r hr => h.ran r (hsub.subset hr), fun r hr => ?_,
    h.serial.sublist hsub⟩
  · show s.worker.Traced env schema _ job s.db
    rw [hw]
    trivial
  · show r.after.Grew s.db
    rw [hdb]
    exact h.grew r (hsub.subset hr)

/-- How a step changes the database while no rebuild writes: not at all, by a snapshot, or by the act
the worker is at. -/
theorem step_db {s t : System} {l : Label} (hl : BatchLabel.NoReload (.sys l))
    (hs : step env schema s l = some t) : t.db = s.db
      ∨ (∃ spec, exec env (.rebuildFts spec) s.db = .ok t.db)
      ∨ ∃ fts done a todo, s.worker = .acting fts done (a :: todo)
        ∧ exec env a s.db = .ok t.db := by
  cases step_moves (fun i hi => by subst hi; exact hl) hs with
  | write hw he => exact Or.inr (Or.inr ⟨_, _, _, _, hw, he⟩)
  | refresh hw ht he => exact Or.inr (Or.inl ⟨_, he⟩)
  | _ => exact Or.inl rfl

/-- The act the worker is at takes nothing back. -/
theorem Batch.Traced.adds (h : b.Traced env schema) {fts : Option TableSpec}
    {done todo : List Act} {a : Act} (hw : b.sys.worker = .acting fts done (a :: todo)) :
    a.Adds schema := by
  have htraced := h.worker
  rw [hw] at htraced
  rcases htraced with ⟨j, -, hdec, -, ⟨st, hplan⟩, -⟩
  exact hdec.adds hplan a (by simp)

theorem sys_grew (h : b.Traced env schema) {l : Label} {s : System}
    (hl : BatchLabel.NoReload (.sys l)) (hs : step env schema b.sys l = some s) :
    b.sys.db.Grew s.db := by
  rcases step_db hl hs with hsame | ⟨spec, he⟩ | ⟨fts, done, a, todo, hw, he⟩
  · rw [hsame]
    exact .refl _
  · have hadds : Act.Adds schema (.rebuildFts spec) := trivial
    exact (exec_grew hadds h.rows he).1
  · exact (exec_grew (h.adds hw) h.rows he).1

theorem decide_traced (h : b.Traced env schema) {op : Op} {s : System}
    (hw : b.sys.worker = .taken op) (hs : s.worker = Worker.decide env schema b.sys.db op) :
    s.worker.Traced env schema b.reports (b.nextJob s .decide) b.sys.db := by
  rw [hs]
  cases hd : decideOp env schema b.sys.db.tables op with
  | error e =>
    simp only [Worker.decide, hd]
    trivial
  | ok d =>
    simp only [Worker.decide, hd, Batch.nextJob, hw, hs]
    exact ⟨_, rfl, ⟨h.rows, hd⟩, rfl, rfl⟩

theorem plan_traced (h : b.Traced env schema) {st : Stamp} {d : Decision}
    (hw : b.sys.worker = .decided d) :
    (Worker.plan env st d).Traced env schema b.reports b.job b.sys.db := by
  have htraced := h.worker
  rw [hw] at htraced
  rcases htraced with ⟨j, hj, hdec, rfl, hbefore⟩
  cases hp : plan env st j.decision with
  | error e =>
    simp only [Worker.plan, hp]
    trivial
  | ok acts =>
    simp only [Worker.plan, hp]
    refine ⟨j, hj, hdec, rfl, ⟨st, hp⟩, ?_, fun r hr => ?_⟩
    · rw [hbefore]
      rfl
    · rw [hbefore]
      exact h.grew r hr

theorem write_traced (h : b.Traced env schema) {fts : Option TableSpec} {done todo : List Act}
    {a : Act} {db : Db} (hw : b.sys.worker = .acting fts done (a :: todo))
    (he : exec env a b.sys.db = .ok db) :
    Batch.Traced env schema ⟨{ b.sys with db := db, worker := .acting fts (done ++ [a]) todo },
      b.job, b.finished, b.logged⟩ := by
  have htraced := h.worker
  rw [hw] at htraced
  rcases htraced with ⟨j, hj, hdec, hfts, ⟨st, hplan⟩, hrun, hreports⟩
  rcases exec_grew (h.adds hw) h.rows he with ⟨hgrew, hrows⟩
  refine ⟨hrows, ?_, h.ran, fun r hr => (h.grew r hr).trans hgrew, h.serial⟩
  refine ⟨j, hj, hdec, hfts, ⟨st, ?_⟩, ?_, hreports⟩
  · rw [List.append_assoc]
    exact hplan
  · refine execAll_append_none.mpr ⟨b.sys.db, hrun, ?_⟩
    exact execAll_cons_none.mpr ⟨db, he, rfl⟩

/-- The operation that ends hands its report to the ledger. -/
theorem finish_traced (h : b.Traced env schema) {fts : Option TableSpec} {done : List Act}
    {s : System} {job : Option Running} (hw : b.sys.worker = .acting fts done [])
    (hdb : s.db = b.sys.db) (hidle : s.worker = .idle) :
    Batch.Traced env schema ⟨s, job, b.nextFinished .finish, b.logged⟩ := by
  have htraced := h.worker
  rw [hw] at htraced
  rcases htraced with ⟨j, hj, hdec, hfts, ⟨st, hplan⟩, hrun, hreports⟩
  rw [List.append_nil] at hplan
  have hran : Report.Ran env schema ⟨j, b.sys.db⟩ := ⟨hdec, st, done, hplan, hrun⟩
  have hledger : b.logged ++ b.nextFinished .finish = b.reports ++ [⟨j, b.sys.db⟩] := by
    rw [Batch.nextFinished, Option.mem_def.mp hj, ← List.append_assoc]
    rfl
  refine ⟨hdb ▸ h.rows, ?_, ?_, ?_, ?_⟩
  · show s.worker.Traced env schema _ _ _
    rw [hidle]
    trivial
  · show ∀ r ∈ b.logged ++ b.nextFinished .finish, r.Ran env schema
    rw [hledger]
    exact List.forall_mem_append.mpr ⟨h.ran, List.forall_mem_singleton.mpr hran⟩
  · show ∀ r ∈ b.logged ++ b.nextFinished .finish, r.after.Grew s.db
    rw [hledger, hdb]
    exact List.forall_mem_append.mpr ⟨h.grew, List.forall_mem_singleton.mpr (.refl _)⟩
  · show (b.logged ++ b.nextFinished .finish).Pairwise _
    rw [hledger, List.pairwise_append]
    refine ⟨h.serial, List.pairwise_singleton _ _, fun r hr r' hr' => ?_⟩
    rw [List.mem_singleton.mp hr']
    exact hreports r hr

/-- One step of the store. -/
theorem sys_traced (h : b.Traced env schema) {l : Label} {s : System}
    (hl : BatchLabel.NoReload (.sys l)) (hs : step env schema b.sys l = some s) :
    Batch.Traced env schema ⟨s, b.nextJob s l, b.nextFinished l, b.logged⟩ := by
  cases step_moves (fun i hi => by subst hi; exact hl) hs with
  | take | refuse | fault => exact h.rest rfl trivial
  | decide hw => exact h.rest rfl (decide_traced h hw rfl)
  | plan hw => exact h.rest rfl (plan_traced h hw)
  | write hw he => exact write_traced h hw he
  | finish hw => exact finish_traced h hw rfl rfl
  | @refresh spec rest db hw ht he =>
    have hadds : Act.Adds schema (.rebuildFts spec) := trivial
    rcases exec_grew hadds h.rows he with ⟨hgrew, hrows⟩
    refine ⟨hrows, ?_, h.ran, fun r hr => (h.grew r hr).trans hgrew, h.serial⟩
    show b.sys.worker.Traced env schema _ _ db
    rw [hw]
    trivial
  | skip hw ht hl' => rcases hl' with rfl | rfl <;> exact h.rest rfl h.worker
  | settle => exact h.rest rfl h.worker
  | background hl' =>
    cases l with
    | rebuild | read | stop => exact h.rest rfl h.worker
    | _ => exact hl'.elim
  | crash => exact h.drop rfl rfl

/-- What a step of the store does to the ledger. -/
theorem batchStep_sys {l : Label} (h : batchStep env schema b (.sys l) = some c) :
    b.ready l = true ∧ ∃ s, step env schema b.sys l = some s
      ∧ c = ⟨s, b.nextJob s l, b.nextFinished l, b.logged⟩ := by
  simp only [batchStep] at h
  split at h
  · next hready =>
    rcases Option.map_eq_some_iff.mp h with ⟨s, hs, rfl⟩
    exact ⟨hready, s, hs, rfl⟩
  · cases h

/-- A logged task is the first of the reports that waited. -/
theorem batchStep_log (h : batchStep env schema b .log = some c) : b.sys.touched = [] ∧
    ∃ r rest, b.finished = r :: rest
      ∧ c = { b with finished := rest, logged := b.logged ++ [r] } := by
  simp only [batchStep] at h
  split at h
  · next r rest hw ht hf => exact ⟨ht, r, rest, hf, (Option.some.inj h).symm⟩
  · cases h

theorem batchStep_logFault (h : batchStep env schema b .logFault = some c) :
    b.sys.worker = .idle
      ∧ c = { b with sys := { b.sys with executed := [] }, finished := [] } := by
  simp only [batchStep] at h
  split at h
  · next r rest hw ht hf => exact ⟨hw, (Option.some.inj h).symm⟩
  · cases h

theorem batch_step_traced (h : b.Traced env schema) {l : BatchLabel} (hl : l.NoReload)
    (hs : batchStep env schema b l = some c) : c.Traced env schema := by
  cases l with
  | sys l =>
    rcases batchStep_sys hs with ⟨-, s, hstep, rfl⟩
    exact sys_traced h hl hstep
  | log =>
    rcases batchStep_log hs with ⟨-, r, rest, hf, rfl⟩
    -- the ledger is the same list, cut one report later
    have hledger : b.logged ++ [r] ++ rest = b.reports := by
      rw [Batch.reports, hf, List.append_assoc]
      rfl
    refine ⟨h.rows, ?_, ?_, ?_, ?_⟩
    · show b.sys.worker.Traced env schema (b.logged ++ [r] ++ rest) b.job b.sys.db
      rw [hledger]
      exact h.worker
    · show ∀ r' ∈ b.logged ++ [r] ++ rest, r'.Ran env schema
      rw [hledger]
      exact h.ran
    · show ∀ r' ∈ b.logged ++ [r] ++ rest, r'.after.Grew b.sys.db
      rw [hledger]
      exact h.grew
    · show (b.logged ++ [r] ++ rest).Pairwise _
      rw [hledger]
      exact h.serial
  | logFault =>
    rcases batchStep_logFault hs with ⟨hw, rfl⟩
    exact h.drop rfl hw

theorem batch_step_grew (h : b.Traced env schema) {l : BatchLabel} (hl : l.NoReload)
    (hs : batchStep env schema b l = some c) : b.sys.db.Grew c.sys.db := by
  cases l with
  | sys l =>
    rcases batchStep_sys hs with ⟨-, s, hstep, rfl⟩
    exact sys_grew h hl hstep
  | log =>
    rcases batchStep_log hs with ⟨-, r, rest, -, rfl⟩
    exact .refl _
  | logFault =>
    rcases batchStep_logFault hs with ⟨-, rfl⟩
    exact .refl _

theorem batch_init_traced : Batch.init.Traced env schema where
  rows := fun _ _ _ hr => absurd hr (by simp [Batch.init, System.init, Db.init, PhysTable.empty])
  worker := trivial
  ran := fun _ hr => absurd hr (by simp [Batch.init, Batch.reports])
  grew := fun _ hr => absurd hr (by simp [Batch.init, Batch.reports])
  serial := List.Pairwise.nil

/-- In every run in which no rebuild writes, the reports are those of operations that ran one after
another. -/
theorem batch_traced {labels : List BatchLabel} (hl : ∀ l ∈ labels, l.NoReload)
    (hrun : run (batchStep env schema) Batch.init labels = some b) : b.Traced env schema := by
  have hguard : Guarded (batchStep env schema) (fun _ l => l.NoReload) Batch.init labels :=
    Guarded.of_forall fun l hlm _ => hl l hlm
  exact run_guarded (fun _ _ _ h hg hs => batch_step_traced h hg hs) batch_init_traced hguard hrun

/-- From any reachable state on, the database only grows. -/
theorem batch_grew {labels : List BatchLabel} (hb : b.Traced env schema)
    (hl : ∀ l ∈ labels, l.NoReload) (hrun : run (batchStep env schema) b labels = some c) :
    b.sys.db.Grew c.sys.db := by
  have hguard : Guarded (batchStep env schema) (fun _ l => l.NoReload) b labels :=
    Guarded.of_forall fun l hlm _ => hl l hlm
  have hkeep : ∀ (x : Batch) (l : BatchLabel) (y : Batch),
      (x.Traced env schema ∧ b.sys.db.Grew x.sys.db) → l.NoReload →
      batchStep env schema x l = some y → y.Traced env schema ∧ b.sys.db.Grew y.sys.db := by
    rintro x l y ⟨hx, hgrew⟩ hnl hs
    exact ⟨batch_step_traced hx hnl hs, hgrew.trans (batch_step_grew hx hnl hs)⟩
  exact (run_guarded hkeep ⟨hb, .refl _⟩ hguard hrun).2

end Steps

end Seekbase
