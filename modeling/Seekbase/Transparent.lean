/-
# Seekbase.Transparent — a batch of writes, and the same writes one by one.

The worker takes whatever is queued and processes it as one batch: it executes the operations in
order, and leaves to the end what it would do after each of them, the full-text snapshots and the
task records.  Two lists of different lengths are then put together again to answer the futures.

* `executeOne`, `processBatch` — `_execute_one` and `_process_batch`, with the faults of the disk and
                   the bridge as data of the operation they hit;
* `executeOne_fts` — an operation neither reads nor writes what is left to the end, if its clause does
                   not ask for it;
* `untouched`      — an operation that asks for no snapshot leaves one that is current so;
* `processAll_db`, `processBatch_spec` — what any split leaves, in terms of one plain run;
* `batching_transparent` — so all splits leave the same, and answer the same.

A commit is taken to be all or nothing, and a snapshot to succeed.  The ids and times of the records
are left out; the clock an operation is stamped by is a datum of the operation.
-/
import Seekbase.Write

namespace Seekbase

open JsonText

/-! ## The worker -/

/-- What a future can be failed with: an error of the store, or one of the disk and the bridge. -/
inductive OpFault where
  | exc (e : Exc)
  | os (why : String)

inductive Kind where
  | insert
  | delete
  deriving DecidableEq

/-- A born-done task, but for its id and times. -/
structure BornTask where
  kind : Kind
  matched : Option Nat
  deriving DecidableEq

abbrev Reply := Except OpFault BornTask

/-- An operation in the queue with its future.  `fault` is what it is hit by and before which of its
steps, `logFault` what the append of its task is. -/
structure Submitted where
  fut : Nat
  op : Op
  st : Stamp
  fault : Option (Nat × OpFault)
  logFault : Option OpFault

/-- What a delete clause may select by: everything there is, the task log too. -/
abbrev Clauses := Db → List BornTask → TableSpec → String → List Val → (String → List Row) →
  Except String (List Val)

section Worker

variable (env : Env) (schema : Schema) (select : Clauses)

/-- The environment of a delete that is decided on this database. -/
def Env.reading (db : Db) (log : List BornTask) : Env := { env with selectKeys := select db log }

/-- The steps of an operation, each of which happens whole or not at all. -/
def Decision.stages (st : Stamp) : Decision → Except Exc (List (List Act))
  | .records _ [] => .ok []
  | .records spec rs => (embedRecords env spec rs).map fun emb =>
      (putActs spec rs st).map ([·]) ++ [rowActs spec rs emb st]
        ++ (indexActs env spec rs emb).map ([·])
  | .keys spec ks => .ok ((deleteActs env.repr spec ks st).map ([·]))

/-- The fault of the step the operation is at. -/
def hits (fault : Option (Nat × OpFault)) : Option OpFault :=
  fault.bind fun f => if f.1 = 0 then some f.2 else none

/-- Steps up to the first that raises, or that the fault hits. -/
def runStages : Option (Nat × OpFault) → List (List Act) → Db → Db × Option OpFault
  | _, [], db => (db, none)
  | fault, stage :: stages, db =>
    match hits fault with
    | some e => (db, some e)
    | none =>
      match execAll env stage db with
      | (db', none) => runStages (fault.map fun f => (f.1 - 1, f.2)) stages db'
      | (_, some e) => (db, some (.exc e))

def Decision.outcome : Decision → BornTask
  | .records _ _ => ⟨.insert, none⟩
  | .keys _ ks => ⟨.delete, some ks.length⟩

/-- The table whose snapshot the operation asks for. -/
def Decision.rebuilds : Decision → Option String
  | .records spec (_ :: _) => if env.embedder.isSome then some spec.name else none
  | _ => none

/-- `_execute_one`. -/
def executeOne (log : List BornTask) (q : Submitted) (db : Db) :
    Db × Except OpFault (BornTask × Option String) :=
  match decideOp (env.reading select db log) schema db.tables q.op with
  | .error e => (db, .error (.exc e))
  | .ok d =>
    match d.stages env q.st with
    | .error e => (db, .error (.exc e))
    | .ok stages =>
      match runStages env q.fault stages db with
      | (db', none) => (db', .ok (d.outcome, d.rebuilds env))
      | (db', some e) => (db', .error e)

/-- What the worker writes: the store, the task log, and the futures that are done. -/
@[ext] structure Desk where
  db : Db
  log : List BornTask
  futs : Nat → Option Reply

/-- A future that is not done gets its answer. -/
def answer (futs : Nat → Option Reply) (p : Nat × Reply) : Nat → Option Reply :=
  if (futs p.1).isNone then Function.update futs p.1 (some p.2) else futs

/-- The first loop: what was executed, and the tables that ask for a snapshot. -/
def runOps : List Submitted → Desk → Desk × List (Submitted × BornTask) × List String
  | [], d => (d, [], [])
  | q :: qs, d =>
    match executeOne env schema select d.log q d.db with
    | (db, .ok (o, name)) =>
      let (d', executed, names) := runOps qs { d with db := db }
      (d', (q, o) :: executed, name.toList ++ names)
    | (db, .error e) => runOps qs { d with db := db, futs := answer d.futs (q.fut, .error e) }

/-- `rebuild_fts` of a table; an error is suppressed. -/
def refresh (db : Db) (name : String) : Db :=
  match schema.table name with
  | none => db
  | some spec =>
    match exec env (.rebuildFts spec) db with
    | .ok db' => db'
    | .error _ => db

/-- The task records, up to the first append that raises. -/
def appendTasks : List (Submitted × BornTask) → List BornTask → List BornTask × Option OpFault
  | [], log => (log, none)
  | (q, o) :: rest, log =>
    match q.logFault with
    | some e => (log, some e)
    | none => appendTasks rest (log ++ [o])

/-- `_process_batch`; what it raises, the loop gives to every future of the batch that is not done. -/
def processBatch (d : Desk) (batch : List Submitted) : Desk :=
  let (d', executed, names) := runOps env schema select batch d
  let db := names.dedup.foldl (refresh env schema) d'.db
  let tasks := executed.map Prod.snd
  match appendTasks executed d'.log with
  | (log, none) => ⟨db, log, ((executed.map fun x => x.1.fut).zip (tasks.map .ok)).foldl answer d'.futs⟩
  | (log, some e) => ⟨db, log, (batch.map fun q => (q.fut, .error e)).foldl answer d'.futs⟩

/-- The queue, taken in batches. -/
def processAll (batches : List (List Submitted)) (d : Desk) : Desk :=
  batches.foldl (processBatch env schema select) d

end Worker

/-! ## What is left to the end -/

/-- A database with other snapshots. -/
def Db.withFts (db : Db) (fts : String → List FtsRow) : Db := { db with fts := fts }

@[simp] theorem withFts_files (db : Db) (f : String → List FtsRow) : (db.withFts f).files = db.files := rfl

@[simp] theorem withFts_tables (db : Db) (f : String → List FtsRow) :
    (db.withFts f).tables = db.tables := rfl

@[simp] theorem withFts_index (db : Db) (f : String → List FtsRow) :
    (db.withFts f).index = db.index := rfl

@[simp] theorem withFts_fts (db : Db) (f : String → List FtsRow) : (db.withFts f).fts = f := rfl

@[simp] theorem withFts_withFts (db : Db) (f g : String → List FtsRow) :
    (db.withFts f).withFts g = db.withFts g := rfl

@[simp] theorem withFts_self (db : Db) : db.withFts db.fts = db := rfl

@[simp] theorem withFts_setTable (db : Db) (f : String → List FtsRow) (name : String) (t : PhysTable) :
    (db.withFts f).setTable name t = (db.setTable name t).withFts f := rfl

/-- An act that makes no snapshot. -/
def Act.Quiet : Act → Prop
  | .rebuildFts _ => False
  | _ => True

/-- A clause that asks for nothing that is left to the end of the batch. -/
def Op.Plain (select : Clauses) : Op → Prop
  | .delete _ (some text) params => ∀ stmt, oneStatement text "delete where" = .ok stmt →
    ∀ db fts log log' spec views, select (db.withFts fts) log' spec stmt params views
      = select db log spec stmt params views
  | _ => True

section Quiet

variable {env : Env} {schema : Schema} {select : Clauses} {db : Db} {f : String → List FtsRow}

theorem exec_withFts {a : Act} (ha : a.Quiet) :
    exec env a (db.withFts f) = (exec env a db).map (·.withFts f) := by
  cases a with
  | append ds table line =>
    simp only [exec]
    cases line.toMembers? <;> rfl
  | insert spec r search ds ca =>
    simp only [exec, withFts_tables, withFts_setTable]
    cases env.newRow spec r search ds ca with
    | error e => rfl
    | ok row =>
      cases hins : insertRow (db.tables spec.name) row with
      | error e => simp [bind, Except.bind, hins, Except.map]
      | ok t => simp [bind, Except.bind, hins, Except.map, pure, Except.pure]
  | softDelete spec keys ds at' =>
    simp only [exec, withFts_tables, withFts_setTable]
    split
    · rfl
    · cases accept (env.bindText at') <;> rfl
  | clear spec => rfl
  | rebuildFts spec => exact ha.elim
  | indexAppend spec rows | indexOverwrite spec rows =>
    simp only [exec, withFts_index]
    split <;> rfl

theorem execAll_fts {acts : List Act} (h : ∀ a ∈ acts, a.Quiet) :
    execAll env acts (db.withFts f) = ((execAll env acts db).1.withFts f, (execAll env acts db).2) := by
  induction acts generalizing db with
  | nil => rfl
  | cons a acts ih =>
    rw [execAll, execAll, exec_withFts (h a (by simp))]
    cases exec env a db with
    | error e => rfl
    | ok db' => exact ih fun b hb => h b (by simp [hb])

theorem runStages_fts {stages : List (List Act)} (h : ∀ s ∈ stages, ∀ a ∈ s, a.Quiet)
    {fault : Option (Nat × OpFault)} : runStages env fault stages (db.withFts f)
      = ((runStages env fault stages db).1.withFts f, (runStages env fault stages db).2) := by
  induction stages generalizing db fault with
  | nil => rfl
  | cons s ss ih =>
    rw [runStages, runStages]
    cases hits fault with
    | some e => rfl
    | none =>
      dsimp only
      rw [execAll_fts (h s (by simp))]
      rcases execAll env s db with ⟨db', _ | e⟩
      · exact ih fun t ht => h t (by simp [ht])
      · rfl

theorem stages_cons {spec : TableSpec} {r : Record} {rs : List Record} {st : Stamp}
    {stages : List (List Act)} (h : Decision.stages env st (.records spec (r :: rs)) = .ok stages) :
    ∃ emb, stages = (putActs spec (r :: rs) st).map ([·]) ++ [rowActs spec (r :: rs) emb st]
      ++ (indexActs env spec (r :: rs) emb).map ([·]) := by
  simp only [Decision.stages] at h
  cases hemb : embedRecords env spec (r :: rs) with
  | error e =>
    rw [hemb] at h
    cases h
  | ok emb =>
    rw [hemb] at h
    exact ⟨emb, (Except.ok.inj h).symm⟩

theorem stages_quiet {d : Decision} {st : Stamp} {stages : List (List Act)}
    (h : d.stages env st = .ok stages) : ∀ s ∈ stages, ∀ a ∈ s, a.Quiet := by
  intro s hs a ha
  cases d with
  | records spec rs =>
    cases rs with
    | nil =>
      obtain rfl := Except.ok.inj h
      cases hs
    | cons r rs =>
      obtain ⟨emb, rfl⟩ := stages_cons h
      rw [List.mem_append, List.mem_append, List.mem_map, List.mem_map] at hs
      rcases hs with (⟨b, hb, rfl⟩ | hs) | ⟨b, hb, rfl⟩
      · obtain rfl := List.mem_singleton.mp ha
        obtain ⟨x, -, rfl⟩ := List.mem_map.mp hb
        trivial
      · obtain rfl := List.mem_singleton.mp hs
        obtain ⟨i, hi, rfl⟩ := List.mem_mapIdx.mp ha
        trivial
      · obtain rfl := List.mem_singleton.mp ha
        unfold indexActs at hb
        split at hb
        · obtain rfl := List.mem_singleton.mp hb
          trivial
        · cases hb
  | keys spec ks =>
    obtain rfl := Except.ok.inj h
    obtain ⟨b, hb, rfl⟩ := List.mem_map.mp hs
    obtain rfl := List.mem_singleton.mp ha
    rw [deleteActs, List.mem_append, tombstoneActs, List.mem_map] at hb
    rcases hb with ⟨k, -, rfl⟩ | hb
    · trivial
    · obtain rfl := List.mem_singleton.mp hb
      trivial

/-- What an operation decides on is there in the middle of a batch too. -/
theorem decide_fts {op : Op} (h : op.Plain select) (log log' : List BornTask) :
    decideOp (env.reading select (db.withFts f) log') schema (db.withFts f).tables op
      = decideOp (env.reading select db log) schema db.tables op := by
  cases op with
  | insert table rows skip => rfl
  | delete table cond params =>
    cases cond with
    | none => rfl
    | some text =>
      by_cases hempty : text = ""
      · subst hempty
        rfl
      · have hmatch : ∀ spec, matchLive (env.reading select (db.withFts f) log') spec
            (db.withFts f).tables text params
              = matchLive (env.reading select db log) spec db.tables text params := by
          intro spec
          unfold matchLive
          cases hone : oneStatement text "delete where" with
          | error e => rfl
          | ok stmt =>
            have hsel : (env.reading select (db.withFts f) log').selectKeys spec stmt params
                  (fun name => visible none none ((db.withFts f).tables name))
                = (env.reading select db log).selectKeys spec stmt params
                  (fun name => visible none none (db.tables name)) :=
              h stmt hone db f log log' spec (fun name => visible none none (db.tables name))
            dsimp only [bind, Except.bind]
            rw [hsel]
        simp only [decideOp, hmatch]

/-- An operation neither reads nor writes what is left to the end of the batch. -/
theorem executeOne_fts {q : Submitted} (h : q.op.Plain select) (log log' : List BornTask) :
    executeOne env schema select log' q (db.withFts f)
      = ((executeOne env schema select log q db).1.withFts f,
        (executeOne env schema select log q db).2) := by
  unfold executeOne
  rw [decide_fts h log log']
  cases decideOp (env.reading select db log) schema db.tables q.op with
  | error e => rfl
  | ok d =>
    dsimp only
    cases hst : d.stages env q.st with
    | error e => rfl
    | ok stages =>
      dsimp only
      rw [runStages_fts (stages_quiet hst)]
      rcases runStages env q.fault stages db with ⟨db', _ | e⟩ <;> rfl

end Quiet

/-! ## Snapshots -/

/-- Whether a table has a full-text snapshot. -/
def indexed (env : Env) (schema : Schema) (name : String) : Bool :=
  env.vss && (schema.table name).any fun spec => !spec.searchable.isEmpty

/-- The snapshots once some tables have been refreshed. -/
def refreshed (env : Env) (schema : Schema) (names : List String) (db : Db) (name : String) :
    List FtsRow :=
  if name ∈ names ∧ indexed env schema name = true then ftsRows (db.tables name) else db.fts name

/-- An act that leaves the keys and tokens of a table's rows alone. -/
def Act.Spares (name : String) : Act → Prop
  | .insert spec _ _ _ _ => spec.name ≠ name
  | .clear _ => False
  | _ => True

section Snapshots

variable {env : Env} {schema : Schema} {select : Clauses} {db db' : Db} {name : String}

theorem refresh_eq (db : Db) (name : String) :
    refresh env schema db name = db.withFts (refreshed env schema [name] db) := by
  have hother : ∀ other, other ≠ name → refreshed env schema [name] db other = db.fts other := by
    intro other hne
    rw [refreshed, if_neg fun h => hne (List.mem_singleton.mp h.1)]
  unfold refresh
  cases hspec : schema.table name with
  | none =>
    have hno : indexed env schema name = false := by simp [indexed, hspec]
    have hsame : refreshed env schema [name] db = db.fts := by
      funext other
      by_cases h : other = name
      · rw [refreshed, if_neg fun hi => by rw [h, hno] at hi; exact absurd hi.2 (by decide)]
      · exact hother other h
    rw [hsame, withFts_self]
  | some spec =>
    have hname := (Schema.table_mem hspec).2
    have hidx : indexed env schema name = true ↔ env.vss = true ∧ spec.searchable ≠ [] := by
      simp [indexed, hspec]
    simp only [exec]
    by_cases hon : env.vss = true ∧ spec.searchable ≠ []
    · rw [if_pos hon]
      show db.withFts _ = _
      congr 1
      funext other
      by_cases h : other = name
      · rw [h, ← hname, Function.update_self, hname, refreshed,
          if_pos ⟨by simp, hidx.mpr hon⟩]
      · rw [Function.update_of_ne (by rwa [hname]), hother other h]
    · rw [if_neg hon]
      have hsame : refreshed env schema [name] db = db.fts := by
        funext other
        by_cases h : other = name
        · rw [refreshed, if_neg fun hi => hon (hidx.mp (h ▸ hi.2))]
        · exact hother other h
      rw [hsame, withFts_self]

theorem refresh_foldl (names : List String) (db : Db) :
    names.foldl (refresh env schema) db = db.withFts (refreshed env schema names db) := by
  induction names generalizing db with
  | nil =>
    have hsame : refreshed env schema [] db = db.fts := by
      funext other
      rw [refreshed, if_neg fun h => by cases h.1]
    rw [hsame]
    rfl
  | cons name names ih =>
    rw [List.foldl_cons, refresh_eq, ih, withFts_withFts]
    congr 1
    funext other
    unfold refreshed
    simp only [withFts_tables, withFts_fts, List.mem_cons, List.not_mem_nil, or_false]
    by_cases hidx : indexed env schema other = true
    · by_cases hmem : other ∈ names
      · simp [hmem, hidx]
      · rcases eq_or_ne other name with rfl | h
        · simp [hmem, hidx]
        · simp [hmem, h]
    · simp [hidx]

theorem ftsRows_mark (t : PhysTable) (keys : List String) (ds : String) (at' : Option String) :
    ftsRows (softDeleteRows t keys ds at') = ftsRows t := by
  unfold ftsRows softDeleteRows
  rw [List.map_map]
  refine List.map_congr_left fun r _ => ?_
  show ((mark keys ds at' r).key, (mark keys ds at' r).search.map Prod.snd) = _
  unfold mark
  split <;> rfl

theorem exec_spares {a : Act} (ha : a.Spares name) (h : exec env a db = .ok db') :
    ftsRows (db'.tables name) = ftsRows (db.tables name) := by
  cases a with
  | append ds table line =>
    obtain ⟨m, -, rfl⟩ := exec_append_iff.mp h
    rfl
  | insert spec r search ds ca =>
    obtain ⟨row, t, -, -, -, -, rfl⟩ := exec_insert_iff.mp h
    rw [setTable_other _ _ (Ne.symm ha)]
  | softDelete spec keys ds at' =>
    rcases exec_softDelete_iff.mp h with ⟨-, rfl⟩ | ⟨-, x, -, rfl⟩
    · rfl
    · by_cases hn : name = spec.name
      · rw [hn, setTable_self, ftsRows_mark]
      · rw [setTable_other _ _ hn]
  | clear spec => exact ha.elim
  | rebuildFts spec =>
    obtain rfl := Except.ok.inj h
    split <;> rfl
  | indexAppend spec rows | indexOverwrite spec rows =>
    simp only [exec] at h
    split at h
    · obtain rfl := Except.ok.inj h
      rfl
    · cases h

theorem execAll_spares {acts : List Act} (hacts : ∀ a ∈ acts, a.Spares name)
    (h : execAll env acts db = (db', none)) :
    ftsRows (db'.tables name) = ftsRows (db.tables name) := by
  induction acts generalizing db with
  | nil =>
    obtain rfl := (Prod.mk.inj h).1
    rfl
  | cons a acts ih =>
    rw [execAll] at h
    cases hexec : exec env a db with
    | error e =>
      rw [hexec] at h
      cases h
    | ok mid =>
      rw [hexec] at h
      rw [ih (fun b hb => hacts b (by simp [hb])) h, exec_spares (hacts a (by simp)) hexec]

theorem runStages_spares {stages : List (List Act)} {fault : Option (Nat × OpFault)}
    (hst : ∀ s ∈ stages, ∀ a ∈ s, a.Spares name) :
    ftsRows ((runStages env fault stages db).1.tables name) = ftsRows (db.tables name) := by
  induction stages generalizing db fault with
  | nil => rfl
  | cons s ss ih =>
    rw [runStages]
    cases hits fault with
    | some e => rfl
    | none =>
      dsimp only
      cases hrun : execAll env s db with
      | mk mid err =>
        cases err with
        | none =>
          dsimp only
          rw [ih fun t ht => hst t (by simp [ht]), execAll_spares (hst s (by simp)) hrun]
        | some e => rfl

/-- A last step that did not happen leaves what the ones before it spare. -/
theorem runStages_last {stages : List (List Act)} {last : List Act} {fault : Option (Nat × OpFault)}
    {e : OpFault} (hst : ∀ s ∈ stages, ∀ a ∈ s, a.Spares name)
    (h : runStages env fault (stages ++ [last]) db = (db', some e)) :
    ftsRows (db'.tables name) = ftsRows (db.tables name) := by
  induction stages generalizing db fault with
  | nil =>
    rw [List.nil_append, runStages] at h
    cases hhit : hits fault with
    | some e' =>
      rw [hhit] at h
      obtain rfl := (Prod.mk.inj h).1
      rfl
    | none =>
      rw [hhit] at h
      dsimp only at h
      cases hrun : execAll env last db with
      | mk mid err =>
        rw [hrun] at h
        cases err with
        | none => cases (Prod.mk.inj h).2
        | some e' =>
          obtain rfl := (Prod.mk.inj h).1
          rfl
  | cons s ss ih =>
    rw [List.cons_append, runStages] at h
    cases hhit : hits fault with
    | some e' =>
      rw [hhit] at h
      obtain rfl := (Prod.mk.inj h).1
      rfl
    | none =>
      rw [hhit] at h
      dsimp only at h
      cases hrun : execAll env s db with
      | mk mid err =>
        rw [hrun] at h
        cases err with
        | none => rw [ih (fun t ht => hst t (by simp [ht])) h, execAll_spares (hst s (by simp)) hrun]
        | some e' =>
          obtain rfl := (Prod.mk.inj h).1
          rfl

/-- The tables an execution asks for a snapshot of. -/
def asked : Except OpFault (BornTask × Option String) → List String
  | .ok (_, some name) => [name]
  | _ => []

theorem indexActs_vss {spec : TableSpec} {rs : List Record} {emb : List (String × List Search)}
    (h : env.vss = true) : indexActs env spec rs emb = [] := by
  have hno : env.indexes spec = false := by
    simp only [Env.vss, Bool.and_eq_true, beq_iff_eq] at h
    simp [Env.indexes, Env.lance, h.1]
  rw [indexActs, if_neg fun hi => by rw [hno] at hi; exact absurd hi.1 (by decide)]

theorem putActs_spare {spec : TableSpec} {rs : List Record} {st : Stamp} :
    ∀ s ∈ (putActs spec rs st).map ([·]), ∀ a ∈ s, a.Spares name := by
  intro s hs a ha
  obtain ⟨b, hb, rfl⟩ := List.mem_map.mp hs
  obtain rfl := List.mem_singleton.mp ha
  obtain ⟨r, -, rfl⟩ := List.mem_map.mp hb
  trivial

/-- An operation that does not ask for a table's snapshot leaves a current one current. -/
theorem untouched {log : List BornTask} {q : Submitted} (hidx : indexed env schema name = true)
    (hname : name ∉ asked (executeOne env schema select log q db).2) :
    ftsRows ((executeOne env schema select log q db).1.tables name) = ftsRows (db.tables name) := by
  have hvss : env.vss = true := by
    rw [indexed, Bool.and_eq_true] at hidx
    exact hidx.1
  unfold executeOne at hname ⊢
  cases hdec : decideOp (env.reading select db log) schema db.tables q.op with
  | error e => rfl
  | ok d =>
    rw [hdec] at hname
    dsimp only at hname ⊢
    cases hst : d.stages env q.st with
    | error e => rfl
    | ok stages =>
      rw [hst] at hname
      dsimp only at hname ⊢
      cases d with
      | keys spec ks =>
        have hspare : ∀ s ∈ stages, ∀ a ∈ s, a.Spares name := by
          obtain rfl := Except.ok.inj hst
          intro s hs a ha
          obtain ⟨b, hb, rfl⟩ := List.mem_map.mp hs
          obtain rfl := List.mem_singleton.mp ha
          rw [deleteActs, List.mem_append, tombstoneActs, List.mem_map] at hb
          rcases hb with ⟨k, -, rfl⟩ | hb
          · trivial
          · obtain rfl := List.mem_singleton.mp hb
            trivial
        have hrows := @runStages_spares env db name stages q.fault hspare
        rcases hrun : runStages env q.fault stages db with ⟨db', _ | e⟩ <;> rw [hrun] at hrows <;>
          exact hrows
      | records spec rs =>
        cases rs with
        | nil =>
          obtain rfl := Except.ok.inj hst
          rfl
        | cons r rs =>
          obtain ⟨emb, rfl⟩ := stages_cons hst
          rw [indexActs_vss hvss, List.map_nil, List.append_nil] at hname ⊢
          cases hrun : runStages env q.fault
              ((putActs spec (r :: rs) q.st).map ([·]) ++ [rowActs spec (r :: rs) emb q.st]) db with
          | mk db' err =>
            cases err with
            | some e => exact runStages_last putActs_spare hrun
            | none =>
              -- the rows went into the table that is asked for
              rw [hrun] at hname
              have hemb : env.embedder.isSome = true := by
                rw [Env.vss, Bool.and_eq_true] at hvss
                exact hvss.2
              have hne : spec.name ≠ name := by
                rintro rfl
                apply hname
                simp [asked, Decision.rebuilds, hemb]
              have hrows := @runStages_spares env db name ((putActs spec (r :: rs) q.st).map ([·])
                ++ [rowActs spec (r :: rs) emb q.st]) q.fault (by
                  intro s hs a ha
                  rcases List.mem_append.mp hs with hs | hs
                  · exact putActs_spare s hs a ha
                  · obtain rfl := List.mem_singleton.mp hs
                    obtain ⟨i, hi, rfl⟩ := List.mem_mapIdx.mp ha
                    exact hne)
              rw [hrun] at hrows
              exact hrows

end Snapshots

/-! ## An operation alone -/

section Alone

variable {env : Env} {schema : Schema} {db db' : Db}

/-- Steps that all happened, and no fault, are their acts one after another. -/
theorem runStages_acts {stages : List (List Act)} (h : runStages env none stages db = (db', none)) :
    execAll env stages.flatten db = (db', none) := by
  induction stages generalizing db with
  | nil => exact congrArg (fun x : Db × Option OpFault => (x.1, none)) h
  | cons s ss ih =>
    rw [runStages] at h
    dsimp only [hits, Option.bind_none] at h
    cases hrun : execAll env s db with
    | mk mid err =>
      rw [hrun] at h
      cases err with
      | none => exact execAll_append_none.mpr ⟨mid, hrun, ih h⟩
      | some e => cases (Prod.mk.inj h).2

theorem stages_plan {d : Decision} {st : Stamp} {stages : List (List Act)}
    (h : d.stages env st = .ok stages) : plan env st d = .ok stages.flatten := by
  have hsingle : ∀ acts : List Act, (acts.map ([·])).flatten = acts := by
    intro acts
    induction acts with
    | nil => rfl
    | cons a acts ih => rw [List.map_cons, List.flatten_cons, ih, List.singleton_append]
  cases d with
  | keys spec ks =>
    obtain rfl := Except.ok.inj h
    rw [hsingle]
    rfl
  | records spec rs =>
    cases rs with
    | nil =>
      obtain rfl := Except.ok.inj h
      rfl
    | cons r rs =>
      simp only [Decision.stages] at h
      simp only [plan]
      obtain ⟨emb, hemb, rfl⟩ := map_ok_iff.mp h
      rw [hemb, List.flatten_append, List.flatten_append, hsingle, hsingle]
      simp [Except.map, insertActs]

/-- An execution that raised nothing is one of `execute`, which has no commits. -/
theorem executeOne_execute {q : Submitted} {log : List BornTask} {o : BornTask × Option String}
    (hfault : q.fault = none)
    (h : executeOne env schema (fun _ _ => env.selectKeys) log q db = (db', .ok o)) :
    execute env schema q.st q.op db = (db', .ok o.1.matched) := by
  unfold executeOne at h
  have hreading : env.reading (fun _ _ => env.selectKeys) db log = env := rfl
  rw [hreading, hfault] at h
  unfold execute
  cases hdec : decideOp env schema db.tables q.op with
  | error e =>
    rw [hdec] at h
    cases (Prod.mk.inj h).2
  | ok d =>
    rw [hdec] at h
    dsimp only at h ⊢
    cases hst : d.stages env q.st with
    | error e =>
      rw [hst] at h
      cases (Prod.mk.inj h).2
    | ok stages =>
      rw [hst] at h
      rw [stages_plan hst]
      dsimp only at h ⊢
      cases hrun : runStages env none stages db with
      | mk mid err =>
        rw [hrun] at h
        cases err with
        | some e => cases (Prod.mk.inj h).2
        | none =>
          obtain ⟨rfl, ho⟩ := Prod.mk.inj h
          rw [runStages_acts hrun, ← Except.ok.inj ho]
          cases d <;> rfl

end Alone

/-! ## One plain run -/

abbrev Result := Except OpFault (BornTask × Option String)

section PlainRun

variable (env : Env) (schema : Schema) (select : Clauses)

/-- The operations one after another, with nothing done in between. -/
def plainRun : List Submitted → Db → Db × List (Submitted × Result)
  | [], db => (db, [])
  | q :: qs, db =>
    let (db', r) := executeOne env schema select [] q db
    let (last, rs) := plainRun qs db'
    (last, (q, r) :: rs)

end PlainRun

section Splits

variable {env : Env} {schema : Schema} {select : Clauses} {db : Db} {qs : List Submitted}

theorem plainRun_cons (q : Submitted) (qs : List Submitted) (db : Db) :
    plainRun env schema select (q :: qs) db
      = ((plainRun env schema select qs (executeOne env schema select [] q db).1).1,
        (q, (executeOne env schema select [] q db).2)
          :: (plainRun env schema select qs (executeOne env schema select [] q db).1).2) := rfl

theorem plainRun_append (qs rs : List Submitted) (db : Db) :
    plainRun env schema select (qs ++ rs) db
      = ((plainRun env schema select rs (plainRun env schema select qs db).1).1,
        (plainRun env schema select qs db).2
          ++ (plainRun env schema select rs (plainRun env schema select qs db).1).2) := by
  induction qs generalizing db with
  | nil => rfl
  | cons q qs ih => rw [List.cons_append, plainRun_cons, ih, plainRun_cons, List.cons_append]

theorem plainRun_ops (qs : List Submitted) (db : Db) :
    (plainRun env schema select qs db).2.map Prod.fst = qs := by
  induction qs generalizing db with
  | nil => rfl
  | cons q qs ih => rw [plainRun_cons, List.map_cons, ih]

theorem plainRun_fts (h : ∀ q ∈ qs, q.op.Plain select) (db : Db) (f : String → List FtsRow) :
    plainRun env schema select qs (db.withFts f)
      = ((plainRun env schema select qs db).1.withFts f, (plainRun env schema select qs db).2) := by
  induction qs generalizing db with
  | nil => rfl
  | cons q qs ih =>
    rw [plainRun_cons, plainRun_cons, executeOne_fts (h q (by simp)) [] [],
      ih fun r hr => h r (by simp [hr])]

/-- The snapshots stay as they are. -/
theorem plainRun_same (h : ∀ q ∈ qs, q.op.Plain select) (db : Db) :
    (plainRun env schema select qs db).1.fts = db.fts := by
  have hself := @plainRun_fts env schema select qs h db db.fts
  rw [withFts_self] at hself
  have hfst := congrArg (fun x => x.1.fts) hself
  exact hfst

theorem plainRun_untouched {name : String} (hidx : indexed env schema name = true)
    (hname : name ∉ (plainRun env schema select qs db).2.flatMap fun x => asked x.2) :
    ftsRows ((plainRun env schema select qs db).1.tables name) = ftsRows (db.tables name) := by
  induction qs generalizing db with
  | nil => rfl
  | cons q qs ih =>
    rw [plainRun_cons, List.flatMap_cons, List.mem_append, not_or] at hname
    rw [plainRun_cons, ih hname.2, untouched hidx hname.1]

theorem executeOne_log {q : Submitted} (h : q.op.Plain select) (log : List BornTask) (db : Db) :
    executeOne env schema select log q db = executeOne env schema select [] q db := by
  have hself := @executeOne_fts env schema select db db.fts q h [] log
  have hsame := @executeOne_fts env schema select db db.fts q h [] []
  rw [withFts_self] at hself hsame
  rw [hself, ← hsame]

/-! ## What the first loop leaves -/

/-- The operations that did not raise, with their tasks. -/
def executedOps (rs : List (Submitted × Result)) : List (Submitted × BornTask) :=
  rs.filterMap fun x => (x.2.toOption).map fun o => (x.1, o.1)

def errorOf : Result → Option OpFault
  | .ok _ => none
  | .error e => some e

/-- The answers the first loop gives. -/
def failed (rs : List (Submitted × Result)) : List (Nat × Reply) :=
  rs.filterMap fun x => (errorOf x.2).map fun e => (x.1.fut, .error e)

theorem runOps_eq (h : ∀ q ∈ qs, q.op.Plain select) (d : Desk) :
    runOps env schema select qs d
      = (⟨(plainRun env schema select qs d.db).1, d.log,
          (failed (plainRun env schema select qs d.db).2).foldl answer d.futs⟩,
        executedOps (plainRun env schema select qs d.db).2,
        (plainRun env schema select qs d.db).2.flatMap fun x => asked x.2) := by
  induction qs generalizing d with
  | nil => rfl
  | cons q qs ih =>
    rw [runOps, executeOne_log (h q (by simp)), plainRun_cons]
    rcases executeOne env schema select [] q d.db with ⟨db', e | ⟨o, name⟩⟩
    · dsimp only
      rw [ih fun r hr => h r (by simp [hr])]
      rfl
    · dsimp only
      rw [ih fun r hr => h r (by simp [hr])]
      cases name <;> rfl

theorem appendTasks_eq (xs : List (Submitted × BornTask)) (log : List BornTask) :
    appendTasks xs log = (log ++ (xs.takeWhile fun x => x.1.logFault.isNone).map Prod.snd,
      xs.findSome? fun x => x.1.logFault) := by
  induction xs generalizing log with
  | nil => simp [appendTasks]
  | cons x xs ih =>
    rcases x with ⟨q, o⟩
    rw [appendTasks, List.findSome?_cons, List.takeWhile_cons]
    dsimp only
    cases hq : q.logFault with
    | some e => simp
    | none => simp [ih]

theorem answers_get (ps : List (Nat × Reply)) (futs : Nat → Option Reply) (n : Nat) :
    ps.foldl answer futs n = (futs n).or ((ps.find? fun p => p.1 = n).map Prod.snd) := by
  induction ps generalizing futs with
  | nil => simp
  | cons p ps ih =>
    rw [List.foldl_cons, ih, List.find?_cons]
    unfold answer
    by_cases hp : p.1 = n
    · subst hp
      cases h : futs p.1 <;> simp [h]
    · have hne : n ≠ p.1 := Ne.symm hp
      cases futs p.1 <;> simp [hp, Function.update_of_ne hne]

/-! ## What a batch leaves -/

/-- The append of a task that raised. -/
def taskFault (rs : List (Submitted × Result)) : Option OpFault :=
  (executedOps rs).findSome? fun x => x.1.logFault

/-- What a future of the batch is answered: the operation's own error or task, and the error of the
task records where there is one. -/
def replyOf (rs : List (Submitted × Result)) : Result → Reply
  | .error e => .error e
  | .ok o =>
    match taskFault rs with
    | none => .ok o.1
    | some e => .error e

/-- The answers after the task records. -/
def lastAnswers (batch : List Submitted) (rs : List (Submitted × Result)) : List (Nat × Reply) :=
  match taskFault rs with
  | none => (executedOps rs).map fun x => (x.1.fut, .ok x.2)
  | some e => batch.map fun q => (q.fut, .error e)

theorem processBatch_eq {batch : List Submitted} (h : ∀ q ∈ batch, q.op.Plain select) (d : Desk) :
    processBatch env schema select d batch
      = ⟨(plainRun env schema select batch d.db).1.withFts (refreshed env schema
          ((plainRun env schema select batch d.db).2.flatMap fun x => asked x.2)
          (plainRun env schema select batch d.db).1),
        d.log ++ ((executedOps (plainRun env schema select batch d.db).2).takeWhile
          fun x => x.1.logFault.isNone).map Prod.snd,
        (lastAnswers batch (plainRun env schema select batch d.db).2).foldl answer
          ((failed (plainRun env schema select batch d.db).2).foldl answer d.futs)⟩ := by
  have hdedup : ∀ (names : List String) (db : Db),
      refreshed env schema names.dedup db = refreshed env schema names db := by
    intro names db
    funext name
    simp only [refreshed, List.mem_dedup]
  unfold processBatch
  rw [runOps_eq h]
  dsimp only
  rw [refresh_foldl, hdedup, appendTasks_eq]
  unfold lastAnswers taskFault
  cases (executedOps (plainRun env schema select batch d.db).2).findSome? fun x => x.1.logFault with
  | some e => rfl
  | none =>
    dsimp only
    rw [List.map_map, List.zip_map']
    rfl

theorem mem_executedOps {rs : List (Submitted × Result)} {q : Submitted} {t : BornTask} :
    (q, t) ∈ executedOps rs ↔ ∃ name, (q, .ok (t, name)) ∈ rs := by
  unfold executedOps
  rw [List.mem_filterMap]
  constructor
  · rintro ⟨⟨q', r⟩, hmem, heq⟩
    cases r with
    | error e => cases heq
    | ok o =>
      obtain ⟨rfl, rfl⟩ := (Prod.mk.injEq ..).mp (Option.some.inj heq)
      exact ⟨o.2, hmem⟩
  · rintro ⟨name, hmem⟩
    exact ⟨_, hmem, rfl⟩

theorem mem_failed {rs : List (Submitted × Result)} {n : Nat} {x : Reply} :
    (n, x) ∈ failed rs ↔ ∃ q e, (q, .error e) ∈ rs ∧ n = q.fut ∧ x = .error e := by
  unfold failed
  rw [List.mem_filterMap]
  constructor
  · rintro ⟨⟨q, r⟩, hmem, heq⟩
    cases r with
    | ok o => cases heq
    | error e =>
      obtain ⟨rfl, rfl⟩ := (Prod.mk.injEq ..).mp (Option.some.inj heq)
      exact ⟨q, e, hmem, rfl, rfl⟩
  · rintro ⟨q, e, hmem, rfl, rfl⟩
    exact ⟨_, hmem, rfl⟩

/-- A list of answers in which a future has one gives it that one. -/
theorem find_answer {ps : List (Nat × Reply)} {n : Nat} {x : Reply} (hmem : (n, x) ∈ ps)
    (hone : ∀ y, (n, y) ∈ ps → y = x) : (ps.find? fun p => p.1 = n).map Prod.snd = some x := by
  cases hfind : ps.find? fun p => p.1 = n with
  | none =>
    have hno := List.find?_eq_none.mp hfind (n, x) hmem
    simp at hno
  | some p =>
    rcases p with ⟨m, y⟩
    have hm : m = n := by simpa using List.find?_some hfind
    subst hm
    rw [Option.map_some, hone y (List.mem_of_find?_eq_some hfind)]

theorem find_none {ps : List (Nat × Reply)} {n : Nat} (h : ∀ x, (n, x) ∉ ps) :
    (ps.find? fun p => p.1 = n) = none := by
  rw [List.find?_eq_none]
  rintro ⟨m, x⟩ hmem heq
  have hm : m = n := by simpa using heq
  exact h x (hm ▸ hmem)

/-- Every future of a batch is answered, each with the outcome of its own operation. -/
theorem batch_answers {rs : List (Submitted × Result)} {futs : Nat → Option Reply}
    (hnodup : (rs.map fun x => x.1.fut).Nodup) (hopen : ∀ x ∈ rs, futs x.1.fut = none)
    {x : Submitted × Result} (hx : x ∈ rs) :
    ((lastAnswers (rs.map Prod.fst) rs).foldl answer ((failed rs).foldl answer futs)) x.1.fut
      = some (replyOf rs x.2) := by
  have hone : ∀ y ∈ rs, y.1.fut = x.1.fut → y = x := fun y hy heq =>
    List.inj_on_of_nodup_map hnodup hy hx heq
  rw [answers_get, answers_get, hopen x hx, Option.none_or]
  rcases x with ⟨q, r⟩
  cases r with
  | error e =>
    have hfind : ((failed rs).find? fun p => p.1 = q.fut).map Prod.snd = some (.error e) := by
      refine find_answer (mem_failed.mpr ⟨q, e, hx, rfl, rfl⟩) ?_
      intro y hy
      obtain ⟨q', e', hmem, hfut, rfl⟩ := mem_failed.mp hy
      have heq := hone _ hmem hfut.symm
      rw [Except.error.inj (Prod.mk.inj heq).2]
    dsimp only
    rw [hfind]
    rfl
  | ok o =>
    have hfind : ((failed rs).find? fun p => p.1 = q.fut) = none := by
      refine find_none fun y hy => ?_
      obtain ⟨q', e', hmem, hfut, rfl⟩ := mem_failed.mp hy
      have heq := hone _ hmem hfut.symm
      cases (Prod.mk.inj heq).2
    dsimp only
    rw [hfind, Option.map_none, Option.none_or]
    unfold lastAnswers replyOf
    cases taskFault rs with
    | none =>
      dsimp only
      refine find_answer (List.mem_map.mpr ⟨(q, o.1), mem_executedOps.mpr ⟨o.2, hx⟩, rfl⟩) ?_
      intro y hy
      obtain ⟨⟨q', t⟩, hmem, heq⟩ := List.mem_map.mp hy
      obtain ⟨hfut, rfl⟩ := (Prod.mk.injEq ..).mp heq
      obtain ⟨name, hmem⟩ := mem_executedOps.mp hmem
      have hsame := hone _ hmem hfut
      rw [← Except.ok.inj (Prod.mk.inj hsame).2]
    | some e =>
      dsimp only
      refine find_answer ?_ ?_
      · exact List.mem_map.mpr ⟨q, List.mem_map.mpr ⟨_, hx, rfl⟩, rfl⟩
      · intro y hy
        obtain ⟨q', -, heq⟩ := List.mem_map.mp hy
        exact ((Prod.mk.injEq ..).mp heq).2.symm

/-- A future of another batch is left alone. -/
theorem other_answers {rs : List (Submitted × Result)} {futs : Nat → Option Reply} {n : Nat}
    (hn : ∀ x ∈ rs, x.1.fut ≠ n) :
    ((lastAnswers (rs.map Prod.fst) rs).foldl answer ((failed rs).foldl answer futs)) n = futs n := by
  have hfailed : ((failed rs).find? fun p => p.1 = n) = none := by
    refine find_none fun y hy => ?_
    obtain ⟨q, e, hmem, hfut, -⟩ := mem_failed.mp hy
    exact hn _ hmem hfut.symm
  have hlast : ((lastAnswers (rs.map Prod.fst) rs).find? fun p => p.1 = n) = none := by
    refine find_none fun y hy => ?_
    unfold lastAnswers at hy
    cases hf : taskFault rs with
    | none =>
      rw [hf] at hy
      obtain ⟨⟨q, t⟩, hmem, heq⟩ := List.mem_map.mp hy
      obtain ⟨name, hmem⟩ := mem_executedOps.mp hmem
      exact hn _ hmem ((Prod.mk.injEq ..).mp heq).1
    | some e =>
      rw [hf] at hy
      obtain ⟨q, hmem, heq⟩ := List.mem_map.mp hy
      obtain ⟨x, hx, rfl⟩ := List.mem_map.mp hmem
      exact hn x hx ((Prod.mk.injEq ..).mp heq).1
  rw [answers_get, answers_get, hfailed, hlast]
  simp

/-! ## Any split -/

theorem mem_rest {batch : List Submitted} {batches : List (List Submitted)} {q : Submitted}
    (h : q ∈ batches.flatten) : q ∈ (batch :: batches).flatten :=
  List.mem_append_right batch h

theorem processAll_cons (batch : List Submitted) (batches : List (List Submitted)) (d : Desk) :
    processAll env schema select (batch :: batches) d
      = processAll env schema select batches (processBatch env schema select d batch) := rfl

/-- The operations of the later batches find the store of the plain run, with other snapshots. -/
theorem plainRun_after {batch : List Submitted} (hb : ∀ q ∈ batch, q.op.Plain select)
    (hq : ∀ q ∈ qs, q.op.Plain select) (d : Desk) :
    plainRun env schema select qs (processBatch env schema select d batch).db
      = ((plainRun env schema select qs (plainRun env schema select batch d.db).1).1.withFts
          (processBatch env schema select d batch).db.fts,
        (plainRun env schema select qs (plainRun env schema select batch d.db).1).2) := by
  rw [processBatch_eq hb, plainRun_fts hq]
  rfl

/-- The store after any split: that of the plain run, with a current snapshot of every table that was
asked for. -/
theorem processAll_db {batches : List (List Submitted)}
    (h : ∀ q ∈ batches.flatten, q.op.Plain select) (d : Desk) :
    (processAll env schema select batches d).db
      = (plainRun env schema select batches.flatten d.db).1.withFts (refreshed env schema
        ((plainRun env schema select batches.flatten d.db).2.flatMap fun x => asked x.2)
        (plainRun env schema select batches.flatten d.db).1) := by
  induction batches generalizing d with
  | nil =>
    show d.db = d.db.withFts (refreshed env schema [] d.db)
    rw [← refresh_foldl]
    rfl
  | cons batch batches ih =>
    have hb : ∀ q ∈ batch, q.op.Plain select := fun q hq => h q (by simp [hq])
    have hrest : ∀ q ∈ batches.flatten, q.op.Plain select := fun q hq => h q (mem_rest hq)
    rw [processAll_cons, ih hrest, plainRun_after hb hrest, List.flatten_cons, plainRun_append,
      processBatch_eq hb]
    dsimp only
    rw [withFts_withFts, List.flatMap_append]
    congr 1
    funext name
    unfold refreshed
    simp only [withFts_tables, withFts_fts, List.mem_append]
    by_cases hidx : indexed env schema name = true
    · by_cases hlater : name ∈ (plainRun env schema select batches.flatten
          (plainRun env schema select batch d.db).1).2.flatMap fun x => asked x.2
      · rw [if_pos ⟨hlater, hidx⟩, if_pos ⟨.inr hlater, hidx⟩]
      · rw [if_neg fun hboth => hlater hboth.1, plainRun_untouched hidx hlater, plainRun_same hrest]
        simp only [or_iff_left hlater]
    · rw [if_neg fun hboth => hidx hboth.2, if_neg fun hboth => hidx hboth.2,
        if_neg fun hboth => hidx hboth.2, plainRun_same hrest]

/-- The futures after any split: the operations of each batch are a part of the plain run, and the
batch has answered them as it answers them. -/
theorem processAll_futs {batches : List (List Submitted)}
    (h : ∀ q ∈ batches.flatten, q.op.Plain select) (d : Desk)
    (hnodup : (batches.flatten.map Submitted.fut).Nodup)
    (hopen : ∀ q ∈ batches.flatten, d.futs q.fut = none) :
    (∀ batch ∈ batches, ∃ rs, rs.Sublist (plainRun env schema select batches.flatten d.db).2
        ∧ rs.map Prod.fst = batch
        ∧ ∀ x ∈ rs, (processAll env schema select batches d).futs x.1.fut = some (replyOf rs x.2))
      ∧ ∀ n, (∀ q ∈ batches.flatten, q.fut ≠ n) →
        (processAll env schema select batches d).futs n = d.futs n := by
  induction batches generalizing d with
  | nil => exact ⟨by simp, fun n _ => rfl⟩
  | cons batch batches ih =>
    have hb : ∀ q ∈ batch, q.op.Plain select := fun q hq => h q (by simp [hq])
    have hrest : ∀ q ∈ batches.flatten, q.op.Plain select := fun q hq => h q (mem_rest hq)
    rw [List.flatten_cons, List.map_append, List.nodup_append] at hnodup
    obtain ⟨hhere, hlater, hapart⟩ := hnodup
    have hbatch := @plainRun_ops env schema select batch d.db
    have hkeys : ((plainRun env schema select batch d.db).2.map fun x => x.1.fut).Nodup := by
      rw [← hbatch, List.map_map] at hhere
      exact hhere
    have hfuts : (processBatch env schema select d batch).futs
        = (lastAnswers ((plainRun env schema select batch d.db).2.map Prod.fst)
          (plainRun env schema select batch d.db).2).foldl answer
            ((failed (plainRun env schema select batch d.db).2).foldl answer d.futs) := by
      rw [processBatch_eq hb, hbatch]
    have hother : ∀ n, (∀ q ∈ batch, q.fut ≠ n) →
        (processBatch env schema select d batch).futs n = d.futs n := by
      intro n hn
      rw [hfuts]
      refine other_answers fun x hx => hn x.1 ?_
      rw [← hbatch]
      exact List.mem_map_of_mem hx
    have hstill : ∀ q ∈ batches.flatten, (processBatch env schema select d batch).futs q.fut = none := by
      intro q hq
      rw [hother]
      · exact hopen q (mem_rest hq)
      · intro q' hq' heq
        exact hapart _ (List.mem_map_of_mem hq') _ (List.mem_map_of_mem hq) heq
    obtain ⟨hall, houtside⟩ := ih hrest (processBatch env schema select d batch) hlater hstill
    rw [plainRun_after hb hrest] at hall
    rw [processAll_cons, List.flatten_cons, plainRun_append]
    refine ⟨fun b hbmem => ?_, fun n hn => ?_⟩
    · rcases List.mem_cons.mp hbmem with rfl | hbmem
      · refine ⟨_, List.sublist_append_left _ _, hbatch, fun x hx => ?_⟩
        rw [houtside, hfuts]
        · refine batch_answers hkeys (fun y hy => hopen y.1 ?_) hx
          rw [List.flatten_cons, List.mem_append, ← hbatch]
          exact .inl (List.mem_map_of_mem hy)
        · intro q hq heq
          refine hapart x.1.fut (List.mem_map_of_mem ?_) _ (List.mem_map_of_mem hq) heq.symm
          rw [← hbatch]
          exact List.mem_map_of_mem hx
      · obtain ⟨rs, hsub, hrs, hanswers⟩ := hall b hbmem
        exact ⟨rs, hsub.trans (List.sublist_append_right _ _), hrs, hanswers⟩
    · rw [houtside n fun q hq => hn q (mem_rest hq), hother n fun q hq => hn q (by simp [hq])]

/-- The task log after any split in which no append raises: the tasks of what was executed. -/
theorem processAll_log {batches : List (List Submitted)}
    (h : ∀ q ∈ batches.flatten, q.op.Plain select) (d : Desk)
    (hlog : ∀ q ∈ batches.flatten, q.logFault = none) :
    (processAll env schema select batches d).log
      = d.log ++ (executedOps (plainRun env schema select batches.flatten d.db).2).map Prod.snd := by
  induction batches generalizing d with
  | nil => exact (List.append_nil _).symm
  | cons batch batches ih =>
    have hb : ∀ q ∈ batch, q.op.Plain select := fun q hq => h q (by simp [hq])
    have hrest : ∀ q ∈ batches.flatten, q.op.Plain select := fun q hq => h q (mem_rest hq)
    have hclean : ∀ x ∈ executedOps (plainRun env schema select batch d.db).2,
        x.1.logFault.isNone = true := by
      rintro ⟨q, t⟩ hx
      obtain ⟨name, hmem⟩ := mem_executedOps.mp hx
      have hq : q ∈ batch := by
        rw [← @plainRun_ops env schema select batch d.db]
        exact List.mem_map_of_mem hmem
      rw [hlog q (by simp [hq])]
      rfl
    rw [processAll_cons, ih hrest _ fun q hq => hlog q (mem_rest hq), plainRun_after hb hrest,
      List.flatten_cons, plainRun_append, processBatch_eq hb]
    dsimp only
    rw [List.takeWhile_eq_self_iff.mpr hclean, executedOps, executedOps, executedOps, List.filterMap_append,
      List.map_append, List.append_assoc]

theorem flatten_singles (qs : List Submitted) : (qs.map ([·])).flatten = qs := by
  induction qs with
  | nil => rfl
  | cons q qs ih => rw [List.map_cons, List.flatten_cons, ih, List.singleton_append]

theorem taskFault_mem {rs : List (Submitted × Result)} {e : OpFault} (h : taskFault rs = some e) :
    ∃ q ∈ rs.map Prod.fst, q.logFault = some e := by
  obtain ⟨⟨q, t⟩, hmem, hq⟩ := List.exists_of_findSome?_eq_some h
  obtain ⟨name, hmem⟩ := mem_executedOps.mp hmem
  exact ⟨q, List.mem_map_of_mem hmem, hq⟩

/-- What a future is answered in its batch, and what it is answered when its operation is a batch of
its own. -/
theorem replies {batches : List (List Submitted)} (h : ∀ q ∈ batches.flatten, q.op.Plain select)
    (d : Desk) (hnodup : (batches.flatten.map Submitted.fut).Nodup)
    (hopen : ∀ q ∈ batches.flatten, d.futs q.fut = none) {batch : List Submitted}
    (hbatch : batch ∈ batches) {q : Submitted} (hq : q ∈ batch) : ∃ rs r, rs.map Prod.fst = batch
      ∧ (q, r) ∈ rs
      ∧ (processAll env schema select batches d).futs q.fut = some (replyOf rs r)
      ∧ (processAll env schema select (batches.flatten.map ([·])) d).futs q.fut
        = some (replyOf [(q, r)] r) := by
  obtain ⟨rs, hsub, hrs, hanswers⟩ := (processAll_futs h d hnodup hopen).1 batch hbatch
  have hmem : ∃ r, (q, r) ∈ rs := by
    rw [← hrs] at hq
    obtain ⟨⟨q', r⟩, hmem, rfl⟩ := List.mem_map.mp hq
    exact ⟨r, hmem⟩
  obtain ⟨r, hmem⟩ := hmem
  have hall : q ∈ batches.flatten := List.mem_flatten.mpr ⟨batch, hbatch, hq⟩
  have hsingles := @processAll_futs env schema select (batches.flatten.map ([·]))
    (by rwa [flatten_singles]) d (by rwa [flatten_singles]) (by rwa [flatten_singles])
  rw [flatten_singles] at hsingles
  obtain ⟨one, hone, hfst, hsolo⟩ := hsingles.1 [q] (List.mem_map.mpr ⟨q, hall, rfl⟩)
  obtain ⟨⟨q', r'⟩, rfl, hq'⟩ := List.map_eq_singleton_iff.mp hfst
  obtain rfl : q' = q := hq'
  -- both are results of the plain run under one future
  have hkeys : ((plainRun env schema select batches.flatten d.db).2.map fun x => x.1.fut).Nodup := by
    rw [← @plainRun_ops env schema select batches.flatten d.db,
      List.map_map] at hnodup
    exact hnodup
  have hsame : (q', r') = (q', r) := List.inj_on_of_nodup_map hkeys
    (hone.subset (List.mem_singleton.mpr rfl)) (hsub.subset hmem) rfl
  obtain rfl : r' = r := (Prod.mk.inj hsame).2
  exact ⟨rs, r', hrs, hmem, hanswers _ hmem, hsolo _ (List.mem_singleton.mpr rfl)⟩

/-- Whatever the split of the queue into batches, the store is left as by batches of one, and every
future is answered once, as in a batch of its own or with the error of a task record of its batch.
Where no task record fails, the task log is the same as well. -/
theorem batching_transparent {batches : List (List Submitted)}
    (hplain : ∀ q ∈ batches.flatten, q.op.Plain select) (d : Desk)
    (hnodup : (batches.flatten.map Submitted.fut).Nodup)
    (hopen : ∀ q ∈ batches.flatten, d.futs q.fut = none) :
    (processAll env schema select batches d).db
        = (processAll env schema select (batches.flatten.map ([·])) d).db
      ∧ (∀ batch ∈ batches, ∀ q ∈ batch, ∃ x y,
          (processAll env schema select batches d).futs q.fut = some x
            ∧ (processAll env schema select (batches.flatten.map ([·])) d).futs q.fut = some y
            ∧ (x = y ∨ ∃ q' ∈ batch, ∃ e, q'.logFault = some e ∧ x = .error e))
      ∧ (∀ n, (∀ q ∈ batches.flatten, q.fut ≠ n) →
          (processAll env schema select batches d).futs n = d.futs n)
      ∧ ((∀ q ∈ batches.flatten, q.logFault = none) → processAll env schema select batches d
          = processAll env schema select (batches.flatten.map ([·])) d) := by
  have hsplit : ∀ q ∈ (batches.flatten.map ([·])).flatten, q.op.Plain select := by
    rwa [flatten_singles]
  have hdb : (processAll env schema select batches d).db
      = (processAll env schema select (batches.flatten.map ([·])) d).db := by
    rw [processAll_db hplain, processAll_db hsplit, flatten_singles]
  have houtside := (@processAll_futs env schema select batches hplain d hnodup hopen).2
  have hreplies : ∀ batch ∈ batches, ∀ q ∈ batch, ∃ x y,
      (processAll env schema select batches d).futs q.fut = some x
        ∧ (processAll env schema select (batches.flatten.map ([·])) d).futs q.fut = some y
        ∧ (x = y ∨ ∃ q' ∈ batch, ∃ e, q'.logFault = some e ∧ x = .error e) := by
    intro batch hbatch q hq
    obtain ⟨rs, r, hrs, hmem, ha, hs⟩ := replies hplain d hnodup hopen hbatch hq
    refine ⟨_, _, ha, hs, ?_⟩
    cases r with
    | error e => exact .inl rfl
    | ok o =>
      unfold replyOf
      cases hfault : taskFault rs with
      | none =>
        -- then the append of the operation's own task does not raise either
        have hown : q.logFault = none :=
          List.findSome?_eq_none_iff.mp hfault (q, o.1) (mem_executedOps.mpr ⟨o.2, hmem⟩)
        have hsolo : taskFault [(q, .ok o)] = none :=
          List.findSome?_eq_none_iff.mpr (by simpa [executedOps, Except.toOption] using hown)
        rw [hsolo]
        exact .inl rfl
      | some e =>
        obtain ⟨q', hq', he⟩ := taskFault_mem hfault
        exact .inr ⟨q', hrs ▸ hq', e, he, rfl⟩
  refine ⟨hdb, hreplies, houtside, ?_⟩
  intro hlog
  have hloglines : (processAll env schema select batches d).log
      = (processAll env schema select (batches.flatten.map ([·])) d).log := by
    rw [processAll_log hplain d hlog, processAll_log hsplit d (by rwa [flatten_singles]),
      flatten_singles]
  have hfuts : (processAll env schema select batches d).futs
      = (processAll env schema select (batches.flatten.map ([·])) d).futs := by
    funext n
    by_cases hn : ∃ q ∈ batches.flatten, q.fut = n
    · obtain ⟨q, hq, rfl⟩ := hn
      obtain ⟨batch, hbatch, hmem⟩ := List.mem_flatten.mp hq
      obtain ⟨x, y, hx, hy, heq | ⟨q', hq', e, he, -⟩⟩ := hreplies batch hbatch q hmem
      · rw [hx, hy, heq]
      · rw [hlog q' (List.mem_flatten.mpr ⟨batch, hbatch, hq'⟩)] at he
        cases he
    · have hno : ∀ q ∈ batches.flatten, q.fut ≠ n := fun q hq heq => hn ⟨q, hq, heq⟩
      rw [houtside n hno]
      refine ((@processAll_futs env schema select _ hsplit d ?_ ?_).2 n ?_).symm <;>
        rwa [flatten_singles]
  exact Desk.ext hdb hloglines hfuts

end Splits

/-! ## Two splits of a queue -/

/-- An embedder of one dimension; the tokens of a text are the text. -/
def wordEnv : Env := {
  plainEnv with
  embedder := some ⟨1, fun texts => .ok (texts.map fun _ => ⟨["0"]⟩), id⟩ }

def wordSchema : Schema := ⟨[searchNotes], searchNotes_nodup⟩

/-- Clauses as `plainSelect` has them, and one that asks the full-text snapshot for a word. -/
def wordSelect : Clauses := fun db _ spec cond params views =>
  match cond, params with
  | "fts_main__sb_notes.match_bm25(id, ?) IS NOT NULL", [.json (.str word)] =>
    .ok (((views spec.name).filter fun r =>
      (db.fts spec.name).any fun f => f.1 = r.key ∧ some word ∈ f.2).map fun r => r.key.fetch)
  | _, _ => plainSelect spec cond params views

def noteStamp : Stamp := ⟨"20260101", "t", by decide⟩

def putNote (fut : Nat) (id : String) (logFault : Option OpFault) : Submitted :=
  ⟨fut, .insert "notes" [[("id", strVal id), ("text", strVal "cat")]] false, noteStamp, none, logFault⟩

def dropNote (fut : Nat) (cond word : String) : Submitted :=
  ⟨fut, .delete "notes" (some cond) [strVal word], noteStamp, none, none⟩

def Desk.init : Desk := ⟨Db.init, [], fun _ => none⟩

/-- An insert, one that is refused, and a delete, in one batch and one by one. -/
theorem batching_transparent_notes : processAll wordEnv wordSchema (fun _ _ => plainSelect)
      [[putNote 0 "n1" none, putNote 1 "n1" none, dropNote 2 "id = ?" "n1"]] Desk.init
    = processAll wordEnv wordSchema (fun _ _ => plainSelect)
      [[putNote 0 "n1" none], [putNote 1 "n1" none], [dropNote 2 "id = ?" "n1"]] Desk.init := by
  have hplain : ∀ q ∈ [[putNote 0 "n1" none, putNote 1 "n1" none, dropNote 2 "id = ?" "n1"]].flatten,
      q.op.Plain (fun _ _ => plainSelect) := by
    intro q _
    cases q.op with
    | insert table rows skip => trivial
    | delete table cond params =>
      cases cond with
      | none => trivial
      | some text => exact fun _ _ _ _ _ _ _ _ => rfl
  refine (batching_transparent hplain Desk.init (by decide) (fun _ _ => rfl)).2.2.2 ?_
  intro q hq
  simp only [List.flatten_cons, List.flatten_nil, List.append_nil, List.mem_cons, List.not_mem_nil,
    or_false] at hq
  rcases hq with rfl | rfl | rfl <;> rfl

/-- A delete whose clause asks the full-text snapshot finds the note when the insert before it was a
batch of its own, and misses it in one batch with it; and where the task record of one insert fails,
the other of its batch is answered with that error. -/
theorem batches_differ :
    (processAll wordEnv wordSchema wordSelect [[putNote 0 "n1" none],
        [dropNote 1 "fts_main__sb_notes.match_bm25(id, ?) IS NOT NULL" "cat"]] Desk.init).futs 1
      = some (.ok ⟨.delete, some 1⟩)
    ∧ (processAll wordEnv wordSchema wordSelect [[putNote 0 "n1" none,
        dropNote 1 "fts_main__sb_notes.match_bm25(id, ?) IS NOT NULL" "cat"]] Desk.init).futs 1
      = some (.ok ⟨.delete, some 0⟩)
    ∧ (processAll wordEnv wordSchema wordSelect [[putNote 0 "n1" none],
        [putNote 1 "n2" (some (.os "disk full"))]] Desk.init).futs 0 = some (.ok ⟨.insert, none⟩)
    ∧ (processAll wordEnv wordSchema wordSelect [[putNote 0 "n1" none,
        putNote 1 "n2" (some (.os "disk full"))]] Desk.init).futs 0
      = some (.error (.os "disk full")) := by
  refine ⟨?_, ?_, ?_, ?_⟩
  · rfl
  · rfl
  · rfl
  · rfl

end Seekbase
