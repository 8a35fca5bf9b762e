/-
# Seekbase.Write — insert and delete: decide on a read, then a list of acts, the mirror first.

`_execute_one` is three stretches with an await between them: a read that decides what to write
(`decide`), the embedding and the day and instant it is stamped with (`plan`), and the acts.  The
worker runs one operation at a time; `execute` is an operation alone, and the interleaving machine
takes the same three functions apart.
-/
import Seekbase.Act

namespace Seekbase

open JsonText

/-- A reading of the clock: `today()` and `now()`.  An ISO text is not empty. -/
structure Stamp where
  ds : String
  ts : String
  tsNe : ts ≠ ""

theorem t1_ne : "t1" ≠ "" := by decide
theorem t2_ne : "t2" ≠ "" := by decide
theorem t3_ne : "t3" ≠ "" := by decide

inductive Op where
  | insert (table : String) (rows : List Record) (skipExisting : Bool)
  | delete (table : String) (cond : Option String) (params : List Val)

/-- What an operation writes: new records, or tombstones for keys. -/
inductive Decision where
  | records (spec : TableSpec) (rs : List Record)
  | keys (spec : TableSpec) (ks : List Val)

def Schema.tableSpec (schema : Schema) (name : String) : Except Exc TableSpec :=
  match schema.table name with
  | some spec => .ok spec
  | none => .error (.unknownTable name)

/-- The read an operation decides on.  A missing or empty where text is refused before it. -/
def decideOp (env : Env) (schema : Schema) (tables : String → PhysTable) :
    Op → Except Exc Decision
  | .insert table rows skip => do
    let spec ← schema.tableSpec table
    let rs ← validate env.repr spec (tables spec.name) rows skip
    pure (.records spec rs)
  | .delete table cond params =>
    match cond with
    | none | some "" => .error .noWhere
    | some text => do
      let spec ← schema.tableSpec table
      let ks ← matchLive env spec tables text params
      pure (.keys spec ks)

/-- `_lance_payload`. -/
def lancePayload (env : Env) (spec : TableSpec) (rs : List Record)
    (emb : List (String × List Search)) : List IndexRow :=
  rs.mapIdx fun i r =>
    ⟨keyText env.repr spec r, (searchAt spec emb i).map fun s => (s.1.map env.normalize, s.2)⟩

/-- Whether an operation on a table writes a side dataset. -/
def Env.indexes (env : Env) (spec : TableSpec) : Bool := env.lance && !spec.searchable.isEmpty

/-- `write_puts`. -/
def putActs (spec : TableSpec) (rs : List Record) (st : Stamp) : List Act :=
  rs.map fun r => .append st.ds spec.name (putLine spec r st.ds st.ts)

/-- `commit_rows` for a batch. -/
def rowActs (spec : TableSpec) (rs : List Record) (emb : List (String × List Search))
    (st : Stamp) : List Act :=
  rs.mapIdx fun i r => .insert spec r (searchAt spec emb i) (strVal st.ds) (strVal st.ts)

/-- `index_search_rows`: no-op for the vss backend. -/
def indexActs (env : Env) (spec : TableSpec) (rs : List Record)
    (emb : List (String × List Search)) : List Act :=
  if env.indexes spec ∧ rs ≠ [] then [.indexAppend spec (lancePayload env spec rs emb)] else []

/-- The acts of an insert whose records are embedded. -/
def insertActs (env : Env) (spec : TableSpec) (rs : List Record)
    (emb : List (String × List Search)) (st : Stamp) : List Act :=
  putActs spec rs st ++ rowActs spec rs emb st ++ indexActs env spec rs emb

/-- `write_deletes`. -/
def tombstoneActs (spec : TableSpec) (ks : List Val) (st : Stamp) : List Act :=
  ks.map fun k => .append st.ds spec.name (tombstone k st.ts)

def deleteActs (repr : Json → String) (spec : TableSpec) (ks : List Val) (st : Stamp) : List Act :=
  tombstoneActs spec ks st ++ [.softDelete spec (ks.map (Val.str repr)) st.ds (strVal st.ts)]

/-- What follows the decision: nothing when every row was a duplicate, else the embedding (which
may raise) and the acts. -/
def plan (env : Env) (st : Stamp) : Decision → Except Exc (List Act)
  | .records _ [] => .ok []
  | .records spec rs => (embedRecords env spec rs).map fun emb => insertActs env spec rs emb st
  | .keys spec ks => .ok (deleteActs env.repr spec ks st)

/-- The `matched` count a finished delete reports. -/
def Decision.matched : Decision → Option Nat
  | .records _ _ => none
  | .keys _ ks => some ks.length

/-- `_execute_one`, nothing else running: the state it leaves, and its result. -/
def execute (env : Env) (schema : Schema) (st : Stamp) (op : Op) (db : Db) :
    Db × Except Exc (Option Nat) :=
  match decideOp env schema db.tables op with
  | .error e => (db, .error e)
  | .ok d =>
    match plan env st d with
    | .error e => (db, .error e)
    | .ok acts =>
      match execAll env acts db with
      | (db', none) => (db', .ok d.matched)
      | (db', some e) => (db', .error e)

/-! ## What a decision and a plan say -/

section Inversion

variable {env : Env} {schema : Schema} {tables : String → PhysTable} {d : Decision}

theorem tableSpec_ok {name : String} {spec : TableSpec} (h : schema.tableSpec name = .ok spec) :
    schema.table name = some spec := by
  unfold Schema.tableSpec at h
  split at h
  · rename_i hs; rw [hs, Except.ok.inj h]
  · cases h

theorem decide_insert {table : String} {rows : List Record} {skip : Bool}
    (h : decideOp env schema tables (.insert table rows skip) = .ok d) :
    ∃ spec rs, schema.table table = some spec
      ∧ validate env.repr spec (tables spec.name) rows skip = .ok rs ∧ d = .records spec rs := by
  simp only [decideOp, bind_ok_iff, pure, Except.pure, Except.ok.injEq] at h
  obtain ⟨spec, hs, rs, hrs, rfl⟩ := h
  exact ⟨spec, rs, tableSpec_ok hs, hrs, rfl⟩

theorem decide_delete {table : String} {cond : Option String} {params : List Val}
    (h : decideOp env schema tables (.delete table cond params) = .ok d) :
    ∃ text spec ks, cond = some text ∧ schema.table table = some spec
      ∧ matchLive env spec tables text params = .ok ks ∧ d = .keys spec ks := by
  simp only [decideOp] at h
  split at h
  · cases h
  · cases h
  · simp only [bind_ok_iff, pure, Except.pure, Except.ok.injEq] at h
    obtain ⟨spec, hs, ks, hks, rfl⟩ := h
    exact ⟨_, spec, ks, rfl, tableSpec_ok hs, hks, rfl⟩

theorem matchLive_ok {spec : TableSpec} {text : String} {params ks : List Val}
    (h : matchLive env spec tables text params = .ok ks) :
    ∃ s, oneStatement text "delete where" = .ok s
      ∧ env.selectKeys spec s params (fun name => visible none none (tables name)) = .ok ks := by
  simp only [matchLive, bind_ok_iff] at h
  obtain ⟨s, hs, h⟩ := h
  refine ⟨s, hs, ?_⟩
  split at h
  · rename_i ks' hks; rw [hks, Except.ok.inj h]
  · cases h

/-- A plan for records is empty, or the acts of an embedded insert. -/
theorem plan_records {st : Stamp} {spec : TableSpec} {rs : List Record} {acts : List Act}
    (h : plan env st (.records spec rs) = .ok acts) : acts = [] ∨ ∃ emb,
      embedRecords env spec rs = .ok emb ∧ acts = insertActs env spec rs emb st := by
  cases rs with
  | nil => exact Or.inl (Except.ok.inj h).symm
  | cons r rs =>
    simp only [plan] at h
    cases he : embedRecords env spec (r :: rs) with
    | error e => rw [he] at h; cases h
    | ok emb =>
      rw [he] at h
      exact Or.inr ⟨emb, rfl, (Except.ok.inj h).symm⟩

theorem execute_ok {st : Stamp} {op : Op} {db db' : Db} {r : Option Nat}
    (h : execute env schema st op db = (db', .ok r)) : ∃ d acts,
      decideOp env schema db.tables op = .ok d ∧ plan env st d = .ok acts
        ∧ execAll env acts db = (db', none) ∧ r = d.matched := by
  unfold execute at h
  split at h
  · cases h
  · rename_i d hd
    split at h
    · cases h
    · rename_i acts hacts
      split at h
      · rename_i mid hrun
        obtain ⟨rfl, hr⟩ := Prod.mk.inj h
        exact ⟨d, acts, hd, hacts, hrun, (Except.ok.inj hr).symm⟩
      · cases h

end Inversion

end Seekbase
