/-
# Seekbase.Cursor — the read side of the store: a borrowed cursor, its temporary objects, a statement.

A read borrows a cursor that other reads have used, and what those left on it is still there: the
visibility views of an earlier window, the table `_bridge` of an earlier plan.  Installing the views
replaces ALL of them; nothing drops `_bridge`.

What the database does with a text is a parameter, `Engine`: how it splits a text into statements,
where the statements take rows from, what they return.  Its one law says that a result depends on
nothing but the parameters and the contents of those sources.

* `Source`, `Content`   — a relation a text names, or a visibility text in it; and what that is;
* `Cursor`, `content`   — what each source is to a statement on the cursor;
* `runQuery`, `runPlan` — the two reads, each with the cursor it leaves;
* `Cursor.after`        — a cursor after any history of reads.
-/
import Seekbase.Jsonl
import Seekbase.Pipeline
import Seekbase.Whole

namespace Seekbase

open Lines

/-! ## Windows -/

/-- `ds_start` and `ds_end` of a read. -/
structure Window where
  dsStart : Option String
  dsEnd : Option String
  deriving DecidableEq

/-- `_DS_RE`: eight digits, and `$` also matches before a closing line feed. -/
def isDs (s : String) : Bool :=
  let body := if s.toList.getLast? = some '\n' then s.toList.dropLast else s.toList
  body.length == 8 && body.all isDecimal

/-- `_check_ds`. -/
def checkDs (repr : String → String) (label : String) : Option String → Except PipeExc Unit
  | none => .ok ()
  | some value =>
    if isDs value then .ok ()
    else .error (queryError (label ++ " must be YYYYMMDD, got " ++ repr value))

/-- The checks both reads begin with. -/
def Window.check (repr : String → String) (w : Window) : Except PipeExc Unit :=
  match checkDs repr "ds_start" w.dsStart with
  | .error e => .error e
  | .ok () => checkDs repr "ds_end" w.dsEnd

/-! ## Sources -/

/-- Where a statement takes rows from. -/
inductive Source where
  /-- A relation, a table function or a file, by name. -/
  | relation (name : String)
  /-- The visibility text of a table for a window, as `scan` pastes it. -/
  | visible (table : String) (w : Window)
  deriving DecidableEq

/-- What a source is at the time a statement runs. -/
inductive Content where
  | rows (rows : List Row)
  | snapshot (rows : List FtsRow)
  | dataset (rows : List IndexRow)
  | bridge (jsonl : Bytes)
  | other (text : String)

/-- The state a read can see: the store's, and whatever stands behind any other name. -/
structure World where
  view : View
  outside : String → Option String

/-- What a statement returns: the names of its columns and its rows. -/
abbrev Rows := List String × List (List Val)

/-- DuckDB, the interpreter's texts and the shell, as far as a read reaches them. -/
structure Engine where
  repr : String → String
  /-- `extract_statements`: of each statement whether its type is SELECT. -/
  statements : String → Except String (List Bool)
  sources : String → List Source
  execute : String → List Val → (Source → Option Content) → Except String Rows
  execute_local : ∀ sql params env env', (∀ s ∈ sources sql, env s = env' s) →
    execute sql params env = execute sql params env'
  /-- Whether `read_json_auto` reads a text. -/
  readJson : Bytes → Except String Unit
  /-- The catalog's complaint about a table where a view of that name is. -/
  conflict : String
  jsonWhy : Bytes → String
  /-- `_run_bash_chain` up to its timeout. -/
  bash : List (List String) → Bytes → Except String Bytes

/-! ## A schema no name of which is another's physical name -/

def physName (table : String) : String := "_sb_" ++ table

/-- A temporary view hides the physical table of the same name, so such a schema is left out. -/
structure ReadSchema extends Schema where
  apart : ∀ s ∈ tables, ∀ t ∈ tables, t.name ≠ physName s.name

def Schema.names (schema : Schema) : List String := schema.tables.map TableSpec.name

/-- The name of the materialized output of a shell stage. -/
def bridgeName : String := "_bridge"

/-- A read cursor: the window of the views on it, if any read has installed them, and the `_bridge`
the last plan with a shell stage in its middle has left.  The views are there first, so no table of
the schema has that name then. -/
structure Cursor (schema : ReadSchema) where
  views : Option Window
  bridge : Option Bytes
  apart : bridge.isSome = true → bridgeName ∉ schema.names

section Reads

variable (engine : Engine) {schema : ReadSchema}

def Cursor.fresh : Cursor schema := ⟨none, none, by simp⟩

/-- The rows a visibility text selects. -/
def Window.rows (w : Window) (v : View) (table : String) : List Row :=
  visible w.dsStart w.dsEnd (v.tables table)

/-- What the store keeps under a name of its own: a physical table, a full-text snapshot, a side
dataset. -/
def stored (schema : ReadSchema) (v : View) (name : String) : Option Content :=
  match schema.tables.find? fun spec => name = physName spec.name with
  | some spec => some (.rows (v.tables spec.name).rows)
  | none =>
    match schema.tables.find? fun spec => name = "fts_main_" ++ physName spec.name with
    | some spec => some (.snapshot (v.fts spec.name))
    | none =>
      (schema.tables.find? fun spec => name = spec.name ++ ".lance").map fun spec =>
        .dataset (v.index spec.name)

/-- What a name is that no temporary object has. -/
def World.beyond (schema : ReadSchema) (world : World) (name : String) : Option Content :=
  (stored schema world.view name).or ((world.outside name).map .other)

/-- What a name is that is not the bridge's. -/
def Cursor.named (c : Cursor schema) (world : World) (name : String) : Option Content :=
  match c.views with
  | some w =>
    if name ∈ schema.names then some (.rows (w.rows world.view name))
    else world.beyond schema name
  | none => world.beyond schema name

/-- What a source is to a statement on the cursor: temporary objects come first. -/
def Cursor.content (c : Cursor schema) (world : World) : Source → Option Content
  | .visible table w => (schema.table table).map fun spec => .rows (w.rows world.view spec.name)
  | .relation name =>
    match c.bridge with
    | some jsonl => if name = bridgeName then some (.bridge jsonl) else c.named world name
    | none => c.named world name

/-- `_install_views`. -/
def Cursor.install (c : Cursor schema) (w : Window) : Cursor schema :=
  { c with views := some w }

/-- Whether a text is one SELECT; `many` and `notSelect` are the complaints. -/
def guardRead (many notSelect : String) (sql : String) : Except PipeExc Unit :=
  match engine.statements sql with
  | .error why => .error (queryError why)
  | .ok [true] => .ok ()
  | .ok [false] => .error (.readOnly notSelect)
  | .ok _ => .error (.readOnly many)

/-- `cur.execute` and `fetchall`, each row as a dict. -/
def fetch (c : Cursor schema) (world : World) (sql : String) (params : List Val) :
    Except PipeExc (List Record) :=
  match engine.execute sql params (c.content world) with
  | .error why => .error (queryError why)
  | .ok (names, rows) => .ok (rows.map fun row => dictOf (names.zip row))

/-- A read in the making: its answer, and the cursor it gives back. -/
abbrev Answer (schema : ReadSchema) := Except PipeExc (List Record) × Cursor schema

def notSelect : String := "query is read-only (must be a SELECT)"

/-- `StoreService.run_query`. -/
def runQuery (c : Cursor schema) (world : World) (w : Window) (sql : String) (params : List Val) :
    Answer schema :=
  match w.check engine.repr with
  | .error e => (.error e, c)
  | .ok () =>
    match guardRead engine "query must be a single read statement" notSelect sql with
    | .error e => (.error e, c)
    | .ok () => (fetch engine (c.install w) world sql params, c.install w)

/-- `_load_bridge`, onto a cursor with its views installed. -/
def loadBridge (c : Cursor schema) (jsonl : Bytes) : Except PipeExc (Cursor schema) :=
  if trim jsonl = [] then
    if h : bridgeName ∈ schema.names then .error (.foreign "CatalogException" engine.conflict)
    else .ok ⟨c.views, some [], fun _ => h⟩
  else
    match engine.readJson jsonl with
    | .error why => .error (queryError ("bash stage output is not valid JSONL: " ++ why))
    | .ok () =>
      if h : bridgeName ∈ schema.names then
        .error (queryError ("bash stage output is not valid JSONL: " ++ engine.conflict))
      else .ok ⟨c.views, some jsonl, fun _ => h⟩

/-- The loop over the phases; `rows` is what the last DuckDB phase returned. -/
def runPhases (world : World) : Cursor schema → List Record → List PlanPhase → Answer schema
  | c, rows, [] => (.ok rows, c)
  | c, _, .duck sql params :: rest =>
    match guardRead engine notSelect notSelect sql with
    | .error e => (.error e, c)
    | .ok () =>
      match fetch engine c world sql params with
      | .error e => (.error e, c)
      | .ok rows => runPhases world c rows rest
  | c, rows, .bash argvs :: rest =>
    match engine.bash argvs (rowsToJsonl rows) with
    | .error why => (.error (queryError why), c)
    | .ok out =>
      match rest with
      | [] => (jsonlToRows engine.jsonWhy out, c)
      | _ :: _ =>
        match loadBridge engine c out with
        | .error e => (.error e, c)
        | .ok c => runPhases world c rows rest

/-- `StoreService.run_plan`. -/
def runPlan (c : Cursor schema) (world : World) (w : Window) (phases : List PlanPhase) :
    Answer schema :=
  match w.check engine.repr with
  | .error e => (.error e, c)
  | .ok () => runPhases engine world (c.install w) [] phases

/-- The store as a compiler's texts reach it, on this cursor. -/
def reads (c : Cursor schema) (world : World) (w : Window) : Reads (List Record) where
  runQuery sql params := (runQuery engine c world w sql params).1
  runPlan phases := (runPlan engine c world w phases).1

/-! ## Histories -/

/-- A read that once borrowed a cursor. -/
inductive PastRead where
  | query (sql : String) (params : List Val)
  | plan (phases : List PlanPhase)

/-- The cursor after a read of the state there was then. -/
def Cursor.afterRead (c : Cursor schema) : World × Window × PastRead → Cursor schema
  | (world, w, .query sql params) => (runQuery engine c world w sql params).2
  | (world, w, .plan phases) => (runPlan engine c world w phases).2

/-- A cursor of the pool after the reads that have borrowed it. -/
def Cursor.after (history : List (World × Window × PastRead)) : Cursor schema :=
  history.foldl (Cursor.afterRead engine) Cursor.fresh

end Reads

end Seekbase
