/-
# Seekbase.Store — the physical tables and the statements the store service runs on them.

A physical table is its rows with the PRIMARY KEY constraint as two fields, so a table that breaks
it cannot be built and no invariant has to carry it.  What is not code of this repository enters as
the parameter `Env`: how DuckDB binds a value to a column type, the embedder, the evaluation of a
delete's where text, the COPY into a side dataset.  Its fields ending in a law are the documented
behaviour the code relies on, and nothing else of these programs is assumed.

* `Cell`, `Row`, `PhysTable` — a row keeps the cell of its key column next to the business cells;
* `newRow`, `insertRow`      — one row of `_insert_rows`' executemany, which commits on its own;
* `softDelete`, `clear`      — the UPDATE and the DELETE;
* `validate`, `matchLive`    — the two reads a write decides on;
* `asof`, `visible`          — the visibility predicate and the view over it.
-/
import Mathlib.Algebra.Group.Int.Defs
import Mathlib.Algebra.GroupWithZero.Nat
import Seekbase.File

namespace Seekbase

open JsonText

/-! ## Errors -/

/-- What an operation can raise, with the data its text names. -/
inductive Exc where
  | unknownTable (table : String)
  | unknownColumns (table : String) (columns : List String)
  | duplicateInBatch (table : String)
  | keyExists (table key : String)
  | noWhere
  | notSingle (label : String)
  | badWhere (table why : String)
  | notSerializable
  | embedder (why : String)
  | embedderDim (want got : Nat)
  | embedderShort
  | refused
  | constraint
  | copyFailed

/-- The texts the source gives its own errors; `repr` is Python's `repr`. -/
def Exc.message (repr : Json → String) : Exc → Option String
  | .unknownTable t => some ("unknown table " ++ repr (.str t))
  | .unknownColumns t cs => some (t ++ ": unknown column(s) " ++ repr (.arr (cs.map .str)))
  | .duplicateInBatch t => some (t ++ ": duplicate primary key within the insert batch")
  | .keyExists t k => some (t ++ ": primary key already exists: " ++ repr (.str k) ++
      " (seekbase is insert-only; a key is written once)")
  | .noWhere => some "delete requires a where clause"
  | .notSingle label => some (label ++ " must be a single statement")
  | .badWhere t why => some (t ++ ": bad delete where: " ++ why)
  | .embedderDim want got => some ("expected dim " ++ want.repr ++ ", got " ++ got.repr)
  | _ => none

/-! ## Cells and rows -/

/-- A stored value.  A type other than VARCHAR and BIGINT keeps the text DuckDB casts it to. -/
inductive Cell where
  | null
  | varchar (s : String)
  | bigint (i : Int)
  | other (text : String)
  deriving DecidableEq

/-- `CAST(… AS VARCHAR)`. -/
def Cell.text : Cell → Option String
  | .null => none
  | .varchar s => some s
  | .bigint i => some i.repr
  | .other t => some t

/-- The Python value a cell is fetched as. -/
def Cell.fetch : Cell → Val
  | .null => .json .null
  | .varchar s => strVal s
  | .bigint i => .json (.int i)
  | .other t => .other t none

/-- An embedding vector, by the text of its components. -/
structure Vec where
  components : List String
  deriving DecidableEq

/-- One searchable column of a row: its vector and its tokens. -/
abbrev Search := Option Vec × Option String

structure Row where
  key : Cell
  cells : List Cell
  ds : Option String
  createdAt : Option String
  deletedDs : Option String
  deletedAt : Option String
  search : List Search
  deriving DecidableEq

/-- A row without its search columns, what `all_column_names` selects. -/
def Row.shown (r : Row) : Row := { r with search := [] }

/-- A side dataset's row: the key's text and the searchable columns. -/
structure IndexRow where
  pk : String
  search : List Search
  deriving DecidableEq

/-- A physical table `_sb_<name>` with its PRIMARY KEY. -/
structure PhysTable where
  rows : List Row
  pkUnique : (rows.map Row.key).Nodup
  pkNotNull : ∀ r ∈ rows, r.key ≠ .null

def PhysTable.empty : PhysTable := ⟨[], by simp, by simp⟩

theorem PhysTable.ext_rows {s t : PhysTable} (h : s.rows = t.rows) : s = t := by
  cases s; cases t; cases h; rfl

/-! ## What is outside the repository -/

inductive Backend where
  | vss
  | lance
  deriving DecidableEq

structure Embedder where
  dim : Nat
  embed : List String → Except String (List Vec)
  tok : String → String

structure Env where
  /-- Python's `repr` of a JSON value. -/
  repr : Json → String
  /-- The cell DuckDB stores for a value bound to a column type, or a refusal. -/
  bind : SqlType → Val → Option Cell
  bind_null : ∀ t, bind t (.json .null) = some .null
  bind_str : ∀ s, bind .varchar (strVal s) = some (.varchar s)
  bind_varchar : ∀ v c, bind .varchar v = some c → c = .null ∨ ∃ s, c = .varchar s
  bind_bigint : ∀ v c, bind .bigint v = some c → c = .null ∨ ∃ i, c = .bigint i
  embedder : Option Embedder
  /-- `_l2_normalize`. -/
  normalize : Vec → Vec
  backend : Backend
  /-- Whether a COPY of these rows into a side dataset succeeds. -/
  copies : String → List IndexRow → Bool
  /-- The keys a where text selects from the views over the visible rows. -/
  selectKeys : TableSpec → String → List Val → (String → List Row) → Except String (List Val)

namespace Env

variable (env : Env)

def vss : Bool := env.backend == .vss && env.embedder.isSome

def lance : Bool := env.backend == .lance && env.embedder.isSome

/-- A value bound to a VARCHAR metadata column. -/
def bindText (v : Val) : Option (Option String) := (env.bind .varchar v).map Cell.text

@[simp] theorem bindText_str (s : String) : env.bindText (strVal s) = some (some s) := by
  simp [bindText, env.bind_str, Cell.text]

end Env

/-! ## Embedding -/

/-- The text a searchable column is embedded by: `None` and the empty text are not embedded. -/
def searchText (repr : Json → String) (v : Val) : Option String :=
  if v.isNone || v.str repr == "" then none else some (v.str repr)

/-- Give the vectors out to the texts in order; `emb[j]` raises when there are too few. -/
def placeVecs (e : Embedder) : List (Option String) → List Vec → Except Exc (List Search)
  | [], _ => .ok []
  | none :: ts, vs => (placeVecs e ts vs).map ((none, none) :: ·)
  | some _ :: _, [] => .error .embedderShort
  | some t :: ts, v :: vs => (placeVecs e ts vs).map ((some v, some (e.tok t)) :: ·)

/-- `EmbeddingService.embed`: every vector has the embedder's dimension. -/
def Embedder.embedAll (e : Embedder) (texts : List String) : Except Exc (List Vec) :=
  match e.embed texts with
  | .error why => .error (.embedder why)
  | .ok out =>
    match out.find? (fun v => v.components.length ≠ e.dim) with
    | some v => .error (.embedderDim e.dim v.components.length)
    | none => .ok out

def embedColumn (e : Embedder) (texts : List (Option String)) : Except Exc (List Search) := do
  let idx := texts.filterMap id
  let emb ← if idx = [] then pure [] else e.embedAll idx
  placeVecs e texts emb

/-- `embed_records`: for every searchable column a list aligned with the records. -/
def embedRecords (env : Env) (spec : TableSpec) (records : List Record) :
    Except Exc (List (String × List Search)) :=
  match env.embedder with
  | none => .ok []
  | some e => spec.searchable.mapM fun col => do
      let column ← embedColumn e (records.map fun r => searchText env.repr (r.get col))
      pure (col, column)

/-- The vectors and tokens of the `i`-th record, one pair for each searchable column. -/
def searchAt (spec : TableSpec) (emb : List (String × List Search)) (i : Nat) : List Search :=
  spec.searchable.map fun col => ((lookup col emb).bind (·[i]?)).getD (none, none)

/-! ## Rows -/

/-- The value `_insert_rows` binds: a `json` column stores its `json.dumps` text. -/
def storeVal (c : Column) (v : Val) : Except Exc Val :=
  if c.type = "json" ∧ v.isNone = false then
    match v.toJson? with
    | some j => .ok (strVal (String.ofList (dumpsAscii j)))
    | none => .error .notSerializable
  else .ok v

/-- A value DuckDB has to accept. -/
def accept {α : Type} : Option α → Except Exc α
  | some a => .ok a
  | none => .error .refused

/-- The cell a value is stored as. -/
def Env.cell (env : Env) (c : Column) (v : Val) : Except Exc Cell := do
  let v ← storeVal c v
  accept (env.bind c.sqlType v)

/-- The business and metadata columns of a new row. -/
def Env.stored (env : Env) (spec : TableSpec) (r : Record) (ds createdAt : Val) :
    Except Exc Row := do
  let cells ← spec.columns.mapM fun c => env.cell c (r.get c.name)
  let key ← env.cell spec.primary (r.get spec.primaryKey)
  let ds ← accept (env.bindText ds)
  let createdAt ← accept (env.bindText createdAt)
  pure ⟨key, cells, ds, createdAt, none, none, []⟩

/-- One row of `_insert_rows`; only the vss backend keeps the search columns in it. -/
def Env.newRow (env : Env) (spec : TableSpec) (r : Record) (search : List Search)
    (ds createdAt : Val) : Except Exc Row :=
  (env.stored spec r ds createdAt).map fun row =>
    { row with search := if env.vss then search else [] }

theorem pkUnique_append {rows : List Row} {r : Row} (hnd : (rows.map Row.key).Nodup)
    (h : r.key ∉ rows.map Row.key) : ((rows ++ [r]).map Row.key).Nodup := by
  rw [List.map_append]
  refine List.Nodup.append hnd (by simp) fun k hk hr => ?_
  rw [List.map_singleton, List.mem_singleton] at hr
  exact h (hr ▸ hk)

/-- A row under a new key. -/
def PhysTable.push (t : PhysTable) (r : Row) (h0 : r.key ≠ .null)
    (hfresh : r.key ∉ t.rows.map Row.key) : PhysTable :=
  ⟨t.rows ++ [r], pkUnique_append t.pkUnique hfresh, by
    intro x hx
    rcases List.mem_append.mp hx with hx | hx
    · exact t.pkNotNull x hx
    · rw [List.mem_singleton.mp hx]; exact h0⟩

/-- INSERT under the PRIMARY KEY. -/
def insertRow (t : PhysTable) (r : Row) : Except Exc PhysTable :=
  if h : r.key ≠ .null ∧ r.key ∉ t.rows.map Row.key then .ok (t.push r h.1 h.2)
  else .error .constraint

/-- The deletion mark `soft_delete` writes on a live row it matches. -/
def mark (keys : List String) (ds : String) (deletedAt : Option String) (r : Row) : Row :=
  if r.key.text ∈ keys.map some ∧ r.deletedDs = none then
    { r with deletedDs := some ds, deletedAt := deletedAt }
  else r

@[simp] theorem mark_key (keys : List String) (ds : String) (at' : Option String) (r : Row) :
    (mark keys ds at' r).key = r.key := by
  unfold mark; split <;> rfl

def softDeleteRows (t : PhysTable) (keys : List String) (ds : String) (deletedAt : Option String) :
    PhysTable :=
  ⟨t.rows.map (mark keys ds deletedAt),
    by simpa [List.map_map, Function.comp_def] using t.pkUnique,
    by
      intro x hx
      obtain ⟨r, hr, rfl⟩ := List.mem_map.mp hx
      rw [mark_key]; exact t.pkNotNull r hr⟩

/-! ## The two reads a write decides on -/

/-- `_existing_keys`: those of the texts that are a key of the table already. -/
def existingKeys (t : PhysTable) (keys : List String) : List String :=
  (t.rows.filterMap fun r => r.key.text).filter (· ∈ keys)

/-- A record over the declared columns, `{c: row.get(c) for c in spec.column_names}`. -/
def project (spec : TableSpec) (row : Record) : Record :=
  spec.columnNames.map fun c => (c, row.get c)

/-- The columns of a row that the table does not declare, sorted. -/
def unknownColumns (spec : TableSpec) (row : Record) : List String :=
  ((row.map Prod.fst).filter (· ∉ spec.columnNames)).dedup.insertionSort (· ≤ ·)

/-- The text `validate` compares keys by. -/
def keyText (repr : Json → String) (spec : TableSpec) (r : Record) : String :=
  (r.get spec.primaryKey).str repr

/-- The first record of each key text. -/
def dedupKeys (repr : Json → String) (spec : TableSpec) : List String → List Record → List Record
  | _, [] => []
  | seen, r :: rs =>
    if keyText repr spec r ∈ seen then dedupKeys repr spec seen rs
    else r :: dedupKeys repr spec (keyText repr spec r :: seen) rs

/-- `validate`: unknown columns, then the write-once key within the batch and against the table;
with `skip_existing` duplicates are dropped instead. -/
def validate (repr : Json → String) (spec : TableSpec) (t : PhysTable) (rows : List Record)
    (skipExisting : Bool) : Except Exc (List Record) :=
  match rows.find? (fun row => unknownColumns spec row ≠ []) with
  | some row => .error (.unknownColumns spec.name (unknownColumns spec row))
  | none =>
    let records := rows.map (project spec)
    let keys := records.map (keyText repr spec)
    if skipExisting then
      let dedup := dedupKeys repr spec [] records
      let existing := existingKeys t (dedup.map (keyText repr spec))
      .ok (dedup.filter (keyText repr spec · ∉ existing))
    else if ¬ keys.Nodup then .error (.duplicateInBatch spec.name)
    else match existingKeys t keys with
      | k :: _ => .error (.keyExists spec.name k)
      | [] => .ok records

/-! ## Visibility -/

/-- `_asof_conds`: a missing `ds` satisfies no comparison. -/
def asof (dsStart dsEnd : Option String) (r : Row) : Bool :=
  (match dsEnd with
    | none => r.deletedDs.isNone
    | some d => (r.ds.any (· ≤ d)) && (r.deletedDs.isNone || r.deletedDs.any (d < ·)))
  && (match dsStart with
    | none => true
    | some d => r.ds.any (d ≤ ·))

/-- `_visible`: what a table's view selects. -/
def visible (dsStart dsEnd : Option String) (t : PhysTable) : List Row :=
  (t.rows.filter (asof dsStart dsEnd)).map Row.shown

/-- `_one_statement`: blanks and closing semicolons at the ends are dropped, none may stay. -/
def oneStatement (sql label : String) : Except Exc String :=
  let s := strip ((strip sql.toList).rdropWhile (· == ';'))
  if ';' ∈ s then .error (.notSingle label) else .ok (String.ofList s)

/-- `match_live`: the keys a where text selects from the views of the current live state. -/
def matchLive (env : Env) (spec : TableSpec) (tables : String → PhysTable) (cond : String)
    (params : List Val) : Except Exc (List Val) := do
  let stmt ← oneStatement cond "delete where"
  match env.selectKeys spec stmt params (fun name => visible none none (tables name)) with
  | .ok keys => .ok keys
  | .error why => .error (.badWhere spec.name why)

/-! ## A small store

A table of notes, and providers that answer as the real ones do on the values the runs below use:
texts, and numbers that fit. -/

def idColumn : Column := ⟨"id", "str", .varchar⟩

/-- `{"table": "notes", "columns": [id str, text str], "primary": "id"}`. -/
def notes : TableSpec where
  name := "notes"
  columns := [idColumn, ⟨"text", "str", .varchar⟩]
  primary := idColumn
  searchable := []
  namesNodup := by decide
  noMeta := by decide
  identNames := by
    intro c hc
    rcases List.mem_cons.mp hc with rfl | hc
    · exact ⟨'i', ['d'], by decide, by decide⟩
    · obtain rfl := List.mem_singleton.mp hc
      exact ⟨'t', ['e', 'x', 't'], by decide, by decide⟩
  primaryMem := by simp [idColumn]
  primaryOk := Or.inl ⟨rfl, rfl⟩
  searchableOk := by simp

def notesSchema : Schema := ⟨[notes], by decide⟩

/-- The notes with a searchable text. -/
def searchNotes : TableSpec := {
  notes with
  searchable := ["text"]
  searchableOk := by
    intro s hs
    obtain rfl := List.mem_singleton.mp hs
    exact ⟨⟨"text", "str", .varchar⟩, by simp [notes], rfl, rfl⟩ }

theorem searchNotes_nodup : ([searchNotes].map TableSpec.name).Nodup := by decide

/-- Binding of texts, numbers and `None`; a value is bound as its JSON image. -/
def plainVarchar : Json → Option Cell
  | .null => some .null
  | .str s => some (.varchar s)
  | .int i => some (.varchar i.repr)
  | _ => none

def plainBigint : Json → Option Cell
  | .null => some .null
  | .int i => if -2 ^ 63 ≤ i ∧ i < 2 ^ 63 then some (.bigint i) else none
  | .str s => s.toInt?.map .bigint
  | _ => none

def plainOther : Json → Option Cell
  | .null => some .null
  | .int i => some (.other i.repr)
  | .str s => some (.other s)
  | _ => none

def plainBind (t : SqlType) (v : Val) : Option Cell :=
  v.toJson?.bind (match t with
    | .varchar => plainVarchar
    | .bigint => plainBigint
    | _ => plainOther)

/-- The keys of the rows that `id = ?` or `true` selects. -/
def plainSelect (spec : TableSpec) (cond : String) (params : List Val)
    (views : String → List Row) : Except String (List Val) :=
  if cond = "true" then .ok ((views spec.name).map fun r => r.key.fetch)
  else match params with
    | [.json (.str s)] => .ok (((views spec.name).filter fun r => r.key = .varchar s).map
        fun r => r.key.fetch)
    | _ => .error "parser error"

/-- No embedder, and a COPY that always succeeds. -/
def plainEnv : Env where
  repr j := match j with
    | .str s => "'" ++ s ++ "'"
    | j => String.ofList (dumps j)
  bind := plainBind
  bind_null t := by cases t <;> rfl
  bind_str s := rfl
  bind_varchar v c h := by
    obtain ⟨j, -, h⟩ := Option.bind_eq_some_iff.mp h
    simp only [plainVarchar] at h
    split at h <;> cases h <;> simp
  bind_bigint v c h := by
    obtain ⟨j, -, h⟩ := Option.bind_eq_some_iff.mp h
    simp only [plainBigint] at h
    split at h
    · cases h; simp
    · split at h <;> cases h
      simp
    · obtain ⟨i, -, rfl⟩ := Option.map_eq_some_iff.mp h
      simp
    · cases h
  embedder := none
  normalize v := v
  backend := .vss
  copies _ _ := true
  selectKeys := plainSelect

end Seekbase
