/-
# Seekbase.Admin — rebuild: read every table's events, clear, reload, mark, refresh the indexes.

`_replay` reads ALL tables first (`snapshot`) and only then touches the database (`replayActs`):
every table is cleared, and then table by table the puts are inserted, the tombstones applied and
the indexes refreshed.  The snapshots are as old as the reads; whatever was written since is not in
them.
-/
import Seekbase.Write

namespace Seekbase

open JsonText

/-- `"_deleted" in rec`. -/
def isTombstone (m : Members) : Bool := (lookup "_deleted" m).isSome

/-- A tombstone event: the key's text, its partition, and `deleted_at`. -/
structure Del where
  key : String
  ds : String
  deletedAt : Json

def putsOf (events : List (String × Members)) : List Members :=
  (events.filter fun e => !isTombstone e.2).map Prod.snd

def delsOf (repr : Json → String) (events : List (String × Members)) : List Del :=
  (events.filter fun e => isTombstone e.2).map fun e =>
    ⟨(Val.json (e.2.get "_deleted")).str repr, e.1, e.2.get "deleted_at"⟩

/-- The business columns of a put line. -/
def jsonRecord (spec : TableSpec) (m : Members) : Record :=
  spec.columnNames.map fun c => (c, .json (m.get c))

/-- What phase one keeps of a table. -/
structure Snap where
  spec : TableSpec
  puts : List Members
  dels : List Del
  emb : List (String × List Search)

def Snap.recs (s : Snap) : List Record := s.puts.map (jsonRecord s.spec)

/-- Phase one for one table: its events, and the embedding of its puts. -/
def snapshot (env : Env) (spec : TableSpec) (files : Files) : Except Exc Snap :=
  let events := iterEvents files spec.name
  let puts := putsOf events
  (embedRecords env spec (puts.map (jsonRecord spec))).map fun emb =>
    ⟨spec, puts, delsOf env.repr events, emb⟩

/-- `ca or now()`. -/
def orNow (createdAt : Json) (now : String) : Val :=
  if truthy createdAt then .json createdAt else strVal now

def clearActs (schema : Schema) : List Act := schema.tables.map .clear

/-- The reload of a table's rows; `now i` is what the clock reads at the `i`-th. -/
def reloadActs (now : Nat → String) (s : Snap) : List Act :=
  s.puts.mapIdx fun i m =>
    .insert s.spec (jsonRecord s.spec m) (searchAt s.spec s.emb i) (.json (m.get "ds"))
      (orNow (m.get "created_at") (now i))

def remarkActs (s : Snap) : List Act :=
  s.dels.map fun d => .softDelete s.spec [d.key] d.ds (.json d.deletedAt)

def refreshActs (env : Env) (s : Snap) : List Act :=
  .rebuildFts s.spec ::
    if env.indexes s.spec then [.indexOverwrite s.spec (lancePayload env s.spec s.recs s.emb)]
    else []

/-- Phase two for one table. -/
def loadActs (env : Env) (now : Nat → String) (s : Snap) : List Act :=
  reloadActs now s ++ remarkActs s ++ refreshActs env s

/-- Phase two: clear every table, then load one after another. -/
def replayActs (env : Env) (schema : Schema) (now : String → Nat → String) (snaps : List Snap) :
    List Act :=
  clearActs schema ++ snaps.flatMap fun s => loadActs env (now s.spec.name) s

/-- The `stats` of a finished rebuild. -/
structure Stats where
  tables : Nat
  rows : Nat
  tombstones : Nat
  deriving DecidableEq

def statsOf (snaps : List Snap) : Stats :=
  ⟨snaps.length, (snaps.map (·.puts.length)).sum, (snaps.map (·.dels.length)).sum⟩

/-- `_replay`, nothing else running: the state it leaves, and its result. -/
def rebuild (env : Env) (schema : Schema) (now : String → Nat → String) (db : Db) :
    Db × Except Exc Stats :=
  match schema.tables.mapM fun spec => snapshot env spec db.files with
  | .error e => (db, .error e)
  | .ok snaps =>
    match execAll env (replayActs env schema now snaps) db with
    | (db', none) => (db', .ok (statsOf snaps))
    | (db', some e) => (db', .error e)

end Seekbase
