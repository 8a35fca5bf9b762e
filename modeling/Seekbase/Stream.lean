/-
# Seekbase.Stream — a resident stream: files are followed, batches landed, offsets checkpointed.

The stream is a task beside the write worker.  It reads whole lines past the offsets it has, submits
them as ONE insert that skips keys that exist, and only when that insert's future has resolved does it
move its offsets and write them to the side file; a restart under the same name begins where the side
file says.  Middles are left out here: the bytes that are read are the bytes that land.

* `readChunk`, `readNewLines` — the reading loop of `_read_new_lines`, over lines and over paths;
* `offsetsText`, `offsetsOf`  — the side file;
* `Follower`, `Feed`          — the task, and the store, the files and the side file around it;
* `feedStep`                  — every step of either, in any order, with crashes between any two.

A poll reads each file once and at its own time, so its label says how much of each file it saw.
-/
import Seekbase.Batch
import Seekbase.Jsonl

namespace Seekbase

open JsonText Lines

/-! ## Reading -/

/-- `dict[str, int]`, by path. -/
abbrev Offsets := List (String × Nat)

/-- The loop over the lines of a chunk: what it has kept so far, and the position. -/
def readChunk (maxLines : Nat) : List Bytes → Nat → List Bytes → List Bytes × Nat
  | [], pos, lines => (lines, pos)
  | raw :: raws, pos, lines =>
    if raw.getLast? ≠ some lf ∨ maxLines ≤ lines.length then (lines, pos)
    else
      readChunk maxLines raws (pos + raw.length) (if trim raw ≠ [] then lines ++ [raw] else lines)

/-- The loop over the paths; `opened` is what a path reads as, or nothing where it cannot be opened. -/
def readPaths (maxLines : Nat) (opened : String → Option Bytes) (offsets : Offsets) :
    List String → List Bytes → Offsets → List Bytes × Offsets
  | [], lines, next => (lines, next)
  | path :: paths, lines, next =>
    if maxLines ≤ lines.length then (lines, next)
    else
      match opened path with
      | none => readPaths maxLines opened offsets paths lines next
      | some content =>
        let start := (lookup path offsets).getD 0
        let r := readChunk maxLines (splitLines (content.drop start)) start lines
        readPaths maxLines opened offsets paths r.1
          (if start < r.2 then next ++ [(path, r.2)] else next)

/-- `_read_new_lines`; `glob` is what the pattern matches. -/
def readNewLines (maxLines : Nat) (glob : List String) (opened : String → Option Bytes)
    (offsets : Offsets) : List Bytes × Offsets :=
  readPaths maxLines opened offsets (glob.insertionSort (· ≤ ·)) [] []

/-! ## The side file -/

/-- `json.dumps(offsets)`. -/
def offsetsText (offsets : Offsets) : List Char :=
  dumpsAscii (.obj (offsets.map fun kv => (kv.1, .int kv.2)))

/-- `int(v)`, for the numbers the side file holds. -/
def offsetOf : Json → Option Nat
  | .int (.ofNat n) => some n
  | _ => none

/-- `{k: int(v) for k, v in json.loads(…).items()}`. -/
def offsetsOf (text : List Char) : Option Offsets :=
  match loads text with
  | some (.obj members) => members.mapM fun kv => (offsetOf kv.2).map (kv.1, ·)
  | _ => none

theorem offsetsOf_text (offsets : Offsets) : offsetsOf (offsetsText offsets) = some offsets := by
  have hall : (offsets.map fun kv => (kv.1, Json.int kv.2)).mapM
      (fun kv => (offsetOf kv.2).map (kv.1, ·)) = some offsets := by
    induction offsets with
    | nil => rfl
    | cons kv offsets ih =>
      rw [List.map_cons, List.mapM_cons, ih]
      rfl
  simp only [offsetsOf, offsetsText, loads_dumpsAscii]
  exact hall

/-! ## The stream and what is around it -/

/-- Where the insert of a batch is: in the queue, at the worker, or reported under a number in the
ledger. -/
inductive Wait where
  | queued
  | running
  | reported (i : Nat)

/-- Where `_run` is. -/
inductive Doing where
  /-- About to read: at the top of the loop, or at the last sweep. -/
  | reading
  /-- Waiting for the insert of these rows; `last` says that this is the last sweep. -/
  | landing (rows : List Record) (next : Offsets) (last : Bool) (wait : Wait)
  /-- About to write the side file. -/
  | landed (last : Bool)

structure Follower where
  offsets : Offsets
  stopping : Bool
  doing : Doing

structure Feed where
  batch : Batch
  /-- The files that are followed. -/
  disk : String → Bytes
  /-- The side file. -/
  saved : Option (List Char)
  task : Option Follower
  /-- The rows of the stream's insert, from when the worker takes it. -/
  own : Option (List Record)
  /-- The positions of the rows the stream has written to its table. -/
  wrote : List Nat

def Feed.init (disk : String → Bytes) : Feed := ⟨Batch.init, disk, none, none, none, []⟩

inductive FeedLabel where
  /-- Anything the store does but a crash, other clients' operations among it. -/
  | store (l : BatchLabel)
  | append (path : String) (bytes : Bytes)
  | start (readable : Bool)
  | poll (glob : List String) (seen : String → Option Nat)
  | take
  | land
  | checkpoint
  | stop
  | die
  | crash

section Step

variable (env : Env) (schema : Schema) (spec : TableSpec) (maxLines : Nat) (why : Bytes → String)

/-- The offsets a restart begins with. -/
def Feed.offsets (f : Feed) (readable : Bool) : Offsets :=
  if readable then (f.saved.bind offsetsOf).getD [] else []

/-- `opened` of a poll: what it saw of each file it could open. -/
def Feed.opened (f : Feed) (seen : String → Option Nat) (path : String) : Option Bytes :=
  (seen path).map (f.disk path).take

/-- One read, with the submission of what it found. -/
def Feed.poll (f : Feed) (glob : List String) (seen : String → Option Nat) (t : Follower) :
    Option Follower :=
  let r := readNewLines maxLines glob (f.opened seen) t.offsets
  if r.1 = [] then if t.stopping then none else some t
  else
    match jsonlToRows why r.1.flatten with
    | .error _ => none
    -- `_land` has nothing to insert
    | .ok [] => some { t with offsets := dictOf (t.offsets ++ r.2), doing := .landed t.stopping }
    | .ok rows => some { t with doing := .landing rows r.2 t.stopping .queued }

/-- The stream's insert. -/
def sinkOp (rows : List Record) : Op := .insert spec.name rows true

/-- The rows the table has got. -/
def Feed.added (f : Feed) (b : Batch) : List Nat :=
  let before := (f.batch.sys.db.tables spec.name).rows.length
  if f.own.isSome then
    List.range' before ((b.sys.db.tables spec.name).rows.length - before)
  else []

/-- What the stream learns from a step of the store: its insert is in the ledger of the batch, or the
batch was given up and its future has raised. -/
def Feed.nextTask (f : Feed) : BatchLabel → Option Follower
  | .sys .finish =>
    match f.own, f.task with
    | some _, some ⟨offsets, stopping, .landing rows next last .running⟩ =>
      some ⟨offsets, stopping, .landing rows next last
        (.reported (f.batch.logged.length + f.batch.finished.length))⟩
    | _, task => task
  | .logFault =>
    match f.task with
    | some ⟨_, _, .landing _ _ _ (.reported i)⟩ => if f.batch.logged.length ≤ i then none else f.task
    | task => task
  | _ => f.task

/-- An operation the worker takes or ends is no longer the stream's. -/
def Feed.nextOwn (f : Feed) : BatchLabel → Option (List Record)
  | .sys (.take _) | .sys .finish => none
  | _ => f.own

def feedStep (f : Feed) : FeedLabel → Option Feed
  | .store (.sys .crash) => none
  | .store l =>
    (batchStep env schema f.batch l).map fun b =>
      ⟨b, f.disk, f.saved, f.nextTask l, f.nextOwn l, f.wrote ++ f.added spec b⟩
  | .append path bytes =>
    some { f with disk := Function.update f.disk path (f.disk path ++ bytes) }
  | .start readable =>
    match f.task with
    | none => some { f with task := some ⟨f.offsets readable, false, .reading⟩ }
    | some _ => none
  | .poll glob seen =>
    match f.task with
    | some ⟨offsets, stopping, .reading⟩ =>
      some { f with task := f.poll maxLines why glob seen ⟨offsets, stopping, .reading⟩ }
    | _ => none
  | .take =>
    match f.task with
    | some ⟨offsets, stopping, .landing rows next last .queued⟩ =>
      (batchStep env schema f.batch (.sys (.take (sinkOp spec rows)))).map fun b =>
        { f with
          batch := b
          own := some rows
          task := some ⟨offsets, stopping, .landing rows next last .running⟩ }
    | _ => none
  -- the insert's task is in the log and its future resolves: the offsets move
  | .land =>
    match f.task with
    | some ⟨offsets, stopping, .landing _ next last (.reported i)⟩ =>
      if i < f.batch.logged.length then
        some { f with task := some ⟨dictOf (offsets ++ next), stopping, .landed last⟩ }
      else none
    | _ => none
  | .checkpoint =>
    match f.task with
    | some ⟨offsets, stopping, .landed last⟩ =>
      some { f with
        saved := some (offsetsText offsets)
        task := if last then none else some ⟨offsets, stopping, .reading⟩ }
    | _ => none
  | .stop => f.task.map fun t => { f with task := some { t with stopping := true } }
  -- `_run` ends with an exception
  | .die => some { f with task := none }
  | .crash =>
    (batchStep env schema f.batch (.sys .crash)).map fun b =>
      { f with batch := b, task := none, own := none }

end Step

end Seekbase
