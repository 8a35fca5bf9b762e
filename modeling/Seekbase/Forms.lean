/-
# Seekbase.Forms — the two forms of an opened database agree.

The services of an opened database are the ones modelled before: a write is executed and its task is
logged done, a rebuild and a background query are logged pending, a status is the last line of its id, a
result is a file.  They keep what the wire needs of a task, so the agreement of the executors is one about
this database.  Against one state, both forms leave the same state and return the same value or raise the
same error, but for two things the wire does by design: an exception outside the error hierarchy comes
back as a `SeekbaseError` with its text, and a query asked for as a task comes back as the task's dict.

* `Served`, `LogLine`     — the database, the task log, the result files;
* `Embedded.services`     — the services over them;
* `forms_agree`           — both forms;
* `forms_differ`          — the two things, each on a request.
-/
import Seekbase.Remote
import Seekbase.TaskLog
import Seekbase.Write

namespace Seekbase

open JsonText

/-! ## The task log -/

/-- A line of the task log: the id stands under `task`, or under `ticket` in an older one. -/
structure LogLine where
  members : Members
  named : ∃ id : String, id ≠ "" ∧ (lookup "task" members = some (.str id)
    ∨ lookup "task" members = none ∧ lookup "ticket" members = some (.str id))

/-- `d.get("task") == task_id or d.get("ticket") == task_id`. -/
def LogLine.isOf (id : String) (l : LogLine) : Bool :=
  Members.text l.members "task" = id || Members.text l.members "ticket" = id

/-- The line `append` writes. -/
def logLine (t : Task) (h : t.Made) : LogLine where
  members := t.toWire
  named := ⟨t.id, h.named, Or.inl (lookup_toWire t).1⟩

theorem field_ne_null (m : Members) (name : String) : Members.field m name ≠ some .null := by
  intro h
  obtain ⟨-, hnull⟩ := Option.filter_eq_some_iff.mp h
  cases hnull

/-- A line is read back as a task that the wire keeps. -/
theorem fromWire_line (l : LogLine) {t : Task} (h : Task.fromWire l.members = .ok t) : t.Made := by
  obtain ⟨id, hid, hkey⟩ := l.named
  have hne : truthy (.str id) = true := by simpa [truthy] using hid
  have hread : (if truthy (Members.get l.members "task") then some (Members.get l.members "task")
      else lookup "ticket" l.members) = some (.str id) := by
    rcases hkey with htask | ⟨htask, hticket⟩
    · rw [Members.get, htask]
      exact if_pos hne
    · rw [Members.get, htask, hticket]
      rfl
  rw [Task.fromWire, hread] at h
  obtain rfl := Except.ok.inj h
  exact ⟨hid, field_ne_null _ _⟩

/-! ## The services -/

/-- An opened database: its rows, the partitions of its task log, its result files, the ids of the tasks
that run, and how many readings of the clock and draws of an id there were. -/
structure Served where
  db : Db
  log : String → List LogLine
  results : String → Option (List Json)
  live : List String
  drawn : Nat

/-- `TaskService.append`. -/
def Served.append (s : Served) (t : Task) (h : t.Made) : Served :=
  let ds := (dsOf t.id).getD "None"
  { s with log := Function.update s.log ds (s.log ds ++ [logLine t h]) }

def unknownTask (repr : Json → String) (id : String) : PyExc :=
  ⟨.seekbase .notFound, "unknown task " ++ repr (.str id)⟩

/-- `TaskService.status`: the last line of the id counts. -/
def Served.status (s : Served) (repr : Json → String) : Json → Except PyExc Task
  | .str id =>
    match dsOf id with
    | none => .error (unknownTask repr id)
    | some ds =>
      match ((s.log ds).filter (LogLine.isOf id)).getLast? with
      | none => .error (unknownTask repr id)
      | some l => Task.fromWire l.members
  | v => .error ⟨.foreign "AttributeError", "'" ++ jsonType v ++ "' object has no attribute 'split'"⟩

/-- `TaskService.result`. -/
def Served.result (s : Served) (repr : Json → String) (v : Json) : Except PyExc (List Json) := do
  let task ← s.status repr v
  let id := (Json.text? v).getD ""
  match task.state with
  | .pending | .running =>
    .error ⟨.seekbase .queryError, "task " ++ id ++ " is still " ++ task.state.text⟩
  | .cancelled => .error ⟨.seekbase .queryError, "task " ++ id ++ " was cancelled"⟩
  | .failed => .error ⟨.seekbase .queryError, "task " ++ id ++ " failed: " ++ task.error.getD "None"⟩
  | .done =>
    if task.op ≠ "query" then
      .error ⟨.seekbase .queryError, "task " ++ id ++ " (" ++ task.op ++ ") has no result rows"⟩
    else
      match s.results id with
      | none => .error ⟨.seekbase .queryError, "task " ++ id ++ " result expired (retention GC)"⟩
      | some rows => .ok rows

/-- The classes the source gives its own errors of a write. -/
def Exc.cls : Exc → Option ErrorClass
  | .unknownTable _ => some .schemaError
  | .unknownColumns _ _ | .duplicateInBatch _ | .keyExists _ _ | .noWhere | .notSingle _
  | .badWhere _ _ => some .queryError
  | .embedderDim _ _ => some .embedderInvalid
  | _ => none

/-- What an embedded database runs on. -/
structure Embedded where
  env : Env
  schema : Schema
  /-- The readings of the clock, and the random part of the ids. -/
  stamp : Nat → Stamp
  hex : Nat → String
  /-- `read.query`, whether it answers within so many milliseconds, and the recent tasks. -/
  read : ReadArgs → Served → Served × Except PyExc (List PyRow)
  within : ReadArgs → Json → Served → Bool
  recent : Served → Except PyExc (List Task)
  /-- What the cancellation of a running task leaves. -/
  settle : String → Served → Served
  /-- What DuckDB, the embedder and `json` raise. -/
  raised : Exc → PyExc
  /-- What a call with arguments of other types than its own raises. -/
  misuse : TaskCall → PyExc

namespace Embedded

variable (E : Embedded)

/-- The exception of an error of a write. -/
def exc (e : Exc) : PyExc :=
  match e.cls, e.message E.env.repr with
  | some c, some text => ⟨.seekbase c, text⟩
  | _, _ => E.raised e

/-- A new task record. -/
def born (op : String) (state : TaskState) (matched : Option Nat) (query : Option String) (s : Served) :
    Task where
  id := "tk_" ++ (E.stamp s.drawn).ds ++ "_" ++ E.hex s.drawn
  op := op
  state := state
  error := none
  matched := matched
  stats := none
  query := query
  rows := none
  submittedAt := some (E.stamp s.drawn).ts
  finishedAt := if state.settled then some (E.stamp s.drawn).ts else none

theorem born_made (op : String) (state : TaskState) (matched : Option Nat) (query : Option String)
    (s : Served) : (E.born op state matched query s).Made where
  named := by
    intro h
    have hlen := congrArg String.length h
    simp only [born, String.length_append] at hlen
    have htk : "tk_".length = 3 := rfl
    have hnil : "".length = 0 := rfl
    omega
  stats := by simp [born]

/-- The record of a write that has ended: the log comes last. -/
def written (op : String) (s : Served) : Db × Except Exc (Option Nat) → Served × Except PyExc Task
  | (db, .error e) => ({ s with db := db }, .error (E.exc e))
  | (db, .ok matched) =>
    let s := { s with db := db, drawn := s.drawn + 1 }
    (s.append (E.born op .done matched none s) (E.born_made ..), .ok (E.born op .done matched none s))

/-- A list of dicts. -/
def records? : Json → Option (List Record)
  | .arr xs => xs.mapM fun
    | .obj m => some (Members.record m)
    | _ => none
  | _ => none

def unknown (table : Json) : PyExc := ⟨.seekbase .schemaError, "unknown table " ++ E.env.repr table⟩

/-- `WriteService.insert`. -/
def insert (table rows : Json) (s : Served) : Served × Except PyExc Task :=
  match records? rows with
  | none => (s, .error (E.misuse (.insert table rows)))
  | some rs =>
    match table with
    | .str name =>
      E.written "insert" s (execute E.env E.schema (E.stamp s.drawn) (.insert name rs false) s.db)
    | v => (s, .error (E.unknown v))

/-- `WriteService.delete`. -/
def delete (table whereText params : Json) (s : Served) : Served × Except PyExc Task :=
  if truthy whereText = false then (s, .error (E.exc .noWhere))
  else
    match table, whereText, params with
    | .str name, .str text, .arr ps =>
      E.written "delete" s
        (execute E.env E.schema (E.stamp s.drawn) (.delete name (some text) (ps.map .json)) s.db)
    | .str _, w, ps => (s, .error (E.misuse (.delete table w ps)))
    | v, _, _ => (s, .error (E.unknown v))

/-- `submit` and `adopt`: the record is logged and the task runs on. -/
def start (op : String) (state : TaskState) (query : Option String) (s : Served) :
    Served × Except PyExc Task :=
  let t := E.born op state none query s
  let logged := s.append t (E.born_made ..)
  ({ logged with drawn := s.drawn + 1, live := t.id :: s.live }, .ok t)

/-- `TaskService.cancel`. -/
def cancel (v : Json) (s : Served) : Served × Except PyExc Task :=
  let s := match v with
    | .str id => if id ∈ s.live then E.settle id s else s
    | _ => s
  (s, s.status E.env.repr v)

/-- The calls that return a task. -/
def task (c : TaskCall) (s : Served) : Served × Except PyExc Task :=
  match c with
  | .submit args => E.start "query" .pending (Json.text? args.sql) s
  | .adopt args => E.start "query" .running (Json.text? args.sql) s
  | .insert table rows => E.insert table rows s
  | .delete table whereText params => E.delete table whereText params s
  | .status id => (s, s.status E.env.repr id)
  | .cancel id => E.cancel id s
  | .rebuild => E.start "rebuild" .pending none s

theorem written_made {op : String} {s : Served} {r : Db × Except Exc (Option Nat)} {t : Task}
    (h : (E.written op s r).2 = .ok t) : t.Made := by
  obtain ⟨db, _ | matched⟩ := r
  · cases h
  · obtain rfl := Except.ok.inj h
    exact E.born_made ..

theorem status_made {s : Served} {repr : Json → String} {v : Json} {t : Task}
    (h : s.status repr v = .ok t) : t.Made := by
  unfold Served.status at h
  split at h
  · split at h
    · cases h
    · split at h
      · cases h
      · exact fromWire_line _ h
  · cases h

/-- Every call returns a task that the wire keeps. -/
theorem task_made (c : TaskCall) (s : Served) (t : Task) (h : (E.task c s).2 = .ok t) : t.Made := by
  cases c with
  | submit args | adopt args | rebuild =>
    obtain rfl := Except.ok.inj h
    exact E.born_made ..
  | insert table rows =>
    simp only [task, insert] at h
    split at h
    · cases h
    · split at h
      · exact E.written_made h
      · cases h
  | delete table whereText params =>
    simp only [task, delete] at h
    split at h
    · cases h
    · split at h
      · exact E.written_made h
      · cases h
      · cases h
  | status id => exact status_made h
  | cancel id => exact status_made h

/-- The services of the embedded form. -/
def services : Services Served where
  query := E.read
  within := E.within
  result v s := (s, s.result E.env.repr v)
  list s := (s, E.recent s)
  task := E.task
  made := E.task_made

end Embedded

/-! ## Both forms -/

theorem carried_under {T : Transport} (hT : T.Documented) {root id action : List Char}
    (hroot : "/v1/".toList <+: root) (hshort : root.length + action.length ≤ 100)
    (hlen : id.length ≤ 900) (hplain : (root ++ action).all pathChar = true)
    (h : id.all pathChar = true) : T.path (root ++ id ++ action) = root ++ id ++ action := by
  rw [List.all_append, Bool.and_eq_true] at hplain
  refine hT.path _ ?_ ?_ ?_
  · exact hroot.trans ((List.prefix_append _ _).trans (List.prefix_append _ _))
  · rw [List.length_append, List.length_append]
    omega
  · rw [List.all_append, List.all_append, hplain.1, hplain.2, h]
    rfl

/-- A ticket of the ids' characters is carried. -/
theorem carries_id {T : Transport} (hT : T.Documented) {id : List Char} (hseg : IsSegment id)
    (hlen : id.length ≤ 900) (h : id.all pathChar = true) : T.Carries id := by
  have hroot : "/v1/".toList <+: "/v1/tasks/".toList := by decide +kernel
  refine ⟨hseg, ?_, ?_, ?_⟩
  · have hstatus : T.path (statusPath id ++ []) = statusPath id ++ [] :=
      carried_under hT hroot (by decide +kernel) hlen (by decide +kernel) h
    rwa [List.append_nil] at hstatus
  · exact carried_under hT hroot (by decide +kernel) hlen (by decide +kernel) h
  · exact carried_under hT hroot (by decide +kernel) hlen (by decide +kernel) h

/-- Both forms agree. -/
theorem forms_agree (E : Embedded) (serverKey : Option String) (undecoded : List UInt8 → PyExc)
    (H : HttpExecutor) (req : Request) (s : Served) (hT : H.transport.Documented)
    (hkey : serverKey = none ∨ H.apiKey = serverKey) (hreq : req.Sendable H.transport)
    (hanswers : E.services.Answers req s) :
    let here := LocalExecutor.execute E.services req s
    let there := H.execute E.services serverKey undecoded req s
    there.1 = here.1 ∧
    ((req.op = .query → req.asTask = false) → ∀ a, here.2 = .ok a → there.2 = .ok a) ∧
    (req.op = .query → req.asTask = true → ∀ a, here.2 = .ok a →
      ∃ t, a = .task t ∧ there.2 = .ok (.value (Py.ofJson (.obj t.toWire)))) ∧
    (∀ c text, here.2 = .error ⟨.seekbase c, text⟩ → there.2 = .error ⟨.seekbase c, text⟩) ∧
    (∀ name text, here.2 = .error ⟨.foreign name, text⟩ →
      there.2 = .error ⟨.seekbase .seekbaseError, text⟩) ∧
    ∀ e, here.2 = .error e → ∃ c, there.2 = .error ⟨.seekbase c, e.message⟩ := by
  intro here there
  have heq : there = (here.1, (here.2.map req.overWire).mapError PyExc.surface) :=
    http_eq hT hkey hreq hanswers
  have hok : ∀ a, here.2 = .ok a → there.2 = .ok (req.overWire a) := by
    intro a ha
    rw [heq, ha]
    rfl
  have herror : ∀ e, here.2 = .error e → there.2 = .error e.surface := by
    intro e he
    rw [heq, he]
    rfl
  refine ⟨by rw [heq], ?_, ?_, ?_, ?_, ?_⟩
  · intro hop a ha
    rw [hok a ha, overWire_same hop ha]
  · intro hop hask a ha
    obtain ⟨t, rfl⟩ := detached_task hop hask ha
    refine ⟨t, rfl, ?_⟩
    rw [hok _ ha, Request.overWire, if_pos hop]
  · intro c text he
    rw [herror _ he, surface_seekbase]
  · intro name text he
    exact herror _ he
  · intro e he
    exact ⟨_, herror e he⟩

/-! ## A database of notes, in both forms -/

/-- The value a cell is fetched as. -/
def Cell.py : Cell → Py
  | .null => .none
  | .varchar s => .str s
  | .bigint i => .int i
  | .other s => .str s

/-- The ids of the live notes, whatever is asked. -/
def readIds (_ : ReadArgs) (s : Served) : Served × Except PyExc (List PyRow) :=
  (s, .ok ((visible none none (s.db.tables "notes")).map fun r => [("id", r.key.py)]))

def noteDb : Embedded where
  env := plainEnv
  schema := notesSchema
  stamp _ := ⟨"20240101", "2024-01-01T08:00:00", by decide⟩
  hex n := "00000000000" ++ n.repr
  read := readIds
  within _ _ _ := true
  recent _ := .ok []
  settle _ s := s
  raised
    | .constraint => ⟨.foreign "ConstraintException", "NOT NULL constraint failed: t_notes.id"⟩
    | _ => ⟨.foreign "ConversionException", "Could not convert"⟩
  misuse _ := ⟨.foreign "TypeError", "object is not iterable"⟩

def Served.init : Served := ⟨.init, fun _ => [], fun _ => none, [], 0⟩

/-- An app in the client's own process: `httpx.ASGITransport`. -/
def inProcess : Transport where
  body j := .ok (Utf8.encode (dumpsAscii j))
  path p := p
  crash e := e

theorem inProcess_documented : inProcess.Documented where
  body m _ := by
    have hhead : (Utf8.encode (dumpsAscii (.obj m))).head? = some 123 := rfl
    refine ⟨_, rfl, ?_, ?_⟩
    · intro hnil
      rw [hnil] at hhead
      cases hhead
    · exact loadsBytes_dumps run_escAscii m
  path _ _ _ _ := rfl

def keyed : HttpExecutor := ⟨some "k", inProcess⟩

def noDecode (_ : List UInt8) : PyExc := ⟨.foreign "JSONDecodeError", "Expecting value"⟩

/-- A request of this operation and no content. -/
def emptyRequest (op : ReqOp) : Request := ⟨op, none, [], none, none, none, [], none, false, none⟩

def insertNote : Request := {
  emptyRequest .insert with
  table := some "notes"
  rows := [[("id", .str "a"), ("text", .str "hi")]] }

def unknownStatus : Request := { emptyRequest .status with ticket := some "tk_20240101_ab" }

/-- An insert returns the same task in both forms, and the status of an unknown one is the same error. -/
theorem forms_agree_notes :
    (∃ t, t.op = "insert" ∧ (keyed.execute noteDb.services (some "k") noDecode insertNote .init).2
      = .ok (.task t)) ∧
    (keyed.execute noteDb.services (some "k") noDecode unknownStatus .init).2
      = .error ⟨.seekbase .notFound, "unknown task 'tk_20240101_ab'"⟩ := by
  refine ⟨?_, ?_⟩
  · have hsend : insertNote.Sendable inProcess := by
      refine ⟨by simp [insertNote, emptyRequest], ?_, by simp [insertNote, emptyRequest]⟩
      intro row hrow
      obtain rfl := List.mem_singleton.mp hrow
      rfl
    have hanswers : noteDb.services.Answers insertNote .init :=
      ⟨by simp [insertNote, emptyRequest], by simp [insertNote, emptyRequest]⟩
    have hagree := forms_agree noteDb (some "k") noDecode keyed insertNote .init inProcess_documented
      (Or.inr rfl) hsend hanswers
    exact ⟨_, rfl, hagree.2.1 (by simp [insertNote, emptyRequest]) _ rfl⟩
  · have hsend : unknownStatus.Sendable inProcess := by
      refine ⟨by simp [unknownStatus, emptyRequest], by simp [unknownStatus, emptyRequest], fun _ => ?_⟩
      exact ⟨_, rfl, carries_id inProcess_documented ⟨by decide, by decide⟩ (by decide) (by decide +kernel)⟩
    have hanswers : noteDb.services.Answers unknownStatus .init :=
      ⟨by simp [unknownStatus, emptyRequest], by simp [unknownStatus, emptyRequest]⟩
    have hagree := forms_agree noteDb (some "k") noDecode keyed unknownStatus .init inProcess_documented
      (Or.inr rfl) hsend hanswers
    exact hagree.2.2.2.1 _ _ rfl

/-- A note without its primary key. -/
def keylessNote : Request := { insertNote with rows := [[("text", .str "hi")]] }

def queryTask : Request := {
  emptyRequest .query with
  sql := some "SELECT id FROM notes"
  asTask := true }

/-- What DuckDB raises on a NULL key is another class in the remote form, and a query asked for as a task
is a task in one form and a dict in the other. -/
theorem forms_differ :
    (inProcess.Documented ∧ keylessNote.Sendable inProcess ∧ noteDb.services.Answers keylessNote .init ∧
      (LocalExecutor.execute noteDb.services keylessNote .init).2
        = .error ⟨.foreign "ConstraintException", "NOT NULL constraint failed: t_notes.id"⟩ ∧
      (keyed.execute noteDb.services (some "k") noDecode keylessNote .init).2
        = .error ⟨.seekbase .seekbaseError, "NOT NULL constraint failed: t_notes.id"⟩) ∧
    queryTask.Sendable inProcess ∧ noteDb.services.Answers queryTask .init ∧
    ∃ t, (LocalExecutor.execute noteDb.services queryTask .init).2 = .ok (.task t) ∧
      (keyed.execute noteDb.services (some "k") noDecode queryTask .init).2
        = .ok (.value (Py.ofJson (.obj t.toWire))) := by
  have hsend : keylessNote.Sendable inProcess := by
    refine ⟨by simp [keylessNote, insertNote, emptyRequest], ?_,
      by simp [keylessNote, insertNote, emptyRequest]⟩
    intro row hrow
    obtain rfl := List.mem_singleton.mp hrow
    rfl
  have hanswers : noteDb.services.Answers keylessNote .init :=
    ⟨by simp [keylessNote, insertNote, emptyRequest], by simp [keylessNote, insertNote, emptyRequest]⟩
  have hquery : queryTask.Sendable inProcess :=
    ⟨by simp [queryTask, emptyRequest], by simp [queryTask, emptyRequest],
      by simp [queryTask, emptyRequest]⟩
  have htask : noteDb.services.Answers queryTask .init :=
    ⟨by simp [queryTask, emptyRequest], by simp [queryTask, emptyRequest]⟩
  refine ⟨⟨inProcess_documented, hsend, hanswers, rfl, ?_⟩, hquery, htask, _, rfl, ?_⟩
  · have heq : keyed.execute noteDb.services (some "k") noDecode keylessNote .init = _ :=
      http_eq inProcess_documented (Or.inr rfl) hsend hanswers
    rw [heq]
    rfl
  · have heq : keyed.execute noteDb.services (some "k") noDecode queryTask .init = _ :=
      http_eq inProcess_documented (Or.inr rfl) hquery htask
    rw [heq]
    rfl

end Seekbase
