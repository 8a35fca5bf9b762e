/-
# Seekbase.Remote — one request, run by the local executor or sent over HTTP to the server's app.

The local executor calls a service and returns what the service returns.  The remote one writes the
request's fields into a JSON body, the app routes it, the handler calls the SAME service, the reply is
JSON again, and the client rebuilds the value or the exception from it.  Two things change on the way
by design: an exception of a class that the table does not know comes back as a `SeekbaseError` with its
text, and a query that is asked for as a task comes back as the task's dict.

* `Services`                — what the executors call, with what the services promise of their tasks;
* `LocalExecutor.execute`, `HttpExecutor.execute`, `app` — `client.py`, `api/remote.py`, `server.py`;
* `call_eq`                 — one call of the app, once its request is delivered;
* `http_eq`                 — the remote executor is the local one, up to `PyExc.surface` and `overWire`;
                              `Forms` puts the services of an opened database in.

Not modelled: the bytes of the headers; what a transport does with a path it does not carry is a
parameter, as is the exception a client gets where the app itself raises.
-/
import Seekbase.Route
import Seekbase.Wire
import Seekbase.Jsonl

namespace Seekbase

open JsonText

/-! ## Requests and services -/

inductive ReqOp where
  | query
  | insert
  | delete
  | status
  | taskResult
  | taskCancel
  | rebuild
  deriving DecidableEq

structure Request where
  op : ReqOp
  sql : Option String
  params : List Json
  dsStart : Option String
  dsEnd : Option String
  table : Option String
  rows : List Members
  whereText : Option String
  asTask : Bool
  ticket : Option String

/-- The arguments of `read.query`. -/
structure ReadArgs where
  sql : Json
  params : Json
  dsStart : Json
  dsEnd : Json

/-- The calls of the services that return a task. -/
inductive TaskCall where
  | submit (args : ReadArgs)
  | adopt (args : ReadArgs)
  | insert (table rows : Json)
  | delete (table whereText params : Json)
  | status (id : Json)
  | cancel (id : Json)
  | rebuild

/-- The services over a state of the server. -/
structure Services (σ : Type) where
  query : ReadArgs → σ → σ × Except PyExc (List PyRow)
  /-- The query has settled before this many milliseconds. -/
  within : ReadArgs → Json → σ → Bool
  result : Json → σ → σ × Except PyExc (List Json)
  list : σ → σ × Except PyExc (List Task)
  task : TaskCall → σ → σ × Except PyExc Task
  made : ∀ c s t, (task c s).2 = .ok t → t.Made

/-- What an executor returns. -/
inductive Returned where
  | value (v : Py)
  | task (t : Task)

section Executors

variable {σ : Type} {α β : Type}

/-- What is made of a service's result; the state is the one the service left. -/
def andThen (r : σ × Except PyExc α) (f : α → Except PyExc β) : σ × Except PyExc β := (r.1, r.2.bind f)

def Request.readArgs (req : Request) : ReadArgs :=
  ⟨optText req.sql, .arr req.params, optText req.dsStart, optText req.dsEnd⟩

/-- `{"rows": …}`, of rows that are JSON already. -/
def jsonRows (rows : List Json) : Py := .dict [("rows", .list (Py.ofItems rows))]

/-- `LocalExecutor.execute`. -/
def LocalExecutor.execute (S : Services σ) (req : Request) (s : σ) : σ × Except PyExc Returned :=
  match req.op with
  | .query =>
    if req.asTask then andThen (S.task (.submit req.readArgs) s) fun t => .ok (.task t)
    else andThen (S.query req.readArgs s) fun rows => .ok (.value (rowsDict rows))
  | .insert =>
    andThen (S.task (.insert (optText req.table) (.arr (req.rows.map .obj))) s) fun t => .ok (.task t)
  | .delete =>
    andThen (S.task (.delete (optText req.table) (optText req.whereText) (.arr req.params)) s)
      fun t => .ok (.task t)
  | .status => andThen (S.task (.status (optText req.ticket)) s) fun t => .ok (.task t)
  | .taskResult => andThen (S.result (optText req.ticket) s) fun rows => .ok (.value (jsonRows rows))
  | .taskCancel => andThen (S.task (.cancel (optText req.ticket)) s) fun t => .ok (.task t)
  | .rebuild => andThen (S.task .rebuild s) fun t => .ok (.task t)

/-! ## The server -/

/-- Python's name of a decoded value's type. -/
def jsonType : Json → String
  | .null => "NoneType"
  | .bool _ => "bool"
  | .int _ => "int"
  | .dec _ | .nan | .inf | .negInf => "float"
  | .str _ => "str"
  | .arr _ => "list"
  | .obj _ => "dict"

/-- The `AttributeError` of `v.get`, of a value that is no dict. -/
def noGet (v : Json) : PyExc :=
  ⟨.foreign "AttributeError", "'" ++ jsonType v ++ "' object has no attribute 'get'"⟩

/-- `body.get(name, default)`. -/
def dictGetD (body : Json) (name : String) (default : Json) : Except PyExc Json :=
  match body with
  | .obj m => .ok ((lookup name m).getD default)
  | v => .error (noGet v)

/-- `body.get(name)`. -/
def dictGet (body : Json) (name : String) : Except PyExc Json := dictGetD body name .null

/-- `x or []`. -/
def orEmpty (x : Json) : Json := if truthy x then x else .arr []

/-- The arguments of `query.py`: those of the query, `as_task` and `wait_ms`. -/
def queryArgs (body : Json) : Except PyExc (ReadArgs × Json × Json) := do
  let sql ← dictGet body "sql"
  let params ← dictGet body "params"
  let dsStart ← dictGet body "ds_start"
  let dsEnd ← dictGet body "ds_end"
  let asTask ← dictGet body "as_task"
  let waitMs ← dictGetD body "wait_ms" (.int 5000)
  pure (⟨sql, orEmpty params, dsStart, dsEnd⟩, asTask, waitMs)

def insertArgs (body : Json) : Except PyExc (Json × Json) := do
  let table ← dictGet body "table"
  let rows ← dictGet body "rows"
  pure (table, orEmpty rows)

def deleteArgs (body : Json) : Except PyExc (Json × Json × Json) := do
  let table ← dictGet body "table"
  let whereText ← dictGet body "where"
  let params ← dictGet body "params"
  pure (table, whereText, orEmpty params)

/-- A status and `task.to_wire()`. -/
def taskReply (status : Nat) (t : Task) : Except PyExc (Nat × Py) :=
  .ok (status, .dict (Py.ofMembers t.toWire))

/-- `params[name]`, of a route that has it. -/
def pathParam (params : PathParams) (name : String) : Json := .str ((lookup name params).getD "")

/-- The handlers. -/
def Endpoint.handle (S : Services σ) (ep : Endpoint) (body : Json) (params : PathParams) (s : σ) :
    σ × Except PyExc (Nat × Py) :=
  match ep with
  | .query =>
    match queryArgs body with
    | .error e => (s, .error e)
    | .ok (args, asTask, waitMs) =>
      if truthy asTask then andThen (S.task (.submit args) s) (taskReply 202)
      else if S.within args waitMs s then andThen (S.query args s) fun rows => .ok (200, rowsDict rows)
      -- still running: the query is adopted where it is
      else andThen (S.task (.adopt args) s) (taskReply 202)
  | .insert =>
    match insertArgs body with
    | .error e => (s, .error e)
    | .ok (table, rows) => andThen (S.task (.insert table rows) s) (taskReply 200)
  | .delete =>
    match deleteArgs body with
    | .error e => (s, .error e)
    | .ok (table, whereText, ps) => andThen (S.task (.delete table whereText ps) s) (taskReply 200)
  | .result => andThen (S.result (pathParam params "id") s) fun rows => .ok (200, jsonRows rows)
  | .cancel => andThen (S.task (.cancel (pathParam params "id")) s) (taskReply 200)
  | .status => andThen (S.task (.status (pathParam params "id")) s) (taskReply 200)
  | .list =>
    andThen (S.list s) fun ts =>
      .ok (200, .dict [("tasks", .list (ts.map fun t => .dict (Py.ofMembers t.toWire)))])
  | .writes => andThen (S.task (.status (pathParam params "ticket")) s) (taskReply 200)
  | .rebuild => andThen (S.task .rebuild s) (taskReply 200)
  | .health => (s, .ok (200, .dict [("ready", .bool true)]))

structure HttpRequest where
  method : String
  path : List Char
  authorization : Option String
  body : List UInt8

structure HttpResponse where
  status : Nat
  body : List UInt8

/-- `_send_json`. -/
def sendJson (status : Nat) (obj : Py) : Except PyExc HttpResponse :=
  obj.toJson.map fun j => ⟨status, Utf8.encode (dumpsAscii j)⟩

/-- `{"error": …}`. -/
def errorDict (err : Members) : Py := .dict [("error", .dict (Py.ofMembers err))]

/-- What the app sends for what a handler returned or raised.  Only a handler's exceptions are caught:
what `_send_json` raises on a result leaves the app. -/
def respond : Except PyExc (Nat × Py) → Except PyExc HttpResponse
  | .ok (status, result) => sendJson status result
  | .error e => sendJson (statusFor e) (errorDict (errorBody e))

/-- Another key than the server's. -/
def badKey (serverKey authorization : Option String) : Bool :=
  match serverKey with
  | none => false
  | some key => authorization.getD "" ≠ "Bearer " ++ key

section Wired

variable (S : Services σ) (serverKey : Option String)
  -- the `JSONDecodeError` of bytes that are no JSON
  (undecoded : List UInt8 → PyExc)

/-- `json.loads` of bytes. -/
def loadsBody (bs : List UInt8) : Except PyExc Json :=
  match loadsBytes bs with
  | some j => .ok j
  | none => .error (undecoded bs)

/-- `_read_json`. -/
def readJson (bs : List UInt8) : Except PyExc Json := if bs = [] then .ok (.obj []) else loadsBody undecoded bs

/-- The ASGI app. -/
def app (r : HttpRequest) (s : σ) : σ × Except PyExc HttpResponse :=
  if badKey serverKey r.authorization then
    (s, sendJson 401 (errorDict [("type", .str "Unauthorized"), ("message", .str "bad api key")]))
  else
    match resolve r.method r.path with
    | none =>
      (s, sendJson 404 (errorDict [("type", .str "NotFound"), ("message", .str (String.ofList r.path))]))
    | some (ep, params) =>
      match (if r.method = "POST" then readJson undecoded r.body else .ok (.obj [])) with
      | .error e => (s, .error e)
      | .ok body => let out := ep.handle S body params s; (out.1, respond out.2)

/-! ## The client -/

/-- What lies between the client and the app. -/
structure Transport where
  /-- The bytes of a JSON body. -/
  body : Json → Except PyExc (List UInt8)
  /-- The path the app gets for a path in the URL. -/
  path : List Char → List Char
  /-- What the client raises where the app raised. -/
  crash : PyExc → PyExc

structure HttpExecutor where
  apiKey : Option String
  transport : Transport

/-- `_unwrap`. -/
def unwrap (resp : HttpResponse) : Except PyExc Json := do
  let data ← loadsBody undecoded resp.body
  if resp.status ≥ 400 then
    match ← dictGetD data "error" (.obj []) with
    | .obj err => .error (exceptionFrom err)
    | v => .error (noGet v)
  else pure data

/-- What the client makes of what the app did. -/
def Transport.receive (T : Transport) : Except PyExc HttpResponse → Except PyExc Json
  | .error e => .error (T.crash e)
  | .ok resp => unwrap undecoded resp

/-- One request of the client. -/
def HttpExecutor.call (H : HttpExecutor) (method : String) (path : List Char) (body : Option Json)
    (s : σ) : σ × Except PyExc Json :=
  match body.elim (.ok []) H.transport.body with
  | .error e => (s, .error e)
  | .ok bs =>
    let out := app S serverKey undecoded
      ⟨method, H.transport.path path, H.apiKey.map ("Bearer " ++ ·), bs⟩ s
    (out.1, H.transport.receive undecoded out.2)

/-- `Task.from_wire` of a decoded reply. -/
def taskOf : Json → Except PyExc Returned
  | .obj d => (Task.fromWire d).map .task
  | v => .error (noGet v)

def valueOf (data : Json) : Except PyExc Returned := .ok (.value (Py.ofJson data))

/-- The body of a query. -/
def Request.queryBody (req : Request) : Json :=
  .obj ([("sql", optText req.sql), ("params", .arr req.params), ("ds_start", optText req.dsStart),
    ("ds_end", optText req.dsEnd)] ++ if req.asTask then [("as_task", .bool true)] else [])

def Request.insertBody (req : Request) : Json :=
  .obj [("table", optText req.table), ("rows", .arr (req.rows.map .obj))]

def Request.deleteBody (req : Request) : Json :=
  .obj [("table", optText req.table), ("where", optText req.whereText), ("params", .arr req.params)]

/-- A ticket as an f-string shows it. -/
def Request.ticketText (req : Request) : List Char := (req.ticket.getD "None").toList

/-- `HttpExecutor.execute`. -/
def HttpExecutor.execute (H : HttpExecutor) (req : Request) (s : σ) : σ × Except PyExc Returned :=
  let call := H.call S serverKey undecoded
  match req.op with
  | .query => andThen (call "POST" "/v1/query".toList (some req.queryBody) s) valueOf
  | .insert => andThen (call "POST" "/v1/insert".toList (some req.insertBody) s) taskOf
  | .delete => andThen (call "POST" "/v1/delete".toList (some req.deleteBody) s) taskOf
  | .status => andThen (call "GET" (statusPath req.ticketText) none s) taskOf
  | .taskResult => andThen (call "GET" (resultPath req.ticketText) none s) valueOf
  | .taskCancel => andThen (call "POST" (cancelPath req.ticketText) (some (.obj [])) s) taskOf
  | .rebuild => andThen (call "POST" "/v1/rebuild".toList (some (.obj [])) s) taskOf

end Wired

/-! ## Delivery -/

mutual
/-- Strict JSON: no NaN and no infinity. -/
def finite : Json → Bool
  | .nan | .inf | .negInf => false
  | .arr xs => finiteItems xs
  | .obj ms => finiteMembers ms
  | _ => true
def finiteItems : List Json → Bool
  | [] => true
  | x :: xs => finite x && finiteItems xs
def finiteMembers : List (String × Json) → Bool
  | [] => true
  | (_, v) :: ms => finite v && finiteMembers ms
end

/-- A character of the API's paths and of the ids. -/
def pathChar (c : Char) : Bool := isIdentChar c || c == '-' || c == '/'

/-- What the client and the app rely on: a dict of strict JSON arrives as bytes that decode to it, and a
path of the API of such characters arrives as it is. -/
structure Transport.Documented (T : Transport) : Prop where
  body : ∀ m, finite (.obj m) = true →
    ∃ bs, T.body (.obj m) = .ok bs ∧ bs ≠ [] ∧ loadsBytes bs = some (.obj m)
  path : ∀ p, "/v1/".toList <+: p → p.length ≤ 1000 → p.all pathChar = true → T.path p = p

/-- A ticket the URL carries, as one segment of the path. -/
structure Transport.Carries (T : Transport) (id : List Char) : Prop where
  segment : IsSegment id
  status : T.path (statusPath id) = statusPath id
  result : T.path (resultPath id) = resultPath id
  cancel : T.path (cancelPath id) = cancelPath id

/-- A request of JSON content, whose ticket the URL carries if its operation is about one. -/
structure Request.Sendable (T : Transport) (req : Request) : Prop where
  params : ∀ p ∈ req.params, finite p = true
  rows : ∀ row ∈ req.rows, finite (.obj row) = true
  ticket : req.op ∈ [ReqOp.status, .taskResult, .taskCancel] →
    ∃ id, req.ticket = some id ∧ T.Carries id.toList

/-- A query that is not asked for as a task answers within the server's `wait_ms`, with cells of columns
of types that JSON has. -/
structure Services.Answers (S : Services σ) (req : Request) (s : σ) : Prop where
  within : req.op = .query → req.asTask = false → S.within req.readArgs (.int 5000) s = true
  cells : req.op = .query → req.asTask = false → ∀ rows, (S.query req.readArgs s).2 = .ok rows → InJson rows

/-- A task of a query that is asked for as a task stays the dict it is on the wire. -/
def Request.overWire (req : Request) : Returned → Returned
  | .task t => if req.op = .query then .value (Py.ofJson (.obj t.toWire)) else .task t
  | .value v => .value v

/-! ## One call -/

section Calls

variable {S : Services σ} {serverKey : Option String} {undecoded : List UInt8 → PyExc}
  {H : HttpExecutor} {T : Transport} {req : Request} {s : σ}

theorem loadsBody_dict (m : Members) :
    loadsBody undecoded (Utf8.encode (dumpsAscii (.obj m))) = .ok (.obj m) := by
  have hread : loadsBytes (Utf8.encode (dumpsAscii (.obj m))) = some (.obj m) :=
    loadsBytes_dumps run_escAscii m
  rw [loadsBody, hread]

/-- What the app sends with a status below 400 is the value of the call. -/
theorem receive_ok {status : Nat} {v : Py} {m : Members} (hv : v.toJson = .ok (.obj m))
    (hstatus : status < 400) : T.receive undecoded (respond (.ok (status, v))) = .ok (.obj m) := by
  have hsend : respond (.ok (status, v)) = .ok ⟨status, Utf8.encode (dumpsAscii (.obj m))⟩ := by
    rw [respond, sendJson, hv]
    rfl
  rw [hsend, Transport.receive, unwrap, loadsBody_dict]
  show (if status ≥ 400 then _ else _) = _
  rw [if_neg (by omega)]
  rfl

/-- What a handler raised comes back as its class on the wire says, with its text. -/
theorem receive_error (e : PyExc) : T.receive undecoded (respond (.error e)) = .error e.surface := by
  have hjson : (errorDict (errorBody e)).toJson = .ok (.obj [("error", .obj (errorBody e))]) := by
    rw [errorDict, Py.toJson, Py.membersJson, Py.toJson, membersJson_ofMembers, Py.membersJson]
    rfl
  have hsend : respond (.error e)
      = .ok ⟨statusFor e, Utf8.encode (dumpsAscii (.obj [("error", .obj (errorBody e))]))⟩ := by
    rw [respond, sendJson, hjson]
    rfl
  rw [hsend, Transport.receive, unwrap, loadsBody_dict]
  show (if statusFor e ≥ 400 then _ else _) = _
  rw [if_pos (status_ge e)]
  rfl

/-- A result crosses, and so does an exception, once the value it is sent as is JSON. -/
theorem receive_bind {r : Except PyExc α} {f : α → Except PyExc (Nat × Py)}
    {g : Json → Except PyExc Returned} {k : α → Returned}
    (h : ∀ a, r = .ok a → ∃ status v m, f a = .ok (status, v) ∧ status < 400
      ∧ v.toJson = .ok (.obj m) ∧ g (.obj m) = .ok (k a)) :
    (T.receive undecoded (respond (r.bind f))).bind g = (r.map k).mapError PyExc.surface := by
  cases r with
  | error e =>
    show (T.receive undecoded (respond (.error e))).bind g = _
    rw [receive_error]
    rfl
  | ok a =>
    obtain ⟨status, v, m, hf, hstatus, hv, hg⟩ := h a rfl
    show (T.receive undecoded (respond (f a))).bind g = _
    rw [hf, receive_ok hv hstatus]
    exact hg

/-- One call, once its body is written, its path carried and its endpoint found: the handler's result,
sent and received. -/
theorem call_eq {method : String} {path : List Char} {body : Option Json} {bs : List UInt8}
    {ep : Endpoint} {params : PathParams} {b : Json}
    (hkey : serverKey = none ∨ H.apiKey = serverKey)
    (hbody : body.elim (.ok []) H.transport.body = .ok bs) (hpath : H.transport.path path = path)
    (hroute : resolve method path = some (ep, params))
    (hread : (if method = "POST" then readJson undecoded bs else .ok (.obj [])) = .ok b) :
    H.call S serverKey undecoded method path body s
      = ((ep.handle S b params s).1,
          H.transport.receive undecoded (respond (ep.handle S b params s).2)) := by
  have hgood : badKey serverKey (H.apiKey.map ("Bearer " ++ ·)) = false := by
    cases serverKey with
    | none => rfl
    | some key =>
      have heq : H.apiKey = some key := hkey.resolve_left (by simp)
      simp [badKey, heq]
  rw [HttpExecutor.call, hbody]
  simp only [app, hgood, Bool.false_eq_true, if_false, hpath, hroute, hread]

theorem post_eq {path : List Char} {m : Members} {ep : Endpoint} {params : PathParams}
    (hT : H.transport.Documented) (hkey : serverKey = none ∨ H.apiKey = serverKey)
    (hfinite : finite (.obj m) = true) (hpath : H.transport.path path = path)
    (hroute : resolve "POST" path = some (ep, params)) :
    H.call S serverKey undecoded "POST" path (some (.obj m)) s
      = ((ep.handle S (.obj m) params s).1,
          H.transport.receive undecoded (respond (ep.handle S (.obj m) params s).2)) := by
  obtain ⟨bs, hbs, hne, hback⟩ := hT.body m hfinite
  refine call_eq hkey hbs hpath hroute ?_
  rw [if_pos rfl, readJson, if_neg hne, loadsBody, hback]

theorem get_eq {path : List Char} {ep : Endpoint} {params : PathParams}
    (hkey : serverKey = none ∨ H.apiKey = serverKey) (hpath : H.transport.path path = path)
    (hroute : resolve "GET" path = some (ep, params)) :
    H.call S serverKey undecoded "GET" path none s
      = ((ep.handle S (.obj []) params s).1,
          H.transport.receive undecoded (respond (ep.handle S (.obj []) params s).2)) := by
  refine call_eq hkey rfl hpath hroute ?_
  rw [if_neg (by decide)]

/-- The routes without a parameter are carried. -/
theorem fixed_carried (hT : H.transport.Documented) (ep : Endpoint)
    (h : ep ∈ [Endpoint.query, .insert, .delete, .list, .rebuild]) :
    H.transport.path ep.path.toList = ep.path.toList := by
  have hplain : "/v1/".toList <+: ep.path.toList ∧ ep.path.toList.length ≤ 1000
      ∧ ep.path.toList.all pathChar = true := by
    revert ep
    decide +kernel
  exact hT.path _ hplain.1 hplain.2.1 hplain.2.2

end Calls

/-! ## Bodies -/

theorem finiteItems_iff (xs : List Json) : finiteItems xs = true ↔ ∀ x ∈ xs, finite x = true := by
  induction xs with
  | nil => simp [finiteItems]
  | cons x xs ih => simp [finiteItems, ih]

theorem finite_optText (v : Option String) : finite (optText v) = true := by
  cases v <;> rfl

theorem orEmpty_arr (xs : List Json) : orEmpty (.arr xs) = .arr xs := by
  cases xs <;> simp [orEmpty, truthy]

section Bodies

variable {req : Request}

theorem finite_queryBody (h : ∀ p ∈ req.params, finite p = true) : finite req.queryBody = true := by
  have hparams : finiteItems req.params = true := (finiteItems_iff _).mpr h
  cases hask : req.asTask <;>
    simp [Request.queryBody, hask, finite, finiteMembers, finite_optText, hparams]

theorem queryArgs_queryBody :
    queryArgs req.queryBody = .ok (req.readArgs, if req.asTask then .bool true else .null, .int 5000) := by
  cases hask : req.asTask <;>
    simp [Request.queryBody, hask, queryArgs, dictGet, dictGetD, lookup, orEmpty_arr, Request.readArgs,
      bind, Except.bind, pure, Except.pure]

theorem finite_insertBody (h : ∀ row ∈ req.rows, finite (.obj row) = true) :
    finite req.insertBody = true := by
  have hrows : finiteItems (req.rows.map .obj) = true := by
    rw [finiteItems_iff]
    simpa using h
  simp [Request.insertBody, finite, finiteMembers, finite_optText, hrows]

theorem insertArgs_insertBody :
    insertArgs req.insertBody = .ok (optText req.table, .arr (req.rows.map .obj)) := by
  simp [Request.insertBody, insertArgs, dictGet, dictGetD, lookup, orEmpty_arr, bind, Except.bind, pure,
    Except.pure]

theorem finite_deleteBody (h : ∀ p ∈ req.params, finite p = true) : finite req.deleteBody = true := by
  have hparams : finiteItems req.params = true := (finiteItems_iff _).mpr h
  simp [Request.deleteBody, finite, finiteMembers, finite_optText, hparams]

theorem deleteArgs_deleteBody :
    deleteArgs req.deleteBody = .ok (optText req.table, optText req.whereText, .arr req.params) := by
  simp [Request.deleteBody, deleteArgs, dictGet, dictGetD, lookup, orEmpty_arr, bind, Except.bind, pure,
    Except.pure]

end Bodies

/-! ## Both forms -/

section Forms

variable {S : Services σ} {serverKey : Option String} {undecoded : List UInt8 → PyExc}
  {H : HttpExecutor} {T : Transport} {req : Request} {s : σ}

theorem wireDict_toJson (t : Task) : (Py.dict (Py.ofMembers t.toWire)).toJson = .ok (.obj t.toWire) :=
  toJson_ofJson (.obj t.toWire)

theorem valueOf_toJson {v : Py} {j : Json} (h : v.toJson = .ok j) : valueOf j = .ok (.value v) := by
  rw [valueOf, ofJson_toJson h]

theorem rowsDict_crosses {rows : List PyRow} (h : InJson rows) :
    ∃ m, (rowsDict rows).toJson = .ok (.obj m) ∧ valueOf (.obj m) = .ok (.value (rowsDict rows)) := by
  obtain ⟨m, hm⟩ := rowsDict_toJson h
  exact ⟨m, hm, valueOf_toJson hm⟩

theorem jsonRows_toJson (rows : List Json) : (jsonRows rows).toJson = .ok (.obj [("rows", .arr rows)]) :=
  toJson_ofJson (.obj [("rows", .arr rows)])

/-- The executors agree on an operation when the handler calls the service that the local executor
calls, and what it sends of the result is what the client reads. -/
theorem form_eq {r : σ × Except PyExc α} {f : α → Except PyExc (Nat × Py)}
    {g : Json → Except PyExc Returned} {k : α → Returned} {call : σ × Except PyExc Json}
    {handled : σ × Except PyExc (Nat × Py)}
    (hcall : call = (handled.1, T.receive undecoded (respond handled.2)))
    (hhandled : handled = andThen r f)
    (hlocal : LocalExecutor.execute S req s = andThen r fun a => .ok (k a))
    (hcross : ∀ a, r.2 = .ok a → ∃ status v m, f a = .ok (status, v) ∧ status < 400
      ∧ v.toJson = .ok (.obj m) ∧ g (.obj m) = .ok (req.overWire (k a))) :
    andThen call g = ((LocalExecutor.execute S req s).1,
      ((LocalExecutor.execute S req s).2.map req.overWire).mapError PyExc.surface) := by
  have hresult : (r.2.bind fun a => .ok (k a)).map req.overWire = r.2.map fun a => req.overWire (k a) := by
    cases r.2 <;> rfl
  rw [hcall, hhandled, hlocal]
  show (r.1, (T.receive undecoded (respond (r.2.bind f))).bind g) = _
  rw [receive_bind hcross]
  show _ = (r.1, ((r.2.bind fun a => .ok (k a)).map req.overWire).mapError PyExc.surface)
  rw [hresult]

/-- An operation whose task the client rebuilds. -/
theorem task_form {c : TaskCall} {call : σ × Except PyExc Json} {handled : σ × Except PyExc (Nat × Py)}
    (hop : req.op ≠ .query)
    (hcall : call = (handled.1, T.receive undecoded (respond handled.2)))
    (hhandled : handled = andThen (S.task c s) (taskReply 200))
    (hlocal : LocalExecutor.execute S req s = andThen (S.task c s) fun t => .ok (.task t)) :
    andThen call taskOf = ((LocalExecutor.execute S req s).1,
      ((LocalExecutor.execute S req s).2.map req.overWire).mapError PyExc.surface) := by
  refine form_eq hcall hhandled hlocal fun t ht => ?_
  refine ⟨200, _, _, rfl, by omega, wireDict_toJson t, ?_⟩
  have hover : req.overWire (.task t) = .task t := if_neg hop
  rw [taskOf, fromWire_toWire (S.made c s t ht), hover]
  rfl

theorem ticketText_eq {id : String} (h : req.ticket = some id) : req.ticketText = id.toList := by
  rw [Request.ticketText, h]
  rfl

/-- Executing over HTTP is executing locally, up to what the wire does by design. -/
theorem http_eq (hT : H.transport.Documented) (hkey : serverKey = none ∨ H.apiKey = serverKey)
    (hreq : req.Sendable H.transport) (hanswers : S.Answers req s) :
    H.execute S serverKey undecoded req s
      = ((LocalExecutor.execute S req s).1,
          ((LocalExecutor.execute S req s).2.map req.overWire).mapError PyExc.surface) := by
  have hfixed := fixed_carried (H := H) hT
  have hpost {path : List Char} {m : Members} {ep : Endpoint} {params : PathParams}
      (hfinite : finite (.obj m) = true) (hpath : H.transport.path path = path)
      (hroute : resolve "POST" path = some (ep, params)) :
      H.call S serverKey undecoded "POST" path (some (.obj m)) s
        = ((ep.handle S (.obj m) params s).1,
            H.transport.receive undecoded (respond (ep.handle S (.obj m) params s).2)) :=
    post_eq hT hkey hfinite hpath hroute
  have hget {path : List Char} {ep : Endpoint} {params : PathParams}
      (hpath : H.transport.path path = path) (hroute : resolve "GET" path = some (ep, params)) :
      H.call S serverKey undecoded "GET" path none s
        = ((ep.handle S (.obj []) params s).1,
            H.transport.receive undecoded (respond (ep.handle S (.obj []) params s).2)) :=
    get_eq hkey hpath hroute
  have hempty : finite (.obj []) = true := rfl
  rw [HttpExecutor.execute]
  cases hop : req.op with
  | query =>
    have hcall := hpost (finite_queryBody hreq.params) (hfixed .query (by decide))
      (resolve_fixed .query (by decide))
    cases hask : req.asTask with
    | true =>
      have hhandled : Endpoint.query.handle S req.queryBody [] s
          = andThen (S.task (.submit req.readArgs) s) (taskReply 202) := by
        simp only [Endpoint.handle, queryArgs_queryBody, hask]
        rfl
      have hlocal : LocalExecutor.execute S req s
          = andThen (S.task (.submit req.readArgs) s) fun t => .ok (.task t) := by
        simp only [LocalExecutor.execute, hop, hask, if_true]
      refine form_eq hcall hhandled hlocal fun t ht => ?_
      refine ⟨202, _, _, rfl, by omega, wireDict_toJson t, ?_⟩
      exact congrArg Except.ok (if_pos hop).symm
    | false =>
      have hwithin := hanswers.within hop hask
      have hhandled : Endpoint.query.handle S req.queryBody [] s
          = andThen (S.query req.readArgs s) fun rows => .ok (200, rowsDict rows) := by
        simp only [Endpoint.handle, queryArgs_queryBody, hask, hwithin]
        rfl
      have hlocal : LocalExecutor.execute S req s
          = andThen (S.query req.readArgs s) fun rows => .ok (.value (rowsDict rows)) := by
        simp only [LocalExecutor.execute, hop, hask, Bool.false_eq_true, if_false]
      refine form_eq hcall hhandled hlocal fun rows hrows => ?_
      obtain ⟨m, hm, hvalue⟩ := rowsDict_crosses (hanswers.cells hop hask rows hrows)
      exact ⟨200, _, m, rfl, by omega, hm, hvalue⟩
  | insert =>
    have hcall := hpost (finite_insertBody hreq.rows) (hfixed .insert (by decide))
      (resolve_fixed .insert (by decide))
    have hhandled : Endpoint.insert.handle S req.insertBody [] s
        = andThen (S.task (.insert (optText req.table) (.arr (req.rows.map .obj))) s) (taskReply 200) := by
      simp only [Endpoint.handle, insertArgs_insertBody]
    refine task_form (by simp [hop]) hcall hhandled ?_
    simp only [LocalExecutor.execute, hop]
  | delete =>
    have hcall := hpost (finite_deleteBody hreq.params) (hfixed .delete (by decide))
      (resolve_fixed .delete (by decide))
    have hhandled : Endpoint.delete.handle S req.deleteBody [] s
        = andThen (S.task (.delete (optText req.table) (optText req.whereText) (.arr req.params)) s)
            (taskReply 200) := by
      simp only [Endpoint.handle, deleteArgs_deleteBody]
    refine task_form (by simp [hop]) hcall hhandled ?_
    simp only [LocalExecutor.execute, hop]
  | status =>
    obtain ⟨id, hid, hcarried⟩ := hreq.ticket (by simp [hop])
    show andThen (H.call S serverKey undecoded "GET" (statusPath req.ticketText) none s) taskOf = _
    rw [ticketText_eq hid]
    have hcall := hget hcarried.status (resolve_status hcarried.segment)
    refine task_form (by simp [hop]) hcall (c := .status (.str id)) ?_ ?_
    · simp only [Endpoint.handle, pathParam, lookup, Option.none_or, if_true, Option.getD_some,
        String.ofList_toList]
    · simp only [LocalExecutor.execute, hop, hid, optText]
  | taskResult =>
    obtain ⟨id, hid, hcarried⟩ := hreq.ticket (by simp [hop])
    show andThen (H.call S serverKey undecoded "GET" (resultPath req.ticketText) none s) valueOf = _
    rw [ticketText_eq hid]
    have hcall := hget hcarried.result (resolve_result hcarried.segment)
    have hhandled : Endpoint.result.handle S (.obj []) [("id", String.ofList id.toList)] s
        = andThen (S.result (.str id) s) fun rows => .ok (200, jsonRows rows) := by
      simp only [Endpoint.handle, pathParam, lookup, Option.none_or, if_true, Option.getD_some,
        String.ofList_toList]
    have hlocal : LocalExecutor.execute S req s
        = andThen (S.result (.str id) s) fun rows => .ok (.value (jsonRows rows)) := by
      simp only [LocalExecutor.execute, hop, hid, optText]
    refine form_eq hcall hhandled hlocal fun rows _ => ?_
    exact ⟨200, _, _, rfl, by omega, jsonRows_toJson rows, valueOf_toJson (jsonRows_toJson rows)⟩
  | taskCancel =>
    obtain ⟨id, hid, hcarried⟩ := hreq.ticket (by simp [hop])
    show andThen (H.call S serverKey undecoded "POST" (cancelPath req.ticketText) (some (.obj [])) s) taskOf = _
    rw [ticketText_eq hid]
    have hcall := hpost hempty hcarried.cancel (resolve_cancel hcarried.segment)
    refine task_form (by simp [hop]) hcall (c := .cancel (.str id)) ?_ ?_
    · simp only [Endpoint.handle, pathParam, lookup, Option.none_or, if_true, Option.getD_some,
        String.ofList_toList]
    · simp only [LocalExecutor.execute, hop, hid, optText]
  | rebuild =>
    have hcall := hpost hempty (hfixed .rebuild (by decide))
      (resolve_fixed .rebuild (by decide))
    refine task_form (by simp [hop]) hcall (c := .rebuild) (by simp only [Endpoint.handle]) ?_
    simp only [LocalExecutor.execute, hop]

theorem andThen_ok {r : σ × Except PyExc α} {k : α → Returned} {a : Returned}
    (h : (andThen r fun x => .ok (k x)).2 = .ok a) : ∃ x, r.2 = .ok x ∧ a = k x := by
  obtain ⟨x, hx, hk⟩ := bind_ok_iff.mp h
  exact ⟨x, hx, (Except.ok.inj hk).symm⟩

/-- A query that is asked for as a task returns one. -/
theorem detached_task (hop : req.op = .query) (hask : req.asTask = true) {a : Returned}
    (h : (LocalExecutor.execute S req s).2 = .ok a) : ∃ t, a = .task t := by
  have hlocal : LocalExecutor.execute S req s
      = andThen (S.task (.submit req.readArgs) s) fun t => .ok (.task t) := by
    simp only [LocalExecutor.execute, hop, hask, if_true]
  rw [hlocal] at h
  obtain ⟨t, -, rfl⟩ := andThen_ok h
  exact ⟨t, rfl⟩

/-- Any other value crosses as it is. -/
theorem overWire_same (hop : req.op = .query → req.asTask = false) {a : Returned}
    (h : (LocalExecutor.execute S req s).2 = .ok a) : req.overWire a = a := by
  by_cases hquery : req.op = .query
  · have hlocal : LocalExecutor.execute S req s
        = andThen (S.query req.readArgs s) fun rows => .ok (.value (rowsDict rows)) := by
      simp only [LocalExecutor.execute, hquery, hop hquery, Bool.false_eq_true, if_false]
    rw [hlocal] at h
    obtain ⟨rows, -, rfl⟩ := andThen_ok h
    rfl
  · cases a with
    | value v => rfl
    | task t => exact if_neg hquery

end Forms

end Executors

end Seekbase
