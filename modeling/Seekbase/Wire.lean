/-
# Seekbase.Wire — what crosses the wire: Python values as JSON, errors as bodies, tasks as dicts.

A result is a Python value and JSON is not all of it: a `Decimal` and a `datetime` have no image, and
`json.dumps` raises at the first of them.  What has one comes back as it was.  An error crosses as the
NAME of its class with its text, and comes back as the class of that name if the table knows it.

* `Py`, `Py.toJson`, `Py.ofJson`   — `json.dumps` and `json.loads` on values;
* `PyExc`, `errorBody`, `exceptionFrom` — `_wire.py`;
* `PyExc.surface`                  — the exception a client gets for one that the server raised;
* `Task.toWire`, `Task.fromWire`   — a task and its JSON body.
-/
import Seekbase.Task
import Seekbase.Lib.JsonRoundTrip

namespace Seekbase

open JsonText

/-! ## Errors -/

/-- The classes of the error hierarchy. -/
inductive ErrorClass where
  | seekbaseError
  | seekbaseUnavailable
  | schemaError
  | embedderInvalid
  | readOnlyError
  | queryError
  | notFound
  | permissionDenied
  deriving DecidableEq

def ErrorClass.name : ErrorClass → String
  | .seekbaseError => "SeekbaseError"
  | .seekbaseUnavailable => "SeekbaseUnavailable"
  | .schemaError => "SchemaError"
  | .embedderInvalid => "EmbedderInvalid"
  | .readOnlyError => "ReadOnlyError"
  | .queryError => "QueryError"
  | .notFound => "NotFound"
  | .permissionDenied => "PermissionDenied"

def errorClasses : List ErrorClass :=
  [.seekbaseError, .seekbaseUnavailable, .schemaError, .embedderInvalid, .readOnlyError, .queryError,
    .notFound, .permissionDenied]

/-- `_ERROR_TYPES`. -/
def errorTypes (name : String) : Option ErrorClass := errorClasses.find? (·.name = name)

/-- The class of an exception: one of the hierarchy, a subclass that is declared elsewhere, or a class
outside it. -/
inductive ExcClass where
  | seekbase (c : ErrorClass)
  | derived (name : String) (base : ErrorClass)
  | foreign (name : String)
  deriving DecidableEq

structure PyExc where
  cls : ExcClass
  message : String
  deriving DecidableEq

def ErrorClass.status : ErrorClass → Nat
  | .seekbaseUnavailable => 503
  | .notFound => 404
  | .permissionDenied => 403
  | _ => 400

/-- `status_for`. -/
def statusFor (e : PyExc) : Nat :=
  match e.cls with
  | .seekbase c | .derived _ c => c.status
  | .foreign _ => 500

/-- The type an error is sent under: the last-resort guard does not name a class outside the
hierarchy. -/
def wireType (e : PyExc) : String :=
  match e.cls with
  | .seekbase c => c.name
  | .derived name _ => name
  | .foreign _ => "Internal"

/-- `error_body`. -/
def errorBody (e : PyExc) : Members := [("type", .str (wireType e)), ("message", .str e.message)]

/-- A text of a decoded dict. -/
def Members.text (m : Members) (name : String) : String :=
  match m.get name with
  | .str s => s
  | _ => ""

/-- `exception_from`. -/
def exceptionFrom (err : Members) : PyExc :=
  ⟨.seekbase ((errorTypes (Members.text err "type")).getD .seekbaseError), Members.text err "message"⟩

/-- What a client raises for an exception of the server. -/
def PyExc.surface (e : PyExc) : PyExc :=
  ⟨.seekbase ((errorTypes (wireType e)).getD .seekbaseError), e.message⟩

theorem errorTypes_name (c : ErrorClass) : errorTypes c.name = some c := by
  cases c <;> decide

/-- An error of the hierarchy is raised again as it was. -/
theorem surface_seekbase (c : ErrorClass) (message : String) :
    PyExc.surface ⟨.seekbase c, message⟩ = ⟨.seekbase c, message⟩ := by
  rw [PyExc.surface, wireType, errorTypes_name]
  rfl

theorem status_ge (e : PyExc) : 400 ≤ statusFor e := by
  rw [statusFor]
  split
  · next c _ => cases c <;> decide
  · next c _ => cases c <;> decide
  · decide

/-! ## Values -/

/-- A Python value of a result. -/
inductive Py where
  | none
  | bool (b : Bool)
  | int (i : Int)
  | float (d : Dec)
  | nan
  | inf
  | negInf
  | str (s : String)
  | list (xs : List Py)
  | dict (ms : List (String × Py))
  | decimal (text : String)
  | datetime (text : String)

/-- The `TypeError` of `json.dumps`. -/
def notJson (type : String) : PyExc :=
  ⟨.foreign "TypeError", "Object of type " ++ type ++ " is not JSON serializable"⟩

mutual
/-- The JSON value `json.dumps` writes, or what it raises. -/
def Py.toJson : Py → Except PyExc Json
  | .none => .ok .null
  | .bool b => .ok (.bool b)
  | .int i => .ok (.int i)
  | .float d => .ok (.dec d)
  | .nan => .ok .nan
  | .inf => .ok .inf
  | .negInf => .ok .negInf
  | .str s => .ok (.str s)
  | .list xs => (Py.itemsJson xs).map .arr
  | .dict ms => (Py.membersJson ms).map .obj
  | .decimal _ => .error (notJson "Decimal")
  | .datetime _ => .error (notJson "datetime")
def Py.itemsJson : List Py → Except PyExc (List Json)
  | [] => .ok []
  | x :: xs => do
    let j ← Py.toJson x
    let js ← Py.itemsJson xs
    pure (j :: js)
def Py.membersJson : List (String × Py) → Except PyExc (List (String × Json))
  | [] => .ok []
  | (k, v) :: ms => do
    let j ← Py.toJson v
    let js ← Py.membersJson ms
    pure ((k, j) :: js)
end

mutual
/-- The value `json.loads` returns. -/
def Py.ofJson : Json → Py
  | .null => .none
  | .bool b => .bool b
  | .int i => .int i
  | .dec d => .float d
  | .nan => .nan
  | .inf => .inf
  | .negInf => .negInf
  | .str s => .str s
  | .arr xs => .list (Py.ofItems xs)
  | .obj ms => .dict (Py.ofMembers ms)
def Py.ofItems : List Json → List Py
  | [] => []
  | x :: xs => Py.ofJson x :: Py.ofItems xs
def Py.ofMembers : List (String × Json) → List (String × Py)
  | [] => []
  | (k, v) :: ms => (k, Py.ofJson v) :: Py.ofMembers ms
end

mutual
/-- What is written is read back. -/
theorem ofJson_toJson : ∀ {v : Py} {j : Json}, v.toJson = .ok j → Py.ofJson j = v
  | .none, _, h | .bool _, _, h | .int _, _, h | .float _, _, h | .nan, _, h | .inf, _, h
  | .negInf, _, h | .str _, _, h => by
    rw [Py.toJson] at h
    obtain rfl := Except.ok.inj h
    rfl
  | .list xs, j, h => by
    rw [Py.toJson] at h
    obtain ⟨js, hjs, rfl⟩ := map_ok_iff.mp h
    rw [Py.ofJson, ofItems_itemsJson hjs]
  | .dict ms, j, h => by
    rw [Py.toJson] at h
    obtain ⟨js, hjs, rfl⟩ := map_ok_iff.mp h
    rw [Py.ofJson, ofMembers_membersJson hjs]
  | .decimal _, _, h | .datetime _, _, h => by
    rw [Py.toJson] at h
    cases h
theorem ofItems_itemsJson : ∀ {xs : List Py} {js : List Json}, Py.itemsJson xs = .ok js →
    Py.ofItems js = xs
  | [], js, h => by
    rw [Py.itemsJson] at h
    obtain rfl := Except.ok.inj h
    rfl
  | x :: xs, js, h => by
    rw [Py.itemsJson] at h
    simp only [bind_ok_iff, pure, Except.pure, Except.ok.injEq] at h
    obtain ⟨j, hj, js', hjs, rfl⟩ := h
    rw [Py.ofItems, ofJson_toJson hj, ofItems_itemsJson hjs]
theorem ofMembers_membersJson : ∀ {ms : List (String × Py)} {js : List (String × Json)},
    Py.membersJson ms = .ok js → Py.ofMembers js = ms
  | [], js, h => by
    rw [Py.membersJson] at h
    obtain rfl := Except.ok.inj h
    rfl
  | (k, v) :: ms, js, h => by
    rw [Py.membersJson] at h
    simp only [bind_ok_iff, pure, Except.pure, Except.ok.injEq] at h
    obtain ⟨j, hj, js', hjs, rfl⟩ := h
    rw [Py.ofMembers, ofJson_toJson hj, ofMembers_membersJson hjs]
end

mutual
/-- A decoded value is written as it was read. -/
theorem toJson_ofJson : ∀ j : Json, (Py.ofJson j).toJson = .ok j
  | .null | .bool _ | .int _ | .dec _ | .nan | .inf | .negInf | .str _ => by rw [Py.ofJson, Py.toJson]
  | .arr xs => by
    rw [Py.ofJson, Py.toJson, itemsJson_ofItems xs]
    rfl
  | .obj ms => by
    rw [Py.ofJson, Py.toJson, membersJson_ofMembers ms]
    rfl
theorem itemsJson_ofItems : ∀ xs : List Json, Py.itemsJson (Py.ofItems xs) = .ok xs
  | [] => by rw [Py.ofItems, Py.itemsJson]
  | x :: xs => by
    rw [Py.ofItems, Py.itemsJson, toJson_ofJson x, itemsJson_ofItems xs]
    rfl
theorem membersJson_ofMembers : ∀ ms : List (String × Json), Py.membersJson (Py.ofMembers ms) = .ok ms
  | [] => by rw [Py.ofMembers, Py.membersJson]
  | (k, v) :: ms => by
    rw [Py.ofMembers, Py.membersJson, toJson_ofJson v, membersJson_ofMembers ms]
    rfl
end

/-! ## Rows -/

/-- A row of a result: a dict from column names. -/
abbrev PyRow := List (String × Py)

/-- `{"rows": …}`. -/
def rowsDict (rows : List PyRow) : Py := .dict [("rows", .list (rows.map .dict))]

/-- The value a cell of a column is fetched as; a `json` column holds its text. -/
inductive Fetched : SqlType → Py → Prop
  | null (t : SqlType) : Fetched t .none
  | text (s : String) : Fetched .varchar (.str s)
  | json (s : String) : Fetched .json (.str s)
  | int (i : Int) : Fetched .bigint (.int i)
  | bool (b : Bool) : Fetched .boolean (.bool b)
  | float (d : Dec) : Fetched .double (.float d)
  | nan : Fetched .double .nan
  | inf : Fetched .double .inf
  | negInf : Fetched .double .negInf
  | decimal (p s : Nat) (text : String) : Fetched (.decimal p s) (.decimal text)
  | datetime (text : String) : Fetched .timestamptz (.datetime text)

/-- A type whose values JSON has. -/
def SqlType.inJson : SqlType → Bool
  | .decimal _ _ | .timestamptz => false
  | _ => true

theorem Fetched.toJson {t : SqlType} {v : Py} (h : Fetched t v) (ht : t.inJson = true) :
    ∃ j, v.toJson = .ok j := by
  cases h with
  | decimal p s text => cases ht
  | datetime text => cases ht
  | _ => exact ⟨_, by rw [Py.toJson]⟩

/-- Every cell of the rows comes from a column of a type that JSON has. -/
def InJson (rows : List PyRow) : Prop :=
  ∀ row ∈ rows, ∀ cell ∈ row, ∃ t : SqlType, t.inJson = true ∧ Fetched t cell.2

theorem membersJson_ok {ms : List (String × Py)} (h : ∀ m ∈ ms, ∃ j, m.2.toJson = .ok j) :
    ∃ js, Py.membersJson ms = .ok js := by
  induction ms with
  | nil => exact ⟨[], by rw [Py.membersJson]⟩
  | cons m ms ih =>
    obtain ⟨j, hj⟩ := h m List.mem_cons_self
    obtain ⟨js, hjs⟩ := ih fun n hn => h n (List.mem_cons_of_mem _ hn)
    refine ⟨(m.1, j) :: js, ?_⟩
    rw [Py.membersJson, hj, hjs]
    rfl

theorem itemsJson_ok {xs : List Py} (h : ∀ x ∈ xs, ∃ j, x.toJson = .ok j) :
    ∃ js, Py.itemsJson xs = .ok js := by
  induction xs with
  | nil => exact ⟨[], by rw [Py.itemsJson]⟩
  | cons x xs ih =>
    obtain ⟨j, hj⟩ := h x List.mem_cons_self
    obtain ⟨js, hjs⟩ := ih fun n hn => h n (List.mem_cons_of_mem _ hn)
    refine ⟨j :: js, ?_⟩
    rw [Py.itemsJson, hj, hjs]
    rfl

/-- Rows of such cells are written. -/
theorem rowsDict_toJson {rows : List PyRow} (h : InJson rows) :
    ∃ m, (rowsDict rows).toJson = .ok (.obj m) := by
  have hrow : ∀ x ∈ rows.map Py.dict, ∃ j, x.toJson = .ok j := by
    intro x hx
    obtain ⟨row, hrow, rfl⟩ := List.mem_map.mp hx
    have hcells : ∀ m ∈ row, ∃ j, m.2.toJson = .ok j := by
      intro cell hcell
      obtain ⟨t, ht, hfetched⟩ := h row hrow cell hcell
      exact hfetched.toJson ht
    obtain ⟨js, hjs⟩ := membersJson_ok hcells
    exact ⟨.obj js, by rw [Py.toJson, hjs]; rfl⟩
  obtain ⟨js, hjs⟩ := itemsJson_ok hrow
  refine ⟨[("rows", .arr js)], ?_⟩
  rw [rowsDict, Py.toJson, Py.membersJson, Py.toJson, hjs, Py.membersJson]
  rfl

/-! ## Tasks -/

def TaskState.text : TaskState → String
  | .pending => "pending"
  | .running => "running"
  | .done => "done"
  | .failed => "failed"
  | .cancelled => "cancelled"

def taskStates : List TaskState := [.pending, .running, .done, .failed, .cancelled]

/-- The state of this text; no other text is ever written. -/
def TaskState.ofText (s : String) : TaskState := (taskStates.find? (·.text = s)).getD .done

/-- `None`, or a text. -/
def optText : Option String → Json
  | some s => .str s
  | none => .null

/-- A field that is left out when it is `None`. -/
def wireField (name : String) (value : Option Json) : Members := value.toList.map (name, ·)

def natJson (n : Nat) : Json := .int n

/-- `Task.to_wire`. -/
def Task.toWire (t : Task) : Members :=
  [("task", .str t.id), ("op", .str t.op), ("state", .str t.state.text), ("error", optText t.error)]
    ++ wireField "matched" (t.matched.map natJson)
    ++ wireField "stats" t.stats
    ++ wireField "query" (t.query.map .str)
    ++ wireField "rows" (t.rows.map natJson)
    ++ wireField "submitted_at" (t.submittedAt.map .str)
    ++ wireField "finished_at" (t.finishedAt.map .str)

/-- `is not None`. -/
def notNull : Json → Bool
  | .null => false
  | _ => true

/-- A field of a decoded dict, `None` when it is not there. -/
def Members.field (m : Members) (name : String) : Option Json := (lookup name m).filter notNull

def Json.text? : Json → Option String
  | .str s => some s
  | _ => none

def Json.nat? : Json → Option Nat
  | .int i => some i.toNat
  | _ => none

/-- `Task.from_wire`. -/
def Task.fromWire (d : Members) : Except PyExc Task :=
  match (if truthy (Members.get d "task") then some (Members.get d "task") else lookup "ticket" d) with
  | none => .error ⟨.foreign "KeyError", "'ticket'"⟩
  | some id => .ok {
      id := (Json.text? id).getD ""
      op := Members.text d "op"
      state := ((Members.field d "state").bind Json.text?).elim .done TaskState.ofText
      error := (Members.field d "error").bind Json.text?
      matched := (Members.field d "matched").bind Json.nat?
      stats := Members.field d "stats"
      query := (Members.field d "query").bind Json.text?
      rows := (Members.field d "rows").bind Json.nat?
      submittedAt := (Members.field d "submitted_at").bind Json.text?
      finishedAt := (Members.field d "finished_at").bind Json.text? }

/-- A task as the service makes them: it has an id, and stats that are not `None` where it has any. -/
structure Task.Made (t : Task) : Prop where
  named : t.id ≠ ""
  stats : t.stats ≠ some .null

theorem ofText_text (s : TaskState) : TaskState.ofText s.text = s := by
  cases s <;> decide

theorem lookup_wireField (name other : String) (v : Option Json) :
    lookup name (wireField other v) = if other = name then v else none := by
  cases v with
  | none => simp [wireField, lookup]
  | some v => by_cases h : other = name <;> simp [wireField, lookup, h]

theorem text?_optText (e : Option String) :
    ((some (optText e)).filter notNull).bind Json.text? = e := by
  cases e <;> rfl

theorem text?_field (v : Option String) :
    ((v.map Json.str).filter notNull).bind Json.text? = v := by
  cases v <;> rfl

theorem nat?_field (v : Option Nat) :
    ((v.map natJson).filter notNull).bind Json.nat? = v := by
  cases v <;> rfl

theorem text?_state (s : TaskState) :
    (((some (Json.str s.text)).filter notNull).bind Json.text?).elim .done TaskState.ofText = s :=
  ofText_text s

theorem filter_notNull {v : Option Json} (h : v ≠ some .null) : v.filter notNull = v := by
  match v with
  | none => rfl
  | some .null => exact absurd rfl h
  | some (.bool _) | some (.int _) | some (.dec _) | some .nan | some .inf | some .negInf
  | some (.str _) | some (.arr _) | some (.obj _) => rfl

/-- The fields of a task on the wire. -/
theorem lookup_toWire (t : Task) :
    lookup "task" t.toWire = some (.str t.id) ∧ lookup "op" t.toWire = some (.str t.op) ∧
    lookup "state" t.toWire = some (.str t.state.text) ∧ lookup "error" t.toWire = some (optText t.error) ∧
    lookup "matched" t.toWire = t.matched.map natJson ∧ lookup "stats" t.toWire = t.stats ∧
    lookup "query" t.toWire = t.query.map .str ∧ lookup "rows" t.toWire = t.rows.map natJson ∧
    lookup "submitted_at" t.toWire = t.submittedAt.map .str ∧
    lookup "finished_at" t.toWire = t.finishedAt.map .str := by
  simp only [Task.toWire, lookup_append, lookup_wireField]
  simp [lookup]

/-- A task crosses the wire unchanged. -/
theorem fromWire_toWire {t : Task} (h : t.Made) : Task.fromWire t.toWire = .ok t := by
  obtain ⟨hid, hop, hstate, herror, hmatched, hstats, hquery, hrows, hsub, hfin⟩ := lookup_toWire t
  have hnamed : truthy (Members.get t.toWire "task") = true := by
    rw [Members.get, hid]
    simpa [truthy] using h.named
  rw [Task.fromWire, if_pos hnamed]
  simp only [Members.get, Members.text, Members.field, hid, hop, hstate, herror, hmatched, hstats,
    hquery, hrows, hsub, hfin, text?_optText, text?_field, nat?_field, text?_state, filter_notNull h.stats]
  rfl

end Seekbase
