/-
# Seekbase.Route — the endpoints of the HTTP surface, and which of them a path reaches.

A path is matched segment by segment, after its slashes at either end are stripped: a segment in braces
takes any segment, and the first endpoint of the method that matches is the one.  So an operation
handle reaches its endpoint when it is ONE segment, neither empty nor with a slash in it.

* `segments`, `matchPath`, `resolve` — `api/_route.py` and `api/__init__.py`;
* `segments_path`                    — the segments of a path that is built from segments;
* `resolve_status`, `resolve_result`, `resolve_cancel` — the task routes, for every such handle.
-/
import Seekbase.Struct
import Mathlib.Data.List.DropRight

namespace Seekbase

/-! ## Paths -/

/-- `path.strip("/").split("/")`. -/
def segments (path : List Char) : List (List Char) :=
  ((path.dropWhile (· == '/')).rdropWhile (· == '/')).splitOn '/'

/-- The parameters a path was matched with. -/
abbrev PathParams := List (String × String)

/-- `seg_t[1:-1]`, of a segment in braces. -/
def paramName : List Char → Option String
  | '\x7b' :: rest => if rest.getLast? = some '\x7d' then some (String.ofList rest.dropLast) else none
  | _ => none

/-- One segment of a template against one of a path. -/
def matchSegment (t p : List Char) : Option PathParams :=
  match paramName t with
  | some name => some [(name, String.ofList p)]
  | none => if t = p then some [] else none

def matchSegments : List (List Char) → List (List Char) → Option PathParams
  | [], [] => some []
  | t :: ts, p :: ps => (matchSegment t p).bind fun a => (matchSegments ts ps).map (a ++ ·)
  | _, _ => none

/-- `match_path`. -/
def matchPath (template : String) (path : List Char) : Option PathParams :=
  matchSegments (segments template.toList) (segments path)

/-! ## Endpoints -/

inductive Endpoint where
  | query
  | insert
  | delete
  | result
  | cancel
  | status
  | list
  | writes
  | rebuild
  | health
  deriving DecidableEq

def Endpoint.method : Endpoint → String
  | .query | .insert | .delete | .cancel | .rebuild => "POST"
  | _ => "GET"

def Endpoint.path : Endpoint → String
  | .query => "/v1/query"
  | .insert => "/v1/insert"
  | .delete => "/v1/delete"
  | .result => "/v1/tasks/\x7bid\x7d/result"
  | .cancel => "/v1/tasks/\x7bid\x7d/cancel"
  | .status => "/v1/tasks/\x7bid\x7d"
  | .list => "/v1/tasks"
  | .writes => "/v1/writes/\x7bticket\x7d"
  | .rebuild => "/v1/rebuild"
  | .health => "/v1/health"

/-- `ENDPOINTS`, the most specific task routes first. -/
def endpoints : List Endpoint :=
  [.query, .insert, .delete, .result, .cancel, .status, .list, .writes, .rebuild, .health]

/-- `resolve`. -/
def resolve (method : String) (path : List Char) : Option (Endpoint × PathParams) :=
  endpoints.findSome? fun ep =>
    if ep.method = method then (matchPath ep.path path).map (ep, ·) else none

/-! ## Segments of a path that is built from segments -/

/-- `"/" + "/".join(segs)`. -/
def pathOf (segs : List (List Char)) : List Char := '/' :: ['/'].intercalate segs

/-- One segment of a path. -/
def IsSegment (s : List Char) : Prop := s ≠ [] ∧ '/' ∉ s

theorem intercalate_last (sep : List Char) {segs : List (List Char)} (h : segs ≠ []) :
    ∃ front, sep.intercalate segs = front ++ segs.getLast h := by
  induction segs with
  | nil => exact absurd rfl h
  | cons s rest ih =>
    cases rest with
    | nil => exact ⟨[], by simp [List.intercalate]⟩
    | cons t rest =>
      obtain ⟨front, hfront⟩ := ih (List.cons_ne_nil _ _)
      refine ⟨s ++ sep ++ front, ?_⟩
      rw [List.getLast_cons (List.cons_ne_nil _ _), List.append_assoc, ← hfront]
      simp [List.intercalate]

theorem rdropWhile_slash {front s : List Char} (h : IsSegment s) :
    List.rdropWhile (· == '/') (front ++ s) = front ++ s := by
  rw [List.rdropWhile_eq_self_iff]
  intro hne
  rw [List.getLast_append_of_ne_nil _ h.1]
  have hlast : s.getLast h.1 ≠ '/' := fun he => h.2 (he ▸ List.getLast_mem h.1)
  simpa using hlast

/-- A joined path splits where it was joined. -/
theorem segments_path {segs : List (List Char)} (h0 : segs ≠ []) (h : ∀ s ∈ segs, IsSegment s) :
    segments (pathOf segs) = segs := by
  obtain ⟨front, hfront⟩ := intercalate_last ['/'] h0
  have hdrop : List.dropWhile (· == '/') (pathOf segs) = ['/'].intercalate segs := by
    match segs, h0 with
    | (s :: rest), _ =>
      have hs : IsSegment s := h s List.mem_cons_self
      match s, hs with
      | (c :: cs), hs =>
        have hc : c ≠ '/' := fun he => hs.2 (he ▸ List.mem_cons_self)
        rw [pathOf]
        cases rest <;> simp [List.intercalate, hc]
  rw [segments, hdrop]
  have hstrip : List.rdropWhile (· == '/') (['/'].intercalate segs) = ['/'].intercalate segs := by
    rw [hfront]
    exact rdropWhile_slash (h _ (List.getLast_mem h0))
  rw [hstrip]
  exact List.splitOn_intercalate '/' (fun s hs => (h s hs).2) h0

/-! ## The task routes -/

theorem isSegment_v1 : IsSegment "v1".toList := ⟨by decide, by decide⟩

theorem isSegment_tasks : IsSegment "tasks".toList := ⟨by decide, by decide⟩

/-- `/v1/tasks/{id}`. -/
def statusPath (id : List Char) : List Char := "/v1/tasks/".toList ++ id

def resultPath (id : List Char) : List Char := statusPath id ++ "/result".toList

def cancelPath (id : List Char) : List Char := statusPath id ++ "/cancel".toList

theorem pathOf_three (a b c : List Char) : pathOf [a, b, c] = '/' :: a ++ '/' :: b ++ '/' :: c := by
  simp [pathOf, List.intercalate]

theorem pathOf_four (a b c d : List Char) :
    pathOf [a, b, c, d] = '/' :: a ++ '/' :: b ++ '/' :: c ++ '/' :: d := by
  simp [pathOf, List.intercalate]

theorem tasksRoot :
    "/v1/tasks/".toList = ('/' :: "v1".toList ++ '/' :: "tasks".toList) ++ ['/'] := by
  decide +kernel

theorem statusPath_eq (id : List Char) :
    statusPath id = '/' :: "v1".toList ++ '/' :: "tasks".toList ++ '/' :: id :=
  (congrArg (· ++ id) tasksRoot).trans (List.append_assoc _ ['/'] id)

theorem segments_status {id : List Char} (h : IsSegment id) :
    segments (statusPath id) = ["v1".toList, "tasks".toList, id] := by
  rw [statusPath_eq, ← pathOf_three]
  refine segments_path (List.cons_ne_nil _ _) fun s hs => ?_
  simp only [List.mem_cons, List.not_mem_nil, or_false] at hs
  rcases hs with rfl | rfl | rfl
  exacts [isSegment_v1, isSegment_tasks, h]

theorem segments_action {id action : List Char} (h : IsSegment id) (ha : IsSegment action) :
    segments (statusPath id ++ '/' :: action) = ["v1".toList, "tasks".toList, id, action] := by
  rw [statusPath_eq, ← pathOf_four]
  refine segments_path (List.cons_ne_nil _ _) fun s hs => ?_
  simp only [List.mem_cons, List.not_mem_nil, or_false] at hs
  rcases hs with rfl | rfl | rfl | rfl
  exacts [isSegment_v1, isSegment_tasks, h, ha]

/-- The segments of the templates. -/
theorem segments_templates :
    segments Endpoint.query.path.toList = ["v1".toList, "query".toList] ∧
    segments Endpoint.insert.path.toList = ["v1".toList, "insert".toList] ∧
    segments Endpoint.delete.path.toList = ["v1".toList, "delete".toList] ∧
    segments Endpoint.result.path.toList = ["v1".toList, "tasks".toList, "\x7bid\x7d".toList, "result".toList] ∧
    segments Endpoint.cancel.path.toList = ["v1".toList, "tasks".toList, "\x7bid\x7d".toList, "cancel".toList] ∧
    segments Endpoint.status.path.toList = ["v1".toList, "tasks".toList, "\x7bid\x7d".toList] ∧
    segments Endpoint.list.path.toList = ["v1".toList, "tasks".toList] := by
  decide +kernel

/-- `GET /v1/tasks/{id}`. -/
theorem resolve_status {id : List Char} (h : IsSegment id) :
    resolve "GET" (statusPath id) = some (.status, [("id", String.ofList id)]) := by
  obtain ⟨-, -, -, hresult, -, hstatus, -⟩ := segments_templates
  have h1 : matchPath Endpoint.result.path (statusPath id) = none := by
    rw [matchPath, hresult, segments_status h]
    rfl
  have h2 : matchPath Endpoint.status.path (statusPath id) = some [("id", String.ofList id)] := by
    rw [matchPath, hstatus, segments_status h]
    rfl
  simp [resolve, endpoints, Endpoint.method, h1, h2]

/-- `GET /v1/tasks/{id}/result`. -/
theorem resolve_result {id : List Char} (h : IsSegment id) :
    resolve "GET" (resultPath id) = some (.result, [("id", String.ofList id)]) := by
  obtain ⟨-, -, -, hresult, -, -, -⟩ := segments_templates
  have hsegs : segments (resultPath id) = ["v1".toList, "tasks".toList, id, "result".toList] :=
    segments_action h ⟨by decide, by decide⟩
  have h1 : matchPath Endpoint.result.path (resultPath id) = some [("id", String.ofList id)] := by
    rw [matchPath, hresult, hsegs]
    rfl
  simp [resolve, endpoints, Endpoint.method, h1]

/-- `POST /v1/tasks/{id}/cancel`. -/
theorem resolve_cancel {id : List Char} (h : IsSegment id) :
    resolve "POST" (cancelPath id) = some (.cancel, [("id", String.ofList id)]) := by
  obtain ⟨hquery, hinsert, hdelete, -, hcancel, -, -⟩ := segments_templates
  have hsegs : segments (cancelPath id) = ["v1".toList, "tasks".toList, id, "cancel".toList] :=
    segments_action h ⟨by decide, by decide⟩
  have h1 : matchPath Endpoint.query.path (cancelPath id) = none := by
    rw [matchPath, hquery, hsegs]
    rfl
  have h2 : matchPath Endpoint.insert.path (cancelPath id) = none := by
    rw [matchPath, hinsert, hsegs]
    rfl
  have h3 : matchPath Endpoint.delete.path (cancelPath id) = none := by
    rw [matchPath, hdelete, hsegs]
    rfl
  have h4 : matchPath Endpoint.cancel.path (cancelPath id) = some [("id", String.ofList id)] := by
    rw [matchPath, hcancel, hsegs]
    rfl
  simp [resolve, endpoints, Endpoint.method, h1, h2, h3, h4]

/-- The routes without a parameter. -/
theorem resolve_fixed (ep : Endpoint) (h : ep ∈ [Endpoint.query, .insert, .delete, .list, .rebuild]) :
    resolve ep.method ep.path.toList = some (ep, []) := by
  revert ep
  decide +kernel

end Seekbase
