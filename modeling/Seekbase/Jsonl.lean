/-
# Seekbase.Jsonl — rows as lines of JSON, the form in which stages and streams exchange them.

* `rowsToJsonl` — `_rows_to_jsonl`, a line for each row;
* `jsonlToRows` — `_jsonl_to_rows`: blank lines are skipped, any other has to be a JSON object.
-/
import Seekbase.Lib.Encoding
import Seekbase.Lib.JsonRoundTrip
import Seekbase.Lib.Lines
import Seekbase.Operator

namespace Seekbase

open JsonText Lines

/-- The dict of these items: a key stands where it came first and has the value that came last. -/
def dictOf {α : Type} (items : List (String × α)) : List (String × α) :=
  (items.map Prod.fst).eraseDups.filterMap fun k => (lookup k items).map (k, ·)

theorem lookup_filterMap {α : Type} (name : String) (f : String → Option α) (keys : List String) :
    lookup name (keys.filterMap fun k => (f k).map (k, ·)) = if name ∈ keys then f name else none := by
  induction keys with
  | nil => rfl
  | cons k keys ih =>
    cases hf : f k with
    | none =>
      rw [List.filterMap_cons, hf, Option.map_none, ih]
      by_cases hk : name = k
      · subst hk
        simp [hf]
      · simp [hk]
    | some v =>
      rw [List.filterMap_cons, hf, Option.map_some]
      show (lookup name _).or (if k = name then some v else none) = _
      rw [ih]
      by_cases hk : k = name
      · subst hk
        by_cases hin : k ∈ keys <;> simp [hin, hf]
      · by_cases hin : name ∈ keys <;> simp [hin, hk, Ne.symm hk]

@[simp] theorem lookup_dictOf {α : Type} (name : String) (items : List (String × α)) :
    lookup name (dictOf items) = lookup name items := by
  rw [dictOf, lookup_filterMap]
  split
  · rfl
  · next hno =>
    rw [List.mem_eraseDups, ← lookup_isSome_iff] at hno
    exact (Option.not_isSome_iff_eq_none.mp hno).symm

/-- `json.dumps(v, default=str)`. -/
def Val.image : Val → Json
  | .json j => j
  | .other _ (some j) => j
  | .other text none => .str text

def rowLine (row : Record) : Bytes :=
  Utf8.encode (dumps (.obj (row.map fun kv => (kv.1, kv.2.image)))) ++ [lf]

/-- `_rows_to_jsonl`. -/
def rowsToJsonl (rows : List Record) : Bytes := rows.flatMap rowLine

/-- `json.loads` of a byte string, in the encoding its first bytes show. -/
def loadsBytes (bs : Bytes) : Option Json := (decodeJson bs).bind loads

theorem dumpsWith_obj (esc : Char → List Char) (members : Members) :
    ∃ c cs, dumpsWith esc (.obj members) = '{' :: c :: cs ∧ c.toNat ≠ 0 := by
  cases members with
  | nil => exact ⟨'}', [], rfl, by decide⟩
  | cons m ms => exact ⟨'"', _, rfl, by decide⟩

theorem decodeJson_dumps (esc : Char → List Char) (members : Members) :
    decodeJson (Utf8.encode (dumpsWith esc (.obj members))) = some (dumpsWith esc (.obj members)) := by
  obtain ⟨c, cs, htext, hc⟩ := dumpsWith_obj esc members
  rw [htext, decodeJson_encode hc]

/-- A dict reads back from its bytes, whatever its writer escapes. -/
theorem loadsBytes_dumps {esc : Char → List Char} (hesc : Escapes esc) (members : Members) :
    loadsBytes (Utf8.encode (dumpsWith esc (.obj members))) = some (.obj members) := by
  rw [loadsBytes, decodeJson_dumps]
  exact loads_dumpsWith hesc _

theorem loadsBytes_obj (members : Members) :
    loadsBytes (Utf8.encode (dumps (.obj members))) = some (.obj members) :=
  loadsBytes_dumps run_escChar members

def queryError (message : String) : PipeExc := .foreign "QueryError" message

/-- One line of `_jsonl_to_rows`; `why` is the text of the JSON error. -/
def rowOfLine (why : Bytes → String) (line : Bytes) : Except PipeExc Record :=
  match loadsBytes line with
  | none => .error (queryError ("bash stage output is not valid JSONL: " ++ why line))
  | some (.obj members) => .ok (Members.record members)
  | some _ => .error (queryError "bash stage output lines must be JSON objects")

/-- `_jsonl_to_rows`. -/
def jsonlToRows (why : Bytes → String) (data : Bytes) : Except PipeExc (List Record) :=
  (((splitLines data).map trim).filter (· ≠ [])).mapM (rowOfLine why)

end Seekbase
