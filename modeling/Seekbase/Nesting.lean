/-
# Seekbase.Nesting — rows to lines and back, on an interpreter that goes only so deep.

The rows of a stage are written as lines of JSON for the next and read back from what it printed.  The
lines hold: a line feed inside a text is escaped, a line separator that is no line feed is no ending for
bytes, and stripping a line takes nothing off an object.  What does not hold is the promise that a line
is read or refused.  Reader and writer recurse, the refusal catches `ValueError`, and too deep a line
raises another error.

* `rowsToJsonlIn`, `jsonlToRowsIn` — the two functions, where `json` has its limits;
* `rowsToJsonlIn_ok_iff`, `jsonlToRowsIn_ok_iff` — what they give is what they give without;
* `bodies_rowsToJsonl`  — the lines of the rows, one for each;
* `rows_survive_iff`    — which rows come back, and which bytes are read or refused.
-/
import Seekbase.Jsonl
import Seekbase.Lib.JsonLimits

namespace Seekbase

open JsonText Lines

/-! ## The two functions -/

/-- What `json` can do from where it is called: `dumps` by the limits of writing, `loads` by those of
reading. -/
structure Interp where
  writing : Limits
  reading : Limits

/-- The text goes on with what was being encoded or decoded. -/
def recursionError : PipeExc := .foreign "RecursionError" "maximum recursion depth exceeded"

/-- An error of `json.dumps`. -/
def dumpsError : Refusal → PipeExc
  | .value => .foreign "ValueError" "Exceeds the limit for integer string conversion"
  | .recursion => recursionError

/-- One line of `_rows_to_jsonl`. -/
def rowLineIn (L : Limits) (row : Record) : Except PipeExc Bytes :=
  match dumpsIn L (.obj (row.map fun kv => (kv.1, kv.2.image))) with
  | .ok text => .ok (Utf8.encode text ++ [lf])
  | .error r => .error (dumpsError r)

/-- `_rows_to_jsonl`. -/
def rowsToJsonlIn (L : Limits) (rows : List Record) : Except PipeExc Bytes :=
  (rows.mapM (rowLineIn L)).map List.flatten

/-- One line of `_jsonl_to_rows`: the `ValueError`s of the decoding and of the parsing are caught. -/
def rowOfLineIn (L : Limits) (why : Bytes → String) (line : Bytes) : Except PipeExc Record :=
  match (decodeJson line).elim (.error .value) (loadsIn L) with
  | .error .value => .error (queryError ("bash stage output is not valid JSONL: " ++ why line))
  | .error .recursion => .error recursionError
  | .ok (.obj members) => .ok (Members.record members)
  | .ok _ => .error (queryError "bash stage output lines must be JSON objects")

/-- The lines that are not blank, stripped. -/
def bodies (data : Bytes) : List Bytes := ((splitLines data).map trim).filter (· ≠ [])

/-- `_jsonl_to_rows`. -/
def jsonlToRowsIn (L : Limits) (why : Bytes → String) (data : Bytes) : Except PipeExc (List Record) :=
  (bodies data).mapM (rowOfLineIn L why)

/-! ## Line by line -/

section Lines

variable {L : Limits} {why : Bytes → String} {m : Members} {line : Bytes} {row : Record}

/-- A row whose line is within the limits. -/
def Record.Fits (L : Limits) (row : Record) : Prop :=
  (Json.obj (row.map fun kv => (kv.1, kv.2.image))).fitsAt L 0 = true

theorem image_record (m : Members) : (m.record.map fun kv => (kv.1, kv.2.image)) = m := by
  rw [Members.record, List.map_map]
  exact List.map_id m

theorem fits_record : m.record.Fits L ↔ (Json.obj m).fitsAt L 0 = true := by
  rw [Record.Fits, image_record]

theorem rowLine_record (m : Members) :
    rowLine m.record = Utf8.encode (dumps (.obj m)) ++ [lf] := by
  rw [rowLine, image_record]

theorem rowLineIn_ok_iff {bs : Bytes} :
    rowLineIn L row = .ok bs ↔ row.Fits L ∧ bs = rowLine row := by
  unfold rowLineIn rowLine Record.Fits
  constructor
  · intro h
    split at h
    · next text htext =>
      obtain ⟨hfits, rfl⟩ := dumpsIn_ok_iff.mp htext
      exact ⟨hfits, (Except.ok.inj h).symm⟩
    · cases h
  · rintro ⟨hfits, rfl⟩
    rw [dumpsIn_ok_iff.mpr ⟨hfits, rfl⟩]

theorem rowsToJsonlIn_ok_iff {rows : List Record} {data : Bytes} :
    rowsToJsonlIn L rows = .ok data ↔ (∀ row ∈ rows, row.Fits L) ∧ data = rowsToJsonl rows := by
  have hlines : ∀ lines, rows.mapM (rowLineIn L) = .ok lines
      ↔ (∀ row ∈ rows, row.Fits L) ∧ lines = rows.map rowLine :=
    fun lines => mapM_ok_map_iff fun row _ bs => rowLineIn_ok_iff
  rw [rowsToJsonlIn, map_ok_iff]
  simp only [hlines, and_assoc, exists_and_left, exists_eq_left]
  rw [rowsToJsonl, List.flatMap_def]
  exact and_congr_right' eq_comm

theorem loads_of_line {j : Json} :
    (decodeJson line).elim (.error .value) (loadsIn L) = .ok j
      ↔ loadsBytes line = some j ∧ j.fitsAt L 0 = true := by
  rw [loadsBytes]
  cases decodeJson line with
  | none => exact ⟨by simp, by simp⟩
  | some text => exact loadsIn_ok_iff

theorem rowOfLineIn_ok_iff : rowOfLineIn L why line = .ok row
    ↔ ∃ m, loadsBytes line = some (.obj m) ∧ (Json.obj m).fitsAt L 0 = true ∧ row = Members.record m := by
  unfold rowOfLineIn
  constructor
  · intro h
    split at h
    · cases h
    · cases h
    · next m hm =>
      obtain ⟨hload, hfits⟩ := loads_of_line.mp hm
      exact ⟨m, hload, hfits, (Except.ok.inj h).symm⟩
    · cases h
  · rintro ⟨m, hload, hfits, rfl⟩
    rw [loads_of_line.mpr ⟨hload, hfits⟩]

theorem queryError_ne (text : String) : queryError text ≠ recursionError := by
  simp [queryError, recursionError]

/-- A line that opens a container too many. -/
def TooDeep (L : Limits) (line : Bytes) : Prop :=
  ∃ text, decodeJson line = some text ∧ start.Overflows L text

theorem loads_too_deep :
    (decodeJson line).elim (.error .value) (loadsIn L) = .error .recursion ↔ TooDeep L line := by
  unfold TooDeep
  cases decodeJson line with
  | none => exact ⟨fun h => (nomatch h), fun ⟨_, h, _⟩ => nomatch h⟩
  | some text =>
    show loadsIn L text = _ ↔ _
    rw [loadsIn_recursion_iff]
    exact ⟨fun h => ⟨text, rfl, h⟩, fun ⟨_, htext, h⟩ => Option.some.inj htext ▸ h⟩

/-- A line raises on its depth, or is read, or is refused. -/
theorem rowOfLineIn_cases (L : Limits) (why : Bytes → String) (line : Bytes) : (TooDeep L line ∧ rowOfLineIn L why line = .error recursionError)
    ∨ ¬ TooDeep L line ∧ ((∃ row, rowOfLineIn L why line = .ok row)
      ∨ ∃ text, rowOfLineIn L why line = .error (queryError text)) := by
  rw [← loads_too_deep]
  unfold rowOfLineIn
  split
  · next h =>
    rw [h]
    exact Or.inr ⟨by simp, Or.inr ⟨_, rfl⟩⟩
  · next h => exact Or.inl ⟨h, rfl⟩
  · next h =>
    rw [h]
    exact Or.inr ⟨by simp, Or.inl ⟨_, rfl⟩⟩
  · next h =>
    rw [h]
    exact Or.inr ⟨by simp, Or.inr ⟨_, rfl⟩⟩

end Lines

/-! ## Reading what was written -/

section Survive

variable {why : Bytes → String}

theorem rowOfLine_ok_iff {line : Bytes} {row : Record} : rowOfLine why line = .ok row
    ↔ ∃ m, loadsBytes line = some (.obj m) ∧ row = Members.record m := by
  unfold rowOfLine
  constructor
  · intro h
    split at h
    · cases h
    · next m hm => exact ⟨m, hm, (Except.ok.inj h).symm⟩
    · cases h
  · rintro ⟨m, hm, rfl⟩
    rw [hm]

/-- What is read within the limits is what is read without, if it is within them. -/
theorem jsonlToRowsIn_ok_iff {L : Limits} {data : Bytes} {rows : List Record} :
    jsonlToRowsIn L why data = .ok rows
      ↔ jsonlToRows why data = .ok rows ∧ ∀ row ∈ rows, row.Fits L := by
  have hline : ∀ line row, rowOfLineIn L why line = .ok row
      ↔ rowOfLine why line = .ok row ∧ row.Fits L := by
    intro line row
    rw [rowOfLineIn_ok_iff, rowOfLine_ok_iff]
    constructor
    · rintro ⟨m, hload, hfits, rfl⟩
      exact ⟨⟨m, hload, rfl⟩, fits_record.mpr hfits⟩
    · rintro ⟨⟨m, hload, rfl⟩, hfits⟩
      exact ⟨m, hload, fits_record.mp hfits, rfl⟩
  show (bodies data).mapM _ = _ ↔ (bodies data).mapM _ = _ ∧ _
  rw [mapM_ok_iff, mapM_ok_iff]
  simp only [hline]
  induction bodies data generalizing rows with
  | nil =>
    rw [List.forall₂_nil_left_iff, List.forall₂_nil_left_iff, iff_self_and]
    rintro rfl
    simp
  | cons line lines ih =>
    cases rows with
    | nil => simp
    | cons row rows =>
      rw [List.forall₂_cons, List.forall₂_cons, List.forall_mem_cons, ih]
      tauto

theorem line_ge {m : Members} {b : UInt8} (hb : b ∈ Utf8.encode (dumps (.obj m))) : 32 ≤ b.toNat :=
  Utf8.encode_ge (by omega) (dumps_ge _) hb

/-- No byte of an object's text ends a line. -/
theorem isLine_rowLine (m : Members) : IsLine (rowLine (Members.record m)) := by
  rw [rowLine_record]
  refine isLine_of_body fun b hb => ?_
  have hge := line_ge hb
  refine ⟨?_, ?_⟩
  · rintro rfl
    exact absurd hge (by decide)
  · rintro rfl
    exact absurd hge (by decide)

/-- Stripping a line takes nothing off the object: it stands between braces. -/
theorem trim_rowLine (m : Members) :
    trim (rowLine (Members.record m)) = Utf8.encode (dumps (.obj m)) := by
  obtain ⟨mid, hmid⟩ := dumps_obj_braces m
  have hbytes : Utf8.encode (dumps (.obj m)) = 123 :: Utf8.encode mid ++ [125] := by
    rw [hmid, Utf8.encode_append]
    rfl
  rw [rowLine_record, hbytes]
  exact trim_line rfl rfl _

/-- The lines of some rows are their objects, one for each. -/
theorem bodies_rowsToJsonl (ms : List Members) :
    bodies (rowsToJsonl (ms.map Members.record)) = ms.map fun m => Utf8.encode (dumps (.obj m)) := by
  have hlines : splitLines (rowsToJsonl (ms.map Members.record))
      = ms.map fun m => rowLine (Members.record m) := by
    rw [rowsToJsonl, List.flatMap_map, List.flatMap_def]
    refine splitLines_flatten fun l hl => ?_
    obtain ⟨m, -, rfl⟩ := List.mem_map.mp hl
    exact isLine_rowLine m
  have htrim : trim ∘ (fun m => rowLine (Members.record m)) = fun m => Utf8.encode (dumps (.obj m)) :=
    funext trim_rowLine
  rw [bodies, hlines, List.map_map, htrim]
  refine List.filter_eq_self.mpr fun body hbody => ?_
  obtain ⟨m, -, rfl⟩ := List.mem_map.mp hbody
  obtain ⟨c, cs, htext, -⟩ := dumpsWith_obj escChar m
  rw [dumps, htext]
  rfl

theorem rows_read_iff (L : Limits) (why : Bytes → String) {ms : List Members} :
    jsonlToRowsIn L why (rowsToJsonl (ms.map Members.record)) = .ok (ms.map Members.record)
      ↔ ∀ m ∈ ms, (Json.obj m).fitsAt L 0 = true := by
  rw [jsonlToRowsIn_ok_iff, List.forall_mem_map]
  simp only [fits_record]
  refine and_iff_right ?_
  show (bodies _).mapM _ = _
  rw [bodies_rowsToJsonl, mapM_ok_iff, List.forall₂_map_left_iff, List.forall₂_map_right_iff,
    List.forall₂_same]
  intro m _
  exact rowOfLine_ok_iff.mpr ⟨m, loadsBytes_obj m, rfl⟩

/-- The rows come back as they were. -/
def RoundTrips (I : Interp) (why : Bytes → String) (rows : List Members) : Prop :=
  (rowsToJsonlIn I.writing (rows.map Members.record)).bind (jsonlToRowsIn I.reading why)
    = .ok (rows.map Members.record)

/-- Every line that is not blank is an object of the result, in order, or the bytes are refused. -/
def ReadOrRefused (I : Interp) (why : Bytes → String) (data : Bytes) : Prop :=
  (∃ objects : List Members, jsonlToRowsIn I.reading why data = .ok (objects.map Members.record)
      ∧ List.Forall₂ (fun line m => loadsBytes line = some (.obj m)) (bodies data) objects)
    ∨ ∃ text, jsonlToRowsIn I.reading why data = .error (queryError text)

/-- A line is too deep, and all before it are objects that can be read. -/
def Bottomless (L : Limits) (data : Bytes) : Prop :=
  ∃ before line after, bodies data = before ++ line :: after ∧ TooDeep L line
    ∧ ∀ body ∈ before, ∃ m, loadsBytes body = some (.obj m) ∧ (Json.obj m).fitsAt L 0 = true

theorem roundTrips_iff {I : Interp} {rows : List Members} : RoundTrips I why rows ↔ ∀ m ∈ rows,
    (Json.obj m).fitsAt I.writing 0 = true ∧ (Json.obj m).fitsAt I.reading 0 = true := by
  have hwritten : (∀ row ∈ rows.map Members.record, row.Fits I.writing)
      ↔ ∀ m ∈ rows, (Json.obj m).fitsAt I.writing 0 = true := by
    rw [List.forall_mem_map]
    simp only [fits_record]
  rw [RoundTrips, forall₂_and, ← hwritten, ← rows_read_iff I.reading why]
  constructor
  · intro h
    obtain ⟨data, hdata, hread⟩ := bind_ok_iff.mp h
    obtain ⟨hfits, rfl⟩ := rowsToJsonlIn_ok_iff.mp hdata
    exact ⟨hfits, hread⟩
  · rintro ⟨hfits, hread⟩
    exact bind_ok_iff.mpr ⟨_, rowsToJsonlIn_ok_iff.mpr ⟨hfits, rfl⟩, hread⟩

/-- A line can be read exactly if it is an object within the limits. -/
theorem readable_iff {L : Limits} {line : Bytes} : (∃ row, rowOfLineIn L why line = .ok row)
    ↔ ∃ m, loadsBytes line = some (.obj m) ∧ (Json.obj m).fitsAt L 0 = true := by
  simp only [rowOfLineIn_ok_iff]
  exact ⟨fun ⟨_, m, hload, hfits, _⟩ => ⟨m, hload, hfits⟩,
    fun ⟨m, hload, hfits⟩ => ⟨_, m, hload, hfits, rfl⟩⟩

/-- Bytes raise on their depth exactly where a line that is too deep is come to. -/
theorem bottomless_iff {L : Limits} (why : Bytes → String) {data : Bytes} :
    Bottomless L data ↔ jsonlToRowsIn L why data = .error recursionError := by
  rw [jsonlToRowsIn, mapM_error_iff, Bottomless]
  simp only [readable_iff]
  constructor
  · rintro ⟨before, line, after, hdata, hdeep, hbefore⟩
    refine ⟨before, line, after, hdata, hbefore, ?_⟩
    rcases rowOfLineIn_cases L why line with ⟨-, h⟩ | ⟨hno, -⟩
    · exact h
    · exact absurd hdeep hno
  · rintro ⟨before, line, after, hdata, hbefore, h⟩
    refine ⟨before, line, after, hdata, ?_, hbefore⟩
    by_contra hno
    rcases rowOfLineIn_cases L why line with ⟨hdeep, -⟩ | ⟨-, ⟨row, hrow⟩ | ⟨text, hrow⟩⟩
    · exact hno hdeep
    · rw [h] at hrow
      cases hrow
    · rw [h, Except.error.injEq] at hrow
      exact queryError_ne text hrow.symm

theorem objects_of_rows {L : Limits} {data : Bytes} {rows : List Record}
    (h : jsonlToRowsIn L why data = .ok rows) : ∃ objects : List Members,
      rows = objects.map Members.record
        ∧ List.Forall₂ (fun line m => loadsBytes line = some (.obj m)) (bodies data) objects := by
  have hrows := mapM_ok_iff.mp h
  clear h
  generalize bodies data = lines at hrows ⊢
  induction hrows with
  | nil => exact ⟨[], rfl, .nil⟩
  | cons hrow _ ih =>
    obtain ⟨m, hload, -, rfl⟩ := rowOfLineIn_ok_iff.mp hrow
    obtain ⟨objects, rfl, hobjects⟩ := ih
    exact ⟨m :: objects, rfl, .cons hload hobjects⟩

/-- SURVIVAL.  Rows come back exactly if every one of them is within the limits of writing and of
reading; and bytes are read line by line or refused exactly if no line that is come to is too deep. -/
theorem rows_survive_iff (I : Interp) (why : Bytes → String) :
    (∀ rows : List Members, RoundTrips I why rows ↔ ∀ m ∈ rows,
      (Json.obj m).fitsAt I.writing 0 = true ∧ (Json.obj m).fitsAt I.reading 0 = true)
    ∧ ∀ data, ReadOrRefused I why data ↔ ¬ Bottomless I.reading data := by
  refine ⟨fun rows => roundTrips_iff, fun data => ?_⟩
  rw [bottomless_iff why, ReadOrRefused]
  cases h : jsonlToRowsIn I.reading why data with
  | ok rows =>
    refine ⟨fun _ => by simp, fun _ => Or.inl ?_⟩
    obtain ⟨objects, rfl, hobjects⟩ := objects_of_rows h
    exact ⟨objects, rfl, hobjects⟩
  | error e =>
    obtain ⟨before, line, after, -, -, hline⟩ := mapM_error_iff.mp h
    rcases rowOfLineIn_cases I.reading why line with ⟨-, hrow⟩ | ⟨-, ⟨row, hrow⟩ | ⟨text, hrow⟩⟩
    · obtain rfl := Except.error.inj (hline.symm.trans hrow)
      refine ⟨?_, fun hno => absurd rfl hno⟩
      rintro (⟨objects, hok, -⟩ | ⟨text, htext⟩)
      · cases hok
      · exact absurd (Except.error.inj htext).symm (queryError_ne text)
    · cases hline.symm.trans hrow
    · obtain rfl := Except.error.inj (hline.symm.trans hrow)
      refine ⟨fun _ hdeep => ?_, fun _ => Or.inr ⟨text, rfl⟩⟩
      exact queryError_ne text (Except.error.inj hdeep)

end Survive

/-! ## A row that is lost -/

/-- Lists in lists. -/
def nested : Nat → Json
  | 0 => .arr []
  | n + 1 => .arr [nested n]

theorem dumps_nested (n : Nat) :
    dumps (nested n) = List.replicate (n + 1) '[' ++ List.replicate (n + 1) ']' := by
  induction n with
  | zero => rfl
  | succ n ih =>
    have htext : dumps (nested (n + 1)) = '[' :: (dumps (nested n) ++ [']']) := rfl
    rw [htext, ih, List.append_assoc, ← List.replicate_succ']
    rfl

theorem nested_fits {L : Limits} {k n : Nat} (h : (nested n).fitsAt L k = true) : k + n < L.depth := by
  induction n generalizing k with
  | zero => exact (fitsAt_arr.mp h).1
  | succ n ih =>
    have hinner := ih ((fitsAt_arr.mp h).2 _ List.mem_cons_self)
    omega

/-- A row is deeper than a list in it. -/
theorem deep_row_fits {L : Limits} {n : Nat} {key : String}
    (h : (Json.obj [(key, nested n)]).fitsAt L 0 = true) : n + 1 < L.depth := by
  have hvalue := nested_fits ((fitsAt_obj.mp h).2 _ List.mem_cons_self)
  omega

theorem deep_row_text (n : Nat) : dumps (.obj [("a", nested n)])
    = ['{', '"', 'a', '"', ':', ' '] ++ List.replicate (n + 1) '['
      ++ (List.replicate (n + 1) ']' ++ ['}']) := by
  have htext (j : Json) : dumps (.obj [("a", j)])
      = ['{', '"', 'a', '"', ':', ' '] ++ (dumps j ++ ['}']) := rfl
  rw [htext, dumps_nested, List.append_assoc, List.append_assoc]

/-- CPython's recursion limit, and its limit on the digits of an integer. -/
def cpython : Interp := ⟨⟨1000, some 4300⟩, ⟨1000, some 4300⟩⟩

/-- The text of the error, of a line that is no JSON from its first character on. -/
def noValue : Bytes → String := fun _ => "Expecting value: line 1 column 1 (char 0)"

def deepRow : Members := [("a", nested 1000)]

/-- A row of one list in another, a thousand times over, is not written; and its line, which is a JSON
object, is neither read nor refused. -/
theorem deep_row_lost : ¬ RoundTrips cpython noValue [deepRow]
    ∧ loadsBytes (Utf8.encode (dumps (.obj deepRow))) = some (.obj deepRow)
    ∧ ¬ ReadOrRefused cpython noValue (rowsToJsonl [Members.record deepRow]) := by
  have hbodies := bodies_rowsToJsonl [deepRow]
  rw [List.map_singleton, List.map_singleton] at hbodies
  have hopen : start.run ['{', '"', 'a', '"', ':', ' '] = some ⟨[.obj [] "a"], .value⟩ := rfl
  have hfits : FitsStack cpython.reading [.obj [] "a"] := ⟨by decide, List.forall_mem_nil _, trivial⟩
  have hdeep : TooDeep cpython.reading (Utf8.encode (dumps (.obj deepRow))) := by
    refine ⟨_, decodeJson_dumps escChar deepRow, ?_⟩
    show start.Overflows cpython.reading (dumps (.obj [("a", nested 1000)]))
    rw [deep_row_text]
    exact overflows_brackets hopen hfits (by decide)
  have hraised := (bottomless_iff noValue).mp ⟨[], _, [], hbodies, hdeep, by simp⟩
  refine ⟨fun h => ?_, loadsBytes_obj deepRow, ?_⟩
  · have hrow := deep_row_fits (roundTrips_iff.mp h deepRow List.mem_cons_self).1
    exact absurd hrow (by decide)
  · rintro (⟨objects, hok, -⟩ | ⟨text, htext⟩)
    · rw [hraised] at hok
      cases hok
    · rw [hraised, Except.error.injEq] at htext
      exact queryError_ne text htext.symm

end Seekbase
